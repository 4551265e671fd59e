import Xv6.Fs.ByteString
import Xv6.Mkfs.Final

/-! # The regions of the image of `mkfs.c`

Inodes and blocks come from the counters `freeinode` and `freeblock`.  The second one is
checked by the reads of `iappend`; nothing checks the first one. -/
namespace Xv6.Mkfs
open Function Conc Fs List Option

/-- `c` empty files with names of two letters. -/
def emptyFiles (c : ℕ) : List (Name × List UInt8) :=
  (List.range c).map fun i => ([UInt8.ofNat (97 + i / 26), UInt8.ofNat (97 + i % 26)],[])

section Empty
variable {c : ℕ}

theorem length_emptyFiles : (emptyFiles c).length = c := by simp [emptyFiles]

theorem mem_emptyFiles {f : Name × List UInt8} (hc : c ≤ 4000) (h : f ∈ emptyFiles c) :
    47 ∉ f.1 ∧ f.2 = [] := by
  obtain ⟨i,hi,rfl⟩ := mem_map.mp h
  rw [mem_range] at hi
  refine ⟨fun hm => ?_,rfl⟩
  simp only [mem_cons,not_mem_nil,or_false,← UInt8.toNat_inj,UInt8.toNat_ofNat'] at hm
  change 47 = _ ∨ 47 = _ at hm
  omega

theorem blocksUsed_emptyFiles (hc : c ≤ 4000) : blocksUsed (emptyFiles c) = nmeta + rootBlocks c := by
  have hsum : ((emptyFiles c).map fun f => blocksFor f.2.length).sum = 0 := by
    rw [sum_eq_zero]
    intro x hx
    obtain ⟨f,hf,rfl⟩ := mem_map.mp hx
    rw [(mem_emptyFiles hc hf).2]
    rfl
  rw [blocksUsed,hsum,length_emptyFiles,Nat.add_zero]

theorem fits_emptyFiles (hc : c ≤ NINODES - 2) : Fits (emptyFiles c) := by
  have hN : NINODES = 200 := rfl
  refine ⟨by rwa [length_emptyFiles],fun f hf => (mem_emptyFiles (by omega) hf).1,fun f hf => ?_,?_⟩
  · rw [(mem_emptyFiles (by omega) hf).2]
    exact Nat.zero_le _
  · have hmono := blocksFor_mono (show 16 * (c + 2) ≤ 16 * 200 by omega)
    have hb : nmeta + blocksFor (16 * 200) ≤ FSSIZE := by decide
    rw [blocksUsed_emptyFiles (by omega),rootBlocks]
    omega

end Empty

section Holes
variable {fs : List (Name × List UInt8)} {d : Disk} {used : ℕ}

def blocksHeld (di : Dinode) (d : Disk) : Finset ℕ :=
  (Finset.range MAXFILE).filter fun k => di.blk d k ≠ 0

theorem size_le_held {di : Dinode} (hm : Mapped di d) :
    di.size.toNat ≤ (blocksHeld di d).card * BSIZE := by
  have hB : BSIZE = 512 := rfl
  have hsub : Finset.range ((di.size.toNat + 511) / 512) ⊆ blocksHeld di d := by
    intro k hk
    rw [Finset.mem_range] at hk
    have hb : di.blk d k ≠ 0 := hm k (by rw [hB]; omega)
    exact Finset.mem_filter.mpr ⟨Finset.mem_range.mpr (lt_MAXFILE_of_blk hb),hb⟩
  have := Finset.card_le_card hsub
  rw [Finset.card_range] at this
  rw [hB]
  omega

theorem Finished.stored_lt {names : List Name} (h : Finished names used d) {s : ℕ × ℕ}
    (hs : stored (inodeAt d) d s ≠ 0) : stored (inodeAt d) d s < used := by
  have hbit := h.owned.bit_of_held hs
  rw [h.bit _ (lt_BPB (h.owned.area s hs).2)] at hbit
  exact of_decide_eq_true hbit

theorem Made.type_ne_dev (h : Made fs used d) {i : ℕ} {n : Node} (hn : files d i = some n) :
    n.type ≠ T_DEV := by
  by_cases h1 : i = 1
  · obtain ⟨r,hr,hrt,-⟩ := h.root
    rw [h1,hr] at hn
    rw [← Option.some.inj hn,hrt]
    decide
  by_cases hi : i < 2 ∨ fs.length + 2 ≤ i
  · rw [h.other i h1 hi] at hn
    cases hn
  · have hj : i - 2 < fs.length := by omega
    have hfile := h.file (i - 2) fs[i - 2] (List.getElem?_eq_getElem hj)
    rw [Nat.sub_add_cancel (by omega),hn] at hfile
    rw [Option.some.inj hfile]
    exact show T_FILE ≠ T_DEV by decide

end Holes

section Regions
variable {fs : List (Name × List UInt8)} {d : Disk} {m m' : Image} {names : List Name}

/-- Block 57 holds no inode below `NINODES`, and block 58 is the free map. -/
theorem Image.Ok.past_inodes (h : m.Ok) (m' : Image) (hfi : m.freeinode ≤ m'.freeinode)
    (hfb : m'.freeblock = m.freeblock) (hdisk : ∀ b, b ≠ 57 → b ≠ 58 → m'.disk b = m.disk b) :
    m'.Ok ∧ files m'.full = files m.full := by
  have hfull : m'.full = update m.full 57 (m'.disk 57) := by
    funext b
    by_cases h57 : b = 57
    · rw [h57,update_self,Image.full_ne (by omega)]
    · rw [update_of_ne h57]
      by_cases h58 : b = 58
      · rw [h58]
        change update m'.disk 58 _ 58 = update m.disk 58 _ 58
        rw [update_self,update_self,hfb]
      · rw [Image.full_ne h58,Image.full_ne h58,hdisk b h57 h58]
  have hN : NINODES = 200 := rfl
  have hinode : inodeAt m'.full = inodeAt m.full := by
    funext i
    unfold inodeAt
    by_cases hi : i < NINODES
    · rw [if_pos hi,if_pos hi,hfull,update_of_ne (by rw [IBLOCK_eq]; omega)]
    · rw [if_neg hi,if_neg hi]
  have hst : stored (inodeAt m.full) m'.full = stored (inodeAt m.full) m.full := by
    rw [hfull]
    exact h.sound.owned.stored_meta _ (by omega)
  have hblk : ∀ i, i < NINODES → (inodeAt m.full i).type ≠ 0 → ∀ k,
      (inodeAt m.full i).blk m'.full k = (inodeAt m.full i).blk m.full k := by
    intro i hi ht k
    rw [blk_stored hi ht,blk_stored hi ht,hst]
  have hbyte : ∀ i, i < NINODES → (inodeAt m.full i).type ≠ 0 → ∀ x,
      (inodeAt m.full i).byteAt m'.full x = (inodeAt m.full i).byteAt m.full x := by
    intro i hi ht x
    unfold Dinode.byteAt
    rw [hblk i hi ht]
    by_cases h0 : (inodeAt m.full i).blk m.full (x / BSIZE) = 0
    · rw [if_pos h0,if_pos h0]
    · have := blk_area h.sound.owned hi ht h0
      rw [if_neg h0,if_neg h0,hfull,update_of_ne (by omega)]
  refine ⟨⟨⟨?_,fun i hi ht k hk => ?_⟩,hfb ▸ h.freeblock,hfb ▸ h.room,fun b hb => ?_,?_,
    fun i hi => ?_,fun i hi ht x hx => ?_⟩,?_⟩
  · rw [hinode]
    refine h.sound.owned.congr (by decide) (fun s => congrFun hst s) fun b _ => ?_
    rw [hfull]
    exact congrFun (bitAt_update_ne (by omega)) b
  · rw [hinode] at ht hk ⊢
    rw [hblk i hi ht]
    exact h.sound.mapped i hi ht k hk
  · have := h.freeblock
    rw [hfb] at hb
    rw [hdisk b (by omega) (by omega)]
    exact h.zero b hb
  · rw [hdisk 1 (by omega) (by omega)]
    exact h.superblock
  · rw [hinode]
    exact h.free i (hfi.trans hi)
  · rw [hinode] at ht hx ⊢
    rw [hbyte i hi ht]
    exact h.past i hi ht x hx
  · funext i
    unfold files
    rw [hinode]
    by_cases ht : (inodeAt m.full i).type = 0
    · rw [if_pos ht,if_pos ht]
    · have hi := lt_NINODES_of_type ht
      rw [if_neg ht,if_neg ht]
      unfold nodeOf
      simp only [hbyte i hi ht]

/-- The next inode is taken, also where there is none. -/
theorem Image.Ok.ialloc_any (h : m.Ok) (h1 : m.freeinode ≠ 1) (hlt : m.freeinode < 216) :
    (Mkfs.ialloc T_FILE m).2.Ok ∧ files (Mkfs.ialloc T_FILE m).2.full 1 = files m.full 1 := by
  by_cases hi : m.freeinode < NINODES
  · obtain ⟨hok,hf⟩ := h.ialloc T_FILE (by decide) hi
    exact ⟨hok,by rw [hf,update_of_ne h1.symm]⟩
  · have hN : NINODES = 200 := rfl
    obtain ⟨hok,hf⟩ := h.past_inodes (Mkfs.ialloc T_FILE m).2 (Nat.le_succ _) rfl
      fun b h57 h58 => by
        change winode m.freeinode _ m.disk b = _
        rw [winode,upd_eq_update,update_of_ne (by rw [IBLOCK_eq]; omega)]
    exact ⟨hok,by rw [hf]⟩

/-- `mkfs` adds empty files as long as there is room for their entries. -/
theorem Rooted.addFiles_empty {gs : List (Name × List UInt8)} (h : Rooted names m)
    (hgs : ∀ g ∈ gs, 47 ∉ g.1 ∧ g.2 = []) (hlen : names.length + gs.length + 2 ≤ 216)
    (hcount : m.freeblock ≤ nmeta + rootBlocks names.length) :
    ∃ m', addFiles gs m = some m' ∧ Rooted (names ++ gs.map Prod.fst) m' ∧
      m'.freeblock ≤ nmeta + rootBlocks (names.length + gs.length) := by
  induction gs generalizing names m with
  | nil => exact ⟨m,rfl,by rwa [map_nil,append_nil],hcount⟩
  | cons g gs ih =>
    rw [length_cons] at hlen
    have hfi := h.freeinode
    obtain ⟨h47,hnil⟩ := hgs g mem_cons_self
    obtain ⟨hok,hroot⟩ := h.ok.ialloc_any (by omega) (by omega)
    have hmono := blocksFor_mono (show 16 * (names.length + 1 + 2) ≤ 16 * 216 by omega)
    have hb : nmeta + blocksFor (16 * 216) ≤ FSSIZE := by decide
    have hM : MAXFILE * BSIZE = 71680 := rfl
    have hfb : (ialloc T_FILE m).2.freeblock = m.freeblock := rfl
    obtain ⟨m2,h2,hc2⟩ := h.link_total hok hroot
      (Dirent.named (shortName g.1) (names.length + 2)) (by omega)
      (by rw [hfb]; unfold rootBlocks at hcount ⊢; omega)
    obtain ⟨hr2,-⟩ := h.link hok rfl hroot h2
    have hadd : addFile g m = some m2 := by
      refine (addFile_eq_some hfi).mpr ⟨h47,?_,m2,h2,?_⟩
      · rw [IBLOCK_eq]
        simp only [FSSIZE]
        omega
      · rw [hnil]
        rfl
    have hlen2 : (names ++ [g.1]).length = names.length + 1 := by simp
    obtain ⟨m',h',hr',hc'⟩ := ih hr2 (fun f hf => hgs f (mem_cons_of_mem _ hf))
      (by rw [hlen2]; omega) (by rw [hlen2]; omega)
    refine ⟨m',bind_eq_some_iff.mpr ⟨m2,hadd,h'⟩,?_,?_⟩
    · rwa [map_cons,append_cons]
    · rw [hlen2] at hc'
      rwa [length_cons,Nat.add_comm gs.length 1,← Nat.add_assoc]

/-- The first bit of the free map is set, so that its first bytes are no file. -/
theorem type_bitmap {used : ℕ} (h : 0 < used) :
    ((bitmap used Bytes.zero).dinode 0).type ≠ T_FILE := by
  intro hc
  have hbit := bit_bitmap used (b := 0) (by decide)
  rw [decide_eq_true h,Block.bit_eq_testBit] at hbit
  have hword : LittleEndian.read16 (fun i => (bitmap used Bytes.zero).byte (0 * Dinode.sizeof + i))
      = 2 := by
    rw [← UInt16.toUInt16_toInt16 (LittleEndian.read16 _)]
    exact congrArg Int16.toUInt16 hc
  have hsum := congrArg UInt16.toNat hword
  simp only [LittleEndian.read16,UInt16.toNat_ofNat',UInt16.reduceToNat] at hsum
  have h0 := ((bitmap used Bytes.zero).byte 0).toNat_lt
  have h1 := ((bitmap used Bytes.zero).byte 1).toNat_lt
  have htwo : ((bitmap used Bytes.zero).byte 0).toNat = 2 := by
    simp only [Nat.zero_mul,Nat.zero_add] at hsum
    omega
  rw [Nat.zero_div,htwo] at hbit
  exact absurd hbit (by decide)

end Regions
end Xv6.Mkfs
