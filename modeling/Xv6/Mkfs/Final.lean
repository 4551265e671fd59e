import Xv6.Mkfs.Root

/-! # The image that `mkfs.c` leaves

The size of the root directory is rounded up and the free map is written. -/
namespace Xv6.Mkfs
open Function
open Dirent (sizeof)
open Fs

/-- The image `d` has the entries for `names` in the root directory, and the blocks below
`used` are taken. -/
structure Finished (names : List Name) (used : ℕ) (d : Disk) : Prop where
  owned : Owned (inodeAt d) d
  bit : ∀ b, b < BPB → bitAt d b = decide (b < used)
  room : used ≤ FSSIZE
  superblock : Superblock.ofBlock (d 1) = sb
  root : ∃ r, files d 1 = some r ∧ r.type = T_DIR ∧ r.nlink = 1 ∧
    r.size = (16 * (names.length + 2) / BSIZE + 1) * BSIZE ∧
    (∀ j, j < names.length + 2 → some (r.entry j) = (rootEntries names)[j]?) ∧
    ∀ j, names.length + 2 ≤ j → (r.entry j).inum = 0
  /-- the blocks of the root directory below the size before the rounding are there -/
  rootMapped : ∀ k, k * BSIZE < 16 * (names.length + 2) → (inodeAt d 1).blk d k ≠ 0
  mapped : ∀ i, i < NINODES → i ≠ 1 → (inodeAt d i).type ≠ 0 → Mapped (inodeAt d i) d

structure Made (fs : List (Name × List UInt8)) (used : ℕ) (d : Disk) : Prop
    extends Finished (fs.map Prod.fst) used d where
  file : ∀ j f, fs[j]? = some f → files d (j + 2) = some (fileNode f.2)
  other : ∀ i, i ≠ 1 → (i < 2 ∨ fs.length + 2 ≤ i) → files d i = none

section Finish
variable {names : List Name} {fs : List (Name × List UInt8)} {m : Image} {d : Disk} {used : ℕ}

theorem Rooted.finish (h : Rooted names m) (hd : d = Image.full ⟨fixRootSize m.disk,m.freeinode,
    m.freeblock⟩) : Finished names m.freeblock d ∧ ∀ i, i ≠ 1 → files d i = files m.full i := by
  obtain ⟨r,hr,hrt,hrl,hrs,hre⟩ := h.root
  obtain ⟨hi,ht,rfl⟩ := files_eq_some hr
  have hB : BSIZE = 512 := rfl
  obtain ⟨di,hdi⟩ : ∃ di, di = inodeAt m.full 1 := ⟨_,rfl⟩
  obtain ⟨di',hdi'⟩ : ∃ di', di' = { di with
    size := UInt32.ofNat ((di.size.toNat / BSIZE + 1) * BSIZE) } := ⟨_,rfl⟩
  rw [← hdi] at hrt hrl hrs hre
  have hfull : d = writeInode m.full 1 di' := by
    rw [hd]
    unfold fixRootSize
    dsimp only
    rw [show rinode ROOTINO m.disk = di by rw [hdi]; exact rinode_eq hi,← hdi']
    exact full_winode hi di' _ _
  have hsize : di.size.toNat = 16 * (names.length + 2) := hrs
  have hle : 16 * (names.length + 2) ≤ MAXFILE * BSIZE := by
    rw [← hsize,hdi]
    exact h.ok.size_le hi ht
  have hsize' : di'.size.toNat = (16 * (names.length + 2) / BSIZE + 1) * BSIZE := by
    have hM : MAXFILE * BSIZE = 71680 := rfl
    rw [hdi']
    rw [hsize,hB]
    exact UInt32.toNat_ofNat_of_lt' (by simp only [UInt32.size]; omega)
  have ht' : di'.type ≠ 0 := by
    rw [hdi']
    exact hdi ▸ ht
  have hst : ∀ a, stored (update (inodeAt m.full) 1 di') m.full (1,a) = _ :=
    stored_fields ht ht' (by rw [hdi',hdi])
  have hown := h.ok.sound.owned.other_fields hst
  have hblk : ∀ k, di'.blk m.full k = di.blk m.full k := by
    intro k
    rw [hdi']
    rfl
  have hbyte : ∀ x, di'.byteAt m.full x = di.byteAt m.full x := by
    intro x
    rw [hdi']
    rfl
  have hself : update (inodeAt m.full) 1 di' 1 = di' := update_self ..
  have hinode : inodeAt d = update (inodeAt m.full) 1 di' := by
    rw [hfull,inodeAt_writeInode hi]
  have hbd : ∀ i, i < NINODES → (inodeAt d i).type ≠ 0 → ∀ k,
      (inodeAt d i).blk d k = (inodeAt d i).blk m.full k := by
    intro i hi' hti k
    rw [hinode] at hti ⊢
    rw [hfull]
    exact blk_writeInode hown hi hi' hti k
  have hfiles := files_writeInode h.ok.sound.owned hi hst
  rw [if_neg ht',← hfull] at hfiles
  -- the bytes past the old end are zero
  have hdata : (nodeOf di' m.full).data = (nodeOf di m.full).data := by
    funext x
    change (if x < di'.size.toNat then di'.byteAt m.full x else 0)
      = if x < di.size.toNat then di.byteAt m.full x else 0
    rw [hbyte]
    by_cases hx : x < di.size.toNat
    · rw [if_pos hx,if_pos (by rw [hB] at hsize'; omega)]
    · rw [if_neg hx,hdi,h.ok.past 1 hi ht x (by rw [← hdi]; omega),ite_self]
  have hentry : ∀ j, (nodeOf di' m.full).entry j = (nodeOf di m.full).entry j := by
    intro j
    unfold Node.entry
    rw [hdata]
  have hr' : files d 1 = some (nodeOf di' m.full) := by rw [hfiles,update_self]
  refine ⟨⟨?_,fun b hb => ?_,h.ok.room,?_,⟨_,hr',?_,?_,hsize',fun j hj => ?_,
    fun j hj => ?_⟩,fun k hk => ?_,fun i hi' hne hti => ?_⟩,fun i hne => ?_⟩
  · rw [hinode,hfull]
    exact hown.writeInode hi
  · rw [hd,bitAt,Image.full,update_self,bit_bitmap _ hb]
  · rw [hfull,writeInode_ne (by decide),Image.full_ne (by omega)]
    exact h.ok.superblock
  · rw [hdi']
    exact hrt
  · rw [hdi']
    exact hrl
  · rw [hentry]
    exact hre j hj
  · rw [hentry]
    have hz : ∀ x, (nodeOf di m.full).data (j * sizeof + x) = 0 := by
      intro x
      refine if_neg ?_
      rw [hsize,sizeof]
      omega
    unfold Node.entry Dirent.ofBytes
    simp only [hz]
    rfl
  · rw [hbd 1 hi (by rw [hinode,hself]; exact ht'),hinode,hself,hblk,hdi]
    refine h.ok.sound.mapped 1 hi ht k ?_
    rw [← hdi,hsize]
    exact hk
  · intro k hk
    rw [hbd i hi' hti]
    rw [hinode,update_of_ne hne] at hti hk ⊢
    exact h.ok.sound.mapped i hi' hti k hk
  · rw [hfiles,update_of_ne hne]

theorem Built.made (h : Built fs m) (hd : d = Image.full ⟨fixRootSize m.disk,m.freeinode,
    m.freeblock⟩) : Made fs m.freeblock d := by
  obtain ⟨hf,hother⟩ := h.toRooted.finish hd
  refine ⟨hf,fun j f hj => ?_,fun i h1 h2 => ?_⟩
  · rw [hother _ (by omega)]
    exact h.file j f hj
  · rw [hother i h1]
    exact h.other i h1 h2

theorem main_eq_some {d : Disk} : main fs = some d ↔ ∃ m, build fs = some m ∧
    m.freeblock < BSIZE * 8 ∧ d = Image.full ⟨fixRootSize m.disk,m.freeinode,m.freeblock⟩ := by
  rw [main_eq,Option.bind_eq_some_iff]
  refine exists_congr fun m => and_congr_right fun _ => ?_
  unfold balloc
  by_cases hb : m.freeblock < BSIZE * 8
  · rw [if_pos hb,upd_eq_update]
    exact ⟨fun h => ⟨hb,(Option.some.inj h).symm⟩,fun h => congrArg some h.2.symm⟩
  · rw [if_neg hb]
    exact iff_of_false (by simp) fun hc => hb hc.1

/-- What `mkfs` leaves when it exits with status 0. -/
theorem main_made (h : main fs = some d) (hn : fs.length ≤ NINODES - 2) :
    ∃ m, build fs = some m ∧ Made fs m.freeblock d := by
  obtain ⟨m,hm,-,hd⟩ := main_eq_some.mp h
  exact ⟨m,hm,(build_built hm hn).made hd⟩

/-- `mkfs` exits with status 0 on files that fit. -/
theorem Fits.main (h : Fits fs) :
    ∃ d used, Mkfs.main fs = some d ∧ Made fs used d ∧ used ≤ blocksUsed fs := by
  obtain ⟨m,hm,hcount⟩ := h.build
  have hb : m.freeblock < BSIZE * 8 := by
    have := h.room
    have hF : FSSIZE = 1000 := rfl
    have h8 : BSIZE * 8 = 4096 := rfl
    omega
  exact ⟨_,m.freeblock,main_eq_some.mpr ⟨m,hm,hb,rfl⟩,(build_built hm h.count).made rfl,hcount⟩

end Finish

/-- A new file system with the files `names`. -/
structure Fresh (names : List Name) (d : Disk) : Prop where
  sound : Sound (inodeAt d) d
  superblock : Superblock.ofBlock (d 1) = sb
  root : ∃ r, files d 1 = some r ∧ r.type = T_DIR ∧ r.nlink = 1 ∧ r.size % sizeof = 0 ∧
    names.length + 2 ≤ r.count ∧
    (∀ j, j < names.length + 2 → some (r.entry j) = (rootEntries names)[j]?) ∧
    ∀ j, names.length + 2 ≤ j → (r.entry j).inum = 0
  file : ∀ i, 2 ≤ i → i < names.length + 2 →
    ∃ n, files d i = some n ∧ n.type = T_FILE ∧ n.nlink = 1
  other : ∀ i, i ≠ 1 → (i < 2 ∨ names.length + 2 ≤ i) → files d i = none

section Fresh
variable {names : List Name} {fs : List (Name × List UInt8)} {d : Disk} {used : ℕ}

/-- No block is missing where the size of the root directory is rounded up within its
last block. -/
theorem Finished.sound (h : Finished names used d) (hroot : (names.length + 2) % 32 ≠ 0) :
    Sound (inodeAt d) d := by
  refine ⟨h.owned,fun i hi ht => ?_⟩
  by_cases h1 : i = 1
  · subst h1
    obtain ⟨r,hr,-,-,hsize,-⟩ := h.root
    obtain ⟨-,-,rfl⟩ := files_eq_some hr
    have hB : BSIZE = 512 := rfl
    intro k hk
    change (inodeAt d 1).size.toNat = _ at hsize
    refine h.rootMapped k ?_
    rw [hsize] at hk
    rw [hB] at hk ⊢
    omega
  · exact h.mapped i hi h1 ht

theorem Made.fresh (h : Made fs used d) (hroot : (fs.length + 2) % 32 ≠ 0) :
    Fresh (fs.map Prod.fst) d := by
  obtain ⟨r,hr,hrt,hrl,hrs,hre,hrf⟩ := h.root
  have hlen : (fs.map Prod.fst).length = fs.length := List.length_map ..
  rw [hlen] at hrs hre hrf
  have hB : BSIZE = 512 := rfl
  refine ⟨h.toFinished.sound (by rwa [hlen]),h.superblock,⟨r,hr,hrt,hrl,?_,?_,?_,?_⟩,
    fun i hi1 hi2 => ?_,fun i hi1 hi2 => ?_⟩
  · rw [hrs,hB,sizeof]
    omega
  · rw [hlen,Node.count,hrs,hB,sizeof]
    omega
  · rwa [hlen]
  · rwa [hlen]
  · rw [hlen] at hi2
    have hj : i - 2 < fs.length := by omega
    have hfile := h.file (i - 2) fs[i - 2] (List.getElem?_eq_getElem hj)
    rw [Nat.sub_add_cancel hi1] at hfile
    exact ⟨_,hfile,rfl,rfl⟩
  · rw [hlen] at hi2
    exact h.other i hi1 hi2

/-- An image of `mkfs` is a new file system with these files. -/
theorem main_fresh (h : main fs = some d) (hn : fs.length ≤ NINODES - 2)
    (hroot : (fs.length + 2) % 32 ≠ 0) : Fresh (fs.map Prod.fst) d := by
  obtain ⟨m,-,hm⟩ := main_made h hn
  exact hm.fresh hroot

end Fresh
end Xv6.Mkfs
