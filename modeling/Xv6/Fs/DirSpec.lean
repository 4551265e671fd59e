import Xv6.Fs.EditSpec

/-! # What `dirlookup` and `dirlink` do

A directory that is locked, seen as its table of entries. -/
namespace Xv6
open Conc
open Function (update)
open Dirent (sizeof)
open Finset

namespace Fs
section Read
variable {p : ℕ} {E : Stops} {v : View} {S : Finset ℕ} {k i : ℕ} {n : Node}

theorem ofBytes_contentAt {di : Dinode} {d : Disk} {j : ℕ} (hj : j < (nodeOf di d).count) :
    Dirent.ofBytes (cstr (contentAt di d (j * sizeof) sizeof))
      = (nodeOf di d).entry j := by
  refine Dirent.ofBytes_congr fun x hx => ?_
  have hlt : j * sizeof + x < di.size.toNat := by
    have hj' : j < di.size.toNat / sizeof := hj
    simp only [sizeof] at hj' hx ⊢
    omega
  change cstr _ x = if j * sizeof + x < di.size.toNat then _ else 0
  rw [if_pos hlt]
  simp only [cstr,contentAt,List.getD_eq_getElem?_getD,List.getElem?_map,
    List.getElem?_range hx,Option.map_some,Option.getD_some]

theorem readResult_full {di : Dinode} {d : Disk} {off m : ℕ} (h : off + m ≤ di.size.toNat) :
    readResult di d off m = (↑m,contentAt di d off m) := by
  have := di.size.toNat_lt
  unfold readResult
  rw [if_neg (by omega)]
  simp only [if_neg (show ¬ off + m > di.size.toNat by omega)]

theorem readResult_short {di : Dinode} {d : Disk} {off m : ℕ} (h : off ≤ di.size.toNat)
    (hs : di.size.toNat < off + m) (hw : off + m < 2 ^ 32) :
    (readResult di d off m).1 = ↑(di.size.toNat - off) := by
  unfold readResult
  rw [if_neg (by omega)]
  simp only [if_pos (show off + m > di.size.toNat by omega)]

/-- An entry of a locked directory is read.  The panic is for a size that is no multiple
of the size of an entry. -/
theorem Safe.readDirent {Q : Post Dirent} {e : Panic} {j : ℕ}
    (hl : Opened v k i n) (hS : k ∈ S) (hd : n.type = T_DIR)
    (hj : j * sizeof < n.size) (hal : n.size % sizeof ≠ 0 → E (.fail e))
    (h : j < n.count → Q (n.entry j) v (held p S)) :
    Safe p E (Fs.readDirent p k (j * sizeof) e) Q v (held p S) := by
  obtain rfl := hl.nodeOf_eq
  have hi := hl.inum_lt
  have ht := hl.type_ne_zero
  have htd : (inodeAt v.disk i).type ≠ T_DEV := by
    have : (inodeAt v.disk i).type = T_DIR := hd
    rw [this]
    decide
  have hsize : (inodeAt v.disk i).size.toNat ≤ MAXFILE * BSIZE := hl.size_le
  have hM : MAXFILE * BSIZE = 71680 := rfl
  have h16 : sizeof = 16 := rfl
  have hlt : j * sizeof < (inodeAt v.disk i).size.toNat := hj
  have hcount : j < (nodeOf (inodeAt v.disk i) v.disk).count ↔
      j * sizeof + sizeof ≤ (inodeAt v.disk i).size.toNat := by
    change j < (inodeAt v.disk i).size.toNat / sizeof ↔ _
    rw [h16]
    omega
  refine bind (readi hl.ready hl.sound.owned hi hl.copy.symm ht (fun _ => rfl)
    (fun hc => absurd hc htd) hl.holds.inum hl.valid hl.holds.ref (held_mem hS)
    (hl.sound.mapped i hi ht) fun r inp hr => ?_)
  obtain ⟨rfl,rfl⟩ := hr htd
  by_cases hjc : j < (nodeOf (inodeAt v.disk i) v.disk).count
  · rw [readResult_full (hcount.mp hjc)]
    refine bind (panicIf (fun hbad => ?_) fun _ => pure ?_)
    · simp at hbad
    · rw [ofBytes_contentAt hjc]
      exact h hjc
  · -- a short read
    have hshort := readResult_short (d := v.disk) hlt.le (m := sizeof)
      (by rw [hcount] at hjc; omega) (by rw [h16] at hlt ⊢; omega)
    refine bind (panicIf (fun _ => hal fun h0 => hjc ?_) fun hok => ?_)
    · have h0' : (inodeAt v.disk i).size.toNat % sizeof = 0 := h0
      rw [hcount]
      rw [h16] at h0' hlt ⊢
      omega
    · rw [hshort] at hok
      simp only [bne_eq_false_iff_eq,Nat.cast_inj] at hok
      rw [hcount] at hjc
      omega

end Read

section Lookup
variable {p : ℕ} {E : Stops} {v : View} {S : Finset ℕ} {k i : ℕ} {n : Node}
  {name : Name}

theorem entry_lt_of_lt {j : ℕ} (h : j < n.count) : j * sizeof < n.size := by
  unfold Node.count at h
  simp only [sizeof] at h ⊢
  omega

/-- The loop of `dirlookup`: the entries before the `j`-th do not match. -/
theorem Safe.dirlookupFrom {Q : Post (Option (ℕ × ℕ))} {fuel j : ℕ}
    (hl : Opened v k i n) (hS : k ∈ S) (hd : n.type = T_DIR)
    (hal : n.size % sizeof ≠ 0 → E (.fail .dirlookupRead))
    (hfull : ∀ j, n.lookup name = some j → CacheFull v (n.entry j).inum.toNat →
      E (.fail .igetNoInodes))
    (hfuel : n.count < j + fuel) (hle : j ≤ n.count)
    (hprev : ∀ m, m < j → ¬ ((n.entry m).inum ≠ 0 ∧ namecmp name (n.entry m).name = 0))
    (hnone : n.lookup name = none → Q none v (held p S))
    (hsome : ∀ j k' ip, n.lookup name = some j → Got v (n.entry j).inum.toNat k' ip →
      Q (some (k',j * sizeof)) (v.setSlot k' ip) (held p S)) :
    Safe p E (Fs.dirlookupFrom p k name fuel (j * sizeof)) Q v (held p S) := by
  induction fuel generalizing j with
  | zero => omega
  | succ fuel ih =>
    refine inode_seq ?_
    rw [hl.size]
    refine ite (fun hlt => ?_) fun hge => ?_
    · refine bind (readDirent hl hS hd hlt hal fun hj => ?_)
      refine ite (fun hm => ?_) fun hm => ?_
      · have hlook : n.lookup name = some j := Node.lookup_eq_some.mpr ⟨hj,hm,hprev⟩
        exact bind (iget_got (hfull j hlook) fun k' ip hg =>
          pure (hsome j k' ip hlook hg))
      · rw [← Nat.succ_mul]
        refine ih (by omega) (by omega) fun m hmj => ?_
        by_cases hmj' : m = j
        · rw [hmj']
          exact hm
        · exact hprev m (by omega)
    · refine pure (hnone (Node.lookup_eq_none.mpr fun m hm => hprev m ?_))
      by_contra hmj
      exact hge (Nat.lt_of_le_of_lt (Nat.mul_le_mul_right _ (by omega)) (entry_lt_of_lt hm))

/-- `dirlookup` finds the entry with the name and gets its inode. -/
theorem Safe.dirlookup {Q : Post (Option (ℕ × ℕ))}
    (hl : Opened v k i n) (hS : k ∈ S) (hdir : n.type ≠ T_DIR → E (.fail .dirlookupNotDir))
    (hal : n.size % sizeof ≠ 0 → E (.fail .dirlookupRead))
    (hfull : ∀ j, n.lookup name = some j → CacheFull v (n.entry j).inum.toNat →
      E (.fail .igetNoInodes))
    (hnone : n.type = T_DIR → n.lookup name = none → Q none v (held p S))
    (hsome : n.type = T_DIR → ∀ j k' ip, n.lookup name = some j →
      Got v (n.entry j).inum.toNat k' ip →
      Q (some (k',j * sizeof)) (v.setSlot k' ip) (held p S)) :
    Safe p E (Fs.dirlookup p k name) Q v (held p S) := by
  refine inode_seq ?_
  dsimp only
  rw [hl.type,hl.size]
  refine bind (panicIf (fun ht => hdir (by simpa using ht)) fun ht => ?_)
  have hd : n.type = T_DIR := by simpa using ht
  have hcount : n.count < 0 + (n.size / sizeof + 1) := by unfold Node.count; omega
  have := dirlookupFrom (p := p) (S := S) (Q := Q) hl hS hd hal hfull hcount (Nat.zero_le _)
    (fun m hm => absurd hm (Nat.not_lt_zero m)) (hnone hd) (hsome hd)
  rwa [Nat.zero_mul] at this

end Lookup

section Write
variable {p : ℕ} {E : Stops} {v : View} {S : Finset ℕ} {k i : ℕ} {n : Node}

/-- The loop of `dirlink` finds the first empty entry, or the end. -/
theorem Safe.emptyDirent {Q : Post ℕ} {fuel j : ℕ}
    (hl : Opened v k i n) (hS : k ∈ S) (hd : n.type = T_DIR)
    (hal : n.size % sizeof ≠ 0 → E (.fail .dirlinkRead)) (hfuel : n.count < j + fuel)
    (hle : j ≤ n.count) (hprev : ∀ m, m < j → (n.entry m).inum ≠ 0)
    (h : Q (n.table.free * sizeof) v (held p S)) :
    Safe p E (Fs.emptyDirent p k fuel (j * sizeof)) Q v (held p S) := by
  have hlive : ∀ m, m < j → n.table.slot m ≠ none := fun m hm =>
    fun hc => hprev m hm (Node.slot_table_none.mp hc)
  induction fuel generalizing j with
  | zero => omega
  | succ fuel ih =>
    refine inode_seq ?_
    rw [hl.size]
    refine ite (fun hlt => ?_) fun hge => ?_
    · refine bind (readDirent hl hS hd hlt hal fun hj => ?_)
      refine ite (fun h0 => pure ?_) fun h0 => ?_
      · rwa [SlotTable.free_eq hle hlive fun _ => Node.slot_table_none.mpr h0] at h
      · have hnext : ∀ m, m < j + 1 → (n.entry m).inum ≠ 0 := by
          intro m hm
          by_cases hmj : m = j
          · rw [hmj]
            exact h0
          · exact hprev m (by omega)
        rw [← Nat.succ_mul]
        exact ih (by omega) (by omega) hnext fun m hm hc => hnext m hm (Node.slot_table_none.mp hc)
    · refine pure ?_
      rwa [SlotTable.free_eq hle hlive fun hlt => absurd (entry_lt_of_lt hlt) hge] at h

/-- The free blocks that it takes to write entry `j`. -/
def entryNeeds (d : Disk) (i j : ℕ) : ℕ :=
  needs (inodeAt d i) d (j * sizeof / BSIZE) (endBlock (j * sizeof) sizeof)

theorem endBlock_entry (j : ℕ) :
    endBlock (j * sizeof) sizeof = j * sizeof / BSIZE + 1 := by
  have hB : BSIZE = 512 := rfl
  have h16 : sizeof = 16 := rfl
  unfold endBlock
  rw [hB,h16]
  omega

theorem entryNeeds_eq_zero {j : ℕ} (hl : Opened v k i n) (hj : j < n.count) :
    entryNeeds v.disk i j = 0 := by
  have hB : BSIZE = 512 := rfl
  have hlt := entry_lt_of_lt hj
  rw [← hl.size,hl.copy] at hlt
  have hb : (inodeAt v.disk i).blk v.disk (j * sizeof / BSIZE) ≠ 0 := by
    refine hl.sound.mapped i hl.inum_lt hl.type_ne_zero _ ?_
    rw [hB]
    omega
  unfold entryNeeds needs
  rw [endBlock_entry,Nat.Ico_succ_singleton,filter_singleton,if_neg hb,
    card_empty,if_neg]
  rintro ⟨h1,h2,-⟩
  exact indirect_of_blk (by omega) hb h1

theorem Safe.writeDirent {Q : Post Unit} {e : Panic} {de : Dirent}
    {j : ℕ} (hl : Opened v k i n) (hS : k ∈ S) (hd : n.type = T_DIR) (hj : j ≤ n.count)
    (hmax : MAXFILE * BSIZE < j * sizeof + sizeof → E (.fail e))
    (hlog : Budget E 4 v)
    (hfree : E (.fail .ballocOutOfBlocks) ∨ entryNeeds v.disk i j ≤ freeCount v.disk)
    (hq : ∀ x y v', Edit {58, IBLOCK i Mkfs.sb, x, y} v k i (n.setEntry j de) v' →
      Q () v' (held p S)) :
    Safe p E (Fs.writeDirent k (j * sizeof) de e) Q v (held p S) := by
  have hi := hl.inum_lt
  have ht := hl.type_ne_zero
  have hlen : de.bytes.length = sizeof := de.length_bytes
  have htd : (inodeAt v.disk i).type ≠ T_DEV := by
    rw [← hl.copy,hl.type,hd]
    decide
  have hoff : j * sizeof ≤ (inodeAt v.disk i).size.toNat := by
    rw [← hl.copy,hl.size]
    exact (Nat.mul_le_mul_right _ hj).trans (Nat.div_mul_le_self _ _)
  have hsize := hl.size_le
  rw [← hl.size,hl.copy] at hsize
  have hM : MAXFILE * BSIZE = 71680 := rfl
  have h16 : sizeof = 16 := rfl
  have hcard := card_logSet v.disk i (j * sizeof) de.bytes.length
  have htouch : touched (j * sizeof) de.bytes.length = 1 := by
    unfold touched
    rw [hlen,endBlock_entry]
    omega
  change Safe p E (Fs.writei k (j * sizeof) de.bytes >>= _) Q v (held p S)
  have hset := logSet_spec v.disk i (j * sizeof) de.bytes.length
  refine bind (writei (c := 0) hl.ready hl.sound hi hl.holds.inum hl.copy ht hl.valid
    hl.holds.ref (fun _ => rfl) (held_mem hS) (fun _ _ => ⟨hset,?_⟩) (fun hc => absurd hc htd)
    (fun _ hbad => ?_) fun _ _ A v' hw _ => ?_)
  · refine hlog.room (by omega) ?_
    rw [Nat.zero_add,hlen]
    exact hfree
  · -- the write is refused only past the maximal size
    refine panicIf (fun _ => hmax ?_) fun hr => ?_
    · unfold WriteBad at hbad
      rw [hlen] at hbad
      rw [h16] at hbad hoff ⊢
      omega
    · exact absurd hr (by decide)
  · refine panicIf (fun hr => ?_) fun _ => ?_
    · rw [hlen] at hr
      simp at hr
    · have hsub := hw.subset hi ht
      rw [hlen,endBlock_entry,Nat.Ico_succ_singleton,image_singleton,
        insert_union,insert_union,singleton_union] at hsub
      exact hq _ _ v' ((hw.edit hl.nodeOf_eq).mono hsub)

/-- `dirlink` adds an entry for a new name. -/
theorem Safe.dirlink {Q : Post ℤ} {name : Name} {inum : ℕ}
    (hl : Opened v k i n) (hS : k ∈ S) (hd : n.type = T_DIR)
    (hal : n.size % sizeof ≠ 0 → E (.fail .dirlookupRead) ∧ E (.fail .dirlinkRead))
    (hfull : ∀ j, n.lookup name = some j → CacheFull v (n.entry j).inum.toNat →
      E (.fail .igetNoInodes))
    (hblock : ∀ j k' ip, n.lookup name = some j → Got v (n.entry j).inum.toNat k' ip → k' ∈ S →
      E (.blocked (.inode k') p))
    (hthere : ∀ j k' ip, n.lookup name = some j → Got v (n.entry j).inum.toNat k' ip → k' ∉ S →
      Q (-1) ((v.setSlot k' ip).unref k') (held p S))
    (hmax : n.lookup name = none →
      MAXFILE * BSIZE < n.table.free * sizeof + sizeof → E (.fail .dirlink))
    (hlog : n.lookup name = none → Budget E 4 v)
    (hfree : n.lookup name = none →
      E (.fail .ballocOutOfBlocks) ∨ entryNeeds v.disk i n.table.free ≤ freeCount v.disk)
    (hnew : n.lookup name = none → ∀ x y v', Edit {58, IBLOCK i Mkfs.sb, x, y} v k i
      (n.setEntry n.table.free (Dirent.named name inum)) v' → Q 0 v' (held p S)) :
    Safe p E (Fs.dirlink p k name inum) Q v (held p S) := by
  refine bind (dirlookup hl hS (fun hc => absurd hd hc) (fun hc => (hal hc).1) hfull
    (fun _ hnone => ?_) fun _ j k' ip hj hg => ?_)
  · refine inode_seq ?_
    rw [hl.size]
    have hcount : n.count < 0 + (n.size / sizeof + 1) := by unfold Node.count; omega
    have := emptyDirent (p := p) (E := E)
      (Q := fun off v' o' => Safe p E (do
        Fs.writeDirent k off ⟨UInt16.ofNat inum,Bytes.tabulate (strncpy (cstr name))⟩ .dirlink
        return 0) Q v' o') hl hS hd (fun hc => (hal hc).2)
      hcount (Nat.zero_le _)
      (fun m hm => absurd hm (Nat.not_lt_zero m)) ?_
    · rw [Nat.zero_mul] at this
      exact bind this
    · refine bind (writeDirent hl hS hd n.table.free_le (hmax hnone) (hlog hnone)
        (hfree hnone) fun x y v' he => pure ?_)
      exact hnew hnone x y v' he
  · by_cases hk : k' ∈ S
    · refine bind ?_
      exact bind (acquiresleep_blocked (held_mem hk) (hblock j k' ip hj hg hk))
    · exact bind (iput_drop hk (hg.not_last) (pure (hthere j k' ip hj hg hk)))

end Write
end Fs
end Xv6
