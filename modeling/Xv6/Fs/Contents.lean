import Xv6.Fs.Sound

/-! # The contents of the files

How the writes that the file system makes to data blocks, inode blocks and the free
map change the contents of the files. -/
namespace Xv6
open Function Dinode
open Mkfs (NINODES)

section Data
variable {ino : ℕ → Dinode} {d : Disk} {i n : ℕ}

theorem blk_stored {j : ℕ} (hj : j < NINODES) (ht : (ino j).type ≠ 0) (m : ℕ) :
    (ino j).blk d m = stored ino d (j,place m) := (stored_eq hj ht).symm

variable (h : Owned ino d)
include h

theorem blk_area (hi : i < NINODES) (ht : (ino i).type ≠ 0)
    (hn : (ino i).blk d n ≠ 0) : 59 ≤ (ino i).blk d n ∧ (ino i).blk d n < FSSIZE :=
  h.ptr_area hi ht hn

/-- An update of a block of a file leaves all block numbers. -/
theorem stored_writeBlock (hi : i < NINODES) (ht : (ino i).type ≠ 0)
    (hn : (ino i).blk d n ≠ 0) (x : Block) :
    stored ino (update d ((ino i).blk d n) x) = stored ino d := by
  rw [blk_stored hi ht] at hn ⊢
  exact h.stored_data x (place_ne n) hn

theorem Owned.writeBlock (hi : i < NINODES) (ht : (ino i).type ≠ 0)
    (hn : (ino i).blk d n ≠ 0) (x : Block) : Owned ino (update d ((ino i).blk d n) x) := by
  have harea := blk_area h hi ht hn
  refine h.congr (by simp only [nmeta_eq,FSSIZE]; omega) ?_ ?_
  · intro s
    rw [stored_writeBlock h hi ht hn]
  · intro c _
    rw [bitAt_update_ne (by omega)]

theorem blk_writeBlock (hi : i < NINODES) (ht : (ino i).type ≠ 0)
    (hn : (ino i).blk d n ≠ 0) (x : Block) {j : ℕ} (hj : j < NINODES)
    (htj : (ino j).type ≠ 0) (m : ℕ) :
    (ino j).blk (update d ((ino i).blk d n) x) m = (ino j).blk d m := by
  rw [blk_stored hj htj,blk_stored hj htj,stored_writeBlock h hi ht hn]

/-- Only the bytes of that block change, and only in that file. -/
theorem byteAt_writeBlock (hi : i < NINODES) (ht : (ino i).type ≠ 0)
    (hn : (ino i).blk d n ≠ 0) (x : Block) {j : ℕ} (hj : j < NINODES)
    (htj : (ino j).type ≠ 0) (y : ℕ) : (ino j).byteAt (update d ((ino i).blk d n) x) y =
      if j = i ∧ y / BSIZE = n then x.byte (y % BSIZE) else (ino j).byteAt d y := by
  unfold byteAt
  rw [blk_writeBlock h hi ht hn x hj htj]
  by_cases hc : j = i ∧ y / BSIZE = n
  · obtain ⟨rfl,rfl⟩ := hc
    rw [if_neg hn,if_pos ⟨rfl,rfl⟩,update_self]
  · rw [if_neg hc]
    by_cases h0 : (ino j).blk d (y / BSIZE) = 0
    · rw [if_pos h0,if_pos h0]
    · rw [if_neg h0,if_neg h0,update_of_ne]
      intro he
      rw [blk_stored hj htj] at he h0
      rw [blk_stored hi ht] at he
      have hs := h.inj _ _ h0 he
      exact hc ⟨congrArg Prod.fst hs,place_inj (congrArg Prod.snd hs)⟩

end Data

def writeInode (d : Disk) (i : ℕ) (di : Dinode) : Disk :=
  update d (IBLOCK i Mkfs.sb) ((d (IBLOCK i Mkfs.sb)).setDinode (i % IPB) di)

section Inode
variable {ino : ℕ → Dinode} {d : Disk} {i : ℕ} {di : Dinode}

theorem inodeAt_writeInode (hi : i < NINODES) :
    inodeAt (writeInode d i di) = update (inodeAt d) i di := by
  have hI : IPB = 8 := rfl
  funext j
  unfold inodeAt writeInode
  by_cases hj : j = i
  · subst hj
    rw [if_pos hi,update_self,update_self,
      Block.dinode_setDinode_self _ _ (Nat.mod_lt _ (by rw [hI]; omega))]
  · rw [update_of_ne hj]
    by_cases hb : IBLOCK j Mkfs.sb = IBLOCK i Mkfs.sb
    · rw [hb,update_self,Block.dinode_setDinode_ne]
      intro hm
      rw [IBLOCK_eq,IBLOCK_eq] at hb
      rw [hI] at hm
      omega
    · rw [update_of_ne hb]

theorem writeInode_ne {b : ℕ} (h : b ≠ IBLOCK i Mkfs.sb) : writeInode d i di b = d b :=
  update_of_ne h _ _

variable (h : Owned ino d)
include h

theorem stored_writeInode (hi : i < NINODES) : stored ino (writeInode d i di) = stored ino d :=
  h.stored_meta _ (by have := IBLOCK_lt hi; omega)

theorem Owned.writeInode (hi : i < NINODES) : Owned ino (writeInode d i di) := by
  have hlt := IBLOCK_lt hi
  refine h.congr (by simp only [nmeta_eq,FSSIZE]; omega) ?_ ?_
  · intro s
    rw [stored_writeInode h hi]
  · intro c _
    exact congrFun (bitAt_update_ne (by omega)) c

theorem blk_writeInode (hi : i < NINODES) {j : ℕ} (hj : j < NINODES)
    (htj : (ino j).type ≠ 0) (m : ℕ) : (ino j).blk (Xv6.writeInode d i di) m = (ino j).blk d m := by
  rw [blk_stored hj htj,blk_stored hj htj,stored_writeInode h hi]

theorem byteAt_writeInode (hi : i < NINODES) {j : ℕ}
    (hj : j < NINODES) (htj : (ino j).type ≠ 0) (y : ℕ) :
    (ino j).byteAt (Xv6.writeInode d i di) y = (ino j).byteAt d y := by
  unfold byteAt
  rw [blk_writeInode h hi hj htj]
  by_cases h0 : (ino j).blk d (y / BSIZE) = 0
  · rw [if_pos h0,if_pos h0]
  · have harea := blk_area h hj htj h0
    have hlt := IBLOCK_lt hi
    rw [if_neg h0,if_neg h0,writeInode_ne (by omega)]

end Inode

section Trunc
variable {S : ℕ × ℕ → ℕ} {bit : ℕ → Bool} {i k : ℕ}

/-- The places `z` of inode `i` have been emptied. -/
def emptied (S : ℕ × ℕ → ℕ) (i : ℕ) (z : ℕ → Bool) (s : ℕ × ℕ) : ℕ :=
  if s.1 = i ∧ z s.2 = true then 0 else S s

theorem emptied_update (z : ℕ → Bool) :
    emptied S i (update z k true) = update (emptied S i z) (i,k) 0 := by
  funext s
  obtain ⟨j,l⟩ := s
  by_cases hs : (j,l) = (i,k)
  · obtain ⟨rfl,rfl⟩ := Prod.mk.inj hs
    simp [emptied]
  · rw [update_of_ne hs]
    unfold emptied
    by_cases hj : j = i
    · subst hj
      have hl : l ≠ k := by
        rintro rfl
        exact hs rfl
      simp only [update_of_ne hl]
    · simp [hj]

theorem Owns.empty_free {z : ℕ → Bool}
    (h : Owns (emptied S i z) bit Mkfs.nmeta FSSIZE) (hz : z k = false) (h0 : S (i,k) ≠ 0) :
    Owns (emptied S i (update z k true)) (update bit (S (i,k)) false) Mkfs.nmeta FSSIZE := by
  have he : emptied S i z (i,k) = S (i,k) := by simp [emptied,hz]
  have hf := h.free (by rw [nmeta_eq]; omega) (s := (i,k)) (by rw [he]; exact h0)
  rw [he] at hf
  rw [emptied_update]
  exact hf

theorem Owns.empty_skip {z : ℕ → Bool}
    (h : Owns (emptied S i z) bit Mkfs.nmeta FSSIZE) (h0 : S (i,k) = 0) :
    Owns (emptied S i (update z k true)) bit Mkfs.nmeta FSSIZE := by
  have he : emptied S i z (i,k) = 0 := by
    unfold emptied
    split
    · rfl
    · exact h0
  rw [emptied_update,← he,Function.update_eq_self]
  exact h

end Trunc

/-- The inode with its first `j` addresses cleared. -/
def Dinode.cut (di : Dinode) (j : ℕ) : Dinode :=
  { di with addrs := fun a => if a.val < j then 0 else di.addrs a }

def Dinode.truncated (di : Dinode) : Dinode := { di with size := 0, addrs := fun _ => 0 }

section Cut
variable {di : Dinode} {a j : ℕ}

theorem cut_zero : di.cut 0 = di := by
  simp [cut]

theorem addr_cut_ge (h : ¬ a < j) : (di.cut j).addr a = di.addr a := by
  simp [cut,addr,h]

theorem cut_setAddr : (di.cut j).setAddr j 0 = di.cut (j + 1) := by
  ext1 <;> try rfl
  funext a
  simp only [cut,setAddr]
  by_cases h : a.val = j
  · rw [if_pos h,if_pos (by omega)]
  · by_cases h' : a.val < j
    · rw [if_neg h,if_pos h',if_pos (by omega)]
    · rw [if_neg h,if_neg h',if_neg (by omega)]

theorem cut_succ (h : di.addr j = 0) : di.cut (j + 1) = di.cut j := by
  rw [← cut_setAddr]
  ext1 <;> try rfl
  funext a
  simp only [setAddr]
  by_cases ha : a.val = j
  · have hd : di.addrs a = 0 := by
      have : di.addr j = di.addrs a := by
        subst ha
        exact dif_pos a.isLt
      rw [← this,h]
    simp only [cut,if_pos ha]
    rw [if_neg (by omega),hd]
  · rw [if_neg ha]

theorem cut_all : { di.cut (NDIRECT + 1) with size := 0 } = di.truncated := by
  ext1 <;> try rfl
  funext a
  exact if_pos a.isLt

theorem addr_truncated : di.truncated.addr a = 0 := by
  simp [truncated,addr]

theorem ptr_truncated {d : Disk} : di.truncated.ptr d a = 0 := by
  unfold ptr
  split
  · rw [addr_truncated]
    rfl
  · rw [if_pos addr_truncated]

end Cut

section Truncated
variable {ino : ℕ → Dinode} {d d' : Disk} {i : ℕ} {z : ℕ → Bool}

/-- When all places have been emptied, the inode without addresses is in order. -/
theorem Owned.truncated (h : Owned ino d) (hd : ∀ c, c ≠ 58 → d' c = d c)
    (hz : ∀ k, k ≤ NDIRECT + NINDIRECT → z k = true)
    (he : Owns (emptied (stored ino d) i z) (bitAt d') Mkfs.nmeta FSSIZE) :
    Owned (update ino i (ino i).truncated) d' := by
  refine he.congr (by simp only [nmeta_eq,FSSIZE]; omega) ?_ fun _ _ => rfl
  rintro ⟨j,k⟩
  by_cases hj : j = i
  · subst hj
    have h1 : stored (update ino j (ino j).truncated) d' (j,k) = 0 := by
      unfold stored
      simp only [update_self,ptr_truncated,ite_self]
    rw [h1]
    unfold emptied
    by_cases hk : k ≤ NDIRECT + NINDIRECT
    · rw [if_pos ⟨rfl,hz k hk⟩]
    · split
      · rfl
      · unfold stored
        split
        · exact (ptr_eq_zero (by omega)).symm
        · rfl
  · unfold emptied
    rw [if_neg (fun hc => hj hc.1)]
    unfold stored
    simp only [update_of_ne hj]
    by_cases hs : j < NINODES ∧ (ino j).type ≠ 0
    · rw [if_pos hs,if_pos hs]
      apply ptr_congr
      intro ha
      apply hd
      have hst : stored ino d (j,NDIRECT) = ((ino j).addr NDIRECT).toNat := by
        rw [stored_eq hs.1 hs.2,ptr_direct le_rfl]
      have := h.area (j,NDIRECT) (by rw [hst]; exact toNat_ne_zero ha)
      rw [hst,nmeta_eq] at this
      omega
    · rw [if_neg hs,if_neg hs]

end Truncated

/-! ## Files

The abstract view of the disk: the allocated inodes with their contents as functions,
zero past the end. -/

@[ext] structure Node where
  type : Int16
  major : Int16
  minor : Int16
  nlink : Int16
  size : ℕ
  data : ℕ → UInt8

namespace Node

def write (n : Node) (off : ℕ) (src : List UInt8) : Node :=
  { n with
    size := max n.size (off + src.length)
    data := fun x => if off ≤ x ∧ x < off + src.length then src.getD (x - off) 0 else n.data x }

end Node

def nodeOf (di : Dinode) (d : Disk) : Node where
  type := di.type
  major := di.major
  minor := di.minor
  nlink := di.nlink
  size := di.size.toNat
  data := fun x => if x < di.size.toNat then di.byteAt d x else 0

def files (d : Disk) (i : ℕ) : Option Node :=
  if (inodeAt d i).type = 0 then none else some (nodeOf (inodeAt d i) d)

section Files
variable {d d' : Disk} {i : ℕ}

theorem files_eq_none : files d i = none ↔ (inodeAt d i).type = 0 := by
  unfold files
  split <;> simp [*]

theorem files_of_type (h : (inodeAt d i).type ≠ 0) : files d i = some (nodeOf (inodeAt d i) d) :=
  if_neg h

theorem files_eq_some {n : Node} (h : files d i = some n) :
    i < NINODES ∧ (inodeAt d i).type ≠ 0 ∧ n = nodeOf (inodeAt d i) d := by
  unfold files at h
  split at h
  · cases h
  · rename_i ht
    exact ⟨lt_NINODES_of_type ht,ht,(Option.some.inj h).symm⟩

theorem nodeOf_congr {di : Dinode} (h : ∀ x, di.byteAt d' x = di.byteAt d x) :
    nodeOf di d' = nodeOf di d := by
  unfold nodeOf
  simp only [h]

/-- The files of two disks agree where the inode and its bytes do. -/
theorem files_congr (hi : inodeAt d' i = inodeAt d i)
    (hb : (inodeAt d i).type ≠ 0 → ∀ x, (inodeAt d i).byteAt d' x = (inodeAt d i).byteAt d x) :
    files d' i = files d i := by
  unfold files
  rw [hi]
  by_cases ht : (inodeAt d i).type = 0
  · rw [if_pos ht,if_pos ht]
  · rw [if_neg ht,if_neg ht,nodeOf_congr (hb ht)]

/-- The other inodes keep their blocks when inode `i` does. -/
theorem Owned.other_fields {di : Dinode} (h : Owned (inodeAt d) d)
    (hst : ∀ a, stored (update (inodeAt d) i di) d (i,a) = stored (inodeAt d) d (i,a)) :
    Owned (update (inodeAt d) i di) d := by
  refine h.congr (by simp only [nmeta_eq,FSSIZE]; omega) ?_ fun _ _ => rfl
  rintro ⟨j,a⟩
  by_cases hj : j = i
  · subst hj
    exact hst a
  · unfold stored
    simp only [update_of_ne hj]

/-- An inode is written with other fields and the same blocks. -/
theorem Sound.writeInode {di : Dinode} (h : Sound (inodeAt d) d) (hi : i < NINODES)
    (hst : ∀ a, stored (update (inodeAt d) i di) d (i,a) = stored (inodeAt d) d (i,a))
    (hm : di.type ≠ 0 → Mapped di d) :
    Sound (inodeAt (Xv6.writeInode d i di)) (Xv6.writeInode d i di) := by
  have hown := h.owned.other_fields hst
  rw [inodeAt_writeInode hi]
  refine ⟨hown.writeInode hi,fun j hj ht n hn => ?_⟩
  rw [blk_writeInode hown hi hj ht]
  by_cases hji : j = i
  · subst hji
    rw [update_self] at ht hn ⊢
    exact hm ht n hn
  · rw [update_of_ne hji] at ht hn ⊢
    exact h.mapped j hj ht n hn

theorem files_writeInode {di : Dinode} (h : Owned (inodeAt d) d) (hi : i < NINODES)
    (hst : ∀ a, stored (update (inodeAt d) i di) d (i,a) = stored (inodeAt d) d (i,a)) :
    files (writeInode d i di)
      = update (files d) i (if di.type = 0 then none else some (nodeOf di d)) := by
  have hown := h.other_fields hst
  funext j
  unfold files
  rw [inodeAt_writeInode hi]
  by_cases hj : j = i
  · subst hj
    rw [update_self,update_self]
    by_cases ht : di.type = 0
    · rw [if_pos ht,if_pos ht]
    · rw [if_neg ht,if_neg ht,nodeOf_congr fun x => ?_]
      have hb : (update (inodeAt d) j di j).byteAt (writeInode d j di) x = _ :=
        byteAt_writeInode hown hi hi (by rw [update_self]; exact ht) x
      rwa [update_self] at hb
  · rw [update_of_ne hj,update_of_ne hj]
    by_cases ht : (inodeAt d j).type = 0
    · rw [if_pos ht,if_pos ht]
    · rw [if_neg ht,if_neg ht,
        nodeOf_congr fun x => byteAt_writeInode h hi (lt_NINODES_of_type ht) ht x]

/-- A free inode and an inode without blocks store nothing. -/
theorem stored_fresh {di : Dinode} (h0 : (inodeAt d i).type = 0) (ha : ∀ a, di.addr a = 0) (a : ℕ) :
    stored (update (inodeAt d) i di) d (i,a) = stored (inodeAt d) d (i,a) := by
  have hp : di.ptr d a = 0 := by
    unfold ptr
    split
    · rw [ha]
      rfl
    · rw [if_pos (ha _)]
  unfold stored
  simp only [update_self,hp,ite_self,h0,ne_eq,not_true_eq_false,and_false,if_false]

/-- Fields other than the addresses play no part, as long as the type is not 0. -/
theorem stored_fields {di : Dinode} (ht : (inodeAt d i).type ≠ 0) (ht' : di.type ≠ 0)
    (ha : di.addrs = (inodeAt d i).addrs) (a : ℕ) :
    stored (update (inodeAt d) i di) d (i,a) = stored (inodeAt d) d (i,a) := by
  have hp : di.ptr d a = (inodeAt d i).ptr d a := by
    unfold ptr addr
    rw [ha]
  unfold stored
  simp only [update_self,hp,ne_eq,ht,ht',not_false_eq_true]

end Files
end Xv6
