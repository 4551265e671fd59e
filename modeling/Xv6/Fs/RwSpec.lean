import Xv6.Fs.BmapSpec
import Mathlib.Order.Interval.Finset.Nat

/-! # `readi` and `writei` -/
namespace Xv6
open Conc Inode Function
open Mkfs (NINODES)
open List

def Inode.loaded (ip : Inode) (di : Dinode) : Inode := { ip with d := di, valid := true }

def View.load (v : View) (k : ℕ) : View :=
  { v with inode := update v.inode k ((v.inode k).loaded (inodeAt v.disk (v.inode k).inum)) }

namespace Fs
section Lock
variable {p : ℕ} {E : Stops} {v : View} {o : Owners}
  {Q : Post Unit} {k : ℕ}

theorem Safe.iunlock (ho : o (.inode k) = some p) (href : 0 < (v.inode k).ref)
    (h : Q () v (update o (.inode k) none)) : Safe p E (Fs.iunlock k) Q v o := by
  refine holdingsleep_seq ho (inode_seq ?_)
  refine bind (panicIf (fun hc => ?_) fun _ => releasesleep h)
  simp only [Bool.not_true,Bool.false_or,decide_eq_true_eq] at hc
  omega

/-- `ilock` of an inode that is in memory only takes the lock; otherwise it reads the
inode from disk, which must not be free. -/
theorem Safe.ilock (hr : Ready v) (hi : (v.inode k).inum < NINODES)
    (href : 0 < (v.inode k).ref) (ho : o (.inode k) = none)
    (hb : ∀ b, b < 58 → o (.buf b) = none)
    (hfree : (v.inode k).valid = false → (inodeAt v.disk (v.inode k).inum).type = 0 →
      E (.fail .ilockNoType))
    (hvalid : (v.inode k).valid = true → Q () v (update o (.inode k) (some p)))
    (hload : (v.inode k).valid = false → (inodeAt v.disk (v.inode k).inum).type ≠ 0 →
      Q () (v.load k) (update o (.inode k) (some p))) :
    Safe p E (Fs.ilock k) Q v o := by
  have hlt := IBLOCK_lt hi
  refine inode_seq ?_
  refine bind (panicIf (fun hc => ?_) fun _ => ?_)
  · simp only [decide_eq_true_eq] at hc
    omega
  refine bind (acquiresleep ho ?_)
  refine inode_seq ?_
  refine whenever (fun hv => ?_) fun hv => hvalid (by simpa using hv)
  have hv' : (v.inode k).valid = false := by simpa using hv
  have hbo : update o (.inode k) (some p) (.buf (IBLOCK (v.inode k).inum Mkfs.sb)) = none := by
    rw [update_of_ne (by simp),hb _ hlt]
  refine view_seq (inode_seq ?_)
  rw [hr.sb]
  refine bind (bread (by simp only [FSSIZE]; omega) hbo ?_)
  refine data_seq ?_
  rw [inodeAt_eq hi]
  refine bind (modifyInode ?_)
  refine bind (release hbo ?_)
  refine bind (modifyInode ?_)
  refine inode_seq ?_
  simp only [update_self,update_idem]
  refine panicIf (fun h0 => hfree hv' (by simpa using h0)) fun h0 => ?_
  exact hload hv' (by simpa using h0)

/-- The lock of an inode in memory, which a driver has given up, is taken again. -/
theorem Safe.relock (hr : Ready v) (hi : (v.inode k).inum < NINODES) (hv : (v.inode k).valid = true)
    (href : 0 < (v.inode k).ref) (ho : ∀ b, o (.buf b) = none) (hl : o (.inode k) = some p)
    (h : Q () v o) : Safe p E (Fs.ilock k) Q v (update o (.inode k) none) := by
  have hback : update (update o (.inode k) none) (.inode k) (some p) = o := by
    rw [update_idem,← hl,update_eq_self]
  refine ilock hr hi href (update_self ..) (fun b _ => ?_) ?_ (fun _ => ?_) ?_
  · rw [update_of_ne (by simp),ho]
  · rw [hv]
    nofun
  · rwa [hback]
  · rw [hv]
    nofun

end Lock

section Readi
variable {p : ℕ} {E : Stops} {v : View} {o : Owners} {ino : ℕ → Dinode} {i k : ℕ}

def contentAt (di : Dinode) (d : Disk) (off n : ℕ) : List UInt8 :=
  (List.range n).map fun j => di.byteAt d (off + j)

theorem contentAt_add (di : Dinode) (d : Disk) (off m n : ℕ) :
    contentAt di d off (m + n) = contentAt di d off m ++ contentAt di d (off + m) n := by
  simp [contentAt,range_add,Function.comp_def,Nat.add_assoc]

theorem bytesAt_eq {di : Dinode} {d : Disk} {off m : ℕ} (hb : di.blk d (off / BSIZE) ≠ 0)
    (hm : off % BSIZE + m ≤ BSIZE) :
    bytesAt (d (di.blk d (off / BSIZE))) (off % BSIZE) m = contentAt di d off m := by
  have hB : BSIZE = 512 := rfl
  rw [hB] at hm
  apply map_congr_left
  intro j hj
  have hj' := mem_range.mp hj
  have h1 : (off + j) / BSIZE = off / BSIZE := by
    rw [hB]
    omega
  have h2 : (off + j) % BSIZE = off % BSIZE + j := by
    rw [hB]
    omega
  rw [Dinode.byteAt,h1,h2,if_neg hb]

def readResult (di : Dinode) (d : Disk) (off n : ℕ) : ℤ × List UInt8 :=
  if off > di.size.toNat ∨ (off + n) % 2 ^ 32 < off then (-1,[])
  else
    let n := if off + n > di.size.toNat then di.size.toNat - off else n
    (n,contentAt di d off n)

variable (hr : Ready v) (hs : Owned ino v.disk) (hi : i < NINODES) (hk : ino i = (v.inode k).d)
  (ht : (ino i).type ≠ 0) (ho : ∀ b, o (.buf b) = none)
include hr hs hi hk ht ho

theorem Safe.bmap_mapped {Q : Post ℕ} {n : ℕ} (hb : (ino i).blk v.disk n ≠ 0)
    (h : Q ((ino i).blk v.disk n) v o) : Safe p E (Fs.bmap k n) Q v o :=
  bmap (A := {58, ((ino i).addr NDIRECT).toNat}) (c := 0) (by simp) hr hs hi hk ht ho
    (lt_MAXFILE_of_blk hb) (by simp) (fun h0 => absurd h0 hb) (fun _ => h) fun h0 => absurd h0 hb

theorem Safe.readiLoop {Q : Post (List UInt8)} {fuel off n : ℕ} (hf : n ≤ fuel)
    (hm : ∀ m, m * BSIZE < off + n → (ino i).blk v.disk m ≠ 0)
    (h : Q (contentAt (ino i) v.disk off n) v o) :
    Safe p E (Fs.readiLoop k fuel off n) Q v o := by
  have hB : BSIZE = 512 := rfl
  induction fuel generalizing off n Q with
  | zero =>
    obtain rfl : n = 0 := by omega
    exact pure h
  | succ fuel ih =>
    refine ite (fun h0 => ?_) fun h0 => ?_
    · subst h0
      exact pure h
    have hblk : (ino i).blk v.disk (off / BSIZE) ≠ 0 := by
      apply hm
      rw [hB]
      omega
    have harea := blk_area hs hi ht hblk
    refine bind (bmap_mapped hr hs hi hk ht ho hblk ?_)
    refine bind (bread harea.2 (ho _) ?_)
    refine data_seq ?_
    refine bind (release (ho _) ?_)
    have hmn : min n (BSIZE - off % BSIZE) + (n - min n (BSIZE - off % BSIZE)) = n := by omega
    have hlt : off % BSIZE < BSIZE := Nat.mod_lt _ (by rw [hB]; omega)
    rw [bytesAt_eq hblk (by omega)]
    refine bind (ih (by omega) (fun m hlt => hm m (by omega)) (pure ?_))
    rw [← contentAt_add,hmn]
    exact h

variable (hE : (ino i).type = T_DEV → E .asleep) (hn : (v.inode k).inum = i)
  (hv : (v.inode k).valid = true) (href : 0 < (v.inode k).ref) (hl : o (.inode k) = some p)
  {off n : ℕ} {Q : Post (ℤ × List UInt8)}
include hE hn hv href hl

/-- `readi` changes nothing but the console input, if the blocks that it reads are there. -/
theorem Safe.readi_upto
    (hm : ∀ m, m * BSIZE < off + n → m * BSIZE < (ino i).size.toNat → (ino i).blk v.disk m ≠ 0)
    (h : ∀ r inp, ((ino i).type ≠ T_DEV → inp = v.input ∧ r = readResult (ino i) v.disk off n) →
      Q r { v with input := inp } o) :
    Safe p E (Fs.readi p k off n) Q v o := by
  refine inode_seq ?_
  rw [← hk]
  refine ite (fun hd => ?_) fun hd => ?_
  · refine ite (fun _ => ?_) fun _ => pure (h _ v.input fun hc => absurd hd hc)
    have again : ∀ (inp : List UInt8) (r : ℤ × List UInt8), Safe p E (do
        Fs.ilock k
        return r) Q { v with input := inp } (update o (.inode k) none) := by
      intro inp r
      exact bind (relock ⟨hr.sb,hr.block,hr.log⟩ (hn ▸ hi) hv href ho hl
        (pure (h r inp fun hc => absurd hd hc)))
    refine bind (iunlock hl href ?_)
    refine view_seq ?_
    refine ite (fun _ => ?_) fun _ => ?_
    · refine proc_seq (ite (fun _ => ?_) fun _ => ?_)
      · exact bind (setInput (again _ _))
      · refine bind ?_
        intro c _ _
        exact (safe_await _).mpr ⟨fun _ => hE hd,fun s hs => by cases hs⟩
    · exact bind (setInput (again _ _))
  · have hval : ∀ r, r = readResult (ino i) v.disk off n → Q r v o := by
      intro r hr'
      exact h r v.input fun _ => ⟨rfl,hr'⟩
    refine ite (fun hc => ?_) fun hc => ?_
    · exact pure (hval _ (by rw [readResult,if_pos hc]))
    · refine bind (readiLoop hr hs hi hk ht ho le_rfl (fun m hlt => hm m ?_ ?_)
        (pure ?_))
      · split at hlt <;> omega
      · split at hlt <;> omega
      · exact hval _ (by rw [readResult,if_neg hc])

theorem Safe.readi (hm : Mapped (ino i) v.disk)
    (h : ∀ r inp, ((ino i).type ≠ T_DEV → inp = v.input ∧ r = readResult (ino i) v.disk off n) →
      Q r { v with input := inp } o) : Safe p E (Fs.readi p k off n) Q v o :=
  readi_upto hr hs hi hk ht ho hE hn hv href hl (fun m _ hlt => hm m hlt) h

end Readi

section Writei
variable {p : ℕ} {E : Stops} {A₀ A : Finset ℕ} {c : ℕ} {v : View}
  {o : Owners} {ino : ℕ → Dinode} {i k off : ℕ} {src : List UInt8}

def endBlock (off n : ℕ) : ℕ := (off + n + (BSIZE - 1)) / BSIZE

/-- The number of blocks that are missing between block `lo` and block `hi` of the
contents, with the indirect block. -/
def needs (di : Dinode) (d : Disk) (lo hi : ℕ) : ℕ :=
  ((Finset.Ico lo hi).filter fun n => di.blk d n = 0).card +
    if di.addr NDIRECT = 0 ∧ NDIRECT < hi ∧ lo < hi then 1 else 0

theorem indirect_of_blk {di : Dinode} {d : Disk} {n : ℕ} (hn : NDIRECT ≤ n)
    (hb : di.blk d n ≠ 0) : di.addr NDIRECT ≠ 0 :=
  fun h0 => hb (blk_eq_zero (by omega) h0)

/-- Once the first of the blocks is there, fewer are missing. -/
theorem needs_step {di di' : Dinode} {d d' : Disk} {lo lo' hi : ℕ} (hlt : lo < hi)
    (hle : lo ≤ lo') (hblk : di'.blk d' lo ≠ 0)
    (hkeep : ∀ n, di.blk d n ≠ 0 → di'.blk d' n ≠ 0)
    (hind : di.addr NDIRECT ≠ 0 → di'.addr NDIRECT ≠ 0) :
    needs di' d' lo' hi + di.need d lo ≤ needs di d lo hi := by
  have hsub : (Finset.Ico lo' hi).filter (fun n => di'.blk d' n = 0)
      ⊆ ((Finset.Ico lo hi).filter fun n => di.blk d n = 0).erase lo := by
    intro n hn
    rw [Finset.mem_filter,Finset.mem_Ico] at hn
    rw [Finset.mem_erase,Finset.mem_filter,Finset.mem_Ico]
    refine ⟨?_,⟨by omega,hn.1.2⟩,by_contra fun h0 => hkeep n h0 hn.2⟩
    rintro rfl
    exact hblk hn.2
  have hcard := Finset.card_le_card hsub
  unfold needs Dinode.need
  by_cases hb : di.blk d lo = 0
  · rw [Finset.card_erase_of_mem (by simp [hb,hlt])] at hcard
    have hpos : 0 < ((Finset.Ico lo hi).filter fun n => di.blk d n = 0).card :=
      Finset.card_pos.mpr ⟨lo,by simp [hb,hlt]⟩
    rw [if_neg (not_not.mpr hb)]
    by_cases ha : lo < NDIRECT ∨ di.addr NDIRECT ≠ 0
    · rw [if_pos ha]
      split <;> split <;> first | omega | skip
      rename_i h1 h2
      exact absurd ⟨by_contra fun h => hind h h1.1,h1.2.1,hlt⟩ h2
    · have hge : NDIRECT ≤ lo := by
        by_contra hc
        exact ha (.inl (by omega))
      have h0 : di.addr NDIRECT = 0 := by
        by_contra hc
        exact ha (.inr hc)
      rw [if_neg ha,if_neg (fun hc => indirect_of_blk hge hblk hc.1),
        if_pos ⟨h0,by omega,hlt⟩]
      omega
  · rw [if_pos hb]
    have := Finset.card_le_card (Finset.erase_subset lo
      ((Finset.Ico lo hi).filter fun n => di.blk d n = 0))
    split <;> split <;> first | omega | skip
    rename_i h1 h2
    exact absurd ⟨by_contra fun h => hind h h1.1,h1.2.1,hlt⟩ h2

theorem need_le_needs {di : Dinode} {d : Disk} {lo hi : ℕ} (hlt : lo < hi) :
    di.need d lo ≤ needs di d lo hi := by
  unfold needs Dinode.need
  by_cases hb : di.blk d lo = 0
  · have hpos : 0 < ((Finset.Ico lo hi).filter fun n => di.blk d n = 0).card :=
      Finset.card_pos.mpr ⟨lo,by simp [hb,hlt]⟩
    rw [if_neg (not_not.mpr hb)]
    by_cases ha : lo < NDIRECT ∨ di.addr NDIRECT ≠ 0
    · rw [if_pos ha]
      omega
    · obtain ⟨hge,h0⟩ : NDIRECT ≤ lo ∧ di.addr NDIRECT = 0 := by simpa using ha
      rw [if_neg ha,if_pos ⟨h0,by omega,hlt⟩]
      omega
  · rw [if_pos hb]
    exact Nat.zero_le _

/-- Byte `x` of a file after `m` bytes of `src` have been written at `off`. -/
def overwritten (f : ℕ → UInt8) (off m : ℕ) (src : List UInt8) (x : ℕ) : UInt8 :=
  if off ≤ x ∧ x < off + m then src.getD (x - off) 0 else f x

/-- How far the loop of `writei` has come: `m` bytes have been written, the inode in
memory is `di`, and the blocks of `A` may have been logged. -/
structure Writing (A₀ : Finset ℕ) (v : View) (ino : ℕ → Dinode) (i k off : ℕ) (src : List UInt8)
    (m : ℕ) (di : Dinode) (A : Finset ℕ) (v' : View) : Prop where
  frame : Frame A v v'
  base : A₀ ⊆ A
  indirect : di.addr NDIRECT ≠ 0 → (di.addr NDIRECT).toNat ∈ A
  only : ∀ b ∈ A, b ∈ A₀ ∨ (di.addr NDIRECT ≠ 0 ∧ b = (di.addr NDIRECT).toNat) ∨
    ∃ n, off / BSIZE ≤ n ∧ n * BSIZE < off + m ∧ b = di.blk v'.disk n
  marked : ∀ b, b < FSSIZE → bitAt v.disk b = false → bitAt v'.disk b = true → b ∈ A
  inode : v'.inode = update v.inode k ((v.inode k).withD di)
  metaBlocks : ∀ b, b < 58 → v'.disk b = v.disk b
  owned : Owned (update ino i di) v'.disk
  fields : di = { ino i with addrs := di.addrs }
  keep : ∀ s, stored ino v.disk s ≠ 0 →
    stored (update ino i di) v'.disk s = stored ino v.disk s
  other : ∀ j, j < NINODES → j ≠ i → (ino j).type ≠ 0 → ∀ x,
    (ino j).byteAt v'.disk x = (ino j).byteAt v.disk x
  bytes : ∀ x, di.byteAt v'.disk x = overwritten ((ino i).byteAt v.disk) off m src x
  /-- the blocks below the size and those that have been written are there -/
  mapped : ∀ n, n * BSIZE < (ino i).size.toNat ∨ n * BSIZE < off + m → di.blk v'.disk n ≠ 0
  /-- nothing is allocated below the size -/
  same : off + m ≤ (ino i).size.toNat → di = ino i

theorem Writing.type {m : ℕ} {di : Dinode} {v' : View} (h : Writing A₀ v ino i k off src m di A v') :
    di.type = (ino i).type := by rw [h.fields]

/-- A block of data is written over a part of a block of the file. -/
theorem byteAt_splice {d : Disk} {di : Dinode} {m : ℕ} (x : ℕ)
    (hm : off % BSIZE + m ≤ BSIZE) (hb : di.blk d (off / BSIZE) ≠ 0) :
    (if x / BSIZE = off / BSIZE then
        ((d (di.blk d (off / BSIZE))).splice (off % BSIZE) m fun j => src.getD j 0).byte (x % BSIZE)
      else di.byteAt d x) = overwritten (di.byteAt d) off m src x := by
  have hB : BSIZE = 512 := rfl
  rw [hB] at hm
  unfold overwritten
  by_cases hx : x / BSIZE = off / BSIZE
  · rw [if_pos hx]
    have hxn : x / 512 = off / 512 := hx
    by_cases hin : off ≤ x ∧ x < off + m
    · rw [if_pos hin,Bytes.byte_splice_in]
      · congr 1
        rw [hB]
        omega
      · rw [hB]
        omega
      · rw [hB]
        omega
      · rw [hB]
        omega
    · rw [if_neg hin,Bytes.byte_splice_out _ _ (by rw [hB]; omega),Dinode.byteAt,hx,
        if_neg hb]
  · rw [if_neg hx,if_neg]
    rw [hB] at hx
    omega

theorem overwritten_add (f : ℕ → UInt8) (m n x : ℕ) :
    overwritten (overwritten f off m src) (off + m) n (src.drop m) x
      = overwritten f off (m + n) src x := by
  unfold overwritten
  by_cases h1 : off + m ≤ x ∧ x < off + m + n
  · rw [if_pos h1,if_pos (by omega)]
    simp only [getD_eq_getElem?_getD,List.getElem?_drop]
    congr 2
    omega
  · rw [if_neg h1]
    by_cases h2 : off ≤ x ∧ x < off + m
    · rw [if_pos h2,if_pos (by omega)]
    · rw [if_neg h2,if_neg (by omega)]

theorem Writing.step {m n : ℕ} {di di' : Dinode} {v1 w v3 : View}
    (h : Writing A₀ v ino i k off src m di A v1) (hi : i < NINODES) (ht : (ino i).type ≠ 0)
    (hn : 0 < n) (hle : (off + m) % BSIZE + n ≤ BSIZE)
    (hx : Extends i (update ino i di) v1.disk (update ino i di') w.disk)
    {A' : Finset ℕ} (hg : Grown A v1.disk di' w.disk ((off + m) / BSIZE) A')
    (hf2 : Frame A' v1 w) (hin2 : w.inode = update v1.inode k ((v1.inode k).withD di'))
    {b : ℕ} (hb : di'.blk w.disk ((off + m) / BSIZE) = b) (hb0 : b ≠ 0)
    (hsame : di.blk v1.disk ((off + m) / BSIZE) ≠ 0 → di' = di)
    (hf3 : Frame A' w v3) (hin3 : v3.inode = w.inode) {y : Block}
    (hy : y = (w.disk b).splice ((off + m) % BSIZE) n fun j => (src.drop m).getD j 0)
    (hd3 : v3.disk = update w.disk b y) :
    Writing A₀ v ino i k off src (m + n) di' A' v3 := by
  have hB : BSIZE = 512 := rfl
  have hdi : update ino i di i = di := update_self ..
  have hdi' : update ino i di' i = di' := update_self ..
  have ht1 : (update ino i di i).type ≠ 0 := by rw [hdi,h.type]; exact ht
  have ht2 : (update ino i di' i).type ≠ 0 := by rw [hx.type_eq]; exact ht1
  have hother : ∀ j, j ≠ i → update ino i di' j = ino j := fun j hj => update_of_ne hj _ _
  have hblk' : (update ino i di' i).blk w.disk ((off + m) / BSIZE) ≠ 0 := by
    rwa [hdi',hb]
  have harea := blk_area hx.owned hi ht2 hblk'
  rw [hdi',hb] at harea
  have hst3 : stored (update ino i di') v3.disk = stored (update ino i di') w.disk := by
    have := stored_writeBlock hx.owned hi ht2 hblk' y
    rwa [hdi',hb,← hd3] at this
  have hby3 : ∀ j, j < NINODES → (update ino i di' j).type ≠ 0 → ∀ x,
      (update ino i di' j).byteAt v3.disk x = if j = i ∧ x / BSIZE = (off + m) / BSIZE then
        y.byte (x % BSIZE) else (update ino i di' j).byteAt w.disk x := by
    intro j hj htj x
    have := byteAt_writeBlock hx.owned hi ht2 hblk' y hj htj x
    rwa [hdi',hb,← hd3] at this
  have hblk3 : ∀ l, di'.blk v3.disk l = di'.blk w.disk l := by
    intro l
    have h3 := blk_stored (d := v3.disk) hi ht2 l
    have h2 := blk_stored (d := w.disk) hi ht2 l
    rw [hdi'] at h3 h2
    rw [h3,h2,hst3]
  have hkeep2 : ∀ l, di.blk v1.disk l ≠ 0 → di'.blk w.disk l = di.blk v1.disk l := by
    intro l hl
    have := hx.blk_keep hi ht1 (n := l) (by rw [hdi]; exact hl)
    rwa [hdi,hdi'] at this
  have hind2 : di.addr NDIRECT ≠ 0 → di'.addr NDIRECT = di.addr NDIRECT := by
    intro ha
    have := hx.indirect_keep hi ht1 (by rw [hdi]; exact ha)
    rwa [hdi,hdi'] at this
  refine ⟨((h.frame.mono hg.base).trans hf2).trans hf3,h.base.trans hg.base,hg.indirect,?_,?_,?_,?_,?_,?_,
    ?_,?_,?_,?_,?_⟩
  · intro a ha
    rcases hg.only a ha with ha | ha | ha
    · rcases h.only a ha with ha | ⟨hind,ha⟩ | ⟨l,hl,hlm,ha⟩
      · exact .inl ha
      · exact .inr (.inl (by rw [hind2 hind]; exact ⟨hind,ha⟩))
      · refine .inr (.inr ⟨l,hl,by omega,?_⟩)
        rw [hblk3,hkeep2 l (h.mapped l (.inr hlm)),ha]
    · exact .inr (.inl ha)
    · refine .inr (.inr ⟨(off + m) / BSIZE,Nat.div_le_div_right (by omega),?_,?_⟩)
      · have := Nat.div_mul_le_self (off + m) BSIZE
        omega
      · rw [hblk3,ha]
  · intro a hlt h0 h3
    rw [hd3,bitAt_update_ne (by omega)] at h3
    cases h1 : bitAt v1.disk a with
    | true => exact hg.base (h.marked a hlt h0 h1)
    | false => exact hg.marked a hlt h1 h3
  · rw [hin3,hin2,h.inode,update_self,update_idem,withD_withD]
  · intro a ha
    rw [hd3,update_of_ne (by omega),hx.metaBlocks a ha,h.metaBlocks a ha]
  · have := hx.owned.writeBlock hi ht2 hblk' y
    rwa [hdi',hb,← hd3] at this
  · have := hx.fields
    rw [hdi,hdi'] at this
    rw [this,h.fields]
  · intro s hs
    have h1 := h.keep s hs
    rw [hst3,hx.keep s (by rw [h1]; exact hs),h1]
  · intro j hj hji htj x
    have := hby3 j hj (by rw [hother j hji]; exact htj) x
    rw [if_neg (fun hc => hji hc.1),hother j hji] at this
    rw [this]
    have hold := hx.bytes j hj (by rw [update_of_ne hji]; exact htj) x
    rw [hother j hji,update_of_ne hji] at hold
    rw [hold,h.other j hj hji htj]
  · intro x
    have h3 := hby3 i hi ht2 x
    have hold : di'.byteAt w.disk = overwritten ((ino i).byteAt v.disk) off m src := by
      funext y
      have := hx.bytes i hi ht1 y
      rw [hdi,hdi'] at this
      rw [this,h.bytes]
    rw [hdi'] at h3
    rw [h3,← overwritten_add,← hold,← byteAt_splice x hle (hb ▸ hb0),hb,← hy]
    simp only [true_and]
  · intro l hl
    rw [hblk3]
    by_cases hl' : l * BSIZE < (ino i).size.toNat ∨ l * BSIZE < off + m
    · rw [hkeep2 l (h.mapped l hl')]
      exact h.mapped l hl'
    · -- the block that has just been written
      obtain rfl : l = (off + m) / BSIZE := by
        rw [hB] at hl hl' hle ⊢
        omega
      rwa [hb]
  · intro hsz
    have hdi1 := h.same (by omega)
    have hm : di.blk v1.disk ((off + m) / BSIZE) ≠ 0 := by
      apply h.mapped
      left
      rw [hB]
      omega
    rw [hsame hm,hdi1]

/-- A block that is there belongs to those that may be logged: it was there before, or it
has been allocated by the loop. -/
theorem Writing.blk_mem {m n : ℕ} {di : Dinode} {v' : View}
    (h : Writing A₀ v ino i k off src m di A v') (hs : Owned ino v.disk) (hi : i < NINODES)
    (ht : (ino i).type ≠ 0)
    (hA0 : (ino i).blk v.disk n ≠ 0 → (ino i).blk v.disk n ∈ A₀) (hb : di.blk v'.disk n ≠ 0) :
    di.blk v'.disk n ∈ A := by
  have hdi : update ino i di i = di := update_self ..
  have ht' : (update ino i di i).type ≠ 0 := by rw [hdi,h.type]; exact ht
  have hst : stored (update ino i di) v'.disk (i,Dinode.place n) = di.blk v'.disk n := by
    rw [stored_eq hi ht',hdi]
    rfl
  have hst0 : stored ino v.disk (i,Dinode.place n) = (ino i).blk v.disk n := stored_eq hi ht
  by_cases hb0 : (ino i).blk v.disk n = 0
  · have harea := h.owned.area _ (by rw [hst]; exact hb)
    have hbit := h.owned.bit_of_held (by rw [hst]; exact hb)
    rw [hst] at harea hbit
    refine h.marked _ harea.2 ?_ hbit
    by_contra hc
    -- a block that was marked has kept its owner
    obtain ⟨s,hs'⟩ := (hs.held _ harea.1 harea.2).mp (by simpa using hc)
    have hk := h.keep s (by rw [hs']; exact hb)
    have := h.owned.inj s (i,Dinode.place n) (by rw [hk,hs']; exact hb) (by rw [hk,hs',hst])
    rw [this,hst0,hb0] at hs'
    exact hb hs'.symm
  · have hk := h.keep (i,Dinode.place n) (by rw [hst0]; exact hb0)
    rw [hst,hst0] at hk
    rw [hk]
    exact h.base (hA0 hb0)

theorem Safe.writeiLoop {Q : Post Unit} {m fuel : ℕ} {di : Dinode}
    {v1 : View} (h58 : 58 ∈ A₀) (hr : Ready v) (hs : Owned ino v.disk) (hi : i < NINODES)
    (ht : (ino i).type ≠ 0) (ho : ∀ b, o (.buf b) = none)
    (hmax : off + src.length ≤ MAXFILE * BSIZE)
    (hA0 : ∀ n, off / BSIZE ≤ n → n * BSIZE < off + src.length → (ino i).blk v.disk n ≠ 0 →
      (ino i).blk v.disk n ∈ A₀)
    (h : Writing A₀ v ino i k off src m di A v1)
    (hroom : Room E A (c + needs di v1.disk ((off + m) / BSIZE) (endBlock off src.length)) v1)
    (hfuel : src.length ≤ m + fuel) (hm : m ≤ src.length)
    (hq : ∀ di' A' v', Writing A₀ v ino i k off src src.length di' A' v' → Room E A' c v' →
      Q () v' o) :
    Safe p E (Fs.writeiLoop k fuel (off + m) (src.drop m)) Q v1 o := by
  have hB : BSIZE = 512 := rfl
  have done : m = src.length → Q () v1 o := by
    rintro rfl
    exact hq di A v1 h (hroom.mono subset_rfl (Nat.le_add_right _ _))
  induction fuel generalizing m di A v1 with
  | zero => exact pure (done (by omega))
  | succ fuel ih =>
    refine ite (fun h0 => ?_) fun h0 => ?_
    · have := drop_eq_nil_iff.mp h0
      exact pure (done (by omega))
    have hlt : m < src.length := by
      by_contra hc
      exact h0 (drop_eq_nil_iff.mpr (by omega))
    have hdi : update ino i di i = di := update_self ..
    have hslot : v1.inode k = (v.inode k).withD di := by rw [h.inode,update_self]
    have ht1 : (update ino i di i).type ≠ 0 := by rw [hdi,h.type]; exact ht
    have hr1 : Ready v1 := h.frame.ready hr (h.metaBlocks 1 (by omega))
    have hmod : (off + m) % BSIZE < BSIZE := Nat.mod_lt _ (by rw [hB]; omega)
    have hend : (off + m) / BSIZE < endBlock off src.length := by
      unfold endBlock
      rw [hB]
      omega
    -- the part of the turn after `bmap`
    have tail : ∀ di' v2 A' b, di'.blk v2.disk ((off + m) / BSIZE) = b → b ≠ 0 →
        Grown A v1.disk di' v2.disk ((off + m) / BSIZE) A' → Frame A' v1 v2 →
        Room E A' (c + (needs di v1.disk ((off + m) / BSIZE) (endBlock off src.length) -
          di.need v1.disk ((off + m) / BSIZE))) v2 →
        v2.inode = update v1.inode k ((v1.inode k).withD di') →
        Extends i (update ino i di) v1.disk (update ino i di') v2.disk →
        (di.blk v1.disk ((off + m) / BSIZE) ≠ 0 → di' = di) →
        Safe p E (do
          Fs.bread b
          Fs.setData b ((← Fs.data b).splice ((off + m) % BSIZE)
            (min (src.drop m).length (BSIZE - (off + m) % BSIZE)) fun j => (src.drop m).getD j 0)
          Fs.logWrite b
          Fs.brelse b
          Fs.writeiLoop k fuel (off + m + min (src.drop m).length (BSIZE - (off + m) % BSIZE))
            ((src.drop m).drop (min (src.drop m).length (BSIZE - (off + m) % BSIZE)))) Q v2 o := by
      intro di' v2 A' b hb hb0 hg hf2 hroom2 hin2 hx hsame
      have hdi' : update ino i di' i = di' := update_self ..
      have ht2 : (update ino i di' i).type ≠ 0 := by rw [hx.type_eq]; exact ht1
      have hblk' : (update ino i di' i).blk v2.disk ((off + m) / BSIZE) ≠ 0 := by
        rwa [hdi',hb]
      have harea := blk_area hx.owned hi ht2 hblk'
      rw [hdi',hb] at harea
      have hkeep : ∀ x, freeCount (update v2.disk b x) = freeCount v2.disk := by
        intro x
        refine freeCount_congr ?_
        rw [update_of_ne (by omega)]
      refine bind (bread harea.2 (ho _) ?_)
      refine data_seq (bind (setData ?_))
      refine bind (logWrite (hroom2.frame (Frame.disk hf2.log _) (hkeep _).ge) hf2.log
        ⟨.inr (by omega),harea.2⟩ (hb ▸ hg.blk) fun v3 hf3 hd3 hin3 => ?_)
      refine bind (release (ho _) ?_)
      rw [drop_drop,Nat.add_assoc]
      have hlen : (src.drop m).length = src.length - m := length_drop
      have hf : Frame A' v2 v3 := (Frame.disk hf2.log _).trans hf3
      have hw := h.step hi ht (by omega) (by omega) hx hg hf2 hin2 hb hb0 hsame hf hin3 rfl hd3
      refine ih hw ((hroom2.frame hf ?_).mono subset_rfl ?_) (by omega) (by omega) ?_
      · rw [hd3]
        exact (hkeep _).ge
      · have hle : (off + m) / BSIZE
            ≤ (off + (m + min (src.drop m).length (BSIZE - (off + m) % BSIZE))) / BSIZE :=
          Nat.div_le_div_right (by omega)
        have hb3 : ∀ l, di'.blk v2.disk l ≠ 0 → di'.blk v3.disk l ≠ 0 := by
          intro l hl
          have hkept := fun y => blk_writeBlock hx.owned hi ht2 hblk' y hi ht2 l
          simp only [hdi',hb] at hkept
          rw [hd3]
          exact (hkept _).trans_ne hl
        have hstep : (∀ l, di.blk v1.disk l ≠ 0 → di'.blk v3.disk l ≠ 0) →
            (di.addr NDIRECT ≠ 0 → di'.addr NDIRECT ≠ 0) → _ := needs_step hend hle (hb3 _ (hb ▸ hb0))
        have := hstep ?_ ?_
        · omega
        · intro l hl
          refine hb3 l ?_
          have := hx.blk_keep hi ht1 (n := l) (by rw [hdi]; exact hl)
          rw [hdi,hdi'] at this
          rwa [this]
        · intro ha
          have := hx.indirect_keep hi ht1 (by rw [hdi]; exact ha)
          rw [hdi,hdi'] at this
          rwa [this]
      · intro hm'
        exact hq di' A' v3 (hm' ▸ hw) ((hroom2.frame hf (by rw [hd3]; exact (hkeep _).ge)).mono
          subset_rfl (Nat.le_add_right _ _))
    have hmapped : di.blk v1.disk ((off + m) / BSIZE) ≠ 0 →
        di.blk v1.disk ((off + m) / BSIZE) ∈ A := by
      intro hb
      refine h.blk_mem hs hi ht (hA0 _ ?_ ?_) hb
      · exact Nat.div_le_div_right (by omega)
      · have := Nat.div_mul_le_self (off + m) BSIZE
        omega
    refine bind (bmap (c := c + (needs di v1.disk ((off + m) / BSIZE)
      (endBlock off src.length) - di.need v1.disk ((off + m) / BSIZE))) (h.base h58) hr1 h.owned hi
      (by rw [hdi,hslot,withD_d]) ht1 ho ?_ (by rw [hdi]; exact h.indirect) (fun h0 => ?_)
      (fun hne => ?_) fun h0 di' v2 A' hgr hf2 hroom2 hin2 hx hb => ?_)
    · rw [hB] at hmax ⊢
      omega
    · rw [hdi] at h0 ⊢
      refine hroom.mono subset_rfl ?_
      have : di.need v1.disk ((off + m) / BSIZE) ≤ _ := need_le_needs hend
      omega
    · rw [hdi] at hne ⊢
      refine tail di v1 A _ rfl hne (.refl (hmapped hne) h.indirect) (Frame.refl h.frame.log) ?_ ?_
        (Extends.refl h.owned) fun _ => rfl
      · refine hroom.mono subset_rfl ?_
        omega
      · rw [hslot,withD_withD,← hslot,update_eq_self]
    · rw [update_idem] at hx
      rw [hdi] at h0
      exact tail di' v2 A' _ rfl hb hgr hf2 hroom2 hin2 hx fun hc => absurd h0 hc

/-- What a successful `writei` on inode `i` in slot `k` leaves. -/
structure Written (A₀ A : Finset ℕ) (v : View) (i k off : ℕ) (src : List UInt8) (v' : View) :
    Prop where
  frame : Frame A v v'
  base : A₀ ⊆ A
  /-- only the indirect block and blocks of the part that is written are new -/
  only : ∀ b ∈ A, b ∈ A₀ ∨ ((inodeAt v'.disk i).addr NDIRECT ≠ 0 ∧
      b = ((inodeAt v'.disk i).addr NDIRECT).toNat) ∨
    ∃ n, off / BSIZE ≤ n ∧ n * BSIZE < off + src.length ∧ b = (inodeAt v'.disk i).blk v'.disk n
  inode : v'.inode = update v.inode k ((v.inode k).withD (inodeAt v'.disk i))
  sound : Sound (inodeAt v'.disk) v'.disk
  other : ∀ j, j ≠ i → inodeAt v'.disk j = inodeAt v.disk j
  files : files v'.disk = update (files v.disk) i
    (some ((nodeOf (inodeAt v.disk i) v.disk).write off src))
  superblock : v'.disk 1 = v.disk 1
  /-- no block number is lost -/
  keep : ∀ s, stored (inodeAt v.disk) v.disk s ≠ 0 →
    stored (inodeAt v'.disk) v'.disk s = stored (inodeAt v.disk) v.disk s

theorem nodeOf_written {di di' : Dinode} {d d' : Disk} {m : ℕ} (hm : m = src.length)
    (hf : di' = { di with addrs := di'.addrs, size := di'.size })
    (hsz : di'.size.toNat = max di.size.toNat (off + src.length))
    (hoff : off ≤ di.size.toNat)
    (hb : ∀ x, di'.byteAt d' x = overwritten (di.byteAt d) off m src x) :
    nodeOf di' d' = (nodeOf di d).write off src := by
  subst hm
  ext1
  · change di'.type = di.type
    rw [hf]
  · change di'.major = di.major
    rw [hf]
  · change di'.minor = di.minor
    rw [hf]
  · change di'.nlink = di.nlink
    rw [hf]
  · exact hsz
  · funext x
    change (if x < di'.size.toNat then di'.byteAt d' x else 0)
      = if off ≤ x ∧ x < off + src.length then src.getD (x - off) 0
        else if x < di.size.toNat then di.byteAt d x else 0
    rw [hsz,hb]
    unfold overwritten
    by_cases h1 : off ≤ x ∧ x < off + src.length
    · rw [if_pos h1,if_pos h1,if_pos (by omega)]
    · rw [if_neg h1,if_neg h1]
      by_cases h2 : x < di.size.toNat
      · rw [if_pos h2,if_pos (by omega)]
      · rw [if_neg h2,if_neg (by omega)]

theorem Writing.written_same {v' : View} {di : Dinode} (hs : Sound (inodeAt v.disk) v.disk)
    (hi : i < NINODES) (ht : (inodeAt v.disk i).type ≠ 0)
    (hoff : off ≤ (inodeAt v.disk i).size.toNat)
    (h : Writing A₀ v (inodeAt v.disk) i k off src src.length di A v')
    (hsz : off + src.length ≤ (inodeAt v.disk i).size.toNat) : Written A₀ A v i k off src v' := by
  have hdi := h.same hsz
  subst hdi
  have hino : inodeAt v'.disk = inodeAt v.disk :=
    inodeAt_congr fun b _ hb => h.metaBlocks b hb
  have hown := h.owned
  rw [update_eq_self] at hown
  have hkeep : ∀ s, stored (inodeAt v.disk) v.disk s ≠ 0 →
      stored (inodeAt v.disk) v'.disk s = stored (inodeAt v.disk) v.disk s := by
    intro s hs0
    have := h.keep s hs0
    rwa [update_eq_self] at this
  refine ⟨h.frame,h.base,?_,?_,⟨?_,?_⟩,?_,?_,h.metaBlocks 1 (by omega),
    fun s hs0 => hino ▸ hkeep s hs0⟩
  · rw [hino]
    exact h.only
  · rw [hino]
    exact h.inode
  · rw [hino]
    exact hown
  · intro j hj htj n hn
    rw [hino] at htj hn ⊢
    have h0 := hs.mapped j hj htj n hn
    rw [blk_stored hj htj] at h0 ⊢
    rw [hkeep _ h0]
    exact h0
  · intro j _
    rw [hino]
  · funext j
    by_cases hj : j = i
    · subst hj
      rw [update_self,files_of_type (by rw [hino]; exact ht),hino,
        nodeOf_written rfl rfl (by omega) hoff h.bytes]
    · rw [update_of_ne hj]
      exact files_congr (by rw [hino]) fun htj =>
        h.other j (lt_NINODES_of_type htj) hj htj

theorem Writing.written_grow {v' v'' : View} {di : Dinode} (hs : Sound (inodeAt v.disk) v.disk)
    (hi : i < NINODES) (ht : (inodeAt v.disk i).type ≠ 0)
    (hoff : off ≤ (inodeAt v.disk i).size.toNat)
    (h : Writing A₀ v (inodeAt v.disk) i k off src src.length di A v')
    (hsz : (inodeAt v.disk i).size.toNat < off + src.length)
    (hmax : off + src.length ≤ MAXFILE * BSIZE) (hf : Frame A v' v'')
    (hin : v''.inode = update v.inode k ((v.inode k).withD
      { di with size := UInt32.ofNat (off + src.length) }))
    (hd : v''.disk = writeInode v'.disk i { di with size := UInt32.ofNat (off + src.length) }) :
    Written A₀ A v i k off src v'' := by
  have hlen : (UInt32.ofNat (off + src.length)).toNat = off + src.length := by
    have : MAXFILE * BSIZE = 71680 := rfl
    exact UInt32.toNat_ofNat_of_lt' (by simp only [UInt32.size]; omega)
  have hino' : inodeAt v'.disk = inodeAt v.disk :=
    inodeAt_congr fun b _ hb => h.metaBlocks b hb
  have hino : inodeAt v''.disk = update (inodeAt v.disk) i
      { di with size := UInt32.ofNat (off + src.length) } := by
    rw [hd,inodeAt_writeInode hi,hino']
  -- the size plays no part in which blocks are stored
  have hst : ∀ d, stored (inodeAt v''.disk) d = stored (update (inodeAt v.disk) i di) d := by
    intro d
    rw [hino]
    funext s
    obtain ⟨j,a⟩ := s
    by_cases hj : j = i
    · subst hj
      unfold stored
      simp only [update_self]
      rfl
    · unfold stored
      simp only [update_of_ne hj]
  have hown : Owned (inodeAt v''.disk) v'.disk :=
    h.owned.congr (by simp only [nmeta_eq,FSSIZE]; omega) (fun s => by rw [hst]) fun _ _ => rfl
  have htype : di.type ≠ 0 := by rw [h.type]; exact ht
  have hself : inodeAt v''.disk i = { di with size := UInt32.ofNat (off + src.length) } := by
    rw [hino,update_self]
  have hother : ∀ j, j ≠ i → inodeAt v''.disk j = inodeAt v.disk j := by
    intro j hj
    rw [hino,update_of_ne hj]
  have hti : (inodeAt v''.disk i).type ≠ 0 := by rw [hself]; exact htype
  have hlt := IBLOCK_lt hi
  refine ⟨h.frame.trans hf,h.base,?_,?_,⟨?_,?_⟩,hother,?_,?_,?_⟩
  · intro b hb
    rw [hself]
    refine (h.only b hb).imp_right (.imp_right ?_)
    rintro ⟨n,h1,h2,h3⟩
    refine ⟨n,h1,h2,?_⟩
    rw [h3,← hself,hd,blk_writeInode (hd ▸ hown) hi hi (hd ▸ hti),← hd,hself]
    rfl
  · rw [hself]
    exact hin
  · rw [hd] at hown ⊢
    exact hown.writeInode hi
  · intro j hj htj n hn
    rw [hd,blk_writeInode (hd ▸ hown) hi hj (hd ▸ htj),← hd]
    by_cases hji : j = i
    · subst hji
      rw [hself] at hn ⊢
      refine h.mapped n (.inr ?_)
      rw [← hlen]
      exact hn
    · have htj' := htj
      rw [hother j hji] at htj' hn ⊢
      have h0 := hs.mapped j hj htj' n hn
      rw [blk_stored hj htj'] at h0
      have hk := h.keep _ h0
      rw [stored_eq hj (by rw [update_of_ne hji]; exact htj'),
        update_of_ne hji] at hk
      rw [Dinode.blk,hk]
      exact h0
  · funext j
    by_cases hj : j = i
    · subst hj
      rw [update_self,files_of_type hti]
      congr 1
      refine nodeOf_written rfl ?_ ?_ hoff ?_
      · rw [hself,h.fields]
      · rw [hself]
        change (UInt32.ofNat (off + src.length)).toNat = _
        omega
      · intro x
        rw [hd,byteAt_writeInode (hd ▸ hown) hi hi (hd ▸ hti),← hd,hself]
        exact h.bytes x
    · rw [update_of_ne hj]
      refine files_congr (hother j hj) fun htj x => ?_
      have hj' := lt_NINODES_of_type htj
      rw [← h.other j hj' hj htj x,← hother j hj,hd,
        byteAt_writeInode (hd ▸ hown) hi hj' (by rw [← hd,hother j hj]; exact htj)]
  · rw [hd,writeInode_ne (by rw [IBLOCK_eq]; omega),h.metaBlocks 1 (by omega)]
  · intro s hs0
    have hw : stored (inodeAt v''.disk) v''.disk = stored (inodeAt v''.disk) v'.disk := by
      rw [hd] at hown ⊢
      exact stored_writeInode hown hi
    rw [hw,hst]
    exact h.keep s hs0

def WriteBad (di : Dinode) (off n : ℕ) : Prop :=
  off > di.size.toNat ∨ (off + n) % 2 ^ 32 < off ∨ off + n > MAXFILE * BSIZE

/-- The blocks that are there already and that a write of `n` bytes at `off` logs. -/
structure LogSet (A : Finset ℕ) (d : Disk) (i off n : ℕ) : Prop where
  bitmap : 58 ∈ A
  inode : IBLOCK i Mkfs.sb ∈ A
  indirect : (inodeAt d i).addr NDIRECT ≠ 0 → ((inodeAt d i).addr NDIRECT).toNat ∈ A
  blocks : ∀ m, off / BSIZE ≤ m → m * BSIZE < off + n → (inodeAt d i).blk d m ≠ 0 →
    (inodeAt d i).blk d m ∈ A

/-- `writei` leaves everything as it is and returns -1, or writes all bytes and returns
their number. -/
theorem Safe.writei {Q : Post ℤ} (hr : Ready v)
    (hs : Sound (inodeAt v.disk) v.disk) (hi : i < NINODES) (hn : (v.inode k).inum = i)
    (hk : (v.inode k).d = inodeAt v.disk i) (ht : (inodeAt v.disk i).type ≠ 0)
    (hv : (v.inode k).valid = true) (href : 0 < (v.inode k).ref) (ho : ∀ b, o (.buf b) = none)
    (hl : o (.inode k) = some p)
    (hset : (inodeAt v.disk i).type ≠ T_DEV → ¬ WriteBad (inodeAt v.disk i) off src.length →
      LogSet A₀ v.disk i off src.length ∧
      Room E A₀ (c + needs (inodeAt v.disk i) v.disk (off / BSIZE) (endBlock off src.length)) v)
    (hdev : (inodeAt v.disk i).type = T_DEV → ∀ r, Q r v o)
    (hbad : (inodeAt v.disk i).type ≠ T_DEV → WriteBad (inodeAt v.disk i) off src.length →
      Q (-1) v o)
    (hok : (inodeAt v.disk i).type ≠ T_DEV → ¬ WriteBad (inodeAt v.disk i) off src.length →
      ∀ A v', Written A₀ A v i k off src v' → Room E A c v' → Q src.length v' o) :
    Safe p E (Fs.writei k off src) Q v o := by
  refine inode_seq ?_
  rw [hk]
  refine ite (fun hd => ?_) fun hd => ?_
  · refine ite (fun _ => ?_) fun _ => pure (hdev hd _)
    refine bind (iunlock hl href ?_)
    exact bind (relock hr (hn ▸ hi) hv href ho hl (pure (hdev hd _)))
  have hbad' := hbad hd
  have hok' := hok hd
  unfold WriteBad at hbad' hok'
  refine ite (fun hc => pure (hbad' (by omega))) fun hc => ?_
  refine ite (fun hc' => pure (hbad' (by omega))) fun hc' => ?_
  have hgood : ¬ WriteBad (inodeAt v.disk i) off src.length := by
    unfold WriteBad
    omega
  obtain ⟨hset,hroom⟩ := hset hd hgood
  have hoff : off ≤ (inodeAt v.disk i).size.toNat := by omega
  have start : Writing A₀ v (inodeAt v.disk) i k off src 0 (inodeAt v.disk i) A₀ v := by
    refine ⟨Frame.refl hr.log,subset_rfl,hset.indirect,fun b hb => .inl hb,
      fun b _ h0 h1 => absurd (h0.symm.trans h1) nofun,?_,fun _ _ => rfl,?_,rfl,?_,
      fun _ _ _ _ _ => rfl,?_,?_,fun _ => rfl⟩
    · rw [← hk,withD_self,update_eq_self]
    · rw [update_eq_self]
      exact hs.owned
    · intro s _
      rw [update_eq_self]
    · intro x
      rw [overwritten,if_neg (by omega)]
    · intro n hlt
      exact hs.mapped i hi ht n (by omega)
  refine bind (writeiLoop (c := c) hset.bitmap hr hs.owned hi ht ho (by omega)
    hset.blocks start (by simpa using hroom) (by omega) (Nat.zero_le _) ?_)
  intro di A v' hw hroom'
  have hslot : v'.inode k = (v.inode k).withD di := by rw [hw.inode,update_self]
  have hsize : di.size = (inodeAt v.disk i).size := by rw [hw.fields]
  refine inode_seq ?_
  rw [hslot,withD_d,hsize]
  refine bind (whenever (fun hgrow => ?_) fun hgrow => ?_)
  · have hsz : (inodeAt v.disk i).size.toNat < off + src.length := by
      simp only [Bool.and_eq_true,decide_eq_true_eq] at hgrow
      exact hgrow.2
    refine bind (modifyInode ?_)
    have hin : update v'.inode k ((v'.inode k).withD
        { di with size := UInt32.ofNat (off + src.length) })
        = update v.inode k ((v.inode k).withD
          { di with size := UInt32.ofNat (off + src.length) }) := by
      rw [hslot,withD_withD,hw.inode,update_idem]
    change Safe p E _ _ { v' with inode := update v'.inode k ((v'.inode k).withD
      { (v'.inode k).d with size := UInt32.ofNat (off + src.length) }) } o
    rw [show (v'.inode k).d = di by rw [hslot,withD_d],hin]
    have hr' : Ready v' := hw.frame.ready hr (hw.metaBlocks 1 (by omega))
    have hnew : update v.inode k ((v.inode k).withD
        { di with size := UInt32.ofNat (off + src.length) }) k = (v.inode k).withD
        { di with size := UInt32.ofNat (off + src.length) } := update_self ..
    refine iupdate (A := A) (n := c) (hroom'.frame (Frame.inode hw.frame.log _) le_rfl) ?_
      ⟨hr'.sb,hr'.block,hr'.log⟩ ?_ (fun b _ => ho b) ?_
    · change IBLOCK (update v.inode k _ k).inum Mkfs.sb ∈ A
      rw [hnew,withD_inum,hn]
      exact hw.base hset.inode
    · change (update v.inode k _ k).inum < _
      rw [hnew,withD_inum,hn]
      exact hi
    intro v'' hf hd' hin'
    change v''.disk = writeInode v'.disk (update v.inode k _ k).inum (update v.inode k _ k).d at hd'
    rw [hnew,withD_inum,hn,withD_d] at hd'
    have hf' : Frame A v' v'' := (Frame.inode hw.frame.log _).trans hf
    refine pure (hok hd hgood A v'' ?_ (hroom'.frame hf' ?_))
    · exact hw.written_grow hs hi ht hoff hsz (by omega) hf' hin' hd'
    · rw [hd']
      refine le_of_eq (freeCount_congr ?_).symm
      have := IBLOCK_lt hi
      exact writeInode_ne (by omega)
  · have hsz : off + src.length ≤ (inodeAt v.disk i).size.toNat := by
      simp only [Bool.and_eq_false_iff,decide_eq_false_iff_not] at hgrow
      omega
    exact pure (hok hd hgood A v' (hw.written_same hs hi ht hoff hsz) hroom')

end Writei
end Fs
end Xv6
