import Xv6.Fs.EditSpec

/-! # What `ialloc` does -/
namespace Xv6
open Conc Function

def blankNode (type : Int16) : Node := ⟨type,0,0,0,0,fun _ => 0⟩

/-- Inode `i`, which was free, gets the type `type`. -/
structure Alloced (v : View) (type : Int16) (i : ℕ) (v' : View) : Prop where
  lt : i < Mkfs.NINODES
  pos : 0 < i
  free : files v.disk i = none
  frame : Frame {IBLOCK i Mkfs.sb} v v'
  superblock : v'.disk 1 = v.disk 1
  inode : v'.inode = v.inode
  sound : Sound (inodeAt v'.disk) v'.disk
  other : ∀ j, j ≠ i → inodeAt v'.disk j = inodeAt v.disk j
  files : files v'.disk = update (files v.disk) i (some (blankNode type))

namespace Alloced
variable {v v' : View} {type : Int16} {i j a : ℕ} {n : Node}
variable (h : Alloced v type i v')
include h

theorem holds_iff : Holds v' j a ↔ Holds v j a := by
  constructor
  · rintro ⟨h1,h2,h3⟩
    exact ⟨h1,h.inode ▸ h2,h.inode ▸ h3⟩
  · rintro ⟨h1,h2,h3⟩
    exact ⟨h1,h.inode ▸ h2,h.inode ▸ h3⟩

theorem refs (a : ℕ) : refs v' a = Xv6.refs v a := by
  unfold Xv6.refs
  rw [h.inode]

/-- A copy in memory that is valid is one of another inode. -/
theorem not_valid (hc : Core v) (hj : Holds v j i) : (v.inode j).valid = false := by
  by_contra hv
  obtain ⟨-,ht⟩ := hc.copy j i hj (by simpa using hv)
  exact ht (files_eq_none.mp h.free)

theorem core (hc : Core v) : Core v' := by
  refine ⟨h.frame.ready hc.ready h.superblock,h.sound,?_,?_,?_,?_⟩
  · intro j hj
    rw [h.inode]
    exact hc.ref j hj
  · intro j a hj
    exact hc.inum j a (h.holds_iff.mp hj)
  · intro j j' a hj hj'
    exact hc.uniq j j' a (h.holds_iff.mp hj) (h.holds_iff.mp hj')
  · intro j a hj hv
    have hj' := h.holds_iff.mp hj
    have ha : a ≠ i := by
      rintro rfl
      rw [h.inode,h.not_valid hc hj'] at hv
      cases hv
    rw [h.inode] at hv ⊢
    rw [h.other a ha]
    exact hc.copy j a hj' hv

theorem loaded (hl : Fs.Loaded v j a n) : Fs.Loaded v' j a n := by
  refine ⟨h.holds_iff.mpr hl.holds,by rw [h.inode]; exact hl.valid,?_⟩
  rw [h.files,update_of_ne]
  · exact hl.node
  · rintro rfl
    have := hl.node
    rw [h.free] at this
    cases this

end Alloced

namespace Fs
section Ialloc
variable {p : ℕ} {E : Stops} {v : View} {S : Finset ℕ} {type : Int16}
  {Q : Post ℕ}

theorem Safe.iallocFrom {fuel i : ℕ} (hc : Core v) (ht : type ≠ 0) (hi : 0 < i)
    (hlog : Budget E 1 v) (hno : E (.fail .iallocNoInodes)) (hfull : E (.fail .igetNoInodes))
    (hq : ∀ i k ip v', Alloced v type i v' → Got v' i k ip → Q k (v'.setSlot k ip) (held p S)) :
    Safe p E (Fs.iallocFrom type fuel i) Q v (held p S) := by
  induction fuel generalizing i with
  | zero => exact panic hno
  | succ fuel ih =>
    refine view_seq ?_
    rw [hc.ready.sb]
    refine ite (fun hlt => ?_) fun _ => panic hno
    have hlt' : i < Mkfs.NINODES := hlt
    have hblk := IBLOCK_lt hlt'
    have hm : Home (IBLOCK i Mkfs.sb) := by
      refine ⟨.inr ?_,by simp only [FSSIZE]; omega⟩
      rw [IBLOCK_eq]
      omega
    refine bind (bread hm.2 rfl (data_seq ?_))
    rw [inodeAt_eq hlt']
    refine ite (fun h0 => ?_) fun _ => ?_
    · refine data_seq (bind (setData ?_))
      have hroom : Room E {IBLOCK i Mkfs.sb} 0
          { v with disk := writeInode v.disk i { Dinode.zero with type := type } } :=
        Budget.room (m := 1) hlog (by simp) (.inr (Nat.zero_le _))
      refine bind (logWrite hroom hc.ready.log hm (Finset.mem_singleton_self _)
        fun v' hf hd hin => ?_)
      refine bind (release (held_buf _) ?_)
      change v'.disk = writeInode v.disk i { Dinode.zero with type := type } at hd
      have hst : ∀ a, stored (update (inodeAt v.disk) i { Dinode.zero with type := type }) v.disk
          (i,a) = stored (inodeAt v.disk) v.disk (i,a) :=
        stored_fresh h0 fun k => by simp [Dinode.addr,Dinode.zero]
      have hal : Alloced v type i v' := by
        refine ⟨hlt',hi,files_eq_none.mpr h0,(Frame.disk hc.ready.log _).trans hf,?_,hin,?_,?_, ?_⟩
        · rw [hd,writeInode_ne (by rw [IBLOCK_eq]; omega)]
        · rw [hd]
          exact hc.sound.writeInode hlt' hst fun _ m hm => absurd hm (Nat.not_lt_zero _)
        · intro j hj
          rw [hd,inodeAt_writeInode hlt',update_of_ne hj]
        · rw [hd,files_writeInode hc.sound.owned hlt' hst,if_neg ht]
          rfl
      exact iget_got (fun _ => hfull) fun k ip hg => hq i k ip v' hal hg
    · refine bind (release (held_buf _) ?_)
      exact ih (by omega)

theorem Safe.ialloc (hc : Core v) (ht : type ≠ 0) (hlog : Budget E 1 v)
    (hno : E (.fail .iallocNoInodes)) (hfull : E (.fail .igetNoInodes))
    (hq : ∀ i k ip v', Alloced v type i v' → Got v' i k ip → Q k (v'.setSlot k ip) (held p S)) :
    Safe p E (Fs.ialloc type) Q v (held p S) := by
  exact view_seq (iallocFrom hc ht Nat.one_pos hlog hno hfull hq)

end Ialloc
end Fs
end Xv6
