import Xv6.Fs.ByteString
import Xv6.Fs.IcacheSpec
import Xv6.Sys.Sysfile

/-! # Changes to one inode that is in use

What a write to the contents and a change of the link count of a locked inode have in
common. -/
namespace Xv6
open Conc Function Finset

/-- No file is larger than what the addresses in its inode can reach. -/
theorem Sound.size_le {d : Disk} {i : ℕ} {n : Node} (h : Sound (inodeAt d) d)
    (hn : files d i = some n) : n.size ≤ MAXFILE * BSIZE := by
  have hM : MAXFILE = 140 := rfl
  have hB : BSIZE = 512 := rfl
  obtain ⟨hi,ht,rfl⟩ := files_eq_some hn
  by_contra hc
  change ¬ (inodeAt d i).size.toNat ≤ _ at hc
  have := h.mapped i hi ht 140 (by rw [hB] at hc ⊢; omega)
  exact absurd (lt_MAXFILE_of_blk this) (by omega)

/-- Slot `k` holds inode `i` with the contents `n`, and its copy is what is on disk. -/
structure Opened (v : View) (k i : ℕ) (n : Node) : Prop where
  ready : Ready v
  sound : Sound (inodeAt v.disk) v.disk
  holds : Holds v k i
  valid : (v.inode k).valid = true
  copy : (v.inode k).d = inodeAt v.disk i
  node : files v.disk i = some n

namespace Opened
variable {v : View} {k i : ℕ} {n : Node}

theorem of_loaded (hl : Fs.Loaded v k i n) (hc : Core v) : Opened v k i n :=
  ⟨hc.ready,hc.sound,hl.holds,hl.valid,(hl.copy hc).1,hl.node⟩

variable (h : Opened v k i n)
include h

theorem loaded : Fs.Loaded v k i n := ⟨h.holds,h.valid,h.node⟩

theorem inum_lt : i < Mkfs.NINODES := (files_eq_some h.node).1

theorem type_ne_zero : (inodeAt v.disk i).type ≠ 0 :=
  (files_eq_some h.node).2.1

theorem nodeOf_eq : nodeOf (inodeAt v.disk i) v.disk = n :=
  (files_eq_some h.node).2.2.symm

theorem type : (v.inode k).d.type = n.type := by
  rw [h.copy,← h.nodeOf_eq]
  rfl

theorem nlink : (v.inode k).d.nlink = n.nlink := by
  rw [h.copy,← h.nodeOf_eq]
  rfl

theorem size : (v.inode k).d.size.toNat = n.size := by
  rw [h.copy,← h.nodeOf_eq]
  rfl

theorem size_le : n.size ≤ MAXFILE * BSIZE := h.sound.size_le h.node

theorem got {a j : ℕ} {ip : Inode} (hg : Fs.Got v a j ip) :
    Opened (v.setSlot j ip) k i n := by
  obtain ⟨h1,h2,h3⟩ := hg.keep h.holds
  exact ⟨⟨h.ready.sb,h.ready.block,h.ready.log⟩,h.sound,h1,h2.trans h.valid,h3.trans h.copy,
    h.node⟩

end Opened

/-- Inode `i` in slot `k` gets the contents `n`, with blocks of `A` logged. -/
structure Edit (A : Finset ℕ) (v : View) (k i : ℕ) (n : Node) (v' : View) : Prop where
  frame : Frame A v v'
  superblock : v'.disk 1 = v.disk 1
  sound : Sound (inodeAt v'.disk) v'.disk
  inode : v'.inode = update v.inode k ((v.inode k).withD (inodeAt v'.disk i))
  other : ∀ j, j ≠ i → inodeAt v'.disk j = inodeAt v.disk j
  files : files v'.disk = update (files v.disk) i (some n)

namespace Edit
variable {A B : Finset ℕ} {v v' : View} {k i j a : ℕ} {n m : Node}
variable (h : Edit A v k i n v')
include h

theorem mono (hAB : A ⊆ B) : Edit B v k i n v' :=
  ⟨h.frame.mono hAB,h.superblock,h.sound,h.inode,h.other,h.files⟩

theorem slot (j : ℕ) : (v'.inode j).inum = (v.inode j).inum ∧
    (v'.inode j).ref = (v.inode j).ref ∧ (v'.inode j).valid = (v.inode j).valid := by
  rw [h.inode]
  by_cases hj : j = k
  · subst hj
    rw [update_self]
    exact ⟨rfl,rfl,rfl⟩
  · rw [update_of_ne hj]
    exact ⟨rfl,rfl,rfl⟩

theorem holds_iff : Holds v' j a ↔ Holds v j a := by
  obtain ⟨h1,h2,-⟩ := h.slot j
  constructor
  · rintro ⟨h3,h4,h5⟩
    exact ⟨h3,h2 ▸ h4,h1 ▸ h5⟩
  · rintro ⟨h3,h4,h5⟩
    exact ⟨h3,h2 ▸ h4,h1 ▸ h5⟩

theorem refs (a : ℕ) : refs v' a = Xv6.refs v a := by
  refine sum_congr rfl fun j _ => ?_
  obtain ⟨h1,h2,-⟩ := h.slot j
  rw [h1,h2]

theorem ready (hr : Ready v) : Ready v' :=
  h.frame.ready hr h.superblock

theorem node_self : Xv6.files v'.disk i = some n := by
  rw [h.files,update_self]

theorem node_ne (ha : a ≠ i) : Xv6.files v'.disk a = Xv6.files v.disk a := by
  rw [h.files,update_of_ne ha]

theorem opened (ho : Opened v k i m) : Opened v' k i n := by
  refine ⟨h.ready ho.ready,h.sound,h.holds_iff.mpr ho.holds,?_,?_,h.node_self⟩
  · rw [(h.slot k).2.2]
    exact ho.valid
  · rw [h.inode,update_self]
    rfl

theorem core (hc : Core v) (hk : Holds v k i) : Core v' := by
  refine ⟨h.ready hc.ready,h.sound,?_,?_,?_,?_⟩
  · intro j hj
    rw [(h.slot j).2.1]
    exact hc.ref j hj
  · intro j a hj
    exact hc.inum j a (h.holds_iff.mp hj)
  · intro j j' a hj hj'
    exact hc.uniq j j' a (h.holds_iff.mp hj) (h.holds_iff.mp hj')
  · intro j a hj hv
    by_cases hjk : j = k
    · subst hjk
      obtain rfl : a = i := by rw [← (h.holds_iff.mp hj).inum,hk.inum]
      rw [h.inode,update_self]
      exact ⟨rfl,(files_eq_some h.node_self).2.1⟩
    · have ha : a ≠ i := by
        rintro rfl
        exact hjk (hc.uniq j k a (h.holds_iff.mp hj) hk)
      rw [(h.slot j).2.2] at hv
      rw [h.inode,update_of_ne hjk,h.other a ha]
      exact hc.copy j a (h.holds_iff.mp hj) hv

theorem loaded (hl : Fs.Loaded v j a m) (ha : a ≠ i) :
    Fs.Loaded v' j a m := by
  refine ⟨h.holds_iff.mpr hl.holds,?_,(h.node_ne ha).trans hl.node⟩
  rw [(h.slot j).2.2]
  exact hl.valid

end Edit

namespace Fs
section Written
variable {A : Finset ℕ} {v v' : View} {k i off : ℕ} {n : Node} {src : List UInt8}

theorem Written.edit {A0 : Finset ℕ} (h : Written A0 A v i k off src v')
    (hn : nodeOf (inodeAt v.disk i) v.disk = n) : Edit A v k i (n.write off src) v' :=
  ⟨h.frame,h.superblock,h.sound,h.inode,h.other,hn ▸ h.files⟩

/-- The blocks that a write logs, by the addresses in the inode afterwards. -/
theorem Written.subset (h : Written (logSet v.disk i off src.length) A v i k off src v')
    (hi : i < Mkfs.NINODES) (ht : (inodeAt v.disk i).type ≠ 0) :
    A ⊆ {58, IBLOCK i Mkfs.sb, ((inodeAt v'.disk i).addr NDIRECT).toNat} ∪
      (Finset.Ico (off / BSIZE) (endBlock off src.length)).image
        fun m => (inodeAt v'.disk i).blk v'.disk m := by
  have hself := congrFun h.files i
  rw [update_self] at hself
  obtain ⟨-,ht',-⟩ := files_eq_some hself
  -- a block that is there before is there afterwards
  have hkeep : ∀ a, (inodeAt v.disk i).ptr v.disk a ≠ 0 →
      (inodeAt v'.disk i).ptr v'.disk a = (inodeAt v.disk i).ptr v.disk a := by
    intro a ha
    have := h.keep (i,a)
    rw [stored_eq hi ht,stored_eq hi ht'] at this
    exact this ha
  intro b hb
  rcases h.only b hb with h1 | ⟨-,h1⟩ | ⟨m,h1,h2,h3⟩
  · simp only [logSet,mem_union,mem_insert,mem_singleton,indirectSet,
      presentSet,mem_image,mem_filter] at h1
    rcases h1 with (rfl | rfl) | h1 | ⟨m,⟨h1,h2⟩,rfl⟩
    · simp
    · simp
    · by_cases ha : (inodeAt v.disk i).addr NDIRECT = 0
      · rw [if_pos ha] at h1
        cases h1
      · rw [if_neg ha,mem_singleton] at h1
        have := hkeep NDIRECT (by rw [ptr_direct le_rfl]; exact toNat_ne_zero ha)
        rw [ptr_direct le_rfl,ptr_direct le_rfl] at this
        simp [h1,this]
    · refine mem_union_right _ (mem_image.mpr ⟨m,h1,?_⟩)
      exact hkeep _ h2
  · simp [h1]
  · refine mem_union_right _ (mem_image.mpr ⟨m,mem_Ico.mpr ⟨h1,?_⟩,h3.symm⟩)
    have hB : BSIZE = 512 := rfl
    unfold endBlock
    rw [hB] at h2 ⊢
    omega

end Written

section AddLink
variable {p : ℕ} {E : Stops} {v : View} {S : Finset ℕ} {k i : ℕ} {n : Node}
variable (h : Opened v k i n)
include h

/-- New values for the fields of an inode other than the size and the addresses. -/
theorem Safe.iupdate_fields {Q : Post Unit} {f : Dinode → Dinode}
    {n' : Node} (hlog : Budget E 1 v)
    (hf : ∀ di, (f di).type = di.type ∧ (f di).size = di.size ∧ (f di).addrs = di.addrs)
    (hn : ∀ di d, nodeOf di d = n → nodeOf (f di) d = n')
    (hq : ∀ v', Edit {IBLOCK i Mkfs.sb} v k i n' v' →
      v'.disk = writeInode v.disk i (f (inodeAt v.disk i)) → Q () v' (held p S)) :
    Safe p E (do Fs.modifyInode k fun ip => { ip with d := f ip.d }; Fs.iupdate k) Q v
      (held p S) := by
  have hi := h.inum_lt
  have ht := h.type_ne_zero
  obtain ⟨hf1,hf2,hf3⟩ := hf (inodeAt v.disk i)
  refine bind (modifyInode ?_)
  change Safe p E _ Q (v.setSlot k ((v.inode k).withD (f (v.inode k).d))) (held p S)
  have hin : ((v.setSlot k ((v.inode k).withD (f (v.inode k).d))).inode k)
      = (v.inode k).withD (f (v.inode k).d) := setSlot_self
  have hroom : Room E {IBLOCK i Mkfs.sb} 0 (v.setSlot k ((v.inode k).withD (f (v.inode k).d))) :=
    Budget.room hlog (by simp) (.inr (Nat.zero_le _))
  refine iupdate hroom ?_ ⟨h.ready.sb,h.ready.block,h.ready.log⟩ ?_ (fun _ _ => rfl)
    fun v' hfr hd hino => ?_
  · rw [hin,Inode.withD_inum,h.holds.inum]
    exact mem_singleton_self _
  · rw [hin,Inode.withD_inum,h.holds.inum]
    exact hi
  rw [hin,Inode.withD_inum,Inode.withD_d,h.holds.inum,h.copy] at hd
  change v'.disk = writeInode v.disk i _ at hd
  have hst : ∀ a, stored (update (inodeAt v.disk) i (f (inodeAt v.disk i))) v.disk (i,a)
      = stored (inodeAt v.disk) v.disk (i,a) :=
    stored_fields ht (by rw [hf1]; exact ht) hf3
  have hself : inodeAt v'.disk i = f (inodeAt v.disk i) := by
    rw [hd,inodeAt_writeInode hi,update_self]
  refine hq v' ⟨(Frame.inode h.ready.log _).trans hfr,?_,?_,?_,?_,?_⟩ hd
  · rw [hd,writeInode_ne (by rw [IBLOCK_eq]; omega)]
  · rw [hd]
    refine h.sound.writeInode hi hst fun _ m hm => ?_
    rw [hf2] at hm
    unfold Dinode.blk Dinode.ptr Dinode.addr
    rw [hf3]
    exact h.sound.mapped i hi ht m hm
  · rw [hino,hself,h.copy]
    rfl
  · intro j hj
    rw [hd,inodeAt_writeInode hi,update_of_ne hj]
  · rw [hd,files_writeInode h.sound.owned hi hst,if_neg (by rw [hf1]; exact ht),
      hn _ _ h.nodeOf_eq]

theorem Safe.iupdate_fields_seq {α : Type} {Q : Post α} {g : Fs α}
    {f : Dinode → Dinode} {m : Node} (hlog : Budget E 1 v)
    (hf : ∀ di, (f di).type = di.type ∧ (f di).size = di.size ∧ (f di).addrs = di.addrs)
    (hn : ∀ di d, nodeOf di d = n → nodeOf (f di) d = m)
    (hq : ∀ v', Edit {IBLOCK i Mkfs.sb} v k i m v' → Safe p E g Q v' (held p S)) :
    Safe p E (do Fs.modifyInode k fun ip => { ip with d := f ip.d }; Fs.iupdate k; g) Q v
      (held p S) := by
  rw [← bind_assoc]
  exact bind (iupdate_fields h hlog hf hn fun v' he _ => hq v' he)

/-- `ip->nlink += m; iupdate(ip);` -/
theorem Safe.addLink {Q : Post Unit} {m : Int16} (hlog : Budget E 1 v)
    (hq : ∀ v', Edit {IBLOCK i Mkfs.sb} v k i { n with nlink := n.nlink + m } v' →
      v'.disk = writeInode v.disk i
        { inodeAt v.disk i with nlink := (inodeAt v.disk i).nlink + m } →
      Q () v' (held p S)) :
    Safe p E (Fs.addLink k m) Q v (held p S) := by
  refine iupdate_fields (f := fun di => { di with nlink := di.nlink + m }) h hlog
    (fun di => ⟨rfl,rfl,rfl⟩) (fun di d hd => ?_) hq
  rw [← hd]
  rfl

end AddLink
end Fs
end Xv6
