import Xv6.Fs.Core

/-! # What `iget`, `idup`, `ilock` and `iput` do -/
namespace Xv6
open Conc Function
open Mkfs (NINODES)
open List

section Slot
variable {v : View} {k j i : ℕ} {ip : Inode}

def View.setSlot (v : View) (k : ℕ) (ip : Inode) : View := { v with inode := update v.inode k ip }

@[simp] theorem setSlot_self : (v.setSlot k ip).inode k = ip := update_self ..

theorem setSlot_ne (h : j ≠ k) : (v.setSlot k ip).inode j = v.inode j := update_of_ne h ..

theorem holds_setSlot_ne (h : j ≠ k) : Holds (v.setSlot k ip) j i ↔ Holds v j i := by
  constructor
  · rintro ⟨h1,h2,h3⟩
    rw [setSlot_ne h] at h2 h3
    exact ⟨h1,h2,h3⟩
  · rintro ⟨h1,h2,h3⟩
    exact ⟨h1,by rwa [setSlot_ne h],by rwa [setSlot_ne h]⟩

theorem holds_setSlot (hk : k < NINODE) :
    Holds (v.setSlot k ip) k i ↔ 0 < ip.ref ∧ ip.inum = i := by
  constructor
  · rintro ⟨-,h2,h3⟩
    rw [setSlot_self] at h2 h3
    exact ⟨h2,h3⟩
  · rintro ⟨h2,h3⟩
    exact ⟨hk,by rwa [setSlot_self],by rwa [setSlot_self]⟩

def View.unref (v : View) (k : ℕ) : View :=
  v.setSlot k { v.inode k with ref := (v.inode k).ref + -1 }

theorem Core.setSlot (hc : Core v) (hk : k < NINODE) (href : 0 ≤ ip.ref)
    (hi : 0 < ip.ref → ip.inum < NINODES)
    (huniq : 0 < ip.ref → ∀ j, j ≠ k → ¬ Holds v j ip.inum)
    (hcopy : 0 < ip.ref → ip.valid = true →
      ip.d = inodeAt v.disk ip.inum ∧ (inodeAt v.disk ip.inum).type ≠ 0) :
    Core (v.setSlot k ip) where
  ready := ⟨hc.ready.sb,hc.ready.block,hc.ready.log⟩
  sound := hc.sound
  ref := by
    intro j hj
    by_cases hjk : j = k
    · subst hjk
      rwa [setSlot_self]
    · rw [setSlot_ne hjk]
      exact hc.ref j hj
  inum := by
    intro j i hj
    by_cases hjk : j = k
    · subst hjk
      obtain ⟨h1,rfl⟩ := (holds_setSlot hk).mp hj
      exact hi h1
    · exact hc.inum j i ((holds_setSlot_ne hjk).mp hj)
  uniq := by
    intro a b i ha hb
    by_cases hak : a = k
    · by_cases hbk : b = k
      · rw [hak,hbk]
      · subst hak
        obtain ⟨h1,rfl⟩ := (holds_setSlot hk).mp ha
        exact absurd ((holds_setSlot_ne hbk).mp hb) (huniq h1 b hbk)
    · by_cases hbk : b = k
      · subst hbk
        obtain ⟨h1,rfl⟩ := (holds_setSlot hk).mp hb
        exact absurd ((holds_setSlot_ne hak).mp ha) (huniq h1 a hak)
      · exact hc.uniq a b i ((holds_setSlot_ne hak).mp ha) ((holds_setSlot_ne hbk).mp hb)
  copy := by
    intro j i hj hv
    by_cases hjk : j = k
    · subst hjk
      obtain ⟨h1,rfl⟩ := (holds_setSlot hk).mp hj
      rw [setSlot_self] at hv ⊢
      exact hcopy h1 hv
    · rw [setSlot_ne hjk] at hv ⊢
      exact hc.copy j i ((holds_setSlot_ne hjk).mp hj) hv

theorem refs_setSlot (hk : k < NINODE) (a : ℕ) : refs (v.setSlot k ip) a
    = refs v a - (if (v.inode k).inum = a then (v.inode k).ref else 0)
      + (if ip.inum = a then ip.ref else 0) :=
  refs_update hk rfl a

/-- A slot is overwritten that keeps its inode, with `n` references more. -/
theorem Walk.setSlot (ip : Inode) (hc : Core v) (hk : Holds v k i) {n : ℤ} (hn : 0 ≤ n) (hi : ip.inum = i)
    (href : ip.ref = (v.inode k).ref + n)
    (hcopy : ip.valid = true → ip.d = inodeAt v.disk i ∧ (inodeAt v.disk i).type ≠ 0)
    (hvalid : (v.inode k).valid = true → ip.valid = true) :
    Walk v (v.setSlot k ip) (fun a => if a = i then n else 0) := by
  have hpos := hk.ref
  have hcore : Core (v.setSlot k ip) := by
    refine hc.setSlot hk.slot (by omega) (fun _ => hi ▸ hc.inum k i hk) ?_ ?_
    · intro _ j hj hh
      rw [hi] at hh
      exact hj (hc.uniq j k i hh hk)
    · intro _ hv
      rw [hi]
      exact hcopy hv
  refine Walk.of_inode hc hcore ?_ ?_ ?_
  · intro j a hj
    by_cases hjk : j = k
    · subst hjk
      exact (holds_setSlot hk.slot).mpr ⟨by omega,by rw [hi,← hk.inum,hj.inum]⟩
    · exact (holds_setSlot_ne hjk).mpr hj
  · intro j a hj hv
    by_cases hjk : j = k
    · subst hjk
      rw [update_self]
      exact hvalid hv
    · rw [update_of_ne hjk]
      exact hv
  · intro a
    change Xv6.refs (v.setSlot k ip) a = _
    rw [refs_setSlot hk.slot,hi,hk.inum]
    by_cases ha : i = a
    · rw [if_pos ha,if_pos ha,if_pos ha.symm]
      omega
    · rw [if_neg ha,if_neg ha,if_neg (Ne.symm ha)]
      omega

end Slot

section Free
variable {d d' : Disk} {i : ℕ}

/-- The disk after `itrunc` of inode `i`. -/
structure Truncated (d : Disk) (i : ℕ) (d' : Disk) : Prop where
  owned : Owned (update (inodeAt d) i (inodeAt d i).truncated) d'
  inode : inodeAt d' = update (inodeAt d) i (inodeAt d i).truncated
  block : ∀ c, c ≠ 58 → c ≠ IBLOCK i Mkfs.sb → d' c = d c

section
variable (h : Truncated d i d')
include h

theorem Truncated.blk (hs : Sound (inodeAt d) d) (hi : i < NINODES)
    {j : ℕ} (hj : j < NINODES) (ht : (inodeAt d j).type ≠ 0) (m : ℕ) :
    (inodeAt d j).blk d' m = (inodeAt d j).blk d m := by
  have hlt := IBLOCK_lt hi
  refine ptr_congr fun ha => ?_
  have := hs.owned.ptr_area hj ht (k := NDIRECT)
    (by rw [ptr_direct le_rfl]; exact toNat_ne_zero ha)
  rw [ptr_direct le_rfl] at this
  exact h.block _ (by omega) (by omega)

theorem Truncated.byteAt (hs : Sound (inodeAt d) d) (hi : i < NINODES)
    {j : ℕ} (ht : (inodeAt d j).type ≠ 0) (x : ℕ) :
    (inodeAt d j).byteAt d' x = (inodeAt d j).byteAt d x := by
  have hj := lt_NINODES_of_type ht
  have hlt := IBLOCK_lt hi
  unfold Dinode.byteAt
  rw [h.blk hs hi hj ht]
  by_cases h0 : (inodeAt d j).blk d (x / BSIZE) = 0
  · rw [if_pos h0,if_pos h0]
  · have := blk_area hs.owned hj ht h0
    rw [if_neg h0,if_neg h0,h.block _ (by omega) (by omega)]

theorem Truncated.sound (hs : Sound (inodeAt d) d) (hi : i < NINODES) :
    Sound (inodeAt d') d' := by
  refine ⟨by rw [h.inode]; exact h.owned,fun j hj ht n hn => ?_⟩
  rw [h.inode] at ht hn ⊢
  by_cases hji : j = i
  · subst hji
    rw [update_self] at hn
    exact absurd hn (Nat.not_lt_zero _)
  · rw [update_of_ne hji] at ht hn ⊢
    rw [h.blk hs hi hj ht]
    exact hs.mapped j hj ht n hn

theorem Truncated.files (hs : Sound (inodeAt d) d) (hi : i < NINODES)
    {j : ℕ} (hj : j ≠ i) : files d' j = files d j := by
  refine files_congr ?_ fun ht x => h.byteAt hs hi ht x
  rw [h.inode,update_of_ne hj]

end

theorem stored_freed {di : Dinode} (hdi : inodeAt d i = di.truncated) (a : ℕ) :
    stored (update (inodeAt d) i { di.truncated with type := 0 }) d (i,a)
      = stored (inodeAt d) d (i,a) := by
  unfold stored
  simp only [update_self,hdi,ptr_truncated,ite_self]
  simp

end Free

namespace Fs
section Icache
variable {p : ℕ} {E : Stops} {v : View} {o : Owners} {S : Finset ℕ}
  {k i : ℕ}

def CacheFull (v : View) (i : ℕ) : Prop :=
  (∀ k, k < NINODE → (v.inode k).ref ≠ 0) ∧ ∀ k, ¬ Holds v k i

/-- What `iget` of inode `i` does: the slot `k` gets the contents `ip`. -/
structure Got (v : View) (i k : ℕ) (ip : Inode) : Prop where
  slot : k < NINODE
  was : (Holds v k i ∧ ip = { v.inode k with ref := (v.inode k).ref + 1 }) ∨
    ((∀ a, ¬ Holds v k a) ∧ (v.inode k).ref = 0 ∧ (∀ j, ¬ Holds v j i) ∧
      ip = ⟨i,1,false,(v.inode k).d⟩)

theorem Got.holds {ip : Inode} (h : Got v i k ip) : Holds (v.setSlot k ip) k i := by
  rw [holds_setSlot h.slot]
  rcases h.was with ⟨hk,rfl⟩ | ⟨-,-,-,rfl⟩
  · have := hk.ref
    exact ⟨by dsimp only; omega,hk.inum⟩
  · exact ⟨Int.one_pos,rfl⟩

/-- A slot that was in use is in use for the same inode, and its copy is as it was. -/
theorem Got.keep {ip : Inode} {j a : ℕ} (h : Got v i k ip) (hj : Holds v j a) :
    Holds (v.setSlot k ip) j a ∧ ((v.setSlot k ip).inode j).valid = (v.inode j).valid ∧
      ((v.setSlot k ip).inode j).d = (v.inode j).d := by
  by_cases hjk : j = k
  · subst hjk
    rcases h.was with ⟨hk,rfl⟩ | ⟨hno,-⟩
    · obtain rfl : a = i := by rw [← hj.inum,hk.inum]
      refine ⟨h.holds,?_⟩
      rw [setSlot_self]
      exact ⟨rfl,rfl⟩
    · exact absurd hj (hno a)
  · rw [setSlot_ne hjk]
    exact ⟨(holds_setSlot_ne hjk).mpr hj,rfl,rfl⟩

theorem Got.fresh {ip : Inode} (h : Got v i k ip) :
    Holds v k i ∨ ((v.setSlot k ip).inode k).valid = false := by
  rw [setSlot_self]
  rcases h.was with ⟨hk,-⟩ | ⟨-,-,-,rfl⟩
  · exact .inl hk
  · exact .inr rfl

theorem Got.walk {ip : Inode} (h : Got v i k ip) (hc : Core v) (hi : i < NINODES) :
    Walk v (v.setSlot k ip) (one i) := by
  rcases h.was with ⟨hk,rfl⟩ | ⟨-,h0,hno,rfl⟩
  · exact Walk.setSlot _ hc hk (n := 1) (by omega) hk.inum rfl (hc.copy k i hk) id
  · have hcore : Core (v.setSlot k ⟨i,1,false,(v.inode k).d⟩) :=
      hc.setSlot h.slot Int.one_nonneg (fun _ => hi) (fun _ j _ => hno j) fun _ hv => nomatch hv
    refine Walk.of_inode hc hcore (fun j a hj => (h.keep hj).1) (fun j a hj hv => ?_) fun a => ?_
    · exact (h.keep hj).2.1.trans hv
    · change refs (v.setSlot k _) a = _
      rw [refs_setSlot h.slot,h0,ite_self,one]
      dsimp only
      by_cases ha : i = a
      · rw [if_pos ha,if_pos ha.symm]
        omega
      · rw [if_neg ha,if_neg (Ne.symm ha)]
        omega

/-- Slot `k` has the last reference of an inode without links, which `iput` frees. -/
def Last (v : View) (k : ℕ) : Prop :=
  (v.inode k).valid = true ∧ (v.inode k).d.nlink = 0 ∧ (v.inode k).ref = 1

/-- The inode that `iget` returns is not freed when it is given back at once. -/
theorem Got.not_last {ip : Inode} (h : Got v i k ip) : ¬ Last (v.setSlot k ip) k := by
  rw [Last,setSlot_self]
  rintro ⟨h1,-,h2⟩
  rcases h.was with ⟨hk,rfl⟩ | ⟨-,-,-,rfl⟩
  · have := hk.ref
    dsimp only at h2
    omega
  · cases h1

/-- `iget` returns the slot of the inode, or a free slot whose contents are not valid. -/
theorem Safe.iget_got {Q : Post ℕ}
    (hfull : CacheFull v i → E (.fail .igetNoInodes))
    (h : ∀ k ip, Got v i k ip → Q k (v.setSlot k ip) o) : Safe p E (Fs.iget i) Q v o := by
  refine bind (icacheSection ?_)
  unfold Icache.iget
  cases hf : (List.range NINODE).find?
      fun k => decide ((v.inode k).ref > 0 ∧ (v.inode k).inum = i) with
  | some k =>
    have hk : Holds v k i := by
      have h1 := mem_range.mp (mem_of_find?_eq_some hf)
      have h2 := List.find?_some hf
      simp only [decide_eq_true_eq] at h2
      exact ⟨h1,h2.1,h2.2⟩
    exact pure (h k _ ⟨hk.slot,.inl ⟨hk,rfl⟩⟩)
  | none =>
    have hno : ∀ k, ¬ Holds v k i := by
      intro k hk
      have := List.find?_eq_none.mp hf k (mem_range.mpr hk.slot)
      simp only [decide_eq_true_eq] at this
      exact this ⟨hk.ref,hk.inum⟩
    cases hg : (List.range NINODE).find? fun k => decide ((v.inode k).ref = 0) with
    | none =>
      refine panic (hfull ⟨fun k hk => ?_,hno⟩)
      have := List.find?_eq_none.mp hg k (mem_range.mpr hk)
      simpa using this
    | some k =>
      have hk := mem_range.mp (mem_of_find?_eq_some hg)
      have h0 : (v.inode k).ref = 0 := by simpa using List.find?_some hg
      have hnot : ∀ a, ¬ Holds v k a := fun a ha => by
        have := ha.ref
        omega
      exact pure (h k _ ⟨hk,.inr ⟨hnot,h0,hno,rfl⟩⟩)

theorem Safe.iget {Q : Post ℕ} (hc : Core v) (hi : i < NINODES)
    (hfull : CacheFull v i → E (.fail .igetNoInodes))
    (h : ∀ k v', Walk v v' (one i) → Holds v' k i → v' = { v with inode := v'.inode } →
      (Holds v k i ∨ (v'.inode k).valid = false) → Q k v' o) :
    Safe p E (Fs.iget i) Q v o :=
  iget_got hfull fun k _ hg => h k _ (hg.walk hc hi) hg.holds rfl hg.fresh

theorem Safe.idup {Q : Post ℕ} (hc : Core v) (hk : Holds v k i)
    (h : ∀ v', Walk v v' (one i) → v' = { v with inode := v'.inode } → Q k v' o) :
    Safe p E (Fs.idup k) Q v o := by
  refine icacheSection ?_
  have hw := Walk.setSlot { v.inode k with ref := (v.inode k).ref + 1 } hc hk
    (n := 1) (by omega) hk.inum rfl (hc.copy k i hk) id
  exact h _ hw rfl

/-- Slot `k` holds inode `i`, whose contents `n` have been read. -/
structure Loaded (v : View) (k i : ℕ) (n : Node) : Prop where
  holds : Holds v k i
  valid : (v.inode k).valid = true
  node : files v.disk i = some n

theorem Loaded.copy {n : Node} (h : Loaded v k i n) (hc : Core v) :
    (v.inode k).d = inodeAt v.disk i ∧ n = nodeOf (inodeAt v.disk i) v.disk := by
  obtain ⟨hcopy,ht⟩ := hc.copy k i h.holds h.valid
  have hn := h.node
  rw [files_of_type ht] at hn
  exact ⟨hcopy,(Option.some.inj hn).symm⟩

theorem Loaded.walk {v' : View} {δ : ℕ → ℤ} {n : Node} (hl : Loaded v k i n)
    (h : Walk v v' δ) (hd : v'.disk = v.disk) : Loaded v' k i n :=
  ⟨h.keep k i hl.holds,h.valid k i hl.holds hl.valid,hd ▸ hl.node⟩

theorem Safe.ilock_core {Q : Post Unit} (hc : Core v)
    (hk : Holds v k i) (hS : k ∉ S)
    (hfree : (inodeAt v.disk i).type = 0 → E (.fail .ilockNoType))
    (h : ∀ v' n, Walk v v' 0 → v' = { v with inode := v'.inode } → Loaded v' k i n →
      Q () v' (held p (insert k S))) :
    Safe p E (Fs.ilock k) Q v (held p S) := by
  have hi := hc.inum k i hk
  refine ilock hc.ready (by rw [hk.inum]; exact hi) hk.ref (held_notMem hS) (fun _ _ => rfl)
    (fun _ ht => hfree (by rwa [hk.inum] at ht)) (fun hv => ?_) fun hv ht => ?_
  · rw [held_insert]
    obtain ⟨-,ht⟩ := hc.copy k i hk hv
    exact h v _ (Walk.refl hc) rfl ⟨hk,hv,files_of_type ht⟩
  · rw [held_insert]
    rw [hk.inum] at ht
    have hw := Walk.setSlot ((v.inode k).loaded (inodeAt v.disk i)) (n := 0) hc hk le_rfl
      hk.inum (by rw [add_zero]; rfl) (fun _ => ⟨rfl,ht⟩) fun _ => rfl
    have hz : (fun a => if a = i then (0 : ℤ) else 0) = 0 := by
      funext a
      simp
    rw [hz] at hw
    have hload : v.load k = v.setSlot k ((v.inode k).loaded (inodeAt v.disk i)) := by
      unfold View.load
      rw [hk.inum]
      rfl
    rw [hload]
    refine h _ _ hw rfl ⟨hw.keep k i hk,?_,files_of_type ht⟩
    rw [setSlot_self]
    rfl

theorem unref_valid (v : View) (j k : ℕ) :
    ((v.unref k).inode j).valid = (v.inode j).valid := by
  by_cases hjk : j = k
  · subst hjk
    rw [View.unref,setSlot_self]
  · rw [View.unref,setSlot_ne hjk]

/-- The state when `iput` has freed inode `i` in slot `k`. -/
structure Freed (A : Finset ℕ) (v : View) (k i : ℕ) (v' : View) : Prop where
  frame : Frame A v v'
  inode : ∃ d, v'.inode = update v.inode k ⟨i,(v.inode k).ref,false,d⟩
  superblock : v'.disk 1 = v.disk 1
  other : ∀ j, j ≠ i → inodeAt v'.disk j = inodeAt v.disk j
  sound : Sound (inodeAt v'.disk) v'.disk
  files : files v'.disk = update (files v.disk) i none

theorem Safe.ifree {Q : Post Unit} {A : Finset ℕ} (hc : Core v)
    (hk : Holds v k i) (hv : (v.inode k).valid = true) (hroom : Room E A 0 v) (h58 : 58 ∈ A)
    (hA : IBLOCK i Mkfs.sb ∈ A) (ho : ∀ b, o (.buf b) = none)
    (h : ∀ v', Freed A v k i v' → Q () v' o) : Safe p E (Fs.ifree k) Q v o := by
  have hi := hc.inum k i hk
  obtain ⟨hcopy,ht⟩ := hc.copy k i hk hv
  have hlt := IBLOCK_lt hi
  have hge : 32 ≤ IBLOCK i Mkfs.sb := by rw [IBLOCK_eq]; omega
  refine bind (itrunc hroom h58 hA hc.ready hc.sound.owned hi hk.inum hcopy.symm ht ho
    fun v1 hf1 hin1 hown1 hino1 hd1 => ?_)
  have htr : Truncated v.disk i v1.disk := ⟨hown1,hino1,hd1⟩
  have hself1 : inodeAt v1.disk i = (inodeAt v.disk i).truncated := by
    rw [hino1,update_self]
  refine bind (modifyInode ?_)
  have hslot : update v1.inode k ((v1.inode k).withD { (v1.inode k).d with type := 0 })
      = update v.inode k ((v.inode k).withD { (inodeAt v.disk i).truncated with type := 0 }) := by
    rw [hin1,update_self,update_idem]
    rfl
  change Safe p E _ Q { v1 with
    inode := update v1.inode k ((v1.inode k).withD { (v1.inode k).d with type := 0 }) } o
  rw [hslot]
  have hnew : update v.inode k ((v.inode k).withD { (inodeAt v.disk i).truncated with type := 0 }) k
      = (v.inode k).withD { (inodeAt v.disk i).truncated with type := 0 } := update_self ..
  have hr1 : Ready v1 := hf1.ready hc.ready (hd1 1 (by omega) (by omega))
  have hf2 := hf1.trans (Frame.inode hf1.log
    (update v.inode k ((v.inode k).withD { (inodeAt v.disk i).truncated with type := 0 })))
  refine bind (iupdate (hroom.cut hf2) ?_ ⟨hr1.sb,hr1.block,hr1.log⟩ ?_
    (fun b _ => ho b) fun v2 hf3 hd3 hin3 => ?_)
  · change IBLOCK (update v.inode k _ k).inum Mkfs.sb ∈ A
    rw [hnew,Inode.withD_inum,hk.inum]
    exact hA
  · change (update v.inode k _ k).inum < _
    rw [hnew,Inode.withD_inum,hk.inum]
    exact hi
  change v2.disk = writeInode v1.disk (update v.inode k _ k).inum (update v.inode k _ k).d at hd3
  rw [hnew,Inode.withD_inum,hk.inum,Inode.withD_d] at hd3
  change v2.inode = update v.inode k _ at hin3
  refine modifyInode (h _ ?_)
  have hf := hf2.trans hf3
  have hst := stored_freed hself1
  refine ⟨hf.trans (Frame.inode hf.log _),⟨{ (inodeAt v.disk i).truncated with type := 0 },?_⟩,
    ?_,fun j hj => ?_,?_,?_⟩
  · rw [hin3,update_self,update_idem,Inode.withD,← hk.inum]
  · rw [hd3,writeInode_ne (by omega),hd1 1 (by omega) (by omega)]
  · rw [hd3,inodeAt_writeInode hi,update_of_ne hj,hino1,update_of_ne hj]
  · rw [hd3]
    exact (htr.sound hc.sound hi).writeInode hi hst fun hc => absurd rfl hc
  · rw [hd3,files_writeInode (htr.sound hc.sound hi).owned hi hst,if_pos rfl]
    funext j
    by_cases hj : j = i
    · subst hj
      rw [update_self,update_self]
    · rw [update_of_ne hj,update_of_ne hj,htr.files hc.sound hi hj]

/-- The end of `iput`, after the inode has been freed or not. -/
theorem Safe.iput_end {Q : Post Unit} (hS : k ∉ S)
    (hq : Q () (v.unref k) (held p S)) : Safe p E (do
      Fs.releasesleep (.inode k)
      Fs.icacheSection fun t => ((),Icache.addRef k (-1) t)) Q v (held p (insert k S)) := by
  refine bind (releasesleep ?_)
  rw [held_erase,Finset.erase_insert hS]
  exact icacheSection hq

/-- `iput` gives back a reference, and the inode stays. -/
theorem Safe.iput_drop {Q : Post Unit} (hS : k ∉ S)
    (hn : ¬ Last v k) (hq : Q () (v.unref k) (held p S)) : Safe p E (Fs.iput k) Q v (held p S) := by
  refine bind (acquiresleep (held_notMem hS) ?_)
  rw [held_insert]
  refine inode_seq (bind (whenever (fun h1 => ?_) fun _ => iput_end hS hq))
  simp only [Bool.and_eq_true,beq_iff_eq] at h1
  refine inode_seq (whenever (fun h2 => ?_) fun _ => iput_end hS hq)
  exact absurd ⟨h1.1,h1.2,by simpa using h2⟩ hn

/-- `iput` frees the inode if it has no links and this was the last reference. -/
theorem Safe.iput {Q : Post Unit} {A : Finset ℕ} (hc : Core v)
    (hk : Holds v k i) (hS : k ∉ S)
    (hroom : Last v k → Room E A 0 v ∧ 58 ∈ A ∧ IBLOCK i Mkfs.sb ∈ A)
    (hput : ¬ Last v k → Q () (v.unref k) (held p S))
    (hfree : Last v k → ∀ v', Freed A v k i v' → Q () (v'.unref k) (held p S)) :
    Safe p E (Fs.iput k) Q v (held p S) := by
  by_cases hlast : Last v k
  · have ⟨h1,h2,h3⟩ := hlast
    obtain ⟨hr,h58,hA⟩ := hroom hlast
    refine bind (acquiresleep (held_notMem hS) ?_)
    rw [held_insert]
    refine inode_seq (bind (whenever (fun _ => ?_) fun hc => ?_))
    · refine inode_seq (whenever (fun _ => ?_) fun hc => ?_)
      · exact ifree hc hk h1 hr h58 hA (fun _ => rfl)
          fun v' hv' => iput_end hS (hfree hlast v' hv')
      · simp [h3] at hc
    · simp [h1,h2] at hc
  · exact iput_drop hS hlast (hput hlast)

end Icache

end Fs

section Put
variable {v₀ v v' : View} {A : Finset ℕ} {δ : ℕ → ℤ} {k i j a : ℕ}

theorem refs_unref (hk : Holds v k i) : refs (v.unref k) a = refs v a - one i a := by
  unfold View.unref
  rw [refs_setSlot hk.slot,hk.inum,one]
  by_cases ha : i = a
  · rw [if_pos ha,if_pos ha,if_pos ha.symm]
    ring
  · rw [if_neg ha,if_neg ha,if_neg (Ne.symm ha)]
    ring

theorem holds_unref (hk : Holds v k i) (hj : Holds v j a) (hr : a = i → 1 < (v.inode k).ref) :
    Holds (v.unref k) j a := by
  by_cases hjk : j = k
  · subst hjk
    obtain rfl : a = i := by rw [← hj.inum,hk.inum]
    have := hr rfl
    exact (holds_setSlot hk.slot).mpr ⟨by dsimp only; omega,hk.inum⟩
  · exact (holds_setSlot_ne hjk).mpr hj

theorem Core.unref (hc : Core v) (hk : Holds v k i) : Core (v.unref k) := by
  have hpos := hk.ref
  refine hc.setSlot hk.slot (by dsimp only; omega) (fun _ => ?_) (fun _ j hj hh => ?_) fun _ hv => ?_
  · rw [hk.inum]
    exact hc.inum k i hk
  · rw [hk.inum] at hh
    exact hj (hc.uniq j k i hh hk)
  · rw [hk.inum]
    exact hc.copy k i hk hv

/-- With the reference given back the state is one from which it can be taken. -/
theorem Walk.unref (hc : Core v) (hk : Holds v k i) : Walk (v.unref k) v (one i) := by
  have hlive : ∀ j a, Holds (v.unref k) j a → Holds v j a := by
    intro j a hj
    by_cases hjk : j = k
    · subst hjk
      obtain ⟨-,ha⟩ := (holds_setSlot hk.slot).mp hj
      exact ⟨hk.slot,hk.ref,ha⟩
    · exact (holds_setSlot_ne hjk).mp hj
  refine Walk.of_inode (v := v.unref k) (t := v.inode) (hc.unref hk) hc hlive ?_ ?_
  · intro j a hj hv
    rwa [Fs.unref_valid] at hv
  · intro a
    rw [refs_unref hk]
    change Xv6.refs v a = _
    ring

/-- A reference is given back that was taken in this part of the run. -/
theorem Walk.put (h : Walk v₀ v (δ + one i)) (hc0 : Core v₀) (hδ : ∀ i, 0 ≤ δ i)
    (hk : Holds v k i) : Walk v₀ (v.unref k) δ := by
  have href := h.core.refs_eq hk
  have hkeep : ∀ j a, Holds v₀ j a → a = i → 1 < (v.inode k).ref := by
    rintro j a hj rfl
    have h1 := h.refs a
    have h2 := hδ a
    have h3 := hc0.refs_pos.mpr ⟨j,hj⟩
    rw [Pi.add_apply,one,if_pos rfl] at h1
    omega
  refine ⟨h.core.unref hk,?_,?_,?_,?_,h.files,?_⟩
  · exact h.frame.trans (Frame.inode h.frame.log _)
  · intro j a hj
    exact holds_unref hk (h.keep j a hj) (hkeep j a hj)
  · intro j a hj hv
    rw [Fs.unref_valid]
    exact h.valid j a hj hv
  · intro a
    rw [refs_unref hk,h.refs,Pi.add_apply]
    ring
  · intro hq
    have := h.quiet hq
    unfold View.unref View.setSlot
    rw [this]

/-- Where the inodes without links were in use, the inode has another reference. -/
theorem Walk.not_last (h : Walk v₀ v (δ + one i)) (hδ : ∀ i, 0 ≤ δ i) (hk : Holds v k i)
    (hq : Quiet v₀) : ¬ Fs.Last v k := by
  rintro ⟨hv,h0,h1⟩
  have hd : v.disk = v₀.disk := by rw [h.quiet hq]
  obtain ⟨hcopy,ht⟩ := h.core.copy k i hk hv
  have hn : Xv6.files v₀.disk i = some (nodeOf (inodeAt v.disk i) v.disk) := hd ▸ files_of_type ht
  have h2 := hq i _ hn (by rw [← hcopy]; exact h0)
  have h3 := h.refs i
  have h4 := hδ i
  rw [Pi.add_apply,one,if_pos rfl,h.core.refs_eq hk] at h3
  omega

theorem Walk.free (h : Walk v₀ v (δ + one i)) (hc0 : Core v₀) (hδ : ∀ i, 0 ≤ δ i)
    (hk : Holds v k i) (hl : Fs.Last v k) (hA : A ⊆ metaBlocks) (hf : Fs.Freed A v k i v') :
    Walk v₀ (v'.unref k) δ := by
  have ⟨hv,h0,h1⟩ := hl
  obtain ⟨d,hin⟩ := hf.inode
  obtain ⟨hcopy,ht⟩ := h.core.copy k i hk hv
  have href := h.core.refs_eq hk
  have hself : v'.inode k = ⟨i,1,false,d⟩ := by rw [hin,update_self,h1]
  have hne : ∀ j, j ≠ k → v'.inode j = v.inode j := fun j hj => by
    rw [hin,update_of_ne hj]
  have hsum : Xv6.refs v₀ i = 0 ∧ δ i = 0 := by
    have h2 := h.refs i
    have h3 := hδ i
    have h4 := hc0.refs_nonneg i
    rw [Pi.add_apply,one,if_pos rfl] at h2
    omega
  have hno : ∀ j, ¬ Holds v₀ j i := by
    intro j hj
    have := hc0.refs_pos.mpr ⟨j,hj⟩
    omega
  -- the slots that are still in use
  have hlive : ∀ j a, Holds (v'.unref k) j a ↔ Holds v j a ∧ a ≠ i := by
    intro j a
    by_cases hjk : j = k
    · subst hjk
      have : ¬ Holds (v'.unref j) j a := by
        intro hh
        have := hh.ref
        rw [View.unref,setSlot_self,hself] at this
        exact absurd this (Int.lt_irrefl 0)
      refine iff_of_false this fun hh => hh.2 ?_
      rw [← hh.1.inum,hk.inum]
    · unfold View.unref
      rw [holds_setSlot_ne hjk]
      constructor
      · intro hh
        have hh' : Holds v j a := ⟨hh.slot,by rw [← hne j hjk]; exact hh.ref,
          by rw [← hne j hjk]; exact hh.inum⟩
        refine ⟨hh',?_⟩
        rintro rfl
        exact hjk (h.core.uniq j k a hh' hk)
      · rintro ⟨hh,-⟩
        exact ⟨hh.slot,by rw [hne j hjk]; exact hh.ref,by rw [hne j hjk]; exact hh.inum⟩
  have hslot : ∀ j a, Holds v j a → a ≠ i → (v'.unref k).inode j = v.inode j := by
    intro j a hj ha
    have hjk : j ≠ k := by
      rintro rfl
      exact ha (by rw [← hj.inum,hk.inum])
    rw [View.unref,setSlot_ne hjk,hne j hjk]
  have hframe : Frame metaBlocks v (v'.unref k) :=
    (hf.frame.mono hA).trans (Frame.inode hf.frame.log _)
  have hcore : Core (v'.unref k) := by
    refine ⟨hframe.ready h.core.ready hf.superblock,hf.sound,?_,?_,?_,?_⟩
    · intro j hj
      by_cases hjk : j = k
      · subst hjk
        rw [View.unref,setSlot_self,hself]
        exact le_refl (0 : ℤ)
      · rw [View.unref,setSlot_ne hjk,hne j hjk]
        exact h.core.ref j hj
    · intro j a hj
      exact h.core.inum j a ((hlive j a).mp hj).1
    · intro j j' a hj hj'
      exact h.core.uniq j j' a ((hlive j a).mp hj).1 ((hlive j' a).mp hj').1
    · intro j a hj hva
      obtain ⟨hj',ha⟩ := (hlive j a).mp hj
      rw [hslot j a hj' ha] at hva ⊢
      change _ = inodeAt v'.disk a ∧ (inodeAt v'.disk a).type ≠ 0
      rw [hf.other a ha]
      exact h.core.copy j a hj' hva
  refine ⟨hcore,h.frame.trans hframe,?_,?_,?_,?_,?_⟩
  · intro j a hj
    refine (hlive j a).mpr ⟨h.keep j a hj,?_⟩
    rintro rfl
    exact hno j hj
  · intro j a hj hva
    have ha : a ≠ i := by
      rintro rfl
      exact hno j hj
    rw [hslot j a (h.keep j a hj) ha]
    exact h.valid j a hj hva
  · intro a
    have hu : Xv6.refs (v'.unref k) a = Xv6.refs v' a - one i a :=
      refs_unref ⟨hk.slot,by rw [hself]; exact Int.one_pos,by rw [hself]⟩
    have hv' : Xv6.refs v' a = Xv6.refs v a := by
      rw [refs_update hk.slot hin,hk.inum,h1]
      ring
    rw [hu,hv',h.refs,Pi.add_apply]
    ring
  · intro a
    change Xv6.files v'.disk a = _ ∨ Xv6.files v'.disk a = none ∧ _
    rw [hf.files]
    by_cases ha : a = i
    · subst ha
      rw [update_self]
      have hn : Xv6.files v.disk a = some (nodeOf (inodeAt v.disk a) v.disk) := files_of_type ht
      rcases h.files a with h2 | ⟨h2,-⟩
      · exact .inr ⟨rfl,hsum.1,_,h2 ▸ hn,by rw [← hcopy]; exact h0⟩
      · rw [h2] at hn
        cases hn
    · rw [update_of_ne ha]
      exact h.files a
  · intro hq
    exact absurd hl (h.not_last hδ hk hq)

end Put

namespace Fs
section Walk
variable {p : ℕ} {E : Stops} {v₀ v : View} {S : Finset ℕ} {δ : ℕ → ℤ} {k i : ℕ}
  {Q : Post Unit}

/-- An inode without links is in use. -/
def Settled (v : View) (i : ℕ) : Prop := ∀ n, files v.disk i = some n → n.nlink = 0 → 0 < refs v i

/-- `iput` of a reference that was taken in this part of the run. -/
theorem Safe.iput_walk (h : Walk v₀ v (δ + one i)) (hc0 : Core v₀) (hδ : ∀ i, 0 ≤ δ i)
    (hk : Holds v k i) (hS : k ∉ S) (hlog : Quiet v₀ ∨ Budget E 2 v)
    (hq : ∀ v', Walk v₀ v' δ → Frame {58, IBLOCK i Mkfs.sb} v v' →
      ((v.inode k).valid = true → Settled v' i) → Q () v' (held p S)) :
    Safe p E (Fs.iput k) Q v (held p S) := by
  have href := h.core.refs_eq hk
  have hi := h.core.inum k i hk
  have hlt := IBLOCK_lt hi
  have hA : {58, IBLOCK i Mkfs.sb} ⊆ metaBlocks := by
    intro b hb
    rw [Finset.mem_insert,Finset.mem_singleton] at hb
    rw [metaBlocks,Finset.mem_Icc]
    rw [IBLOCK_eq] at hlt hb
    omega
  refine iput (A := {58, IBLOCK i Mkfs.sb}) h.core hk hS (fun hl => ?_) (fun hn => ?_)
    fun hl v' hf => ?_
  · rcases hlog with hlog | hlog
    · exact absurd hl (h.not_last hδ hk hlog)
    · exact ⟨hlog.room Finset.card_le_two (.inr (Nat.zero_le _)),by simp,by simp⟩
  · refine hq _ (h.put hc0 hδ hk) (Frame.inode h.frame.log _) fun hv m hm h0 => ?_
    obtain ⟨hcopy,ht⟩ := h.core.copy k i hk hv
    have hm' : files v.disk i = some m := hm
    rw [files_of_type ht] at hm'
    obtain rfl := Option.some.inj hm'
    have hne : (v.inode k).ref ≠ 1 := fun h1 => hn ⟨hv,by rw [hcopy]; exact h0,h1⟩
    have hpos := hk.ref
    rw [refs_unref hk,one,if_pos rfl]
    omega
  · refine hq _ (h.free hc0 hδ hk hl hA hf) (hf.frame.trans (Frame.inode hf.frame.log _))
      fun _ n hn => ?_
    have hn' : files v'.disk i = some n := hn
    rw [hf.files,update_self] at hn'
    cases hn'

theorem Safe.iunlockput_walk (h : Walk v₀ v (δ + one i)) (hc0 : Core v₀) (hδ : ∀ i, 0 ≤ δ i)
    (hk : Holds v k i) (hS : k ∈ S) (hlog : Quiet v₀ ∨ Budget E 2 v)
    (hq : ∀ v', Walk v₀ v' δ → Frame {58, IBLOCK i Mkfs.sb} v v' →
      ((v.inode k).valid = true → Settled v' i) → Q () v' (held p (S.erase k))) :
    Safe p E (Fs.iunlockput k) Q v (held p S) := by
  refine bind (iunlock (held_mem hS) hk.ref ?_)
  rw [held_erase]
  exact iput_walk h hc0 hδ hk (Finset.notMem_erase k S) hlog hq

theorem Safe.iunlock_last (href : 0 < (v.inode k).ref) (hq : Q () v (held p ∅)) :
    Safe p E (Fs.iunlock k) Q v (held p {k}) := by
  refine iunlock (held_mem (Finset.mem_singleton_self k)) href ?_
  rwa [held_erase,Finset.erase_singleton]

/-- With no other inode locked and no other reference taken. -/
theorem Safe.iunlockput_last (h : Walk v₀ v (one i)) (hc0 : Core v₀) (hk : Holds v k i)
    (hlog : Quiet v₀ ∨ Budget E 2 v)
    (hq : ∀ v', Walk v₀ v' 0 → Frame {58, IBLOCK i Mkfs.sb} v v' →
      ((v.inode k).valid = true → Settled v' i) → Q () v' (held p ∅)) :
    Safe p E (Fs.iunlockput k) Q v (held p {k}) := by
  rw [← zero_add (one i)] at h
  refine iunlockput_walk h hc0 (fun _ => le_rfl) hk (Finset.mem_singleton_self k) hlog ?_
  rwa [Finset.erase_singleton]

end Walk
end Fs
end Xv6
