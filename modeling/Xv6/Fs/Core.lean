import Xv6.Fs.Entries
import Xv6.Fs.RwSpec
import Mathlib.Algebra.Order.BigOperators.Group.Finset
import Mathlib.Tactic.Ring

/-! # The inode cache and the disk

A slot of the inode cache that is in use stands for one inode, no inode has two slots,
and a copy that is valid is what is on disk. -/
namespace Xv6
open Conc Function Finset

/-- The lock table when process `p` has locked the slots in `S` and nothing else is
locked. -/
def held (p : ℕ) (S : Finset ℕ) : Lock → Option ℕ
  | .inode k => if k ∈ S then some p else none
  | .buf _ => none

section Held
variable {p k : ℕ} {S : Finset ℕ}

@[simp] theorem held_buf (b : ℕ) : held p S (.buf b) = none := rfl

theorem held_mem (h : k ∈ S) : held p S (.inode k) = some p := if_pos h

theorem held_notMem (h : k ∉ S) : held p S (.inode k) = none := if_neg h

theorem held_empty : held p ∅ = fun _ => none := by
  funext l
  cases l <;> rfl

theorem held_insert : update (held p S) (.inode k) (some p) = held p (insert k S) := by
  funext l
  cases l with
  | inode j =>
    by_cases h : j = k
    · subst h
      rw [update_self,held_mem (mem_insert_self j S)]
    · rw [update_of_ne (by simpa using h)]
      simp [held,h]
  | buf b => rw [update_of_ne (by simp)]; rfl

theorem held_erase : update (held p S) (.inode k) none = held p (S.erase k) := by
  funext l
  cases l with
  | inode j =>
    by_cases h : j = k
    · subst h
      rw [update_self,held_notMem (notMem_erase j S)]
    · rw [update_of_ne (by simpa using h)]
      simp [held,h]
  | buf b => rw [update_of_ne (by simp)]; rfl

end Held

/-- There is room in the log for `m` more blocks, or `E` allows for a full log. -/
def Budget (E : Stop Lock Panic → Prop) (m : ℕ) (v : View) : Prop :=
  (∀ e, E (.fail (.log e))) ∨ 1 ≤ v.log.outstanding ∧ v.log.n + m + 1 < LOGSIZE

namespace Budget
variable {E : Stops} {A : Finset ℕ} {m n : ℕ} {v v' : View}

theorem mono (h : Budget E m v) (hnm : n ≤ m) : Budget E n v :=
  h.imp_right fun ⟨h1,h2⟩ => ⟨h1,by omega⟩

theorem room (h : Budget E m v) (hA : A.card + n ≤ m)
    (hn : E (.fail .ballocOutOfBlocks) ∨ n ≤ freeCount v.disk) : Room E A n v := by
  refine ⟨h.imp_right fun ⟨h1,h2⟩ => ⟨h1,?_⟩,hn⟩
  have := card_filter_le A (· ∉ v.log.block)
  unfold Log.load
  omega

/-- The blocks that are logged are taken from the room. -/
theorem frame (h : Budget E (m + n) v) (hf : Frame A v v') (hA : A.card ≤ n) : Budget E m v' := by
  refine h.imp_right fun ⟨h1,h2⟩ => ?_
  rw [hf.logs.outstanding]
  have hload := hf.logs.load subset_rfl
  have := card_filter_le A (· ∉ v.log.block)
  unfold Log.load at hload
  exact ⟨h1,by omega⟩

end Budget

structure Holds (v : View) (k i : ℕ) : Prop where
  slot : k < NINODE
  ref : 0 < (v.inode k).ref
  inum : (v.inode k).inum = i

def refs (v : View) (i : ℕ) : ℤ :=
  ∑ k ∈ Finset.range NINODE, if (v.inode k).inum = i then (v.inode k).ref else 0

structure Core (v : View) : Prop where
  ready : Ready v
  sound : Sound (inodeAt v.disk) v.disk
  ref : ∀ k, k < NINODE → 0 ≤ (v.inode k).ref
  inum : ∀ k i, Holds v k i → i < Mkfs.NINODES
  uniq : ∀ k k' i, Holds v k i → Holds v k' i → k = k'
  copy : ∀ k i, Holds v k i → (v.inode k).valid = true →
    (v.inode k).d = inodeAt v.disk i ∧ (inodeAt v.disk i).type ≠ 0

/-- Inodes without links are in use. -/
def Quiet (v : View) : Prop := ∀ i n, files v.disk i = some n → n.nlink = 0 → 0 < refs v i

/-- Inodes without links have been read into their slots, so that `iput` will free them. -/
def OrphansRead (v : View) : Prop := ∀ k i n, Holds v k i → files v.disk i = some n →
  n.nlink = 0 → (v.inode k).valid = true

section Refs
variable {v v' : View} {k i : ℕ}

theorem Core.refs_nonneg (h : Core v) (i : ℕ) : 0 ≤ refs v i := by
  refine sum_nonneg fun k hk => ?_
  split
  · exact h.ref k (mem_range.mp hk)
  · exact le_rfl

theorem Core.ref_eq_zero (h : Core v) (hk : k < NINODE) (hi : (v.inode k).inum = i)
    (hn : ¬ Holds v k i) : (v.inode k).ref = 0 := by
  by_contra h0
  exact hn ⟨hk,lt_of_le_of_ne (h.ref k hk) (Ne.symm h0),hi⟩

theorem Core.refs_eq (h : Core v) (hk : Holds v k i) : refs v i = (v.inode k).ref := by
  unfold refs
  rw [sum_eq_single_of_mem k (mem_range.mpr hk.slot),if_pos hk.inum]
  intro j hj hjk
  split
  · rename_i hi
    refine h.ref_eq_zero (mem_range.mp hj) hi fun hc => hjk (h.uniq j k i hc hk)
  · rfl

theorem Core.refs_pos (h : Core v) : 0 < refs v i ↔ ∃ k, Holds v k i := by
  constructor
  · intro hpos
    by_contra hn
    rw [not_exists] at hn
    have : refs v i = 0 := by
      refine sum_eq_zero fun k hk => ?_
      split
      · rename_i hi
        exact h.ref_eq_zero (mem_range.mp hk) hi (hn k)
      · rfl
    omega
  · rintro ⟨k,hk⟩
    rw [h.refs_eq hk]
    exact hk.ref

theorem refs_update {ip : Inode} (hk : k < NINODE) (hv : v'.inode = update v.inode k ip) (i : ℕ) :
    refs v' i = refs v i - (if (v.inode k).inum = i then (v.inode k).ref else 0)
      + (if ip.inum = i then ip.ref else 0) := by
  unfold refs
  have hmem := mem_range.mpr hk
  rw [← add_sum_erase _ _ hmem,← add_sum_erase (Finset.range NINODE)
    (fun j => if (v.inode j).inum = i then (v.inode j).ref else 0) hmem,hv,update_self]
  have hrest : ∑ j ∈ (Finset.range NINODE).erase k,
      (if (update v.inode k ip j).inum = i then (update v.inode k ip j).ref else 0)
      = ∑ j ∈ (Finset.range NINODE).erase k,
        if (v.inode j).inum = i then (v.inode j).ref else 0 := by
    refine sum_congr rfl fun j hj => ?_
    rw [update_of_ne (ne_of_mem_erase hj)]
  rw [hrest]
  ring

end Refs

def metaBlocks : Finset ℕ := Finset.Icc 32 58

def one (i : ℕ) : ℕ → ℤ := fun j => if j = i then 1 else 0

/-- A part of a run in which no slot that was in use is given up, and `δ` references more
are taken.  Inodes without links and references may be freed. -/
structure Walk (v v' : View) (δ : ℕ → ℤ) : Prop where
  core : Core v'
  frame : Frame metaBlocks v v'
  keep : ∀ k i, Holds v k i → Holds v' k i
  valid : ∀ k i, Holds v k i → (v.inode k).valid = true → (v'.inode k).valid = true
  refs : ∀ i, refs v' i = refs v i + δ i
  files : ∀ i, files v'.disk i = files v.disk i ∨
    (files v'.disk i = none ∧ Xv6.refs v i = 0 ∧ ∃ n, files v.disk i = some n ∧ n.nlink = 0)
  quiet : Quiet v → v' = { v with inode := v'.inode }

namespace Walk
variable {v v' v'' : View} {δ δ' : ℕ → ℤ}

theorem refl (h : Core v) : Walk v v 0 where
  core := h
  frame := Frame.refl h.ready.log
  keep := fun _ _ h => h
  valid := fun _ _ _ h => h
  refs := fun i => by simp
  files := fun _ => .inl rfl
  quiet := fun _ => rfl

theorem of_inode {t : ℕ → Inode} (h : Core v) (hc : Core { v with inode := t })
    (hk : ∀ k i, Holds v k i → Holds { v with inode := t } k i)
    (hv : ∀ k i, Holds v k i → (v.inode k).valid = true → (t k).valid = true)
    (hr : ∀ i, Xv6.refs { v with inode := t } i = Xv6.refs v i + δ i) :
    Walk v { v with inode := t } δ where
  core := hc
  frame := Frame.inode h.ready.log t
  keep := hk
  valid := hv
  refs := hr
  files := fun _ => .inl rfl
  quiet := fun _ => rfl

theorem quiet_of (h : Walk v v' δ) (hδ : ∀ i, 0 ≤ δ i) (hq : Quiet v) : Quiet v' := by
  intro i n hn h0
  rw [h.refs]
  have hd : v'.disk = v.disk := by rw [h.quiet hq]
  rw [hd] at hn
  have := hq i n hn h0
  have := hδ i
  omega

theorem trans (h : Walk v v' δ) (h' : Walk v' v'' δ') (hc : Core v) (hδ : ∀ i, 0 ≤ δ i) :
    Walk v v'' (δ + δ') where
  core := h'.core
  frame := h.frame.trans h'.frame
  keep := fun k i hk => h'.keep k i (h.keep k i hk)
  valid := fun k i hk hv => h'.valid k i (h.keep k i hk) (h.valid k i hk hv)
  refs := by
    intro i
    rw [h'.refs,h.refs,Pi.add_apply]
    ring
  files := by
    intro i
    have hn := hc.refs_nonneg i
    have hd := hδ i
    have hr := h.refs i
    rcases h'.files i with h2 | ⟨h2,h3,n,h4,h5⟩
    · rw [h2]
      exact h.files i
    · rcases h.files i with h6 | ⟨h6,-⟩
      · exact .inr ⟨h2,by omega,n,by rw [← h6]; exact h4,h5⟩
      · rw [h6] at h4
        cases h4
  quiet := by
    intro hq
    have h1 := h.quiet hq
    have h2 := h'.quiet (h.quiet_of hδ hq)
    rw [h1] at h2
    exact h2

/-- A walk in a quiet state logs nothing. -/
theorem budget {E : Stops} {m : ℕ} (h : Walk v v' δ) (hb : Budget E m v)
    (hlog : Quiet v ∨ ∀ e, E (.fail (.log e))) : Budget E m v' := by
  refine hlog.elim (fun hq => ?_) .inl
  rw [h.quiet hq]
  exact hb

end Walk
end Xv6
