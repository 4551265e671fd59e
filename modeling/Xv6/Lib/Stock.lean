import Mathlib.Algebra.BigOperators.Group.Finset.Basic
import Mathlib.Tactic.Abel

/-! # Things in slots

What is in the slots of a table, counted as often as it is there. -/
namespace Stock
open Finset

variable {ι α : Type} [DecidableEq ι] {s : Finset ι} {f g : ι → Option α} {i j : ι} {a : α}

def held (s : Finset ι) (f : ι → Option α) : Multiset α := ∑ i ∈ s, ((f i).toList : Multiset α)

omit [DecidableEq ι] in
theorem held_congr (h : ∀ i ∈ s, f i = g i) : held s f = held s g :=
  sum_congr rfl fun i hi => by rw [h i hi]

omit [DecidableEq ι] in
@[simp] theorem mem_held : a ∈ held s f ↔ ∃ i ∈ s, f i = some a := by
  simp [held,Multiset.mem_sum]

omit [DecidableEq ι] in
theorem held_none (h : ∀ i ∈ s, f i = none) : held s f = 0 :=
  sum_eq_zero fun i hi => by rw [h i hi]; rfl

theorem held_erase (hi : i ∈ s) : held s f = (f i).toList + held (s.erase i) f :=
  (add_sum_erase s _ hi).symm

theorem held_insert (hi : i ∉ s) : held (insert i s) f = (f i).toList + held s f :=
  sum_insert hi

theorem held_update (hi : i ∈ s) (o : Option α) :
    held s (Function.update f i o) + (f i).toList = held s f + o.toList := by
  have hrest : held (s.erase i) (Function.update f i o) = held (s.erase i) f :=
    held_congr fun j hj => Function.update_of_ne (ne_of_mem_erase hj) _ _
  rw [held_erase hi,held_erase hi (f := f),hrest,Function.update_self]
  abel

theorem slot_unique (h : (held s f).Nodup) (hi : i ∈ s) (hj : j ∈ s) (hfi : f i = some a)
    (hfj : f j = some a) : i = j := by
  by_contra hne
  rw [held_erase hi,hfi,Option.toList_some,Multiset.coe_singleton,Multiset.singleton_add] at h
  have hmem : a ∈ held (s.erase i) f :=
    mem_held.2 ⟨j,mem_erase.2 ⟨fun hc => hne hc.symm,hj⟩,hfj⟩
  exact (Multiset.nodup_cons.1 h).1 hmem

end Stock
