import Mathlib.Algebra.Order.BigOperators.Group.Finset
import Mathlib.Algebra.Order.Ring.Int
import Mathlib.Tactic.Ring

/-! # Counting pointers

Holders point at objects or at nothing, and the number of holders that point at an object
follows the changes of single pointers. -/
namespace Pointers
open Function (update)
open Finset

variable {ι κ : Type} [DecidableEq ι] [DecidableEq κ]

def hit (x : Option κ) (k : κ) : ℤ := if x = some k then 1 else 0

@[simp] theorem hit_none (k : κ) : hit none k = 0 := rfl

theorem hit_nonneg (x : Option κ) (k : κ) : 0 ≤ hit x k := by
  unfold hit
  split <;> decide

theorem hit_some (j k : κ) : hit (some j) k = if k = j then 1 else 0 := by
  unfold hit
  simp only [Option.some.injEq,eq_comm]

/-- How many of the holders in `H` point at `k`. -/
def count (H : Finset ι) (ptr : ι → Option κ) (k : κ) : ℤ := ∑ a ∈ H, hit (ptr a) k

variable {H : Finset ι} {ptr : ι → Option κ} {a : ι} {k : κ}

omit [DecidableEq ι] in
theorem count_nonneg : 0 ≤ count H ptr k := sum_nonneg fun _ _ => hit_nonneg _ _

omit [DecidableEq ι] in
theorem count_none : count H (fun _ => none) k = 0 := sum_eq_zero fun _ _ => hit_none k

omit [DecidableEq ι] in
theorem count_pos (ha : a ∈ H) (h : ptr a = some k) : 0 < count H ptr k := by
  have hle := single_le_sum (f := fun a => hit (ptr a) k) (fun _ _ => hit_nonneg _ _) ha
  rw [h,hit_some,if_pos rfl] at hle
  exact hle

theorem count_update (ha : a ∈ H) (x : Option κ) :
    count H (update ptr a x) k = count H ptr k - hit (ptr a) k + hit x k := by
  unfold count
  rw [← add_sum_erase _ _ ha,← add_sum_erase H (fun b => hit (ptr b) k) ha,
    Function.update_self]
  have hrest : ∑ b ∈ H.erase a, hit (update ptr a x b) k = ∑ b ∈ H.erase a, hit (ptr b) k := by
    refine sum_congr rfl fun b hb => ?_
    rw [Function.update_of_ne (ne_of_mem_erase hb)]
  rw [hrest]
  ring

end Pointers
