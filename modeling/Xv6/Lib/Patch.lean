import Mathlib.Tactic.Common

/-! # A memory with a list written into it

`patch f a l` is the function `f` with the elements of `l` from `a` on. -/
namespace Patch

variable {α : Type} {f g : ℕ → α} {a x i : ℕ} {l l' : List α}

def patch (f : ℕ → α) (a : ℕ) (l : List α) : ℕ → α :=
  fun x => if a ≤ x then (l[x - a]?).getD (f x) else f x

@[simp] theorem patch_nil : patch f a [] = f := by
  funext x
  simp [patch]

theorem patch_out (h : x < a ∨ a + l.length ≤ x) : patch f a l x = f x := by
  unfold patch
  split
  next hle => rw [List.getElem?_eq_none (by omega),Option.getD_none]
  next => rfl

theorem patch_in (h : i < l.length) : patch f a l (a + i) = l[i] := by
  rw [patch,if_pos (Nat.le_add_right a i),Nat.add_sub_cancel_left,List.getElem?_eq_getElem h,
    Option.getD_some]

theorem patch_congr (h : f x = g x) : patch f a l x = patch g a l x := by
  rw [patch,patch,h]

theorem patch_append : patch (patch f a l) (a + l.length) l' = patch f a (l ++ l') := by
  funext x
  by_cases hx : a + l.length ≤ x
  · rw [patch,if_pos hx,patch_out (.inr hx),patch,if_pos (by omega),
      List.getElem?_append_right (by omega),Nat.sub_add_eq]
  · rw [patch_out (.inl (by omega)),patch,patch]
    split
    next hle => rw [List.getElem?_append_left (by omega)]
    next => rfl

end Patch
