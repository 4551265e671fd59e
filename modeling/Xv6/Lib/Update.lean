import Mathlib.Logic.Function.Basic

/-! # Cases on a value of an updated function -/

namespace Function
variable {α β : Type*} [DecidableEq α] {f : α → β} {a x : α} {b y : β}

/-- A property of the values that `update` leaves alone and of the new one. -/
theorem update_cases {Q : α → β → Prop} (hp : Q a b) (hq : x ≠ a → Q x (f x)) :
    Q x (update f a b x) := by
  by_cases h : x = a
  · subst h
    rwa [update_self]
  · rw [update_of_ne h]
    exact hq h

theorem of_update_eq (h : update f a b x = y) : x = a ∧ b = y ∨ x ≠ a ∧ f x = y := by
  revert h
  exact update_cases (Q := fun x z => z = y → x = a ∧ b = y ∨ x ≠ a ∧ f x = y)
    (fun h => .inl ⟨rfl,h⟩) fun hx h => .inr ⟨hx,h⟩

end Function
