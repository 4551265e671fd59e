import Mathlib.Logic.Basic

/-! # Runs of a machine

A machine takes moves that may be impossible in a state, and `ok` says which moves a run is
allowed to take.  An invariant is a property that every allowed move keeps. -/
namespace Machine

variable {S M : Type} (step : S → M → Option S) (ok : S → M → Prop)

def exec : S → List M → Option S
  | s, [] => some s
  | s, m :: rest => (step s m).bind fun s' => exec s' rest

/-- Every move of the list is allowed where it is taken. -/
def Allows : S → List M → Prop
  | _, [] => True
  | s, m :: rest => ok s m ∧ ∀ s' ∈ step s m, Allows s' rest

instance decidableAllows [∀ s m, Decidable (ok s m)] : ∀ s moves, Decidable (Allows step ok s moves)
  | _, [] => inferInstanceAs (Decidable True)
  | s, m :: rest =>
    have : ∀ s', Decidable (Allows step ok s' rest) := fun s' => decidableAllows s' rest
    inferInstanceAs (Decidable (ok s m ∧ ∀ s' ∈ step s m, Allows step ok s' rest))

/-- The states of the runs from `s₀` whose moves are all allowed. -/
inductive Reach (s₀ : S) : S → Prop where
  | init : Reach s₀ s₀
  | step {s s' : S} {m : M} (h : Reach s₀ s) (hm : ok s m) (hs : step s m = some s') : Reach s₀ s'

variable {step ok} {s₀ s s' : S}

theorem Reach.of_allows {moves : List M} (h : Reach step ok s₀ s) (ha : Allows step ok s moves)
    (he : exec step s moves = some s') : Reach step ok s₀ s' := by
  induction moves generalizing s with
  | nil =>
    cases he
    exact h
  | cons m rest ih =>
    obtain ⟨s1,hs,hr⟩ := Option.bind_eq_some_iff.mp he
    exact ih (.step h ha.1 hs) (ha.2 s1 hs) hr

/-- What holds at the start and is kept by every allowed move holds throughout. -/
theorem Reach.invariant {I : S → Prop} (h : Reach step ok s₀ s) (h0 : I s₀)
    (hstep : ∀ s s' m, I s → ok s m → step s m = some s' → I s') : I s := by
  induction h with
  | init => exact h0
  | step _ hm hs ih => exact hstep _ _ _ ih hm hs

end Machine
