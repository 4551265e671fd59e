import Mathlib.Logic.Basic

/-! # Computations that may stop

`Sat E Q x`: the computation `x` returns a value with `Q`, or stops with an error in `E`. -/
namespace Result

variable {ε α β : Type}

structure Sat (E : ε → Prop) (Q : α → Prop) (x : Except ε α) : Prop where
  ok : ∀ {a}, x = .ok a → Q a
  error : ∀ {e}, x = .error e → E e

variable {E : ε → Prop} {P Q : α → Prop} {R : β → Prop} {x : Except ε α} {f : α → Except ε β}

@[simp] theorem sat_ok {a : α} : Sat E Q (.ok a) ↔ Q a :=
  ⟨fun h => h.ok rfl,fun h => ⟨fun heq => Except.ok.inj heq ▸ h,nofun⟩⟩

@[simp] theorem sat_error {e : ε} : Sat E Q (.error e) ↔ E e :=
  ⟨fun h => h.error rfl,fun h => ⟨nofun,fun heq => Except.error.inj heq ▸ h⟩⟩

@[simp] theorem sat_pure {a : α} : Sat E Q (pure a) ↔ Q a := sat_ok

theorem sat_true (x : Except ε α) : Sat (fun _ => True) (fun _ => True) x :=
  ⟨fun _ => trivial,fun _ => trivial⟩

/-- The first computation, then the rest from what it returns. -/
theorem Sat.bind (h : Sat E P x) (hf : ∀ a, P a → Sat E R (f a)) : Sat E R (x >>= f) := by
  cases x with
  | ok a => exact hf a (h.ok rfl)
  | error e => exact sat_error.2 (h.error rfl)

theorem Sat.mono (h : Sat E P x) (hPQ : ∀ a, P a → Q a) : Sat E Q x :=
  ⟨fun hx => hPQ _ (h.ok hx),h.error⟩

/-- Two properties of what is returned; the errors are those of the first. -/
theorem Sat.and {E' : ε → Prop} (h : Sat E P x) (h' : Sat E' Q x) : Sat E (fun a => P a ∧ Q a) x :=
  ⟨fun hx => ⟨h.ok hx,h'.ok hx⟩,h.error⟩

theorem Sat.returns (h : Sat (fun _ => False) Q x) : ∃ a, x = .ok a ∧ Q a := by
  cases x with
  | ok a => exact ⟨a,rfl,h.ok rfl⟩
  | error e => exact (h.error rfl).elim

end Result
