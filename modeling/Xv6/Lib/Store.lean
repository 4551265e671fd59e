import Mathlib.Data.Nat.Notation
import Mathlib.Logic.Function.Basic

/-! # Stores

A store maps every number to a value: a base function and a list of the places
where it has been changed.  It behaves as a function that is updated, and it
stays small while a program runs. -/

structure Store (β : Type) where
  base : ℕ → β
  changed : List (ℕ × β)

/-- A function with at most one value changed. -/
def assignAt {β : Type} (f : ℕ → β) : Option (ℕ × β) → ℕ → β
  | some e => Function.update f e.1 e.2
  | none => f

/-- `Function.update` for a function that is to be evaluated. -/
def upd {β : Type} (f : ℕ → β) (k : ℕ) (x : β) : ℕ → β := fun j => if j = k then x else f j

@[simp] theorem upd_eq_update {β : Type} (f : ℕ → β) (k : ℕ) (x : β) :
    upd f k x = Function.update f k x := by
  funext j
  by_cases h : j = k
  · subst h; simp [upd]
  · simp [upd,h]

namespace Store
variable {β : Type}

def find (k : ℕ) : List (ℕ × β) → Option β
  | [] => none
  | e :: l => if e.1 = k then some e.2 else find k l

def replace (k : ℕ) (x : β) : List (ℕ × β) → List (ℕ × β)
  | [] => [(k,x)]
  | e :: l => if e.1 = k then (k,x) :: l else e :: replace k x l

def get (m : Store β) (k : ℕ) : β := (find k m.changed).getD (m.base k)

def set (m : Store β) (k : ℕ) (x : β) : Store β := { m with changed := replace k x m.changed }

def assign (m : Store β) : Option (ℕ × β) → Store β
  | some e => m.set e.1 e.2
  | none => m

def ofFun (f : ℕ → β) : Store β := ⟨f,[]⟩

theorem find_replace (k j : ℕ) (x : β) (l : List (ℕ × β)) :
    find j (replace k x l) = if j = k then some x else find j l := by
  induction l with
  | nil =>
    by_cases h : j = k
    · simp [replace,find,h]
    · simp [replace,find,Ne.symm h,h]
  | cons e l ih =>
    by_cases hk : e.1 = k
    · by_cases h : j = k
      · simp [replace,find,hk,h]
      · simp [replace,find,hk,h,Ne.symm h]
    · by_cases h : j = k
      · subst h
        simp [replace,find,hk,ih]
      · by_cases hj : e.1 = j
        · simp [replace,find,hj,h]
        · simp [replace,find,hk,hj,ih,h]

@[simp] theorem get_set (m : Store β) (k : ℕ) (x : β) :
    (m.set k x).get = Function.update m.get k x := by
  funext j
  by_cases h : j = k
  · subst h
    simp [get,set,find_replace]
  · simp [get,set,find_replace,h]

theorem get_assign (m : Store β) (e : Option (ℕ × β)) : (m.assign e).get = assignAt m.get e := by
  cases e with
  | none => rfl
  | some e => exact get_set m e.1 e.2

end Store
