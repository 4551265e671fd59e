import Mathlib.Data.List.Induction
import Mathlib.Data.List.Nodup

/-! # Queues that are linked through their elements

A queue is a pointer to its first element, and every element has a pointer to the next one.
An element is put at the end by a walk along the pointers. -/
namespace Linked
open Function List

structure Queue (B : Type) where
  head : Option B
  next : B → Option B

/-- The place of a pointer: that of the queue, or that of an element. -/
inductive Link (B : Type) where
  | head
  | next (b : B)
  deriving DecidableEq, Repr

variable {B : Type}

namespace Queue

def get (q : Queue B) : Link B → Option B
  | .head => q.head
  | .next b => q.next b

def set [DecidableEq B] (q : Queue B) (pp : Link B) (x : Option B) : Queue B :=
  match pp with
  | .head => { q with head := x }
  | .next b => { q with next := update q.next b x }

/-- `for(; *pp; pp = &(*pp)->next)`, at most `fuel` times round. -/
def walk (q : Queue B) : ℕ → Link B → Link B
  | 0, pp => pp
  | fuel + 1, pp =>
    match q.get pp with
    | none => pp
    | some c => q.walk fuel (.next c)

end Queue

/-- The pointers lead from `x` through the elements of the list to a null pointer. -/
inductive Chain (next : B → Option B) : Option B → List B → Prop where
  | nil : Chain next none []
  | cons {b : B} {l : List B} (h : Chain next (next b) l) : Chain next (some b) (b :: l)

/-- The elements of the queue in order. -/
def Queue.Holds (q : Queue B) (l : List B) : Prop := Chain q.next q.head l

/-- The pointer behind the elements of a list. -/
def linkAfter (l : List B) : Link B := l.getLast?.elim .head .next

@[simp] theorem linkAfter_append (l : List B) (b : B) : linkAfter (l ++ [b]) = .next b := by
  simp [linkAfter]

section Chain
variable {next next' : B → Option B} {x : Option B} {b : B} {l l₁ l₂ : List B}

theorem Chain.head (h : Chain next x l) : x = l.head? := by
  cases h <;> rfl

theorem Chain.congr (h : Chain next x l) (hn : ∀ b ∈ l, next' b = next b) : Chain next' x l := by
  induction h with
  | nil => exact .nil
  | @cons b l _ ih =>
    refine .cons ?_
    rw [hn b mem_cons_self]
    exact ih fun c hc => hn c (mem_cons_of_mem b hc)

theorem Chain.append (h : Chain next x l₁) (hne : l₁ ≠ []) [DecidableEq B] (hnodup : l₁.Nodup)
    (hb : b ∉ l₁) (hnext : next b = none) :
    ∃ c, l₁.getLast? = some c ∧ Chain (update next c (some b)) x (l₁ ++ [b]) := by
  induction h with
  | nil => exact absurd rfl hne
  | @cons d l h ih =>
    rw [nodup_cons] at hnodup
    rw [mem_cons,not_or] at hb
    cases l with
    | nil =>
      refine ⟨d,rfl,.cons ?_⟩
      rw [Function.update_self]
      refine .cons ?_
      rw [update_of_ne hb.1,hnext]
      exact .nil
    | cons e l =>
      obtain ⟨c,hc,hchain⟩ := ih (cons_ne_nil e l) hnodup.2 hb.2
      refine ⟨c,by rw [List.getLast?_cons_cons]; exact hc,.cons ?_⟩
      have hcd : d ≠ c := by
        rintro rfl
        exact hnodup.1 (mem_of_getLast? hc)
      rw [update_of_ne hcd]
      exact hchain

end Chain

namespace Queue.Holds
variable {q : Queue B} {b : B} {l l₁ l₂ : List B}

theorem head_eq (h : q.Holds l) : q.head = l.head? := Chain.head h

theorem eq_nil (h : q.Holds l) : q.head = none ↔ l = [] := by
  rw [h.head_eq,List.head?_eq_none_iff]

/-- The pointers behind the elements of the queue. -/
theorem get_linkAfter (h : q.Holds (l₁ ++ l₂)) : Chain q.next (q.get (linkAfter l₁)) l₂ := by
  induction l₁ using List.reverseRecOn generalizing l₂ with
  | nil => exact h
  | append_singleton l₁ b ih =>
    rw [append_assoc] at h
    have hchain := ih h
    rw [linkAfter_append]
    generalize q.get (linkAfter l₁) = x at hchain
    cases hchain with
    | cons h => exact h

theorem walk_eq {fuel : ℕ} (h : q.Holds (l₁ ++ l₂)) (hf : l₂.length ≤ fuel) :
    q.walk fuel (linkAfter l₁) = linkAfter (l₁ ++ l₂) := by
  induction l₂ generalizing l₁ fuel with
  | nil =>
    have hget : q.get (linkAfter l₁) = none := h.get_linkAfter.head
    rw [append_nil]
    cases fuel with
    | zero => rfl
    | succ fuel => simp only [Queue.walk,hget]
  | cons c l₂ ih =>
    have hget : q.get (linkAfter l₁) = some c := h.get_linkAfter.head
    obtain ⟨fuel,rfl⟩ := Nat.exists_eq_add_of_lt (Nat.lt_of_lt_of_le (Nat.succ_pos _) hf)
    have hl : l₁ ++ c :: l₂ = (l₁ ++ [c]) ++ l₂ := by simp
    rw [hl] at h ⊢
    rw [Nat.zero_add,Queue.walk,hget,← ih h (by simpa using hf),linkAfter_append]

theorem pop (h : q.Holds (b :: l)) : ({ q with head := q.next b } : Queue B).Holds l := by
  unfold Queue.Holds at *
  generalize q.head = x at h
  cases h with
  | cons h => exact h

variable [DecidableEq B]

/-- The pointer of an element that is not in the queue. -/
theorem setNext (h : q.Holds l) (hb : b ∉ l) (x : Option B) : (q.set (.next b) x).Holds l :=
  Chain.congr h fun c hc => update_of_ne (by rintro rfl; exact hb hc) _ _

theorem append (h : q.Holds l) (hnodup : l.Nodup) (hb : b ∉ l) (hnext : q.next b = none) :
    (q.set (linkAfter l) (some b)).Holds (l ++ [b]) := by
  by_cases hl : l = []
  · subst hl
    refine .cons ?_
    change Chain q.next (q.next b) []
    rw [hnext]
    exact .nil
  · obtain ⟨c,hc,hchain⟩ := Chain.append h hl hnodup hb hnext
    rw [linkAfter,hc]
    exact hchain

end Queue.Holds
end Linked
