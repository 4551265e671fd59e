import Mathlib.Data.List.Basic

/-! # Sequences of writes to a store

A store is a function from addresses to values, and a sequence of writes is
carried out from left to right. -/
namespace WriteSeq
open List
variable {α β : Type} [DecidableEq α]

def apply (ws : List (α × β)) (m : α → β) : α → β :=
  ws.foldl (fun m w => Function.update m w.1 w.2) m

@[simp] theorem apply_nil (m : α → β) : apply [] m = m := rfl

@[simp] theorem apply_cons (w : α × β) (ws : List (α × β)) (m : α → β) :
    apply (w :: ws) m = apply ws (Function.update m w.1 w.2) := rfl

theorem apply_append (ws us : List (α × β)) (m : α → β) :
    apply (ws ++ us) m = apply us (apply ws m) :=
  foldl_append

theorem apply_of_notMem {ws : List (α × β)} {x : α} (h : ∀ w ∈ ws, w.1 ≠ x) (m : α → β) :
    apply ws m x = m x := by
  induction ws generalizing m with
  | nil => rfl
  | cons w ws ih =>
    rw [apply_cons,ih fun u hu => h u (mem_cons_of_mem _ hu)]
    exact Function.update_of_ne (Ne.symm (h w mem_cons_self)) _ _

/-- If every write stores the value of `g` at its address, then so does the
sequence, whatever was there before and however often an address is written. -/
theorem apply_of_mem {ws : List (α × β)} {g : α → β} (hg : ∀ w ∈ ws, w.2 = g w.1) {x : α}
    (h : ∃ w ∈ ws, w.1 = x) (m : α → β) : apply ws m x = g x := by
  induction ws generalizing m with
  | nil => obtain ⟨w,hw,-⟩ := h; cases hw
  | cons w ws ih =>
    have hg' : ∀ u ∈ ws, u.2 = g u.1 := fun u hu => hg u (mem_cons_of_mem _ hu)
    rw [apply_cons]
    by_cases ht : ∃ u ∈ ws, u.1 = x
    · exact ih hg' ht _
    · obtain ⟨u,hu,rfl⟩ := h
      rcases mem_cons.mp hu with rfl | hu
      · rw [apply_of_notMem (fun u' hu' he => ht ⟨u',hu',he⟩),Function.update_self]
        exact hg u mem_cons_self
      · exact absurd ⟨u,hu,rfl⟩ ht

end WriteSeq
