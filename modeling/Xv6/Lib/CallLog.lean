import Mathlib.Data.List.Basic
import Xv6.Lib.Update

/-! # What each call has added to a log

Calls run interleaved and add entries to one log.  Every call has its own number, which its
entries carry, so that what one call has added can be told from the rest. -/
namespace CallLog
open Function List

variable {α P L : Type}

def ofCall (log : List (ℕ × α)) (id : ℕ) : List α := (log.filter fun e => e.1 == id).map Prod.snd

theorem ofCall_append (log : List (ℕ × α)) (e : ℕ × α) (id : ℕ) :
    ofCall (log ++ [e]) id = ofCall log id ++ if e.1 = id then [e.2] else [] := by
  unfold ofCall
  rw [filter_append,map_append]
  congr 1
  by_cases h : e.1 = id
  · simp [h]
  · simp [h]

theorem ofCall_filter (log : List (ℕ × α)) (q : α → Bool) (id : ℕ) :
    ofCall (log.filter fun e => q e.2) id = (ofCall log id).filter q := by
  simp [ofCall,filter_map,filter_filter,Bool.and_comm,Function.comp_def]

/-- The calls have numbers below `calls`, no two processes are in the same one, and each process
`p` has added what `Q` says to the log; `id? l` is the call of a process at `l`. -/
structure Calls (log : List (ℕ × α)) (calls : ℕ) (id? : L → Option ℕ) (Q : List α → L → Prop)
    (f : P → L) : Prop where
  old : ∀ e ∈ log, e.1 < calls
  ids : ∀ p i, id? (f p) = some i → i < calls
  distinct : ∀ p q i, id? (f p) = some i → id? (f q) = some i → p = q
  each : ∀ p i, id? (f p) = some i → Q (ofCall log i) (f p)

namespace Calls
variable {log : List (ℕ × α)} {calls : ℕ} {id? : L → Option ℕ} {Q : List α → L → Prop} {f : P → L}
  {p : P} {l : L}

theorem init (h : ∀ p, id? (f p) = none) : Calls ([] : List (ℕ × α)) 0 id? Q f := by
  have hno : ∀ p i, id? (f p) ≠ some i := fun p i hp => by
    rw [h p] at hp
    cases hp
  exact ⟨nofun,fun p i hp => (hno p i hp).elim,fun p _ i hp => (hno p i hp).elim,
    fun p i hp => (hno p i hp).elim⟩

theorem ofCall_next (h : Calls log calls id? Q f) : ofCall log calls = [] := by
  rw [ofCall,filter_eq_nil_iff.mpr,map_nil]
  intro e he
  have := h.old e he
  simp only [beq_iff_eq]
  omega

variable [DecidableEq P]

theorem move (h : Calls log calls id? Q f)
    (hl : ∀ i, id? l = some i → id? (f p) = some i ∧ Q (ofCall log i) l) :
    Calls log calls id? Q (update f p l) := by
  have hid : ∀ q i, id? (update f p l q) = some i → id? (f q) = some i := fun q i =>
    update_cases (Q := fun q m => id? m = some i → id? (f q) = some i) (fun hi => (hl i hi).1)
      fun _ => id
  refine ⟨h.old,fun q i hq => h.ids q i (hid q i hq),
    fun q r i hq hr => h.distinct q r i (hid q i hq) (hid r i hr),fun q i => ?_⟩
  exact update_cases (Q := fun _ m => id? m = some i → Q (ofCall log i) m)
    (fun hi => (hl i hi).2) fun _ => h.each q i

theorem append (h : Calls log calls id? Q f) {i : ℕ} {x : α} (hp : id? (f p) = some i)
    (hl : id? l = some i) (hQ : Q (ofCall log i ++ [x]) l) :
    Calls (log ++ [(i,x)]) calls id? Q (update f p l) := by
  have hid : ∀ q j, id? (update f p l q) = some j → id? (f q) = some j := fun q j =>
    update_cases (Q := fun q m => id? m = some j → id? (f q) = some j)
      (fun hj => by rw [hp,← hl,hj]) fun _ => id
  refine ⟨fun e he => ?_,fun q j hq => h.ids q j (hid q j hq),
    fun q r j hq hr => h.distinct q r j (hid q j hq) (hid r j hr),fun q j hq => ?_⟩
  · rcases mem_append.mp he with he | he
    · exact h.old e he
    · rw [mem_singleton.mp he]
      exact h.ids p i hp
  · rw [ofCall_append]
    by_cases hqp : q = p
    · subst hqp
      rw [update_self] at hq ⊢
      obtain rfl := Option.some.inj (hl.symm.trans hq)
      rwa [if_pos rfl]
    · have hq' := hid q j hq
      have hne : i ≠ j := by
        rintro rfl
        exact hqp (h.distinct q p i hq' hp)
      rw [if_neg hne,append_nil,update_of_ne hqp]
      exact h.each q j hq'

theorem call (h : Calls log calls id? Q f) (hl : id? l = some calls) (hQ : Q [] l) :
    Calls log (calls + 1) id? Q (update f p l) := by
  have hid : ∀ q i, id? (update f p l q) = some i → q = p ∧ i = calls ∨ q ≠ p ∧ id? (f q) = some i := by
    intro q i
    refine update_cases (Q := fun q m => id? m = some i → q = p ∧ i = calls ∨ q ≠ p ∧ _)
      (fun hi => .inl ⟨rfl,?_⟩) fun hqp hq => .inr ⟨hqp,hq⟩
    exact Option.some.inj (hi.symm.trans hl)
  refine ⟨fun e he => Nat.lt_succ_of_lt (h.old e he),fun q i hq => ?_,
    fun q r i hq hr => ?_,fun q i hq => ?_⟩
  · rcases hid q i hq with ⟨-,rfl⟩ | ⟨-,h1⟩
    · exact Nat.lt_succ_self _
    · exact Nat.lt_succ_of_lt (h.ids q i h1)
  · rcases hid q i hq with ⟨rfl,rfl⟩ | ⟨-,h1⟩
    · rcases hid r i hr with ⟨rfl,-⟩ | ⟨-,h2⟩
      · rfl
      · exact absurd (h.ids r i h2) (Nat.lt_irrefl i)
    · rcases hid r i hr with ⟨-,rfl⟩ | ⟨-,h2⟩
      · exact absurd (h.ids q i h1) (Nat.lt_irrefl i)
      · exact h.distinct q r i h1 h2
  · rcases hid q i hq with ⟨rfl,rfl⟩ | ⟨hqp,h1⟩
    · rw [update_self,h.ofCall_next]
      exact hQ
    · rw [update_of_ne hqp]
      exact h.each q i h1

end Calls
end CallLog
