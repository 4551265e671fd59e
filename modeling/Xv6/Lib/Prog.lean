import Mathlib.Data.Nat.Notation
import Mathlib.Logic.Function.Basic

/-! # Programs of atomic sections and sleep-locks

A program reads and changes a shared state in atomic sections, takes and gives
back sleep-locks, and may stop with an error.  One definition of a program
serves both a caller that runs alone (`run`) and threads that interleave.

`Safe` is the weakest-precondition style judgement for a run alone; its rules
rewrite a program step by step. -/
namespace Conc
open Function (update)

/-- `σ` is the shared state, `Λ` names the locks, `ε` the errors. -/
inductive Prog (σ Λ ε α : Type) : Type where
  | ret (a : α)
  | fail (e : ε)
  /-- an atomic section, not enabled where `f` is `none` -/
  | act (f : σ → Option σ) (k : σ → Prog σ Λ ε α)
  | acquire (l : Λ) (k : Prog σ Λ ε α)
  | release (l : Λ) (k : Prog σ Λ ε α)
  /-- asks whether the calling thread holds the lock -/
  | holding (l : Λ) (k : Bool → Prog σ Λ ε α)

variable {σ Λ ε α β γ : Type}

namespace Prog

def bind : Prog σ Λ ε α → (α → Prog σ Λ ε β) → Prog σ Λ ε β
  | ret a, g => g a
  | fail e, _ => fail e
  | act f k, g => act f fun s => (k s).bind g
  | acquire l k, g => acquire l (k.bind g)
  | release l k, g => release l (k.bind g)
  | holding l k, g => holding l fun b => (k b).bind g

instance : Monad (Prog σ Λ ε) where
  pure := ret
  bind := bind

theorem bind_ret (x : Prog σ Λ ε α) : x.bind ret = x := by
  induction x with
  | ret a => rfl
  | fail e => rfl
  | act f k ih => exact congrArg (act f) (funext ih)
  | acquire l k ih => exact congrArg (acquire l) ih
  | release l k ih => exact congrArg (release l) ih
  | holding l k ih => exact congrArg (holding l) (funext ih)

theorem bind_bind (x : Prog σ Λ ε α) (g : α → Prog σ Λ ε β) (h : β → Prog σ Λ ε γ) :
    (x.bind g).bind h = x.bind fun a => (g a).bind h := by
  induction x with
  | ret a => rfl
  | fail e => rfl
  | act f k ih => exact congrArg (act f) (funext ih)
  | acquire l k ih => exact congrArg (acquire l) ih
  | release l k ih => exact congrArg (release l) ih
  | holding l k ih => exact congrArg (holding l) (funext ih)

instance : LawfulMonad (Prog σ Λ ε) :=
  LawfulMonad.mk' (Prog σ Λ ε) bind_ret (fun _ _ => rfl) bind_bind

def gets (f : σ → α) : Prog σ Λ ε α := act some fun s => ret (f s)

def modify (f : σ → σ) : Prog σ Λ ε Unit := act (fun s => some (f s)) fun _ => ret ()

/-- Wait until `f` is defined and apply it. -/
def await (f : σ → Option σ) : Prog σ Λ ε Unit := act f fun _ => ret ()

def lock (l : Λ) : Prog σ Λ ε Unit := acquire l (ret ())

def unlock (l : Λ) : Prog σ Λ ε Unit := release l (ret ())

def holds (l : Λ) : Prog σ Λ ε Bool := holding l ret

end Prog

/-- A state together with the locks that are held and by whom. -/
structure Cfg (σ Λ : Type) where
  st : σ
  held : List (Λ × ℕ)

/-- Why a thread that runs alone does not return. -/
inductive Stop (Λ ε : Type) where
  | fail (e : ε)
  | asleep
  | blocked (l : Λ) (holder : ℕ)
  deriving DecidableEq

variable [DecidableEq Λ]

namespace Cfg

def owner (c : Cfg σ Λ) (l : Λ) : Option ℕ :=
  (c.held.find? fun h => decide (h.1 = l)).map Prod.snd

def take (c : Cfg σ Λ) (l : Λ) (p : ℕ) : Cfg σ Λ := { c with held := (l,p) :: c.held }

def drop (c : Cfg σ Λ) (l : Λ) : Cfg σ Λ :=
  { c with held := c.held.filter fun h => decide (h.1 ≠ l) }

/-- The state does not matter for who holds a lock. -/
theorem owner_mk (s : σ) (c : Cfg σ Λ) : (⟨s,c.held⟩ : Cfg σ Λ).owner = c.owner := rfl

@[simp] theorem owner_take (c : Cfg σ Λ) (l : Λ) (p : ℕ) :
    (c.take l p).owner = update c.owner l (some p) := by
  funext m
  by_cases h : m = l
  · subst h; simp [owner,take]
  · simp [owner,take,h,Ne.symm h]

@[simp] theorem owner_drop (c : Cfg σ Λ) (l : Λ) : (c.drop l).owner = update c.owner l none := by
  funext m
  by_cases h : m = l
  · subst h
    simp [owner,drop]
  · have hm : ∀ a : Λ × ℕ, (a.1 ≠ l ∧ a.1 = m) ↔ a.1 = m :=
      fun a => ⟨And.right,fun ha => ⟨fun hl => h (ha.symm.trans hl),ha⟩⟩
    simp only [owner,drop,List.find?_filter,Function.update_of_ne h,decide_eq_true_eq,hm]

theorem update_owner_none {o : Λ → Option ℕ} {l : Λ} (p : ℕ) (h : o l = none) :
    update (update o l (some p)) l none = o := by
  rw [Function.update_idem,← h,Function.update_eq_self]

end Cfg

/-- Thread `p` runs alone until it returns or stops. -/
def run (p : ℕ) : Prog σ Λ ε α → Cfg σ Λ → Except (Stop Λ ε) (α × Cfg σ Λ)
  | .ret a, c => .ok (a,c)
  | .fail e, _ => .error (.fail e)
  | .act f k, c =>
    match f c.st with
    | none => .error .asleep
    | some s => run p (k c.st) { c with st := s }
  | .acquire l k, c =>
    match c.owner l with
    | some q => .error (.blocked l q)
    | none => run p k (c.take l p)
  | .release l k, c => run p k (c.drop l)
  | .holding l k, c => run p (k (decide (c.owner l = some p))) c

omit [DecidableEq Λ] in
def stop? : Except (Stop Λ ε) (α × Cfg σ Λ) → Option (Stop Λ ε)
  | .ok _ => none
  | .error e => some e

omit [DecidableEq Λ] in
theorem eq_error_of_stop? {r : Except (Stop Λ ε) (α × Cfg σ Λ)} {e : Stop Λ ε}
    (h : stop? r = some e) : r = .error e := by
  cases r with
  | ok a => cases h
  | error e' => rw [Option.some.inj h]

omit [DecidableEq Λ] in
def value? : Except (Stop Λ ε) (α × Cfg σ Λ) → Option α
  | .ok ac => some ac.1
  | .error _ => none

omit [DecidableEq Λ] in
theorem exists_eq_ok_of_value? {r : Except (Stop Λ ε) (α × Cfg σ Λ)} {a : α}
    (h : value? r = some a) : ∃ c, r = .ok (a,c) := by
  cases r with
  | ok ac => exact ⟨ac.2,by rw [← Option.some.inj h]⟩
  | error e => cases h

omit [DecidableEq Λ] in
theorem eq_ok_of_toOption {r : Except (Stop Λ ε) (α × Cfg σ Λ)} {a : α × Cfg σ Λ}
    (h : r.toOption = some a) : r = .ok a := by
  cases r with
  | ok b => rw [Option.some.inj h]
  | error e => cases h

/-- `x` run by `p` from `c` returns with `Q`, or stops for a reason in `E`. -/
def Safe (p : ℕ) (E : Stop Λ ε → Prop) (x : Prog σ Λ ε α) (Q : α → Cfg σ Λ → Prop)
    (c : Cfg σ Λ) : Prop :=
  match run p x c with
  | .ok (a,c') => Q a c'
  | .error e => E e

section Rules
variable {p : ℕ} {E : Stop Λ ε → Prop} {Q : α → Cfg σ Λ → Prop} {c : Cfg σ Λ}

theorem run_bind (x : Prog σ Λ ε β) (g : β → Prog σ Λ ε α) (c : Cfg σ Λ) : run p (x.bind g) c =
      match run p x c with
      | .ok (b,c') => run p (g b) c'
      | .error e => .error e := by
  induction x generalizing c with
  | ret b => rfl
  | fail e => rfl
  | act f k ih =>
    simp only [Prog.bind,run]
    cases f c.st with
    | none => rfl
    | some s => exact ih c.st _
  | acquire l k ih =>
    simp only [Prog.bind,run]
    cases c.owner l with
    | none => exact ih _
    | some q => rfl
  | release l k ih => exact ih _
  | holding l k ih => exact ih _ _

theorem safe_bind (x : Prog σ Λ ε β) (g : β → Prog σ Λ ε α) :
    Safe p E (x >>= g) Q c ↔ Safe p E x (fun b c' => Safe p E (g b) Q c') c := by
  change Safe p E (x.bind g) Q c ↔ _
  unfold Safe
  rw [run_bind]
  cases run p x c with
  | error e => rfl
  | ok bc => rfl

@[simp] theorem safe_pure (a : α) : Safe p E (pure a) Q c ↔ Q a c := Iff.rfl

@[simp] theorem safe_gets (f : σ → α) : Safe p E (Prog.gets f) Q c ↔ Q (f c.st) c := Iff.rfl

theorem safe_await {Q : Unit → Cfg σ Λ → Prop} (f : σ → Option σ) : Safe p E (Prog.await f) Q c ↔
      (f c.st = none → E .asleep) ∧ ∀ s, f c.st = some s → Q () { c with st := s } := by
  unfold Safe Prog.await run
  cases f c.st with
  | none => simp
  | some s => simp [run]

theorem safe_lock {Q : Unit → Cfg σ Λ → Prop} (l : Λ) (h : c.owner l = none) :
    Safe p E (Prog.lock l) Q c ↔ Q () (c.take l p) := by
  unfold Safe Prog.lock run
  rw [h]
  rfl

theorem safe_lock_blocked {Q : Unit → Cfg σ Λ → Prop} (l : Λ) {q : ℕ} (h : c.owner l = some q)
    (hE : E (.blocked l q)) : Safe p E (Prog.lock l) Q c := by
  unfold Safe Prog.lock run
  rw [h]
  exact hE

@[simp] theorem safe_holds {Q : Bool → Cfg σ Λ → Prop} (l : Λ) :
    Safe p E (Prog.holds l) Q c ↔ Q (decide (c.owner l = some p)) c := Iff.rfl

theorem Safe.imp {x : Prog σ Λ ε α} {R : α → Cfg σ Λ → Prop} (h : Safe p E x Q c)
    (hi : ∀ a c', Q a c' → R a c') : Safe p E x R c := by
  unfold Safe at *
  cases hr : run p x c with
  | error e => rw [hr] at h; exact h
  | ok ac => rw [hr] at h; exact hi _ _ h

/-- Sequencing through the specification of the first program. -/
theorem Safe.seq {x : Prog σ Λ ε β} {g : β → Prog σ Λ ε α} {R : β → Cfg σ Λ → Prop}
    (h : Safe p E x R c) (hg : ∀ b c', R b c' → Safe p E (g b) Q c') : Safe p E (x >>= g) Q c :=
  (safe_bind x g).mpr (h.imp hg)

theorem Safe.of_run_ok {x : Prog σ Λ ε α} {a : α} {c' : Cfg σ Λ} (h : Safe p E x Q c)
    (hr : run p x c = .ok (a,c')) : Q a c' := by
  unfold Safe at h
  rw [hr] at h
  exact h

theorem Safe.of_run_error {x : Prog σ Λ ε α} {e : Stop Λ ε} (h : Safe p E x Q c)
    (hr : run p x c = .error e) : E e := by
  unfold Safe at h
  rw [hr] at h
  exact h

end Rules
end Conc
