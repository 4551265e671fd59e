import Mathlib.Data.Int.Notation
import Xv6.Lib.Monitor

/-! # `sleeplock.c`

The steps of `acquiresleep` and `releasesleep` on one sleep-lock.  Its spin lock is the lock
of the monitor, and there is one channel, the address of the lock. -/
namespace Xv6.Sleep
open Monitor Function

/-- `struct sleeplock` without its spin lock. -/
structure Sleeplock where
  locked : Bool
  pid : ℤ
  deriving DecidableEq, Repr

def initsleeplock : Sleeplock := ⟨false,0⟩

inductive Loc where
  | idle
  /-- the test of the loop of `acquiresleep` -/
  | test (pid : ℤ)
  /-- `lk->pid = myproc()->pid` -/
  | setPid (pid : ℤ)
  /-- the `release` of `acquiresleep` -/
  | leave
  /-- `acquiresleep` has returned -/
  | held
  /-- `lk->locked = 0` of `releasesleep` -/
  | clear
  /-- `lk->pid = 0` -/
  | clearPid
  /-- `wakeup(lk)` -/
  | wakeup
  /-- the `release` of `releasesleep` -/
  | done
  deriving DecidableEq, Repr

namespace Loc

/-- The process is between the return of `acquiresleep` and its `releasesleep`, which ends
with `lk->locked = 0`. -/
def holding : Loc → Bool
  | held | clear => true
  | _ => false

/-- The process has set `lk->locked`, and not cleared it. -/
def owns : Loc → Bool
  | setPid _ | leave | held | clear => true
  | _ => false

/-- The process has cleared `lk->locked`, and not yet called `wakeup`. -/
def owesWakeup : Loc → Bool
  | clearPid | wakeup => true
  | _ => false

end Loc

def next (lk : Sleeplock) : Loc → Option (Act Sleeplock Loc Unit)
  | .test pid =>
    some (if lk.locked then .sleep () (.test pid) else .step { lk with locked := true } (.setPid pid))
  | .setPid pid => some (.step { lk with pid := pid } .leave)
  | .leave => some (.release .held)
  | .clear => some (.step { lk with locked := false } .clearPid)
  | .clearPid => some (.step { lk with pid := 0 } .wakeup)
  | .wakeup => some (.wakeup () .done)
  | .done => some (.release .idle)
  | .idle | .held => none

/-- A process calls `acquiresleep`, and `releasesleep` when it has the lock. -/
def call : Loc → Loc → Bool
  | .idle, .test _ => true
  | .held, .clear => true
  | _, _ => false

def code : Code Sleeplock Loc Unit Empty where
  call l l' lk := if call l l' then some lk else none
  next _ l lk := next lk l
  env e := e.elim

variable {P : Type} [DecidableEq P]

/-- The lock is taken when some process has taken it, and no two have. -/
structure Owned (lk : Sleeplock) (f : P → Loc) : Prop where
  locked : lk.locked = true ↔ ∃ p, (f p).owns = true
  single : ∀ p q, (f p).owns = true → (f q).owns = true → p = q

namespace Owned
variable {lk lk' : Sleeplock} {f : P → Loc} {p : P} {l : Loc}

theorem keep (h : Owned lk f) (hl : lk'.locked = lk.locked) (ho : l.owns = (f p).owns) :
    Owned lk' (update f p l) := by
  have hf : ∀ q, (update f p l q).owns = (f q).owns := by
    intro q
    by_cases hq : q = p
    · subst hq
      rw [update_self,ho]
    · rw [update_of_ne hq]
  refine ⟨?_,fun q r => ?_⟩
  · simp only [hf,hl]
    exact h.locked
  · rw [hf,hf]
    exact h.single q r

theorem take (h : Owned lk f) (hfree : lk.locked = false) (hl : lk'.locked = true)
    (ho : l.owns = true) : Owned lk' (update f p l) := by
  have hno : ∀ q, ¬ (f q).owns = true := fun q hq => by
    rw [h.locked.mpr ⟨q,hq⟩] at hfree
    cases hfree
  have honly : ∀ q, (update f p l q).owns = true → q = p := by
    intro q hq
    by_contra hne
    rw [update_of_ne hne] at hq
    exact hno q hq
  refine ⟨iff_of_true hl ⟨p,?_⟩,fun q r hq hr => (honly q hq).trans (honly r hr).symm⟩
  rwa [update_self]

theorem drop (h : Owned lk f) (hp : (f p).owns = true) (hl : lk'.locked = false)
    (ho : l.owns = false) : Owned lk' (update f p l) := by
  have hno : ∀ q, ¬ (update f p l q).owns = true := by
    intro q hq
    by_cases hne : q = p
    · subst hne
      rw [update_self,ho] at hq
      cases hq
    · rw [update_of_ne hne] at hq
      exact hne (h.single q p hq hp)
  refine ⟨iff_of_false (by rw [hl]; nofun) fun ⟨q,hq⟩ => hno q hq,fun q _ hq => (hno q hq).elim⟩

end Owned

theorem code_invariant (ok : World P Sleeplock Loc Unit → Move P Loc Empty → Prop) :
    Invariant code ok (fun lk (f : P → Loc) _ => Owned lk f) (fun _ _ => True) (fun _ => True)
      fun _ => True where
  enter _ _ _ := trivial
  act := by
    intro w lk f k p a _ _ _ h _ ha
    have hgo : a.Goes (fun _ _ => True) (fun _ => True) (fun _ => True) lk := by
      cases a <;> simp [Act.Goes]
    refine ⟨?_,hgo⟩
    cases hl : f p with
    | test pid =>
      rw [hl] at ha
      cases ha
      split
      · exact h.keep rfl (by rw [hl]; rfl)
      · rename_i hlk
        exact h.take (by simpa using hlk) rfl rfl
    | clear =>
      rw [hl] at ha
      cases ha
      exact h.drop (by rw [hl]; rfl) rfl rfl
    | idle => rw [hl] at ha; cases ha
    | held => rw [hl] at ha; cases ha
    | _ =>
      rw [hl] at ha
      cases ha
      exact h.keep rfl (by rw [hl]; rfl)
  call := by
    intro lk lk' f k p l h hs
    change (if call (f p) l = true then some lk else none) = some lk' at hs
    refine ⟨?_,trivial,fun _ h => h,fun h => h⟩
    split at hs
    · rename_i hc
      cases hs
      refine h.keep rfl ?_
      cases hl : f p <;> cases l <;> rw [hl] at hc <;> first | rfl | cases hc
    · cases hs
  kill _ h := h
  env := by
    intro _ _ _ _ _ e
    exact e.elim

omit [DecidableEq P] in
/-- A process may sleep as long as the lock is taken, and `releasesleep` calls `wakeup` once it
has given the lock back. -/
theorem code_wakes (ok : World P Sleeplock Loc Unit → Move P Loc Empty → Prop) :
    Wakes code ok (fun lk (f : P → Loc) _ => Owned lk f) (fun _ _ => True)
      (fun _ lk => lk.locked = true) fun _ l => l.owesWakeup = true where
  act := by
    intro lk f k p a _ _ ha
    cases hl : f p with
    | test pid =>
      rw [hl] at ha
      cases ha
      split
      · rename_i hlk
        exact ⟨hlk,nofun⟩
      · exact fun _ _ => .inl rfl
    | clear => rw [hl] at ha; cases ha; exact fun _ _ => .inr rfl
    | clearPid => rw [hl] at ha; cases ha; exact fun _ _ => .inr rfl
    | setPid pid => rw [hl] at ha; cases ha; exact fun _ h => .inl (h.resolve_right nofun)
    | wakeup => rw [hl] at ha; cases ha; exact fun _ hne => (hne rfl).elim
    | idle => rw [hl] at ha; cases ha
    | held => rw [hl] at ha; cases ha
    | _ => rw [hl] at ha; cases ha; trivial
  release := by
    intro w p l l' _ _ _ ha _ _ _ ho
    cases l with
    | clearPid => cases ha
    | wakeup => cases ha
    | _ => cases ho
  call := by
    intro lk lk' l l' hs
    change (if call l l' = true then some lk else none) = some lk' at hs
    split at hs
    · cases hs
      exact fun _ h => h
    · cases hs
  env := by
    intro _ _ e
    exact e.elim

/-- In every interleaving at most one process has the sleep-lock, and with both spin locks free
no process sleeps on a sleep-lock that nobody has. -/
theorem acquiresleep_excludes_and_wakes {w : World P Sleeplock Loc Unit}
    (h : Reach code (fun _ _ => True) (World.init initsleeplock .idle) w) :
    (∀ p q, (w.loc p).holding = true → (w.loc q).holding = true → p = q) ∧
    (w.lock = none → w.table = none → ∀ p, (w.pc p).isSleeping = true → w.st.locked = true) := by
  have hinit : Owned initsleeplock fun _ : P => Loc.idle :=
    ⟨iff_of_false nofun nofun,nofun⟩
  have hheld := h.holds (code_invariant _) (Locks.init _ _) (Holds.init hinit trivial)
  have hawait := h.awaits (code_invariant _) (code_wakes _) (Locks.init _ _) (Holds.init hinit trivial)
    (Awaits.init _ _)
  have howns : ∀ l : Loc, l.holding = true → l.owns = true := by
    intro l hl
    cases l <;> first | rfl | cases hl
  refine ⟨fun p q hp hq => hheld.inv.single p q (howns _ hp) (howns _ hq),fun hl _ p hp => ?_⟩
  refine hawait.free (h.locks (Locks.init _ _)) hl (q := p) (c := ()) ?_
  cases hpc : w.pc p <;> rw [hpc] at hp <;> first | rfl | cases hp

def secondSleeps (a b : Fin 2) : List (Move (Fin 2) Loc Empty) :=
  [.call a (.test 4), .run a, .run a, .run a, .run a,
    .call b (.test 5), .run b, .run b, .run b, .run b, .run b, .run b]

theorem acquiresleep_excludes_and_wakes_two : ∃ w : World (Fin 2) Sleeplock Loc Unit,
      (World.init initsleeplock .idle).exec code (secondSleeps 0 1) = some w ∧
      (w.loc 0).holding = true ∧ (w.pc 1).isSleeping = true ∧ w.lock = none ∧ w.table = none ∧
      w.st.locked = true := by
  obtain ⟨w,hw,h0,h1,hl,ht⟩ : ∃ w ∈ (World.init initsleeplock .idle :
      World (Fin 2) Sleeplock Loc Unit).exec code (secondSleeps 0 1),
      (w.loc 0).holding = true ∧ (w.pc 1).isSleeping = true ∧ w.lock = none ∧ w.table = none := by
    decide
  exact ⟨w,hw,h0,h1,hl,ht, (acquiresleep_excludes_and_wakes (Reach.of_exec .init hw)).2 hl ht 1 h1⟩

end Xv6.Sleep
