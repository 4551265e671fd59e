import Mathlib.Data.Fintype.Card
import Xv6.Log.Section

/-! # Processes sharing one transaction

Any number of processes run operations `begin_op(); log_write(b)*; end_op()`.
Each critical section is one step, the bounds test of `log_write` and its locked
update are two, and every pass of the loops of `commit()`, which runs without
the lock, is a step of its own.  The history records which operation began,
logged a block and ended between which two commits. -/
namespace Xv6.Group
open Function (update)

/-- Where a process stands.  `passed` holds the block numbers that its current
operation has passed to `log_write`. -/
inductive Pc where
  | idle
  | inOp (op : ℕ) (passed : Finset ℕ)
  | logging (op : ℕ) (passed : Finset ℕ) (b : ℕ)
  | commit
  | writeLog (tail : ℕ)
  | writeHead
  | installTrans (tail : ℕ)
  | clear
  | eraseHead
  | committed
  deriving DecidableEq

/-- Each event carries the number of commits made before it. -/
inductive Event where
  | began (op epoch : ℕ)
  | logged (op b epoch : ℕ)
  | ended (op epoch : ℕ)
  | commit (epoch : ℕ) (blocks : List ℕ)
  deriving DecidableEq

inductive Action where
  | beginOp
  | logWrite (b : ℕ)
  | update
  | endOp
  | commitStep
  deriving DecidableEq

structure World (P : Type) where
  log : Log
  pc : P → Pc
  panicked : Option LogPanic
  nextOp : ℕ
  epoch : ℕ
  hist : List Event

variable {P : Type} [DecidableEq P]

namespace World

def goto (w : World P) (p : P) (c : Pc) : World P :=
  { w with pc := update w.pc p c }

def panic (w : World P) (e : LogPanic) : World P := { w with panicked := some e }

def began (w : World P) (p : P) (l : Log) : World P :=
  { w with
    log := l
    pc := update w.pc p (.inOp w.nextOp ∅)
    nextOp := w.nextOp + 1
    hist := .began w.nextOp w.epoch :: w.hist }

def updated (w : World P) (p : P) (op : ℕ) (passed : Finset ℕ) (b : ℕ) : World P :=
  { w with
    log := w.log.logWriteUpdate b
    pc := update w.pc p (.inOp op passed)
    hist := .logged op b w.epoch :: w.hist }

def ended (w : World P) (p : P) (op : ℕ) (l : Log) (c : Pc) : World P :=
  { w with
    log := l
    pc := update w.pc p c
    hist := .ended op w.epoch :: w.hist }

/-- `commit()` has emptied the header, or found it empty. -/
def cleared (w : World P) (p : P) (c : Pc) : World P :=
  { w with
    log := w.log.clear
    pc := update w.pc p c
    epoch := w.epoch + 1
    hist := .commit w.epoch w.log.block :: w.hist }

def released (w : World P) (p : P) : World P :=
  { w with log := w.log.endCommit, pc := update w.pc p .idle }

/-- The next statement of `commit()` and the last section of `end_op`. -/
def commitStep (w : World P) (p : P) : Option (World P) :=
  match w.pc p with
  | .commit => some (if w.log.n > 0 then w.goto p (.writeLog 0) else w.cleared p .committed)
  | .writeLog tail =>
    some (w.goto p (if tail < w.log.n then .writeLog (tail + 1) else .writeHead))
  | .writeHead => some (w.goto p (.installTrans 0))
  | .installTrans tail =>
    some (w.goto p (if tail < w.log.n then .installTrans (tail + 1) else .clear))
  | .clear => some (w.cleared p .eraseHead)
  | .eraseHead => some (w.goto p .committed)
  | .committed => some (w.released p)
  | _ => none

/-- One step of process `p`; `none` when it cannot make that step.  A panic
stops every process. -/
def step (w : World P) (p : P) (a : Action) : Option (World P) :=
  if w.panicked.isSome then none
  else match a, w.pc p with
  | .beginOp, .idle => w.log.beginOp.map (w.began p)
  | .logWrite b, .inOp op passed =>
    match w.log.logWriteTest with
    | .error e => some (w.panic e)
    | .ok _ => some (w.goto p (.logging op (insert b passed) b))
  | .update, .logging op passed b => some (w.updated p op passed b)
  | .endOp, .inOp op _ =>
    match w.log.endOp with
    | .error e => some (w.panic e)
    | .ok (doCommit,l) => some (w.ended p op l (if doCommit then .commit else .idle))
  | .commitStep, _ => w.commitStep p
  | _, _ => none

/-- The log as `initlog` leaves it, with no process in an operation. -/
def init (P : Type) (start size : ℕ) : World P where
  log := { start := start, size := size, outstanding := 0, committing := false, block := [] }
  pc := fun _ => .idle
  panicked := none
  nextOp := 0
  epoch := 0
  hist := []

/-- The steps of a schedule one after another, as long as each satisfies `C`. -/
def exec (C : World P → P → Action → Prop) [∀ w p a, Decidable (C w p a)] (w : World P) :
    List (P × Action) → Option (World P)
  | [] => some w
  | (p,a) :: rest => if C w p a then (w.step p a).bind fun w' => w'.exec C rest else none

end World

/-- The states reached from `w₀` when every step satisfies `C`. -/
inductive Reach (C : World P → P → Action → Prop) (w₀ : World P) : World P → Prop where
  | init : Reach C w₀ w₀
  | step {w w' : World P} {p : P} {a : Action} (h : Reach C w₀ w) (hc : C w p a)
      (hs : w.step p a = some w') : Reach C w₀ w'

theorem Reach.of_exec {C : World P → P → Action → Prop} [∀ w p a, Decidable (C w p a)]
    {w0 w : World P} {sched : List (P × Action)} (h : w0.exec C sched = some w) : Reach C w0 w := by
  have key : ∀ (sched : List (P × Action)) (w1 : World P), Reach C w0 w1 →
      w1.exec C sched = some w → Reach C w0 w := by
    intro sched
    induction sched with
    | nil =>
      intro w1 h1 hw
      cases hw
      exact h1
    | cons pa rest ih =>
      obtain ⟨p,a⟩ := pa
      intro w1 h1 hw
      rw [World.exec] at hw
      split at hw
      · obtain ⟨w2,hs,hw⟩ := Option.bind_eq_some_iff.mp hw
        exact ih w2 (.step h1 ‹_› hs) hw
      · cases hw
  exact key sched w0 .init h

/-- What one step can be, with its guard. -/
inductive Move (w : World P) (p : P) : Action → World P → Prop where
  | beginOp (hpc : w.pc p = .idle) (hc : w.log.committing = false)
      (hn : (w.log.n : ℤ) + (w.log.outstanding + 1) * MAXOPBLOCKS ≤ LOGSIZE) :
      Move w p .beginOp (w.began p { w.log with outstanding := w.log.outstanding + 1 })
  | tested {op : ℕ} {passed : Finset ℕ} (b : ℕ) (hpc : w.pc p = .inOp op passed)
      (ht : w.log.logWriteTest = .ok ()) :
      Move w p (.logWrite b) (w.goto p (.logging op (insert b passed) b))
  | testPanic {op : ℕ} {passed : Finset ℕ} (b : ℕ) (e : LogPanic)
      (hpc : w.pc p = .inOp op passed) (ht : w.log.logWriteTest = .error e) :
      Move w p (.logWrite b) (w.panic e)
  | update {op : ℕ} {passed : Finset ℕ} {b : ℕ} (hpc : w.pc p = .logging op passed b) :
      Move w p .update (w.updated p op passed b)
  | endPanic {op : ℕ} {passed : Finset ℕ} (hpc : w.pc p = .inOp op passed)
      (hc : w.log.committing = true) : Move w p .endOp (w.panic .logCommitting)
  | endLast {op : ℕ} {passed : Finset ℕ} (hpc : w.pc p = .inOp op passed)
      (hc : w.log.committing = false) (ho : w.log.outstanding = 1) :
      Move w p .endOp (w.ended p op { w.log with outstanding := 0, committing := true } .commit)
  | endOther {op : ℕ} {passed : Finset ℕ} (hpc : w.pc p = .inOp op passed)
      (hc : w.log.committing = false) (ho : w.log.outstanding ≠ 1) :
      Move w p .endOp
        (w.ended p op { w.log with outstanding := w.log.outstanding - 1 } .idle)
  | commitEmpty (hpc : w.pc p = .commit) (hn : w.log.n = 0) :
      Move w p .commitStep (w.cleared p .committed)
  | clear (hpc : w.pc p = .clear) : Move w p .commitStep (w.cleared p .eraseHead)
  | release (hpc : w.pc p = .committed) : Move w p .commitStep (w.released p)
  | goCommit (hpc : w.pc p = .commit) (hn : 0 < w.log.n) :
      Move w p .commitStep (w.goto p (.writeLog 0))
  | goWriteLog {tail : ℕ} (hpc : w.pc p = .writeLog tail) (ht : tail < w.log.n) :
      Move w p .commitStep (w.goto p (.writeLog (tail + 1)))
  | goWriteHead {tail : ℕ} (hpc : w.pc p = .writeLog tail) (ht : w.log.n ≤ tail) :
      Move w p .commitStep (w.goto p .writeHead)
  | goInstall (hpc : w.pc p = .writeHead) :
      Move w p .commitStep (w.goto p (.installTrans 0))
  | goInstallTrans {tail : ℕ} (hpc : w.pc p = .installTrans tail) (ht : tail < w.log.n) :
      Move w p .commitStep (w.goto p (.installTrans (tail + 1)))
  | goClear {tail : ℕ} (hpc : w.pc p = .installTrans tail) (ht : w.log.n ≤ tail) :
      Move w p .commitStep (w.goto p .clear)
  | goCommitted (hpc : w.pc p = .eraseHead) : Move w p .commitStep (w.goto p .committed)

theorem commitStep_move {w w' : World P} {p : P} (h : w.commitStep p = some w') :
    Move w p .commitStep w' := by
  unfold World.commitStep at h
  cases hpc : w.pc p <;> simp only [hpc,Option.some.injEq,reduceCtorEq] at h <;>
    subst h
  case commit =>
    split
    · exact .goCommit hpc ‹_›
    · exact .commitEmpty hpc (by omega)
  case writeLog tail =>
    split
    · exact .goWriteLog hpc ‹_›
    · exact .goWriteHead hpc (by omega)
  case writeHead => exact .goInstall hpc
  case installTrans tail =>
    split
    · exact .goInstallTrans hpc ‹_›
    · exact .goClear hpc (by omega)
  case clear => exact .clear hpc
  case eraseHead => exact .goCommitted hpc
  case committed => exact .release hpc

/-- A step is one of the moves, and a panicked system makes none. -/
theorem step_move {w w' : World P} {p : P} {a : Action} (h : w.step p a = some w') :
    w.panicked = none ∧ Move w p a w' := by
  unfold World.step at h
  split at h
  · cases h
  rename_i hp
  refine ⟨by simpa using hp,?_⟩
  split at h
  · rename_i hpc
    obtain ⟨l,hl,rfl⟩ := Option.map_eq_some_iff.mp h
    obtain ⟨hc,hn,rfl⟩ := Log.beginOp_eq_some hl
    exact .beginOp hpc hc hn
  · rename_i b op passed hpc
    split at h <;> cases h
    · exact .testPanic b _ hpc ‹_›
    · exact .tested b hpc ‹_›
  · rename_i op passed b hpc
    cases h
    exact .update hpc
  · rename_i op passed hpc
    cases hc : w.log.committing with
    | true =>
      rw [Log.endOp_of_committing hc] at h
      cases h
      exact .endPanic hpc hc
    | false =>
      by_cases ho : w.log.outstanding = 1
      · rw [Log.endOp_last hc ho] at h
        cases h
        exact .endLast hpc hc ho
      · rw [Log.endOp_other hc ho] at h
        cases h
        exact .endOther hpc hc ho
  · exact commitStep_move h
  · cases h

end Xv6.Group
