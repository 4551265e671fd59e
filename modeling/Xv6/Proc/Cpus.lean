import Xv6.Proc.Steps

/-! # `scheduler` and `sched` on any number of CPUs

Each CPU runs `scheduler` or the kernel thread of a process, and `swtch` goes from one to the other
while the CPU holds `ptable.lock`.  What a thread does to the process table is the step of
`Xv6.Procs` for it; it finds its process by `myproc`, that is by `c->proc`. -/
namespace Xv6.Cpus
open Function (update)
open Procs (Action)

/-- The place in the code where a process gave up the CPU. -/
inductive Saved where
  | forkret
  | yield
  | sleep
  /-- `sleep` that `wait` calls with `ptable.lock` -/
  | wait
  | exit
  deriving DecidableEq, Repr

inductive Point where
  /-- without `ptable.lock` -/
  | out
  /-- after `acquire(&ptable.lock)` -/
  | locked (a : Action)
  /-- in `sched`, before `swtch` -/
  | sched (s : Saved)
  /-- before `release(&ptable.lock)` -/
  | release
  deriving DecidableEq, Repr

inductive Ctx where
  /-- `scheduler`, before `acquire` -/
  | idle
  /-- the handler of an interrupt that came there, in `wakeup` with the lock -/
  | intr (n : ℕ)
  | intrDone
  /-- `scheduler`, at the head of the loop over the table -/
  | scan (j : ℕ)
  /-- after `c->proc = p` -/
  | chosen (p : Fin NPROC)
  /-- before `swtch` -/
  | swtch (p : Fin NPROC)
  /-- after `swtch` has returned -/
  | back (p : Fin NPROC)
  /-- the kernel thread of a process -/
  | thread (i : Fin NPROC) (pt : Point)
  deriving DecidableEq, Repr

/-- `loop` is the variable `p` of `scheduler` in the context that `swtch` saved. -/
structure World (K : Type) where
  base : Procs.World
  lock : Option K
  proc : K → Option (Fin NPROC)
  ctx : K → Ctx
  loop : K → Fin NPROC
  saved : Fin NPROC → Saved

inductive Move (K : Type) where
  /-- the CPU goes on -/
  | run (c : K)
  /-- its thread enters a section of `ptable.lock` -/
  | enter (c : K) (a : Action)
  /-- its thread does something without the lock -/
  | act (c : K) (a : Action)
  /-- an interrupt while it is idle -/
  | intr (c : K) (n : ℕ)

/-- The action is a section of `ptable.lock`. -/
def locks : Action → Bool
  | .forkFail | .forkCopy | .fault => false
  | _ => true

/-- Where a thread goes from its section. -/
def after (b : Procs.World) (p : Fin NPROC) : Action → Point
  | .yield => .sched .yield
  | .sleep _ => .sched .sleep
  | .exit => .sched .exit
  | .wait =>
    match b.table.wait p with
    | .asleep _ => .sched .wait
    | _ => .release
  | _ => .release

/-- Where a thread goes on; `p->chan = 0` is part of the step of the scheduler. -/
def resume : Saved → Option Point
  | .forkret | .yield | .sleep => some .release
  | .wait => some (.locked .wait)
  -- `panic("zombie exit")`
  | .exit => none

namespace World
variable {K : Type} [DecidableEq K] (w : World K)

def goto (c : K) (x : Ctx) : World K := { w with ctx := update w.ctx c x }

def acquire (c : K) (x : Ctx) : Option (World K) :=
  if w.lock = none then some { w.goto c x with lock := some c } else none

def release (c : K) (x : Ctx) : Option (World K) :=
  if w.lock = some c then some { w.goto c x with lock := none } else none

/-- `allocproc` lets the new process start at `forkret`. -/
def newContext (p : Fin NPROC) (a : Action) : Fin NPROC → Saved :=
  match a, w.base.pc p with
  | .forkCopy, .forked np => update w.saved np .forkret
  | _, _ => w.saved

def perform (p : Fin NPROC) (a : Action) : Option (World K) :=
  (w.base.act p a).map fun b => { w with base := b, saved := w.newContext p a }

def thread (c : K) (i : Fin NPROC) : Point → Option (World K)
  | .out => none
  | .locked a =>
    match w.proc c with
    | some p => (w.perform p a).map fun w' => w'.goto c (.thread i (after w.base p a))
    | none => none
  | .sched s =>
    match w.proc c with
    | some p =>
      -- `panic("sched ptable.lock")` and `panic("sched running")`
      if w.lock = some c ∧ w.base.state p ≠ .running then
        some { w.goto c (.back (w.loop c)) with saved := update w.saved p s }
      else none
    | none => none
  | .release => w.release c (.thread i .out)

def run (c : K) : Option (World K) :=
  match w.ctx c with
  | .idle => w.acquire c (.scan 0)
  | .intr n =>
    some { w.goto c .intrDone with
      base := { w.base with table := w.base.table.wakeup1 (some (.other n)) } }
  | .intrDone => w.release c .idle
  | .scan j =>
    if h : j < NPROC then
      if w.base.state ⟨j,h⟩ = .runnable then
        some { w.goto c (.chosen ⟨j,h⟩) with proc := update w.proc c (some ⟨j,h⟩) }
      else some (w.goto c (.scan (j + 1)))
    else w.release c .idle
  | .chosen p =>
    some { w.goto c (.swtch p) with base := { w.base with table := w.base.table.resume p } }
  | .swtch p =>
    (resume (w.saved p)).map fun pt => { w.goto c (.thread p pt) with loop := update w.loop c p }
  | .back p => some { w.goto c (.scan (p + 1)) with proc := update w.proc c none }
  | .thread i pt => w.thread c i pt

def step : Move K → Option (World K)
  | .run c => w.run c
  | .enter c a =>
    match w.ctx c, w.proc c with
    | .thread i .out, some p =>
      if locks a = true ∧ (w.base.act p a).isSome then w.acquire c (.thread i (.locked a)) else none
    | _, _ => none
  | .act c a =>
    match w.ctx c, w.proc c with
    | .thread _ .out, some p => if locks a = false then w.perform p a else none
    | _, _ => none
  | .intr c n =>
    match w.ctx c with
    | .idle => w.acquire c (.intr n)
    | _ => none

/-- After `userinit`, when every CPU has entered `scheduler`. -/
def init (K : Type) : World K where
  base := .init
  lock := none
  proc := fun _ => none
  ctx := fun _ => .idle
  loop := fun _ => Procs.initproc
  saved := fun _ => .forkret

end World

end Xv6.Cpus
