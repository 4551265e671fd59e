import Xv6.Lib.Machine
import Xv6.Proc.Ptable

/-! # Processes that fork, exit, wait and kill

Each section under `ptable.lock` is one step.  `fork` is several steps: the section of
`allocproc`, what it does to the new slot without the lock, which may fail, and its last
section.  A process takes a step only while it is running; the scheduler may run any process
that is runnable. -/
namespace Xv6.Procs
open Function Ptable Option

inductive Pc where
  | user
  /-- in `fork`, after the section of `allocproc` -/
  | forked (np : Fin NPROC)
  /-- in `fork`, before its last section -/
  | copied (np : Fin NPROC)
  /-- in `wait`, asleep or after it has slept -/
  | waiting
  deriving DecidableEq, Repr

def Pc.child? : Pc → Option (Fin NPROC)
  | forked np | copied np => some np
  | _ => none

inductive Action where
  | fork
  /-- `kalloc` or `copyuvm` returns 0 -/
  | forkFail
  | forkCopy
  | forkDone
  | exit
  | wait
  | kill (pid : Int32)
  /-- `sleep` on another channel than that of `wait` -/
  | sleep (n : ℕ)
  | wakeup (n : ℕ)
  | yield
  /-- an exception in user mode -/
  | fault
  deriving DecidableEq, Repr

inductive Move where
  | act (p : Fin NPROC) (a : Action)
  | scheduler (p : Fin NPROC)
  /-- the handler of an interrupt calls `wakeup` -/
  | intr (n : ℕ)
  deriving DecidableEq, Repr

/-- A process: a slot, and how often it had been allocated. -/
structure ProcId where
  slot : Fin NPROC
  gen : ℕ
  deriving DecidableEq

/-- A child that `wait` has returned, its parent, and the process that called it. -/
structure Reap where
  child : ProcId
  pid : Int32
  parent : Option ProcId
  curproc : ProcId
  deriving DecidableEq

/-- The process table and where the processes are.  The rest records what has happened: `gen`
counts how often a slot has been allocated and tells its processes apart, `parentGen` is the
`gen` of the parent when the parent pointer was set, `named` says whether a `kill` has named the
process, `exits` are the processes that have exited with their identifiers, `reaps` those that
`wait` has returned, and `forks` the results of `fork` in the parents. -/
structure World where
  table : Ptable
  pc : Fin NPROC → Pc
  gen : Fin NPROC → ℕ
  parentGen : Fin NPROC → ℕ
  named : Fin NPROC → Bool
  exits : List (ProcId × Int32)
  reaps : List Reap
  forks : List Int32

namespace World

def state (w : World) (i : Fin NPROC) : ProcState := (w.table.proc i).state

def parent (w : World) (i : Fin NPROC) : Option (Fin NPROC) := (w.table.proc i).parent

def id (w : World) (i : Fin NPROC) : ProcId := ⟨i,w.gen i⟩

def parentId (w : World) (i : Fin NPROC) : Option ProcId := (w.parent i).map (⟨·,w.parentGen i⟩)

def goto (w : World) (p : Fin NPROC) (c : Pc) : World := { w with pc := update w.pc p c }

def alloc (w : World) (p np : Fin NPROC) : World :=
  { w.goto p (.forked np) with
    table := w.table.allocproc np
    gen := update w.gen np (w.gen np + 1)
    named := update w.named np false }

def exit (w : World) (p : Fin NPROC) : World :=
  { w with
    table := w.table.exit p
    parentGen := fun i =>
      if (w.table.proc i).parent = some p then w.gen initproc else w.parentGen i
    exits := w.exits ++ [(w.id p,(w.table.proc p).pid)] }

def reapOf (w : World) (p c : Fin NPROC) : Reap :=
  ⟨w.id c,(w.table.proc c).pid,w.parentId c,w.id p⟩

/-- A turn of the loop of `wait`. -/
def wait (w : World) (p : Fin NPROC) : World :=
  match w.table.wait p with
  | .reaped c pid t =>
    { w.goto p .user with table := t, reaps := w.reaps ++ [{ w.reapOf p c with pid := pid }] }
  | .failed => w.goto p .user
  | .asleep t => { w.goto p .waiting with table := t }

def act (w : World) (p : Fin NPROC) : Action → Option World
  | .fork =>
    if w.pc p = .user then
      some (match w.table.unused? with
        | some np => w.alloc p np
        | none => w)
    else none
  | .forkFail =>
    match w.pc p with
    | .forked np => some { w.goto p .user with table := w.table.setState np .unused }
    | _ => none
  | .forkCopy =>
    match w.pc p with
    | .forked np =>
      some { w.goto p (.copied np) with
        table := w.table.setParent np p
        parentGen := update w.parentGen np (w.gen p) }
    | _ => none
  | .forkDone =>
    match w.pc p with
    | .copied np =>
      some { (w.goto p .user).goto np .user with
        table := w.table.setState np .runnable
        forks := w.forks ++ [(w.table.proc np).pid] }
    | _ => none
  -- `panic("init exiting")`
  | .exit => if w.pc p = .user ∧ p ≠ initproc then some (w.exit p) else none
  | .wait => if (w.pc p).child? = none then some (w.wait p) else none
  | .kill pid =>
    if w.pc p = .user then
      some { w with
        table := (w.table.kill pid).2
        named := fun i => w.named i || (w.table.proc i).pid == pid }
    else none
  | .sleep n =>
    if w.pc p = .user then some { w with table := w.table.sleep p (.other n) } else none
  | .wakeup n => some { w with table := w.table.wakeup1 (some (.other n)) }
  | .yield => some { w with table := w.table.setState p .runnable }
  | .fault => if w.pc p = .user then some { w with table := w.table.fault p } else none

def step (w : World) : Move → Option World
  | .act p a => if w.state p = .running then w.act p a else none
  | .scheduler p => if w.state p = .runnable then some { w with table := w.table.resume p } else none
  | .intr n => some { w with table := w.table.wakeup1 (some (.other n)) }

def init : World where
  table := .userinit
  pc := fun _ => .user
  gen := fun _ => 0
  parentGen := fun _ => 0
  named := fun _ => false
  exits := []
  reaps := []
  forks := []

end World

abbrev Reachable : World → Prop := Machine.Reach World.step (fun _ _ => True) World.init

def forkOnce : List Move :=
  [.scheduler initproc, .act initproc .fork, .act initproc .forkCopy, .act initproc .forkDone]

def firstChild : Fin NPROC := ⟨1,by decide⟩

section Equations
variable {w : World} {p np : Fin NPROC}

@[simp] theorem World.goto_pc_self {c : Pc} : (w.goto p c).pc p = c := update_self _ _ _

@[simp] theorem World.goto_pc_of_ne {c : Pc} {q : Fin NPROC} (h : q ≠ p) :
    (w.goto p c).pc q = w.pc q := update_of_ne h _ _

variable (hrun : w.state p = .running)
include hrun

theorem step_fork (hpc : w.pc p = .user)
    (hnp : w.table.unused? = some np) : w.step (.act p .fork) = some (w.alloc p np) := by
  simp [World.step,World.act,hrun,hpc,hnp]

theorem step_forkFail (hpc : w.pc p = .forked np) : w.step (.act p .forkFail) =
      some { w.goto p .user with table := w.table.setState np .unused } := by
  simp [World.step,World.act,hrun,hpc]

theorem step_forkCopy (hpc : w.pc p = .forked np) :
    w.step (.act p .forkCopy) = some { w.goto p (.copied np) with
      table := w.table.setParent np p
      parentGen := update w.parentGen np (w.gen p) } := by
  simp [World.step,World.act,hrun,hpc]

theorem step_forkDone (hpc : w.pc p = .copied np) :
    w.step (.act p .forkDone) = some { (w.goto p .user).goto np .user with
      table := w.table.setState np .runnable
      forks := w.forks ++ [(w.table.proc np).pid] } := by
  simp [World.step,World.act,hrun,hpc]

end Equations

/-- The moves after which there are other processes or other parents. -/
inductive Changes (w : World) : Move → World → Prop where
  | alloc {p np : Fin NPROC} (hrun : w.state p = .running) (hpc : w.pc p = .user)
      (hnp : w.table.unused? = some np) : Changes w (.act p .fork) (w.alloc p np)
  | forkFail {p np : Fin NPROC} (hpc : w.pc p = .forked np) :
      Changes w (.act p .forkFail) { w.goto p .user with table := w.table.setState np .unused }
  | forkCopy {p np : Fin NPROC} (hpc : w.pc p = .forked np) :
      Changes w (.act p .forkCopy) { w.goto p (.copied np) with
        table := w.table.setParent np p
        parentGen := update w.parentGen np (w.gen p) }
  | forkDone {p np : Fin NPROC} (hpc : w.pc p = .copied np) :
      Changes w (.act p .forkDone) { (w.goto p .user).goto np .user with
        table := w.table.setState np .runnable
        forks := w.forks ++ [(w.table.proc np).pid] }
  | exit {p : Fin NPROC} (hrun : w.state p = .running) (hpc : w.pc p = .user)
      (hne : p ≠ initproc) : Changes w (.act p .exit) (w.exit p)
  | reap {p c : Fin NPROC} (hrun : w.state p = .running) (hc : w.table.zombieChild? p = some c)
      (hpc : (w.pc p).child? = none) :
      Changes w (.act p .wait) { w.goto p .user with
        table := w.table.reap c
        reaps := w.reaps ++ [w.reapOf p c] }

/-- Everything that a move can do. -/
inductive Did (w : World) : Move → World → Prop where
  | changes {m : Move} {w' : World} (h : Changes w m w') : Did w m w'
  | noSlot {p : Fin NPROC} (hnp : w.table.unused? = none) : Did w (.act p .fork) w
  | waitFail {p : Fin NPROC} (hw : w.table.wait p = .failed) (hpc : (w.pc p).child? = none) :
      Did w (.act p .wait) (w.goto p .user)
  | waitSleep {p : Fin NPROC} (hrun : w.state p = .running) (hc : w.table.zombieChild? p = none)
      (hk : w.table.havekids p = true) (hw : w.table.wait p = .asleep (w.table.sleep p (.proc p)))
      (hpc : (w.pc p).child? = none) :
      Did w (.act p .wait) { w.goto p .waiting with table := w.table.sleep p (.proc p) }
  | kill {p : Fin NPROC} {pid : Int32} :
      Did w (.act p (.kill pid)) { w with
        table := (w.table.kill pid).2
        named := fun i => w.named i || (w.table.proc i).pid == pid }
  | sleep {p : Fin NPROC} {n : ℕ} (hrun : w.state p = .running) :
      Did w (.act p (.sleep n)) { w with table := w.table.sleep p (.other n) }
  | wakeup {p : Fin NPROC} {n : ℕ} :
      Did w (.act p (.wakeup n)) { w with table := w.table.wakeup1 (some (.other n)) }
  | yield {p : Fin NPROC} (hrun : w.state p = .running) :
      Did w (.act p .yield) { w with table := w.table.setState p .runnable }
  | fault {p : Fin NPROC} : Did w (.act p .fault) { w with table := w.table.fault p }
  | scheduler {p : Fin NPROC} (hrun : w.state p = .runnable) :
      Did w (.scheduler p) { w with table := w.table.resume p }
  | intr {n : ℕ} : Did w (.intr n) { w with table := w.table.wakeup1 (some (.other n)) }

theorem Did.of_wait {w : World} {p : Fin NPROC} (hrun : w.state p = .running)
    (hpc : (w.pc p).child? = none) : Did w (.act p .wait) (w.wait p) := by
  unfold World.wait
  cases hc : w.table.zombieChild? p with
  | some c =>
    have hw : w.table.wait p = .reaped c (w.table.proc c).pid (w.table.reap c) := by
      rw [wait,hc]
    rw [hw]
    exact .changes (.reap hrun hc hpc)
  | none =>
    by_cases hk : (!w.table.havekids p || (w.table.proc p).killed) = true
    · have hw : w.table.wait p = .failed := by
        rw [wait,hc]
        exact if_pos hk
      rw [hw]
      exact .waitFail hw hpc
    · have hw : w.table.wait p = .asleep (w.table.sleep p (.proc p)) := by
        rw [wait,hc]
        exact if_neg hk
      rw [hw]
      simp only [Bool.or_eq_true,Bool.not_eq_true',not_or,Bool.not_eq_false] at hk
      exact .waitSleep hrun hc hk.1 hw hpc

theorem Did.of_act {w w' : World} {p : Fin NPROC} {a : Action} (hrun : w.state p = .running)
    (h : w.act p a = some w') : Did w (.act p a) w' := by
  cases a with
  | fork =>
    simp only [World.act] at h
    split at h
    · rename_i hpc
      cases hu : w.table.unused? with
      | some np =>
        rw [hu] at h
        cases h
        exact .changes (.alloc hrun hpc hu)
      | none =>
        rw [hu] at h
        cases h
        exact .noSlot hu
    · cases h
  | forkFail =>
    simp only [World.act] at h
    split at h
    · cases h
      exact .changes (.forkFail ‹_›)
    · cases h
  | forkCopy =>
    simp only [World.act] at h
    split at h
    · cases h
      exact .changes (.forkCopy ‹_›)
    · cases h
  | forkDone =>
    simp only [World.act] at h
    split at h
    · cases h
      exact .changes (.forkDone ‹_›)
    · cases h
  | exit =>
    obtain ⟨⟨hpc,hne⟩,he⟩ := ite_none_right_eq_some.mp h
    cases he
    exact .changes (.exit hrun hpc hne)
  | wait =>
    obtain ⟨hpc,he⟩ := ite_none_right_eq_some.mp h
    cases he
    exact .of_wait hrun hpc
  | kill pid =>
    obtain ⟨-,he⟩ := ite_none_right_eq_some.mp h
    cases he
    exact .kill
  | sleep n =>
    obtain ⟨-,he⟩ := ite_none_right_eq_some.mp h
    cases he
    exact .sleep hrun
  | wakeup n =>
    cases h
    exact .wakeup
  | yield =>
    cases h
    exact .yield hrun
  | fault =>
    obtain ⟨-,he⟩ := ite_none_right_eq_some.mp h
    cases he
    exact .fault

theorem Did.of_step {w w' : World} {m : Move} (h : w.step m = some w') : Did w m w' := by
  cases m with
  | act p a =>
    obtain ⟨hrun,he⟩ := ite_none_right_eq_some.mp h
    exact .of_act hrun he
  | scheduler p =>
    obtain ⟨hrun,he⟩ := ite_none_right_eq_some.mp h
    cases he
    exact .scheduler hrun
  | intr n =>
    cases h
    exact .intr

/-- The processes that have started go on, and no process enters or goes on with `fork`. -/
structure Quiet (w w' : World) : Prop where
  moves : w.table.Moves w'.table
  pc : ∀ p, w'.pc p = w.pc p ∨ (w'.pc p).child? = none
  gen : w'.gen = w.gen
  parentGen : w'.parentGen = w.parentGen
  exits : w'.exits = w.exits
  reaps : w'.reaps = w.reaps
  forks : w'.forks = w.forks

theorem Quiet.child? {w w' : World} (h : Quiet w w') {p np : Fin NPROC}
    (hp : (w'.pc p).child? = some np) : w'.pc p = w.pc p := by
  rcases h.pc p with he | he
  · exact he
  · rw [he] at hp
    cases hp

theorem goto_pc (w : World) (p : Fin NPROC) {c : Pc} (hc : c.child? = none) (q : Fin NPROC) :
    (w.goto p c).pc q = w.pc q ∨ ((w.goto p c).pc q).child? = none := by
  by_cases hq : q = p
  · rw [hq,World.goto_pc_self]
    exact .inr hc
  · exact .inl (World.goto_pc_of_ne hq)

theorem child?_of_goto {w : World} {p q np : Fin NPROC} {c : Pc} (hc : c.child? = none)
    (h : ((w.goto p c).pc q).child? = some np) : q ≠ p ∧ (w.pc q).child? = some np := by
  by_cases hq : q = p
  · rw [hq,World.goto_pc_self,hc] at h
    cases h
  · rw [World.goto_pc_of_ne hq] at h
    exact ⟨hq,h⟩

theorem Did.quiet_or_changes {w w' : World} {m : Move} (h : Did w m w') :
    Quiet w w' ∨ Changes w m w' := by
  have hrefl : w.table.Moves w.table := ⟨rfl,fun _ => rfl,fun _ => rfl,fun _ => .inl rfl⟩
  have hlive : ∀ {p}, w.state p = .running → (w.state p).Live := fun h => .inr (.inr h)
  cases h with
  | changes h => exact .inr h
  | noSlot => exact .inl ⟨hrefl,fun _ => .inl rfl,rfl,rfl,rfl,rfl,rfl⟩
  | @waitFail p hw hpc => exact .inl ⟨hrefl,goto_pc w p rfl,rfl,rfl,rfl,rfl,rfl⟩
  | @waitSleep p hrun =>
    exact .inl ⟨sleep_moves _ (hlive hrun),goto_pc w p rfl,rfl,rfl,rfl,rfl,rfl⟩
  | kill => exact .inl ⟨kill_moves _,fun _ => .inl rfl,rfl,rfl,rfl,rfl,rfl⟩
  | sleep hrun =>
    exact .inl ⟨sleep_moves _ (hlive hrun),fun _ => .inl rfl,rfl,rfl,rfl,rfl,rfl⟩
  | wakeup => exact .inl ⟨wakeup1_moves _,fun _ => .inl rfl,rfl,rfl,rfl,rfl,rfl⟩
  | yield hrun =>
    exact .inl ⟨setState_moves (hlive hrun) (.inr (.inl rfl)),fun _ => .inl rfl,rfl,rfl,
      rfl,rfl,rfl⟩
  | fault => exact .inl ⟨fault_moves,fun _ => .inl rfl,rfl,rfl,rfl,rfl,rfl⟩
  | scheduler hrun =>
    exact .inl ⟨resume_moves (.inr (.inl hrun)),fun _ => .inl rfl,rfl,rfl,rfl,rfl,rfl⟩
  | intr => exact .inl ⟨wakeup1_moves _,fun _ => .inl rfl,rfl,rfl,rfl,rfl,rfl⟩

/-- A process that is in `fork` is live, and its new process is an embryo that is nobody else's. -/
structure Forking (w : World) : Prop where
  live : ∀ p np, (w.pc p).child? = some np → (w.state p).Live
  embryo : ∀ p np, (w.pc p).child? = some np → w.state np = .embryo
  unique : ∀ p q np, (w.pc p).child? = some np → (w.pc q).child? = some np → p = q

namespace Forking
variable {w w' : World} {p q np : Fin NPROC} {m : Move}

theorem init : Forking World.init := by
  refine ⟨?_,?_,?_⟩
  all_goals intros; contradiction

variable (h : Forking w)
include h

theorem ne_embryo (hp : (w.pc p).child? = some np) (hq : w.state q ≠ .embryo) :
    q ≠ np := fun he => hq (he ▸ h.embryo p np hp)

/-- No process goes on with `fork` that was not there, and those that are there are not touched. -/
theorem frame (hpc : ∀ p np, (w'.pc p).child? = some np → (w.pc p).child? = some np)
    (hlive : ∀ p np, (w'.pc p).child? = some np → (w.state p).Live → (w'.state p).Live)
    (hstate : ∀ p np, (w'.pc p).child? = some np → w.state np = .embryo → w'.state np = .embryo) :
    Forking w' :=
  ⟨fun p np hp => hlive p np hp (h.live p np (hpc p np hp)),
    fun p np hp => hstate p np hp (h.embryo p np (hpc p np hp)),
    fun p q np hp hq => h.unique p q np (hpc p np hp) (hpc q np hq)⟩

theorem quiet (hq : Quiet w w') : Forking w' :=
  h.frame (fun _ _ hp => hq.child? hp ▸ hp) (fun _ _ _ => hq.moves.live.mpr)
    (fun _ _ _ => (hq.moves.state_eq (by decide)).mpr)

theorem alloc (hrun : w.state p = .running) (hnp : w.state np = .unused) :
    Forking (w.alloc p np) := by
  have hstate : ∀ i, (w.alloc p np).state i = if i = np then .embryo else w.state i :=
    fun i => apply_set Proc.state
  have hchild : ∀ q x, ((w.alloc p np).pc q).child? = some x →
      q = p ∧ x = np ∨ q ≠ p ∧ (w.pc q).child? = some x := fun q x hq => by
    by_cases hqp : q = p
    · subst hqp
      simp only [World.alloc,World.goto,update_self,Pc.child?,Option.some.injEq] at hq
      exact .inl ⟨rfl,hq.symm⟩
    · simp only [World.alloc,World.goto,update_of_ne hqp] at hq
      exact .inr ⟨hqp,hq⟩
  have hne : ∀ q x, (w.pc q).child? = some x → x ≠ np := fun q x hq he => by
    have := h.embryo q x hq
    rw [he,hnp] at this
    cases this
  refine ⟨fun q x hq => ?_,fun q x hq => ?_,fun q r x hq hr => ?_⟩
  · rw [hstate]
    rcases hchild q x hq with ⟨rfl,-⟩ | ⟨-,hq⟩
    · have hqn : q ≠ np := fun he => by
        rw [he,hnp] at hrun
        cases hrun
      rw [if_neg hqn,hrun]
      decide
    · have hl := h.live q x hq
      have hqn : q ≠ np := fun he => by
        rw [he,hnp] at hl
        exact absurd hl (by decide)
      rwa [if_neg hqn]
  · rw [hstate]
    rcases hchild q x hq with ⟨-,rfl⟩ | ⟨-,hq⟩
    · exact if_pos rfl
    · rw [if_neg (hne q x hq)]
      exact h.embryo q x hq
  · rcases hchild q x hq with ⟨hqp,hx⟩ | ⟨-,hq'⟩
    · rcases hchild r x hr with ⟨hrp,-⟩ | ⟨-,hr'⟩
      · exact hqp.trans hrp.symm
      · exact absurd hx (hne r x hr')
    · rcases hchild r x hr with ⟨-,hx⟩ | ⟨-,hr'⟩
      · exact absurd hx (hne q x hq')
      · exact h.unique q r x hq' hr'

/-- The embryo of a process that leaves `fork` is started or given up. -/
theorem leave {s : ProcState} (hp : (w.pc p).child? = some np)
    (ht : w'.table = w.table.setState np s)
    (hpc : ∀ q x, (w'.pc q).child? = some x → q ≠ p ∧ (w.pc q).child? = some x) : Forking w' := by
  have hstate : ∀ i, i ≠ np → w'.state i = w.state i := fun i hi => by
    rw [World.state,ht,setState,set_of_ne hi,World.state]
  refine h.frame (fun q x hq => (hpc q x hq).2) (fun q x hq hl => ?_) (fun q x hq he => ?_)
  · rwa [hstate q (h.ne_embryo hp fun he => by rw [he] at hl; exact absurd hl (by decide))]
  · rwa [hstate x fun hx => (hpc q x hq).1 (h.unique q p np (hx ▸ (hpc q x hq).2) hp)]

theorem changes (hc : Changes w m w') : Forking w' := by
  cases hc with
  | alloc hrun hpc hnp => exact h.alloc hrun (unused?_state hnp)
  | @forkFail p np hpc =>
    exact h.leave (by rw [hpc]; rfl) rfl (fun q x hq => child?_of_goto rfl hq)
  | @forkCopy p np hpc =>
    have hstate : ∀ i, ((w.table.setParent np p).proc i).state = w.state i :=
      fun i => setParent_state
    refine h.frame (fun q x hq => ?_) (fun q x _ hl => ?_) (fun q x _ he => (hstate x).trans he)
    · by_cases hqp : q = p
      · subst hqp
        simpa [World.goto,Pc.child?,hpc] using hq
      · simpa [World.goto,hqp] using hq
    · exact hl.of_eq (hstate q)
  | @forkDone p np hpc =>
    refine h.leave (by rw [hpc]; rfl) rfl (fun q x hq => ?_)
    exact child?_of_goto rfl (child?_of_goto rfl hq).2
  | @exit p hrun hpc hne =>
    have he := exit_exits (t := w.table) hne
    refine h.frame (fun q x hq => hq) (fun q x hq hl => ?_) (fun q x hq hx => ?_)
    · have hqp : q ≠ p := fun he => by
        have : ((w.pc q).child?) = some x := hq
        rw [he,hpc] at this
        cases this
      rcases he.state q hqp with hs | ⟨-,hs⟩
      · exact hl.of_eq hs
      · exact .inr (.inl hs)
    · have hxp : x ≠ p := fun he => by
        rw [he,hrun] at hx
        cases hx
      rcases he.state x hxp with hs | ⟨hs,-⟩
      · exact hs.trans hx
      · rw [World.state,hs] at hx
        cases hx
  | @reap p c hrun hc hpc =>
    have hz : w.state c = .zombie := (zombieChild?_some hc).2
    have hstate : ∀ i, i ≠ c → ((w.table.reap c).proc i).state = w.state i := fun i hi => by
      rw [reap,set_of_ne hi,World.state]
    refine h.frame (fun q x hq => (child?_of_goto rfl hq).2) (fun q x _ hl => ?_)
      (fun q x _ hx => ?_)
    · refine hl.of_eq (hstate q fun he => ?_)
      rw [he,hz] at hl
      exact absurd hl (by decide)
    · refine (hstate x fun he => ?_).trans hx
      rw [he,hz] at hx
      cases hx

theorem step (hs : w.step m = some w') : Forking w' := by
  rcases (Did.of_step hs).quiet_or_changes with hq | hc
  · exact h.quiet hq
  · exact h.changes hc

end Forking

end Xv6.Procs
