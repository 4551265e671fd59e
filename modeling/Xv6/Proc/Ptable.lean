import Mathlib.Data.List.FinRange
import Mathlib.Data.List.Induction
import Xv6.Param

/-! # `proc.c`: the process table

The sections that run under `ptable.lock`.  A pointer to a process is the index of its slot.
Of `struct proc` the fields are modelled that these sections use: not the memory, the stack, the
files and the name of a process. -/
namespace Xv6.Procs
open Function (update)
open List

inductive ProcState where
  | unused
  | embryo
  | sleeping
  | runnable
  | running
  | zombie
  deriving DecidableEq, Repr

/-- The process has been started and has not exited. -/
def ProcState.Live (s : ProcState) : Prop := s = .sleeping ∨ s = .runnable ∨ s = .running

instance (s : ProcState) : Decidable s.Live :=
  inferInstanceAs (Decidable (s = .sleeping ∨ s = .runnable ∨ s = .running))

theorem ProcState.Live.of_eq {s s' : ProcState} (h : s.Live) (he : s' = s) : s'.Live := he ▸ h

/-- The address that a process sleeps on: that of a process, or another one. -/
inductive Chan where
  | proc (i : Fin NPROC)
  | other (n : ℕ)
  deriving DecidableEq, Repr

structure Proc where
  state : ProcState
  pid : Int32
  parent : Option (Fin NPROC)
  chan : Option Chan
  killed : Bool
  deriving DecidableEq

structure Ptable where
  proc : Fin NPROC → Proc
  nextpid : Int32

/-- The slot that `userinit` takes. -/
def initproc : Fin NPROC := ⟨0,by decide⟩

namespace Ptable
variable (t : Ptable)

def set (i : Fin NPROC) (x : Proc) : Ptable := { t with proc := update t.proc i x }

/-- The loop of `allocproc`. -/
def unused? : Option (Fin NPROC) :=
  (List.finRange NPROC).find? fun i => (t.proc i).state == .unused

/-- `allocproc` from `found` on to its `release`. -/
def allocproc (i : Fin NPROC) : Ptable :=
  { t.set i { t.proc i with state := .embryo, pid := t.nextpid } with nextpid := t.nextpid + 1 }

def setState (i : Fin NPROC) (s : ProcState) : Ptable := t.set i { t.proc i with state := s }

def setParent (i curproc : Fin NPROC) : Ptable := t.set i { t.proc i with parent := some curproc }

def wakeup1 (chan : Option Chan) : Ptable :=
  { t with
    proc := fun i =>
      if (t.proc i).state = .sleeping ∧ (t.proc i).chan = chan then
        { t.proc i with state := .runnable }
      else t.proc i }

def find? (pid : Int32) : Option (Fin NPROC) :=
  (List.finRange NPROC).find? fun i => (t.proc i).pid == pid

def kill (pid : Int32) : ℤ × Ptable :=
  match t.find? pid with
  | some i =>
    (0,t.set i { t.proc i with
      killed := true
      state := if (t.proc i).state = .sleeping then .runnable else (t.proc i).state })
  | none => (-1,t)

/-- One turn of the loop of `exit`. -/
def abandon (curproc : Fin NPROC) (t : Ptable) (i : Fin NPROC) : Ptable :=
  if (t.proc i).parent = some curproc then
    let t' := t.set i { t.proc i with parent := some initproc }
    if (t'.proc i).state = .zombie then t'.wakeup1 (some (.proc initproc)) else t'
  else t

/-- `exit` under the lock, up to `sched`. -/
def exit (curproc : Fin NPROC) : Ptable :=
  let t := t.wakeup1 ((t.proc curproc).parent.map .proc)
  let t := (List.finRange NPROC).foldl (abandon curproc) t
  t.setState curproc .zombie

def havekids (curproc : Fin NPROC) : Bool :=
  (List.finRange NPROC).any fun i => (t.proc i).parent == some curproc

def zombieChild? (curproc : Fin NPROC) : Option (Fin NPROC) :=
  (List.finRange NPROC).find? fun i =>
    (t.proc i).parent == some curproc && (t.proc i).state == .zombie

/-- `wait` clears the slot of the child. -/
def reap (i : Fin NPROC) : Ptable :=
  t.set i { t.proc i with pid := 0, parent := none, killed := false, state := .unused }

/-- `sleep` under the lock, up to `sched`. -/
def sleep (i : Fin NPROC) (chan : Chan) : Ptable :=
  t.set i { t.proc i with chan := some chan, state := .sleeping }

/-- The scheduler switches to the process, which clears `p->chan` if it was in `sleep`. -/
def resume (i : Fin NPROC) : Ptable := t.set i { t.proc i with state := .running, chan := none }

/-- `trap` after an exception in user mode. -/
def fault (i : Fin NPROC) : Ptable := t.set i { t.proc i with killed := true }

inductive WaitResult where
  | reaped (child : Fin NPROC) (pid : Int32) (t : Ptable)
  /-- -1 is returned -/
  | failed
  | asleep (t : Ptable)

def wait (curproc : Fin NPROC) : WaitResult :=
  match t.zombieChild? curproc with
  | some i => .reaped i (t.proc i).pid (t.reap i)
  | none =>
    if !t.havekids curproc || (t.proc curproc).killed then .failed
    else .asleep (t.sleep curproc (.proc curproc))

def boot : Ptable := ⟨fun _ => ⟨.unused,0,none,none,false⟩,1⟩

def userinit : Ptable := (boot.allocproc initproc).setState initproc .runnable

example : boot.unused? = some initproc := by decide

section Lemmas
variable {t} {i j curproc : Fin NPROC} {x : Proc}

@[simp] theorem set_self : (t.set i x).proc i = x := Function.update_self _ _ _

@[simp] theorem set_of_ne (h : j ≠ i) : (t.set i x).proc j = t.proc j :=
  Function.update_of_ne h _ _

theorem apply_set {α : Type} (f : Proc → α) :
    f ((t.set i x).proc j) = if j = i then f x else f (t.proc j) := by
  by_cases hj : j = i
  · rw [if_pos hj,hj,set_self]
  · rw [if_neg hj,set_of_ne hj]

theorem apply_set_same {α : Type} (f : Proc → α) (h : f x = f (t.proc i)) (j : Fin NPROC) :
    f ((t.set i x).proc j) = f (t.proc j) := by
  rw [apply_set f]
  split
  · rename_i hj
    rw [hj,h]
  · rfl

section Fields
variable {s : ProcState}

@[simp] theorem setState_state :
    ((t.setState i s).proc j).state = if j = i then s else (t.proc j).state :=
  apply_set Proc.state

@[simp] theorem setParent_parent :
    ((t.setParent i curproc).proc j).parent = if j = i then some curproc else (t.proc j).parent :=
  apply_set Proc.parent

@[simp] theorem allocproc_state :
    ((t.allocproc i).proc j).state = if j = i then .embryo else (t.proc j).state :=
  apply_set Proc.state

@[simp] theorem allocproc_pid :
    ((t.allocproc i).proc j).pid = if j = i then t.nextpid else (t.proc j).pid :=
  apply_set Proc.pid

@[simp] theorem setState_pid : ((t.setState i s).proc j).pid = (t.proc j).pid :=
  apply_set_same Proc.pid (by rfl) j

@[simp] theorem setState_parent : ((t.setState i s).proc j).parent = (t.proc j).parent :=
  apply_set_same Proc.parent (by rfl) j

@[simp] theorem setState_killed : ((t.setState i s).proc j).killed = (t.proc j).killed :=
  apply_set_same Proc.killed (by rfl) j

@[simp] theorem setParent_state : ((t.setParent i curproc).proc j).state = (t.proc j).state :=
  apply_set_same Proc.state (by rfl) j

@[simp] theorem setParent_pid : ((t.setParent i curproc).proc j).pid = (t.proc j).pid :=
  apply_set_same Proc.pid (by rfl) j

@[simp] theorem setParent_killed : ((t.setParent i curproc).proc j).killed = (t.proc j).killed :=
  apply_set_same Proc.killed (by rfl) j

@[simp] theorem allocproc_parent : ((t.allocproc i).proc j).parent = (t.proc j).parent :=
  apply_set_same Proc.parent (by rfl) j

@[simp] theorem allocproc_killed : ((t.allocproc i).proc j).killed = (t.proc j).killed :=
  apply_set_same Proc.killed (by rfl) j

@[simp] theorem sleep_killed {chan : Chan} :
    ((t.sleep i chan).proc j).killed = (t.proc j).killed := apply_set_same Proc.killed (by rfl) j

@[simp] theorem resume_killed : ((t.resume i).proc j).killed = (t.proc j).killed :=
  apply_set_same Proc.killed (by rfl) j

theorem reap_of_ne (h : j ≠ i) : (t.reap i).proc j = t.proc j := set_of_ne h

end Fields

theorem unused?_state (h : t.unused? = some i) : (t.proc i).state = .unused := by
  simpa using List.find?_some h

theorem find?_pid {pid : Int32} (h : t.find? pid = some i) : (t.proc i).pid = pid := by
  simpa using List.find?_some h

theorem find?_eq_none {pid : Int32} : t.find? pid = none ↔ ∀ i, (t.proc i).pid ≠ pid := by
  simp [find?,List.find?_eq_none]

theorem zombieChild?_some (h : t.zombieChild? curproc = some i) :
    (t.proc i).parent = some curproc ∧ (t.proc i).state = .zombie := by
  simpa using List.find?_some h

theorem zombieChild?_none (h : t.zombieChild? curproc = none) (i : Fin NPROC)
    (hp : (t.proc i).parent = some curproc) : (t.proc i).state ≠ .zombie := by
  have := List.find?_eq_none.mp h i (mem_finRange i)
  simpa [hp] using this

theorem havekids_iff : t.havekids curproc = true ↔ ∃ i, (t.proc i).parent = some curproc := by
  simp [havekids]

structure Wakes (t t' : Ptable) : Prop where
  nextpid : t'.nextpid = t.nextpid
  pid : ∀ i, (t'.proc i).pid = (t.proc i).pid
  chan : ∀ i, (t'.proc i).chan = (t.proc i).chan
  killed : ∀ i, (t'.proc i).killed = (t.proc i).killed
  state : ∀ i, (t'.proc i).state = (t.proc i).state ∨
    ((t.proc i).state = .sleeping ∧ (t'.proc i).state = .runnable)

theorem Wakes.refl (t : Ptable) : Wakes t t :=
  ⟨rfl,fun _ => rfl,fun _ => rfl,fun _ => rfl,fun _ => .inl rfl⟩

theorem Wakes.trans {t1 t2 t3 : Ptable} (h : Wakes t1 t2) (h' : Wakes t2 t3) : Wakes t1 t3 := by
  refine ⟨h'.nextpid.trans h.nextpid,fun i => (h'.pid i).trans (h.pid i),
    fun i => (h'.chan i).trans (h.chan i),fun i => (h'.killed i).trans (h.killed i),fun i => ?_⟩
  rcases h.state i with h1 | ⟨h1,h2⟩
  · rcases h'.state i with h3 | ⟨h3,h4⟩
    · exact .inl (h3.trans h1)
    · exact .inr ⟨h1 ▸ h3,h4⟩
  · rcases h'.state i with h3 | ⟨h3,h4⟩
    · exact .inr ⟨h1,h3.trans h2⟩
    · exact .inr ⟨h1,h4⟩

theorem Wakes.sleeping {t t' : Ptable} (h : Wakes t t') (hs : (t'.proc i).state = .sleeping) :
    (t.proc i).state = .sleeping := by
  rcases h.state i with h1 | ⟨h1,-⟩
  · rw [← h1,hs]
  · exact h1

theorem Wakes.zombie {t t' : Ptable} (h : Wakes t t') :
    (t'.proc i).state = .zombie ↔ (t.proc i).state = .zombie := by
  rcases h.state i with h1 | ⟨h1,h2⟩
  · rw [h1]
  · rw [h1,h2]
    decide

theorem wakeup1_wakes (chan : Option Chan) : Wakes t (t.wakeup1 chan) := by
  have hi : ∀ i, (t.wakeup1 chan).proc i = if (t.proc i).state = .sleeping ∧ (t.proc i).chan = chan
      then { t.proc i with state := .runnable } else t.proc i := fun _ => rfl
  refine ⟨rfl,fun i => ?_,fun i => ?_,fun i => ?_,fun i => ?_⟩
  all_goals rw [hi]; split
  · rfl
  · rfl
  · rfl
  · rfl
  · rfl
  · rfl
  · exact .inr ⟨‹_ ∧ _›.1,rfl⟩
  · exact .inl rfl

@[simp] theorem wakeup1_parent (chan : Option Chan) :
    ((t.wakeup1 chan).proc i).parent = (t.proc i).parent := by
  unfold wakeup1
  dsimp only
  split <;> rfl

theorem wakeup1_chan {chan : Option Chan} (h : ((t.wakeup1 chan).proc i).state = .sleeping) :
    (t.proc i).chan ≠ chan := by
  intro hc
  have hs := (wakeup1_wakes chan).sleeping h
  simp [wakeup1,hs,hc] at h

theorem abandon_wakes (curproc : Fin NPROC) (t : Ptable) (i : Fin NPROC) :
    Wakes t (abandon curproc t i) := by
  have hset : Wakes t (t.set i { t.proc i with parent := some initproc }) := by
    refine ⟨rfl,fun j => ?_,fun j => ?_,fun j => ?_,fun j => .inl ?_⟩
    all_goals
      by_cases hj : j = i
      · subst hj; rw [set_self]
      · rw [set_of_ne hj]
  unfold abandon
  split
  · dsimp only
    split
    · exact hset.trans (wakeup1_wakes _)
    · exact hset
  · exact .refl t

theorem abandon_parent (curproc : Fin NPROC) (t : Ptable) (i j : Fin NPROC) :
    ((abandon curproc t i).proc j).parent =
      if j = i ∧ (t.proc j).parent = some curproc then some initproc else (t.proc j).parent := by
  have hset : ((t.set i { t.proc i with parent := some initproc }).proc j).parent =
      if j = i then some initproc else (t.proc j).parent := by
    by_cases hj : j = i
    · subst hj
      rw [set_self,if_pos rfl]
    · rw [set_of_ne hj,if_neg hj]
  unfold abandon
  by_cases hp : (t.proc i).parent = some curproc
  · have hcond : j = i ∧ (t.proc j).parent = some curproc ↔ j = i :=
      ⟨fun h => h.1,fun h => ⟨h,h ▸ hp⟩⟩
    rw [if_pos hp,if_congr hcond rfl rfl,← hset]
    dsimp only
    split
    · exact wakeup1_parent _
    · rfl
  · rw [if_neg hp,if_neg]
    rintro ⟨rfl,h⟩
    exact hp h

section Exit
variable {l : List (Fin NPROC)}

theorem foldl_abandon_wakes (curproc : Fin NPROC) : Wakes t (l.foldl (abandon curproc) t) := by
  induction l generalizing t with
  | nil => exact .refl t
  | cons a l ih => exact (abandon_wakes curproc t a).trans ih

theorem foldl_abandon_parent (hne : curproc ≠ initproc) :
    ((l.foldl (abandon curproc) t).proc i).parent =
      if i ∈ l ∧ (t.proc i).parent = some curproc then some initproc else (t.proc i).parent := by
  induction l generalizing t with
  | nil => simp
  | cons a l ih =>
    rw [foldl_cons,ih,abandon_parent]
    by_cases hp : (t.proc i).parent = some curproc
    · by_cases hia : i = a
      · subst hia
        simp [hp,Ne.symm hne]
      · simp [hia,hp]
    · simp [hp]

/-- The loop of `exit` wakes init if a child has exited. -/
theorem foldl_abandon_zombie (curproc : Fin NPROC) (hj : j ∈ l)
    (hp : (t.proc j).parent = some curproc) (hz : (t.proc j).state = .zombie)
    (hs : ((l.foldl (abandon curproc) t).proc i).state = .sleeping) :
    (t.proc i).chan ≠ some (.proc initproc) := by
  induction l generalizing t with
  | nil => cases hj
  | cons a l ih =>
    rw [foldl_cons] at hs
    have hw := abandon_wakes curproc t a
    by_cases hja : j = a
    · subst hja
      have hs' := (foldl_abandon_wakes curproc).sleeping hs
      simp only [abandon,hp,if_true,set_self,hz] at hs'
      have := wakeup1_chan hs'
      intro hc
      refine this ?_
      by_cases hij : i = j
      · subst hij
        rw [set_self]
        exact hc
      · rw [set_of_ne hij]
        exact hc
    · rw [← hw.chan i]
      refine ih (mem_of_ne_of_mem hja hj) ?_ (hw.zombie.mpr hz) hs
      rw [abandon_parent,if_neg (fun h => hja h.1)]
      exact hp

structure Exits (t t' : Ptable) (curproc : Fin NPROC) : Prop where
  nextpid : t'.nextpid = t.nextpid
  pid : ∀ i, (t'.proc i).pid = (t.proc i).pid
  chan : ∀ i, (t'.proc i).chan = (t.proc i).chan
  killed : ∀ i, (t'.proc i).killed = (t.proc i).killed
  self : (t'.proc curproc).state = .zombie
  state : ∀ i, i ≠ curproc → (t'.proc i).state = (t.proc i).state ∨
    ((t.proc i).state = .sleeping ∧ (t'.proc i).state = .runnable)
  parent : ∀ i, (t'.proc i).parent =
    if (t.proc i).parent = some curproc then some initproc else (t.proc i).parent
  wakesParent : ∀ i, i ≠ curproc → (t'.proc i).state = .sleeping →
    (t.proc i).chan ≠ (t.proc curproc).parent.map .proc
  wakesInit : ∀ i j, i ≠ curproc → (t'.proc i).state = .sleeping →
    (t.proc j).parent = some curproc → (t.proc j).state = .zombie →
    (t.proc i).chan ≠ some (.proc initproc)

theorem exit_exits (hne : curproc ≠ initproc) : Exits t (t.exit curproc) curproc := by
  have hw1 := wakeup1_wakes (t := t) ((t.proc curproc).parent.map .proc)
  generalize ht1 : t.wakeup1 ((t.proc curproc).parent.map .proc) = t1 at hw1
  have hw2 := foldl_abandon_wakes (t := t1) (l := List.finRange NPROC) curproc
  have hpar := fun i => foldl_abandon_parent (t := t1) (i := i) (l := List.finRange NPROC) hne
  have hzom := fun i j => foldl_abandon_zombie (t := t1) (i := i) (j := j)
    (l := List.finRange NPROC) curproc (mem_finRange j)
  have hexit : t.exit curproc = ((List.finRange NPROC).foldl (abandon curproc) t1).setState curproc
      .zombie := by rw [exit,ht1]
  generalize (List.finRange NPROC).foldl (abandon curproc) t1 = t2 at hw2 hpar hzom hexit
  have hw := hw1.trans hw2
  rw [hexit,setState]
  have hsame : ∀ i, i ≠ curproc →
      (t2.set curproc { t2.proc curproc with state := .zombie }).proc i = t2.proc i :=
    fun i hi => set_of_ne hi
  have hparent : ∀ i, (t1.proc i).parent = (t.proc i).parent := fun i => by
    rw [← ht1,wakeup1_parent]
  refine ⟨hw.nextpid,fun i => ?_,fun i => ?_,fun i => ?_,by rw [set_self],fun i hi => ?_,
    fun i => ?_,fun i hi hs => ?_,fun i j hi hs hp hz => ?_⟩
  · by_cases hi : i = curproc
    · rw [hi,set_self]
      exact hw.pid curproc
    · rw [hsame i hi]
      exact hw.pid i
  · by_cases hi : i = curproc
    · rw [hi,set_self]
      exact hw.chan curproc
    · rw [hsame i hi]
      exact hw.chan i
  · by_cases hi : i = curproc
    · rw [hi,set_self]
      exact hw.killed curproc
    · rw [hsame i hi]
      exact hw.killed i
  · rw [hsame i hi]
    exact hw.state i
  · have hi := hpar i
    simp only [mem_finRange,true_and,hparent] at hi
    by_cases hic : i = curproc
    · rw [hic,set_self]
      rwa [hic] at hi
    · rwa [hsame i hic]
  · rw [hsame i hi] at hs
    have hs1 := hw2.sleeping hs
    rw [← ht1] at hs1
    exact wakeup1_chan hs1
  · rw [hsame i hi] at hs
    rw [← hw1.chan i]
    exact hzom i j ((hparent j).trans hp) (hw1.zombie.mpr hz) hs

end Exit

/-- The processes that have started go on; nothing else happens in the table but that some may
be marked as killed. -/
structure Moves (t t' : Ptable) : Prop where
  nextpid : t'.nextpid = t.nextpid
  pid : ∀ i, (t'.proc i).pid = (t.proc i).pid
  parent : ∀ i, (t'.proc i).parent = (t.proc i).parent
  state : ∀ i, (t'.proc i).state = (t.proc i).state ∨
    (t.proc i).state.Live ∧ (t'.proc i).state.Live

section Moves
variable {t' : Ptable} (h : Moves t t')
include h

theorem Moves.live : (t'.proc i).state.Live ↔ (t.proc i).state.Live := by
  rcases h.state i with hs | ⟨hs,hs'⟩
  · rw [hs]
  · exact ⟨fun _ => hs,fun _ => hs'⟩

/-- A state that is not live is kept. -/
theorem Moves.state_eq {s : ProcState} (hs : ¬ s.Live) :
    (t'.proc i).state = s ↔ (t.proc i).state = s := by
  rcases h.state i with he | ⟨hl,hl'⟩
  · rw [he]
  · refine ⟨fun he => ?_,fun he => ?_⟩
    · exact absurd (he ▸ hl') hs
    · exact absurd (he ▸ hl) hs

end Moves

theorem set_moves (hpid : x.pid = (t.proc i).pid) (hpar : x.parent = (t.proc i).parent)
    (hs : x.state = (t.proc i).state ∨ (t.proc i).state.Live ∧ x.state.Live) :
    Moves t (t.set i x) := by
  have hj : ∀ j, j = i ∧ (t.set i x).proc j = x ∨ (t.set i x).proc j = t.proc j := fun j => by
    by_cases hj : j = i
    · exact .inl ⟨hj,hj ▸ set_self⟩
    · exact .inr (set_of_ne hj)
  refine ⟨rfl,fun j => ?_,fun j => ?_,fun j => ?_⟩
  all_goals
    rcases hj j with ⟨rfl,he⟩ | he
    all_goals rw [he]
  · exact hpid
  · exact hpar
  · exact hs
  · exact .inl rfl

theorem setState_moves {s : ProcState} (h : (t.proc i).state.Live) (hs : s.Live) :
    Moves t (t.setState i s) := set_moves rfl rfl (.inr ⟨h,hs⟩)

theorem sleep_moves (chan : Chan) (h : (t.proc i).state.Live) : Moves t (t.sleep i chan) :=
  set_moves rfl rfl (.inr ⟨h,.inl rfl⟩)

theorem resume_moves (h : (t.proc i).state.Live) : Moves t (t.resume i) :=
  set_moves rfl rfl (.inr ⟨h,.inr (.inr rfl)⟩)

theorem fault_moves : Moves t (t.fault i) := set_moves rfl rfl (.inl rfl)

theorem wakeup1_moves (chan : Option Chan) : Moves t (t.wakeup1 chan) := by
  have hw := wakeup1_wakes (t := t) chan
  refine ⟨hw.nextpid,hw.pid,fun i => wakeup1_parent chan,fun i => ?_⟩
  rcases hw.state i with hs | ⟨hs,hs'⟩
  · exact .inl hs
  · exact .inr ⟨.inl hs,.inr (.inl hs')⟩

theorem kill_moves (pid : Int32) : Moves t (t.kill pid).2 := by
  unfold kill
  split
  · refine set_moves rfl rfl ?_
    split
    · exact .inr ⟨.inl ‹_›,.inr (.inl rfl)⟩
    · exact .inl rfl
  · exact ⟨rfl,fun _ => rfl,fun _ => rfl,fun _ => .inl rfl⟩

end Lemmas
end Ptable
end Xv6.Procs
