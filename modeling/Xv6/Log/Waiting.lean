import Mathlib.Data.Fintype.Card
import Xv6.Log.Section

/-! # Waiting for the log

`begin_op` sleeps on `&log` while a commit runs or the log has no room.  Here the
two spin locks `log.lock` and `ptable.lock` are part of the state, and `sleep` and
`wakeup` take the steps that decide whether a wakeup can be missed: `sleep` gives up
`log.lock` only with `ptable.lock` held, and `wakeup` needs `ptable.lock`. -/
namespace Xv6.Waiting
open Function Finset

inductive Pc where
  | idle
  /-- `acquire(&log.lock)` of `begin_op`, or of `sleep` when it returns -/
  | beginAcquire
  /-- the top of the loop of `begin_op` -/
  | beginTest
  /-- `acquire(&ptable.lock)` of `sleep` -/
  | sleepAcquire
  /-- `release(lk)` of `sleep` -/
  | sleepRelease
  /-- `p->state = SLEEPING; sched();` -/
  | sleepSet
  | sleeping
  /-- `RUNNABLE`, until the scheduler picks the process -/
  | woken
  /-- back from `sched` with `ptable.lock` held -/
  | resumed
  | inOp
  /-- `log_write` has made its tests -/
  | logAcquire (b : ℕ)
  | logUpdate (b : ℕ)
  | endAcquire
  /-- `end_op` with `log.lock` held -/
  | endTest
  /-- `acquire(&ptable.lock)` of `wakeup` -/
  | wakeAcquire
  /-- `wakeup1(&log)` -/
  | wakeup
  /-- `release(&log.lock)` of `end_op`, with `do_commit` -/
  | endRelease (doCommit : Bool)
  /-- `commit` up to `install_trans` -/
  | commit
  /-- `log.lh.n = 0` -/
  | clear
  /-- the second `write_head` of `commit` -/
  | erase
  | commitAcquire
  /-- `log.committing = 0` -/
  | commitDone
  deriving DecidableEq

namespace Pc

def holdsLog : Pc → Bool
  | beginTest | sleepAcquire | sleepRelease | logUpdate _ | endTest | wakeAcquire | wakeup
  | endRelease _ | commitDone => true
  | _ => false

def holdsPtable : Pc → Bool
  | sleepRelease | sleepSet | resumed | wakeup => true
  | _ => false

def inside : Pc → Bool
  | inOp | logAcquire _ | logUpdate _ | endAcquire | endTest => true
  | _ => false

def inCommit : Pc → Bool
  | endRelease true | commit | clear | erase | commitAcquire | commitDone => true
  | _ => false

/-- `commit` has emptied the header. -/
def drained : Pc → Bool
  | erase | commitAcquire | commitDone => true
  | _ => false

def toSleep : Pc → Bool
  | sleepAcquire | sleepRelease | sleepSet | sleeping => true
  | _ => false

def waking : Pc → Bool
  | wakeAcquire | wakeup => true
  | _ => false

/-- `sleep` has given up `log.lock`: the process waits for a wakeup. -/
def asleep : Pc → Bool
  | sleepSet | sleeping => true
  | _ => false

def wake : Pc → Pc
  | sleeping => woken
  | c => c

end Pc

inductive Action where
  | beginOp
  | logWrite (b : ℕ)
  | endOp
  /-- the next step of the code that the process is in -/
  | run
  deriving DecidableEq

structure World (P : Type) where
  log : Log
  lock : Option P
  ptable : Option P
  pc : P → Pc
  panicked : Option LogPanic

variable {P : Type} [DecidableEq P]

namespace World

def goto (w : World P) (p : P) (c : Pc) : World P := { w with pc := update w.pc p c }

def panic (w : World P) (e : LogPanic) : World P := { w with panicked := some e }

/-- `acquire(&log.lock)`; a spin lock that is held is waited for. -/
def acquireLog (w : World P) (p : P) (c : Pc) : Option (World P) :=
  if w.lock = none then some { w.goto p c with lock := some p } else none

def acquirePtable (w : World P) (p : P) (c : Pc) : Option (World P) :=
  if w.ptable = none then some { w.goto p c with ptable := some p } else none

def releaseLog (w : World P) (p : P) (c : Pc) : World P := { w.goto p c with lock := none }

def releasePtable (w : World P) (p : P) (c : Pc) : World P := { w.goto p c with ptable := none }

/-- The loop body of `begin_op`, which sleeps or starts the operation. -/
def beginTest (w : World P) (p : P) : World P :=
  match w.log.beginOp with
  | none => w.goto p .sleepAcquire
  | some l => { w.releaseLog p .inOp with log := l }

/-- The first section of `end_op`. -/
def endTest (w : World P) (p : P) : World P :=
  match w.log.endOp with
  | .error e => w.panic e
  | .ok (true,l) => { w.goto p (.endRelease true) with log := l }
  | .ok (false,l) => { w.goto p .wakeAcquire with log := l }

/-- `wakeup1(&log)` and the release of `ptable.lock`. -/
def wakeAll (w : World P) (p : P) : World P :=
  { w with
    ptable := none
    pc := update (fun q => (w.pc q).wake) p (.endRelease false) }

/-- The next step of the code that `p` is in. -/
def run (w : World P) (p : P) : Option (World P) :=
  match w.pc p with
  | .idle | .inOp | .sleeping => none
  | .beginAcquire => w.acquireLog p .beginTest
  | .beginTest => some (w.beginTest p)
  | .sleepAcquire => w.acquirePtable p .sleepRelease
  | .sleepRelease => some (w.releaseLog p .sleepSet)
  | .sleepSet => some (w.releasePtable p .sleeping)
  | .woken => w.acquirePtable p .resumed
  | .resumed => some (w.releasePtable p .beginAcquire)
  | .logAcquire b => w.acquireLog p (.logUpdate b)
  | .logUpdate b => some { w.releaseLog p .inOp with log := w.log.logWriteUpdate b }
  | .endAcquire => w.acquireLog p .endTest
  | .endTest => some (w.endTest p)
  | .wakeAcquire => w.acquirePtable p .wakeup
  | .wakeup => some (w.wakeAll p)
  | .endRelease doCommit => some (w.releaseLog p (if doCommit then .commit else .idle))
  | .commit => some (w.goto p (if w.log.n > 0 then .clear else .commitAcquire))
  | .clear => some { w.goto p .erase with log := w.log.clear }
  | .erase => some (w.goto p .commitAcquire)
  | .commitAcquire => w.acquireLog p .commitDone
  | .commitDone => some { w.goto p .wakeAcquire with log := w.log.endCommit }

def step (w : World P) (p : P) (a : Action) : Option (World P) :=
  if w.panicked.isSome then none
  else match a, w.pc p with
  | .beginOp, .idle => some (w.goto p .beginAcquire)
  | .logWrite b, .inOp =>
    match w.log.logWriteTest with
    | .error e => some (w.panic e)
    | .ok _ => some (w.goto p (.logAcquire b))
  | .endOp, .inOp => some (w.goto p .endAcquire)
  | .run, _ => w.run p
  | _, _ => none

def init (P : Type) (start size : ℕ) : World P where
  log := { start := start, size := size, outstanding := 0, committing := false, block := [] }
  lock := none
  ptable := none
  pc := fun _ => .idle
  panicked := none

def exec (w : World P) : List (P × Action) → Option (World P)
  | [] => some w
  | (p,a) :: rest => (w.step p a).bind fun w' => w'.exec rest

end World

inductive Reach (w₀ : World P) : World P → Prop where
  | init : Reach w₀ w₀
  | step {w w' : World P} {p : P} {a : Action} (h : Reach w₀ w) (hs : w.step p a = some w') :
      Reach w₀ w'

theorem Reach.of_exec {w0 w w' : World P} {sched : List (P × Action)} (h : Reach w0 w)
    (he : w.exec sched = some w') : Reach w0 w' := by
  induction sched generalizing w with
  | nil =>
    cases he
    exact h
  | cons pa rest ih =>
    obtain ⟨w1,hs,hr⟩ := Option.bind_eq_some_iff.mp he
    exact ih (.step h hs) hr

section Invariant
variable [Fintype P]

def active (pc : P → Pc) : Finset P := Finset.univ.filter fun p => (pc p).inside = true

def NoRoom (l : Log) : Prop := (l.n : ℤ) + (l.outstanding + 1) * MAXOPBLOCKS > LOGSIZE

structure Inv (w : World P) : Prop where
  lock : ∀ p, w.lock = some p ↔ (w.pc p).holdsLog = true
  ptable : ∀ p, w.ptable = some p ↔ (w.pc p).holdsPtable = true
  count : w.log.outstanding = (active w.pc).card
  quiet : w.log.committing = true → w.log.outstanding = 0
  committing : w.log.committing = true ↔ ∃ p, (w.pc p).inCommit = true
  single : ∀ p q, (w.pc p).inCommit = true → (w.pc q).inCommit = true → p = q
  drained : ∀ p, (w.pc p).drained = true → w.log.n = 0
  empty : w.log.committing = false → w.log.outstanding = 0 → w.log.n = 0
  /-- who sleeps has a reason to, or a wakeup is on its way -/
  sleepers : ∀ p, (w.pc p).toSleep = true →
    w.log.committing = true ∨ NoRoom w.log ∨ ∃ q, (w.pc q).waking = true

omit [DecidableEq P] in
theorem mem_active {f : P → Pc} {p : P} : p ∈ active f ↔ (f p).inside = true := by
  simp [active]

theorem active_update_same {f : P → Pc} {p : P} {a c : Pc} (ha : f p = a)
    (h : c.inside = a.inside) : active (update f p c) = active f := by
  ext q
  by_cases hq : q = p
  · subst hq; simp [mem_active,ha,h]
  · simp [mem_active,hq]

theorem card_active_enter {f : P → Pc} {p : P} {c : Pc} (h : (f p).inside = false)
    (hc : c.inside = true) : (active (update f p c)).card = (active f).card + 1 := by
  have he : active (update f p c) = insert p (active f) := by
    ext q
    by_cases hq : q = p
    · subst hq; simp [mem_active,hc]
    · simp [mem_active,hq]
  rw [he,card_insert_of_notMem (by simp [mem_active,h])]

theorem card_active_leave {f : P → Pc} {p : P} {c : Pc} (h : (f p).inside = true)
    (hc : c.inside = false) : (active (update f p c)).card + 1 = (active f).card := by
  -- back to its old place the process enters again
  have := card_active_enter (f := update f p c) (p := p) (by rwa [update_self]) h
  rwa [update_idem,update_eq_self,eq_comm] at this

omit [DecidableEq P] in
theorem Inv.init (start size : ℕ) : Inv (World.init P start size) := by
  constructor <;> simp [World.init,active,Pc.holdsLog,Pc.holdsPtable,Pc.inCommit,
    Pc.drained,Pc.toSleep,Pc.inside,Log.n]

omit [DecidableEq P] in
theorem Inv.outstanding_pos {w : World P} {p : P} (h : Inv w) (hp : (w.pc p).inside = true) :
    0 < w.log.outstanding := by
  have : 0 < (active w.pc).card := card_pos.mpr ⟨p,mem_active.mpr hp⟩
  have := h.count
  omega

omit [DecidableEq P] in
theorem Inv.not_committing {w : World P} {p : P} (h : Inv w) (hp : (w.pc p).inside = true) :
    w.log.committing = false ∧ ∀ q, (w.pc q).inCommit = false := by
  have hpos := h.outstanding_pos hp
  have hc : w.log.committing = false := by
    by_contra hc
    have := h.quiet (by simpa using hc)
    omega
  refine ⟨hc,fun q => ?_⟩
  by_contra hq
  have := h.committing.mpr ⟨q,by simpa using hq⟩
  simp [hc] at this

/-- A step of `p` to `c` that leaves the log alone. -/
structure Passes (w : World P) (p : P) (c : Pc) : Prop where
  inside : c.inside = (w.pc p).inside
  inCommit : c.inCommit = (w.pc p).inCommit
  drained : c.drained = true → w.log.n = 0
  toSleep : c.toSleep = true → w.log.committing = true ∨ NoRoom w.log ∨
    ∃ q, (w.pc q).waking = true
  waking : (w.pc p).waking = true → c.waking = true

variable {w : World P} {p : P} {a c : Pc}

omit [DecidableEq P] in
/-- A step within the same part of an operation or a commit. -/
theorem Inv.passes (h : Inv w) (hpc : w.pc p = a) (hin : c.inside = a.inside)
    (hcm : c.inCommit = a.inCommit) (hdr : c.drained = true → w.log.n = 0)
    (hsl : c.toSleep = true → a.toSleep = true) (hwk : a.waking = true → c.waking = true) :
    Passes w p c := by
  subst hpc
  exact ⟨hin,hcm,hdr,fun hc => h.sleepers p (hsl hc),hwk⟩

/-- The locks after such a step are those that the places of the processes hold. -/
theorem Passes.inv (h : Inv w) (hp : Passes w p c) {lock ptable : Option P}
    (hl : ∀ q, lock = some q ↔ (update w.pc p c q).holdsLog = true)
    (ht : ∀ q, ptable = some q ↔ (update w.pc p c q).holdsPtable = true) :
    Inv { w.goto p c with lock := lock, ptable := ptable } := by
  obtain ⟨hin,hcm,hdr,hsl,hwk⟩ := hp
  obtain ⟨-,-,hcount,hquiet,hcom,hsingle,hdrained,hempty,hsleep⟩ := h
  have hact := active_update_same rfl hin
  constructor <;> simp only [World.goto]
  case lock => exact hl
  case ptable => exact ht
  case count => rw [hact,hcount]
  case quiet => exact hquiet
  case empty => exact hempty
  all_goals simp only [update_apply]
  all_goals grind

omit [Fintype P] in
theorem held_iff_same {f : Pc → Bool} {l : Option P} (h : ∀ q, l = some q ↔ f (w.pc q) = true)
    (hpc : w.pc p = a) (hc : f c = f a) (q : P) : l = some q ↔ f (update w.pc p c q) = true := by
  rw [h q]
  by_cases hq : q = p
  · subst hq; simp [hpc,hc]
  · simp [hq]

omit [Fintype P] in
theorem held_iff_taken {f : Pc → Bool} (h : ∀ q, none = some q ↔ f (w.pc q) = true)
    (hc : f c = true) (q : P) : some p = some q ↔ f (update w.pc p c q) = true := by
  have := h q
  by_cases hq : q = p
  · subst hq; simp [hc]
  · simp_all [Ne.symm hq]

omit [Fintype P] in
/-- The lock of `p` that `p` gives back: no other process holds it. -/
theorem held_iff_released {f : Pc → Bool} {l : Option P} (h : ∀ q, l = some q ↔ f (w.pc q) = true)
    (hpc : w.pc p = a) (hp : f a = true) (hc : f c = false) (q : P) :
    none = some q ↔ f (update w.pc p c q) = true := by
  have hlp := (h p).mpr (hpc ▸ hp)
  by_cases hq : q = p
  · subst hq; simp [hc]
  · have := h q
    simp_all [Ne.symm hq]

section Locks
variable (h : Inv w) (hpc : w.pc p = a)
include h hpc

theorem Inv.goto (hp : Passes w p c) (hl : c.holdsLog = a.holdsLog)
    (ht : c.holdsPtable = a.holdsPtable) : Inv (w.goto p c) :=
  hp.inv h (held_iff_same h.lock hpc hl) (held_iff_same h.ptable hpc ht)

theorem Inv.acquireLog {w' : World P} (hs : w.acquireLog p c = some w') (hp : Passes w p c)
    (hl : c.holdsLog = true) (ht : c.holdsPtable = a.holdsPtable) : Inv w' := by
  obtain ⟨hfree,hs⟩ := Option.ite_none_right_eq_some.1 hs
  cases hs
  exact hp.inv h (held_iff_taken (hfree ▸ h.lock) hl) (held_iff_same h.ptable hpc ht)

theorem Inv.acquirePtable {w' : World P} (hs : w.acquirePtable p c = some w') (hp : Passes w p c)
    (hl : c.holdsLog = a.holdsLog) (ht : c.holdsPtable = true) : Inv w' := by
  obtain ⟨hfree,hs⟩ := Option.ite_none_right_eq_some.1 hs
  cases hs
  exact hp.inv h (held_iff_same h.lock hpc hl) (held_iff_taken (hfree ▸ h.ptable) ht)

theorem Inv.releaseLog (hp : Passes w p c) (hold : a.holdsLog = true) (hl : c.holdsLog = false)
    (ht : c.holdsPtable = a.holdsPtable) : Inv (w.releaseLog p c) :=
  hp.inv h (held_iff_released h.lock hpc hold hl) (held_iff_same h.ptable hpc ht)

theorem Inv.releasePtable (hp : Passes w p c) (hold : a.holdsPtable = true)
    (ht : c.holdsPtable = false) (hl : c.holdsLog = a.holdsLog) : Inv (w.releasePtable p c) :=
  hp.inv h (held_iff_same h.lock hpc hl) (held_iff_released h.ptable hpc hold ht)

end Locks

omit [Fintype P] [DecidableEq P] in
theorem beginOp_eq_none {l : Log} (h : l.beginOp = none) : l.committing = true ∨ NoRoom l := by
  unfold Log.beginOp at h
  split at h
  · exact .inl ‹_›
  · split at h
    · exact .inr ‹_›
    · cases h

section
variable (h : Inv w)
include h

/-- `begin_op` goes to sleep for a reason, or starts the operation. -/
theorem Inv.beginTest (hpc : w.pc p = .beginTest) : Inv (w.beginTest p) := by
  unfold World.beginTest
  cases hb : w.log.beginOp with
  | none =>
    refine h.goto hpc ⟨by rw [hpc]; rfl,by rw [hpc]; rfl,nofun,?_,by rw [hpc]; nofun⟩ rfl rfl
    intro _
    exact (beginOp_eq_none hb).imp_right .inl
  | some l =>
    obtain ⟨hc,hn,rfl⟩ := Log.beginOp_eq_some hb
    have hcard := card_active_enter (f := w.pc) (p := p) (c := .inOp) (by rw [hpc]; rfl) rfl
    have hlock := held_iff_released (c := .inOp) h.lock hpc rfl rfl
    have hpt := held_iff_same (c := .inOp) h.ptable hpc rfl
    have hcount := h.count
    obtain ⟨-,-,-,-,hcom,hsingle,hdrained,hempty,hsleep⟩ := h
    constructor <;> simp only [World.goto,World.releaseLog,Log.n,NoRoom] at *
    case lock => exact hlock
    case ptable => exact hpt
    case count => omega
    case quiet => simp [hc]
    case empty => omega
    all_goals simp only [update_apply]
    all_goals grind [Pc.inCommit,Pc.drained,Pc.toSleep,Pc.waking]

/-- The locked update of `log_write` can only use up more room. -/
theorem Inv.logUpdate {b : ℕ} (hpc : w.pc p = .logUpdate b) :
    Inv { w.releaseLog p .inOp with log := w.log.logWriteUpdate b } := by
  have hin : (w.pc p).inside = true := by rw [hpc]; rfl
  have hpos := h.outstanding_pos hin
  obtain ⟨hnc,hnone⟩ := h.not_committing hin
  have hle : w.log.n ≤ (w.log.logWriteUpdate b).n := by
    simp only [Log.n,Log.logWriteUpdate]
    by_cases hb : b ∈ w.log.block
    · rw [Log.absorb_of_mem hb]
    · simp [Log.absorb_of_notMem hb]
  have hact := active_update_same (c := .inOp) hpc rfl
  have hlock := held_iff_released (c := .inOp) h.lock hpc rfl rfl
  have hpt := held_iff_same (c := .inOp) h.ptable hpc rfl
  obtain ⟨-,-,hcount,hquiet,hcom,hsingle,hdrained,hempty,hsleep⟩ := h
  have hdr : ∀ q, (w.pc q).drained = false := by
    intro q
    have := hnone q
    cases hq : w.pc q <;> simp_all [Pc.drained,Pc.inCommit]
  constructor <;> simp only [World.goto,World.releaseLog]
  case lock => exact hlock
  case ptable => exact hpt
  case count => rw [hact]; exact hcount
  case quiet => exact hquiet
  case empty =>
    intro _ ho
    change w.log.outstanding = 0 at ho
    omega
  case sleepers =>
    have hroom : NoRoom w.log → NoRoom (w.log.logWriteUpdate b) := by
      intro hr
      change ((w.log.logWriteUpdate b).n : ℤ) + (w.log.outstanding + 1) * MAXOPBLOCKS > LOGSIZE
      unfold NoRoom at hr
      omega
    simp only [update_apply]
    change ∀ q, _ → w.log.committing = true ∨ _
    grind [Pc.toSleep,Pc.waking]
  all_goals simp only [update_apply]
  all_goals grind [Pc.inCommit,Pc.drained,Log.logWriteUpdate]

/-- `end_op` either starts a commit or goes on to wake the sleepers. -/
theorem Inv.endTest (hpc : w.pc p = .endTest) : Inv (w.endTest p) := by
  have hin : (w.pc p).inside = true := by rw [hpc]; rfl
  have hpos := h.outstanding_pos hin
  obtain ⟨hnc,hnone⟩ := h.not_committing hin
  have hcount := h.count
  unfold World.endTest
  by_cases ho : w.log.outstanding = 1
  · rw [Log.endOp_last hnc ho]
    have hl := card_active_leave (c := .endRelease true) hin rfl
    refine ⟨held_iff_same h.lock hpc rfl,held_iff_same h.ptable hpc rfl,?_,fun _ => rfl,?_,?_,?_,
      nofun,fun _ _ => .inl rfl⟩
    · simp only [World.goto]
      omega
    · exact ⟨fun _ => ⟨p,by simp [World.goto,Pc.inCommit]⟩,fun _ => rfl⟩
    all_goals simp only [World.goto,update_apply]
    · grind
    · have := h.drained
      grind [Pc.drained,Log.n]
  · rw [Log.endOp_other hnc ho]
    have hl := card_active_leave (c := .wakeAcquire) hin rfl
    refine ⟨held_iff_same h.lock hpc rfl,held_iff_same h.ptable hpc rfl,?_,?_,?_,?_,?_,?_,?_⟩
    · simp only [World.goto]
      omega
    · simp [hnc]
    · simp only [World.goto,hnc,Bool.false_eq_true,false_iff,not_exists,update_apply]
      intro q
      split
      · simp [Pc.inCommit]
      · simp [hnone q]
    · simp only [World.goto,update_apply]
      grind [Pc.inCommit]
    · have := h.drained
      simp only [World.goto,update_apply]
      grind [Pc.drained,Log.n]
    · intro _ h0
      change w.log.outstanding - 1 = 0 at h0
      omega
    · exact fun _ _ => .inr (.inr ⟨p,by simp [World.goto,Pc.waking]⟩)

/-- After `wakeup1` nobody sleeps: a process on its way to sleeping would hold one of
the two locks. -/
theorem Inv.wakeAll (hpc : w.pc p = .wakeup) : Inv (w.wakeAll p) := by
  have hlp := (h.lock p).mpr (by rw [hpc]; rfl)
  have hpp := (h.ptable p).mpr (by rw [hpc]; rfl)
  have hwake : ∀ c : Pc, c.wake.holdsLog = c.holdsLog ∧ c.wake.holdsPtable = c.holdsPtable ∧
      c.wake.inside = c.inside ∧ c.wake.inCommit = c.inCommit ∧ c.wake.drained = c.drained := by
    intro c
    cases c <;> exact ⟨rfl,rfl,rfl,rfl,rfl⟩
  have hact : active (w.wakeAll p).pc = active w.pc := by
    ext q
    by_cases hq : q = p
    · subst hq; simp [World.wakeAll,mem_active,hpc,Pc.inside]
    · simp [World.wakeAll,mem_active,hq,hwake]
  have hawake : ∀ q, ((w.wakeAll p).pc q).toSleep = false := by
    intro q
    have h1 := h.lock q
    have h2 := h.ptable q
    by_cases hq : q = p
    · subst hq; simp [World.wakeAll,Pc.toSleep]
    · rw [hlp] at h1
      rw [hpp] at h2
      cases hc : w.pc q <;>
        simp_all [World.wakeAll,Pc.toSleep,Pc.wake,Pc.holdsLog,Pc.holdsPtable,Ne.symm hq]
  obtain ⟨hl,ht,hcount,hquiet,hcom,hsingle,hdrained,hempty,-⟩ := h
  refine ⟨?_,?_,?_,hquiet,?_,?_,?_,hempty,fun q hq => by simp [hawake q] at hq⟩
  · intro q
    by_cases hq : q = p
    · subst hq; simp [World.wakeAll,hlp,Pc.holdsLog]
    · simp [World.wakeAll,hq,hwake,hl]
  · intro q
    by_cases hq : q = p
    · subst hq; simp [World.wakeAll,Pc.holdsPtable]
    · have hfree : (w.pc q).holdsPtable = false := by
        have hne := ht q
        rw [hpp,Option.some.injEq] at hne
        by_contra hc
        exact hq (hne.mpr (by simpa using hc)).symm
      simp [World.wakeAll,hq,hwake,hfree]
  · rw [hact]
    exact hcount
  all_goals simp only [World.wakeAll,update_apply]
  all_goals grind [Pc.inCommit,Pc.drained]

theorem Inv.clear (hpc : w.pc p = .clear) : Inv { w.goto p .erase with log := w.log.clear } := by
  have hcom := h.committing.mpr ⟨p,by rw [hpc]; rfl⟩
  have hact := active_update_same (c := .erase) hpc rfl
  refine ⟨held_iff_same h.lock hpc rfl,held_iff_same h.ptable hpc rfl,
    ?_,h.quiet,⟨fun _ => ⟨p,by simp [World.goto,Pc.inCommit]⟩,fun _ => hcom⟩,?_,
    fun _ _ => rfl,fun _ _ => rfl,fun _ _ => .inl hcom⟩
  · simp only [World.goto,hact]
    exact h.count
  · have := h.single
    simp only [World.goto,update_apply]
    grind [Pc.inCommit]

/-- The end of a commit: its process goes on to wake the sleepers. -/
theorem Inv.commitDone (hpc : w.pc p = .commitDone) :
    Inv { w.goto p .wakeAcquire with log := w.log.endCommit } := by
  have hin : (w.pc p).inCommit = true := by rw [hpc]; rfl
  have hcom := h.committing.mpr ⟨p,hin⟩
  have hn : w.log.n = 0 := h.drained p (by rw [hpc]; rfl)
  have hact := active_update_same (c := .wakeAcquire) hpc rfl
  have hnone : ∀ q, (update w.pc p .wakeAcquire q).inCommit = false := by
    intro q
    by_cases hq : q = p
    · subst hq; simp [Pc.inCommit]
    · rw [Function.update_of_ne hq]
      by_contra hc
      exact hq (h.single q p (by simpa using hc) hin)
  refine ⟨held_iff_same h.lock hpc rfl,held_iff_same h.ptable hpc rfl,
    ?_,nofun,?_,?_,fun _ _ => hn,fun _ _ => hn,
    fun _ _ => .inr (.inr ⟨p,by simp [World.goto,Pc.waking]⟩)⟩
  · simp only [World.goto,hact]
    exact h.count
  · simp [World.goto,Log.endCommit,hnone]
  · intro q q' hq
    simp [World.goto,hnone] at hq

/-- A step within `begin_op`, `log_write`, `end_op` or `commit`. -/
theorem Inv.run {w' : World P} (hs : w.run p = some w') : Inv w' := by
  unfold World.run at hs
  cases hpc : w.pc p <;> rw [hpc] at hs <;> dsimp only at hs
  case idle => cases hs
  case inOp => cases hs
  case sleeping => cases hs
  case beginTest => cases hs; exact h.beginTest hpc
  case endTest => cases hs; exact h.endTest hpc
  case logUpdate b => cases hs; exact h.logUpdate hpc
  case wakeup => cases hs; exact h.wakeAll hpc
  case clear => cases hs; exact h.clear hpc
  case commitDone => cases hs; exact h.commitDone hpc
  case beginAcquire =>
    exact h.acquireLog hpc hs (h.passes hpc rfl rfl nofun nofun nofun) rfl rfl
  case logAcquire b =>
    exact h.acquireLog hpc hs (h.passes hpc rfl rfl nofun nofun nofun) rfl rfl
  case endAcquire =>
    exact h.acquireLog hpc hs (h.passes hpc rfl rfl nofun nofun nofun) rfl rfl
  case commitAcquire =>
    have hn := h.drained p (by rw [hpc]; rfl)
    exact h.acquireLog hpc hs (h.passes hpc rfl rfl (fun _ => hn) nofun nofun) rfl rfl
  case sleepAcquire =>
    exact h.acquirePtable hpc hs (h.passes hpc rfl rfl nofun (fun _ => rfl) nofun) rfl rfl
  case woken =>
    exact h.acquirePtable hpc hs (h.passes hpc rfl rfl nofun nofun nofun) rfl rfl
  case wakeAcquire =>
    exact h.acquirePtable hpc hs (h.passes hpc rfl rfl nofun nofun fun _ => rfl) rfl rfl
  case sleepRelease =>
    cases hs
    exact h.releaseLog hpc (h.passes hpc rfl rfl nofun (fun _ => rfl) nofun) rfl rfl rfl
  case endRelease doCommit =>
    cases hs
    cases doCommit with
    | true => exact h.releaseLog hpc (h.passes hpc rfl rfl nofun nofun nofun) rfl rfl rfl
    | false => exact h.releaseLog hpc (h.passes hpc rfl rfl nofun nofun nofun) rfl rfl rfl
  case sleepSet =>
    cases hs
    exact h.releasePtable hpc (h.passes hpc rfl rfl nofun (fun _ => rfl) nofun) rfl rfl rfl
  case resumed =>
    cases hs
    exact h.releasePtable hpc (h.passes hpc rfl rfl nofun nofun nofun) rfl rfl rfl
  case commit =>
    cases hs
    by_cases hn : w.log.n > 0
    · rw [if_pos hn]
      exact h.goto hpc (h.passes hpc rfl rfl nofun nofun nofun) rfl rfl
    · rw [if_neg hn]
      exact h.goto hpc (h.passes hpc rfl rfl (fun _ => by omega) nofun nofun) rfl rfl
  case erase =>
    cases hs
    have hn := h.drained p (by rw [hpc]; rfl)
    exact h.goto hpc (h.passes hpc rfl rfl (fun _ => hn) nofun nofun) rfl rfl

end

omit [DecidableEq P] in
theorem Inv.panic (h : Inv w) (e : LogPanic) : Inv (w.panic e) :=
  ⟨h.lock,h.ptable,h.count,h.quiet,h.committing,h.single,h.drained,h.empty,h.sleepers⟩

theorem Inv.step {w' : World P} {a : Action} (h : Inv w) (hs : w.step p a = some w') : Inv w' := by
  unfold World.step at hs
  split at hs
  · cases hs
  split at hs
  · rename_i hpc
    cases hs
    exact h.goto hpc (h.passes hpc rfl rfl nofun nofun nofun) rfl rfl
  · rename_i b hpc
    split at hs <;> cases hs
    · exact h.panic _
    · exact h.goto hpc (h.passes hpc rfl rfl nofun nofun nofun) rfl rfl
  · rename_i hpc
    cases hs
    exact h.goto hpc (h.passes hpc rfl rfl nofun nofun nofun) rfl rfl
  · exact h.run hs
  · cases hs

theorem Inv.reach {start size : ℕ} (h : Reach (World.init P start size) w) : Inv w := by
  induction h with
  | init => exact Inv.init start size
  | step _ hs ih => exact ih.step hs

/-- No process waits for the log needlessly: with `log.lock` free and no commit running,
whoever sleeps in `begin_op` would still not fit, and once no operation is outstanding
the header is empty and nobody sleeps.  In every state a sleeper has an operation, a
commit or a wakeup to wait for. -/
theorem waits_for_room {start size : ℕ} (h : Reach (World.init P start size) w) :
    (w.lock = none → w.log.committing = false → (∀ p, (w.pc p).asleep = true →
        (w.log.n : ℤ) + (w.log.outstanding + 1) * MAXOPBLOCKS > LOGSIZE) ∧
      (w.log.outstanding = 0 → w.log.n = 0 ∧ ∀ p, (w.pc p).asleep = false)) ∧
    ((∃ p, (w.pc p).asleep = true) →
      ∃ q, (w.pc q).inside = true ∨ (w.pc q).inCommit = true ∨ (w.pc q).waking = true) := by
  have hi := Inv.reach h
  have hsleep : ∀ p, (w.pc p).asleep = true → (w.pc p).toSleep = true := by
    intro p hp
    cases hc : w.pc p <;> simp_all [Pc.asleep,Pc.toSleep]
  have hroom : w.lock = none → w.log.committing = false → ∀ p, (w.pc p).asleep = true →
      NoRoom w.log := by
    intro hl hc p hp
    rcases hi.sleepers p (hsleep p hp) with h1 | h1 | ⟨q,hq⟩
    · simp [hc] at h1
    · exact h1
    · -- a process in `wakeup` holds `log.lock`
      have : (w.pc q).holdsLog = true := by
        cases hpc : w.pc q <;> simp_all [Pc.waking,Pc.holdsLog]
      simp [(hi.lock q).mpr this] at hl
  have hzero : w.log.outstanding = 0 → w.log.n = 0 → ¬ NoRoom w.log := by
    intro ho hn hr
    simp [NoRoom,ho,hn,MAXOPBLOCKS,LOGSIZE] at hr
  constructor
  · intro hl hc
    refine ⟨hroom hl hc,fun ho => ⟨hi.empty hc ho,fun p => ?_⟩⟩
    by_contra hp
    exact hzero ho (hi.empty hc ho) (hroom hl hc p (by simpa using hp))
  · rintro ⟨p,hp⟩
    rcases hi.sleepers p (hsleep p hp) with h1 | h1 | ⟨q,hq⟩
    · obtain ⟨q,hq⟩ := hi.committing.mp h1
      exact ⟨q,.inr (.inl hq)⟩
    · by_cases hc : w.log.committing = true
      · obtain ⟨q,hq⟩ := hi.committing.mp hc
        exact ⟨q,.inr (.inl hq)⟩
      · have hne : (active w.pc).Nonempty := by
          rw [nonempty_iff_ne_empty]
          intro he
          have ho : w.log.outstanding = 0 := by rw [hi.count,he]; rfl
          exact hzero ho (hi.empty (by simpa using hc) ho) h1
        obtain ⟨q,hq⟩ := hne
        exact ⟨q,.inl (mem_active.mp hq)⟩
    · exact ⟨q,.inr (.inr hq)⟩

end Invariant

/-- Three operations have begun, and the fourth process has gone to sleep. -/
def fourthSleeps : List (Fin 4 × Action) :=
  [0, 1, 2].flatMap (fun p => [(p,.beginOp), (p,.run), (p,.run)]) ++
    [(3,.beginOp), (3,.run), (3,.run), (3,.run), (3,.run), (3,.run)]

theorem waits_for_room_four :
    ∃ w, (World.init (Fin 4) 2 30).exec fourthSleeps = some w ∧ (w.pc 3).asleep = true ∧
      w.lock = none ∧ w.log.committing = false ∧
      (w.log.n : ℤ) + (w.log.outstanding + 1) * MAXOPBLOCKS > LOGSIZE := by
  obtain ⟨w,hw,hs,hl,hc⟩ : ∃ w ∈ (World.init (Fin 4) 2 30).exec fourthSleeps,
      (w.pc 3).asleep = true ∧ w.lock = none ∧ w.log.committing = false := by decide
  exact ⟨w,hw,hs,hl,hc,((waits_for_room (Reach.of_exec .init hw)).1 hl hc).1 3 hs⟩

end Xv6.Waiting
