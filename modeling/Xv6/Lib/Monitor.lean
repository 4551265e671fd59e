import Mathlib.Data.Nat.Notation
import Xv6.Lib.Update

/-! # Code under a spin lock, with sleep and wakeup

Any number of processes run code under one spin lock.  With the lock held the code changes
the state that the lock protects, sleeps on a channel, or wakes the processes that sleep on
one.  `sleep` takes the lock of the process table before it gives up the spin lock, and
`wakeup` needs the lock of the process table.  A process that is killed wakes up too.

`Invariant` is the rule for what holds of the protected state and of the places of the
processes; `Wakes` is the rule that shows that no wakeup is missed. -/
namespace Monitor
open Function Option

/-- What the code does next with the lock held. -/
inductive Act (σ L C : Type) where
  | step (s : σ) (l : L)
  | sleep (c : C) (l : L)
  | wakeup (c : C) (l : L)
  | release (l : L)

namespace Act
variable {σ L C : Type}

/-- The protected state after the step. -/
def st (s : σ) : Act σ L C → σ
  | step s' _ => s'
  | _ => s

def loc : Act σ L C → L
  | step _ l | sleep _ l | wakeup _ l | release l => l

/-- What has to hold where the code goes on: `K` with the lock, `E` before an `acquire` and `F`
where the lock is given up. -/
def Goes (K : σ → L → Prop) (E : L → Prop) (F : σ → Prop) (s : σ) : Act σ L C → Prop
  | step s' l => K s' l
  | wakeup _ l => K s l
  | sleep _ l => E l ∧ F s
  | release _ => F s

/-- Where `W c` becomes false a wakeup is owed, and nothing is owed by a process that goes to
sleep. -/
def Accounts (W : C → σ → Prop) (Owe : C → L → Prop) (s : σ) (l : L) : Act σ L C → Prop
  | step s' l' => ∀ c, W c s ∨ Owe c l → W c s' ∨ Owe c l'
  | sleep d _ => W d s ∧ ∀ c, Owe c l → W c s
  | wakeup d l' => ∀ c, c ≠ d → Owe c l → W c s ∨ Owe c l'
  | release _ => True

end Act

/-- The code: `l : L` says where in the code a process is, with its local variables.  The
first argument of `next` is whether the process has been killed; there is no next step
where the code has to wait with the lock held.  `env` is what happens to the state without
the lock. -/
structure Code (σ L C ε : Type) where
  call : L → L → σ → Option σ
  next : Bool → L → σ → Option (Act σ L C)
  env : ε → σ → Option σ

/-- The place of a process. -/
inductive Place (L C : Type) where
  /-- outside of the code -/
  | out (l : L)
  /-- at the `acquire` of the spin lock -/
  | acquire (l : L)
  | inside (l : L)
  /-- `sleep`, before it takes the lock of the process table -/
  | sleepAcquire (c : C) (l : L)
  /-- `sleep`, before it gives up the spin lock -/
  | sleepRelease (c : C) (l : L)
  /-- `sleep`, before the state of the process is set -/
  | sleepSet (c : C) (l : L)
  /-- asleep, until the scheduler has given up the lock of the process table -/
  | switching (c : C) (l : L)
  | sleeping (c : C) (l : L)
  | runnable (l : L)
  /-- back in `sleep` with the lock of the process table -/
  | resumed (l : L)
  /-- `wakeup`, before it takes the lock of the process table -/
  | wakeAcquire (c : C) (l : L)
  /-- `wakeup`, in its loop -/
  | waking (c : C) (l : L)
  deriving DecidableEq

namespace Place
variable {L C : Type}

def loc : Place L C → L
  | out l | acquire l | inside l | sleepAcquire _ l | sleepRelease _ l | sleepSet _ l
  | switching _ l | sleeping _ l | runnable l | resumed l | wakeAcquire _ l | waking _ l => l

def holdsLock : Place L C → Bool
  | inside _ | sleepAcquire _ _ | sleepRelease _ _ | wakeAcquire _ _ | waking _ _ => true
  | _ => false

def holdsTable : Place L C → Bool
  | sleepRelease _ _ | sleepSet _ _ | switching _ _ | resumed _ | waking _ _ => true
  | _ => false

/-- The channel, once the spin lock has been given up for it. -/
def waits : Place L C → Option C
  | sleepSet c _ | switching c _ | sleeping c _ => some c
  | _ => none

def isSleeping : Place L C → Bool
  | switching _ _ | sleeping _ _ => true
  | _ => false

/-- The code goes on without another `acquire`. -/
def runs : Place L C → Bool
  | inside _ | wakeAcquire _ _ | waking _ _ => true
  | _ => false

/-- There will be an `acquire` of the spin lock before the code goes on. -/
def enters : Place L C → Bool
  | out _ => false
  | p => !p.runs

def wake [DecidableEq C] (c : C) : Place L C → Place L C
  | sleeping c' l => if c' = c then runnable l else sleeping c' l
  | p => p

def kill : Place L C → Place L C
  | sleeping _ l => runnable l
  | p => p

/-- The channel that a process is going to sleep on, before it gives up the spin lock. -/
def goes : Place L C → Option C
  | sleepAcquire c _ | sleepRelease c _ => some c
  | _ => none

/-- The process with the lock has still to wake the sleepers on `c`. -/
def owes (Owe : C → L → Prop) (c : C) : Place L C → Prop
  | inside l => Owe c l
  | wakeAcquire d l | waking d l => c = d ∨ Owe c l
  | _ => False

end Place

section Place
variable {L C : Type} {Owe : C → L → Prop} {c : C}

/-- The steps of `sleep` and `wakeup`, and the `acquire` of the code. -/
inductive Passes : Place L C → Place L C → Prop where
  | enter (l : L) : Passes (.acquire l) (.inside l)
  | sleepAcquire (c : C) (l : L) : Passes (.sleepAcquire c l) (.sleepRelease c l)
  | sleepRelease (c : C) (l : L) : Passes (.sleepRelease c l) (.sleepSet c l)
  | sleepSet (c : C) (l : L) : Passes (.sleepSet c l) (.switching c l)
  | switching (c : C) (l : L) : Passes (.switching c l) (.sleeping c l)
  | runnable (l : L) : Passes (.runnable l) (.resumed l)
  | resumed (l : L) : Passes (.resumed l) (.acquire l)
  | wakeAcquire (c : C) (l : L) : Passes (.wakeAcquire c l) (.waking c l)

theorem Passes.loc {a c : Place L C} (h : Passes a c) : c.loc = a.loc := by
  cases h <;> rfl

theorem Place.runs_holdsLock {a : Place L C} (h : a.runs = true) : a.holdsLock = true := by
  cases a <;> first | rfl | cases h

theorem Place.owes_holdsLock {a : Place L C} (h : a.owes Owe c) : a.holdsLock = true := by
  cases a <;> first | rfl | cases h

theorem Place.goes_holdsLock {a : Place L C} (h : a.goes = some c) : a.holdsLock = true := by
  cases a <;> first | rfl | cases h

variable (a : Place L C)

theorem kill_cases : a.kill = a ∨ ∃ c l, a = .sleeping c l ∧ a.kill = .runnable l := by
  cases a with
  | sleeping c l => exact .inr ⟨c,l,rfl,rfl⟩
  | _ => exact .inl rfl

theorem loc_kill : a.kill.loc = a.loc := by cases a <;> rfl

theorem holdsLock_kill : a.kill.holdsLock = a.holdsLock := by cases a <;> rfl

theorem holdsTable_kill : a.kill.holdsTable = a.holdsTable := by cases a <;> rfl

theorem runs_kill : a.kill.runs = a.runs := by cases a <;> rfl

theorem enters_kill : a.kill.enters = a.enters := by cases a <;> rfl

variable [DecidableEq C] (c)

/-- `wakeup` changes the place of the processes that sleep on the channel only. -/
theorem wake_cases : a.wake c = a ∧ (∀ l, a ≠ .sleeping c l) ∨
    ∃ l, a = .sleeping c l ∧ a.wake c = .runnable l := by
  cases a with
  | sleeping d l =>
    by_cases hd : d = c
    · subst hd
      exact .inr ⟨l,rfl,if_pos rfl⟩
    · exact .inl ⟨if_neg hd,fun l' h => hd (Place.sleeping.inj h).1⟩
  | _ => exact .inl ⟨rfl,nofun⟩

/-- What is the same for processes that sleep and that are runnable. -/
theorem wake_eq {β : Type} {f : Place L C → β} (h : ∀ c l, f (.runnable l) = f (.sleeping c l)) :
    f (a.wake c) = f a := by
  obtain ⟨ha,-⟩ | ⟨l,rfl,ha⟩ := wake_cases c a
  · rw [ha]
  · rw [ha,h]

theorem loc_wake : (a.wake c).loc = a.loc := wake_eq c a fun _ _ => rfl

theorem holdsLock_wake : (a.wake c).holdsLock = a.holdsLock := wake_eq c a fun _ _ => rfl

theorem holdsTable_wake : (a.wake c).holdsTable = a.holdsTable := wake_eq c a fun _ _ => rfl

theorem runs_wake : (a.wake c).runs = a.runs := wake_eq c a fun _ _ => rfl

theorem enters_wake : (a.wake c).enters = a.enters := wake_eq c a fun _ _ => rfl

end Place

/-- `call` starts the code, `run` is the next step of a process. -/
inductive Move (P L ε : Type) where
  | call (p : P) (l : L)
  | run (p : P)
  | kill (p : P)
  | env (e : ε)

structure World (P σ L C : Type) where
  st : σ
  lock : Option P
  table : Option P
  pc : P → Place L C
  killed : P → Bool

variable {P σ L C ε : Type} [DecidableEq P] [DecidableEq C]

namespace World

def goto (w : World P σ L C) (p : P) (c : Place L C) : World P σ L C :=
  { w with pc := update w.pc p c }

def loc (w : World P σ L C) (p : P) : L := (w.pc p).loc

/-- `acquire` of the lock of the process table; a lock that is held is waited for. -/
def takeTable (w : World P σ L C) (p : P) (c : Place L C) : Option (World P σ L C) :=
  if w.table = none then some { w.goto p c with table := some p } else none

def dropTable (w : World P σ L C) (p : P) (c : Place L C) : World P σ L C :=
  { w.goto p c with table := none }

def act (w : World P σ L C) (p : P) : Act σ L C → World P σ L C
  | .step s l => { w.goto p (.inside l) with st := s }
  | .sleep c l => w.goto p (.sleepAcquire c l)
  | .wakeup c l => w.goto p (.wakeAcquire c l)
  | .release l => { w.goto p (.out l) with lock := none }

/-- The loop of `wakeup` and the release of the lock of the process table. -/
def wakeAll (w : World P σ L C) (p : P) (c : C) (l : L) : World P σ L C :=
  { w with table := none, pc := update (fun q => (w.pc q).wake c) p (.inside l) }

def run (M : Code σ L C ε) (w : World P σ L C) (p : P) : Option (World P σ L C) :=
  match w.pc p with
  | .out _ | .sleeping _ _ => none
  | .acquire l =>
    if w.lock = none then some { w.goto p (.inside l) with lock := some p } else none
  | .inside l => (M.next (w.killed p) l w.st).map (w.act p)
  | .sleepAcquire c l => w.takeTable p (.sleepRelease c l)
  | .sleepRelease c l => some { w.goto p (.sleepSet c l) with lock := none }
  | .sleepSet c l => some (w.goto p (.switching c l))
  | .switching c l => some (w.dropTable p (.sleeping c l))
  | .runnable l => w.takeTable p (.resumed l)
  | .resumed l => some (w.dropTable p (.acquire l))
  | .wakeAcquire c l => w.takeTable p (.waking c l)
  | .waking c l => some (w.wakeAll p c l)

def step (M : Code σ L C ε) (w : World P σ L C) : Move P L ε → Option (World P σ L C)
  | .call p l' =>
    match w.pc p with
    | .out l => (M.call l l' w.st).map fun s => { w.goto p (.acquire l') with st := s }
    | _ => none
  | .run p => w.run M p
  | .kill p =>
    if w.table = none then
      some { w.goto p (w.pc p).kill with killed := update w.killed p true }
    else none
  | .env e => (M.env e w.st).map fun s => { w with st := s }

def exec (M : Code σ L C ε) (w : World P σ L C) : List (Move P L ε) → Option (World P σ L C)
  | [] => some w
  | m :: rest => (w.step M m).bind fun w' => w'.exec M rest

def init (s : σ) (l : L) : World P σ L C where
  st := s
  lock := none
  table := none
  pc := fun _ => .out l
  killed := fun _ => false

end World

/-- The states of all interleavings whose moves are all `ok`. -/
inductive Reach (M : Code σ L C ε) (ok : World P σ L C → Move P L ε → Prop)
    (w₀ : World P σ L C) : World P σ L C → Prop where
  | init : Reach M ok w₀ w₀
  | step {w w' : World P σ L C} {m : Move P L ε} (h : Reach M ok w₀ w) (hm : ok w m)
      (hs : w.step M m = some w') : Reach M ok w₀ w'

section Runs
variable {M : Code σ L C ε} {ok : World P σ L C → Move P L ε → Prop} {w₀ w w' : World P σ L C}

theorem Reach.of_exec {moves : List (Move P L ε)} (h : Reach M (fun _ _ => True) w₀ w)
    (he : w.exec M moves = some w') : Reach M (fun _ _ => True) w₀ w' := by
  induction moves generalizing w with
  | nil =>
    cases he
    exact h
  | cons m rest ih =>
    obtain ⟨w1,hs,hr⟩ := bind_eq_some_iff.mp he
    exact ih (.step h trivial hs) hr

def World.Allows (M : Code σ L C ε) (ok : World P σ L C → Move P L ε → Prop) :
    World P σ L C → List (Move P L ε) → Prop
  | _, [] => True
  | w, m :: rest => ok w m ∧ ∀ w' ∈ w.step M m, World.Allows M ok w' rest

instance World.decidableAllows (M : Code σ L C ε) (ok : World P σ L C → Move P L ε → Prop)
    [∀ w m, Decidable (ok w m)] : ∀ w moves, Decidable (World.Allows M ok w moves)
  | _, [] => inferInstanceAs (Decidable True)
  | w, m :: rest =>
    have : ∀ w', Decidable (World.Allows M ok w' rest) := fun w' => decidableAllows M ok w' rest
    inferInstanceAs (Decidable (ok w m ∧ ∀ w' ∈ w.step M m, World.Allows M ok w' rest))

theorem Reach.of_allows {moves : List (Move P L ε)} (h : Reach M ok w₀ w)
    (ha : w.Allows M ok moves) (he : w.exec M moves = some w') : Reach M ok w₀ w' := by
  induction moves generalizing w with
  | nil =>
    cases he
    exact h
  | cons m rest ih =>
    obtain ⟨w1,hs,hr⟩ := bind_eq_some_iff.mp he
    exact ih (.step h ha.1 hs) (ha.2 w1 hs) hr

end Runs

/-- What a step of `p` does to a lock that `p` holds before and after it, or not. -/
inductive Hands (p : P) : Bool → Bool → Option P → Option P → Prop where
  | keep (b : Bool) (o : Option P) : Hands p b b o o
  | take : Hands p false true none (some p)
  | drop (o : Option P) : Hands p true false o none

/-- Everything that a step can do. -/
inductive Did (M : Code σ L C ε) (w : World P σ L C) : Move P L ε → World P σ L C → Prop where
  | call {p : P} {l l' : L} {s : σ} (hp : w.pc p = .out l) (hc : M.call l l' w.st = some s) :
      Did M w (.call p l') { w.goto p (.acquire l') with st := s }
  | pass {p : P} {c : Place L C} {x y : Option P} (hp : Passes (w.pc p) c)
      (hl : Hands p (w.pc p).holdsLock c.holdsLock w.lock x)
      (ht : Hands p (w.pc p).holdsTable c.holdsTable w.table y) :
      Did M w (.run p) { w.goto p c with lock := x, table := y }
  | act {p : P} {l : L} {a : Act σ L C} (hp : w.pc p = .inside l)
      (ha : M.next (w.killed p) l w.st = some a) : Did M w (.run p) (w.act p a)
  | waking {p : P} {c : C} {l : L} (hp : w.pc p = .waking c l) :
      Did M w (.run p) (w.wakeAll p c l)
  | kill {p : P} (ht : w.table = none) :
      Did M w (.kill p) { w.goto p (w.pc p).kill with killed := update w.killed p true }
  | env {e : ε} {s : σ} (he : M.env e w.st = some s) : Did M w (.env e) { w with st := s }

omit [DecidableEq C] in
theorem World.takeTable_eq_some {w w' : World P σ L C} {p : P} {c : Place L C}
    (h : w.takeTable p c = some w') : w.table = none ∧ w' = { w.goto p c with table := some p } := by
  exact (ite_none_right_eq_some.1 h).imp_right fun h => (Option.some.inj h).symm

theorem did_take {M : Code σ L C ε} {w w' : World P σ L C} {p : P} {a c : Place L C}
    (hp : w.pc p = a) (hpass : Passes a c) (hl : a.holdsLock = c.holdsLock)
    (ha : a.holdsTable = false) (hc : c.holdsTable = true) (h : w.takeTable p c = some w') :
    Did M w (.run p) w' := by
  obtain ⟨hf,rfl⟩ := World.takeTable_eq_some h
  subst hp
  refine .pass (y := some p) hpass ?_ ?_
  · rw [hl]
    exact .keep _ _
  · rw [ha,hc,hf]
    exact .take

theorem did_run {M : Code σ L C ε} {w w' : World P σ L C} {p : P} (h : w.run M p = some w') :
    Did M w (.run p) w' := by
  unfold World.run at h
  cases hp : w.pc p <;> rw [hp] at h <;> dsimp only at h
  case out l => cases h
  case sleeping c l => cases h
  case acquire l =>
    obtain ⟨hfree,h⟩ := ite_none_right_eq_some.1 h
    cases h
    refine .pass (y := w.table) (hp ▸ .enter l) ?_ (hp ▸ .keep _ _)
    rw [hp,hfree]
    exact .take
  case inside l =>
    obtain ⟨a,ha,rfl⟩ := map_eq_some_iff.mp h
    exact .act hp ha
  case sleepAcquire c l => exact did_take hp (.sleepAcquire c l) rfl rfl rfl h
  case runnable l => exact did_take hp (.runnable l) rfl rfl rfl h
  case wakeAcquire c l => exact did_take hp (.wakeAcquire c l) rfl rfl rfl h
  case sleepRelease c l =>
    cases h
    exact .pass (y := w.table) (hp ▸ .sleepRelease c l) (hp ▸ .drop _) (hp ▸ .keep _ _)
  case sleepSet c l =>
    cases h
    exact .pass (x := w.lock) (y := w.table) (hp ▸ .sleepSet c l) (hp ▸ .keep _ _) (hp ▸ .keep _ _)
  case switching c l =>
    cases h
    exact .pass (x := w.lock) (hp ▸ .switching c l) (hp ▸ .keep _ _) (hp ▸ .drop _)
  case resumed l =>
    cases h
    exact .pass (x := w.lock) (hp ▸ .resumed l) (hp ▸ .keep _ _) (hp ▸ .drop _)
  case waking c l =>
    cases h
    exact .waking hp

theorem did_of_step {M : Code σ L C ε} {w w' : World P σ L C} {m : Move P L ε}
    (h : w.step M m = some w') : Did M w m w' := by
  cases m with
  | call p l' =>
    simp only [World.step] at h
    split at h
    · rename_i l hp
      obtain ⟨s,hs,rfl⟩ := map_eq_some_iff.mp h
      exact .call hp hs
    · cases h
  | run p => exact did_run h
  | kill p =>
    obtain ⟨ht,h⟩ := ite_none_right_eq_some.1 h
    cases h
    exact .kill ht
  | env e =>
    obtain ⟨s,hs,rfl⟩ := map_eq_some_iff.mp h
    exact .env hs

/-- A process comes out of the code by a `release`. -/
theorem returned_of_step {M : Code σ L C ε} {w w' : World P σ L C} {p : P} {l : L}
    (h : w.step M (.run p) = some w') (hp : w'.pc p = .out l) :
    ∃ l0, w.pc p = .inside l0 ∧ M.next (w.killed p) l0 w.st = some (.release l) := by
  have hself : ∀ {c : Place L C}, update w.pc p c p = .out l → c = .out l := by
    intro c hc
    rwa [update_self] at hc
  cases did_of_step h with
  | pass hpass _ _ =>
    rw [hself hp] at hpass
    generalize w.pc p = b at hpass
    cases hpass
  | @act _ l0 a hl ha =>
    refine ⟨l0,hl,?_⟩
    cases a with
    | release l' =>
      have := hself hp
      rw [← (Place.out.inj this : l' = l)]
      exact ha
    | _ => cases hself hp
  | @waking _ c l' _ =>
    have hin : (w.wakeAll p c l').pc p = .inside l' := by simp [World.wakeAll]
    rw [hin] at hp
    cases hp

section Locks

/-- The locks are held by the processes whose places say so. -/
structure Locks (w : World P σ L C) : Prop where
  lock : ∀ p, w.lock = some p ↔ (w.pc p).holdsLock = true
  table : ∀ p, w.table = some p ↔ (w.pc p).holdsTable = true

omit [DecidableEq P] in
theorem Hands.eq_none {p : P} {o o' : Option P} (h : Hands p false true o o') : o = none := by
  cases h
  rfl

omit [DecidableEq C] in
theorem Hands.held {f : Place L C → Bool} {g : P → Place L C} {o o' : Option P} {p : P}
    {c : Place L C} (h : Hands p (f (g p)) (f c) o o') (ho : ∀ q, o = some q ↔ f (g q) = true)
    (q : P) : o' = some q ↔ f (update g p c q) = true := by
  generalize ha : f (g p) = a at h
  generalize hb : f c = b at h
  by_cases hq : q = p
  · subst hq
    rw [update_self,hb]
    cases h with
    | keep => rw [ho,ha]
    | take => simp
    | drop => simp
  · rw [update_of_ne hq]
    cases h with
    | keep => exact ho q
    | take =>
      refine iff_of_false (fun hc => hq (Option.some.inj hc).symm) fun hc => ?_
      cases (ho q).mpr hc
    | drop =>
      refine iff_of_false nofun fun hc => hq ?_
      have := (ho p).mpr ha
      rw [(ho q).mpr hc] at this
      exact Option.some.inj this

theorem Locks.step {M : Code σ L C ε} {w w' : World P σ L C} {m : Move P L ε} (h : Locks w)
    (hd : Did M w m w') : Locks w' := by
  have same : ∀ {p : P} {a b : Bool} {o : Option P}, a = b → Hands p a b o o := by
    rintro p a _ o rfl
    exact .keep a o
  cases hd with
  | call hp hc =>
    exact ⟨(same (by rw [hp]; rfl)).held h.lock,(same (by rw [hp]; rfl)).held h.table⟩
  | pass hp hl ht => exact ⟨hl.held h.lock,ht.held h.table⟩
  | @act p l a hp ha =>
    cases a with
    | release l' =>
      refine ⟨Hands.held ?_ h.lock,(same (by rw [hp]; rfl)).held h.table⟩
      rw [hp]
      exact .drop w.lock
    | _ => exact ⟨(same (by rw [hp]; rfl)).held h.lock,(same (by rw [hp]; rfl)).held h.table⟩
  | @waking p c l hp =>
    have hl : ∀ q, w.lock = some q ↔ ((w.pc q).wake c).holdsLock = true := fun q => by
      rw [holdsLock_wake]
      exact h.lock q
    have ht : ∀ q, w.table = some q ↔ ((w.pc q).wake c).holdsTable = true := fun q => by
      rw [holdsTable_wake]
      exact h.table q
    refine ⟨Hands.held (g := fun q => (w.pc q).wake c) ?_ hl,
      Hands.held (g := fun q => (w.pc q).wake c) ?_ ht⟩
    · rw [hp]
      exact .keep true w.lock
    · rw [hp]
      exact .drop w.table
  | kill ht =>
    exact ⟨(same (holdsLock_kill _).symm).held h.lock,(same (holdsTable_kill _).symm).held h.table⟩
  | env he => exact ⟨h.lock,h.table⟩

omit [DecidableEq P] [DecidableEq C] in
theorem Locks.init (s : σ) (l : L) : Locks (World.init s l : World P σ L C) :=
  ⟨fun _ => iff_of_false nofun nofun,fun _ => iff_of_false nofun nofun⟩

end Locks

section Rules
variable {M : Code σ L C ε} {ok : World P σ L C → Move P L ε → Prop} {w₀ w w' : World P σ L C}

theorem Reach.locks (h : Reach M ok w₀ w) (h0 : Locks w₀) : Locks w := by
  induction h with
  | init => exact h0
  | step _ _ hs ih => exact ih.step (did_of_step hs)

/-- The obligations for an invariant: `J` is about the protected state, the places in the code
and the kills; `K` holds for the process that has the lock and is about to take a step; `E` is
about the places where the code starts, or starts again after `sleep`; `F` is about the
protected state while the lock is free. -/
structure Invariant (M : Code σ L C ε) (ok : World P σ L C → Move P L ε → Prop)
    (J : σ → (P → L) → (P → Bool) → Prop) (K : σ → L → Prop) (E : L → Prop) (F : σ → Prop) :
    Prop where
  enter : ∀ {s f k p}, J s f k → F s → E (f p) → K s (f p)
  act : ∀ {w s f k p a}, ok w (.run p) → w.st = s → w.pc p = .inside (f p) → J s f k → K s (f p) →
    M.next (k p) (f p) s = some a → J (a.st s) (update f p a.loc) k ∧ a.Goes K E F s
  call : ∀ {s s' f k p l}, J s f k → M.call (f p) l s = some s' →
    J s' (update f p l) k ∧ E l ∧ (∀ l', K s l' → K s' l') ∧ (F s → F s')
  kill : ∀ {w s f k p}, ok w (.kill p) → J s f k → J s f (update k p true)
  env : ∀ {w s s' f k e}, ok w (.env e) → J s f k → M.env e s = some s' →
    J s' f k ∧ (∀ l, K s l → K s' l) ∧ (F s → F s')

/-- What the rule shows of a reachable state. -/
structure Holds (J : σ → (P → L) → (P → Bool) → Prop) (K : σ → L → Prop) (E : L → Prop)
    (F : σ → Prop) (w : World P σ L C) : Prop where
  inv : J w.st w.loc w.killed
  runs : ∀ p, (w.pc p).runs = true → K w.st (w.loc p)
  enters : ∀ p, (w.pc p).enters = true → E (w.loc p)
  free : (∀ p, (w.pc p).runs = false) → F w.st

variable {J : σ → (P → L) → (P → Bool) → Prop} {K : σ → L → Prop} {E : L → Prop} {F : σ → Prop}

omit [DecidableEq C] in
theorem World.loc_update {p : P} {c : Place L C} (h : w'.pc = update w.pc p c) :
    w'.loc = update w.loc p c.loc := by
  funext q
  unfold World.loc
  rw [h]
  exact Function.apply_update (fun _ => Place.loc) w.pc p c q

omit [DecidableEq C] in
/-- A place that a step to `c` leaves alone, or `c` itself. -/
theorem update_cases {g : P → Place L C} {p q : P} {c : Place L C} {Q : P → Place L C → Prop}
    (hp : Q p c) (hq : q ≠ p → Q q (g q)) : Q q (update g p c q) :=
  Function.update_cases hp hq

omit [DecidableEq P] [DecidableEq C] in
/-- With one process in the code under the lock there is no other. -/
theorem Locks.only (h : Locks w) {p q : P} (hp : (w.pc p).holdsLock = true) (hne : q ≠ p) :
    (w.pc q).holdsLock = false := by
  by_contra hq
  have h1 := (h.lock p).mpr hp
  have h2 := (h.lock q).mpr (by simpa using hq)
  rw [h1] at h2
  exact hne (Option.some.inj h2).symm

theorem World.wakeAll_pc_self (w : World P σ L C) (p : P) (c : C) (l : L) :
    (w.wakeAll p c l).pc p = .inside l := by
  simp [World.wakeAll]

theorem World.loc_wakeAll {p : P} {c : C} {l : L} (hp : w.pc p = .waking c l) :
    (w.wakeAll p c l).loc = w.loc := by
  funext q
  refine update_cases (g := fun q => (w.pc q).wake c) (Q := fun q a => a.loc = w.loc q) ?_
    fun _ => loc_wake c (w.pc q)
  rw [World.loc,hp]
  rfl

omit [DecidableEq C] in
/-- A step of one process. -/
theorem Holds.move (h : Holds J K E F w) {p : P} {c : Place L C} (hpc : w'.pc = update w.pc p c)
    (hinv : J w'.st w'.loc w'.killed) (hr : c.runs = true → K w'.st c.loc)
    (hother : ∀ {q}, q ≠ p → (w.pc q).runs = true → K w'.st (w.loc q))
    (he : c.enters = true → E c.loc) (hfree : (∀ q, (update w.pc p c q).runs = false) → F w'.st) :
    Holds J K E F w' := by
  refine ⟨hinv,fun q => ?_,fun q => ?_,hpc ▸ hfree⟩ <;> unfold World.loc <;> rw [hpc]
  · exact update_cases (Q := fun _ b => b.runs = true → K w'.st b.loc) hr hother
  · exact update_cases (Q := fun _ b => b.enters = true → E b.loc) he fun _ => h.enters q

omit [DecidableEq C] in
/-- The rule for a step of the code. -/
theorem Holds.act (hI : Invariant M ok J K E F) (hl : Locks w) (h : Holds J K E F w) {p : P} {l : L}
    {a : Act σ L C} (hm : ok w (.run p)) (hp : w.pc p = .inside l) (ha : M.next (w.killed p) l w.st = some a) :
    Holds J K E F (w.act p a) := by
  have hloc : w.loc p = l := by rw [World.loc,hp]; rfl
  have hK : K w.st (w.loc p) := h.runs p (by rw [hp]; rfl)
  rw [← hloc] at ha
  -- no other process is in the code
  have hother : ∀ {q}, q ≠ p → (w.pc q).runs = true → False := by
    intro q hq hr
    have := hl.only (by rw [hp]; rfl) hq
    rw [Place.runs_holdsLock hr] at this
    cases this
  obtain ⟨hJ,hgo⟩ := hI.act hm rfl (by rw [hp,hloc]) h.inv hK ha
  have hinv : J (w.act p a).st (w.act p a).loc (w.act p a).killed := by
    cases a with
    | _ => rw [World.loc_update rfl]; exact hJ
  have hruns : ∀ {q}, q ≠ p → (w.pc q).runs = true → K w.st (w.loc q) := fun _ => h.runs _
  cases a with
  | step s l' =>
    refine h.move rfl hinv (fun _ => hgo) (fun hq hr => (hother hq hr).elim) nofun fun hnone => ?_
    have hself := hnone p
    rw [update_self] at hself
    cases hself
  | wakeup c l' =>
    refine h.move rfl hinv (fun _ => hgo) hruns nofun fun hnone => ?_
    have hself := hnone p
    rw [update_self] at hself
    cases hself
  | sleep c l' => exact h.move rfl hinv nofun hruns (fun _ => hgo.1) fun _ => hgo.2
  | release l' => exact h.move rfl hinv nofun hruns nofun fun _ => hgo

omit [DecidableEq C] in
theorem quiet_of_update {g : P → Place L C} {p : P} {c : Place L C}
    (h : ∀ q, (update g p c q).runs = false) (hp : c.runs = false → (g p).runs = false) :
    ∀ q, (g q).runs = false := by
  intro q
  exact update_cases (Q := fun q b => b.runs = false → (g q).runs = false) hp (fun _ => id) (h q)

omit [DecidableEq P] [DecidableEq C] in
/-- With the lock free nobody is in the code. -/
theorem Holds.of_free (h : Holds J K E F w) (hl : Locks w) (hf : w.lock = none) : F w.st := by
  refine h.free fun p => ?_
  by_contra hr
  have := (hl.lock p).mpr (Place.runs_holdsLock (by simpa using hr))
  rw [hf] at this
  cases this

theorem Holds.step (hI : Invariant M ok J K E F) (hl : Locks w) (h : Holds J K E F w)
    {m : Move P L ε} (hm : ok w m) (hd : Did M w m w') : Holds J K E F w' := by
  cases hd with
  | @call p l l' s hp hc =>
    have hloc : w.loc p = l := by rw [World.loc,hp]; rfl
    rw [← hloc] at hc
    obtain ⟨hJ,hE,hK,hF⟩ := hI.call h.inv hc
    refine h.move (c := .acquire l') rfl ?_ nofun (fun _ hr => hK _ (h.runs _ hr)) (fun _ => hE)
      fun hnone => hF (h.free (quiet_of_update hnone ?_))
    · rw [World.loc_update rfl]
      exact hJ
    · rw [hp]
      exact fun _ => rfl
  | @pass p c lock table hp hlk _ =>
    refine h.move (c := c) rfl ?_ (fun hr => ?_) (fun _ => h.runs _) (fun hr => ?_)
      fun hnone => h.free (quiet_of_update hnone ?_)
    · rw [World.loc_update rfl,hp.loc]
      change J w.st (update w.loc p (w.loc p)) w.killed
      rw [update_eq_self]
      exact h.inv
    · rw [hp.loc]
      have hen := h.enters p
      have hru := h.runs p
      have hin := fun hf => hI.enter (p := p) h.inv (h.of_free hl hf)
      unfold World.loc at hen hru hin
      generalize w.pc p = a at hp hlk hen hru hin ⊢
      cases hp with
      | enter l => exact hin hlk.eq_none (hen rfl)
      | wakeAcquire c l => exact hru rfl
      | _ => cases hr
    · rw [hp.loc]
      refine h.enters p ?_
      generalize w.pc p = a at hp ⊢
      cases hp <;> first | rfl | cases hr
    · intro hc
      generalize w.pc p = a at hp ⊢
      cases hp <;> first | rfl | cases hc
  | act hp ha => exact h.act hI hl hm hp ha
  | @waking p c l hp =>
    have hloc := World.loc_wakeAll hp
    refine ⟨?_,fun q => ?_,fun q => ?_,fun hnone => ?_⟩
    · rw [hloc]
      exact h.inv
    · rw [hloc]
      refine update_cases (g := fun q => (w.pc q).wake c)
        (Q := fun q b => b.runs = true → K w.st (w.loc q)) (fun _ => ?_)
        fun _ hr => h.runs q (by rwa [runs_wake] at hr)
      exact h.runs p (by rw [hp]; rfl)
    · rw [hloc]
      exact update_cases (g := fun q => (w.pc q).wake c)
        (Q := fun q b => b.enters = true → E (w.loc q)) nofun
        fun _ hr => h.enters q (by rwa [enters_wake] at hr)
    · have := hnone p
      rw [World.wakeAll_pc_self] at this
      cases this
  | @kill p ht =>
    have hJ := hI.kill hm h.inv
    refine h.move (c := (w.pc p).kill) rfl ?_ (fun hr => ?_) (fun _ => h.runs _) (fun hr => ?_)
      fun hnone => h.free (quiet_of_update hnone ?_)
    · rw [World.loc_update rfl,loc_kill]
      change J w.st (update w.loc p (w.loc p)) _
      rw [update_eq_self]
      exact hJ
    · rw [loc_kill]
      exact h.runs p (by rwa [runs_kill] at hr)
    · rw [loc_kill]
      exact h.enters p (by rwa [enters_kill] at hr)
    · rw [runs_kill]
      exact id
  | env he =>
    obtain ⟨hJ,hK,hF⟩ := hI.env hm h.inv he
    exact ⟨hJ,fun q hr => hK _ (h.runs q hr),h.enters,fun hnone => hF (h.free hnone)⟩

theorem Reach.holds (h : Reach M ok w₀ w) (hI : Invariant M ok J K E F) (hl : Locks w₀)
    (h0 : Holds J K E F w₀) : Holds J K E F w := by
  induction h with
  | init => exact h0
  | step hr hm hs ih => exact ih.step hI (hr.locks hl) hm (did_of_step hs)

omit [DecidableEq P] [DecidableEq C] in
theorem Holds.init {s : σ} {l : L} (h : J s (fun _ => l) fun _ => false) (hF : F s) :
    Holds J K E F (World.init s l : World P σ L C) :=
  ⟨h,nofun,nofun,fun _ => hF⟩

/-- The obligations for wakeups: a process may sleep on `c` where `W c`, and whoever makes
`W c` false owes a wakeup until it has called it. -/
structure Wakes (M : Code σ L C ε) (ok : World P σ L C → Move P L ε → Prop)
    (J : σ → (P → L) → (P → Bool) → Prop) (K : σ → L → Prop) (W : C → σ → Prop)
    (Owe : C → L → Prop) : Prop where
  act : ∀ {s f k p a}, J s f k → K s (f p) → M.next (k p) (f p) s = some a →
    a.Accounts W Owe s (f p)
  release : ∀ {w p l l'}, ok w (.run p) → J w.st w.loc w.killed → w.pc p = .inside l →
    M.next (w.killed p) l w.st = some (.release l') →
    ∀ c q, (w.pc q).waits = some c → Owe c l → W c w.st
  call : ∀ {s s' l l'}, M.call l l' s = some s' → ∀ c, W c s → W c s'
  env : ∀ {s s' e}, M.env e s = some s' → ∀ c, W c s → W c s'

/-- Every process that sleeps has a reason to, or a wakeup is on its way. -/
structure Awaits (W : C → σ → Prop) (Owe : C → L → Prop) (w : World P σ L C) : Prop where
  waits : ∀ q c, (w.pc q).waits = some c → W c w.st ∨ ∃ p, (w.pc p).owes Owe c
  goes : ∀ q c, (w.pc q).goes = some c → W c w.st

section Wakes
variable {W : C → σ → Prop} {Owe : C → L → Prop} {p : P} {c : C}

omit [DecidableEq P] [DecidableEq C] in
theorem Awaits.init (s : σ) (l : L) : Awaits W Owe (World.init s l : World P σ L C) :=
  ⟨nofun,nofun⟩

omit [DecidableEq P] [DecidableEq C] in
theorem Awaits.congr (h : Awaits W Owe w) (hpc : w'.pc = w.pc) (hst : w'.st = w.st) :
    Awaits W Owe w' := by
  refine ⟨?_,?_⟩
  · rw [hpc,hst]
    exact h.waits
  · rw [hpc,hst]
    exact h.goes

omit [DecidableEq P] [DecidableEq C] in
/-- The process that has the lock is the one that owes. -/
theorem Awaits.holder (h : Awaits W Owe w) (hl : Locks w) (hp : (w.pc p).holdsLock = true) {q : P}
    (hq : (w.pc q).waits = some c) : W c w.st ∨ (w.pc p).owes Owe c := by
  refine (h.waits q c hq).imp_right ?_
  rintro ⟨r,hr⟩
  have h1 := (hl.lock p).mpr hp
  have h2 := (hl.lock r).mpr (Place.owes_holdsLock hr)
  rw [h1] at h2
  rwa [Option.some.inj h2]

omit [DecidableEq P] [DecidableEq C] in
/-- Where the lock is free nobody sleeps without a reason. -/
theorem Awaits.free (h : Awaits W Owe w) (hl : Locks w) (hf : w.lock = none) {q : P}
    (hq : (w.pc q).waits = some c) : W c w.st := by
  refine (h.waits q c hq).elim id ?_
  rintro ⟨r,hr⟩
  have := (hl.lock r).mpr (Place.owes_holdsLock hr)
  rw [hf] at this
  cases this

omit [DecidableEq C] in
/-- The process with the lock goes on to a place that is not on the way to sleeping. -/
theorem Awaits.goto {a : Place L C} (hl : Locks w) (hp : (w.pc p).holdsLock = true)
    (ha : a.waits = none) (hg : a.goes = none) (hpc : w'.pc = update w.pc p a)
    (hw : ∀ q c, (w.pc q).waits = some c → W c w'.st ∨ a.owes Owe c) : Awaits W Owe w' := by
  refine ⟨fun q c => ?_,fun q c => ?_⟩
  · rw [hpc]
    refine update_cases (Q := fun _ b => b.waits = some c → _) (fun h => ?_) fun _ h => ?_
    · rw [ha] at h
      cases h
    · refine (hw q c h).imp_right fun h => ⟨p,?_⟩
      rwa [update_self]
  · rw [hpc]
    refine update_cases (Q := fun _ b => b.goes = some c → _) (fun h => ?_) fun hq h => ?_
    · rw [hg] at h
      cases h
    · have := hl.only hp hq
      rw [Place.goes_holdsLock h] at this
      cases this

theorem Awaits.act (hW : Wakes M ok J K W Owe) (hl : Locks w) (hh : Holds J K E F w)
    (h : Awaits W Owe w) (hm : ok w (.run p)) {l : L} {a : Act σ L C} (hp : w.pc p = .inside l)
    (ha : M.next (w.killed p) l w.st = some a) : Awaits W Owe (w.act p a) := by
  have hloc : w.loc p = l := by rw [World.loc,hp]; rfl
  have hK : K w.st (w.loc p) := hh.runs p (by rw [hp]; rfl)
  have hlk : (w.pc p).holdsLock = true := by rw [hp]; rfl
  have hold : ∀ q c, (w.pc q).waits = some c → W c w.st ∨ Owe c (w.loc p) := by
    intro q c hq
    have := h.holder hl hlk hq
    rw [hp] at this
    rwa [hloc]
  have ha' := ha
  rw [← hloc] at ha
  cases a with
  | step s l' =>
    exact Awaits.goto hl hlk rfl rfl rfl fun q c hq => hW.act hh.inv hK ha c (hold q c hq)
  | sleep d l' =>
    obtain ⟨hd,hc⟩ := hW.act hh.inv hK ha
    refine ⟨fun q c => ?_,fun q c => ?_⟩
    · exact update_cases (Q := fun _ b => b.waits = some c → _) nofun
        fun _ hq => .inl ((hold q c hq).elim id (hc c))
    · refine update_cases (Q := fun _ b => b.goes = some c → _) ?_ fun hq hg => ?_
      · rintro ⟨⟩
        exact hd
      · have := hl.only hlk hq
        rw [Place.goes_holdsLock hg] at this
        cases this
  | wakeup d l' =>
    refine Awaits.goto hl hlk rfl rfl rfl fun q c hq => ?_
    by_cases hcd : c = d
    · exact .inr (.inl hcd)
    · refine (hold q c hq).elim .inl fun ho => ?_
      exact (hW.act hh.inv hK ha c hcd ho).imp_right .inr
  | release l' =>
    refine Awaits.goto hl hlk rfl rfl rfl fun q c hq => .inl ?_
    refine (hold q c hq).elim id fun ho => ?_
    exact hW.release hm hh.inv hp ha' c q hq (hloc ▸ ho)

omit [DecidableEq C] in
/-- A process that owes nothing goes on, and starts to sleep only where it was about to. -/
theorem Awaits.move {a b : Place L C} (h : Awaits W Owe w) (hb : w.pc p = b)
    (hpc : w'.pc = update w.pc p a) (ho : ∀ c, ¬ b.owes Owe c)
    (hw : ∀ c, a.waits = some c → b.waits = some c ∨ b.goes = some c)
    (hg : ∀ c, a.goes = some c → b.goes = some c) (hst : ∀ c, W c w.st → W c w'.st) :
    Awaits W Owe w' := by
  subst hb
  have howes : ∀ c, (∃ r, (w.pc r).owes Owe c) → ∃ r, (w'.pc r).owes Owe c := by
    rintro c ⟨r,hr⟩
    refine ⟨r,?_⟩
    rw [hpc,update_of_ne]
    · exact hr
    · rintro rfl
      exact ho c hr
  refine ⟨fun q c => ?_,fun q c => ?_⟩
  · rw [hpc]
    refine update_cases (Q := fun _ b => b.waits = some c → _) (fun hc => ?_) fun _ hc => ?_
    · rw [← hpc]
      rcases hw c hc with h1 | h1
      · exact (h.waits p c h1).imp (hst c) (howes c)
      · exact .inl (hst c (h.goes p c h1))
    · rw [← hpc]
      exact (h.waits q c hc).imp (hst c) (howes c)
  · rw [hpc]
    exact update_cases (Q := fun _ b => b.goes = some c → _)
      (fun hc => hst c (h.goes p c (hg c hc))) fun _ hc => hst c (h.goes q c hc)

omit [DecidableEq C] in
/-- A step of `sleep` or `wakeup`, or the `acquire`. -/
theorem Awaits.pass (hl : Locks w) (h : Awaits W Owe w) {a : Place L C} (hp : Passes (w.pc p) a)
    (hin : ∀ l, w.pc p = .acquire l → w.lock = none) (hpc : w'.pc = update w.pc p a)
    (hst : w'.st = w.st) : Awaits W Owe w' := by
  have hcase : ∀ b, w.pc p = b → Passes b a → Awaits W Owe w' := by
    intro b hb hpass
    cases hpass with
    | enter l =>
      -- the lock was free, so nobody owed anything
      refine ⟨fun q c => ?_,fun q c => ?_⟩
      · rw [hpc,hst]
        exact update_cases (Q := fun _ b => b.waits = some c → _) nofun
          fun _ hq => .inl (h.free hl (hin l hb) hq)
      · rw [hpc,hst]
        exact update_cases (Q := fun _ b => b.goes = some c → _) nofun fun _ => h.goes q c
    | wakeAcquire d l =>
      refine Awaits.goto hl (by rw [hb]; rfl) rfl rfl hpc fun q c hq => ?_
      have := h.holder hl (p := p) (by rw [hb]; rfl) hq
      rwa [hb,← hst] at this
    | sleepAcquire d l => exact h.move hb hpc (fun _ => id) nofun (fun _ => id) (by simp [hst])
    | sleepRelease d l => exact h.move hb hpc (fun _ => id) (fun _ => .inr) nofun (by simp [hst])
    | sleepSet d l => exact h.move hb hpc (fun _ => id) (fun _ => .inl) nofun (by simp [hst])
    | switching d l => exact h.move hb hpc (fun _ => id) (fun _ => .inl) nofun (by simp [hst])
    | runnable l => exact h.move hb hpc (fun _ => id) nofun nofun (by simp [hst])
    | resumed l => exact h.move hb hpc (fun _ => id) nofun nofun (by simp [hst])
  exact hcase _ rfl hp

/-- `wakeup` leaves nobody asleep on its channel. -/
theorem Awaits.wakeAll (hl : Locks w) (h : Awaits W Owe w) {d : C} {l : L}
    (hp : w.pc p = .waking d l) : Awaits W Owe (w.wakeAll p d l) := by
  have hpos : ∀ q c, q ≠ p → ((w.pc q).wake d).waits = some c → (w.pc q).waits = some c ∧ c ≠ d := by
    intro q c hq hc
    obtain ⟨he,hne⟩ | ⟨l',-,he⟩ := wake_cases d (w.pc q)
    · rw [he] at hc
      refine ⟨hc,?_⟩
      rintro rfl
      -- a process that is not quite asleep has the lock of the process table
      have ht : (w.pc q).holdsTable = true := by
        cases hw : w.pc q with
        | sleeping c' l' =>
          rw [hw] at hc
          obtain rfl := Option.some.inj hc
          exact absurd hw (hne l')
        | _ => first | rfl | (rw [hw] at hc; cases hc)
      have h1 := (hl.table q).mpr ht
      have h2 := (hl.table p).mpr (by rw [hp]; rfl)
      rw [h1] at h2
      exact hq (Option.some.inj h2)
    · rw [he] at hc
      cases hc
  refine ⟨fun q c => ?_,fun q c => ?_⟩
  · refine update_cases (g := fun q => (w.pc q).wake d) (Q := fun _ b => b.waits = some c → _)
      nofun fun hq hc => ?_
    obtain ⟨hw,hcd⟩ := hpos q c hq hc
    have := h.holder hl (p := p) (by rw [hp]; rfl) hw
    rw [hp] at this
    refine this.imp_right fun ho => ⟨p,?_⟩
    rw [World.wakeAll_pc_self]
    exact ho.resolve_left hcd
  · refine update_cases (g := fun q => (w.pc q).wake d) (Q := fun _ b => b.goes = some c → _)
      nofun fun hq hc => ?_
    have h1 := hl.only (p := p) (by rw [hp]; rfl) hq
    rw [← holdsLock_wake d,Place.goes_holdsLock hc] at h1
    cases h1

theorem Awaits.step (hW : Wakes M ok J K W Owe) (hl : Locks w) (hh : Holds J K E F w)
    (h : Awaits W Owe w) {m : Move P L ε} (hm : ok w m) (hd : Did M w m w') : Awaits W Owe w' := by
  cases hd with
  | @call p l l' s hp hc =>
    exact h.move (a := .acquire l') hp rfl (fun _ => id) nofun nofun (hW.call hc)
  | @pass p c lock table hp hlk _ =>
    refine h.pass hl hp (fun l hb => ?_) rfl rfl
    rw [hb] at hp hlk
    cases hp
    exact hlk.eq_none
  | act hp ha => exact h.act hW hl hh hm hp ha
  | waking hp => exact h.wakeAll hl hp
  | @kill p ht =>
    obtain hk | ⟨c,l,hp,hk⟩ := kill_cases (w.pc p)
    · have hpc : update w.pc p (w.pc p).kill = w.pc := by rw [hk,update_eq_self]
      exact h.congr hpc rfl
    · refine h.move (a := .runnable l) hp ?_ (fun _ => id) nofun nofun fun _ => id
      rw [← hk]
      rfl
  | env he =>
    exact ⟨fun q c hq => (h.waits q c hq).imp_left (hW.env he c),fun q c hq => hW.env he c (h.goes q c hq)⟩

theorem Reach.awaits (h : Reach M ok w₀ w) (hI : Invariant M ok J K E F)
    (hW : Wakes M ok J K W Owe) (hl : Locks w₀) (h0 : Holds J K E F w₀) (ha : Awaits W Owe w₀) :
    Awaits W Owe w := by
  induction h with
  | init => exact ha
  | step hr hm hs ih => exact ih.step hW (hr.locks hl) (hr.holds hI hl h0) hm (did_of_step hs)

end Wakes
end Rules
end Monitor
