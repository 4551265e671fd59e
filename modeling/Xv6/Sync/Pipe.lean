import Xv6.Lib.CallLog
import Xv6.Lib.Circular
import Xv6.Lib.Monitor

/-! # `pipe.c`

The steps of `pipewrite`, `piperead` and `pipeclose` on one pipe, byte by byte.  `p->lock` is
the lock of the monitor, and the channels are `&p->nread` and `&p->nwrite`.  `kfree` of the
page, when both ends are closed, is left out. -/
namespace Xv6
open Monitor Circular CallLog
open Function (update)
open List

def PIPESIZE : ℕ := 512

/-- `struct pipe` without its lock. -/
structure Pipe where
  data : ℕ → UInt8
  nread : UInt32
  nwrite : UInt32
  readopen : Bool
  writeopen : Bool

namespace Pipe

/-- The pipe of `pipealloc`, with the given contents of its page. -/
def pipealloc (data : ℕ → UInt8) : Pipe := ⟨data,0,0,true,true⟩

def full (p : Pipe) : Bool := p.nwrite == p.nread + UInt32.ofNat PIPESIZE

def empty (p : Pipe) : Bool := p.nread == p.nwrite

/-- `p->data[p->nwrite++ % PIPESIZE] = b` -/
def store (p : Pipe) (b : UInt8) : Pipe :=
  { p with data := update p.data (p.nwrite.toNat % PIPESIZE) b, nwrite := p.nwrite + 1 }

/-- `p->data[p->nread % PIPESIZE]` -/
def front (p : Pipe) : UInt8 := p.data (p.nread.toNat % PIPESIZE)

/-- `p->nread++` -/
def advance (p : Pipe) : Pipe := { p with nread := p.nread + 1 }

def close (p : Pipe) (writable : Bool) : Pipe :=
  if writable then { p with writeopen := false } else { p with readopen := false }

def size (p : Pipe) : ℕ := count p.nread p.nwrite

/-- The bytes `data[nread .. nwrite)`. -/
def bytes (p : Pipe) : List UInt8 := content PIPESIZE p.data p.nread p.size

inductive Chan where
  | nread
  | nwrite
  deriving DecidableEq, Repr

/-- A call of `pipewrite`; `id` tells it from the other calls. -/
structure WriteCall where
  id : ℕ
  addr : List UInt8
  n : ℤ
  deriving DecidableEq, Repr

/-- `addr[0 .. i)` -/
def WriteCall.bytes (c : WriteCall) (i : ℕ) : List UInt8 :=
  (List.range i).map fun j => c.addr.getD j 0

inductive Loc where
  | idle
  /-- the loop of `pipewrite`; `stored` says whether a byte has been stored since the last
  `wakeup(&p->nread)` -/
  | write (c : WriteCall) (i : ℕ) (stored : Bool)
  /-- `sleep(&p->nwrite, &p->lock)` -/
  | writeSleep (c : WriteCall) (i : ℕ)
  /-- the last `release` of `pipewrite` -/
  | writeDone (c : WriteCall)
  /-- `pipewrite` has returned `r` -/
  | wrote (c : WriteCall) (r : ℤ)
  /-- the first loop of `piperead` -/
  | readWait (n : ℤ)
  /-- the second loop of `piperead`, which has copied `got` -/
  | read (n : ℤ) (got : List UInt8)
  /-- the last `release` of `piperead` -/
  | readDone (n : ℤ) (got : List UInt8)
  /-- `piperead` has returned `r` -/
  | readReturned (n r : ℤ) (got : List UInt8)
  | close (writable : Bool)
  /-- the `wakeup` of `pipeclose` -/
  | closeWakeup (writable : Bool)
  /-- the `release` of `pipeclose` -/
  | closeDone
  deriving DecidableEq, Repr

/-- The pipe, with the bytes that have gone through it: `sent` are those that `pipewrite` has
stored, with the call that did, and `received` those that `piperead` has taken. -/
structure State where
  pipe : Pipe
  sent : List (ℕ × UInt8)
  received : List UInt8
  /-- the number of calls of `pipewrite` so far -/
  calls : ℕ

def next (killed : Bool) (s : State) : Loc → Option (Act State Loc Chan)
  | .write c i _ =>
    some <|
      if (i : ℤ) < c.n then
        if s.pipe.full then
          if !s.pipe.readopen || killed then .release (.wrote c (-1))
          else .wakeup .nread (.writeSleep c i)
        else
          .step { s with
            pipe := s.pipe.store (c.addr.getD i 0)
            sent := s.sent ++ [(c.id,c.addr.getD i 0)] } (.write c (i + 1) true)
      else .wakeup .nread (.writeDone c)
  | .writeSleep c i => some (.sleep .nwrite (.write c i false))
  | .writeDone c => some (.release (.wrote c c.n))
  | .readWait n =>
    some <|
      if s.pipe.empty && s.pipe.writeopen then
        if killed then .release (.readReturned n (-1) []) else .sleep .nread (.readWait n)
      else .step s (.read n [])
  | .read n got =>
    some <|
      if (got.length : ℤ) < n ∧ ¬ s.pipe.empty then
        .step { s with
          pipe := s.pipe.advance
          received := s.received ++ [s.pipe.front] } (.read n (got ++ [s.pipe.front]))
      else .wakeup .nwrite (.readDone n got)
  | .readDone n got => some (.release (.readReturned n got.length got))
  | .close writable => some (.step { s with pipe := s.pipe.close writable } (.closeWakeup writable))
  | .closeWakeup writable => some (.wakeup (if writable then .nread else .nwrite) .closeDone)
  | .closeDone => some (.release .idle)
  | .idle | .wrote _ _ | .readReturned _ _ _ => none

/-- A process that is outside can start any call. -/
def call (s : State) : Loc → Option State
  | .write c 0 false => if c.id = s.calls then some { s with calls := s.calls + 1 } else none
  | .readWait _ | .close _ => some s
  | _ => none

def code : Code State Loc Chan Empty where
  call _ l s := call s l
  next killed l s := next killed s l
  env e := e.elim

def start (data : ℕ → UInt8) : State := ⟨pipealloc data,[],[],0⟩

section Bytes
variable {p : Pipe} {b : UInt8}

theorem PIPESIZE_dvd : PIPESIZE ∣ 2 ^ 32 := by decide

theorem full_iff : p.full = true ↔ p.size = PIPESIZE := by
  rw [full,beq_iff_eq]
  exact count_eq_iff

theorem empty_iff : p.empty = true ↔ p.size = 0 := by
  rw [empty,beq_iff_eq]
  exact count_eq_zero.symm

theorem size_store (h : p.size < PIPESIZE) : (p.store b).size = p.size + 1 :=
  count_succ (lt_trans (Nat.add_lt_add_right h 1) (by decide))

theorem bytes_store (h : p.size < PIPESIZE) : (p.store b).bytes = p.bytes ++ [b] := by
  unfold bytes
  rw [size_store h]
  exact content_push PIPESIZE_dvd rfl h

theorem size_advance (h : p.size ≠ 0) : p.advance.size = p.size - 1 :=
  count_next (Nat.pos_of_ne_zero h)

theorem bytes_eq_cons (h : p.size ≠ 0) : p.bytes = p.front :: p.advance.bytes := by
  unfold bytes
  rw [size_advance h]
  obtain ⟨k,hk⟩ := Nat.exists_eq_succ_of_ne_zero h
  rw [hk]
  exact content_pop PIPESIZE_dvd

theorem bytes_close (writable : Bool) : (p.close writable).bytes = p.bytes := by
  cases writable <;> rfl

theorem size_close (writable : Bool) : (p.close writable).size = p.size := by
  cases writable <;> rfl

end Bytes

def State.sentBy (s : State) (id : ℕ) : List UInt8 :=
  (s.sent.filter fun e => e.1 == id).map Prod.snd

/-- The call of `pipewrite` that a process is in, or was in last. -/
def Loc.call? : Loc → Option ℕ
  | write c _ _ | writeSleep c _ | writeDone c | wrote c _ => some c.id
  | _ => none

def Stored (sent : List UInt8) : Loc → Prop
  | .write c i _ | .writeSleep c i => i ≤ c.n.toNat ∧ sent = c.bytes i
  | .writeDone c => sent = c.bytes c.n.toNat
  | .wrote c r => r = c.n → sent = c.bytes c.n.toNat
  | _ => True

variable {P : Type} [DecidableEq P]

structure Fifo (s : State) (f : P → Loc) : Prop where
  bound : s.pipe.size ≤ PIPESIZE
  order : s.received ++ s.pipe.bytes = s.sent.map Prod.snd
  calls : Calls s.sent s.calls Loc.call? Stored f

/-- What `piperead` knows, with the lock, of the pipe: a read of nothing is from a pipe that is
empty and closed for writing. -/
def Knows (s : State) : Loc → Prop
  | .read _ [] => s.pipe.empty = true → s.pipe.writeopen = false
  | .readDone n [] => 0 < n → s.pipe.empty = true ∧ s.pipe.writeopen = false
  | .writeSleep _ _ => s.pipe.full = true ∧ s.pipe.readopen = true
  | _ => True

def Starts : Loc → Prop
  | .read _ _ | .readDone _ _ | .writeSleep _ _ => False
  | _ => True

theorem WriteCall.bytes_succ (c : WriteCall) (i : ℕ) :
    c.bytes (i + 1) = c.bytes i ++ [c.addr.getD i 0] := by
  simp [bytes,range_succ]

namespace Fifo
variable {s s' : State} {f : P → Loc} {p : P} {l : Loc}

theorem goto (h : Fifo s f)
    (hl : ∀ i, l.call? = some i → (f p).call? = some i ∧ Stored (s.sentBy i) l) :
    Fifo s (update f p l) :=
  ⟨h.bound,h.order,h.calls.move hl⟩

theorem store (h : Fifo s f) {c : WriteCall} {i : ℕ} {st : Bool} (hp : f p = .write c i st)
    (hi : (i : ℤ) < c.n) (hfull : s.pipe.full = false) : Fifo { s with
      pipe := s.pipe.store (c.addr.getD i 0)
      sent := s.sent ++ [(c.id,c.addr.getD i 0)] } (update f p (.write c (i + 1) true)) := by
  have hlt : s.pipe.size < PIPESIZE := by
    refine lt_of_le_of_ne h.bound fun he => ?_
    rw [full_iff.mpr he] at hfull
    cases hfull
  have hself : (f p).call? = some c.id := by rw [hp]; rfl
  have hst := h.calls.each p c.id hself
  rw [hp] at hst
  refine ⟨?_,?_,h.calls.append hself rfl ⟨by omega,?_⟩⟩
  · rw [size_store hlt]
    exact hlt
  · rw [bytes_store hlt,← append_assoc,h.order,map_append]
    rfl
  · rw [hst.2,WriteCall.bytes_succ]

theorem take (h : Fifo s f) (hne : ¬ s.pipe.empty = true) (hl : l.call? = none) : Fifo { s with
      pipe := s.pipe.advance
      received := s.received ++ [s.pipe.front] } (update f p l) := by
  have h0 : s.pipe.size ≠ 0 := fun h0 => hne (empty_iff.mpr h0)
  have hb := h.bound
  refine ⟨?_,?_,h.calls.move ?_⟩
  · rw [size_advance h0]
    omega
  · rw [← h.order,bytes_eq_cons h0]
    simp
  · rw [hl]
    nofun

theorem call (h : Fifo s f) {c : WriteCall} (hc : c.id = s.calls) :
    Fifo { s with calls := s.calls + 1 } (update f p (.write c 0 false)) :=
  ⟨h.bound,h.order,h.calls.call (congrArg some hc) ⟨Nat.zero_le _,rfl⟩⟩

end Fifo

theorem code_invariant (ok : World P State Loc Chan → Move P Loc Empty → Prop) :
    Invariant code ok (fun s (f : P → Loc) _ => Fifo s f) Knows Starts fun _ => True where
  enter := by
    intro s f k p _ _ he
    cases hl : f p <;> rw [hl] at he <;> trivial
  act := by
    intro w s f k p a _ _ _ h hk ha
    have hst := h.calls.each p
    cases hl : f p with
    | write c i st =>
      rw [hl] at ha hst
      cases ha
      have hst := hst c.id rfl
      have hself : ∀ {l : Loc}, l.call? = some c.id → Stored (s.sentBy c.id) l →
          ∀ i, l.call? = some i → (f p).call? = some i ∧ Stored (s.sentBy i) l := by
        intro l hc hstored j hj
        obtain rfl := Option.some.inj (hc.symm.trans hj)
        exact ⟨by rw [hl]; rfl,hstored⟩
      split
      · rename_i hi
        split
        · rename_i hfull
          split
          · exact ⟨h.goto (hself rfl fun hr => by omega),trivial⟩
          · rename_i hopen
            simp only [Bool.or_eq_true,Bool.not_eq_true',not_or,Bool.not_eq_false] at hopen
            exact ⟨h.goto (hself rfl hst),hfull,hopen.1⟩
        · rename_i hfull
          exact ⟨h.store hl hi (by simpa using hfull),trivial⟩
      · rename_i hi
        refine ⟨h.goto (hself rfl ?_),trivial⟩
        change s.sentBy c.id = c.bytes c.n.toNat
        rw [show c.n.toNat = i from by have := hst.1; omega]
        exact hst.2
    | writeSleep c i =>
      rw [hl] at ha hst
      cases ha
      exact ⟨h.goto fun i hi => ⟨by rwa [hl],hst i hi⟩,trivial,trivial⟩
    | writeDone c =>
      rw [hl] at ha hst
      cases ha
      exact ⟨h.goto fun i hi => ⟨by rwa [hl],fun _ => hst i hi⟩,trivial⟩
    | readWait n =>
      rw [hl] at ha
      cases ha
      split
      · split
        · exact ⟨h.goto nofun,trivial⟩
        · exact ⟨h.goto nofun,trivial,trivial⟩
      · rename_i hwait
        refine ⟨h.goto nofun,fun he => ?_⟩
        simpa [he] using hwait
    | read n got =>
      rw [hl] at ha hk
      cases ha
      split
      · rename_i hr
        refine ⟨h.take hr.2 rfl,?_⟩
        cases got <;> trivial
      · rename_i hr
        refine ⟨h.goto nofun,?_⟩
        cases got with
        | nil =>
          intro hn
          have he : s.pipe.empty = true := by
            by_contra he
            exact hr ⟨hn,he⟩
          exact ⟨he,hk he⟩
        | cons b got => trivial
    | readDone n got =>
      rw [hl] at ha
      cases ha
      exact ⟨h.goto nofun,trivial⟩
    | close writable =>
      rw [hl] at ha
      cases ha
      refine ⟨⟨?_,?_,h.calls.move nofun⟩,trivial⟩
      · change (s.pipe.close writable).size ≤ PIPESIZE
        rw [size_close]
        exact h.bound
      · change s.received ++ (s.pipe.close writable).bytes = _
        rw [bytes_close]
        exact h.order
    | closeWakeup writable =>
      rw [hl] at ha
      cases ha
      exact ⟨h.goto nofun,trivial⟩
    | closeDone =>
      rw [hl] at ha
      cases ha
      exact ⟨h.goto nofun,trivial⟩
    | _ => rw [hl] at ha; cases ha
  call := by
    intro s s' f k p l h hs
    change call s l = some s' at hs
    have hknow : ∀ (s' : State), s'.pipe = s.pipe → ∀ l', Knows s l' → Knows s' l' := by
      intro s' hp l' hk
      unfold Knows at *
      rwa [hp]
    unfold call at hs
    split at hs
    · split at hs
      · cases hs
        exact ⟨h.call ‹_›,trivial,hknow _ rfl,fun h => h⟩
      · cases hs
    · cases hs
      exact ⟨h.goto nofun,trivial,fun _ h => h,fun h => h⟩
    · cases hs
      exact ⟨h.goto nofun,trivial,fun _ h => h,fun h => h⟩
    · cases hs
  kill _ h := h
  env := by
    intro _ _ _ _ _ e
    exact e.elim

omit [DecidableEq P] in
theorem fifo_start (data : ℕ → UInt8) : Fifo (start data) fun _ : P => Loc.idle := by
  have h0 : (start data).pipe.size = 0 := count_self
  refine ⟨?_,?_,Calls.init fun _ => rfl⟩
  · rw [h0]
    exact Nat.zero_le _
  · rw [bytes,h0]
    rfl

def writeTwo (a b : Fin 2) : List (Move (Fin 2) Loc Empty) :=
  [.call a (.write ⟨0,[7, 8],2⟩ 0 false)] ++ List.replicate 7 (.run a) ++
    [.call b (.readWait 1)] ++ List.replicate 7 (.run b)

end Pipe
end Xv6
