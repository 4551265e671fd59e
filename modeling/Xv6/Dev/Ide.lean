import Xv6.Dev.Disk
import Xv6.Lib.Linked
import Xv6.Lib.Monitor

/-! # `ide.c` and `memide.c`

`iderw` puts its buffer at the end of `idequeue` and sleeps until `ideintr` has completed the
request.  `idelock` is the lock of the monitor, and the channels are the buffers.  The driver of
the memory disk, `memide.c`, completes each request at once: the requests in the order of their
arrival give the same disk and the same buffers. -/
namespace Xv6.Ide
open Monitor Linked
open Function (update)
open List

/-- What happens to the buffers: a request arrives for a buffer, or its holder changes it. -/
inductive Event (B α : Type) where
  | request (b : B)
  | edit (b : B) (x : Buf α)
  deriving DecidableEq

/-- `memdisk` of `memide.c`, and the buffers. -/
structure Memory (B α : Type) where
  memdisk : ℕ → α
  bufs : B → Buf α

namespace Memory
variable {B α : Type} [DecidableEq B]

/-- `iderw` of `memide.c`; there is no result when it panics. -/
def iderw (m : Memory B α) (b : B) : Option (Memory B α) :=
  let x := m.bufs b
  if x.clean then none -- iderw: nothing to do
  else if x.dev ≠ 1 then none -- iderw: request not for disk 1
  else if FSSIZE ≤ x.blockno then none -- iderw: block out of range
  else if x.dirty then
    some
      { memdisk := update m.memdisk x.blockno x.data
        bufs := update m.bufs b { x with dirty := false, valid := true } }
  else some { m with bufs := update m.bufs b { x with data := m.memdisk x.blockno, valid := true } }

def step (m : Memory B α) : Event B α → Option (Memory B α)
  | .request b => m.iderw b
  | .edit b x => some { m with bufs := update m.bufs b x }

def run (m : Memory B α) (events : List (Event B α)) : Option (Memory B α) := events.foldlM step m

theorem run_append {m m' : Memory B α} {events : List (Event B α)} (h : m.run events = some m')
    (e : Event B α) : m.run (events ++ [e]) = m'.step e := by
  unfold run at *
  rw [foldlM_append,h]
  simp

end Memory

/-- The buffers, the static variables of `ide.c` and the disk.  The other fields record the
requests: `inCall` says which buffers a call of `iderw` has, `arrivals` the requests with their
commands, `served` how many of them `ideintr` has completed. -/
structure State (B α : Type) where
  bufs : B → Buf α
  /-- `idequeue` and `qnext` -/
  queue : Queue B
  device : Device α
  inCall : B → Bool
  arrivals : List (B × Cmd α)
  served : ℕ
  events : List (Event B α)

/-- Where a process, or an interrupt handler, is; `k` is the number of its request. -/
inductive Loc (B : Type) where
  | idle
  /-- `iderw` with `idelock` -/
  | append (b : B)
  /-- the loop along `idequeue` -/
  | walk (b : B) (pp : Link B)
  /-- the loop that waits for the request -/
  | wait (b : B) (k : ℕ)
  /-- the `release` of `iderw` -/
  | leave (b : B) (k : ℕ)
  | returned (b : B) (k : ℕ)
  /-- `ideintr` with `idelock` -/
  | intr
  /-- `wakeup(b)` -/
  | intrWakeup (b : B)
  /-- `if(idequeue != 0) idestart(idequeue)` -/
  | intrStart
  /-- the `release` of `ideintr` -/
  | intrDone
  deriving DecidableEq, Repr

/-- What the disk does, and what the holder of a buffer does to it. -/
inductive Env (B α : Type) where
  | complete (error : Bool)
  | edit (b : B) (x : Buf α)

variable {B α : Type} [DecidableEq B]

namespace State

def pending (s : State B α) : List (B × Cmd α) := s.arrivals.drop s.served

/-- `*pp = b; if(idequeue == b) idestart(b);` -/
def arrive (s : State B α) (b : B) (pp : Link B) : Option (State B α) :=
  let s' := { s with
    queue := s.queue.set pp (some b)
    arrivals := s.arrivals ++ [(b,(s.bufs b).command)]
    events := s.events ++ [.request b] }
  if s'.queue.head = some b then
    (s.device.idestart (s.bufs b)).map fun d => { s' with device := d }
  else some s'

/-- `ideintr` up to its `wakeup`. -/
def take (s : State B α) (b : B) : Option (State B α) :=
  (s.device.insl (s.bufs b)).map fun data =>
    { s with
      bufs := update s.bufs b { s.bufs b with valid := true, dirty := false, data := data }
      queue := { s.queue with head := s.queue.next b }
      served := s.served + 1 }

end State

def next (s : State B α) : Loc B → Option (Act (State B α) (Loc B) B)
  | .append b => some (.step { s with queue := s.queue.set (.next b) none } (.walk b .head))
  | .walk b pp =>
    match s.queue.get pp with
    | some c => some (.step s (.walk b (.next c)))
    | none => (s.arrive b pp).map fun s' => .step s' (.wait b s.arrivals.length)
  | .wait b k =>
    some <|
      if (s.bufs b).clean then .step { s with inCall := update s.inCall b false } (.leave b k)
      else .sleep b (.wait b k)
  | .leave b k => some (.release (.returned b k))
  | .intr =>
    match s.queue.head with
    | none => some (.release .idle)
    | some b => (s.take b).map fun s' => .step s' (.intrWakeup b)
  | .intrWakeup b => some (.wakeup b .intrStart)
  | .intrStart =>
    match s.queue.head with
    | none => some (.step s .intrDone)
    | some b => (s.device.idestart (s.bufs b)).map fun d => .step { s with device := d } .intrDone
  | .intrDone => some (.release .idle)
  | .idle | .returned _ _ => none

def iderwPanic (havedisk1 : Bool) (b : Buf α) : Option String :=
  if b.clean then some "iderw: nothing to do"
  else if b.dev ≠ 0 ∧ !havedisk1 then some "iderw: ide disk 1 not present"
  else none

/-- A request for which neither `iderw` nor `idestart` panics, with disk 1 present. -/
structure Accepted (b : Buf α) : Prop where
  request : iderwPanic true b = none
  blockno : b.blockno < FSSIZE

structure Fits (b : Buf α) : Prop extends Accepted b where
  dev : b.dev = 1

instance (b : Buf α) : Decidable (Accepted b) :=
  decidable_of_iff (iderwPanic true b = none ∧ b.blockno < FSSIZE)
    ⟨fun ⟨h1,h2⟩ => ⟨h1,h2⟩,fun ⟨h1,h2⟩ => ⟨h1,h2⟩⟩

instance (b : Buf α) : Decidable (Fits b) :=
  decidable_of_iff (Accepted b ∧ b.dev = 1) ⟨fun ⟨h1,h2⟩ => ⟨h1,h2⟩,fun ⟨h1,h2⟩ => ⟨h1,h2⟩⟩

/-- A call of `iderw` with a buffer that its process holds, or an interrupt. -/
def call (s : State B α) : Loc B → Option (State B α)
  | .append b =>
    if s.inCall b = false ∧ Fits (s.bufs b) then
      some { s with inCall := update s.inCall b true }
    else none
  | .intr => some s
  | _ => none

def env (s : State B α) : Env B α → Option (State B α)
  | .complete error => (s.device.complete error).map fun d => { s with device := d }
  | .edit b x =>
    if s.inCall b = false then
      some { s with bufs := update s.bufs b x, events := s.events ++ [.edit b x] }
    else none

def code : Code (State B α) (Loc B) B (Env B α) where
  call _ l s := call s l
  next _ l s := next s l
  env e s := env s e

/-- No request has been made; the disks and the buffers have any contents. -/
def start (disk : ℕ → ℕ → α) (bufs : B → Buf α) (qnext : B → Option B) (buffer : α) : State B α where
  bufs := bufs
  queue := ⟨none,qnext⟩
  device := ⟨disk,none,buffer,false,[]⟩
  inCall := fun _ => false
  arrivals := []
  served := 0
  events := []

theorem Accepted.not_clean {x : Buf α} (h : Accepted x) : x.clean = false := by
  by_contra hc
  have := h.request
  rw [iderwPanic,if_pos (by simpa using hc)] at this
  cases this

theorem Fits.command {x : Buf α} (h : Fits x) :
    x.command = if x.dirty then .write 1 x.blockno x.data else .read 1 x.blockno := by
  rw [Buf.command_eq h.blockno,h.dev]

/-- The requests in order lead from one contents of disk 1 to another, and give the buffers
the data `result`. -/
def Replays (result : B → α) : (ℕ → α) → List (B × Cmd α) → (ℕ → α) → Prop
  | d, [], d' => d' = d
  | d, (b,.read _ n) :: rest, d' => result b = d n ∧ Replays result d rest d'
  | d, (b,.write _ n x) :: rest, d' => result b = x ∧ Replays result (update d n x) rest d'

section Replays
variable {r r' : B → α} {d d' d'' : ℕ → α} {l : List (B × Cmd α)}

omit [DecidableEq B] in
theorem Replays.congr (h : Replays r d l d') (hr : ∀ e ∈ l, r' e.1 = r e.1) :
    Replays r' d l d' := by
  induction l generalizing d with
  | nil => exact h
  | cons e l ih =>
    obtain ⟨b,c⟩ := e
    have hb := hr (b,c) mem_cons_self
    have hl : ∀ e ∈ l, r' e.1 = r e.1 := fun e he => hr e (mem_cons_of_mem _ he)
    cases c with
    | read k n => exact ⟨hb.trans h.1,ih h.2 hl⟩
    | write k n x => exact ⟨hb.trans h.1,ih h.2 hl⟩

omit [DecidableEq B] in
theorem Replays.append {e : B × Cmd α} (h : Replays r d l d') (he : Replays r d' [e] d'') :
    Replays r d (l ++ [e]) d'' := by
  induction l generalizing d with
  | nil =>
    obtain rfl := h
    exact he
  | cons e' l ih =>
    obtain ⟨b,c⟩ := e'
    cases c with
    | read k n => exact ⟨h.1,ih h.2⟩
    | write k n x => exact ⟨h.1,ih h.2⟩

end Replays

end Xv6.Ide
