import Xv6.Bcache.Sharing
import Xv6.Log.Ops

/-! # The buffer cache under the log

The buffers with their data, the disk behind them, and the log above them: processes
read, change, write, log and release blocks, and the last `end_op` of a transaction
runs `commit`.  A process changes only buffers that it holds, and does not release a
buffer that it has changed before `bwrite` or `log_write`.  All blocks are on the disk
`ROOTDEV`. -/
namespace Xv6.Caching
open Function (update)

def ROOTDEV : ℕ := 1

/-- The calls that `commit` makes, in its order. -/
inductive Call where
  | bread (x : ℕ)
  /-- `memmove(dst->data, src->data, BSIZE)` -/
  | copy (dst src : ℕ)
  /-- the header stored into the data of the block -/
  | storeHead (x : ℕ)
  | bwrite (x : ℕ)
  | brelse (x : ℕ)
  /-- `log.lh.n = 0` -/
  | clear
  deriving DecidableEq

namespace Call

def writeLogFrom (start : ℕ) : ℕ → List ℕ → List Call
  | _, [] => []
  | tail, x :: xs =>
    .bread (start + tail + 1) :: .bread x :: .copy (start + tail + 1) x ::
      .bwrite (start + tail + 1) :: .brelse x :: .brelse (start + tail + 1) ::
      writeLogFrom start (tail + 1) xs

def writeHead (start : ℕ) : List Call :=
  [.bread start, .storeHead start, .bwrite start, .brelse start]

def installTransFrom (start : ℕ) : ℕ → List ℕ → List Call
  | _, [] => []
  | tail, x :: xs =>
    .bread (start + tail + 1) :: .bread x :: .copy x (start + tail + 1) :: .bwrite x ::
      .brelse (start + tail + 1) :: .brelse x :: installTransFrom start (tail + 1) xs

def commit (l : Log) : List Call :=
  if l.n > 0 then
    writeLogFrom l.start 0 l.block ++ writeHead l.start ++ installTransFrom l.start 0 l.block ++
      .clear :: writeHead l.start
  else []

end Call

inductive Phase where
  | run
  /-- `bread(x)`, in the `acquiresleep` of `bget` -/
  | getting (x : ℕ)
  /-- `bread(x)`, with buffer `b` locked -/
  | locked (x : ℕ) (b : Fin NBUF)
  /-- `log_write`, between its tests and its section -/
  | logging (b : Fin NBUF)
  deriving DecidableEq

structure World (P : Type) where
  shared : Sharing.World P
  data : Fin NBUF → Block
  disk : Disk
  log : Log
  phase : P → Phase
  /-- is the process between `begin_op` and `end_op`? -/
  op : P → Bool
  /-- what is left of the `commit` that the process runs -/
  script : P → Option (List Call)
  /-- has the holder changed the data since the last `bwrite` or `log_write`? -/
  modified : Fin NBUF → Bool
  /-- the blocks that have been logged since they were last written to their place -/
  unwritten : Finset ℕ

variable {P : Type} [DecidableEq P]

namespace World

def buf (w : World P) (b : Fin NBUF) : Buf := w.shared.cache.buf b

def held (w : World P) (p : P) (x : ℕ) : Option (Fin NBUF) :=
  (List.finRange NBUF).find? fun b =>
    decide (w.shared.owner b = some p) && w.shared.cache.label b == (ROOTDEV,x)

/-- The logical content of a block: the data of its valid buffer, or the disk block. -/
def logical (w : World P) (x : ℕ) : Block :=
  match (List.finRange NBUF).find? fun b =>
      w.shared.cache.label b == (ROOTDEV,x) && (w.buf b).valid with
  | some b => w.data b
  | none => w.disk x

def share (w : World P) (p : P) (a : Sharing.Action) : Option (World P) :=
  (w.shared.step p a).map fun s => { w with shared := s }

def goto (w : World P) (p : P) (c : Phase) : World P := { w with phase := update w.phase p c }

def bget (w : World P) (p : P) (x : ℕ) : Option (World P) :=
  if w.phase p = .run then (w.share p (.bget ROOTDEV x)).map (·.goto p (.getting x)) else none

def acquiresleep (w : World P) (p : P) : Option (World P) :=
  match w.phase p, w.shared.pc p with
  | .getting x, .wait b => (w.share p .acquiresleep).map (·.goto p (.locked x b))
  | _, _ => none

/-- `iderw` with the interrupt that ends it. -/
def iderw (w : World P) (p : P) (b : Fin NBUF) : Option (World P) :=
  (w.share p (.setFlags b true false)).map fun w' =>
    if (w.buf b).dirty then { w' with disk := update w.disk (w.buf b).blockno (w.data b) }
    else { w' with data := update w.data b (w.disk (w.buf b).blockno) }

/-- `bread` reads a buffer that is not valid. -/
def fill (w : World P) (p : P) : Option (World P) :=
  match w.phase p with
  | .locked _ b => if (w.buf b).valid then none else w.iderw p b
  | _ => none

def ret (w : World P) (p : P) : Option (World P) :=
  match w.phase p with
  | .locked _ b => if (w.buf b).valid then some (w.goto p .run) else none
  | _ => none

/-- The process runs its own code with the buffer locked and read. -/
def Has (w : World P) (p : P) (b : Fin NBUF) : Prop :=
  w.phase p = .run ∧ w.shared.pc p = .run ∧ w.shared.owner b = some p ∧ (w.buf b).valid = true

instance (w : World P) (p : P) (b : Fin NBUF) : Decidable (w.Has p b) := by
  unfold Has
  infer_instance

def store (w : World P) (p : P) (b : Fin NBUF) (x : Block) : Option (World P) :=
  if w.Has p b then
    some { w with data := update w.data b x, modified := update w.modified b true }
  else none

/-- `b->flags |= B_DIRTY; iderw(b);` -/
def bwrite (w : World P) (p : P) (b : Fin NBUF) : Option (World P) :=
  if w.Has p b then
    ((w.share p (.setFlags b true true)).bind (·.iderw p b)).map fun w' =>
      { w' with
        modified := update w.modified b false
        unwritten := w.unwritten.erase (w.buf b).blockno }
  else none

def releasesleep (w : World P) (p : P) (b : Fin NBUF) : Option (World P) :=
  if w.Has p b then w.share p (.releasesleep b) else none

def brelse (w : World P) (p : P) : Option (World P) := w.share p .brelse

/-- The tests of `log_write`; a panic stops the system. -/
def logWrite (w : World P) (p : P) (b : Fin NBUF) : Option (World P) :=
  if w.Has p b ∧ w.op p = true then
    match w.log.logWriteTest with
    | .ok _ => some (w.goto p (.logging b))
    | .error _ => none
  else none

/-- The section of `log_write`. -/
def logUpdate (w : World P) (p : P) : Option (World P) :=
  match w.phase p with
  | .logging b => (w.share p (.setFlags b true true)).map fun w' =>
      { w'.goto p .run with
        log := w.log.logWriteUpdate (w.buf b).blockno
        modified := update w.modified b false
        unwritten := insert (w.buf b).blockno w.unwritten }
  | _ => none

def beginOp (w : World P) (p : P) : Option (World P) :=
  if w.op p = false ∧ w.phase p = .run then
    w.log.beginOp.map fun l => { w with log := l, op := update w.op p true }
  else none

def endOp (w : World P) (p : P) : Option (World P) :=
  if w.op p = true ∧ w.phase p = .run then
    match w.log.endOp with
    | .error _ => none
    | .ok (false,l) => some { w with log := l, op := update w.op p false }
    | .ok (true,l) =>
      some { w with
        log := l
        op := update w.op p false
        script := update w.script p (some (Call.commit l)) }
  else none

def advance (w : World P) (p : P) (s : List Call) : World P :=
  { w with script := update w.script p (some s) }

/-- The next step of `commit` and of the end of `end_op`. -/
def commitStep (w : World P) (p : P) : List Call → Option (World P)
  | [] => some { w with log := w.log.endCommit, script := update w.script p none }
  | .bread x :: s =>
    match w.phase p with
    | .run => w.bget p x
    | .getting _ => w.acquiresleep p
    | .locked _ b => if (w.buf b).valid then (w.ret p).map (·.advance p s) else w.fill p
    | .logging _ => none
  | .copy dst src :: s =>
    match w.held p dst, w.held p src with
    | some b, some b' => (w.store p b (w.data b')).map (·.advance p s)
    | _, _ => none
  | .storeHead x :: s =>
    match w.held p x with
    | some b => (w.store p b ((w.data b).storeHead w.log.block)).map (·.advance p s)
    | none => none
  | .bwrite x :: s =>
    match w.held p x with
    | some b => (w.bwrite p b).map (·.advance p s)
    | none => none
  | .brelse x :: s =>
    match w.shared.pc p with
    | .drop _ => (w.brelse p).map (·.advance p s)
    | _ =>
      match w.held p x with
      | some b => w.releasesleep p b
      | none => none
  | .clear :: s => some { w.advance p s with log := w.log.clear }

end World

inductive Action where
  | bget (x : ℕ)
  | acquiresleep
  | fill
  | ret
  | store (b : Fin NBUF) (x : Block)
  | bwrite (b : Fin NBUF)
  | logWrite (b : Fin NBUF)
  | logUpdate
  | releasesleep (b : Fin NBUF)
  | brelse
  | beginOp
  | endOp
  | commit

namespace World

/-- One step of process `p`, which does nothing else while it runs `commit`. -/
def step (w : World P) (p : P) (a : Action) : Option (World P) :=
  match a, w.script p with
  | .commit, some s => w.commitStep p s
  | .bget x, none => w.bget p x
  | .acquiresleep, none => w.acquiresleep p
  | .fill, none => w.fill p
  | .ret, none => w.ret p
  | .store b x, none => w.store p b x
  | .bwrite b, none => w.bwrite p b
  | .logWrite b, none => w.logWrite p b
  | .logUpdate, none => w.logUpdate p
  | .releasesleep b, none => if w.modified b then none else w.releasesleep p b
  | .brelse, none => w.brelse p
  | .beginOp, none => w.beginOp p
  | .endOp, none => w.endOp p
  | _, _ => none

def exec (w : World P) : List (P × Action) → Option (World P)
  | [] => some w
  | (p,a) :: run => (w.step p a).bind (·.exec run)

def init (P : Type) (disk : Disk) (start size : ℕ) : World P where
  shared := .init P
  data := fun _ => Bytes.zero
  disk := disk
  log := { start := start, size := size, outstanding := 0, committing := false, block := [] }
  phase := fun _ => .run
  op := fun _ => false
  script := fun _ => none
  modified := fun _ => false
  unwritten := ∅

end World

inductive Reach (w₀ : World P) : World P → Prop where
  | init : Reach w₀ w₀
  | step {w w' : World P} {p : P} {a : Action} (h : Reach w₀ w) (hs : w.step p a = some w') :
      Reach w₀ w'

end Xv6.Caching
