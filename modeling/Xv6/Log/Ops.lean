import Xv6.Sys.Bio

/-! # `log.c`

The functions of `log.c` over the buffer cache.  The sections under `log.lock`
are those of `Xv6.Log.Section`. -/
namespace Xv6

/-- `hb->block[i] = log.lh.block[i]`, from index `i` on. -/
def Block.storeBlocks : Block → ℕ → List ℕ → Block
  | b, _, [] => b
  | b, i, x :: xs => storeBlocks (b.setWord (i + 1) (UInt32.ofNat x)) (i + 1) xs

/-- A `struct logheader` stored over the data of a block. -/
def Block.storeHead (b : Block) (l : List ℕ) : Block :=
  Block.storeBlocks (b.setWord 0 (UInt32.ofNat l.length)) 0 l

/-- The `struct logheader` in the data of a block: `n` is signed, and `block` is
read up to `n`. -/
def Block.loadHead (b : Block) : List ℕ :=
  (List.range (b.word 0).toInt32.toInt.toNat).map fun i => (b.word (i + 1)).toNat

namespace Fs

def installTransFrom (start : ℕ) : ℕ → List ℕ → Fs Unit
  | _, [] => pure ()
  | tail, b :: bs => do
    bread (start + tail + 1)
    bread b
    setData b (← data (start + tail + 1))
    bwrite b
    brelse (start + tail + 1)
    brelse b
    installTransFrom start (tail + 1) bs

def installTrans : Fs Unit := do
  let log := (← view).log
  installTransFrom log.start 0 log.block

def readHead : Fs Unit := do
  let log := (← view).log
  bread log.start
  let lh := (← data log.start).loadHead
  logSection fun l => ((),{ l with block := lh })
  brelse log.start

def writeHead : Fs Unit := do
  let log := (← view).log
  bread log.start
  setData log.start ((← data log.start).storeHead log.block)
  bwrite log.start
  brelse log.start

def recoverFromLog : Fs Unit := do
  readHead
  installTrans
  logSection fun l => ((),l.clear)
  writeHead

def writeLogFrom (start : ℕ) : ℕ → List ℕ → Fs Unit
  | _, [] => pure ()
  | tail, b :: bs => do
    bread (start + tail + 1)
    bread b
    setData (start + tail + 1) (← data b)
    bwrite (start + tail + 1)
    brelse b
    brelse (start + tail + 1)
    writeLogFrom start (tail + 1) bs

def writeLog : Fs Unit := do
  let log := (← view).log
  writeLogFrom log.start 0 log.block

def commit : Fs Unit := do
  if (← view).log.n > 0 then
    writeLog
    writeHead
    installTrans
    logSection fun l => ((),l.clear)
    writeHead

def beginOp : Fs Unit := awaitLog Log.beginOp

/-- The first section of `end_op`: it decrements `outstanding` before it looks at
`committing`. -/
def endOpSection (l : Log) : Except LogPanic Bool × Log :=
  match l.endOp with
  | .error e => (.error e,{ l with outstanding := l.outstanding - 1 })
  | .ok (doCommit,l') => (.ok doCommit,l')

def endOp : Fs Unit := do
  match ← logSection endOpSection with
  | .error e => panic (.log e)
  | .ok false => pure ()
  | .ok true =>
    commit
    logSection fun l => ((),l.endCommit)

def logWrite (b : ℕ) : Fs Unit := do
  match (← view).log.logWriteTest with
  | .error e => panic (.log e)
  | .ok () => logSection fun l => ((),l.logWriteUpdate b)

end Fs
end Xv6
