import Xv6.Log.Ops

/-! # `fs.c`: the super block and the block allocator -/
namespace Xv6.Fs

def readsb : Fs Superblock := do
  bread 1
  let sb := Superblock.ofBlock (← data 1)
  brelse 1
  return sb

def bzero (bno : ℕ) : Fs Unit := do
  bread bno
  setData bno Bytes.zero
  logWrite bno
  brelse bno

/-- The inner loop of `balloc`: the first clear bit among the first `n`. -/
def freeBit (b : Block) (n : ℕ) : Option ℕ := (List.range n).find? fun bi => !b.bit bi

/-- The outer loop of `balloc` from block `b` on. -/
def ballocFrom : ℕ → ℕ → Fs ℕ
  | 0, _ => panic .ballocOutOfBlocks
  | fuel + 1, b => do
    let sb := (← view).sb
    if b < sb.size then
      bread (BBLOCK b sb)
      match freeBit (← data (BBLOCK b sb)) (min BPB (sb.size - b)) with
      | some bi =>
        setData (BBLOCK b sb) ((← data (BBLOCK b sb)).setBit bi)
        logWrite (BBLOCK b sb)
        brelse (BBLOCK b sb)
        bzero (b + bi)
        return b + bi
      | none =>
        brelse (BBLOCK b sb)
        ballocFrom fuel (b + BPB)
    else panic .ballocOutOfBlocks

def balloc : Fs ℕ := do ballocFrom ((← view).sb.size / BPB + 1) 0

/-- Free a disk block.  The super block is read again into `sb`. -/
def bfree (b : ℕ) : Fs Unit := do
  setSb (← readsb)
  let sb := (← view).sb
  bread (BBLOCK b sb)
  panicIf (!(← data (BBLOCK b sb)).bit (b % BPB)) .freeingFreeBlock
  setData (BBLOCK b sb) ((← data (BBLOCK b sb)).clearBit (b % BPB))
  logWrite (BBLOCK b sb)
  brelse (BBLOCK b sb)

end Xv6.Fs
