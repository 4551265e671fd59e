import Xv6.Fs.Block

/-! # `fs.c`: inodes and their contents

An inode in memory is named by its slot in the inode cache, which stands for
the pointer `ip`. -/
namespace Xv6
open Conc

namespace Icache

/-- The section of `iget`: the slot that already caches `inum`, or else the first
slot that is not in use. -/
def iget (inum : ℕ) (t : ℕ → Inode) : Option ℕ × Option (ℕ × Inode) :=
  match (List.range NINODE).find? fun k => decide ((t k).ref > 0 ∧ (t k).inum = inum) with
  | some k => (some k,some (k,{ t k with ref := (t k).ref + 1 }))
  | none =>
    match (List.range NINODE).find? fun k => decide ((t k).ref = 0) with
    | some k => (some k,some (k,{ t k with inum := inum, ref := 1, valid := false }))
    | none => (none,none)

def addRef (k : ℕ) (n : ℤ) (t : ℕ → Inode) : Option (ℕ × Inode) :=
  some (k,{ t k with ref := (t k).ref + n })

end Icache

namespace Fs

def iget (inum : ℕ) : Fs ℕ := do
  match ← icacheSection (Icache.iget inum) with
  | some k => pure k
  | none => panic .igetNoInodes

def iallocFrom (type : Int16) : ℕ → ℕ → Fs ℕ
  | 0, _ => panic .iallocNoInodes
  | fuel + 1, inum => do
    let sb := (← view).sb
    if inum < sb.ninodes then
      bread (IBLOCK inum sb)
      if ((← data (IBLOCK inum sb)).dinode (inum % IPB)).type = 0 then
        setData (IBLOCK inum sb)
          ((← data (IBLOCK inum sb)).setDinode (inum % IPB) { Dinode.zero with type := type })
        logWrite (IBLOCK inum sb)
        brelse (IBLOCK inum sb)
        iget inum
      else
        brelse (IBLOCK inum sb)
        iallocFrom type fuel (inum + 1)
    else panic .iallocNoInodes

/-- Allocate an inode of type `type`; it is returned unlocked and referenced. -/
def ialloc (type : Int16) : Fs ℕ := do iallocFrom type (← view).sb.ninodes 1

def iupdate (k : ℕ) : Fs Unit := do
  let sb := (← view).sb
  let ip ← inode k
  bread (IBLOCK ip.inum sb)
  setData (IBLOCK ip.inum sb) ((← data (IBLOCK ip.inum sb)).setDinode (ip.inum % IPB) ip.d)
  logWrite (IBLOCK ip.inum sb)
  brelse (IBLOCK ip.inum sb)

def idup (k : ℕ) : Fs ℕ := icacheSection fun t => (k,Icache.addRef k 1 t)

/-- The part of `ilock` that reads the inode from disk. -/
def iload (k : ℕ) : Fs Unit := do
  let sb := (← view).sb
  let inum := (← inode k).inum
  bread (IBLOCK inum sb)
  let dip := (← data (IBLOCK inum sb)).dinode (inum % IPB)
  modifyInode k fun ip => { ip with d := dip }
  brelse (IBLOCK inum sb)
  modifyInode k fun ip => { ip with valid := true }
  panicIf ((← inode k).d.type = 0) .ilockNoType

def ilock (k : ℕ) : Fs Unit := do
  panicIf ((← inode k).ref < 1) .ilock
  acquiresleep (.inode k)
  whenever (!(← inode k).valid) (iload k)

def iunlock (k : ℕ) : Fs Unit := do
  panicIf (!(← holdingsleep (.inode k)) || (← inode k).ref < 1) .iunlock
  releasesleep (.inode k)

/-- `addrs[i]`, allocated if it is zero. -/
def bmapAddr (k i : ℕ) : Fs ℕ := do
  let addr := ((← inode k).d.addr i).toNat
  if addr = 0 then
    let addr ← balloc
    modifyInode k fun ip => { ip with d := ip.d.setAddr i (UInt32.ofNat addr) }
    return addr
  else return addr

/-- `a[bn]` of the indirect block `addr`, allocated if it is zero. -/
def bmapIndirect (addr bn : ℕ) : Fs ℕ := do
  let a := ((← data addr).word bn).toNat
  if a = 0 then
    let a ← balloc
    setData addr ((← data addr).setWord bn (UInt32.ofNat a))
    logWrite addr
    return a
  else return a

/-- The disk block address of the `bn`-th block of an inode, which is allocated if
there is none. -/
def bmap (k bn : ℕ) : Fs ℕ := do
  if bn < NDIRECT then bmapAddr k bn
  else if bn - NDIRECT < NINDIRECT then
    let addr ← bmapAddr k NDIRECT
    bread addr
    let a ← bmapIndirect addr (bn - NDIRECT)
    brelse addr
    return a
  else panic .bmapOutOfRange

/-- The body of the first loop of `itrunc`. -/
def itruncDirect (k i : ℕ) : Fs Unit := do
  let addr := ((← inode k).d.addr i).toNat
  whenever (addr != 0) do
    bfree addr
    modifyInode k fun ip => { ip with d := ip.d.setAddr i 0 }

/-- The body of the second loop of `itrunc`. -/
def itruncIndirect (addr j : ℕ) : Fs Unit := do
  let a := ((← data addr).word j).toNat
  whenever (a != 0) (bfree a)

def itrunc (k : ℕ) : Fs Unit := do
  (List.range NDIRECT).forM (itruncDirect k)
  let addr := ((← inode k).d.addr NDIRECT).toNat
  whenever (addr != 0) do
    bread addr
    (List.range NINDIRECT).forM (itruncIndirect addr)
    brelse addr
    bfree ((← inode k).d.addr NDIRECT).toNat
    modifyInode k fun ip => { ip with d := ip.d.setAddr NDIRECT 0 }
  modifyInode k fun ip => { ip with d := { ip.d with size := 0 } }
  iupdate k

/-- Truncate and free an inode with no links and no other references. -/
def ifree (k : ℕ) : Fs Unit := do
  itrunc k
  modifyInode k fun ip => { ip with d := { ip.d with type := 0 } }
  iupdate k
  modifyInode k fun ip => { ip with valid := false }

def iput (k : ℕ) : Fs Unit := do
  acquiresleep (.inode k)
  let ip ← inode k
  whenever (ip.valid && ip.d.nlink == 0) do
    let r := (← inode k).ref
    whenever (r == 1) (ifree k)
  releasesleep (.inode k)
  icacheSection fun t => ((),Icache.addRef k (-1) t)

def iunlockput (k : ℕ) : Fs Unit := do
  iunlock k
  iput k

/-- What `consoleread` takes from the ready input when `n` of `target` bytes are
still wanted: the bytes, the input that is left, and whether it ran dry. -/
def consoleInput (target : ℕ) : ℕ → List UInt8 → List UInt8 × List UInt8 × Bool
  | 0, input => ([],input,false)
  | _ + 1, [] => ([],[],true)
  | n + 1, c :: input =>
    if c = 4 then if n + 1 < target then ([],c :: input,false) else ([],input,false)
    else if c = 10 then ([c],input,false)
    else
      let r := consoleInput target n input
      (c :: r.1,r.2)

/-- `consoleread`; input that is not there yet is waited for, unless the process
has been killed. -/
def consoleread (p k n : ℕ) : Fs (ℤ × List UInt8) := do
  iunlock k
  let r := consoleInput n n (← view).input
  if r.2.2 then
    if (← proc p).killed then
      setInput r.2.1
      ilock k
      return (-1,r.1)
    else
      Prog.await fun _ => none
      return (-1,[])
  else
    setInput r.2.1
    ilock k
    return (r.1.length,r.1)

def consolewrite (k : ℕ) (src : List UInt8) : Fs ℤ := do
  iunlock k
  ilock k
  return src.length

/-- The device that `consoleinit` puts into `devsw`. -/
def CONSOLE : Int16 := 1

def bytesAt (b : Block) (off m : ℕ) : List UInt8 := (List.range m).map fun i => b.byte (off + i)

/-- The loop of `readi`: `n` bytes are still to be read. -/
def readiLoop (k : ℕ) : ℕ → ℕ → ℕ → Fs (List UInt8)
  | 0, _, _ => pure []
  | fuel + 1, off, n =>
    if n = 0 then pure []
    else do
      let b ← bmap k (off / BSIZE)
      bread b
      let m := min n (BSIZE - off % BSIZE)
      let dst := bytesAt (← data b) (off % BSIZE) m
      brelse b
      return dst ++ (← readiLoop k fuel (off + m) (n - m))

/-- Read data from an inode: the result and the bytes that are copied out. -/
def readi (p k off n : ℕ) : Fs (ℤ × List UInt8) := do
  let ip ← inode k
  if ip.d.type = T_DEV then
    if ip.d.major = CONSOLE then consoleread p k n else return (-1,[])
  else if off > ip.d.size.toNat ∨ (off + n) % 2 ^ 32 < off then return (-1,[])
  else
    let n := if off + n > ip.d.size.toNat then ip.d.size.toNat - off else n
    let dst ← readiLoop k n off n
    return (n,dst)

/-- The loop of `writei`: `src` is still to be written. -/
def writeiLoop (k : ℕ) : ℕ → ℕ → List UInt8 → Fs Unit
  | 0, _, _ => pure ()
  | fuel + 1, off, src =>
    if src = [] then pure ()
    else do
      let b ← bmap k (off / BSIZE)
      bread b
      let m := min src.length (BSIZE - off % BSIZE)
      setData b ((← data b).splice (off % BSIZE) m fun i => src.getD i 0)
      logWrite b
      brelse b
      writeiLoop k fuel (off + m) (src.drop m)

def writei (k off : ℕ) (src : List UInt8) : Fs ℤ := do
  let ip ← inode k
  if ip.d.type = T_DEV then
    if ip.d.major = CONSOLE then consolewrite k src else return -1
  else if off > ip.d.size.toNat ∨ (off + src.length) % 2 ^ 32 < off then return -1
  else if off + src.length > MAXFILE * BSIZE then return -1
  else
    writeiLoop k src.length off src
    whenever (decide (src.length > 0) && decide (off + src.length > (← inode k).d.size.toNat)) do
      modifyInode k fun ip => { ip with d := { ip.d with size := UInt32.ofNat (off + src.length) } }
      iupdate k
    return src.length

end Fs
end Xv6
