import Xv6.Fs.Dir
import Xv6.Mkfs.Layout

/-! # The image that `mkfs.c` builds -/
namespace Xv6.Mkfs

/-- The image and the two counters of `mkfs`. -/
structure Image where
  disk : Disk
  freeinode : ℕ
  freeblock : ℕ

def winode (inum : ℕ) (din : Dinode) (d : Disk) : Disk :=
  upd d (IBLOCK inum sb) ((d (IBLOCK inum sb)).setDinode (inum % IPB) din)

def rinode (inum : ℕ) (d : Disk) : Dinode := (d (IBLOCK inum sb)).dinode (inum % IPB)

def ialloc (type : Int16) (m : Image) : ℕ × Image :=
  (m.freeinode, { m with
      disk := winode m.freeinode { Dinode.zero with type := type, nlink := 1 } m.disk
      freeinode := m.freeinode + 1 })

/-- The block of index `fbn` in `iappend`, allocated if there is none. -/
def fileBlock (fbn : ℕ) (din : Dinode) (m : Image) : ℕ × Dinode × Image :=
  if fbn < NDIRECT then
    if din.addr fbn = 0 then
      (m.freeblock,din.setAddr fbn (UInt32.ofNat m.freeblock),
        { m with freeblock := m.freeblock + 1 })
    else ((din.addr fbn).toNat,din,m)
  else
    let (din,m) :=
      if din.addr NDIRECT = 0 then
        (din.setAddr NDIRECT (UInt32.ofNat m.freeblock),{ m with freeblock := m.freeblock + 1 })
      else (din,m)
    let ind := (din.addr NDIRECT).toNat
    let x := (m.disk ind).word (fbn - NDIRECT)
    if x = 0 then
      (m.freeblock,din, { m with
          disk := upd m.disk ind
            ((m.disk ind).setWord (fbn - NDIRECT) (UInt32.ofNat m.freeblock))
          freeblock := m.freeblock + 1 })
    else (x.toNat,din,m)

/-- The loop of `iappend`; `none` is a failed assertion or a read past the end of the image. -/
def iappendFrom : ℕ → ℕ → List UInt8 → Dinode → Image → Option (ℕ × Dinode × Image)
  | 0, off, _, din, m => some (off,din,m)
  | fuel + 1, off, p, din, m =>
    if p = [] then some (off,din,m)
    else
      let fbn := off / BSIZE
      if fbn < MAXFILE then
        let (x,din,m) := fileBlock fbn din m
        let n1 := min p.length ((fbn + 1) * BSIZE - off)
        -- `rsect`; where it fails for a new indirect block, it does for the block after that
        if x < FSSIZE then
          let buf := (m.disk x).splice (off - fbn * BSIZE) n1 fun i => p.getD i 0
          iappendFrom fuel (off + n1) (p.drop n1) din { m with disk := upd m.disk x buf }
        else none
      else none

def iappend (inum : ℕ) (p : List UInt8) (m : Image) : Option Image := do
  let din := rinode inum m.disk
  let (off,din,m) ← iappendFrom p.length din.size.toNat p din m
  return { m with disk := winode inum { din with size := UInt32.ofNat off } m.disk }

def dirent (inum : ℕ) (name : Name) : List UInt8 :=
  (List.range Dirent.sizeof).map
    (Dirent.toBytes ⟨UInt16.ofNat inum,Bytes.tabulate (strncpy (cstr name))⟩)

/-- The loop that copies a file in pieces of `BSIZE` bytes. -/
def copyFile (inum : ℕ) : ℕ → List UInt8 → Image → Option Image
  | 0, _, m => some m
  | fuel + 1, p, m =>
    if p = [] then some m
    else do
      let m ← iappend inum (p.take BSIZE) m
      copyFile inum fuel (p.drop BSIZE) m

/-- One file of the command line: its name and its contents. -/
def addFile (file : Name × List UInt8) (m : Image) : Option Image := do
  if 47 ∈ file.1 then none
  else
    let name := if file.1.head? = some 95 then file.1.tail else file.1
    let (inum,m) := ialloc T_FILE m
    -- the `rsect` of `winode`
    if IBLOCK inum sb < FSSIZE then
      let m ← iappend ROOTINO (dirent inum name) m
      copyFile inum file.2.length file.2 m
    else none

def addFiles : List (Name × List UInt8) → Image → Option Image
  | [], m => some m
  | f :: fs, m => do addFiles fs (← addFile f m)

/-- The zeroed image with the super block. -/
def blank : Image where
  disk := upd (fun _ => Bytes.zero) 1 sb.toBlock
  freeinode := 1
  freeblock := nmeta

def bitmap : ℕ → Block → Block
  | 0, b => b
  | used + 1, b => (bitmap used b).setBit used

def balloc (used : ℕ) (d : Disk) : Option Disk :=
  if used < BSIZE * 8 then some (upd d sb.bmapstart (bitmap used Bytes.zero)) else none

def fixRootSize (d : Disk) : Disk :=
  let din := rinode ROOTINO d
  winode ROOTINO { din with size := UInt32.ofNat ((din.size.toNat / BSIZE + 1) * BSIZE) } d

/-- `main` with the given files; `none` where it does not exit with status 0. -/
def main (files : List (Name × List UInt8)) : Option Disk := do
  let (rootino,m) := ialloc T_DIR blank
  let m ← iappend rootino (dirent rootino dot) m
  let m ← iappend rootino (dirent rootino dotdot) m
  let m ← addFiles files m
  balloc m.freeblock (fixRootSize m.disk)

end Xv6.Mkfs
