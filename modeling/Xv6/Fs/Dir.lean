import Xv6.Fs.Inode

/-! # `fs.c`: directories and paths -/
namespace Xv6
open Dirent (sizeof)

def strncmp : ℕ → (ℕ → UInt8) → (ℕ → UInt8) → ℤ
  | 0, _, _ => 0
  | n + 1, p, q =>
    if p 0 ≠ 0 ∧ p 0 = q 0 then strncmp n (fun i => p (i + 1)) (fun i => q (i + 1))
    else (p 0).toNat - (q 0).toNat

/-- Byte `i` of what `strncpy` stores. -/
def strncpy (t : ℕ → UInt8) : ℕ → UInt8
  | 0 => t 0
  | i + 1 => if t 0 = 0 then 0 else strncpy (fun j => t (j + 1)) i

/-- The bytes at a `char*` to a string. -/
def cstr (s : List UInt8) (i : ℕ) : UInt8 := s.getD i 0

abbrev Name := List UInt8

def namecmp (s : Name) (t : Bytes DIRSIZ) : ℤ := strncmp DIRSIZ (cstr s) t.byte

def dot : Name := [46]

def dotdot : Name := [46, 46]

/-- Split off the next path element: the element, cut to `DIRSIZ` bytes, and the
rest of the path without leading slashes. -/
def skipelem (path : List UInt8) : Option (Name × List UInt8) :=
  let s := path.dropWhile (· == 47)
  if s = [] then none
  else some ((s.takeWhile (· != 47)).take DIRSIZ,(s.dropWhile (· != 47)).dropWhile (· == 47))

namespace Fs

/-- The entry at offset `off` of the directory `dp`, as `readi` copies it out; the
panic is that of the caller. -/
def readDirent (p dp off : ℕ) (e : Panic) : Fs Dirent := do
  let r ← readi p dp off sizeof
  panicIf (r.1 != sizeof) e
  return Dirent.ofBytes (cstr r.2)

def dirlookupFrom (p dp : ℕ) (name : Name) : ℕ → ℕ → Fs (Option (ℕ × ℕ))
  | 0, _ => pure none
  | fuel + 1, off => do
    if off < (← inode dp).d.size.toNat then
      let de ← readDirent p dp off .dirlookupRead
      if de.inum ≠ 0 ∧ namecmp name de.name = 0 then
        let k ← iget de.inum.toNat
        return some (k,off)
      else dirlookupFrom p dp name fuel (off + sizeof)
    else return none

/-- Look for a directory entry: the inode and the byte offset of the entry. -/
def dirlookup (p dp : ℕ) (name : Name) : Fs (Option (ℕ × ℕ)) := do
  let d := (← inode dp).d
  panicIf (d.type != T_DIR) .dirlookupNotDir
  dirlookupFrom p dp name (d.size.toNat / sizeof + 1) 0

/-- The loop of `dirlink`: the offset of an empty entry, or the end. -/
def emptyDirent (p dp : ℕ) : ℕ → ℕ → Fs ℕ
  | 0, off => pure off
  | fuel + 1, off => do
    if off < (← inode dp).d.size.toNat then
      let de ← readDirent p dp off .dirlinkRead
      if de.inum = 0 then return off
      else emptyDirent p dp fuel (off + sizeof)
    else return off

def writeDirent (dp off : ℕ) (de : Dirent) (e : Panic) : Fs Unit := do
  let r ← writei dp off ((List.range sizeof).map de.toBytes)
  panicIf (r != sizeof) e

/-- Write a new directory entry (name, inum) into the directory `dp`. -/
def dirlink (p dp : ℕ) (name : Name) (inum : ℕ) : Fs ℤ := do
  match ← dirlookup p dp name with
  | some (ip,_) =>
    iput ip
    return -1
  | none =>
    let off ← emptyDirent p dp ((← inode dp).d.size.toNat / sizeof + 1) 0
    writeDirent dp off ⟨UInt16.ofNat inum,Bytes.tabulate (strncpy (cstr name))⟩ .dirlink
    return 0

/-- The loop of `namex`: `ip` is the inode reached and `path` what is left. -/
def namexFrom (p : ℕ) (nameiparent : Bool) : ℕ → ℕ → List UInt8 → Fs (Option (ℕ × Name))
  | 0, _, _ => pure none
  | fuel + 1, ip, path =>
    match skipelem path with
    | none =>
      if nameiparent then do
        iput ip
        return none
      else return some (ip,[])
    | some (name,path) => do
      ilock ip
      if (← inode ip).d.type ≠ T_DIR then
        iunlockput ip
        return none
      else if nameiparent && path == [] then
        iunlock ip
        return some (ip,name)
      else
        match ← dirlookup p ip name with
        | none =>
          iunlockput ip
          return none
        | some (next,_) =>
          iunlockput ip
          namexFrom p nameiparent fuel next path

/-- Where the resolution of a path starts. -/
def pathStart (p : ℕ) (path : List UInt8) : Fs ℕ := do
  if path.head? = some 47 then iget ROOTINO
  else idup ((← proc p).cwd.getD 0)

/-- Look up and return the inode for a path name, or the inode of its parent and
the final path element. -/
def namex (p : ℕ) (path : List UInt8) (nameiparent : Bool) : Fs (Option (ℕ × Name)) := do
  let ip ← pathStart p path
  namexFrom p nameiparent (path.length + 1) ip path

def namei (p : ℕ) (path : List UInt8) : Fs (Option ℕ) := do
  return (← namex p path false).map Prod.fst

def nameiparent (p : ℕ) (path : List UInt8) : Fs (Option (ℕ × Name)) := namex p path true

end Fs
end Xv6
