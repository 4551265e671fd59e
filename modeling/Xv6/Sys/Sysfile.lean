import Xv6.Sys.File

/-! # `sysfile.c`, and the file-system part of `exec`, `fork` and `exit`

The first argument of a system call is the process that makes it.  An argument
that points to user memory is `none` where the pointer is bad. -/
namespace Xv6

def O_WRONLY : UInt32 := 0x001

def O_RDWR : UInt32 := 0x002

def O_CREATE : UInt32 := 0x200

/-- A string in user memory, up to its NUL. -/
def argstr (s : Option (List UInt8)) : Option (List UInt8) := s.map (·.takeWhile (· != 0))

namespace Fs

def argfd (p : ℕ) (fd : ℤ) : Fs (Option ℕ) := do
  if fd < 0 ∨ fd ≥ NOFILE then return none
  else return (← proc p).ofile fd.toNat

def fdalloc (p f : ℕ) : Fs (Option ℕ) := do
  let ofile := (← proc p).ofile
  match (List.range NOFILE).find? fun fd => (ofile fd).isNone with
  | some fd =>
    modifyProc p fun q => { q with ofile := upd q.ofile fd (some f) }
    return some fd
  | none => return none

def sysDup (p : ℕ) (fd : ℤ) : Fs ℤ := do
  match ← argfd p fd with
  | none => return -1
  | some f =>
    match ← fdalloc p f with
    | none => return -1
    | some fd =>
      filedup f
      return fd

/-- `ok` says whether the buffer of `n` bytes is good. -/
def sysRead (p : ℕ) (fd : ℤ) (n : ℕ) (ok : Bool) : Fs (ℤ × List UInt8) := do
  match ← argfd p fd with
  | none => return (-1,[])
  | some f => if ok then fileread p f n else return (-1,[])

def sysWrite (p : ℕ) (fd : ℤ) (src : Option (List UInt8)) : Fs ℤ := do
  match ← argfd p fd with
  | none => return -1
  | some f =>
    match src with
    | none => return -1
    | some src => filewrite f src

def sysClose (p : ℕ) (fd : ℤ) : Fs ℤ := do
  match ← argfd p fd with
  | none => return -1
  | some f =>
    modifyProc p fun q => { q with ofile := upd q.ofile fd.toNat none }
    fileclose f
    return 0

def sysFstat (p : ℕ) (fd : ℤ) (ok : Bool) : Fs (Option Stat) := do
  match ← argfd p fd with
  | none => return none
  | some f => if ok then filestat f else return none

/-- `ip->nlink += n; iupdate(ip);` -/
def addLink (k : ℕ) (n : Int16) : Fs Unit := do
  modifyInode k fun ip => { ip with d := { ip.d with nlink := ip.d.nlink + n } }
  iupdate k

/-- The label `bad` of `sys_link`. -/
def linkBad (ip : ℕ) : Fs ℤ := do
  ilock ip
  addLink ip (-1)
  iunlockput ip
  endOp
  return -1

/-- Create the path `new` as a link to the same inode as `old`. -/
def sysLink (p : ℕ) (old new : Option (List UInt8)) : Fs ℤ := do
  match argstr old, argstr new with
  | some old, some new =>
    beginOp
    match ← namei p old with
    | none =>
      endOp
      return -1
    | some ip =>
      ilock ip
      if (← inode ip).d.type = T_DIR then
        iunlockput ip
        endOp
        return -1
      else
        addLink ip 1
        iunlock ip
        match ← nameiparent p new with
        | none => linkBad ip
        | some (dp,name) =>
          ilock dp
          let r ← dirlink p dp name (← inode ip).inum
          if r < 0 then
            iunlockput dp
            linkBad ip
          else
            iunlockput dp
            iput ip
            endOp
            return 0
  | _, _ => return -1

/-- The loop of `isdirempty` from offset `off` on. -/
def isdiremptyFrom (p dp : ℕ) : ℕ → ℕ → Fs Bool
  | 0, _ => pure true
  | fuel + 1, off => do
    if off < (← inode dp).d.size.toNat then
      let de ← readDirent p dp off .isdiremptyReadi
      if de.inum ≠ 0 then return false
      else isdiremptyFrom p dp fuel (off + Dirent.sizeof)
    else return true

/-- Is the directory `dp` empty except for "." and ".."? -/
def isdirempty (p dp : ℕ) : Fs Bool := do
  isdiremptyFrom p dp ((← inode dp).d.size.toNat / Dirent.sizeof + 1) (2 * Dirent.sizeof)

/-- `ip->type == T_DIR && !isdirempty(ip)`. -/
def isNonemptyDir (p ip : ℕ) : Fs Bool := do
  if (← inode ip).d.type = T_DIR then return !(← isdirempty p ip) else return false

/-- The label `bad` of `sys_unlink`. -/
def unlinkBad (dp : ℕ) : Fs ℤ := do
  iunlockput dp
  endOp
  return -1

def sysUnlink (p : ℕ) (path : Option (List UInt8)) : Fs ℤ := do
  match argstr path with
  | none => return -1
  | some path =>
    beginOp
    match ← nameiparent p path with
    | none =>
      endOp
      return -1
    | some (dp,name) =>
      ilock dp
      if strncmp DIRSIZ (cstr name) (cstr dot) = 0 ∨
          strncmp DIRSIZ (cstr name) (cstr dotdot) = 0 then unlinkBad dp
      else
        match ← dirlookup p dp name with
        | none => unlinkBad dp
        | some (ip,off) =>
          ilock ip
          panicIf ((← inode ip).d.nlink < 1) .unlinkNlink
          if ← isNonemptyDir p ip then
            iunlockput ip
            unlinkBad dp
          else
            writeDirent dp off Dirent.zero .unlinkWritei
            whenever ((← inode ip).d.type == T_DIR) (addLink dp (-1))
            iunlockput dp
            addLink ip (-1)
            iunlockput ip
            endOp
            return 0

/-- The entries "." and ".." of a new directory `ip` in `dp`. -/
def createDots (p ip dp : ℕ) : Fs Unit := do
  addLink dp 1
  let r ← dirlink p ip dot (← inode ip).inum
  panicIf (decide (r < 0)) .createDots
  let r ← dirlink p ip dotdot (← inode dp).inum
  panicIf (decide (r < 0)) .createDots

/-- The new inode is returned locked. -/
def create (p : ℕ) (path : List UInt8) (type major minor : Int16) : Fs (Option ℕ) := do
  match ← nameiparent p path with
  | none => return none
  | some (dp,name) =>
    ilock dp
    match ← dirlookup p dp name with
    | some (ip,_) =>
      iunlockput dp
      ilock ip
      if type = T_FILE ∧ (← inode ip).d.type = T_FILE then return some ip
      else
        iunlockput ip
        return none
    | none =>
      let ip ← ialloc type
      ilock ip
      modifyInode ip fun i => { i with d := { i.d with major := major, minor := minor, nlink := 1 } }
      iupdate ip
      whenever (type == T_DIR) (createDots p ip dp)
      let r ← dirlink p dp name (← inode ip).inum
      panicIf (decide (r < 0)) .createDirlink
      iunlockput dp
      return some ip

/-- The part of `sys_open` that finds or makes the inode, which is returned locked. -/
def openInode (p : ℕ) (path : List UInt8) (omode : UInt32) : Fs (Option ℕ) := do
  if omode &&& O_CREATE ≠ 0 then create p path T_FILE 0 0
  else
    match ← namei p path with
    | none => return none
    | some ip =>
      ilock ip
      if (← inode ip).d.type = T_DIR ∧ omode ≠ 0 then
        iunlockput ip
        return none
      else return some ip

/-- `filealloc` and `fdalloc` in `sys_open`; a file without descriptor is closed again. -/
def openFile (p : ℕ) : Fs (Option (ℕ × ℕ)) := do
  match ← filealloc with
  | none => return none
  | some f =>
    match ← fdalloc p f with
    | some fd => return some (f,fd)
    | none =>
      fileclose f
      return none

def sysOpen (p : ℕ) (path : Option (List UInt8)) (omode : UInt32) : Fs ℤ := do
  match argstr path with
  | none => return -1
  | some path =>
    beginOp
    match ← openInode p path omode with
    | none =>
      endOp
      return -1
    | some ip =>
      match ← openFile p with
      | none =>
        iunlockput ip
        endOp
        return -1
      | some (f,fd) =>
        iunlock ip
        endOp
        modifyFile f fun ff =>
          { ff with
            type := .inode
            ip := ip
            off := 0
            readable := omode &&& O_WRONLY == 0
            writable := omode &&& O_WRONLY != 0 || omode &&& O_RDWR != 0 }
        return fd

/-- `sys_mkdir` and `sys_mknod` after their arguments have been fetched. -/
def mknode (p : ℕ) (path : Option (List UInt8)) (type major minor : Int16) : Fs ℤ := do
  beginOp
  match argstr path with
  | none =>
    endOp
    return -1
  | some path =>
    match ← create p path type major minor with
    | none =>
      endOp
      return -1
    | some ip =>
      iunlockput ip
      endOp
      return 0

def sysMkdir (p : ℕ) (path : Option (List UInt8)) : Fs ℤ := mknode p path T_DIR 0 0

def sysMknod (p : ℕ) (path : Option (List UInt8)) (major minor : ℤ) : Fs ℤ :=
  mknode p path T_DEV (Int16.ofInt major) (Int16.ofInt minor)

def sysChdir (p : ℕ) (path : Option (List UInt8)) : Fs ℤ := do
  beginOp
  match argstr path with
  | none =>
    endOp
    return -1
  | some path =>
    match ← namei p path with
    | none =>
      endOp
      return -1
    | some ip =>
      ilock ip
      if (← inode ip).d.type ≠ T_DIR then
        iunlockput ip
        endOp
        return -1
      else
        iunlock ip
        iput ((← proc p).cwd.getD 0)
        endOp
        modifyProc p fun q => { q with cwd := some ip }
        return 0

/-- The calls of `readi` that `exec` makes, one after the other, on the inode. -/
def execReads (p ip : ℕ) : List (ℕ × ℕ) → Fs Unit
  | [] => pure ()
  | (off,n) :: reads => do
    let _ ← readi p ip off n
    execReads p ip reads

/-- `exec` up to the point where it is done with the file.  Which parts of the file
it reads is decided by the ELF headers and by the memory that is left: `reads`
stands for any such sequence. -/
def sysExec (p : ℕ) (path : Option (List UInt8)) (reads : List (ℕ × ℕ)) : Fs ℤ := do
  match argstr path with
  | none => return -1
  | some path =>
    beginOp
    match ← namei p path with
    | none =>
      endOp
      return -1
    | some ip =>
      ilock ip
      execReads p ip reads
      iunlockput ip
      endOp
      return 0

/-- The loop of `fork` over the open files. -/
def forkFile (p q fd : ℕ) : Fs Unit := do
  match (← proc p).ofile fd with
  | none => pure ()
  | some f =>
    filedup f
    modifyProc q fun r => { r with ofile := upd r.ofile fd (some f) }

/-- `fork`: `q` is the process that `allocproc` finds, if it is free. -/
def fork (p q : ℕ) : Fs ℤ := do
  if (← proc q).cwd.isSome ∨ q ≥ NPROC then return -1
  else
    (List.range NOFILE).forM (forkFile p q)
    let cwd ← idup ((← proc p).cwd.getD 0)
    modifyProc q fun r => { r with cwd := some cwd }
    return q

/-- The loop of `exit` over the open files. -/
def exitFile (p fd : ℕ) : Fs Unit := do
  match (← proc p).ofile fd with
  | none => pure ()
  | some f =>
    fileclose f
    modifyProc p fun q => { q with ofile := upd q.ofile fd none }

/-- `exit`; process 0 is `initproc`. -/
def exit (p : ℕ) : Fs Unit := do
  panicIf (p == 0) .initExiting
  (List.range NOFILE).forM (exitFile p)
  beginOp
  iput ((← proc p).cwd.getD 0)
  endOp
  modifyProc p fun q => { q with cwd := none }

end Fs
end Xv6
