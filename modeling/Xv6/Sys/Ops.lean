import Xv6.Sys.Sysfile

/-! # The operations between `begin_op` and `end_op`

Every system call of the file system is one operation in a transaction, or several of
them, with nothing but the fetching of arguments and the change of the process and of
the file table around it. -/
namespace Xv6
open Conc

namespace Fs
variable {α : Type}

def transaction (x : Fs α) : Fs α := do
  beginOp
  let r ← x
  endOp
  return r

/-- The label `bad` of `sys_link` up to `end_op`. -/
def linkUndo (ip : ℕ) : Fs ℤ := do
  ilock ip
  addLink ip (-1)
  iunlockput ip
  return -1

def linkBody (p : ℕ) (old new : List UInt8) : Fs ℤ := do
  match ← namei p old with
  | none => return -1
  | some ip =>
    ilock ip
    if (← inode ip).d.type = T_DIR then
      iunlockput ip
      return -1
    else
      addLink ip 1
      iunlock ip
      match ← nameiparent p new with
      | none => linkUndo ip
      | some (dp,name) =>
        ilock dp
        let r ← dirlink p dp name (← inode ip).inum
        if r < 0 then
          iunlockput dp
          linkUndo ip
        else
          iunlockput dp
          iput ip
          return 0

/-- `sys_unlink` from the place where the entry has been found, with `dp` locked. -/
def unlinkEntry (p dp ip off : ℕ) : Fs ℤ := do
  ilock ip
  panicIf ((← inode ip).d.nlink < 1) .unlinkNlink
  if ← isNonemptyDir p ip then
    iunlockput ip
    iunlockput dp
    return -1
  else
    writeDirent dp off Dirent.zero .unlinkWritei
    whenever ((← inode ip).d.type == T_DIR) (addLink dp (-1))
    iunlockput dp
    addLink ip (-1)
    iunlockput ip
    return 0

def unlinkBody (p : ℕ) (path : List UInt8) : Fs ℤ := do
  match ← nameiparent p path with
  | none => return -1
  | some (dp,name) =>
    ilock dp
    if strncmp DIRSIZ (cstr name) (cstr dot) = 0 ∨
        strncmp DIRSIZ (cstr name) (cstr dotdot) = 0 then
      iunlockput dp
      return -1
    else
      match ← dirlookup p dp name with
      | none =>
        iunlockput dp
        return -1
      | some (ip,off) => unlinkEntry p dp ip off

def openBody (p : ℕ) (path : List UInt8) (omode : UInt32) : Fs (Option (ℕ × ℕ × ℕ)) := do
  match ← openInode p path omode with
  | none => return none
  | some ip =>
    match ← openFile p with
    | none =>
      iunlockput ip
      return none
    | some (f,fd) =>
      iunlock ip
      return some (ip,f,fd)

def mknodeBody (p : ℕ) (path : List UInt8) (type major minor : Int16) : Fs ℤ := do
  match ← create p path type major minor with
  | none => return -1
  | some ip =>
    iunlockput ip
    return 0

def chdirBody (p : ℕ) (path : List UInt8) : Fs (Option ℕ) := do
  match ← namei p path with
  | none => return none
  | some ip =>
    ilock ip
    if (← inode ip).d.type ≠ T_DIR then
      iunlockput ip
      return none
    else
      iunlock ip
      iput ((← proc p).cwd.getD 0)
      return some ip

def execBody (p : ℕ) (path : List UInt8) (reads : List (ℕ × ℕ)) : Fs ℤ := do
  match ← namei p path with
  | none => return -1
  | some ip =>
    ilock ip
    execReads p ip reads
    iunlockput ip
    return 0

def writeChunk (f ip : ℕ) (src : List UInt8) : Fs ℤ := do
  ilock ip
  let r ← writei ip (← file f).off src
  advance f r
  iunlock ip
  return r

section Equations
variable {p : ℕ}

theorem transaction_unit (x : Fs Unit) : transaction x = (do
    beginOp
    x
    endOp) := by
  refine bind_congr fun _ => bind_congr fun _ => ?_
  exact bind_pure_unit

theorem linkBad_eq (ip : ℕ) : linkBad ip = do
    let r ← linkUndo ip
    endOp
    return r := by
  simp only [linkBad,linkUndo,bind_assoc,pure_bind]

theorem sysLink_eq (old new : Option (List UInt8)) : sysLink p old new =
    match argstr old, argstr new with
    | some old, some new => transaction (linkBody p old new)
    | _, _ => return -1 := by
  unfold sysLink
  cases argstr old with
  | none => rfl
  | some old =>
    cases argstr new with
    | none => rfl
    | some new =>
      unfold transaction linkBody
      refine bind_congr fun _ => ?_
      rw [bind_assoc]
      refine bind_congr fun r => ?_
      cases r with
      | none => simp only [pure_bind]
      | some ip =>
        simp only [bind_assoc]
        refine bind_congr fun _ => bind_congr fun i => ?_
        split
        · simp only [bind_assoc,pure_bind]
        · simp only [bind_assoc]
          refine bind_congr fun _ => bind_congr fun _ => bind_congr fun d => ?_
          cases d with
          | none => exact linkBad_eq ip
          | some dn =>
            simp only [bind_assoc]
            refine bind_congr fun _ => bind_congr fun _ => bind_congr fun r => ?_
            split
            · simp only [bind_assoc,linkBad_eq]
            · simp only [bind_assoc,pure_bind]

theorem sysUnlink_eq (path : Option (List UInt8)) : sysUnlink p path =
    match argstr path with
    | none => return -1
    | some path => transaction (unlinkBody p path) := by
  unfold sysUnlink
  cases argstr path with
  | none => rfl
  | some path =>
    unfold transaction unlinkBody
    refine bind_congr fun _ => ?_
    rw [bind_assoc]
    refine bind_congr fun r => ?_
    cases r with
    | none => simp only [pure_bind]
    | some dn =>
      simp only [bind_assoc]
      refine bind_congr fun _ => ?_
      split
      · simp only [unlinkBad,bind_assoc,pure_bind]
      · simp only [bind_assoc]
        refine bind_congr fun e => ?_
        cases e with
        | none => simp only [unlinkBad,bind_assoc,pure_bind]
        | some io =>
          simp only [unlinkEntry,bind_assoc]
          refine bind_congr fun _ => bind_congr fun _ => bind_congr fun _ => bind_congr fun b => ?_
          split
          · simp only [unlinkBad,bind_assoc,pure_bind]
          · simp only [bind_assoc,pure_bind]

theorem sysOpen_eq (path : Option (List UInt8)) (omode : UInt32) : sysOpen p path omode =
    match argstr path with
    | none => return -1
    | some path => do
      match ← transaction (openBody p path omode) with
      | none => return -1
      | some (ip,f,fd) =>
        modifyFile f fun ff =>
          { ff with
            type := .inode
            ip := ip
            off := 0
            readable := omode &&& O_WRONLY == 0
            writable := omode &&& O_WRONLY != 0 || omode &&& O_RDWR != 0 }
        return fd := by
  unfold sysOpen
  cases argstr path with
  | none => rfl
  | some path =>
    unfold transaction openBody
    simp only [bind_assoc]
    refine bind_congr fun _ => bind_congr fun r => ?_
    cases r with
    | none => simp only [pure_bind]
    | some ip =>
      simp only [bind_assoc]
      refine bind_congr fun o => ?_
      cases o with
      | none => simp only [bind_assoc,pure_bind]
      | some ff => simp only [bind_assoc,pure_bind]

theorem mknode_eq (path : Option (List UInt8)) (type major minor : Int16) :
    mknode p path type major minor = transaction (match argstr path with
      | none => return -1
      | some path => mknodeBody p path type major minor) := by
  refine bind_congr fun _ => ?_
  cases argstr path with
  | none => simp only [pure_bind]
  | some path =>
    unfold mknodeBody
    rw [bind_assoc]
    refine bind_congr fun r => ?_
    cases r with
    | none => simp only [pure_bind]
    | some ip => simp only [bind_assoc,pure_bind]

theorem sysChdir_eq (path : Option (List UInt8)) : sysChdir p path = do
    match ← transaction (match argstr path with
      | none => return none
      | some path => chdirBody p path) with
    | none => return -1
    | some ip =>
      modifyProc p fun q => { q with cwd := some ip }
      return 0 := by
  unfold sysChdir transaction
  simp only [bind_assoc]
  refine bind_congr fun _ => ?_
  cases argstr path with
  | none => simp only [pure_bind]
  | some path =>
    unfold chdirBody
    rw [bind_assoc]
    refine bind_congr fun r => ?_
    cases r with
    | none => simp only [pure_bind]
    | some ip =>
      simp only [bind_assoc]
      refine bind_congr fun _ => bind_congr fun i => ?_
      split
      · simp only [bind_assoc,pure_bind]
      · simp only [bind_assoc,pure_bind]

theorem sysExec_eq (path : Option (List UInt8)) (reads : List (ℕ × ℕ)) : sysExec p path reads =
    match argstr path with
    | none => return -1
    | some path => transaction (execBody p path reads) := by
  unfold sysExec
  cases argstr path with
  | none => rfl
  | some path =>
    unfold transaction execBody
    refine bind_congr fun _ => ?_
    rw [bind_assoc]
    refine bind_congr fun r => ?_
    cases r with
    | none => simp only [pure_bind]
    | some ip => simp only [bind_assoc,pure_bind]

/-- One round of `filewrite` is one transaction. -/
theorem filewriteFrom_succ (f ip fuel : ℕ) (src : List UInt8) :
    filewriteFrom f ip (fuel + 1) src = (if src = [] then pure true else do
      let r ← transaction (writeChunk f ip (src.take (min src.length filewriteMax)))
      if r < 0 then return false
      else
        panicIf (r != (min src.length filewriteMax : ℕ)) .shortFilewrite
        filewriteFrom f ip fuel (src.drop (min src.length filewriteMax))) := by
  rw [filewriteFrom]
  split
  · rfl
  · simp only [transaction,writeChunk,bind_assoc,pure_bind]

theorem fileclose_eq (f : ℕ) : fileclose f = (do
    match ← ftableSection (Ftable.close f) with
    | .panic => panic .fileclose
    | .stillOpen => pure ()
    | .last ff =>
      match ff.type with
      | .none => pure ()
      | .inode => transaction (iput ff.ip)) := by
  simp only [transaction_unit]
  rfl

theorem exit_eq : exit p = (do
    panicIf (p == 0) .initExiting
    (List.range NOFILE).forM (exitFile p)
    transaction do iput ((← proc p).cwd.getD 0)
    modifyProc p fun q => { q with cwd := none }) := by
  simp only [exit,transaction,bind_assoc,pure_bind]

end Equations
end Fs
end Xv6
