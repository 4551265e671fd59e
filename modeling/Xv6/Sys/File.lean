import Xv6.Fs.Dir

/-! # `file.c`

An open file is named by its index in the file table, which stands for the
pointer `f`. -/
namespace Xv6

namespace Ftable

def alloc (t : ℕ → File) : Option ℕ × Option (ℕ × File) :=
  match (List.range NFILE).find? fun f => decide ((t f).ref = 0) with
  | some f => (some f,some (f,{ t f with ref := 1 }))
  | none => (none,none)

/-- The section of `filedup`; the flag is the panic. -/
def dup (f : ℕ) (t : ℕ → File) : Bool × Option (ℕ × File) :=
  if (t f).ref < 1 then (true,none)
  else (false,some (f,{ t f with ref := (t f).ref + 1 }))

/-- What is left to do after the section of `fileclose`. -/
inductive Closed where
  | panic
  | stillOpen
  | last (ff : File)

def close (f : ℕ) (t : ℕ → File) : Closed × Option (ℕ × File) :=
  if (t f).ref < 1 then (.panic,none)
  else if (t f).ref - 1 > 0 then (.stillOpen,some (f,{ t f with ref := (t f).ref - 1 }))
  else
    (.last { t f with ref := (t f).ref - 1 },some (f,{ t f with ref := 0, type := .none }))

end Ftable

namespace Fs

def filealloc : Fs (Option ℕ) := ftableSection Ftable.alloc

def filedup (f : ℕ) : Fs Unit := do
  panicIf (← ftableSection (Ftable.dup f)) .filedup

def fileclose (f : ℕ) : Fs Unit := do
  match ← ftableSection (Ftable.close f) with
  | .panic => panic .fileclose
  | .stillOpen => pure ()
  | .last ff =>
    match ff.type with
    | .none => pure ()
    | .inode =>
      beginOp
      iput ff.ip
      endOp

structure Stat where
  ino : ℕ
  type : Int16
  nlink : Int16
  size : UInt32

def stati (k : ℕ) : Fs Stat := do
  let ip ← inode k
  return ⟨ip.inum,ip.d.type,ip.d.nlink,ip.d.size⟩

def filestat (f : ℕ) : Fs (Option Stat) := do
  let ff ← file f
  match ff.type with
  | .none => return none
  | .inode =>
    ilock ff.ip
    let st ← stati ff.ip
    iunlock ff.ip
    return some st

/-- `f->off += r` for a positive result. -/
def advance (f : ℕ) (r : ℤ) : Fs Unit :=
  whenever (decide (r > 0)) do
    modifyFile f fun ff => { ff with off := (ff.off + r.toNat) % 2 ^ 32 }

def fileread (p f n : ℕ) : Fs (ℤ × List UInt8) := do
  let ff ← file f
  if !ff.readable then return (-1,[])
  else
    match ff.type with
    | .none => panic .fileread
    | .inode =>
      ilock ff.ip
      let r ← readi p ff.ip (← file f).off n
      advance f r.1
      iunlock ff.ip
      return r

/-- The number of bytes that `filewrite` writes in one transaction. -/
def filewriteMax : ℕ := ((MAXOPBLOCKS - 1 - 1 - 2) / 2) * 512

/-- The loop of `filewrite`: `src` is still to be written.  The result says whether
everything was. -/
def filewriteFrom (f ip : ℕ) : ℕ → List UInt8 → Fs Bool
  | 0, src => pure src.isEmpty
  | fuel + 1, src =>
    if src = [] then pure true
    else do
      let n1 := min src.length filewriteMax
      beginOp
      ilock ip
      let r ← writei ip (← file f).off (src.take n1)
      advance f r
      iunlock ip
      endOp
      if r < 0 then return false
      else
        panicIf (r != n1) .shortFilewrite
        filewriteFrom f ip fuel (src.drop n1)

def filewrite (f : ℕ) (src : List UInt8) : Fs ℤ := do
  let ff ← file f
  if !ff.writable then return -1
  else
    match ff.type with
    | .none => panic .filewrite
    | .inode =>
      let all ← filewriteFrom f ff.ip src.length src
      return if all then src.length else -1

end Fs
end Xv6
