import Xv6.Fs.Format
import Xv6.Lib.Prog
import Xv6.Lib.Store
import Xv6.Log.Section

/-! # The kernel state of the file system

The disk with its buffer cache, the log, the inode cache, the file table and the
parts of the process table that the file system uses.  There is one disk, so
`dev` is left out everywhere.  A buffer stays cached for ever: which clean buffer
`bget` recycles does not show in the contents of any block. -/
namespace Xv6
open Conc Prog
open Function (update)

/-- The panics of `bio.c`, `ide.c`, `log.c`, `fs.c`, `file.c`, `sysfile.c` and of
the part of `vm.c` that reads files. -/
inductive Panic where
  | bwrite
  | brelse
  | incorrectBlockno
  | log (e : LogPanic)
  | ballocOutOfBlocks
  | freeingFreeBlock
  | iallocNoInodes
  | igetNoInodes
  | ilock
  | ilockNoType
  | iunlock
  | bmapOutOfRange
  | dirlookupNotDir
  | dirlookupRead
  | dirlinkRead
  | dirlink
  | isdiremptyReadi
  | unlinkNlink
  | unlinkWritei
  | createDots
  | createDirlink
  | filedup
  | fileclose
  | fileread
  | filewrite
  | shortFilewrite
  | initExiting
  deriving DecidableEq, Repr

/-- The sleep-locks: one in each slot of the inode cache, one in the buffer of
each block. -/
inductive Lock where
  | inode (slot : ℕ)
  | buf (blockno : ℕ)
  deriving DecidableEq, Repr

abbrev Stops := Stop Lock Panic → Prop

abbrev Owners := Lock → Option ℕ

/-- `struct inode`: `d` is the copy of the disk inode. -/
structure Inode where
  inum : ℕ
  ref : ℤ
  valid : Bool
  d : Dinode
  deriving DecidableEq, Inhabited

/-- The type of a `struct file`; pipes are not part of the file system. -/
inductive FdType where
  | none
  | inode
  deriving DecidableEq, Repr, Inhabited

/-- `struct file`; `ip` is a slot of the inode cache. -/
structure File where
  type : FdType
  ref : ℤ
  readable : Bool
  writable : Bool
  ip : ℕ
  off : ℕ
  deriving DecidableEq, Inhabited

/-- The file system's part of `struct proc`: `cwd` is a slot of the inode cache,
and `none` in an unused process; `ofile` holds indices of the file table. -/
structure Proc where
  cwd : Option ℕ
  ofile : ℕ → Option ℕ
  killed : Bool

instance : Inhabited Proc := ⟨⟨none,fun _ => none,false⟩⟩

structure Sys where
  /-- what is on the disk -/
  disk : Store Block
  /-- the data of the buffers that have been read -/
  cache : Store (Option Block)
  /-- the block writes that the disk has done, oldest first -/
  writes : List (ℕ × Block)
  sb : Superblock
  log : Log
  inode : Store Inode
  file : Store File
  proc : Store Proc
  /-- the console input that is ready to be read -/
  input : List UInt8

/-- What the file system sees of the state: the contents of the blocks through
the buffer cache, and everything that is in memory. -/
@[ext] structure View where
  disk : Disk
  sb : Superblock
  log : Log
  inode : ℕ → Inode
  file : ℕ → File
  proc : ℕ → Proc
  input : List UInt8

namespace Sys

def content (s : Sys) : Disk := fun b => (s.cache.get b).getD (s.disk.get b)

def view (s : Sys) : View where
  disk := s.content
  sb := s.sb
  log := s.log
  inode := s.inode.get
  file := s.file.get
  proc := s.proc.get
  input := s.input

def fill (s : Sys) (b : ℕ) : Sys := { s with cache := s.cache.set b (some (s.content b)) }

def setData (s : Sys) (b : ℕ) (x : Block) : Sys := { s with cache := s.cache.set b (some x) }

def flush (s : Sys) (b : ℕ) : Sys :=
  { s with
    disk := s.disk.set b (s.content b)
    writes := s.writes ++ [(b,s.content b)] }

@[simp] theorem content_fill (s : Sys) (b : ℕ) : (s.fill b).content = s.content := by
  funext x
  by_cases h : x = b
  · subst h; simp [content,fill]
  · simp [content,fill,h]

@[simp] theorem content_setData (s : Sys) (b : ℕ) (x : Block) :
    (s.setData b x).content = update s.content b x := by
  funext y
  by_cases h : y = b
  · subst h; simp [content,setData]
  · simp [content,setData,h]

@[simp] theorem content_flush (s : Sys) (b : ℕ) : (s.flush b).content = s.content := by
  funext x
  by_cases h : x = b
  · subst h
    simp only [content,flush,Store.get_set,Function.update_self]
    cases s.cache.get x <;> rfl
  · simp [content,flush,h]

@[simp] theorem view_fill (s : Sys) (b : ℕ) : (s.fill b).view = s.view :=
  View.ext (content_fill s b) rfl rfl rfl rfl rfl rfl

@[simp] theorem view_setData (s : Sys) (b : ℕ) (x : Block) :
    (s.setData b x).view = { s.view with disk := update s.view.disk b x } :=
  View.ext (content_setData s b x) rfl rfl rfl rfl rfl rfl

@[simp] theorem view_flush (s : Sys) (b : ℕ) : (s.flush b).view = s.view :=
  View.ext (content_flush s b) rfl rfl rfl rfl rfl rfl

end Sys

abbrev Fs (α : Type) := Prog Sys Lock Panic α

abbrev KCfg := Cfg Sys Lock

namespace Fs
variable {α β : Type}

/-- A snapshot of what the file system sees. -/
def view : Fs View := gets Sys.view

def panic (e : Panic) : Fs α := fail e

/-- `if (b) panic(e);` -/
def panicIf (b : Bool) (e : Panic) : Fs Unit := if b then panic e else pure ()

/-- `if (b) { x }` -/
def whenever (b : Bool) (x : Fs Unit) : Fs Unit := if b then x else pure ()

def acquiresleep (l : Lock) : Fs Unit := lock l

def releasesleep (l : Lock) : Fs Unit := unlock l

def holdingsleep (l : Lock) : Fs Bool := holds l

def data (b : ℕ) : Fs Block := do return (← view).disk b

def setData (b : ℕ) (x : Block) : Fs Unit := modify fun s => s.setData b x

def setSb (sb : Superblock) : Fs Unit := modify fun s => { s with sb := sb }

/-- A section of `log.c` with `log.lock` held. -/
def logSection (f : Log → α × Log) : Fs α :=
  act (fun s => some { s with log := (f s.log).2 }) fun s => .ret (f s.log).1

def inode (k : ℕ) : Fs Inode := do return (← view).inode k

/-- A section with `icache.lock` held: its result and the slot it changes. -/
def icacheSection (f : (ℕ → Inode) → α × Option (ℕ × Inode)) : Fs α :=
  act (fun s => some { s with inode := s.inode.assign (f s.inode.get).2 })
    fun s => .ret (f s.inode.get).1

/-- Assignments to fields of `icache.inode[k]`. -/
def modifyInode (k : ℕ) (f : Inode → Inode) : Fs Unit :=
  modify fun s => { s with inode := s.inode.set k (f (s.inode.get k)) }

def file (f : ℕ) : Fs File := do return (← view).file f

def ftableSection (f : (ℕ → File) → α × Option (ℕ × File)) : Fs α :=
  act (fun s => some { s with file := s.file.assign (f s.file.get).2 })
    fun s => .ret (f s.file.get).1

def modifyFile (f : ℕ) (g : File → File) : Fs Unit :=
  modify fun s => { s with file := s.file.set f (g (s.file.get f)) }

def proc (p : ℕ) : Fs Proc := do return (← view).proc p

def modifyProc (p : ℕ) (f : Proc → Proc) : Fs Unit :=
  modify fun s => { s with proc := s.proc.set p (f (s.proc.get p)) }

def setInput (l : List UInt8) : Fs Unit := modify fun s => { s with input := l }

/-- A section of `log.c` that may have to wait. -/
def awaitLog (f : Log → Option Log) : Fs Unit :=
  await fun s => (f s.log).map fun l => { s with log := l }

/-- What holds of a result, of the state and of the owners of the locks. -/
abbrev Post (α : Type) := α → View → (Lock → Option ℕ) → Prop

/-- `Safe` for what the file system sees and the lock table. -/
def Safe (p : ℕ) (E : Stop Lock Panic → Prop) (x : Fs α)
    (Q : Post α) (v : View) (o : Lock → Option ℕ) : Prop :=
  ∀ c : KCfg, c.st.view = v → c.owner = o →
    Conc.Safe p E x (fun a c' => Q a c'.st.view c'.owner) c

section Rules
variable {p : ℕ} {E : Stops} {Q : Post α}
  {v : View} {o : Owners}

theorem Safe.seq {x : Fs β} {g : β → Fs α} {R : Post β}
    (h : Safe p E x R v o) (hg : ∀ b v' o', R b v' o' → Safe p E (g b) Q v' o') :
    Safe p E (x >>= g) Q v o := by
  intro c hv ho
  refine Conc.Safe.seq (h c hv ho) ?_
  intro b c' hr
  exact hg b _ _ hr c' rfl rfl

/-- Sequencing, with what follows as the postcondition. -/
theorem Safe.bind {x : Fs β} {g : β → Fs α}
    (h : Safe p E x (fun b v' o' => Safe p E (g b) Q v' o') v o) : Safe p E (x >>= g) Q v o :=
  h.seq fun _ _ _ hg => hg

theorem Safe.imp {x : Fs α} {R : Post α}
    (h : Safe p E x Q v o) (hi : ∀ a v' o', Q a v' o' → R a v' o') : Safe p E x R v o :=
  fun c hv ho => (h c hv ho).imp fun a c' => hi a c'.st.view c'.owner

theorem Safe.pure {a : α} (h : Q a v o) : Safe p E (Pure.pure a) Q v o := by
  intro c hv ho
  subst hv ho
  exact h

theorem Safe.panic {e : Panic} (h : E (.fail e)) : Safe p E (Fs.panic e) Q v o :=
  fun _ _ _ => h

theorem Safe.panicIf {b : Bool} {e : Panic} {Q : Post Unit}
    (hE : b = true → E (.fail e)) (h : b = false → Q () v o) : Safe p E (Fs.panicIf b e) Q v o := by
  cases b with
  | true => exact panic (hE rfl)
  | false => exact pure (h rfl)

theorem Safe.whenever {b : Bool} {x : Fs Unit} {Q : Post Unit}
    (hx : b = true → Safe p E x Q v o) (h : b = false → Q () v o) :
    Safe p E (Fs.whenever b x) Q v o := by
  cases b with
  | true => exact hx rfl
  | false => exact pure (h rfl)

theorem Safe.ite {b : Prop} [Decidable b] {x y : Fs α} (hx : b → Safe p E x Q v o)
    (hy : ¬ b → Safe p E y Q v o) : Safe p E (if b then x else y) Q v o := by
  by_cases h : b
  · rw [if_pos h]; exact hx h
  · rw [if_neg h]; exact hy h

theorem Safe.view_seq {g : View → Fs α} (h : Safe p E (g v) Q v o) :
    Safe p E (view >>= g) Q v o := by
  refine seq (R := fun w v' o' => w = v ∧ v' = v ∧ o' = o) ?_ ?_
  · intro c hv ho
    exact ⟨hv,hv,ho⟩
  · rintro _ _ _ ⟨rfl,rfl,rfl⟩
    exact h

theorem Safe.data_seq {b : ℕ} {g : Block → Fs α} (h : Safe p E (g (v.disk b)) Q v o) :
    Safe p E (data b >>= g) Q v o := by
  unfold data
  rw [bind_assoc]
  exact view_seq (by simpa using h)

theorem Safe.inode_seq {k : ℕ} {g : Inode → Fs α} (h : Safe p E (g (v.inode k)) Q v o) :
    Safe p E (inode k >>= g) Q v o := by
  unfold inode
  rw [bind_assoc]
  exact view_seq (by simpa using h)

theorem Safe.file_seq {f : ℕ} {g : File → Fs α} (h : Safe p E (g (v.file f)) Q v o) :
    Safe p E (file f >>= g) Q v o := by
  unfold file
  rw [bind_assoc]
  exact view_seq (by simpa using h)

theorem Safe.proc_seq {k : ℕ} {g : Proc → Fs α} (h : Safe p E (g (v.proc k)) Q v o) :
    Safe p E (proc k >>= g) Q v o := by
  unfold proc
  rw [bind_assoc]
  exact view_seq (by simpa using h)

theorem Safe.logSection {f : Log → α × Log}
    (h : Q (f v.log).1 { v with log := (f v.log).2 } o) : Safe p E (Fs.logSection f) Q v o := by
  intro c hv ho
  subst hv ho
  exact h

theorem Safe.icacheSection {f : (ℕ → Inode) → α × Option (ℕ × Inode)}
    (h : Q (f v.inode).1 { v with inode := assignAt v.inode (f v.inode).2 } o) :
    Safe p E (Fs.icacheSection f) Q v o := by
  intro c hv ho
  subst hv ho
  exact Eq.mpr (congrArg (fun t => Q (f c.st.inode.get).1 { c.st.view with inode := t } c.owner)
    (Store.get_assign _ _)) h

theorem Safe.ftableSection {f : (ℕ → File) → α × Option (ℕ × File)}
    (h : Q (f v.file).1 { v with file := assignAt v.file (f v.file).2 } o) :
    Safe p E (Fs.ftableSection f) Q v o := by
  intro c hv ho
  subst hv ho
  exact Eq.mpr (congrArg (fun t => Q (f c.st.file.get).1 { c.st.view with file := t } c.owner)
    (Store.get_assign _ _)) h

end Rules

section Primitives
variable {p : ℕ} {E : Stops} {Q : Post Unit}
  {v : View} {o : Owners}

theorem Safe.setData {b : ℕ} {x : Block} (h : Q () { v with disk := update v.disk b x } o) :
    Safe p E (Fs.setData b x) Q v o := by
  intro c hv ho
  subst hv ho
  exact (congrArg (fun w => Q () w c.owner) (Sys.view_setData c.st b x)).mpr h

theorem Safe.setSb {sb : Superblock} (h : Q () { v with sb := sb } o) :
    Safe p E (Fs.setSb sb) Q v o := by
  intro c hv ho
  subst hv ho
  exact h

theorem Safe.modifyInode {k : ℕ} {f : Inode → Inode}
    (h : Q () { v with inode := update v.inode k (f (v.inode k)) } o) :
    Safe p E (Fs.modifyInode k f) Q v o := by
  intro c hv ho
  subst hv ho
  exact Eq.mpr (congrArg (fun t => Q () { c.st.view with inode := t } c.owner)
    (Store.get_set _ _ _)) h

theorem Safe.modifyFile {f : ℕ} {g : File → File}
    (h : Q () { v with file := update v.file f (g (v.file f)) } o) :
    Safe p E (Fs.modifyFile f g) Q v o := by
  intro c hv ho
  subst hv ho
  exact Eq.mpr (congrArg (fun t => Q () { c.st.view with file := t } c.owner)
    (Store.get_set _ _ _)) h

theorem Safe.modifyProc {k : ℕ} {f : Proc → Proc}
    (h : Q () { v with proc := update v.proc k (f (v.proc k)) } o) :
    Safe p E (Fs.modifyProc k f) Q v o := by
  intro c hv ho
  subst hv ho
  exact Eq.mpr (congrArg (fun t => Q () { c.st.view with proc := t } c.owner)
    (Store.get_set _ _ _)) h

theorem Safe.setInput {l : List UInt8} (h : Q () { v with input := l } o) :
    Safe p E (Fs.setInput l) Q v o := by
  intro c hv ho
  subst hv ho
  exact h

theorem Safe.acquiresleep {l : Lock} (hl : o l = none)
    (h : Q () v (update o l (some p))) : Safe p E (Fs.acquiresleep l) Q v o := by
  intro c hv ho
  subst hv ho
  exact (safe_lock l hl).mpr ((Cfg.owner_take c l p).symm ▸ h)

theorem Safe.acquiresleep_blocked {l : Lock} {q : ℕ} (hl : o l = some q) (h : E (.blocked l q)) :
    Safe p E (Fs.acquiresleep l) Q v o := by
  intro c hv ho
  subst hv ho
  exact safe_lock_blocked l hl h

theorem Safe.releasesleep {l : Lock} (h : Q () v (update o l none)) :
    Safe p E (Fs.releasesleep l) Q v o := by
  intro c hv ho
  subst hv ho
  exact Eq.mpr (congrArg (Q () c.st.view) (Cfg.owner_drop c l)) h

theorem Safe.holdingsleep_seq {α : Type} {Q : Post α} {l : Lock}
    {g : Bool → Fs α} (hl : o l = some p) (h : Safe p E (g true) Q v o) :
    Safe p E (Fs.holdingsleep l >>= g) Q v o := by
  refine seq (R := fun b v' o' => b = true ∧ v' = v ∧ o' = o) ?_ ?_
  · intro c hv ho
    subst hv ho
    exact ⟨by simp [hl],rfl,rfl⟩
  · rintro _ _ _ ⟨rfl,rfl,rfl⟩
    exact h

/-- A loop over a range, with an invariant. -/
theorem Safe.forM_range' {f : ℕ → Fs Unit} (I : ℕ → View → Prop) {s n : ℕ}
    (step : ∀ j v, s ≤ j → j < s + n → I j v →
      Safe p E (f j) (fun _ v' o' => I (j + 1) v' ∧ o' = o) v o)
    (h0 : I s v) (h : ∀ v', I (s + n) v' → Q () v' o) :
    Safe p E ((List.range' s n).forM f) Q v o := by
  induction n generalizing s v with
  | zero => exact pure (h v h0)
  | succ n ih =>
    rw [List.range'_succ]
    refine seq (step s v le_rfl (by omega) h0) ?_
    rintro _ v' o' ⟨hi,rfl⟩
    refine ih (fun j w h1 h2 => step j w (by omega) (by omega)) hi ?_
    intro w hw
    exact h w (by rwa [Nat.add_assoc,Nat.add_comm 1 n] at hw)

theorem Safe.forM_range {f : ℕ → Fs Unit} (I : ℕ → View → Prop) {n : ℕ}
    (step : ∀ j v, j < n → I j v → Safe p E (f j) (fun _ v' o' => I (j + 1) v' ∧ o' = o) v o)
    (h0 : I 0 v) (h : ∀ v', I n v' → Q () v' o) : Safe p E ((List.range n).forM f) Q v o := by
  rw [List.range_eq_range']
  exact forM_range' I (fun j w _ hj => step j w (by omega)) h0
    (fun w hw => h w (by rwa [Nat.zero_add] at hw))

end Primitives
end Fs
end Xv6
