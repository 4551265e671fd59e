import Xv6.Vm.Paging

/-! # `exec.c`, and the memory of `growproc` and `fork`

`exec` up to the arguments is `image`, and the argument stack is `pushArgs` and `pushStack`: the
loops of the source, one after the other. -/
namespace Xv6.Vm

def MAXARG : ℕ := 32
def ELF_MAGIC : ℕ := 0x464C457F
def ELF_PROG_LOAD : ℕ := 1

/-- The number in the `n` bytes from `off` on, the low byte first. -/
def leNat (b : List UInt8) (off n : ℕ) : ℕ :=
  ((b.drop off).take n).foldr (fun c v => c.toNat + 256 * v) 0

/-- `struct elfhdr`, the fields that `exec` reads. -/
structure Elfhdr where
  magic : ℕ
  entry : ℕ
  phoff : ℕ
  phnum : ℕ

def Elfhdr.size : ℕ := 52

def Elfhdr.ofBytes (b : List UInt8) : Elfhdr :=
  { magic := leNat b 0 4, entry := leNat b 24 4, phoff := leNat b 28 4, phnum := leNat b 44 2 }

/-- `struct proghdr`, the fields that `exec` reads. -/
structure Proghdr where
  type : ℕ
  off : ℕ
  vaddr : ℕ
  filesz : ℕ
  memsz : ℕ

def Proghdr.size : ℕ := 32

def Proghdr.ofBytes (b : List UInt8) : Proghdr :=
  { type := leNat b 0 4, off := leNat b 4 4, vaddr := leNat b 8 4, filesz := leNat b 16 4,
    memsz := leNat b 20 4 }

/-- `readi` of a record of `n` bytes, if it returns `n`. -/
def readRecord (file : List UInt8) (off n : ℕ) : Option (List UInt8) :=
  (readi file off n).filter fun b => b.length = n

/-- One segment: the new size, if `exec` goes on. -/
def loadSegment (L : Layout) (file : List UInt8) (k : Kmem) (d : Pgdir) (sz : ℕ) (ph : Proghdr) :
    Except Trap (Kmem × Pgdir × Option ℕ) :=
  if ph.type ≠ ELF_PROG_LOAD then .ok (k,d,some sz)
  else if ph.memsz < ph.filesz then .ok (k,d,none)
  else if (ph.vaddr + ph.memsz) % 2 ^ 32 < ph.vaddr then .ok (k,d,none)
  else do
    let r ← allocuvm L k d sz ((ph.vaddr + ph.memsz) % 2 ^ 32)
    if r.2.2 = 0 then return (r.1,r.2.1,none)
    else if ph.vaddr % PGSIZE ≠ 0 then return (r.1,r.2.1,none)
    else
      let l ← loaduvm r.1 r.2.1 ph.vaddr file ph.off ph.filesz
      return (l.1,r.2.1,if l.2 then some r.2.2 else none)

/-- The loop over the program headers, `n` of them left. -/
def loadProgram (L : Layout) (file : List UInt8) :
    ℕ → ℕ → Kmem → Pgdir → ℕ → Except Trap (Kmem × Pgdir × Option ℕ)
  | 0, _, k, d, sz => .ok (k,d,some sz)
  | n + 1, off, k, d, sz =>
    match readRecord file off Proghdr.size with
    | none => .ok (k,d,none)
    | some b => do
      match ← loadSegment L file k d sz (Proghdr.ofBytes b) with
      | (k,d,none) => return (k,d,none)
      | (k,d,some sz) => loadProgram L file n ((off + Proghdr.size) % 2 ^ 32) k d sz

/-- The two pages of the user stack: the first one is not accessible. -/
def userStack (L : Layout) (k : Kmem) (d : Pgdir) (sz : ℕ) :
    Except Trap (Kmem × Pgdir × Option ℕ) := do
  let r ← allocuvm L k d (PGROUNDUP sz) ((PGROUNDUP sz + 2 * PGSIZE) % 2 ^ 32)
  if r.2.2 = 0 then return (r.1,r.2.1,none)
  else return (r.1,← clearpteu r.2.1 (r.2.2 - 2 * PGSIZE),some r.2.2)

/-- The memory of the program, or the directory to free. -/
def loadImage (L : Layout) (file : List UInt8) (elf : Elfhdr) (k : Kmem) (d : Pgdir) :
    Except Trap (Kmem × Pgdir × Option ℕ) := do
  match ← loadProgram L file elf.phnum elf.phoff k d 0 with
  | (k,d,none) => return (k,d,none)
  | (k,d,some sz) => userStack L k d sz

/-- `exec` up to the arguments: the header, the directory, the program and the user stack.  There is
nothing where `exec` returns `-1`. -/
def image (L : Layout) (k : Kmem) (file : List UInt8) :
    Except Trap (Kmem × Option (Elfhdr × Pgdir × ℕ)) :=
  match readRecord file 0 Elfhdr.size with
  | none => .ok (k,none)
  | some b =>
    let elf := Elfhdr.ofBytes b
    if elf.magic ≠ ELF_MAGIC then .ok (k,none)
    else do
      match ← setupkvm L k with
      | (k,none) => return (k,none)
      | (k,some d) =>
        match ← loadImage L file elf k d with
        | (k,d,none) => return (← freevm L k d,none)
        | (k,d,some sz) => return (k,some (elf,d,sz))

/-- `sp = (sp - (len + 1)) & ~3` -/
def pushAt (sp len : ℕ) : ℕ := (sp + 2 ^ 32 - (len + 1) % 2 ^ 32) % 2 ^ 32 / 4 * 4

/-- The loop that copies the argument strings: `sp` and the pointers in `ustack`, if it does not
fail.  `argc` strings are done. -/
def pushArgs (d : Pgdir) :
    List (List UInt8) → ℕ → Kmem → ℕ → Except Trap (Kmem × Option (ℕ × List ℕ))
  | [], _, k, sp => .ok (k,some (sp,[]))
  | arg :: rest, argc, k, sp =>
    if argc ≥ MAXARG then .ok (k,none)
    else do
      let sp := pushAt sp arg.length
      let r ← copyout k d sp (arg ++ [0])
      if r.2 then
        match ← pushArgs d rest (argc + 1) r.1 sp with
        | (k,none) => return (k,none)
        | (k,some (sp',ptrs)) => return (k,some (sp',sp :: ptrs))
      else return (r.1,none)

def wordBytes (w : ℕ) : List UInt8 :=
  [UInt8.ofNat w, UInt8.ofNat (w / 2 ^ 8), UInt8.ofNat (w / 2 ^ 16), UInt8.ofNat (w / 2 ^ 24)]

/-- `ustack`: the fake return address, `argc`, the argv pointer, the pointers and a 0. -/
def ustack (sp : ℕ) (ptrs : List ℕ) : List ℕ :=
  [0xffffffff, ptrs.length, (sp + 2 ^ 32 - (ptrs.length + 1) * 4) % 2 ^ 32] ++ ptrs ++ [0]

/-- The arguments on the stack: the new `sp`, if nothing fails. -/
def pushStack (d : Pgdir) (argv : List (List UInt8)) (k : Kmem) (sz : ℕ) :
    Except Trap (Kmem × Option ℕ) := do
  match ← pushArgs d argv 0 k sz with
  | (k,none) => return (k,none)
  | (k,some (sp,ptrs)) =>
    let sp' := (sp + 2 ^ 32 - (3 + ptrs.length + 1) * 4) % 2 ^ 32
    let r ← copyout k d sp' ((ustack sp ptrs).flatMap wordBytes)
    return (r.1,if r.2 then some sp' else none)

/-- What `exec`, `fork` and `growproc` change of a process. -/
structure Proc where
  sz : ℕ
  pgdir : Pgdir
  eip : ℕ
  esp : ℕ
  name : List UInt8

/-- `safestrcpy(curproc->name, last, 16)` for the last element of the path. -/
def progName (path : List UInt8) : List UInt8 :=
  ((path.reverse.takeWhile fun c => c != 47).reverse).take 15

/-- `exec(path, argv)` for the file that `path` names, if there is one: the process, which is changed
if the result is 0. -/
def exec (L : Layout) (k : Kmem) (p : Proc) (path : List UInt8) (file : Option (List UInt8))
    (argv : List (List UInt8)) : Except Trap (Kmem × Proc × ℤ) :=
  match file with
  | none => .ok (k,p,-1)
  | some file => do
    match ← image L k file with
    | (k,none) => return (k,p,-1)
    | (k,some (elf,d,sz)) =>
      match ← pushStack d argv k sz with
      | (k,none) => return (← freevm L k d,p,-1)
      | (k,some sp) =>
        let k ← freevm L k p.pgdir
        return (k,{ sz := sz, pgdir := d, eip := elf.entry, esp := sp, name := progName path },0)

/-- `inituvm(pgdir, init, sz)`: what `kalloc` and `mappages` return is not looked at. -/
def inituvm (k : Kmem) (d : Pgdir) (init : List UInt8) : Except Trap (Kmem × Pgdir) :=
  if init.length ≥ PGSIZE then .error .inituvm
  else
    match kalloc k with
    | none => .error .null
    | some (k,mem) => do
      let r ← mappages (k.memset mem 0) d 0 PGSIZE mem true true
      return (r.1.memmove mem init,r.2.1)

/-- The memory of the first process, from `userinit`. -/
def userinit (L : Layout) (k : Kmem) (init : List UInt8) : Except Trap (Kmem × Proc) := do
  match ← setupkvm L k with
  | (_,none) => .error .userinit
  | (k,some d) =>
    let r ← inituvm k d init
    return (r.1,{ sz := PGSIZE, pgdir := r.2, eip := 0, esp := PGSIZE
                  name := [105, 110, 105, 116, 99, 111, 100, 101] })

/-- `growproc(n)` -/
def growproc (L : Layout) (k : Kmem) (p : Proc) (n : Int32) : Except Trap (Kmem × Proc × ℤ) :=
  let newsz := ((p.sz + n.toInt) % 2 ^ 32).toNat
  if n > 0 then do
    let r ← allocuvm L k p.pgdir p.sz newsz
    return (r.1,if r.2.2 = 0 then ({ p with pgdir := r.2.1 },-1)
      else ({ p with pgdir := r.2.1, sz := r.2.2 },0))
  else if n < 0 then do
    let r ← deallocuvm L k p.pgdir p.sz newsz
    return (r.1,if r.2.2 = 0 then ({ p with pgdir := r.2.1 },-1)
      else ({ p with pgdir := r.2.1, sz := r.2.2 },0))
  else .ok (k,p,0)

/-- The memory part of `fork`: the child, if there is memory for it. -/
def fork (L : Layout) (k : Kmem) (p : Proc) : Except Trap (Kmem × Option Proc) := do
  match ← copyuvm L k p.pgdir p.sz with
  | (k,none) => return (k,none)
  | (k,some d) => return (k,some { p with pgdir := d })

end Xv6.Vm
