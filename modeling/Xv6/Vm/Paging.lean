import Mathlib.Algebra.Group.Int.Defs
import Mathlib.Algebra.Group.Nat.Defs
import Mathlib.Logic.Function.Basic

/-! # `kalloc.c` and `vm.c`: pages and page tables

Addresses are natural numbers below `2 ^ 32`, and a sum that the source computes in 32 bits is taken
modulo `2 ^ 32`.  Physical pages are named by their physical address.  A page directory has the page
of each page table, and the entries of the tables by page number: a table belongs to one directory
entry only, so its entries are kept with the directory and not in memory. -/
namespace Xv6.Vm
open Function (update)

def PGSIZE : ℕ := 4096
def NPTENTRIES : ℕ := 1024
def NPDENTRIES : ℕ := 1024
def EXTMEM : ℕ := 0x100000
def PHYSTOP : ℕ := 0xE000000
def DEVSPACE : ℕ := 0xFE000000
def KERNBASE : ℕ := 0x80000000
def KERNLINK : ℕ := KERNBASE + EXTMEM

def PGROUNDUP (sz : ℕ) : ℕ := (sz + (PGSIZE - 1)) % 2 ^ 32 / PGSIZE * PGSIZE
def PGROUNDDOWN (a : ℕ) : ℕ := a / PGSIZE * PGSIZE
def PDX (va : ℕ) : ℕ := va / PGSIZE / NPTENTRIES

/-- What stops the kernel: a call of `panic`, or a read through `NULL`. -/
inductive Trap where
  | remap | kfree | loaduvmAlign | loaduvmExist | clearpteu | copyuvmPte | copyuvmPage | inituvm
  | userinit | null
  deriving DecidableEq, Repr

/-- The addresses that the linker chooses: `data` and `end`. -/
structure Layout where
  data : ℕ
  kend : ℕ

/-- A present entry of a page table. -/
structure Pte where
  addr : ℕ
  w : Bool
  u : Bool
  deriving DecidableEq, Repr

/-- A page directory in the page `addr`: the pages of the tables, and the entries by page number. -/
structure Pgdir where
  addr : ℕ
  table : ℕ → Option ℕ
  pte : ℕ → Option Pte

/-- The free pages and the bytes of the physical memory. -/
structure Kmem where
  freelist : List ℕ
  mem : ℕ → UInt8

/-- `memset(P2V(pa), c, PGSIZE)` -/
def Kmem.memset (k : Kmem) (pa : ℕ) (c : UInt8) : Kmem :=
  { k with mem := fun a => if pa ≤ a ∧ a < pa + PGSIZE then c else k.mem a }

/-- `memmove(P2V(pa), buf, n)` for the bytes of `buf`. -/
def Kmem.memmove (k : Kmem) (pa : ℕ) (buf : List UInt8) : Kmem :=
  { k with mem := fun a => if pa ≤ a ∧ a < pa + buf.length then buf.getD (a - pa) 0 else k.mem a }

def Kmem.page (k : Kmem) (pa : ℕ) : List UInt8 := (List.range PGSIZE).map fun i => k.mem (pa + i)

def kalloc (k : Kmem) : Option (Kmem × ℕ) :=
  match k.freelist with
  | [] => none
  | r :: freelist => some ({ k with freelist := freelist },r)

def kfree (L : Layout) (k : Kmem) (pa : ℕ) : Except Trap Kmem :=
  if pa % PGSIZE ≠ 0 ∨ (pa + KERNBASE) % 2 ^ 32 < L.kend ∨ pa ≥ PHYSTOP then .error .kfree
  else .ok { k.memset pa 1 with freelist := pa :: k.freelist }

def Pgdir.entry (d : Pgdir) (va : ℕ) : Option Pte := d.pte (va / PGSIZE)

def Pgdir.setEntry (d : Pgdir) (va : ℕ) (e : Option Pte) : Pgdir :=
  { d with pte := update d.pte (va / PGSIZE) e }

/-- `walkpgdir(pgdir, va, 0) != 0` -/
def Pgdir.walk (d : Pgdir) (va : ℕ) : Bool := (d.table (PDX va)).isSome

/-- `walkpgdir(pgdir, va, 1)`: a table is added where there is none. -/
def walkAlloc (k : Kmem) (d : Pgdir) (va : ℕ) : Option (Kmem × Pgdir) :=
  if d.walk va then some (k,d)
  else
    (kalloc k).map fun (k,pgtab) =>
      (k.memset pgtab 0, { d with
          table := update d.table (PDX va) (some pgtab)
          pte := fun n => if n / NPTENTRIES = PDX va then none else d.pte n })

def mapLoop (last : ℕ) (w u : Bool) :
    ℕ → Kmem → Pgdir → ℕ → ℕ → Except Trap (Kmem × Pgdir × Bool)
  | 0, k, d, _, _ => .ok (k,d,true)
  | fuel + 1, k, d, a, pa =>
    match walkAlloc k d a with
    | none => .ok (k,d,false)
    | some (k,d) =>
      if (d.entry a).isSome then .error .remap
      else
        let d := d.setEntry a (some { addr := pa, w := w, u := u })
        if a = last then .ok (k,d,true)
        else mapLoop last w u fuel k d ((a + PGSIZE) % 2 ^ 32) ((pa + PGSIZE) % 2 ^ 32)

/-- `mappages(pgdir, va, size, pa, perm)`, which is `true` for success.  There are `2 ^ 20` pages. -/
def mappages (k : Kmem) (d : Pgdir) (va size pa : ℕ) (w u : Bool) :
    Except Trap (Kmem × Pgdir × Bool) :=
  mapLoop (PGROUNDDOWN ((va + size + (2 ^ 32 - 1)) % 2 ^ 32)) w u (2 ^ 20) k d (PGROUNDDOWN va) pa

/-- The loop of `deallocuvm`: `a` skips to the next table where there is none. -/
def deallocLoop (L : Layout) (oldsz : ℕ) : ℕ → Kmem → Pgdir → ℕ → Except Trap (Kmem × Pgdir)
  | 0, k, d, _ => .ok (k,d)
  | fuel + 1, k, d, a =>
    if a < oldsz then
      if d.walk a then
        match d.entry a with
        | none => deallocLoop L oldsz fuel k d (a + PGSIZE)
        | some e =>
          if e.addr = 0 then .error .kfree
          else do
            let k ← kfree L k e.addr
            deallocLoop L oldsz fuel k (d.setEntry a none) (a + PGSIZE)
      else deallocLoop L oldsz fuel k d ((PDX a + 1) * NPTENTRIES * PGSIZE % 2 ^ 32)
    else .ok (k,d)

/-- `deallocuvm(pgdir, oldsz, newsz)` with the new size. -/
def deallocuvm (L : Layout) (k : Kmem) (d : Pgdir) (oldsz newsz : ℕ) :
    Except Trap (Kmem × Pgdir × ℕ) :=
  if newsz ≥ oldsz then .ok (k,d,oldsz)
  else do
    let r ← deallocLoop L oldsz (oldsz / PGSIZE + 1) k d (PGROUNDUP newsz)
    return (r.1,r.2,newsz)

/-- The addresses `a, a + PGSIZE, ..` below `stop`. -/
def pages (a stop : ℕ) : List ℕ :=
  (List.range ((stop + (PGSIZE - 1) - a) / PGSIZE)).map fun i => a + i * PGSIZE

/-- The loop of `allocuvm` over the addresses of the new pages. -/
def allocLoop (L : Layout) (oldsz newsz : ℕ) :
    List ℕ → Kmem → Pgdir → Except Trap (Kmem × Pgdir × ℕ)
  | [], k, d => .ok (k,d,newsz)
  | a :: rest, k, d =>
    match kalloc k with
    | none => do
      let r ← deallocuvm L k d newsz oldsz
      return (r.1,r.2.1,0)
    | some (k,mem) => do
      let r ← mappages (k.memset mem 0) d a PGSIZE mem true true
      if r.2.2 then allocLoop L oldsz newsz rest r.1 r.2.1
      else
        let r ← deallocuvm L r.1 r.2.1 newsz oldsz
        let k ← kfree L r.1 mem
        return (k,r.2.1,0)

/-- `allocuvm(pgdir, oldsz, newsz)` with the new size, or 0. -/
def allocuvm (L : Layout) (k : Kmem) (d : Pgdir) (oldsz newsz : ℕ) :
    Except Trap (Kmem × Pgdir × ℕ) :=
  if newsz ≥ KERNBASE then .ok (k,d,0)
  else if newsz < oldsz then .ok (k,d,oldsz)
  else allocLoop L oldsz newsz (pages (PGROUNDUP oldsz) newsz) k d

def freeTables (L : Layout) (d : Pgdir) : List ℕ → Kmem → Except Trap Kmem
  | [], k => .ok k
  | i :: rest, k =>
    match d.table i with
    | none => freeTables L d rest k
    | some pgtab => do freeTables L d rest (← kfree L k pgtab)

def freevm (L : Layout) (k : Kmem) (d : Pgdir) : Except Trap Kmem := do
  let r ← deallocuvm L k d KERNBASE 0
  let k ← freeTables L r.2.1 (List.range NPDENTRIES) r.1
  kfree L k d.addr

/-- A line of `kmap`: the virtual address, the physical range and `PTE_W`. -/
structure Kmap where
  virt : ℕ
  physStart : ℕ
  physEnd : ℕ
  w : Bool

def kmap (L : Layout) : List Kmap :=
  [⟨KERNBASE,0,EXTMEM,true⟩, ⟨KERNLINK,KERNLINK - KERNBASE,L.data - KERNBASE,false⟩,
   ⟨L.data,L.data - KERNBASE,PHYSTOP,true⟩, ⟨DEVSPACE,DEVSPACE,0,true⟩]

def kmapLoop (L : Layout) : List Kmap → Kmem → Pgdir → Except Trap (Kmem × Option Pgdir)
  | [], k, d => .ok (k,some d)
  | m :: rest, k, d => do
    let r ← mappages k d m.virt ((m.physEnd + 2 ^ 32 - m.physStart) % 2 ^ 32) m.physStart m.w false
    if r.2.2 then kmapLoop L rest r.1 r.2.1
    else return (← freevm L r.1 r.2.1,none)

/-- `setupkvm()`, with no directory where it returns 0. -/
def setupkvm (L : Layout) (k : Kmem) : Except Trap (Kmem × Option Pgdir) :=
  match kalloc k with
  | none => .ok (k,none)
  | some (k,pgdir) =>
    kmapLoop L (kmap L) (k.memset pgdir 0)
      { addr := pgdir, table := fun _ => none, pte := fun _ => none }

/-- The loop of `copyuvm` over the addresses of the pages. -/
def copyLoop (L : Layout) (old : Pgdir) :
    List ℕ → Kmem → Pgdir → Except Trap (Kmem × Option Pgdir)
  | [], k, d => .ok (k,some d)
  | i :: rest, k, d =>
    if old.walk i then
      match old.entry i with
      | none => .error .copyuvmPage
      | some e =>
        match kalloc k with
        | none => do return (← freevm L k d,none)
        | some (k,mem) => do
          let r ← mappages (k.memmove mem (k.page e.addr)) d i PGSIZE mem e.w e.u
          if r.2.2 then copyLoop L old rest r.1 r.2.1
          else
            let k ← kfree L r.1 mem
            return (← freevm L k r.2.1,none)
    else .error .copyuvmPte

def copyuvm (L : Layout) (k : Kmem) (old : Pgdir) (sz : ℕ) : Except Trap (Kmem × Option Pgdir) := do
  match ← setupkvm L k with
  | (k,none) => return (k,none)
  | (k,some d) => copyLoop L old (pages 0 sz) k d

/-- The bytes that `readi` gives for a regular file with the contents `file`, if it does not return
`-1`. -/
def readi (file : List UInt8) (off n : ℕ) : Option (List UInt8) :=
  if off > file.length ∨ (off + n) % 2 ^ 32 < off then none else some ((file.drop off).take n)

/-- The loop of `loaduvm` over the offsets of the pages. -/
def loadLoop (d : Pgdir) (file : List UInt8) (addr offset sz : ℕ) :
    List ℕ → Kmem → Except Trap (Kmem × Bool)
  | [], k => .ok (k,true)
  | i :: rest, k =>
    if d.walk (addr + i) then
      let pa := (d.entry (addr + i)).elim 0 Pte.addr
      let n := if sz - i < PGSIZE then sz - i else PGSIZE
      match readi file ((offset + i) % 2 ^ 32) n with
      | none => .ok (k,false)
      | some buf =>
        if buf.length = n then loadLoop d file addr offset sz rest (k.memmove pa buf)
        else .ok (k.memmove pa buf,false)
    else .error .loaduvmExist

/-- `loaduvm(pgdir, addr, ip, offset, sz)`, which is `true` for success. -/
def loaduvm (k : Kmem) (d : Pgdir) (addr : ℕ) (file : List UInt8) (offset sz : ℕ) :
    Except Trap (Kmem × Bool) :=
  if addr % PGSIZE ≠ 0 then .error .loaduvmAlign
  else loadLoop d file addr offset sz (pages 0 sz) k

def clearpteu (d : Pgdir) (uva : ℕ) : Except Trap Pgdir :=
  if d.walk uva then .ok (d.setEntry uva ((d.entry uva).map fun e => { e with u := false }))
  else .error .clearpteu

/-- `uva2ka(pgdir, uva)`, the physical address of the page.  The entry is read also where
`walkpgdir` returns 0. -/
def uva2ka (d : Pgdir) (uva : ℕ) : Except Trap (Option ℕ) :=
  if d.walk uva then .ok ((d.entry uva).bind fun e => if e.u then some e.addr else none)
  else .error .null

/-- The loop of `copyout`: a round copies at least one byte. -/
def copyLoopOut (d : Pgdir) : ℕ → Kmem → ℕ → List UInt8 → Except Trap (Kmem × Bool)
  | 0, k, _, _ => .ok (k,true)
  | fuel + 1, k, va, buf =>
    if buf = [] then .ok (k,true)
    else do
      let va0 := PGROUNDDOWN va
      match ← uva2ka d va0 with
      | none => return (k,false)
      | some pa0 =>
        let n := min (PGSIZE - (va - va0)) buf.length
        copyLoopOut d fuel (k.memmove (pa0 + (va - va0)) (buf.take n)) ((va0 + PGSIZE) % 2 ^ 32)
          (buf.drop n)

/-- `copyout(pgdir, va, p, len)` for the bytes of `buf`, which is `true` for success. -/
def copyout (k : Kmem) (d : Pgdir) (va : ℕ) (buf : List UInt8) : Except Trap (Kmem × Bool) :=
  copyLoopOut d buf.length k va buf

end Xv6.Vm
