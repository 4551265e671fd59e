import Mathlib.Algebra.GroupWithZero.Nat
import Mathlib.Logic.Function.Basic
import Xv6.Lib.Machine

/-! # `umalloc.c`: the memory allocator of user programs

Pointers are byte addresses, and the memory holds a `Header` at the addresses where a block can
start.  What `sbrk` has given out is recorded with the heap; it answers a call with a region or
with `-1`, and it may look at what it gave before.  The two loops take fuel. -/
namespace Xv6.Umalloc
open Function (update)

@[ext]
structure Header where
  ptr : ℕ
  size : ℕ
  deriving DecidableEq, Repr

def headerSize : ℕ := 8

/-- The memory of the allocator, and the regions from `sbrk` with their lengths in bytes. -/
structure Heap where
  mem : ℕ → Header
  /-- 0 before the first `malloc` -/
  freep : ℕ
  regions : List (ℕ × ℕ)

namespace Heap

def ptr (h : Heap) (p : ℕ) : ℕ := (h.mem p).ptr

def size (h : Heap) (p : ℕ) : ℕ := (h.mem p).size

def setPtr (h : Heap) (p q : ℕ) : Heap :=
  { h with mem := update h.mem p ⟨q,h.size p⟩ }

def setSize (h : Heap) (p n : ℕ) : Heap :=
  { h with mem := update h.mem p ⟨h.ptr p,n⟩ }

def setFreep (h : Heap) (p : ℕ) : Heap := { h with freep := p }

/-- No more blocks than bytes. -/
def fuel (h : Heap) : ℕ := (h.regions.map Prod.snd).sum + 1

end Heap

/-- The loop of `free`: the node behind which `bp` belongs. -/
def freeLoop (h : Heap) (bp : ℕ) : ℕ → ℕ → Option ℕ
  | 0, _ => none
  | fuel + 1, p =>
    if bp > p ∧ bp < h.ptr p then some p
    else if p ≥ h.ptr p ∧ (bp > p ∨ bp < h.ptr p) then some p
    else freeLoop h bp fuel (h.ptr p)

/-- `free`, behind its loop. -/
def insertAt (h : Heap) (bp p : ℕ) : Heap :=
  let next := h.ptr p
  let h :=
    if bp + headerSize * h.size bp = next then
      (h.setSize bp (h.size bp + h.size next)).setPtr bp (h.ptr next)
    else h.setPtr bp next
  let h :=
    if p + headerSize * h.size p = bp then
      (h.setSize p (h.size p + h.size bp)).setPtr p (h.ptr bp)
    else h.setPtr p bp
  h.setFreep p

/-- `free(ap)`; there is none when the loop does not end. -/
def free (h : Heap) (ap : ℕ) : Option Heap :=
  let bp := ap - headerSize
  (freeLoop h bp h.fuel h.freep).map (insertAt h bp)

/-- What `sbrk` answers, with the regions that it has given before and the number of bytes. -/
abbrev Sbrk := List (ℕ × ℕ) → ℕ → Option ℕ

/-- `if(nu < 4096) nu = 4096` -/
def coreUnits (nu : ℕ) : ℕ := if nu < 4096 then 4096 else nu

/-- `morecore(nu)` returns the heap and `freep`, or 0 when `sbrk` fails. -/
def morecore (sbrk : Sbrk) (h : Heap) (nu : ℕ) : Option (Heap × ℕ) :=
  let nu := coreUnits nu
  match sbrk h.regions (nu * headerSize % 2 ^ 32) with
  | none => some (h,0)
  | some hp =>
    let h := { h with regions := (hp,nu * headerSize % 2 ^ 32) :: h.regions }.setSize hp nu
    (free h (hp + headerSize)).map fun h => (h,h.freep)

/-- The block at `p` behind `prevp` is large enough. -/
def takeBlock (h : Heap) (nunits prevp p : ℕ) : Heap × ℕ :=
  if h.size p = nunits then
    ((h.setPtr prevp (h.ptr p)).setFreep prevp,p + headerSize)
  else
    let h := h.setSize p (h.size p - nunits)
    let p := p + headerSize * h.size p
    ((h.setSize p nunits).setFreep prevp,p + headerSize)

def mallocLoop (sbrk : Sbrk) (nunits : ℕ) : ℕ → Heap → ℕ → ℕ → Option (Heap × ℕ)
  | 0, _, _, _ => none
  | fuel + 1, h, prevp, p =>
    if nunits ≤ h.size p then some (takeBlock h nunits prevp p)
    else if p = h.freep then
      (morecore sbrk h nunits).bind fun (h,p) =>
        if p = 0 then some (h,0) else mallocLoop sbrk nunits fuel h p (h.ptr p)
    else mallocLoop sbrk nunits fuel h p (h.ptr p)

/-- `(nbytes + sizeof(Header) - 1)/sizeof(Header) + 1` as a `uint` -/
def nunits (nbytes : ℕ) : ℕ := ((nbytes + headerSize - 1) % 2 ^ 32 / headerSize + 1) % 2 ^ 32

section
variable (base : ℕ)

/-- `if((prevp = freep) == 0)` makes the list of `base` alone. -/
def init (h : Heap) : Heap :=
  if h.freep = 0 then ((h.setPtr base base).setFreep base).setSize base 0 else h

/-- `malloc(nbytes)` with the address it returns; there is none when the loop does not end. -/
def malloc (sbrk : Sbrk) (h : Heap) (nbytes : ℕ) : Option (Heap × ℕ) :=
  let h := init base h
  -- the blocks of the heap, and once more with the region of `morecore`
  mallocLoop sbrk (nunits nbytes) (2 * h.fuel + headerSize * (nunits nbytes + 4096)) h h.freep
    (h.ptr h.freep)

/-- A program that allocates: its heap, and the blocks of the pointers that `malloc` returned and
that were not freed yet. -/
structure World where
  heap : Heap
  live : List ℕ

inductive Op where
  | malloc (nbytes : ℕ) (sbrk : Sbrk)
  | free (ap : ℕ)

def call (w : World) : Op → Option (World × ℕ)
  | .malloc nbytes sbrk =>
    (malloc base sbrk w.heap nbytes).map fun (h,ap) =>
      if ap = 0 then (⟨h,w.live⟩,0) else (⟨h,(ap - headerSize) :: w.live⟩,ap)
  | .free ap => (free w.heap ap).map fun h => (⟨h,w.live.erase (ap - headerSize)⟩,0)

/-- `sbrk` gives out fresh memory above `base` and everything it gave before. -/
def Sbrk.Fresh (sbrk : Sbrk) : Prop :=
  ∀ rs nbytes a, sbrk rs nbytes = some a → base + headerSize ≤ a ∧ ∀ r ∈ rs, r.1 + r.2 ≤ a

def Ok (w : World) : Op → Prop
  | .malloc nbytes sbrk => nbytes < 2 ^ 30 ∧ sbrk.Fresh base
  | .free ap => ∃ a ∈ w.live, ap = a + headerSize

abbrev Reachable (mem : ℕ → Header) (w : World) : Prop :=
  Machine.Reach (fun w op => (call base w op).map Prod.fst) (Ok base) ⟨⟨mem,0,[]⟩,[]⟩ w

end

end Xv6.Umalloc
