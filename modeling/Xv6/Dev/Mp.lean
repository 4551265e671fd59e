import Mathlib.Algebra.BigOperators.Group.List.Defs
import Mathlib.Data.UInt

/-! # `mp.c`: the entries of the configuration table

`mem` is the memory from the `struct mpconf` on, and pointers are offsets in it. -/
namespace Xv6.Mp

def NCPU : ℕ := 8

/-- `conf->length` -/
def length (mem : ℕ → UInt8) : ℕ := (mem 4).toNat + 256 * (mem 5).toNat

def sum (mem : ℕ → UInt8) (len : ℕ) : UInt8 := ((List.range len).map mem).sum

/-- The tests of `mpconfig`. -/
def mpconfig (mem : ℕ → UInt8) : Bool :=
  [mem 0, mem 1, mem 2, mem 3] = ['P', 'C', 'M', 'P'].map Char.toUInt8 ∧ (mem 6 = 1 ∨ mem 6 = 4) ∧
    sum mem (length mem) = 0

/-- The `apicid` of `cpus[0 .. ncpu)`, and `ioapicid`. -/
structure Found where
  cpus : List UInt8
  ioapicid : UInt8
  deriving DecidableEq

structure State where
  p : ℕ
  ismp : Bool
  found : Found
  deriving DecidableEq

section Loop
variable (mem : ℕ → UInt8) (e : ℕ)

/-- `sizeof(struct mpproc)` for a processor, and 8 for the other types of entries. -/
def entrySize (p : ℕ) : ℕ := if mem p = 0 then 20 else 8

/-- What is stored for the entry at `p`: processors beyond `NCPU` are ignored. -/
def process (f : Found) (p : ℕ) : Found :=
  if mem p = 0 then
    if f.cpus.length < NCPU then { f with cpus := f.cpus ++ [mem (p + 1)] } else f
  else if mem p = 2 then { f with ioapicid := mem (p + 1) }
  else f

/-- One turn of the loop of `mpinit`.  The `break` of an unknown type leaves only the `switch`. -/
def turn (s : State) : State :=
  if s.p < e then
    if mem s.p ≤ 4 then ⟨s.p + entrySize mem s.p,s.ismp,process mem s.found s.p⟩
    else { s with ismp := false }
  else s

/-- `p=(uchar*)(conf+1)`, with `ncpu` zero. -/
def start : State := ⟨44,true,⟨[],0⟩⟩

/-- Where the entries from `p` on stand. -/
def entries : ℕ → ℕ → List ℕ
  | 0, _ => []
  | fuel + 1, p => if p < e then p :: entries fuel (p + entrySize mem p) else []

variable {mem e}

theorem process_cpus {f : Found} {p : ℕ} (h : f.cpus.length ≤ NCPU) :
    (process mem f p).cpus.length ≤ NCPU := by
  unfold process
  split
  · split
    · simp
      omega
    · exact h
  · split <;> exact h

theorem turn_cpus {s : State} (h : s.found.cpus.length ≤ NCPU) :
    (turn mem e s).found.cpus.length ≤ NCPU := by
  unfold turn
  split
  · split
    · exact process_cpus h
    · exact h
  · exact h

/-- Over entries of known types the loop comes to the end of the table. -/
theorem turns_finish {fuel : ℕ} {s : State} (hf : e ≤ s.p + fuel)
    (hknown : ∀ p ∈ entries mem e fuel s.p, mem p ≤ 4) :
    ∃ n p, e ≤ p ∧ (turn mem e)^[n] s =
      ⟨p,s.ismp,(entries mem e fuel s.p).foldl (process mem) s.found⟩ := by
  induction fuel generalizing s with
  | zero => exact ⟨0,s.p,hf,rfl⟩
  | succ fuel ih =>
    rw [entries] at hknown ⊢
    split
    next hlt =>
      rw [if_pos hlt,List.forall_mem_cons] at hknown
      have hstep : turn mem e s = ⟨s.p + entrySize mem s.p,s.ismp,process mem s.found s.p⟩ := by
        rw [turn,if_pos hlt,if_pos hknown.1]
      have hsize : 1 ≤ entrySize mem s.p := by
        unfold entrySize
        split <;> decide
      obtain ⟨n,p,hp,hn⟩ := ih (s := turn mem e s)
        (by rw [hstep]; dsimp only; omega) (by rw [hstep]; exact hknown.2)
      refine ⟨n + 1,p,hp,?_⟩
      rw [Function.iterate_succ_apply,hn,hstep]
      rfl
    next hge => exact ⟨0,s.p,by omega,rfl⟩

end Loop

/-- A table with one entry, of type `t`; `c` is the checksum. -/
def oneEntry (len c t : UInt8) (i : ℕ) : UInt8 :=
  [80, 67, 77, 80, len, 0, 1, c].getD i (if i = 44 then t else if i = 45 then 9 else 0)

end Xv6.Mp
