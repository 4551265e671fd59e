import Mathlib.Data.Nat.Bitwise
import Xv6.Param

/-! # The IDE disks and the commands of `ide.c`

A device works on one command at a time, and is busy until it has completed it.  The registers
say which disk and which sector a command is for. -/
namespace Xv6.Ide
open Function (update)

def SECTOR_SIZE : ℕ := 512

def sectorPerBlock : ℕ := BSIZE / SECTOR_SIZE

/-- The fields of `struct buf` that the drivers use, with the data of a block in `α`. -/
structure Buf (α : Type) where
  valid : Bool
  dirty : Bool
  dev : ℕ
  blockno : ℕ
  data : α
  deriving DecidableEq

/-- The registers `0x1f2` to `0x1f6`. -/
structure Regs where
  count : ℕ
  lba0 : ℕ
  lba1 : ℕ
  lba2 : ℕ
  select : ℕ

/-- The disk and the sector that the device reads from its registers. -/
def Regs.disk (r : Regs) : ℕ := (r.select >>> 4) % 2

def Regs.sector (r : Regs) : ℕ :=
  r.lba0 + 2 ^ 8 * r.lba1 + 2 ^ 16 * r.lba2 + 2 ^ 24 * (r.select % 16)

inductive Cmd (α : Type) where
  | read (disk sector : ℕ)
  | write (disk sector : ℕ) (data : α)
  deriving DecidableEq

variable {α : Type}

namespace Buf

/-- `(b->flags & (B_VALID|B_DIRTY)) == B_VALID` -/
def clean (b : Buf α) : Bool := b.valid && !b.dirty

/-- What `idestart` puts into the registers. -/
def regs (b : Buf α) : Regs :=
  let sector := b.blockno * sectorPerBlock
  { count := sectorPerBlock
    lba0 := sector &&& 0xff
    lba1 := (sector >>> 8) &&& 0xff
    lba2 := (sector >>> 16) &&& 0xff
    select := 0xe0 ||| ((b.dev &&& 1) <<< 4) ||| ((sector >>> 24) &&& 0x0f) }

def command (b : Buf α) : Cmd α :=
  if b.dirty then .write b.regs.disk b.regs.sector b.data else .read b.regs.disk b.regs.sector

theorem regs_sector {b : Buf α} (h : b.blockno < FSSIZE) : b.regs.sector = b.blockno := by
  have hs : b.blockno * sectorPerBlock = b.blockno := Nat.mul_one _
  have hlt : b.blockno < 1000 := h
  have h255 : ∀ n : ℕ, n &&& 0xff = n % 256 := fun n => Nat.and_two_pow_sub_one_eq_mod n 8
  have h24 : b.blockno >>> 24 = 0 := by
    rw [Nat.shiftRight_eq_div_pow]
    omega
  have hsel : (0xe0 ||| ((b.dev &&& 1) <<< 4) ||| (0 &&& 0x0f)) % 16 = 0 := by
    rw [Nat.and_one_is_mod]
    rcases Nat.mod_two_eq_zero_or_one b.dev with hd | hd
    · rw [hd]
      decide
    · rw [hd]
      decide
  simp only [Regs.sector,regs,hs,h24,hsel,h255,Nat.shiftRight_eq_div_pow]
  omega

theorem regs_disk {b : Buf α} (h : b.blockno < FSSIZE) : b.regs.disk = b.dev % 2 := by
  have hs : b.blockno * sectorPerBlock = b.blockno := Nat.mul_one _
  have hlt : b.blockno < 1000 := h
  have h24 : b.blockno >>> 24 = 0 := by
    rw [Nat.shiftRight_eq_div_pow]
    omega
  simp only [Regs.disk,regs,hs,h24]
  rw [Nat.and_one_is_mod]
  rcases Nat.mod_two_eq_zero_or_one b.dev with hd | hd
  · rw [hd]
    decide
  · rw [hd]
    decide

theorem command_eq {b : Buf α} (h : b.blockno < FSSIZE) :
    b.command = if b.dirty then .write (b.dev % 2) b.blockno b.data
      else .read (b.dev % 2) b.blockno := by
  rw [command,regs_disk h,regs_sector h]

end Buf

structure Device (α : Type) where
  /-- the blocks of the two disks -/
  disk : ℕ → ℕ → α
  /-- the command that the device is busy with -/
  busy : Option (Cmd α)
  /-- what can be read from the port `0x1f0` -/
  buffer : α
  /-- `IDE_DF` or `IDE_ERR` -/
  error : Bool
  /-- the commands that are completed -/
  finished : List (Cmd α)

namespace Device

def perform (d : Device α) : Cmd α → Device α
  | .read disk sector => { d with buffer := d.disk disk sector }
  | .write disk sector data =>
    { d with disk := update d.disk disk (update (d.disk disk) sector data) }

def complete (d : Device α) (error : Bool) : Option (Device α) :=
  d.busy.map fun c =>
    { (if error then d else d.perform c) with
      busy := none
      error := error
      finished := d.finished ++ [c] }

/-- `idewait`; there is no result while it has to go on waiting. -/
def idewait (d : Device α) (checkerr : Bool) : Option ℤ :=
  if d.busy.isSome then none else some (if checkerr && d.error then -1 else 0)

/-- `idestart`; there is no result when it panics with `incorrect blockno`, or while it waits
for the disk. -/
def idestart (d : Device α) (b : Buf α) : Option (Device α) :=
  if FSSIZE ≤ b.blockno then none
  else (d.idewait false).map fun _ => { d with busy := some b.command }

theorem idestart_eq {d : Device α} {b : Buf α} (h : b.blockno < FSSIZE) (hb : d.busy = none) :
    d.idestart b = some { d with busy := some b.command } := by
  simp [idestart,idewait,hb,Nat.not_le.mpr h]

theorem complete_eq {d d' : Device α} (h : d.complete false = some d') : ∃ c, d.busy = some c ∧
      d' = { d.perform c with busy := none, error := false, finished := d.finished ++ [c] } := by
  obtain ⟨c,hc,rfl⟩ := Option.map_eq_some_iff.mp h
  exact ⟨c,hc,rfl⟩

/-- `ideintr` takes the data from the device; there is no result while it waits for the disk. -/
def insl (d : Device α) (b : Buf α) : Option α :=
  if b.dirty then some b.data
  else (d.idewait true).map fun r => if 0 ≤ r then d.buffer else b.data

theorem insl_eq {d : Device α} {b : Buf α} (hb : d.busy = none) (he : d.error = false) :
    d.insl b = some (if b.dirty then b.data else d.buffer) := by
  unfold insl idewait
  rw [hb,he]
  split <;> simp

end Device
end Xv6.Ide
