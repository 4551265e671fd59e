import Mathlib.Data.Fintype.Pi
import Mathlib.Data.Nat.Bitwise

/-! # Fixed-size byte arrays and little-endian fields

An array of `n` bytes is read at any index (0 past the end) and built from a
function on indices.  A record is laid out by a function from offsets to bytes;
it is written with `splice` and read back from any array that agrees with it on
its extent. -/

def Bytes (n : ℕ) : Type := Fin n → UInt8

namespace Bytes
variable {n : ℕ}

def byte (b : Bytes n) (i : ℕ) : UInt8 := if h : i < n then b ⟨i,h⟩ else 0

def tabulate (f : ℕ → UInt8) : Bytes n := fun i => f i.val

def zero : Bytes n := fun _ => 0

/-- `len` bytes of `src` are copied to offset `off`. -/
def splice (b : Bytes n) (off len : ℕ) (src : ℕ → UInt8) : Bytes n :=
  tabulate fun i => if off ≤ i ∧ i < off + len then src (i - off) else b.byte i

instance : DecidableEq (Bytes n) := inferInstanceAs (DecidableEq (Fin n → UInt8))

instance : Inhabited (Bytes n) := ⟨zero⟩

@[simp] theorem byte_tabulate (f : ℕ → UInt8) {i : ℕ} (h : i < n) :
    (tabulate f : Bytes n).byte i = f i := by
  simp [byte,tabulate,h]

@[simp] theorem byte_zero (i : ℕ) : (zero : Bytes n).byte i = 0 := by
  simp [byte,zero]

theorem ext {a b : Bytes n} (h : ∀ i, i < n → a.byte i = b.byte i) : a = b := by
  funext i
  simpa [byte] using h i.val i.isLt

theorem byte_splice_in (b : Bytes n) (src : ℕ → UInt8) {off len i : ℕ} (hn : i < n)
    (h1 : off ≤ i) (h2 : i < off + len) : (b.splice off len src).byte i = src (i - off) := by
  simp [splice,hn,h1,h2]

theorem byte_splice_out (b : Bytes n) (src : ℕ → UInt8) {off len i : ℕ}
    (h : i < off ∨ off + len ≤ i) : (b.splice off len src).byte i = b.byte i := by
  have hc : ¬ (off ≤ i ∧ i < off + len) := by omega
  by_cases hn : i < n
  · simp [splice,hn,hc]
  · simp [byte,hn]

end Bytes

namespace LittleEndian

def read16 (f : ℕ → UInt8) : UInt16 := UInt16.ofNat ((f 0).toNat + (f 1).toNat * 256)

def read32 (f : ℕ → UInt8) : UInt32 :=
  UInt32.ofNat ((f 0).toNat + (f 1).toNat * 256 + (f 2).toNat * 65536 + (f 3).toNat * 16777216)

def write16 (w : UInt16) (i : ℕ) : UInt8 := UInt8.ofNat (w.toNat / 256 ^ i)

def write32 (w : UInt32) (i : ℕ) : UInt8 := UInt8.ofNat (w.toNat / 256 ^ i)

theorem read16_congr {f g : ℕ → UInt8} (h : ∀ i, i < 2 → f i = g i) : read16 f = read16 g := by
  simp only [read16,h 0 (by omega),h 1 (by omega)]

theorem read32_congr {f g : ℕ → UInt8} (h : ∀ i, i < 4 → f i = g i) : read32 f = read32 g := by
  simp only [read32,h 0 (by omega),h 1 (by omega),h 2 (by omega),h 3 (by omega)]

@[simp] theorem read16_write16 (w : UInt16) : read16 (write16 w) = w := by
  apply UInt16.toNat_inj.mp
  have hw := w.toNat_lt
  simp only [read16,write16,UInt16.toNat_ofNat',UInt8.toNat_ofNat',pow_zero,pow_one]
  omega

@[simp] theorem read32_write32 (w : UInt32) : read32 (write32 w) = w := by
  apply UInt32.toNat_inj.mp
  have hw := w.toNat_lt
  simp only [read32,write32,UInt32.toNat_ofNat',UInt8.toNat_ofNat',pow_zero,pow_one, Nat.reducePow]
  omega

theorem read16_eq {f : ℕ → UInt8} {w : UInt16} (h : ∀ i, i < 2 → f i = write16 w i) :
    read16 f = w :=
  (read16_congr h).trans (read16_write16 w)

theorem read32_eq {f : ℕ → UInt8} {w : UInt32} (h : ∀ i, i < 4 → f i = write32 w i) :
    read32 f = w :=
  (read32_congr h).trans (read32_write32 w)

@[simp] theorem read32_zero : read32 (fun _ => 0) = 0 := rfl

end LittleEndian

namespace Bytes
open LittleEndian
variable {n : ℕ}

def word (b : Bytes n) (k : ℕ) : UInt32 := read32 fun i => b.byte (4 * k + i)

def setWord (b : Bytes n) (k : ℕ) (w : UInt32) : Bytes n := b.splice (4 * k) 4 (write32 w)

@[simp] theorem word_zero (k : ℕ) : (zero : Bytes n).word k = 0 := by
  simp [word]

theorem word_setWord_self (b : Bytes n) {k : ℕ} (w : UInt32) (h : 4 * k + 4 ≤ n) :
    (b.setWord k w).word k = w := by
  rw [← read32_write32 w]
  apply read32_congr
  intro i hi
  rw [setWord,byte_splice_in _ _ (by omega) (by omega) (by omega),read32_write32]
  congr 1
  omega

theorem word_setWord_ne (b : Bytes n) {k j : ℕ} (w : UInt32) (h : j ≠ k) :
    (b.setWord k w).word j = b.word j := by
  apply read32_congr
  intro i hi
  rw [setWord,byte_splice_out _ _ (by omega)]

end Bytes

/-! ## The bits of a byte -/

namespace ByteBit

theorem toNat_mask {j : ℕ} (h : j < 8) : ((1 : UInt8) <<< UInt8.ofNat j).toNat = 2 ^ j := by
  revert h j
  decide

theorem and_mask (x : UInt8) {j : ℕ} (h : j < 8) :
    (x &&& ((1 : UInt8) <<< UInt8.ofNat j) != 0) = x.toNat.testBit j := by
  have he : (x &&& ((1 : UInt8) <<< UInt8.ofNat j) = 0) ↔ x.toNat.testBit j = false := by
    rw [← UInt8.toNat_inj,UInt8.toNat_and,toNat_mask h,Nat.and_two_pow]
    simp
  cases hb : x.toNat.testBit j with
  | false => simp [he.mpr hb]
  | true =>
    rw [bne_iff_ne]
    intro h0
    rw [he.mp h0] at hb
    cases hb

theorem testBit_or_mask (x : UInt8) {i j : ℕ} (h : j < 8) :
    (x ||| ((1 : UInt8) <<< UInt8.ofNat j)).toNat.testBit i
      = (x.toNat.testBit i || decide (j = i)) := by
  rw [UInt8.toNat_or,toNat_mask h,Nat.testBit_or,Nat.testBit_two_pow]

theorem testBit_and_not_mask (x : UInt8) {i j : ℕ} (h : j < 8) (hi : i < 8) :
    (x &&& ~~~ ((1 : UInt8) <<< UInt8.ofNat j)).toNat.testBit i
      = (x.toNat.testBit i && !decide (j = i)) := by
  have hsub : UInt8.size - 1 - 2 ^ j = 2 ^ 8 - (2 ^ j + 1) := by
    simp only [UInt8.size]
    omega
  rw [UInt8.toNat_and,Nat.testBit_and,UInt8.toNat_not,toNat_mask h,hsub,
    Nat.testBit_two_pow_sub_succ (Nat.pow_lt_pow_right (by omega) h),Nat.testBit_two_pow]
  simp [hi]

end ByteBit
