import Mathlib.Data.Nat.Digits.Defs
import Mathlib.Tactic.IntervalCases

/-! # Printed integers: `printint` of `printf.c` and of `console.c`, and `atoi` -/
namespace Xv6.Printf

/-- `buf[i++] = c`, where `buf` has 16 bytes. -/
def put (buf : List Char) (c : Char) : Option (List Char) :=
  if buf.length < 16 then some (buf ++ [c]) else none

/-- `do{ buf[i++] = digits[x % base]; }while((x /= base) != 0);` -/
def digitLoop (digits : List Char) (base x : UInt32) (buf : List Char) : Option (List Char) :=
  if buf.length < 16 then
    let buf' := buf ++ [digits[(x % base).toNat]?.getD ' ']
    if x / base ≠ 0 then digitLoop digits base (x / base) buf' else some buf'
  else none
termination_by 16 - buf.length
decreasing_by simp; omega

/-- The part that the two functions share: the digits of `x`, the sign, and the output from the last
byte to the first. -/
def print (digits : List Char) (x base : UInt32) (neg : Bool) : Option (List Char) := do
  let buf ← digitLoop digits base x []
  let buf ← if neg then put buf '-' else some buf
  return buf.reverse

/-- `printint(fd, xx, base, sgn)` of `printf.c`. -/
def printint (xx : Int32) (base : UInt32) (sgn : Int32) : Option (List Char) :=
  let neg := sgn ≠ 0 ∧ xx < 0
  let x := if neg then (-xx).toUInt32 else xx.toUInt32
  print "0123456789ABCDEF".toList x base neg

/-- `printint(xx, base, sign)` of `console.c`, which assigns to `sign` in its test. -/
def Console.printint (xx : Int32) (base : UInt32) (sign : Int32) : Option (List Char) :=
  let sign : Int32 := if sign ≠ 0 then (if xx < 0 then 1 else 0) else sign
  let x := if sign ≠ 0 then (-xx).toUInt32 else xx.toUInt32
  print "0123456789abcdef".toList x base (sign ≠ 0)

def atoiLoop : List Char → Int32 → Int32
  | [], n => n
  | c :: s, n => if '0' ≤ c ∧ c ≤ '9' then atoiLoop s (n * 10 + .ofNat c.toNat - 48) else n

def atoi (s : List Char) : Int32 := atoiLoop s 0

/-- The numeral of `xx`, which is signed if `sgn` is set. -/
def numeral (xx : Int32) (base : ℕ) (sgn : Int32) : List Char :=
  if sgn = 0 then Nat.toDigits base xx.toUInt32.toNat
  else (if xx < 0 then ['-'] else []) ++ Nat.toDigits base xx.toInt.natAbs

section
variable {digits : List Char} {base : UInt32} {f : Char → Char}
  (hf : ∀ d < base.toNat, digits[d]?.getD ' ' = f d.digitChar) (hb : 1 < base.toNat)
include hf hb

theorem digitLoop_eq (x : UInt32) (buf : List Char)
    (hlen : buf.length + (Nat.toDigits base.toNat x.toNat).length ≤ 16) :
    digitLoop digits base x buf =
      some (buf ++ ((Nat.toDigits base.toNat x.toNat).map f).reverse) := by
  have hdigit (x : ℕ) := hf (x % base.toNat) (Nat.mod_lt _ (by omega))
  fun_induction digitLoop digits base x buf with
  | case1 x buf hlt buf' hne ih =>
    have hle : base.toNat ≤ x.toNat := by
      by_contra hc
      exact hne (UInt32.toNat_inj.1 (by rw [UInt32.toNat_div,Nat.div_eq_of_lt (by omega)]; rfl))
    rw [Nat.toDigits_of_base_le hb hle] at hlen ⊢
    rw [ih (by simp [buf',UInt32.toNat_div] at hlen ⊢; omega)]
    simp [buf',hdigit,UInt32.toNat_div]
  | case2 x buf hlt buf' h0 =>
    have hx : x.toNat < base.toNat := by
      have h0 := congrArg UInt32.toNat (not_not.1 h0)
      rw [UInt32.toNat_div] at h0
      exact (Nat.div_eq_zero_iff_lt (by omega)).1 h0
    simp [buf',hf _ hx,Nat.toDigits_of_lt_base hx,Nat.mod_eq_of_lt hx]
  | case3 x buf hge =>
    have := Nat.length_toDigits_pos (b := base.toNat) (n := x.toNat)
    omega

theorem print_eq {x : UInt32} (neg : Bool)
    (hlen : (Nat.toDigits base.toNat x.toNat).length < 16) :
    print digits x base neg =
      some ((if neg then ['-'] else []) ++ (Nat.toDigits base.toNat x.toNat).map f) := by
  rw [print,digitLoop_eq hf hb x [] (by simpa using hlen.le)]
  cases neg with
  | false => simp
  | true => simp [put,hlen]

end

theorem length_toDigits_lt {base : ℕ} (hb : base = 10 ∨ base = 16) (x : UInt32) :
    (Nat.toDigits base x.toNat).length < 16 := by
  have hx := x.toNat_lt
  refine Nat.lt_succ_of_le ((Nat.length_toDigits_le_iff (by omega) (by decide)).2 (hx.trans ?_))
  rcases hb with rfl | rfl <;> decide

theorem toNat_neg {xx : Int32} (h : xx < 0) : (-xx).toUInt32.toNat = xx.toInt.natAbs := by
  have hneg : xx.toBitVec.toInt < 0 := Int32.lt_iff_toInt_lt.1 h
  change (-xx.toBitVec).toNat = xx.toBitVec.toInt.natAbs
  rw [BitVec.toInt_eq_toNat_cond] at hneg ⊢
  rw [BitVec.toNat_neg]
  have := xx.toBitVec.isLt
  split <;> omega

theorem toNat_of_nonneg {xx : Int32} (h : ¬ xx < 0) : xx.toUInt32.toNat = xx.toInt.natAbs := by
  have hpos : ¬ xx.toBitVec.toInt < 0 := fun hc => h (Int32.lt_iff_toInt_lt.2 hc)
  change xx.toBitVec.toNat = xx.toBitVec.toInt.natAbs
  rw [BitVec.toInt_eq_toNat_cond] at hpos ⊢
  have := xx.toBitVec.isLt
  split at hpos <;> omega

/-- Where the sign is tested and the number negated as it should be, the numeral is printed. -/
theorem print_numeral {digits : List Char} {base : UInt32} {f : Char → Char} (xx sgn : Int32)
    (hb : base = 10 ∨ base = 16) (hf : ∀ d < 16, digits[d]?.getD ' ' = f d.digitChar)
    (hsign : f '-' = '-') {q : Prop} [Decidable q] (hq : q ↔ sgn ≠ 0 ∧ xx < 0) :
    print digits (if q then (-xx).toUInt32 else xx.toUInt32) base q =
      some ((numeral xx base.toNat sgn).map f) := by
  have hbase : base.toNat = 10 ∨ base.toNat = 16 := hb.imp (congrArg _) (congrArg _)
  rw [print_eq (fun d hd => hf d (by omega)) (by omega) q (length_toDigits_lt hbase _),numeral]
  by_cases h : q
  · obtain ⟨hs,hx⟩ := hq.1 h
    rw [if_pos h,toNat_neg hx,if_neg hs]
    simp [h,hx,hsign]
  · by_cases hs : sgn = 0
    · simp [h,hs]
    · have hx : ¬ xx < 0 := fun hx => h (hq.2 ⟨hs,hx⟩)
      simp [h,hs,hx,toNat_of_nonneg hx]

theorem digit_bounds {c : Char} (h : c.isDigit) : '0' ≤ c ∧ c ≤ '9' := by
  rwa [Char.isDigit,Bool.and_eq_true,decide_eq_true_iff,decide_eq_true_iff] at h

theorem atoiLoop_eq {s : List Char} (hs : ∀ c ∈ s, c.isDigit) (n : ℕ) :
    atoiLoop s (.ofNat n) = .ofNat (Nat.ofDigitChars 10 s n) := by
  induction s generalizing n with
  | nil => rfl
  | cons c s ih =>
    have hc := digit_bounds (hs c List.mem_cons_self)
    obtain ⟨d,hd⟩ := Nat.exists_eq_add_of_le (show 48 ≤ c.toNat from hc.1)
    have hnext : Int32.ofNat n * 10 + .ofNat (48 + d) - 48 = .ofNat (10 * n + d) := by
      simp only [Int32.ofNat_add,Int32.ofNat_mul]
      grind
    rw [atoiLoop,if_pos hc,Nat.ofDigitChars_cons,← ih fun c hc => hs c (List.mem_cons_of_mem _ hc),
      hd,hnext]
    congr
    exact (Nat.add_sub_cancel_left ..).symm

/-- Both functions print the numeral of every number, within `buf`, and `atoi` reads it back. -/
theorem printint_numeral (xx : Int32) {base : UInt32} (hb : base = 10 ∨ base = 16) (sgn : Int32) :
    Console.printint xx base sgn = some (numeral xx base.toNat sgn) ∧
      printint xx base sgn = some ((numeral xx base.toNat sgn).map Char.toUpper) ∧
      (base = 10 → 0 ≤ xx → (printint xx base sgn).map atoi = some xx) := by
  have huser : printint xx base sgn = some ((numeral xx base.toNat sgn).map Char.toUpper) :=
    print_numeral xx sgn hb (by decide) rfl Iff.rfl
  refine ⟨?_,huser,fun h10 h0 => ?_⟩
  · have h : Console.printint xx base sgn = some ((numeral xx base.toNat sgn).map id) := by
      refine print_numeral xx sgn hb (by decide) rfl ?_
      by_cases hs : sgn = 0 <;> by_cases hx : xx < 0 <;> simp [hs,hx]
    rwa [List.map_id] at h
  · have hx : ¬ xx < 0 := Int32.not_lt.2 h0
    have hnum : numeral xx base.toNat sgn = Nat.toDigits 10 xx.toInt.natAbs := by
      subst h10
      rw [numeral,toNat_of_nonneg hx,if_neg hx]
      simp
    have hdigit : ∀ c ∈ Nat.toDigits 10 xx.toInt.natAbs, c.isDigit :=
      fun c => Nat.isDigit_of_mem_toDigits (by decide) (by decide)
    have hup : ∀ c ∈ Nat.toDigits 10 xx.toInt.natAbs, c.toUpper = c := fun c hc => dif_neg fun ha =>
      absurd (UInt32.le_trans ha.1 (digit_bounds (hdigit c hc)).2) (by decide)
    have hread := atoiLoop_eq hdigit 0
    rw [Nat.ofDigitChars_ten_toDigits,← Int32.ofInt_eq_ofNat,← Int32.ofInt_eq_ofNat,
      Int.natAbs_of_nonneg (Int32.le_iff_toInt_le.1 h0),Int32.ofInt_toInt] at hread
    rw [huser,hnum,Option.map_some,List.map_congr_left hup,List.map_id']
    exact congrArg some hread

theorem printint_numeral_min : Console.printint Int32.minValue 10 1 = some "-2147483648".toList :=
  (printint_numeral Int32.minValue (.inl rfl) 1).1.trans (by decide)

end Xv6.Printf
