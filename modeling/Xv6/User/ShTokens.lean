import Mathlib.Data.List.Basic
import Mathlib.Data.List.TakeWhile
import Xv6.User.Sh

/-! # The tokens of a line

What a line is as a sequence of tokens, and that `gettoken` and `peek` read it. -/
namespace Xv6.Sh
open List

inductive Token where
  | sym (c : UInt8)
  /-- `>>` -/
  | append
  | word (w : List UInt8)
  deriving DecidableEq, Repr

/-- Words are the maximal runs of bytes that are neither whitespace nor symbols. -/
def tokens : List UInt8 → List Token
  | [] => []
  | c :: r =>
    if isWhitespace c then tokens r
    else if c = '>'.toUInt8 ∧ r.head? = some '>'.toUInt8 then .append :: tokens r.tail
    else if isSymbol c then .sym c :: tokens r
    else .word (c :: r.takeWhile isWordChar) :: tokens (r.dropWhile isWordChar)
termination_by s => s.length
decreasing_by
  · simp
  · exact Nat.lt_succ_of_le (List.tail_sublist r).length_le
  · simp
  · exact Nat.lt_succ_of_le (List.dropWhile_suffix _).length_le

theorem length_tokens (s : List UInt8) : (tokens s).length ≤ s.length := by
  fun_induction tokens s with
  | case1 => simp
  | case2 c r h ih => simp; omega
  | case3 c r h h' ih => simp at ih ⊢; omega
  | case4 c r h h' h'' ih => simpa using ih
  | case5 c r h h' h'' ih =>
    have := (dropWhile_suffix isWordChar (l := r)).length_le
    simp
    omega

theorem tokens_dropWhile (s : List UInt8) : tokens (s.dropWhile isWhitespace) = tokens s := by
  induction s with
  | nil => rfl
  | cons c r ih =>
    by_cases h : isWhitespace c
    · rw [dropWhile_cons_of_pos h,ih,tokens]
      simp [h]
    · rw [dropWhile_cons_of_neg h]

structure Span.IsWord (s : List UInt8) (w : Span) : Prop where
  lt : w.q < w.eq
  le : w.eq ≤ s.length
  chars : ∀ i, w.q ≤ i → i < w.eq → isWordChar (charAt s i)
  stops : w.eq < s.length → ¬ isWordChar (charAt s w.eq)

def Span.bytes (s : List UInt8) (w : Span) : List UInt8 := (s.drop w.q).take (w.eq - w.q)

section Skip
variable {s : List UInt8} {test : UInt8 → Bool} {i : ℕ}

theorem charAt_eq : charAt s i = (s.drop i).headD 0 := by
  simp [charAt,headD_eq_head?_getD]

theorem charAt_of_lt (h : i < s.length) : charAt s i = s[i] := by
  simp [charAt,h]

theorem drop_length_takeWhile (l : List UInt8) :
    l.drop (l.takeWhile test).length = l.dropWhile test := by
  induction l with
  | nil => rfl
  | cons c r ih => by_cases h : test c <;> simp [h,ih]

theorem drop_skipWhile : s.drop (skipWhile test s i) = (s.drop i).dropWhile test := by
  rw [skipWhile,← drop_drop,drop_length_takeWhile]

theorem length_skipWhile (hi : i ≤ s.length) : skipWhile test s i ≤ s.length := by
  have := ( takeWhile_prefix test (l := s.drop i)).length_le
  simp [skipWhile] at *
  omega

theorem take_skipWhile : (s.drop i).take (skipWhile test s i - i) = (s.drop i).takeWhile test := by
  rw [skipWhile,Nat.add_sub_cancel_left]
  exact (prefix_iff_eq_take.1 ( takeWhile_prefix test)).symm

theorem test_of_lt_skipWhile {k : ℕ} (hk : i ≤ k) (hlt : k < skipWhile test s i) :
    test (charAt s k) := by
  have hpre : (s.drop i).takeWhile test <+: s.drop i := takeWhile_prefix test
  have hlen : k - i < ((s.drop i).takeWhile test).length := by
    rw [skipWhile] at hlt
    omega
  have hk' : k < s.length := by
    have := hpre.length_le
    simp at this
    omega
  have hget : ((s.drop i).takeWhile test)[k - i] = charAt s k := by
    simp only [hpre.getElem hlen,getElem_drop,charAt_of_lt hk',Nat.add_sub_cancel' hk]
  rw [← hget]
  exact mem_takeWhile_imp (getElem_mem hlen)

theorem not_test_skipWhile (h : skipWhile test s i < s.length) :
    ¬ test (charAt s (skipWhile test s i)) := by
  have hne : (s.drop i).dropWhile test ≠ [] := by
    rw [← drop_skipWhile]
    simpa using h
  rw [charAt_eq,drop_skipWhile]
  cases hd : (s.drop i).dropWhile test with
  | nil => exact absurd hd hne
  | cons c r => simpa [hd] using head_dropWhile_not test hne

end Skip

theorem skipWhile_isWord {s : List UInt8} {q : ℕ} (hne : s.drop q ≠ [])
    (h : isWordChar (charAt s q)) : Span.IsWord s ⟨q,skipWhile isWordChar s q⟩ where
  lt := by
    cases hd : s.drop q with
    | nil => exact absurd hd hne
    | cons c r =>
      have hc : isWordChar c := by simpa [charAt_eq,hd] using h
      simp [skipWhile,hd,hc]
  le := length_skipWhile (by
    by_contra hlt
    exact hne (drop_eq_nil_of_le (by omega)))
  chars _ hk hlt := test_of_lt_skipWhile hk hlt
  stops hlt := not_test_skipWhile hlt

abbrev rest (s : List UInt8) (i : ℕ) : List Token := tokens (s.drop i)

theorem rest_skipWhile (s : List UInt8) (i : ℕ) :
    rest s (skipWhile isWhitespace s i) = rest s i := by
  rw [rest,drop_skipWhile,tokens_dropWhile]

/-- What `peek` compares with its characters: `>>` starts as `>` does. -/
def Token.first : Token → Option UInt8
  | .sym c => some c
  | .append => some '>'.toUInt8
  | .word _ => none

/-- The next token is one of the symbols. -/
def starts (toks : List Char) (ts : List Token) : Bool :=
  (ts.head?.bind Token.first).any (toks.map Char.toUInt8).contains

/-- What `gettoken` returns and leaves of a sequence of tokens. -/
inductive Taken (s : List UInt8) : List Token → Tok → Span → List Token → Prop where
  | eof {w : Span} : Taken s [] .eof w []
  | sym {c : UInt8} {w : Span} {ts : List Token} : Taken s (.sym c :: ts) (.sym c) w ts
  | append {w : Span} {ts : List Token} : Taken s (.append :: ts) .append w ts
  | word {w : Span} {ts : List Token} (hw : w.IsWord s) :
    Taken s (.word (w.bytes s) :: ts) .word w ts

theorem first_tokens {c : UInt8} {r : List UInt8} (hc : ¬ isWhitespace c) :
    (tokens (c :: r)).head?.bind Token.first = if isSymbol c then some c else none := by
  rw [tokens,if_neg hc]
  split
  next h => simp [Token.first,h.1]; decide
  next => split <;> simp [Token.first]

/-- The token at the pointer, and what is left behind it. -/
theorem tokenAt_taken {s : List UInt8} {q : ℕ}
    (hq : s.drop q = [] ∨ ∃ c r, s.drop q = c :: r ∧ ¬ isWhitespace c ∧ c ≠ 0) :
    Taken s (rest s q) (tokenAt s q).1 ⟨q,(tokenAt s q).2⟩ (rest s (tokenAt s q).2) := by
  obtain h | ⟨c,r,h,hw,h0⟩ := hq
  · simp only [tokenAt,charAt_eq,rest,h,headD_nil,if_true,tokens]
    exact .eof
  have hr : s.drop (q + 1) = r := by rw [← drop_drop,h]; rfl
  have hr' : s.drop (q + 2) = r.tail := by rw [← drop_drop,h]; simp
  simp only [tokenAt,charAt_eq,h,hr,headD_cons,if_neg h0]
  rw [rest,h,tokens,if_neg hw]
  by_cases hc : c = '>'.toUInt8
  · have hgt : r.headD 0 = '>'.toUInt8 ↔ r.head? = some '>'.toUInt8 := by
      cases r <;> simp [show (0 : UInt8) ≠ '>'.toUInt8 by decide]
    by_cases hd : r.head? = some '>'.toUInt8
    · simp only [hc,hgt,hd,if_true,and_self,rest,hr']
      exact .append
    · have hsym : isSymbol '>'.toUInt8 = true := by decide
      simp only [hc,hgt,hd,if_true,if_false,and_false,hsym,rest,hr]
      exact .sym
  · by_cases hsym : isSymbol c
    · simp only [hc,hsym,if_true,if_false,false_and,rest,hr]
      exact .sym
    · simp only [hc,hsym,if_false,false_and,Bool.false_eq_true]
      have hword : isWordChar c := by simp [isWordChar,hw,hsym]
      have hd : (s.drop q).dropWhile isWordChar = r.dropWhile isWordChar := by
        rw [h,dropWhile_cons_of_pos hword]
      have ht : (s.drop q).takeWhile isWordChar = c :: r.takeWhile isWordChar := by
        rw [h,takeWhile_cons_of_pos hword]
      rw [rest,drop_skipWhile,hd,← ht,← take_skipWhile]
      exact .word (skipWhile_isWord (by simp [h]) (by simpa [charAt_eq,h] using hword))

section Read
variable {s : List UInt8} (hs : 0 ∉ s)
include hs

/-- At a pointer that has skipped the whitespace. -/
theorem skipped_cases (i : ℕ) : s.drop (skipWhile isWhitespace s i) = [] ∨ ∃ c r,
      s.drop (skipWhile isWhitespace s i) = c :: r ∧ ¬ isWhitespace c ∧ c ≠ 0 := by
  cases hd : s.drop (skipWhile isWhitespace s i) with
  | nil => exact .inl rfl
  | cons c r =>
    refine .inr ⟨c,r,rfl,?_,?_⟩
    · have h : skipWhile isWhitespace s i < s.length := by
        have := congrArg List.length hd
        simp at this
        omega
      simpa [charAt_eq,hd] using not_test_skipWhile h
    · rintro rfl
      exact hs (mem_of_mem_drop (hd ▸ mem_cons_self))

theorem peek_spec (toks : List Char) (htoks : toks.all fun c => isSymbol c.toUInt8) (i : ℕ) :
    ∃ j, peek s toks i = .ok (starts toks (rest s i),j) ∧ rest s j = rest s i := by
  refine ⟨skipWhile isWhitespace s i,?_,rest_skipWhile s i⟩
  rw [← rest_skipWhile]
  simp only [peek,charAt_eq,starts]
  obtain h | ⟨c,r,h,hw,h0⟩ := skipped_cases hs i
  · simp [rest,h,tokens]
    rfl
  · rw [rest,h,first_tokens hw]
    by_cases hc : isSymbol c
    · have hn : (c != 0) = true := by simpa using h0
      simp [hc,hn]
      rfl
    · have : c ∉ toks.map Char.toUInt8 := by
        intro hmem
        obtain ⟨t,ht,rfl⟩ := mem_map.1 hmem
        exact hc (all_eq_true.1 htoks t ht)
      simp [hc,this]
      rfl

/-- `gettoken` takes the first token off. -/
theorem gettoken_spec (i : ℕ) :
    ∃ ret w j, gettoken s i = .ok ((ret,w),j) ∧ Taken s (rest s i) ret w (rest s j) := by
  refine ⟨_,_,_,rfl,?_⟩
  rw [rest_skipWhile,← rest_skipWhile s i]
  exact tokenAt_taken (skipped_cases hs i)

end Read

end Xv6.Sh
