import Mathlib.Algebra.BigOperators.Group.List.Basic
import Mathlib.Algebra.Order.Ring.Nat

/-! # Transfers at a shared cursor

Several owners read and write cells at one cursor, which moves behind every transfer.
The transfers then take ranges one behind the other, and what a transfer has read or
written stays in its range. -/
namespace Tally
open List

/-- Cells that an owner has written, or read. -/
structure Transfer (P α : Type) where
  owner : P
  wrote : Bool
  cells : List α

variable {P α : Type} {off a b : ℕ} {l : List (Transfer P α)} {t : Transfer P α} {f₀ f f' : ℕ → α}

def start (off : ℕ) (l : List (Transfer P α)) (j : ℕ) : ℕ :=
  off + ((l.take j).map fun t => t.cells.length).sum

def cursor (off : ℕ) (l : List (Transfer P α)) : ℕ := start off l l.length

theorem cursor_eq : cursor off l = off + (l.map fun t => t.cells.length).sum := by
  rw [cursor,start,take_length]

theorem start_append (h : a ≤ l.length) : start off (l ++ [t]) a = start off l a := by
  rw [start,start,take_append_of_le_length h]

theorem cursor_append : cursor off (l ++ [t]) = cursor off l + t.cells.length := by
  simp [cursor,start,Nat.add_assoc]

theorem start_succ (h : l[a]? = some t) : start off l (a + 1) = start off l a + t.cells.length := by
  obtain ⟨hlt,rfl⟩ := List.getElem?_eq_some_iff.mp h
  rw [start,start,take_succ_eq_append_getElem hlt,map_append,sum_append,
    map_singleton,sum_singleton,Nat.add_assoc]

theorem start_mono (h : a ≤ b) (hb : b ≤ l.length) : start off l a ≤ start off l b := by
  induction b with
  | zero =>
    rw [Nat.le_zero.mp h]
  | succ b ih =>
    rcases Nat.lt_or_ge a (b + 1) with hlt | hge
    · have hstep : start off l (b + 1) = start off l b + l[b].cells.length :=
        start_succ (List.getElem?_eq_getElem hb)
      have hle := ih (by omega) (by omega)
      omega
    · rw [Nat.le_antisymm h hge]

theorem start_add_le (ha : l[a]? = some t) (hab : a < b) (hb : b ≤ l.length) :
    start off l a + t.cells.length ≤ start off l b := by
  rw [← start_succ ha]
  exact start_mono hab hb

/-- What one owner has written, in order. -/
def sent [DecidableEq P] (p : P) (l : List (Transfer P α)) : List α :=
  ((l.filter fun t => t.wrote && decide (t.owner = p)).map Transfer.cells).flatten

theorem sent_append [DecidableEq P] (p : P) : sent p (l ++ [t])
    = sent p l ++ if t.wrote = true ∧ t.owner = p then t.cells else [] := by
  unfold sent
  rw [filter_append,map_append,flatten_append]
  congr 1
  by_cases h : t.wrote = true ∧ t.owner = p
  · rw [if_pos h,filter_cons_of_pos (by simp [h])]
    simp
  · rw [if_neg h,filter_cons_of_neg (by simpa using h)]
    rfl

/-- The cells `f` hold what the transfers have moved, and what was there before in the
cells that none of them has written. -/
structure Recorded (f₀ f : ℕ → α) (off : ℕ) (l : List (Transfer P α)) : Prop where
  holds : ∀ j t, l[j]? = some t → ∀ x, (h : x < t.cells.length) → f (start off l j + x) = t.cells[x]
  other : ∀ y, (∀ j t, l[j]? = some t → t.wrote = true →
    ¬ (start off l j ≤ y ∧ y < start off l j + t.cells.length)) → f y = f₀ y

theorem Recorded.nil : Recorded f f off ([] : List (Transfer P α)) :=
  ⟨fun _ _ h => absurd h (by simp),fun _ _ => rfl⟩

/-- One more transfer: the cells before the cursor are left alone. -/
theorem Recorded.append (h : Recorded f₀ f off l) (hlow : ∀ y, y < cursor off l → f' y = f y)
    (hnew : ∀ x, (h : x < t.cells.length) → f' (cursor off l + x) = t.cells[x])
    (hsame : ∀ y, (t.wrote = true → ¬ (cursor off l ≤ y ∧ y < cursor off l + t.cells.length)) →
      f' y = f y) : Recorded f₀ f' off (l ++ [t]) := by
  refine ⟨fun j s hj x hx => ?_,fun y hy => ?_⟩
  · rcases Nat.lt_or_ge j l.length with hlt | hge
    · rw [List.getElem?_append_left hlt] at hj
      have hend : start off l j + s.cells.length ≤ cursor off l := start_add_le hj hlt le_rfl
      rw [start_append hlt.le,hlow _ (by omega)]
      exact h.holds j s hj x hx
    · have hlen := (List.getElem?_eq_some_iff.mp hj).1
      rw [length_append,length_singleton] at hlen
      obtain rfl : j = l.length := by omega
      rw [List.getElem?_append_right le_rfl,Nat.sub_self] at hj
      obtain rfl : t = s := Option.some.inj hj
      rw [start_append le_rfl]
      exact hnew x hx
  · rw [hsame y fun hw => ?_,h.other y fun j s hj hs => ?_]
    · have hlt := (List.getElem?_eq_some_iff.mp hj).1
      have := hy j s (by rw [List.getElem?_append_left hlt]; exact hj) hs
      rwa [start_append hlt.le] at this
    · have := hy l.length t (by simp) hw
      rwa [start_append le_rfl] at this

end Tally
