import Mathlib.Tactic.Common
import Xv6.Lib.Update

/-! # Allocation maps with one owner for each block

Slots of any kind hold block numbers, 0 for none.  A bitmap marks the reserved
blocks below `lo` and the blocks between `lo` and `hi` that some slot holds. -/

structure Owns {S : Type} (P : S → ℕ) (bit : ℕ → Bool) (lo hi : ℕ) : Prop where
  area : ∀ s, P s ≠ 0 → lo ≤ P s ∧ P s < hi
  /-- no block is held twice -/
  inj : ∀ s t, P s ≠ 0 → P s = P t → s = t
  reserved : ∀ b, b < lo → bit b = true
  /-- a bit is set exactly for the blocks that are held -/
  held : ∀ b, lo ≤ b → b < hi → (bit b = true ↔ ∃ s, P s = b)

namespace Owns
open Function
variable {S : Type} {P P' : S → ℕ} {bit bit' : ℕ → Bool} {lo hi : ℕ}

theorem congr (h : Owns P bit lo hi) (hlo : lo ≤ hi) (hP : ∀ s, P' s = P s)
    (hb : ∀ b, b < hi → bit' b = bit b) : Owns P' bit' lo hi := by
  obtain rfl : P' = P := funext hP
  refine ⟨h.area,h.inj,?_,?_⟩
  · intro b hlt
    rw [hb b (by omega)]
    exact h.reserved b hlt
  · intro b h1 h2
    rw [hb b h2]
    exact h.held b h1 h2

theorem bit_of_held (h : Owns P bit lo hi) {s : S} (hs : P s ≠ 0) : bit (P s) = true :=
  (h.held _ (h.area s hs).1 (h.area s hs).2).mpr ⟨s,rfl⟩

/-- A block whose bit is clear is held by no slot and is not reserved. -/
theorem free_block (h : Owns P bit lo hi) {b : ℕ} (hb : bit b = false) (hhi : b < hi) :
    lo ≤ b ∧ ∀ s, P s ≠ b := by
  have hlo : lo ≤ b := by
    by_contra hlt
    have := h.reserved b (by omega)
    rw [hb] at this
    cases this
  refine ⟨hlo,?_⟩
  rintro s rfl
  have := (h.held _ hlo hhi).mpr ⟨s,rfl⟩
  rw [hb] at this
  cases this

variable [DecidableEq S]

/-- A slot takes another block, or none. -/
theorem set (h : Owns P bit lo hi) (hpos : 0 < lo) {s : S} {b : ℕ}
    (hb : b ≠ 0 → lo ≤ b ∧ b < hi ∧ ∀ t, P t ≠ b) (hlow : ∀ c, c < lo → bit' c = bit c)
    (hbit : ∀ c, c ≠ 0 → (bit' c = true ↔ c = b ∨ c ≠ P s ∧ bit c = true)) :
    Owns (update P s b) bit' lo hi := by
  refine ⟨fun t => ?_,fun t u ht he => ?_,fun c hc => ?_,fun c h1 h2 => ?_⟩
  · exact update_cases (Q := fun _ x => x ≠ 0 → lo ≤ x ∧ x < hi)
      (fun h0 => ⟨(hb h0).1,(hb h0).2.1⟩) fun _ => h.area t
  · rcases of_update_eq he with ⟨rfl,hu⟩ | ⟨hts,hu⟩
    · rw [update_self] at ht
      rcases of_update_eq hu.symm with ⟨rfl,-⟩ | ⟨-,hu⟩
      · rfl
      · exact absurd hu ((hb ht).2.2 u)
    · rw [update_of_ne hts] at ht
      rcases of_update_eq hu.symm with ⟨-,hu⟩ | ⟨-,hu⟩
      · exact absurd hu.symm ((hb (hu ▸ ht)).2.2 t)
      · exact h.inj t u ht hu.symm
  · rw [hlow c hc]
    exact h.reserved c hc
  · rw [hbit c (by omega),h.held c h1 h2,Function.exists_update_iff P (fun _ x => x = c)]
    refine or_congr eq_comm ⟨?_,?_⟩
    · rintro ⟨hc,t,ht⟩
      refine ⟨t,?_,ht⟩
      rintro rfl
      exact hc ht.symm
    · rintro ⟨t,hts,rfl⟩
      exact ⟨fun he => hts (h.inj t s (by omega) he),t,rfl⟩

theorem alloc (h : Owns P bit lo hi) (hpos : 0 < lo) {s : S} (hs : P s = 0) {b : ℕ} (hhi : b < hi)
    (hb : bit b = false) : Owns (update P s b) (update bit b true) lo hi := by
  obtain ⟨hlo,hfree⟩ := h.free_block hb hhi
  refine h.set hpos (fun _ => ⟨hlo,hhi,hfree⟩) (fun c hc => update_of_ne (by omega) ..) ?_
  intro c h0
  rw [hs]
  by_cases hc : c = b
  · simp [hc]
  · simp [hc,h0]

theorem free (h : Owns P bit lo hi) (hpos : 0 < lo) {s : S} (hs : P s ≠ 0) :
    Owns (update P s 0) (update bit (P s) false) lo hi := by
  have hlo := (h.area s hs).1
  refine h.set hpos (absurd rfl) (fun c hc => update_of_ne (by omega) ..) ?_
  intro c h0
  by_cases hc : c = P s
  · simp [hc,hs]
  · simp [hc,h0]

end Owns
