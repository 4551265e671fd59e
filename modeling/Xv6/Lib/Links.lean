import Mathlib.Data.List.Chain
import Mathlib.Data.List.Nodup

/-! # Doubly linked lists

Nodes that follow each other through `next` and `prev`.  A list of nodes is taken apart and put
together at the links between its parts; inside a part nothing changes (`Chain.frame`). -/
namespace Links
open Function List

variable {α : Type}

def Link (next prev : α → α) (a b : α) : Prop := next a = b ∧ prev b = a

def Chain (next prev : α → α) (l : List α) : Prop := l.IsChain (Link next prev)

variable {next prev next' prev' : α → α} {a b : α} {l l₁ l₂ : List α}

theorem chain_singleton : Chain next prev [a] := isChain_singleton a

theorem chain_cons_cons : Chain next prev (a :: b :: l) ↔
    Link next prev a b ∧ Chain next prev (b :: l) := isChain_cons_cons

theorem chain_append : Chain next prev (l₁ ++ l₂) ↔ Chain next prev l₁ ∧ Chain next prev l₂ ∧
    ∀ a ∈ l₁.getLast?, ∀ b ∈ l₂.head?, Link next prev a b := isChain_append

/-- Only the links inside the part matter: `next` before its last node and `prev` behind its
first. -/
theorem Chain.frame (h : Chain next prev l) (hn : ∀ a ∈ l.dropLast, next' a = next a)
    (hp : ∀ b ∈ l.tail, prev' b = prev b) : Chain next' prev' l := by
  induction l with
  | nil => exact isChain_nil
  | cons a l ih =>
    cases l with
    | nil => exact chain_singleton
    | cons b l =>
      obtain ⟨⟨h1,h2⟩,h3⟩ := chain_cons_cons.1 h
      refine chain_cons_cons.2 ⟨⟨?_,?_⟩,ih h3 (fun c hc => ?_) fun c hc => ?_⟩
      · rw [hn a (by simp),h1]
      · rw [hp b (by simp),h2]
      · exact hn c (by simp [hc])
      · exact hp c (mem_cons_of_mem _ hc)

theorem Chain.getElem {i : ℕ} (h : Chain next prev l) (hi : i + 1 < l.length) :
    next (l.get ⟨i,by omega⟩) = l.get ⟨i + 1,hi⟩ ∧ prev (l.get ⟨i + 1,hi⟩) = l.get ⟨i,by omega⟩ :=
  isChain_iff_getElem.1 h i hi

variable {p q t u x y : α} {B X Y : List α}

theorem not_mem_dropLast (hy : B.getLast? = some y) (hB : B.Nodup) : y ∉ B.dropLast := by
  rw [← dropLast_append_getLast? y hy] at hB
  intro hmem
  exact (nodup_append.1 hB).2.2 y hmem y (by simp) rfl

theorem not_mem_tail (hx : B.head? = some x) (hB : B.Nodup) : x ∉ B.tail := by
  cases B with
  | nil => cases hx
  | cons b B =>
    obtain rfl : b = x := Option.some.inj hx
    exact (nodup_cons.1 hB).1

section Update
variable [DecidableEq α]

/-- The nodes between `p` and `q` are taken out: `p->next = q; q->prev = p`. -/
theorem Chain.cut (h : Chain next prev (X ++ (B ++ Y))) (hp : X.getLast? = some p)
    (hq : Y.head? = some q) (hnodup : (X ++ (B ++ Y)).Nodup) :
    Chain (update next p q) (update prev q p) (X ++ Y) ∧
      Chain (update next p q) (update prev q p) B := by
  have hpX : p ∈ X := mem_of_getLast? hp
  have hqY : q ∈ Y := mem_of_head? hq
  obtain ⟨hX,hBY,hdX⟩ := nodup_append.1 hnodup
  obtain ⟨hB,hY,hdB⟩ := nodup_append.1 hBY
  obtain ⟨h1,h2,-⟩ := chain_append.1 h
  obtain ⟨h3,h4,-⟩ := chain_append.1 h2
  refine ⟨chain_append.2 ⟨h1.frame ?_ ?_,h4.frame ?_ ?_,?_⟩,h3.frame ?_ ?_⟩
  · intro a ha
    exact update_of_ne (ne_of_mem_of_not_mem ha (not_mem_dropLast hp hX)) _ _
  · intro b hb
    exact update_of_ne
      (hdX b (mem_of_mem_tail hb) q (mem_append_right _ hqY)) _ _
  · intro a ha
    exact update_of_ne
      (hdX p hpX a (mem_append_right _ (dropLast_subset _ ha))).symm _ _
  · intro b hb
    exact update_of_ne (ne_of_mem_of_not_mem hb (not_mem_tail hq hY)) _ _
  · intro a ha b hb
    obtain rfl : p = a := Option.some.inj (hp.symm.trans ha)
    obtain rfl : q = b := Option.some.inj (hq.symm.trans hb)
    exact ⟨update_self ..,update_self ..⟩
  · intro a ha
    exact update_of_ne
      (hdX p hpX a (mem_append_left _ (dropLast_subset _ ha))).symm _ _
  · intro b hb
    exact update_of_ne (hdB b (mem_of_mem_tail hb) q hqY) _ _

/-- The nodes from `x` to `y` are put between `t` and `u`:
`u->prev = y; y->next = u; t->next = x; x->prev = t`. -/
theorem Chain.paste (h : Chain next prev (X ++ Y)) (hB : Chain next prev B)
    (ht : X.getLast? = some t) (hu : Y.head? = some u) (hx : B.head? = some x)
    (hy : B.getLast? = some y) (hnodup : (X ++ (B ++ Y)).Nodup) :
    Chain (update (update next y u) t x) (update (update prev u y) x t) (X ++ (B ++ Y)) := by
  have htX : t ∈ X := mem_of_getLast? ht
  have huY : u ∈ Y := mem_of_head? hu
  have hxB : x ∈ B := mem_of_head? hx
  have hyB : y ∈ B := mem_of_getLast? hy
  obtain ⟨hXn,hBYn,hdX⟩ := nodup_append.1 hnodup
  obtain ⟨hBn,hYn,hdB⟩ := nodup_append.1 hBYn
  have hXB : ∀ a ∈ X, ∀ b ∈ B, a ≠ b := fun a ha b hb => hdX a ha b (mem_append_left _ hb)
  have hXY : ∀ a ∈ X, ∀ b ∈ Y, a ≠ b := fun a ha b hb => hdX a ha b (mem_append_right _ hb)
  have hnext : ∀ a, a ≠ t → a ≠ y → update (update next y u) t x a = next a := by
    intro a hat hay
    rw [update_of_ne hat,update_of_ne hay]
  have hprev : ∀ b, b ≠ x → b ≠ u → update (update prev u y) x t b = prev b := by
    intro b hbx hbu
    rw [update_of_ne hbx,update_of_ne hbu]
  obtain ⟨h1,h2,-⟩ := chain_append.1 h
  refine chain_append.2 ⟨h1.frame ?_ ?_,chain_append.2 ⟨hB.frame ?_ ?_,h2.frame ?_ ?_,?_⟩,?_⟩
  · intro a ha
    exact hnext a (ne_of_mem_of_not_mem ha (not_mem_dropLast ht hXn))
      (hXB a (dropLast_subset _ ha) y hyB)
  · intro b hb
    have hbX := mem_of_mem_tail hb
    exact hprev b (hXB b hbX x hxB) (hXY b hbX u huY)
  · intro a ha
    exact hnext a (hXB t htX a (dropLast_subset _ ha)).symm
      (ne_of_mem_of_not_mem ha (not_mem_dropLast hy hBn))
  · intro b hb
    exact hprev b (ne_of_mem_of_not_mem hb (not_mem_tail hx hBn))
      (hdB b (mem_of_mem_tail hb) u huY)
  · intro a ha
    have haY := dropLast_subset _ ha
    exact hnext a (hXY t htX a haY).symm (hdB y hyB a haY).symm
  · intro b hb
    exact hprev b (hdB x hxB b (mem_of_mem_tail hb)).symm
      (ne_of_mem_of_not_mem hb (not_mem_tail hu hYn))
  · intro a ha b hb
    obtain rfl : y = a := Option.some.inj (hy.symm.trans ha)
    obtain rfl : u = b := Option.some.inj (hu.symm.trans hb)
    exact ⟨by rw [update_of_ne (hXB t htX y hyB).symm,update_self],
      by rw [update_of_ne (hdB x hxB u huY).symm,update_self]⟩
  · intro a ha b hb
    obtain rfl : t = a := Option.some.inj (ht.symm.trans ha)
    obtain rfl : x = b := by
      rw [List.head?_append,hx] at hb
      exact Option.some.inj hb
    exact ⟨update_self ..,update_self ..⟩

end Update

end Links
