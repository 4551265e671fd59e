import Mathlib.Data.List.Basic
import Mathlib.Logic.Function.Iterate

/-! # Doubly linked rings

A ring of nodes through two maps `next` and `prev`, read as the list of the nodes
between the head and itself.  `Seg` says what the maps have to be on a stretch of the
ring, and changes to them elsewhere do not matter (`Seg.frame`). -/
namespace Ring
open Function List

variable {α : Type}

/-- From `a`, `next` goes through `l` to `b`, and `prev` goes back. -/
def Seg (next prev : α → α) : α → List α → α → Prop
  | a, [], b => next a = b ∧ prev b = a
  | a, x :: l, b => next a = x ∧ prev x = a ∧ Seg next prev x l b

/-- The ring with head `h` and the other nodes `l`. -/
structure IsRing (next prev : α → α) (h : α) (l : List α) : Prop where
  seg : Seg next prev h l h
  nodup : (h :: l).Nodup

variable {next prev : α → α} {a b c h : α} {l l₁ l₂ : List α}

theorem Seg.append (h1 : Seg next prev a l₁ b) (h2 : Seg next prev b l₂ c) :
    Seg next prev a (l₁ ++ b :: l₂) c := by
  induction l₁ generalizing a with
  | nil => exact ⟨h1.1,h1.2,h2⟩
  | cons x l ih => exact ⟨h1.1,h1.2.1,ih h1.2.2⟩

theorem Seg.split (hs : Seg next prev a (l₁ ++ b :: l₂) c) :
    Seg next prev a l₁ b ∧ Seg next prev b l₂ c := by
  induction l₁ generalizing a with
  | nil => exact ⟨⟨hs.1,hs.2.1⟩,hs.2.2⟩
  | cons x l ih =>
    obtain ⟨h1,h2⟩ := ih hs.2.2
    exact ⟨⟨hs.1,hs.2.1,h1⟩,h2⟩

section
variable (hs : Seg next prev a l b)
include hs

theorem Seg.next_mem : next a ∈ l ++ [b] := by
  cases l with
  | nil => simp [hs.1]
  | cons x l => simp [hs.1]

theorem Seg.next_eq : next a = (l ++ [b]).head (by simp) := by
  cases l with
  | nil => exact hs.1
  | cons x l => exact hs.1

theorem Seg.prev_mem : prev b ∈ a :: l := by
  induction l generalizing a with
  | nil => simp [hs.2]
  | cons x l ih => exact mem_cons_of_mem _ (ih hs.2.2)

/-- Following `next` meets the nodes in the order of the list. -/
theorem Seg.iterate {i : ℕ} (hi : i < (l ++ [b]).length) :
    next^[i + 1] a = (l ++ [b]).get ⟨i,hi⟩ := by
  induction l generalizing a i with
  | nil =>
    obtain rfl : i = 0 := by simpa using hi
    exact hs.1
  | cons x l ih =>
    rw [Function.iterate_succ_apply,hs.1]
    cases i with
    | zero => rfl
    | succ i => exact ih hs.2.2 (by simpa using hi)

/-- Every node of the stretch has its two neighbours. -/
theorem Seg.inverse : (∀ x ∈ a :: l, prev (next x) = x) ∧ ∀ x ∈ l ++ [b], next (prev x) = x := by
  induction l generalizing a with
  | nil =>
    obtain ⟨h1,h2⟩ := hs
    constructor
    · intro x hx
      obtain rfl : x = a := mem_singleton.mp hx
      rw [h1,h2]
    · intro x hx
      obtain rfl : x = b := mem_singleton.mp hx
      rw [h2,h1]
  | cons y l ih =>
    obtain ⟨h1,h2,h3⟩ := hs
    obtain ⟨i1,i2⟩ := ih h3
    constructor
    · intro x hx
      rcases mem_cons.mp hx with rfl | hx
      · rw [h1,h2]
      · exact i1 x hx
    · intro x hx
      rcases mem_cons.mp hx with rfl | hx
      · rw [h2,h1]
      · exact i2 x hx

/-- The stretch only depends on `next` before its end and on `prev` after its start. -/
theorem Seg.frame {next' prev' : α → α}
    (hn : ∀ x ∈ a :: l, next' x = next x) (hp : ∀ x ∈ l ++ [b], prev' x = prev x) :
    Seg next' prev' a l b := by
  induction l generalizing a with
  | nil => exact ⟨(hn a (by simp)).trans hs.1,(hp b (by simp)).trans hs.2⟩
  | cons x l ih =>
    refine ⟨(hn a (by simp)).trans hs.1,(hp x (by simp)).trans hs.2.1,ih hs.2.2 ?_ ?_⟩
    · exact fun y hy => hn y (mem_cons_of_mem _ hy)
    · exact fun y hy => hp y (mem_cons_of_mem _ hy)

end

variable [DecidableEq α]

/-- `b->next->prev = b->prev; b->prev->next = b->next;` takes `b` out. -/
theorem Seg.unlink (h₁ : Seg next prev a l₁ b) (h₂ : Seg next prev b l₂ c)
    (hn : (a :: (l₁ ++ l₂)).Nodup) (hc : c ∉ l₁ ++ l₂) :
    Seg (update next (prev b) (next b)) (update prev (next b) (prev b)) a (l₁ ++ l₂) c := by
  induction l₁ generalizing a with
  | nil =>
    obtain ⟨-,hpb⟩ := h₁
    rw [hpb,h₂.next_eq]
    obtain ⟨ha,hn2⟩ := nodup_cons.mp hn
    cases l₂ with
    | nil => exact ⟨update_self ..,update_self ..⟩
    | cons y l₂ =>
      refine ⟨update_self ..,update_self ..,h₂.2.2.frame ?_ ?_⟩
      · intro x hx
        exact update_of_ne (ne_of_mem_of_not_mem hx ha) _ _
      · intro x hx
        refine update_of_ne ?_ _ _
        rintro rfl
        rcases mem_append.mp hx with hx | hx
        · exact (nodup_cons.mp hn2).1 hx
        · exact hc (by simp [mem_singleton.mp hx])
  | cons x l₁ ih =>
    obtain ⟨h1,h2,h3⟩ := h₁
    obtain ⟨ha,hn'⟩ := nodup_cons.mp hn
    obtain ⟨hx,-⟩ := nodup_cons.mp hn'
    refine ⟨?_,?_,ih h3 hn' fun hm => hc (mem_cons_of_mem _ hm)⟩
    · have hpb := h3.prev_mem
      rw [update_of_ne,h1]
      rintro rfl
      exact ha (mem_append_left _ hpb)
    · have hnb := h₂.next_mem
      rw [update_of_ne,h2]
      rintro rfl
      rcases mem_append.mp hnb with hm | hm
      · exact hx (mem_append_right _ hm)
      · exact hc (by simp [mem_singleton.mp hm])

/-- `b->next = h->next; b->prev = h; h->next->prev = b; h->next = b;` puts `b` after `h`. -/
theorem IsRing.insert (hr : IsRing next prev h l) (hb : b ∉ h :: l) :
    IsRing (update (update next b (next h)) h b)
      (update (update prev b h) (next h) b) h (b :: l) := by
  obtain ⟨hs,hn⟩ := hr
  obtain ⟨hhl,hnl⟩ := nodup_cons.mp hn
  obtain ⟨hbh,hbl⟩ : b ≠ h ∧ b ∉ l := by simpa using hb
  have hnb : next h ≠ b := by
    intro he
    have hm := hs.next_mem
    rw [he] at hm
    simp [hbh,hbl] at hm
  refine ⟨⟨update_self ..,?_,?_⟩,?_⟩
  · rw [update_of_ne hnb.symm,update_self]
  · cases l with
    | nil =>
      refine ⟨?_,?_⟩
      · rw [update_of_ne hbh,update_self,hs.1]
      · rw [hs.1,update_self]
    | cons y l =>
      obtain ⟨h1,-,h3⟩ := hs
      rw [h1]
      refine ⟨?_,update_self ..,h3.frame ?_ ?_⟩
      · rw [update_of_ne hbh,update_self]
      · intro x hx
        rw [update_of_ne (ne_of_mem_of_not_mem hx hhl), update_of_ne (ne_of_mem_of_not_mem hx hbl)]
      · intro x hx
        have hxy : x ≠ y := by
          rintro rfl
          rcases mem_append.mp hx with hx | hx
          · exact (nodup_cons.mp hnl).1 hx
          · exact hhl (by simp [mem_singleton.mp hx])
        have hxb : x ≠ b := by
          rintro rfl
          rcases mem_append.mp hx with hx | hx
          · exact hbl (mem_cons_of_mem _ hx)
          · exact hbh (mem_singleton.mp hx)
        rw [update_of_ne hxy,update_of_ne hxb]
  · rw [nodup_cons,nodup_cons]
    exact ⟨by simp [hbh.symm,hhl],hbl,hnl⟩

theorem IsRing.unlink (hr : IsRing next prev h (l₁ ++ b :: l₂)) :
    IsRing (update next (prev b) (next b)) (update prev (next b) (prev b)) h (l₁ ++ l₂) := by
  obtain ⟨h1,h2⟩ := hr.seg.split
  have hn : (h :: (l₁ ++ l₂)).Nodup := by
    refine hr.nodup.sublist (List.Sublist.cons_cons _ ?_)
    exact List.Sublist.append_left (sublist_cons_self ..) _
  exact ⟨h1.unlink h2 hn (nodup_cons.mp hn).1,hn⟩

/-- Walking along `next` with at most `fuel` steps, the first node with `f` before `h`. -/
def search (next : α → α) (h : α) (f : α → Bool) : ℕ → α → Option α
  | 0, _ => none
  | fuel + 1, x => if x = h then none else if f x then some x else search next h f fuel (next x)

theorem Seg.search_eq {f : α → Bool} {fuel : ℕ} (hs : Seg next prev a l h) (hh : h ∉ l)
    (hf : l.length < fuel) : search next h f fuel (next a) = l.find? f := by
  induction l generalizing a fuel with
  | nil =>
    obtain ⟨fuel,rfl⟩ := Nat.exists_eq_add_of_lt hf
    simp [search,hs.1]
  | cons x l ih =>
    obtain ⟨fuel,rfl⟩ : ∃ n, fuel = n + 1 := ⟨fuel - 1,by omega⟩
    obtain ⟨h1,-,h3⟩ := hs
    obtain ⟨hx,hl⟩ : h ≠ x ∧ h ∉ l := by simpa using hh
    rw [h1,search,if_neg hx.symm,List.find?_cons]
    split
    · simp [*]
    · simp only [*]
      exact ih h3 hl (by simpa using hf)

omit [DecidableEq α] in
theorem Seg.reverse (hs : Seg next prev a l b) : Seg prev next b l.reverse a := by
  induction l generalizing a with
  | nil => exact ⟨hs.2,hs.1⟩
  | cons x l ih =>
    rw [reverse_cons]
    exact (ih hs.2.2).append ⟨hs.2.1,hs.1⟩

end Ring
