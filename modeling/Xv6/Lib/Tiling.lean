import Mathlib.Algebra.BigOperators.Group.List.Basic
import Mathlib.Algebra.GroupWithZero.Nat
import Mathlib.Data.List.Pairwise

/-! # Blocks that tile regions

A block starts at its address and takes `size` units of `u` bytes.  The blocks of a list tile some
regions when they are apart and every byte of the regions is in one of them.  Blocks can be joined
and cut, and a new region is a new block. -/
namespace Tiling
open Function List

variable {u : ℕ} {size size' : ℕ → ℕ} {a b n r : ℕ} {bs bs' : List ℕ} {rs : List (ℕ × ℕ)}

def Apart (u : ℕ) (size : ℕ → ℕ) (a b : ℕ) : Prop := a + u * size a ≤ b ∨ b + u * size b ≤ a

def InBlock (u : ℕ) (size : ℕ → ℕ) (a x : ℕ) : Prop := a ≤ x ∧ x < a + u * size a

/-- The blocks at the addresses `bs` tile the regions `rs`, which have a start and a length. -/
structure Tiles (u : ℕ) (size : ℕ → ℕ) (bs : List ℕ) (rs : List (ℕ × ℕ)) : Prop where
  pos : ∀ a ∈ bs, 0 < size a
  apart : bs.Pairwise (Apart u size)
  cover : ∀ x, (∃ r ∈ rs, r.1 ≤ x ∧ x < r.1 + r.2) ↔ ∃ a ∈ bs, InBlock u size a x
  sum : (bs.map fun a => u * size a).sum = (rs.map Prod.snd).sum

theorem Apart.symm (h : Apart u size a b) : Apart u size b a := Or.symm h

theorem Tiles.nil : Tiles u size [] [] :=
  ⟨by simp,.nil,by simp,rfl⟩

theorem Tiles.perm (h : Tiles u size bs rs) (hp : bs.Perm bs') : Tiles u size bs' rs where
  pos a ha := h.pos a (hp.mem_iff.2 ha)
  apart := (hp.pairwise_iff fun h => h.symm).1 h.apart
  cover x := by simp only [h.cover,hp.mem_iff]
  sum := by rw [← h.sum,(hp.map _).sum_eq]

theorem Tiles.apart_of_ne (h : Tiles u size bs rs) (ha : a ∈ bs) (hb : b ∈ bs) (hne : a ≠ b) :
    Apart u size a b := by
  have : Std.Symm (Apart u size) := ⟨fun _ _ h => h.symm⟩
  exact h.apart.forall ha hb hne

section Unit
variable (hu : 0 < u)
include hu

theorem Tiles.nodup (h : Tiles u size bs rs) : bs.Nodup := by
  refine (List.Pairwise.imp_of_mem ?_ h.apart)
  rintro a b ha - hab rfl
  have := Nat.mul_pos hu (h.pos a ha)
  rcases hab with hab | hab <;> omega

theorem Tiles.length_le (h : Tiles u size bs rs) : bs.length ≤ (rs.map Prod.snd).sum := by
  rw [← h.sum]
  have hle : ∀ x ∈ bs.map (fun a => u * size a), 1 ≤ x := by
    intro x hx
    obtain ⟨a,ha,rfl⟩ := mem_map.1 hx
    exact Nat.mul_pos hu (h.pos a ha)
  simpa using length_le_sum_of_one_le _ hle

/-- A block and the one behind it become one. -/
theorem Tiles.join (h : Tiles u size (a :: b :: bs) rs) (hab : a + u * size a = b) :
    Tiles u (update size a (size a + size b)) (a :: bs) rs := by
  have hnodup := h.nodup hu
  have hother : ∀ c ∈ bs, update size a (size a + size b) c = size c := by
    intro c hc
    refine update_of_ne ?_ _ _
    rintro rfl
    simp [hc] at hnodup
  obtain ⟨ha,hb,hbs⟩ : (∀ c ∈ b :: bs, Apart u size a c) ∧ (∀ c ∈ bs, Apart u size b c) ∧
      bs.Pairwise (Apart u size) := by
    simpa [pairwise_cons] using h.apart
  have hmul : u * (size a + size b) = u * size a + u * size b := Nat.mul_add _ _ _
  constructor
  · intro c hc
    rcases mem_cons.1 hc with rfl | hc
    · rw [update_self]
      have := h.pos c (by simp)
      omega
    · rw [hother c hc]
      exact h.pos c (by simp [hc])
  · refine pairwise_cons.2 ⟨fun c hc => ?_,hbs.imp_of_mem fun hc hd hcd => ?_⟩
    · have hac := ha c (by simp [hc])
      have hbc := hb c hc
      have hc0 := Nat.mul_pos hu (h.pos c (by simp [hc]))
      simp only [Apart,update_self,hother c hc,hmul] at hac hbc ⊢
      omega
    · simpa only [Apart,hother _ hc,hother _ hd] using hcd
  · intro x
    have hblocks : InBlock u size a x ∨ InBlock u size b x ↔
        InBlock u (update size a (size a + size b)) a x := by
      simp only [InBlock,update_self,hmul]
      omega
    rw [h.cover]
    simp only [mem_cons,or_and_right,exists_or,exists_eq_left,← or_assoc,hblocks]
    refine or_congr_right (exists_congr fun c => and_congr_right fun hc => ?_)
    rw [InBlock,InBlock,hother c hc]
  · rw [← h.sum,map_cons,map_cons,map_cons,update_self,
      map_congr_left fun c hc => by rw [hother c hc]]
    simp only [sum_cons,hmul]
    omega

/-- A block is cut in two. -/
theorem Tiles.cut {m : ℕ} (h : Tiles u size (a :: bs) rs) (hsize : size a = m + n) (hm : 0 < m)
    (hn : 0 < n) :
    Tiles u (update (update size a m) (a + u * m) n) (a :: (a + u * m) :: bs) rs := by
  have hlt : a < a + u * m := Nat.lt_add_of_pos_right (Nat.mul_pos hu hm)
  have hmul : u * size a = u * m + u * n := by rw [hsize,Nat.mul_add]
  have hum := Nat.mul_pos hu hm
  have hun := Nat.mul_pos hu hn
  obtain ⟨ha,hbs⟩ := pairwise_cons.1 h.apart
  have hne : ∀ c ∈ bs, c ≠ a ∧ c ≠ a + u * m := by
    intro c hc
    have hac := ha c hc
    have hc0 := Nat.mul_pos hu (h.pos c (by simp [hc]))
    simp only [Apart] at hac
    omega
  have hself : update (update size a m) (a + u * m) n a = m := by
    rw [update_of_ne (Nat.ne_of_lt hlt),update_self]
  have hother : ∀ c ∈ bs, update (update size a m) (a + u * m) n c = size c := by
    intro c hc
    rw [update_of_ne (hne c hc).2,update_of_ne (hne c hc).1]
  constructor
  · intro c hc
    rcases mem_cons.1 hc with rfl | hc
    · rwa [hself]
    rcases mem_cons.1 hc with rfl | hc
    · rwa [update_self]
    · rw [hother c hc]
      exact h.pos c (by simp [hc])
  · refine pairwise_cons.2 ⟨fun c hc => ?_,pairwise_cons.2 ⟨fun c hc => ?_,
      hbs.imp_of_mem fun hc hd hcd => ?_⟩⟩
    · rcases mem_cons.1 hc with rfl | hc
      · rw [Apart,hself]
        exact .inl (Nat.le_refl _)
      · have hac := ha c hc
        simp only [Apart,hself,hother c hc] at hac ⊢
        omega
    · have hac := ha c hc
      simp only [Apart,update_self,hother c hc] at hac ⊢
      omega
    · simpa only [Apart,hother _ hc,hother _ hd] using hcd
  · intro x
    have hblocks : InBlock u size a x ↔
        InBlock u (update (update size a m) (a + u * m) n) a x ∨
        InBlock u (update (update size a m) (a + u * m) n) (a + u * m) x := by
      simp only [InBlock,update_self,hself]
      omega
    rw [h.cover]
    simp only [mem_cons,or_and_right,exists_or,exists_eq_left,← or_assoc,hblocks]
    refine or_congr_right (exists_congr fun c => and_congr_right fun hc => ?_)
    rw [InBlock,InBlock,hother c hc]
  · rw [← h.sum,map_cons,map_cons,map_cons,hself,update_self,
      map_congr_left fun c hc => by rw [hother c hc]]
    simp only [sum_cons]
    omega

/-- The blocks end where the regions end. -/
theorem Tiles.end_le (h : Tiles u size bs rs) (hr : ∀ r' ∈ rs, r'.1 + r'.2 ≤ r) (ha : a ∈ bs) :
    a + u * size a ≤ r := by
  have ha0 := Nat.mul_pos hu (h.pos a ha)
  obtain ⟨r',hr',h1,h2⟩ := (h.cover (a + u * size a - 1)).2 ⟨a,ha,by omega,by omega⟩
  have := hr r' hr'
  omega

/-- A region behind the others becomes a block. -/
theorem Tiles.grow (h : Tiles u size bs rs) (hr : ∀ r' ∈ rs, r'.1 + r'.2 ≤ r) (hn : 0 < n) :
    Tiles u (update size r n) (r :: bs) ((r,u * n) :: rs) := by
  have hend : ∀ c ∈ bs, c + u * size c ≤ r := fun c hc => h.end_le hu hr hc
  have hother : ∀ c ∈ bs, update size r n c = size c := by
    intro c hc
    have := hend c hc
    have := Nat.mul_pos hu (h.pos c hc)
    exact update_of_ne (by omega) _ _
  constructor
  · intro c hc
    rcases mem_cons.1 hc with rfl | hc
    · rwa [update_self]
    · rw [hother c hc]
      exact h.pos c hc
  · refine pairwise_cons.2 ⟨fun c hc => ?_,h.apart.imp_of_mem fun hc hd hcd => ?_⟩
    · rw [Apart,hother c hc]
      exact .inr (hend c hc)
    · simpa only [Apart,hother _ hc,hother _ hd] using hcd
  · intro x
    simp only [mem_cons,or_and_right,exists_or,exists_eq_left,h.cover,InBlock, update_self]
    refine or_congr_right (exists_congr fun c => and_congr_right fun hc => ?_)
    rw [hother c hc]
  · rw [map_cons,map_cons,update_self,
      map_congr_left fun c hc => by rw [hother c hc]]
    simp only [sum_cons,h.sum]

end Unit

end Tiling
