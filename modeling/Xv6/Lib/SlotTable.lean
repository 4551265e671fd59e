import Mathlib.Data.List.Basic
import Mathlib.Order.Lattice

/-! # A finite map in a table of slots

Each slot is empty or holds a key with a value.  A key is looked up by a scan from the
first slot on, a new pair goes into the first empty slot or behind the last one, and a
pair is removed by emptying its slot. -/

structure SlotTable (K V : Type) where
  size : ℕ
  slot : ℕ → Option (K × V)

namespace SlotTable
open Function List Option
variable {K V : Type} [DecidableEq K] {t : SlotTable K V} {k k' : K} {v : V} {i j : ℕ}

def Holds (t : SlotTable K V) (j : ℕ) (k : K) : Prop := (t.slot j).map Prod.fst = some k

instance : Decidable (t.Holds j k) := inferInstanceAs (Decidable (_ = _))

def find (t : SlotTable K V) (k : K) : Option ℕ :=
  (List.range t.size).find? fun j => decide (t.Holds j k)

def get (t : SlotTable K V) (k : K) : Option V := ((t.find k).bind t.slot).map Prod.snd

def free (t : SlotTable K V) : ℕ :=
  ((List.range t.size).find? fun j => (t.slot j).isNone).getD t.size

def put (t : SlotTable K V) (j : ℕ) (e : Option (K × V)) : SlotTable K V :=
  ⟨max t.size (j + 1),update t.slot j e⟩

def Unique (t : SlotTable K V) : Prop :=
  ∀ i j k, i < t.size → j < t.size → t.Holds i k → t.Holds j k → i = j

omit [DecidableEq K] in
theorem holds_iff : t.Holds j k ↔ ∃ v, t.slot j = some (k,v) := by
  simp [Holds]

theorem find_eq_some : t.find k = some j ↔
    j < t.size ∧ t.Holds j k ∧ ∀ i, i < j → ¬ t.Holds i k := by
  simp only [find,List.find?_range_eq_some,decide_eq_true_eq,mem_range]
  constructor
  · rintro ⟨h,hj,hi⟩
    exact ⟨hj,h,fun i hij => by simpa using hi i hij⟩
  · rintro ⟨hj,h,hi⟩
    exact ⟨h,hj,fun i hij => by simpa using hi i hij⟩

theorem find_eq_none : t.find k = none ↔ ∀ j, j < t.size → ¬ t.Holds j k := by
  simp [find]

/-- In a table without double keys any slot with the key is the one that is found. -/
theorem Unique.find (h : t.Unique) (hj : j < t.size) (hk : t.Holds j k) : t.find k = some j := by
  rw [find_eq_some]
  refine ⟨hj,hk,fun i hi hik => ?_⟩
  have := h i j k (by omega) hj hik hk
  omega

theorem get_of_find (h : t.find k = some j) : ∃ v, t.slot j = some (k,v) ∧ t.get k = some v := by
  obtain ⟨v,hv⟩ := holds_iff.mp (find_eq_some.mp h).2.1
  exact ⟨v,hv,by simp [get,h,hv]⟩

theorem get_eq_none : t.get k = none ↔ t.find k = none := by
  constructor
  · intro h
    by_contra hc
    obtain ⟨j,hj⟩ := ne_none_iff_exists'.mp hc
    obtain ⟨v,-,hv⟩ := get_of_find hj
    rw [hv] at h
    cases h
  · intro h
    simp [get,h]

theorem Unique.get (h : t.Unique) (hj : j < t.size) (hk : t.slot j = some (k,v)) :
    t.get k = some v := by
  simp [SlotTable.get,h.find hj (holds_iff.mpr ⟨v,hk⟩),hk]

/-- The values of two tables agree where the same slots hold the key with the same value. -/
theorem get_congr {t' : SlotTable K V} (h' : t'.Unique)
    (hs : ∀ v, (∃ j, j < t.size ∧ t.slot j = some (k,v)) ↔
      ∃ j, j < t'.size ∧ t'.slot j = some (k,v)) : t'.get k = t.get k := by
  cases hg : t.get k with
  | none =>
    rw [get_eq_none,find_eq_none]
    rw [get_eq_none,find_eq_none] at hg
    intro j hj hh
    obtain ⟨v,hv⟩ := holds_iff.mp hh
    obtain ⟨i,hi,hiv⟩ := (hs v).mpr ⟨j,hj,hv⟩
    exact hg i hi (holds_iff.mpr ⟨v,hiv⟩)
  | some v =>
    have hf : t.find k ≠ none := fun hc => by rw [get_eq_none.mpr hc] at hg; cases hg
    obtain ⟨i,hi⟩ := ne_none_iff_exists'.mp hf
    obtain ⟨w,hw,hgw⟩ := get_of_find hi
    obtain rfl : w = v := by rw [hgw] at hg; exact Option.some.inj hg
    obtain ⟨j,hj,hjv⟩ := (hs w).mp ⟨i,(find_eq_some.mp hi).1,hw⟩
    exact h'.get hj hjv

omit [DecidableEq K] in
theorem slot_free (h : t.free < t.size) : t.slot t.free = none := by
  unfold free at h ⊢
  cases hf : (List.range t.size).find? fun j => (t.slot j).isNone with
  | none => rw [hf] at h; simp at h
  | some j =>
    have := List.find?_some hf
    simpa using this

omit [DecidableEq K] in
theorem free_le : t.free ≤ t.size := by
  unfold free
  cases hf : (List.range t.size).find? fun j => (t.slot j).isNone with
  | none => exact le_rfl
  | some j => exact Nat.le_of_lt (mem_range.mp (mem_of_find?_eq_some hf))

omit [DecidableEq K] in
theorem free_le_of_none (hj : j < t.size) (h : t.slot j = none) : t.free ≤ j := by
  unfold free
  cases hf : (List.range t.size).find? fun j => (t.slot j).isNone with
  | none =>
    have := List.find?_eq_none.mp hf j (mem_range.mpr hj)
    simp [h] at this
  | some i =>
    rw [getD_some]
    by_contra hlt
    have := (List.find?_range_eq_some.mp hf).2.2 j (by omega)
    simp [h] at this

omit [DecidableEq K] in
/-- The scan for an empty slot that has come to slot `j`. -/
theorem free_eq (hj : j ≤ t.size) (hprev : ∀ i, i < j → t.slot i ≠ none)
    (h : j < t.size → t.slot j = none) : t.free = j := by
  unfold free
  by_cases hlt : j < t.size
  · have : (List.range t.size).find? (fun j => (t.slot j).isNone) = some j := by
      rw [List.find?_range_eq_some]
      refine ⟨by simp [h hlt],mem_range.mpr hlt,fun i hi => ?_⟩
      simpa [isSome_iff_ne_none] using hprev i hi
    rw [this,getD_some]
  · have : (List.range t.size).find? (fun j => (t.slot j).isNone) = none := by
      rw [List.find?_eq_none]
      intro i hi
      have := hprev i (by rw [mem_range] at hi; omega)
      simpa [isNone_iff_eq_none] using this
    rw [this,getD_none]
    omega

def insert (t : SlotTable K V) (k : K) (v : V) : SlotTable K V := t.put t.free (some (k,v))

section Insert

omit [DecidableEq K] in
theorem slot_insert_of_live (h : j < t.size) (hj : t.slot j ≠ none) :
    (t.insert k v).slot j = t.slot j := by
  refine update_of_ne ?_ ..
  rintro rfl
  exact hj (slot_free h)

omit [DecidableEq K] in
theorem slot_insert {e : K × V} : (∃ j, j < (t.insert k v).size ∧ (t.insert k v).slot j = some e) ↔
    e = (k,v) ∨ ∃ j, j < t.size ∧ t.slot j = some e := by
  have hle := t.free_le
  constructor
  · rintro ⟨j,hj,he⟩
    by_cases hf : j = t.free
    · subst hf
      left
      have : (t.insert k v).slot t.free = some (k,v) := update_self ..
      rw [this] at he
      exact (Option.some.inj he).symm
    · right
      have : (t.insert k v).slot j = t.slot j := update_of_ne hf ..
      rw [this] at he
      change j < max t.size (t.free + 1) at hj
      exact ⟨j,by omega,he⟩
  · rintro (rfl | ⟨j,hj,he⟩)
    · exact ⟨t.free,Nat.lt_of_lt_of_le (Nat.lt_succ_self _) (le_max_right _ _), update_self ..⟩
    · refine ⟨j,Nat.lt_of_lt_of_le hj (le_max_left _ _),?_⟩
      rw [slot_insert_of_live hj (by rw [he]; simp),he]

theorem Unique.insert (h : t.Unique) (hk : t.find k = none) : (t.insert k v).Unique := by
  have hle := t.free_le
  have hself : (t.insert k v).slot t.free = some (k,v) := update_self ..
  -- a slot other than the new one is a slot of the old table
  have hold : ∀ i l, i ≠ t.free → i < (t.insert k v).size → (t.insert k v).Holds i l →
      i < t.size ∧ t.Holds i l := by
    intro i l hi hlt hh
    change i < max t.size (t.free + 1) at hlt
    have : (t.insert k v).slot i = t.slot i := update_of_ne hi ..
    rw [Holds,this] at hh
    exact ⟨by omega,hh⟩
  have hnew : ∀ i l, i ≠ t.free → i < (t.insert k v).size → (t.insert k v).Holds i l →
      ¬ (t.insert k v).Holds t.free l := by
    intro i l hi hlt hh hf
    rw [Holds,hself] at hf
    obtain rfl : k = l := Option.some.inj hf
    obtain ⟨hlt',hh'⟩ := hold i k hi hlt hh
    exact find_eq_none.mp hk i hlt' hh'
  intro i j l hi hj hil hjl
  by_cases hif : i = t.free
  · by_cases hjf : j = t.free
    · rw [hif,hjf]
    · exact absurd (hif ▸ hil) (hnew j l hjf hj hjl)
  · by_cases hjf : j = t.free
    · exact absurd (hjf ▸ hjl) (hnew i l hif hi hil)
    · obtain ⟨hi',hil'⟩ := hold i l hif hi hil
      obtain ⟨hj',hjl'⟩ := hold j l hjf hj hjl
      exact h i j l hi' hj' hil' hjl'

theorem Unique.get_insert (h : t.Unique) (hk : t.find k = none) :
    (t.insert k v).get = update t.get k (some v) := by
  funext l
  by_cases hl : l = k
  · subst hl
    rw [update_self]
    refine (h.insert hk).get ?_ (update_self ..)
    exact Nat.lt_of_lt_of_le (Nat.lt_succ_self _) (le_max_right _ _)
  · rw [update_of_ne hl]
    refine get_congr (h.insert hk) fun w => ?_
    rw [slot_insert]
    constructor
    · exact .inr
    · rintro (he | he)
      · exact absurd (congrArg Prod.fst he) hl
      · exact he

end Insert

section Remove

omit [DecidableEq K] in
theorem slot_remove (hj : j < t.size) {e : K × V} :
    (∃ i, i < (t.put j none).size ∧ (t.put j none).slot i = some e) ↔
      ∃ i, i ≠ j ∧ i < t.size ∧ t.slot i = some e := by
  have hsz : (t.put j none).size = t.size := max_eq_left hj
  constructor
  · rintro ⟨i,hi,he⟩
    have hij : i ≠ j := by
      rintro rfl
      rw [show (t.put i none).slot i = none from update_self ..] at he
      cases he
    refine ⟨i,hij,hsz ▸ hi,?_⟩
    rw [← he]
    exact (update_of_ne hij ..).symm
  · rintro ⟨i,hij,hi,he⟩
    exact ⟨i,hsz.symm ▸ hi,(update_of_ne hij ..).trans he⟩

omit [DecidableEq K] in
theorem Unique.remove (h : t.Unique) (hj : j < t.size) : (t.put j none).Unique := by
  have hsz : (t.put j none).size = t.size := max_eq_left hj
  have hold : ∀ i l, (t.put j none).Holds i l → t.Holds i l := by
    intro i l hh
    by_cases hij : i = j
    · subst hij
      rw [Holds,show (t.put i none).slot i = none from update_self ..] at hh
      cases hh
    · rwa [Holds,show (t.put j none).slot i = t.slot i from update_of_ne hij ..] at hh
  intro a b l ha hb hal hbl
  rw [hsz] at ha hb
  exact h a b l ha hb (hold a l hal) (hold b l hbl)

theorem Unique.get_remove (h : t.Unique) (hf : t.find k = some j) :
    (t.put j none).get = update t.get k none := by
  obtain ⟨hj,hk,-⟩ := find_eq_some.mp hf
  have hsz : (t.put j none).size = t.size := max_eq_left hj
  funext l
  by_cases hl : l = k
  · subst hl
    rw [update_self,get_eq_none,find_eq_none]
    intro i hi hh
    rw [hsz] at hi
    by_cases hij : i = j
    · subst hij
      rw [Holds,show (t.put i none).slot i = none from update_self ..] at hh
      cases hh
    · rw [Holds,show (t.put j none).slot i = t.slot i from update_of_ne hij ..] at hh
      exact hij (h i j l hi hj hh hk)
  · rw [update_of_ne hl]
    refine get_congr (h.remove hj) fun w => ?_
    rw [slot_remove hj]
    constructor
    · rintro ⟨i,hi,he⟩
      refine ⟨i,?_,hi,he⟩
      rintro rfl
      rw [Holds,he] at hk
      exact hl (Option.some.inj hk)
    · rintro ⟨i,-,hi,he⟩
      exact ⟨i,hi,he⟩

end Remove
end SlotTable
