import Mathlib.Data.List.Nodup

/-! # Singly linked loops

The pointers `next` lead along a list, and from its last node to a given one.  A loop is a list
whose last node leads back to the first. -/
namespace Loop
open Function List

variable {α : Type}

/-- Every node leads to the following one, and the last to `b`. -/
def Leads (next : α → α) : List α → α → Prop
  | [], _ => True
  | x :: c, b => next x = c.headD b ∧ Leads next c b

variable {next next' : α → α} {b f p x : α} {c us vs xs ys : List α}

theorem headD_append : (xs ++ ys).headD b = xs.headD (ys.headD b) := by
  cases xs <;> rfl

theorem leads_append : Leads next (xs ++ ys) b ↔ Leads next xs (ys.headD b) ∧ Leads next ys b := by
  induction xs with
  | nil => simp [Leads]
  | cons x xs ih => rw [cons_append,Leads,Leads,ih,headD_append,and_assoc]

theorem Leads.frame (h : Leads next c b) (hc : ∀ x ∈ c, next' x = next x) : Leads next' c b := by
  induction c with
  | nil => trivial
  | cons x c ih =>
    refine ⟨(hc x (by simp)).trans h.1,ih h.2 fun y hy => hc y (by simp [hy])⟩

/-- A loop can be read from any of its nodes. -/
theorem Leads.rotate (h : Leads next (us ++ f :: vs) b) (hb : us.headD f = b) :
    Leads next (f :: vs ++ us) f := by
  rw [leads_append] at h ⊢
  subst hb
  exact ⟨h.2,h.1⟩

theorem Leads.next_eq (h : Leads next (xs ++ p :: ys) b) : next p = ys.headD b :=
  (leads_append.1 h).2.1

section Update
variable [DecidableEq α]

/-- `x->ptr = p->ptr; p->ptr = x` puts `x` behind `p`. -/
theorem Leads.insert (h : Leads next (xs ++ p :: ys) b) (hnodup : (xs ++ p :: x :: ys).Nodup) :
    Leads (update (update next x (next p)) p x) (xs ++ p :: x :: ys) b := by
  have hdist : p ∉ xs ∧ x ∉ xs ∧ p ∉ ys ∧ x ∉ ys ∧ p ≠ x := by
    simp [nodup_append] at hnodup
    grind
  obtain ⟨hpx,hxx,hpy,hxy,hne⟩ := hdist
  obtain ⟨h1,h2,h3⟩ := leads_append.1 h
  have hother : ∀ y, y ≠ p → y ≠ x → update (update next x (next p)) p x y = next y := by
    intro y hp hx
    rw [update_of_ne hp,update_of_ne hx]
  refine leads_append.2 ⟨h1.frame fun y hy => hother y ?_ ?_,?_,?_,h3.frame fun y hy =>
    hother y ?_ ?_⟩
  · exact ne_of_mem_of_not_mem hy hpx
  · exact ne_of_mem_of_not_mem hy hxx
  · simp
  · rw [update_of_ne hne.symm,update_self,h2]
  · exact ne_of_mem_of_not_mem hy hpy
  · exact ne_of_mem_of_not_mem hy hxy

/-- `p->ptr = p->ptr->ptr` takes the node behind `p` out. -/
theorem Leads.remove (h : Leads next (xs ++ p :: x :: ys) b) (hnodup : (xs ++ p :: x :: ys).Nodup) :
    Leads (update next p (next x)) (xs ++ p :: ys) b := by
  have hdist : p ∉ xs ∧ p ∉ ys := by
    simp [nodup_append] at hnodup
    grind
  obtain ⟨h1,-,h3,h4⟩ := leads_append.1 h
  refine leads_append.2 ⟨h1.frame fun y hy => ?_,?_,h4.frame fun y hy => ?_⟩
  · exact update_of_ne (ne_of_mem_of_not_mem hy hdist.1) _ _
  · rw [update_self,h3]
  · exact update_of_ne (ne_of_mem_of_not_mem hy hdist.2) _ _

end Update

/-- The first node with the property, from `a` on. -/
def walk (next : α → α) (stop : α → Bool) : ℕ → α → Option α
  | 0, _ => none
  | fuel + 1, a => if stop a then some a else walk next stop fuel (next a)

theorem Leads.walk_eq {stop : α → Bool} {fuel : ℕ} (h : Leads next c b) (hx : c.find? stop = some x)
    (hf : c.length ≤ fuel) : walk next stop fuel (c.headD b) = some x := by
  induction c generalizing fuel with
  | nil => cases hx
  | cons y c ih =>
    obtain ⟨fuel,rfl⟩ : ∃ n, fuel = n + 1 := ⟨fuel - 1,by simp at hf; omega⟩
    rw [headD_cons,walk]
    cases hs : stop y with
    | true => simpa [hs] using hx
    | false =>
      rw [if_neg (by simp),h.1]
      exact ih h.2 (by simpa [hs] using hx) (by simpa using hf)

/-- In a loop with one such node the walk ends there, wherever it starts. -/
theorem Leads.walk_loop {stop : α → Bool} {fuel : ℕ} (h : Leads next c b) (hb : c.headD b = b)
    (hf : f ∈ c) (hx : x ∈ c) (hstop : ∀ y ∈ c, stop y ↔ y = x) (hfuel : c.length ≤ fuel) :
    walk next stop fuel f = some x := by
  obtain ⟨us,vs,rfl⟩ := append_of_mem hf
  have hperm : (f :: vs ++ us).Perm (us ++ f :: vs) := perm_append_comm
  rw [headD_append,headD_cons] at hb
  have hrot := h.rotate hb
  refine hrot.walk_eq ?_ (hperm.length_eq ▸ hfuel)
  have hsome : ((f :: vs ++ us).find? stop).isSome := by
    rw [List.find?_isSome]
    exact ⟨x,hperm.mem_iff.2 hx,(hstop x hx).2 rfl⟩
  obtain ⟨y,hy⟩ := Option.isSome_iff_exists.1 hsome
  rw [hy,(hstop y (hperm.mem_iff.1 (mem_of_find?_eq_some hy))).1 (List.find?_some hy)]

end Loop
