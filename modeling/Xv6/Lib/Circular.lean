import Mathlib.Data.Nat.ModEq

/-! # Circular buffers with counters that wrap

A buffer of `n` cells with 32-bit counters that are never reduced: cell `c % n` is the one
for counter `c`.  The counters wrap, which does no harm as long as `n` divides `2 ^ 32`. -/
namespace Circular
open Function (update)
open List

/-- How far the counter `w` is ahead of `r`. -/
def count (r w : UInt32) : ℕ := (w - r).toNat

section Count
variable {r w : UInt32}

theorem count_eq : count r w = (2 ^ 32 - r.toNat + w.toNat) % 2 ^ 32 := UInt32.toNat_sub w r

@[simp] theorem count_self : count r r = 0 := by
  rw [count_eq]
  have := r.toNat_lt
  omega

theorem toNat_succ (c : UInt32) : (c + 1).toNat = (c.toNat + 1) % 2 ^ 32 := UInt32.toNat_add c 1

theorem toNat_pred (c : UInt32) : (c - 1).toNat = (2 ^ 32 - 1 + c.toNat) % 2 ^ 32 :=
  UInt32.toNat_sub c 1

theorem count_eq_zero : count r w = 0 ↔ r = w := by
  constructor
  · intro h
    apply UInt32.toNat_inj.mp
    have h1 := r.toNat_lt
    have h2 := w.toNat_lt
    rw [count_eq] at h
    omega
  · rintro rfl
    exact count_self

theorem count_succ (h : count r w + 1 < 2 ^ 32) : count r (w + 1) = count r w + 1 := by
  have h1 := r.toNat_lt
  have h2 := w.toNat_lt
  rw [count_eq] at h ⊢
  rw [count_eq,toNat_succ]
  omega

theorem count_pred (h : 0 < count r w) : count r (w - 1) = count r w - 1 := by
  have h1 := r.toNat_lt
  have h2 := w.toNat_lt
  rw [count_eq] at h ⊢
  rw [count_eq,toNat_pred]
  omega

theorem count_next (h : 0 < count r w) : count (r + 1) w = count r w - 1 := by
  have h1 := r.toNat_lt
  have h2 := w.toNat_lt
  rw [count_eq] at h ⊢
  rw [count_eq,toNat_succ]
  omega

/-- The comparison that tells a full buffer. -/
theorem count_eq_iff {n : UInt32} : w = r + n ↔ count r w = n.toNat := by
  have h1 := r.toNat_lt
  have h2 := w.toNat_lt
  have h3 := n.toNat_lt
  rw [count_eq,← UInt32.toNat_inj,UInt32.toNat_add]
  omega

theorem count_add {e : UInt32} (h : count r w ≤ count r e) : count r e = count r w + count w e := by
  have h1 := r.toNat_lt
  have h2 := w.toNat_lt
  have h3 := e.toNat_lt
  rw [count_eq,count_eq] at h
  rw [count_eq,count_eq,count_eq]
  omega

theorem toNat_eq : w.toNat = (r.toNat + count r w) % 2 ^ 32 := by
  have h1 := r.toNat_lt
  have h2 := w.toNat_lt
  rw [count_eq]
  omega

end Count

def content {α : Type} (n : ℕ) (buf : ℕ → α) (r : UInt32) (k : ℕ) : List α :=
  (List.range k).map fun j => buf ((r.toNat + j) % n)

section Content
variable {α : Type} {n k : ℕ} {buf : ℕ → α} {r w : UInt32} {x : α}

@[simp] theorem length_content : (content n buf r k).length = k := by
  simp [content]

@[simp] theorem content_zero : content n buf r 0 = [] := rfl

theorem content_succ : content n buf r (k + 1) = content n buf r k ++ [buf ((r.toNat + k) % n)] := by
  simp [content,range_succ]

theorem cell_eq (hn : n ∣ 2 ^ 32) (hk : count r w = k) : w.toNat % n = (r.toNat + k) % n := by
  rw [toNat_eq (r := r),hk,Nat.mod_mod_of_dvd _ hn]

theorem cell_ne {m j : ℕ} (hj : j < k) (hk : k < n) : (m + j) % n ≠ (m + k) % n := by
  intro h
  have h1 : j % n = k % n := Nat.ModEq.add_left_cancel' m h
  rw [Nat.mod_eq_of_lt (hj.trans hk),Nat.mod_eq_of_lt hk] at h1
  omega

theorem content_update (hn : n ∣ 2 ^ 32) {m : ℕ} (hw : count r w = m) (hm : m < n) (hk : k ≤ m) :
    content n (update buf (w.toNat % n) x) r k = content n buf r k := by
  refine map_congr_left fun j hj => ?_
  have hjk := mem_range.mp hj
  rw [Function.update_of_ne]
  rw [cell_eq hn hw]
  exact cell_ne (by omega) hm

theorem content_push (hn : n ∣ 2 ^ 32) (hw : count r w = k) (hk : k < n) :
    content n (update buf (w.toNat % n) x) r (k + 1) = content n buf r k ++ [x] := by
  rw [content_succ,content_update hn hw hk le_rfl,← cell_eq hn hw,Function.update_self]

theorem content_pop (hn : n ∣ 2 ^ 32) :
    content n buf r (k + 1) = buf (r.toNat % n) :: content n buf (r + 1) k := by
  unfold content
  rw [range_succ_eq_map,map_cons,map_map]
  congr 1
  refine map_congr_left fun j _ => congrArg buf ?_
  have h : ((r.toNat + 1) % 2 ^ 32 + j) % n = (r.toNat + 1 + j) % n :=
    Nat.ModEq.add_right j (Nat.mod_mod_of_dvd _ hn)
  rw [toNat_succ,h,Nat.succ_eq_add_one,Nat.add_assoc,Nat.add_comm 1]

/-- The cells from `r` on up to `w`, and those from there on. -/
theorem content_append (hn : n ∣ 2 ^ 32) {m : ℕ} (hw : count r w = k) :
    content n buf r (k + m) = content n buf r k ++ content n buf w m := by
  induction m with
  | zero => simp
  | succ m ih =>
    have hcell : (r.toNat + (k + m)) % n = (w.toNat + m) % n := by
      rw [← Nat.add_assoc]
      exact (Nat.ModEq.add_right m (cell_eq hn hw)).symm
    rw [← Nat.add_assoc,content_succ,ih,content_succ,hcell,append_assoc]

end Content
end Circular
