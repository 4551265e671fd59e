import Xv6.Fs.Progress

/-! # Where an operation can start

What an operation of the file system relies on, each point with the failure that may
stand in its place. -/
namespace Xv6
open Conc Finset

section Spare
variable {E : Stops} {v v' : View} {d : Disk} {m i j : ℕ}

def allocatedInodes (d : Disk) : Finset ℕ :=
  (Finset.range Mkfs.NINODES).filter fun i => (inodeAt d i).type ≠ 0

theorem mem_allocatedInodes : i ∈ allocatedInodes d ↔ files d i ≠ none := by
  rw [allocatedInodes,mem_filter,mem_range,ne_eq,ne_eq,files_eq_none]
  exact ⟨fun h => h.2,fun h => ⟨lt_NINODES_of_type h,h⟩⟩

/-- The blocks that are not free are stored in the places of the inodes. -/
theorem freeCount_ge (h : Owned (inodeAt d) d) :
    FSSIZE ≤ freeCount d + 59 + 141 * (allocatedInodes d).card := by
  have hused : (Finset.range FSSIZE).filter (fun b => bitAt d b = true) ⊆
      Finset.range 59 ∪ (allocatedInodes d ×ˢ Finset.range 141).image (stored (inodeAt d) d) := by
    intro b hb
    rw [mem_filter,mem_range] at hb
    rw [mem_union,mem_range,mem_image]
    by_cases hlt : b < 59
    · exact .inl hlt
    · right
      obtain ⟨s,rfl⟩ := (h.held b (Nat.not_lt.mp hlt) hb.1).mp hb.2
      have hne : stored (inodeAt d) d s ≠ 0 := by omega
      obtain ⟨hi,ht⟩ := stored_ne_zero hne
      refine ⟨s,mem_product.mpr ⟨?_,mem_range.mpr ?_⟩,rfl⟩
      · rw [allocatedInodes,mem_filter,mem_range]
        exact ⟨hi,ht⟩
      · by_contra hk
        have hN : NDIRECT + NINDIRECT = 140 := rfl
        rw [stored,if_pos ⟨hi,ht⟩,ptr_eq_zero (by omega)] at hlt
        omega
  have hcard := card_le_card hused
  have hunion := card_union_le (Finset.range 59)
    ((allocatedInodes d ×ˢ Finset.range 141).image (stored (inodeAt d) d))
  have himage := card_image_le (s := allocatedInodes d ×ˢ Finset.range 141)
    (f := stored (inodeAt d) d)
  rw [card_product,card_range] at himage
  rw [card_range] at hunion
  have hsplit := card_filter_add_card_filter_not (s := Finset.range FSSIZE)
    fun b => bitAt d b = true
  simp only [Bool.not_eq_true,card_range] at hsplit
  unfold freeCount
  omega

/-- At most `m` inodes are in use, or `E` allows for a full disk. -/
def Spare (E : Stop Lock Panic → Prop) (m : ℕ) (v : View) : Prop :=
  E (.fail .ballocOutOfBlocks) ∨ (allocatedInodes v.disk).card ≤ m

theorem Spare.of_files (h : Spare E m v) (hf : ∀ i, files v'.disk i ≠ none → files v.disk i ≠ none) :
    Spare E m v' := by
  refine h.imp_right fun hcard => le_trans (card_le_card fun i hi => ?_) hcard
  rw [mem_allocatedInodes] at hi ⊢
  exact hf i hi

/-- A directory entry needs a block and an indirect block. -/
theorem Spare.entry (h : Spare E m v) (hm : m ≤ 6) (hs : Owned (inodeAt v.disk) v.disk) (i j : ℕ) :
    E (.fail .ballocOutOfBlocks) ∨ Fs.entryNeeds v.disk i j ≤ freeCount v.disk := by
  refine h.imp_right fun hcard => ?_
  have hfree := freeCount_ge hs
  have hF : FSSIZE = 1000 := rfl
  have hneeds : Fs.entryNeeds v.disk i j ≤ 2 := by
    unfold Fs.entryNeeds Fs.needs
    rw [Fs.endBlock_entry,Nat.Ico_succ_singleton]
    have hone := card_filter_le {j * Dirent.sizeof / BSIZE}
      fun n => (inodeAt v.disk i).blk v.disk n = 0
    rw [card_singleton] at hone
    split <;> omega
  omega

end Spare

/-- Panics for the lack of a resource. -/
def Panic.resource : Panic → Bool
  | .ballocOutOfBlocks | .iallocNoInodes | .igetNoInodes => true
  | _ => false

/-- An operation can start in `v`, where the failures that it may meet are in `E`. -/
structure Starts (E : Stop Lock Panic → Prop) (v : View) : Prop where
  core : Core v
  tree : Tree E v
  even : ∀ i n, files v.disk i = some n → n.type = T_DIR → n.size % Dirent.sizeof ≠ 0 →
    E (.fail .dirlinkRead)
  slots : Slots E 3 v
  spare : Spare E 5 v
  log : Quiet v ∨ ∀ e, E (.fail (.log e))
  budget : Budget E 20 v

def InRange (v : View) : Prop := ∀ i n j, files v.disk i = some n → n.type = T_DIR → j < n.count →
  (n.entry j).inum ≠ 0 → (n.entry j).inum.toNat < Mkfs.NINODES

/-- Every panic but one for a full directory is allowed. -/
theorem Starts.of_panics {E : Stops} {v : View} (hc : Core v) (hr : InRange v)
    (hE : ∀ e : Panic, e ≠ .dirlink → E (.fail e)) : Starts E v where
  core := hc
  tree := ⟨fun _ _ _ _ _ => hE _ nofun,hr,.inl (hE _ nofun)⟩
  even := fun _ _ _ _ _ => hE _ nofun
  slots := .inl (hE _ nofun)
  spare := .inl (hE _ nofun)
  log := .inr fun _ => hE _ nofun
  budget := .inl fun _ => hE _ nofun

section Keep
variable {E : Stops} {v v' : View} {A : Finset ℕ} {k i m : ℕ} {n : Node}

theorem Tree.of_dirs (h : Tree E v)
    (hdir : ∀ i n, files v'.disk i = some n → n.type = T_DIR → files v.disk i = some n)
    (hq : Quiet v → Quiet v')
    (hfiles : Quiet v → ∀ i, files v.disk i ≠ none → files v'.disk i ≠ none) : Tree E v' where
  aligned := fun i n hn hd => h.aligned i n (hdir i n hn hd) hd
  range := fun i n j hn hd => h.range i n j (hdir i n hn hd) hd
  alloc := h.alloc.imp_right fun ⟨h1,h2⟩ => ⟨hq h1,fun i n j hn hd hj hlive =>
    hfiles h1 _ (h2 i n j (hdir i n hn hd) hd hj hlive)⟩

theorem Slots.edit (h : Slots E m v) (he : Edit A v k i n v') : Slots E m v' := by
  have hused : usedSlots v' = usedSlots v := by
    refine filter_congr fun j _ => ?_
    rw [(he.slot j).2.1]
  unfold Slots
  rwa [hused]

theorem Quiet.edit (hq : Quiet v) (he : Edit A v k i n v') (hc : Core v) (hk : Holds v k i) :
    Quiet v' := by
  intro a m hm h0
  rw [he.refs]
  by_cases ha : a = i
  · rw [ha]
    exact hc.refs_pos.mpr ⟨k,hk⟩
  · rw [he.node_ne ha] at hm
    exact hq a m hm h0

theorem Edit.files_ne_none (he : Edit A v k i n v') {a : ℕ} (h : Xv6.files v.disk a ≠ none) :
    Xv6.files v'.disk a ≠ none := by
  by_cases ha : a = i
  · rw [ha,he.node_self]
    exact Option.some_ne_none n
  · rwa [he.node_ne ha]

end Keep
end Xv6
