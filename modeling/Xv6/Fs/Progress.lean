import Xv6.Fs.IallocSpec
import Xv6.Fs.NamexSpec

/-! # How far an operation has come

What an operation of the file system has done to the files, the references and the log,
whatever it has still to do. -/
namespace Xv6
open Conc Function Finset

/-- The operation that started in `v₀` has come to `v`.  It has made the files `fs`, except
that inodes without links and references may have been freed since, holds `δ` references
more than at the start, and has logged blocks of `A`.  What is said about the files and
the log is for a start where all inodes without links are in use. -/
structure Progress (v₀ v : View) (fs : ℕ → Option Node) (δ : ℕ → ℤ) (A : Finset ℕ) : Prop where
  core : Core v
  span : ∃ B, Frame B v₀ v ∧ (Quiet v₀ → B ⊆ A)
  refs : ∀ a, refs v a = refs v₀ a + δ a
  keep : ∀ k i, Holds v₀ k i → Holds v k i
  valid : ∀ k i, Holds v₀ k i → (v₀.inode k).valid = true → (v.inode k).valid = true
  files : Quiet v₀ → ∀ a, files v.disk a = fs a ∨ (files v.disk a = none ∧ Xv6.refs v a = 0 ∧
    ∃ n, fs a = some n ∧ n.nlink = 0)
  quiet : Quiet v₀ → Quiet v
  orphans : Quiet v₀ → OrphansRead v₀ → ∀ k a n, Holds v k a → Xv6.files v₀.disk a ≠ none →
    Xv6.files v.disk a = some n → n.nlink = 0 → (v.inode k).valid = true

namespace Progress
variable {E : Stops} {v₀ v v' : View} {fs : ℕ → Option Node} {δ δ' : ℕ → ℤ}
  {A B : Finset ℕ} {k i a m : ℕ} {n : Node}

section
variable (h : Progress v₀ v fs δ A)
include h

theorem frame : ∃ B, Frame B v₀ v := by
  obtain ⟨B,hB,-⟩ := h.span
  exact ⟨B,hB⟩

theorem mono (hAB : A ⊆ B) : Progress v₀ v fs δ B := by
  obtain ⟨C,hC,hsub⟩ := h.span
  exact ⟨h.core,⟨C,hC,fun hq => (hsub hq).trans hAB⟩,h.refs,h.keep,h.valid,h.files,h.quiet,
    h.orphans⟩

/-- Nothing has been freed as long as all inodes without links are in use. -/
theorem exact (hq : Quiet v₀)
    (hfs : ∀ a n, fs a = some n → n.nlink = 0 → 0 < Xv6.refs v a) : Xv6.files v.disk = fs := by
  funext a
  rcases h.files hq a with h1 | ⟨-,h2,n,h3,h4⟩
  · exact h1
  · have := hfs a n h3 h4
    omega

/-- A file that is in use is as the operation has made it. -/
theorem node (hq : Quiet v₀) (hk : Holds v k a) : Xv6.files v.disk a = fs a := by
  rcases h.files hq a with h1 | ⟨-,h2,-⟩
  · exact h1
  · have := h.core.refs_pos.mpr ⟨k,hk⟩
    omega

end

theorem of_walk (hc : Core v₀) (h : Walk v₀ v δ) (hδ : ∀ i, 0 ≤ δ i) :
    Progress v₀ v (Xv6.files v₀.disk) δ ∅ where
  core := h.core
  span := by
    by_cases hq : Quiet v₀
    · refine ⟨∅,?_,fun _ => subset_rfl⟩
      rw [h.quiet hq]
      exact Frame.inode hc.ready.log _
    · exact ⟨metaBlocks,h.frame,fun hc => absurd hc hq⟩
  refs := h.refs
  keep := h.keep
  valid := h.valid
  files := by
    intro hq a
    left
    rw [h.quiet hq]
  quiet := h.quiet_of hδ
  orphans := by
    intro hq hz k a n hk _ hn h0
    rw [h.quiet hq] at hn
    obtain ⟨j,hj⟩ := hc.refs_pos.mp (hq a n hn h0)
    obtain rfl := h.core.uniq j k a (h.keep j a hj) hk
    exact h.valid j a hj (hz j a n hj hn h0)

section
variable (h : Progress v₀ v fs δ A)
include h

theorem budget (hlog : Quiet v₀ ∨ ∀ e, E (.fail (.log e)))
    (hb : Budget E (m + A.card) v₀) : Budget E m v := by
  refine hlog.elim (fun hq => ?_) .inl
  obtain ⟨B,hB,hsub⟩ := h.span
  exact hb.frame hB (card_le_card (hsub hq))

/-- More references are taken while nothing has been freed. -/
theorem walk (hw : Walk v v' δ') (hδ : ∀ i, 0 ≤ δ' i)
    (hex : Quiet v₀ → Xv6.files v.disk = fs) : Progress v₀ v' fs (δ + δ') A where
  core := hw.core
  span := by
    obtain ⟨B,hB,hsub⟩ := h.span
    by_cases hq : Quiet v₀
    · refine ⟨B,?_,hsub⟩
      rw [hw.quiet (h.quiet hq)]
      exact hB.trans (Frame.inode h.core.ready.log _)
    · exact ⟨B ∪ metaBlocks,(hB.mono subset_union_left).trans
        (hw.frame.mono subset_union_right),fun hc => absurd hc hq⟩
  refs := by
    intro a
    rw [hw.refs,h.refs,Pi.add_apply,add_assoc]
  keep := fun k i hk => hw.keep k i (h.keep k i hk)
  valid := fun k i hk hv => hw.valid k i (h.keep k i hk) (h.valid k i hk hv)
  files := by
    intro hq a
    left
    rw [← hex hq,hw.quiet (h.quiet hq)]
  quiet := fun hq => hw.quiet_of hδ (h.quiet hq)
  orphans := by
    intro hq hz k a n hk ha hn h0
    rw [hw.quiet (h.quiet hq)] at hn
    obtain ⟨j,hj⟩ := h.core.refs_pos.mp (h.quiet hq a n hn h0)
    obtain rfl := hw.core.uniq j k a (hw.keep j a hj) hk
    exact hw.valid j a hj (h.orphans hq hz j a n hj ha hn h0)

theorem load (hw : Walk v v' 0) (hv : v' = { v with inode := v'.inode }) :
    Progress v₀ v' fs δ A where
  core := hw.core
  span := by
    obtain ⟨B,hB,hsub⟩ := h.span
    refine ⟨B,?_,hsub⟩
    rw [hv]
    exact hB.trans (Frame.inode h.core.ready.log _)
  refs := by
    intro a
    rw [hw.refs,h.refs,Pi.zero_apply,add_zero]
  keep := fun k i hk => hw.keep k i (h.keep k i hk)
  valid := fun k i hk hv => hw.valid k i (h.keep k i hk) (h.valid k i hk hv)
  files := by
    intro hq a
    rw [hw.refs,Pi.zero_apply,add_zero,hv]
    exact h.files hq a
  quiet := fun hq => hw.quiet_of (fun _ => le_rfl) (h.quiet hq)
  orphans := by
    intro hq hz k a n hk ha hn h0
    rw [hv] at hn
    obtain ⟨j,hj⟩ := h.core.refs_pos.mp (h.quiet hq a n hn h0)
    obtain rfl := hw.core.uniq j k a (hw.keep j a hj) hk
    exact hw.valid j a hj (h.orphans hq hz j a n hj ha hn h0)

/-- The contents or the link count of an inode that is in use are changed. -/
theorem edit {n0 : Node} (he : Edit B v k i n v') (hl : Fs.Loaded v k i n0) :
    Progress v₀ v' (update fs i (some n)) δ (A ∪ B) where
  core := he.core h.core hl.holds
  span := by
    obtain ⟨C,hC,hsub⟩ := h.span
    refine ⟨C ∪ B,(hC.mono subset_union_left).trans
      (he.frame.mono subset_union_right),fun hq => ?_⟩
    exact union_subset_union (hsub hq) subset_rfl
  refs := by
    intro a
    rw [he.refs,h.refs]
  keep := fun k i hk => he.holds_iff.mpr (h.keep k i hk)
  valid := by
    intro j b hj hv
    rw [(he.slot j).2.2]
    exact h.valid j b hj hv
  files := by
    intro hq a
    by_cases ha : a = i
    · subst ha
      left
      rw [he.node_self,Function.update_self]
    · rw [he.node_ne ha,update_of_ne ha,he.refs]
      exact h.files hq a
  quiet := by
    intro hq a m hm h0
    rw [he.refs]
    by_cases ha : a = i
    · rw [ha]
      exact h.core.refs_pos.mpr ⟨k,hl.holds⟩
    · rw [he.node_ne ha] at hm
      exact h.quiet hq a m hm h0
  orphans := by
    intro hq hz j a m hj hmem hm h0
    rw [(he.slot j).2.2]
    have hj' := he.holds_iff.mp hj
    by_cases ha : a = i
    · subst ha
      rw [h.core.uniq j k a hj' hl.holds]
      exact hl.valid
    · rw [he.node_ne ha] at hm
      exact h.orphans hq hz j a m hj' hmem hm h0

theorem ialloc {type : Int16} {ip : Inode}
    (hex : Quiet v₀ → Xv6.files v.disk = fs) (hfree : Quiet v₀ → Xv6.files v₀.disk i = none)
    (ha : Alloced v type i v') (hg : Fs.Got v' i k ip) :
    Progress v₀ (v'.setSlot k ip) (update fs i (some (blankNode type))) (δ + one i)
      (A ∪ {IBLOCK i Mkfs.sb}) := by
  have hw := hg.walk (ha.core h.core) ha.lt
  have hfiles : Quiet v₀ → Xv6.files (v'.setSlot k ip).disk
      = update fs i (some (blankNode type)) := fun hq => by
    rw [← hex hq]
    exact ha.files
  refine ⟨hw.core,?_,?_,?_,?_,?_,?_,?_⟩
  · obtain ⟨C,hC,hsub⟩ := h.span
    refine ⟨C ∪ {IBLOCK i Mkfs.sb},((hC.mono subset_union_left).trans
      (ha.frame.mono subset_union_right)).trans (Frame.inode ha.frame.log _),fun hq => ?_⟩
    exact union_subset_union (hsub hq) subset_rfl
  · intro a
    rw [hw.refs,ha.refs,h.refs,Pi.add_apply,add_assoc]
  · exact fun j b hj => hw.keep j b (ha.holds_iff.mpr (h.keep j b hj))
  · intro j b hj hv
    refine hw.valid j b (ha.holds_iff.mpr (h.keep j b hj)) ?_
    rw [ha.inode]
    exact h.valid j b hj hv
  · intro hq a
    left
    rw [hfiles hq]
  · intro hq a m hm h0
    rw [hfiles hq] at hm
    rw [hw.refs,ha.refs]
    have := h.core.refs_nonneg a
    by_cases hai : a = i
    · rw [one,if_pos hai]
      omega
    · rw [update_of_ne hai,← hex hq] at hm
      rw [one,if_neg hai,add_zero]
      exact h.quiet hq a m hm h0
  · intro hq hz j a m hj hmem hm h0
    have hai : a ≠ i := by
      rintro rfl
      exact hmem (hfree hq)
    rw [hfiles hq,update_of_ne hai,← hex hq] at hm
    obtain ⟨l,hl⟩ := h.core.refs_pos.mp (h.quiet hq a m hm h0)
    have hl' := ha.holds_iff.mpr hl
    obtain rfl := hw.core.uniq l j a (hw.keep l a hl') hj
    refine hw.valid l a hl' ?_
    rw [ha.inode]
    exact h.orphans hq hz l a m hl hmem hm h0

end

/-- A reference that the operation has taken is given back. -/
theorem put (h : Progress v₀ v fs (δ + one i) A) (hc0 : Core v₀) (hδ : ∀ i, 0 ≤ δ i)
    (hk : Holds v k i) (hw : Walk (v.unref k) v' 0) (hf : Frame B v v')
    (hs : Fs.Settled v' i) : Progress v₀ v' fs δ (A ∪ B) := by
  have href : ∀ a, Xv6.refs v' a = Xv6.refs v₀ a + δ a := by
    intro a
    rw [hw.refs,refs_unref hk,h.refs,Pi.add_apply,Pi.zero_apply]
    ring
  have hold : ∀ j b, Holds v₀ j b → Holds (v.unref k) j b := by
    intro j b hj
    refine holds_unref hk (h.keep j b hj) fun hbi => ?_
    subst hbi
    have h1 := h.refs b
    have h2 := hc0.refs_pos.mpr ⟨j,hj⟩
    have h3 := hδ b
    rw [h.core.refs_eq hk,Pi.add_apply,one,if_pos rfl] at h1
    omega
  have hunref : ∀ j, (v.inode j).valid = true → ((v.unref k).inode j).valid = true :=
    fun j hv => (Fs.unref_valid v j k).trans hv
  refine ⟨hw.core,?_,href,fun j b hj => hw.keep j b (hold j b hj),
    fun j b hj hv => hw.valid j b (hold j b hj) (hunref j (h.valid j b hj hv)),?_,?_,?_⟩
  · obtain ⟨C,hC,hsub⟩ := h.span
    refine ⟨C ∪ B,(hC.mono subset_union_left).trans
      (hf.mono subset_union_right),fun hq => ?_⟩
    exact union_subset_union (hsub hq) subset_rfl
  · intro hq a
    have hle : Xv6.refs v' a ≤ Xv6.refs v a := by
      rw [hw.refs,refs_unref hk,Pi.zero_apply,add_zero]
      have := one_nonneg i a
      omega
    have hnn := hw.core.refs_nonneg a
    rcases h.files hq a with h1 | ⟨h1,h2,h3⟩
    · rcases hw.files a with h4 | ⟨h4,h5,n,h6,h7⟩
      · exact .inl (h4.trans h1)
      · refine .inr ⟨h4,?_,n,h1 ▸ h6,h7⟩
        rw [hw.refs,h5,Pi.zero_apply,add_zero]
    · refine .inr ⟨?_,by omega,h3⟩
      rcases hw.files a with h4 | ⟨h4,-⟩
      · exact h4.trans h1
      · exact h4
  · intro hq a n hn h0
    by_cases ha : a = i
    · subst ha
      exact hs n hn h0
    · have hn' : Xv6.files v.disk a = some n := hw.files_some hn
      have := h.quiet hq a n hn' h0
      rw [hw.refs,refs_unref hk,one,if_neg ha,Pi.zero_apply]
      omega
  · intro hq hz j a n hj hmem hn h0
    have hpos := hw.core.refs_pos.mpr ⟨j,hj⟩
    rw [hw.refs,Pi.zero_apply,add_zero] at hpos
    obtain ⟨l,hl⟩ := (h.core.unref hk).refs_pos.mp hpos
    obtain rfl := hw.core.uniq l j a (hw.keep l a hl) hj
    have hlv := (Walk.unref h.core hk).keep l a hl
    exact hw.valid l a hl (hunref l (h.orphans hq hz l a n hlv hmem (hw.files_some hn) h0))

end Progress

namespace Fs
section Put
variable {p : ℕ} {E : Stops} {v₀ v : View} {fs : ℕ → Option Node} {δ : ℕ → ℤ}
  {A S : Finset ℕ} {k i : ℕ} {Q : Post Unit}

variable (h : Progress v₀ v fs (δ + one i) A)
include h

theorem Safe.iput_progress (hc0 : Core v₀)
    (hδ : ∀ i, 0 ≤ δ i) (hk : Holds v k i) (hv : (v.inode k).valid = true) (hS : k ∉ S)
    (hlog : Budget E 2 v) (hq : ∀ v', Progress v₀ v' fs δ (A ∪ {58, IBLOCK i Mkfs.sb}) →
      (∀ j a n, Loaded v j a n → a ≠ i → Loaded v' j a n) → Q () v' (held p S)) :
    Safe p E (Fs.iput k) Q v (held p S) := by
  have hw : Walk (v.unref k) v (0 + one i) := by
    rw [zero_add]
    exact Walk.unref h.core hk
  refine iput_walk hw (h.core.unref hk) (fun _ => le_rfl) hk hS (.inr hlog)
    fun v' hw' hf hs => hq v' (h.put hc0 hδ hk hw' hf (hs hv)) fun j a n hl ha => ?_
  have hj : Holds (v.unref k) j a := holds_unref hk hl.holds fun hc => absurd hc ha
  have hjk : j ≠ k := by
    rintro rfl
    exact ha (by rw [← hl.holds.inum,hk.inum])
  refine ⟨hw'.keep j a hj,hw'.valid j a hj ?_,?_⟩
  · rw [View.unref,setSlot_ne hjk]
    exact hl.valid
  · -- an inode that is in use is not freed
    rcases hw'.files a with h1 | ⟨-,h1,-⟩
    · exact h1.trans hl.node
    · have := (h.core.unref hk).refs_pos.mpr ⟨j,hj⟩
      omega

theorem Safe.iunlockput_progress (hc0 : Core v₀)
    (hδ : ∀ i, 0 ≤ δ i) (hk : Holds v k i) (hv : (v.inode k).valid = true) (hS : k ∈ S)
    (hlog : Budget E 2 v) (hq : ∀ v', Progress v₀ v' fs δ (A ∪ {58, IBLOCK i Mkfs.sb}) →
      (∀ j a n, Loaded v j a n → a ≠ i → Loaded v' j a n) → Q () v' (held p (S.erase k))) :
    Safe p E (Fs.iunlockput k) Q v (held p S) := by
  refine bind (iunlock (held_mem hS) hk.ref ?_)
  rw [held_erase]
  exact iput_progress h hc0 hδ hk hv (notMem_erase k S) hlog hq

end Put
end Fs
end Xv6
