import Xv6.Fs.DirSpec
import Xv6.Fs.Paths

/-! # What `namex` does -/
namespace Xv6
open Conc
open Function (update)
open Finset

section Slots
variable {E : Stops} {v v' : View} {δ : ℕ → ℤ} {m i : ℕ}

def usedSlots (v : View) : Finset ℕ :=
  (Finset.range NINODE).filter fun k => 0 < (v.inode k).ref

/-- There are `m` slots that are not in use, or `E` allows for a full cache. -/
def Slots (E : Stop Lock Panic → Prop) (m : ℕ) (v : View) : Prop :=
  E (.fail .igetNoInodes) ∨ (usedSlots v).card + m ≤ NINODE

theorem mem_usedSlots {k : ℕ} : k ∈ usedSlots v ↔ Holds v k (v.inode k).inum := by
  rw [usedSlots,mem_filter,mem_range]
  exact ⟨fun h => ⟨h.1,h.2,rfl⟩,fun h => ⟨h.slot,h.ref⟩⟩

theorem Slots.mono {l : ℕ} (h : Slots E m v) (hl : l ≤ m) : Slots E l v :=
  h.imp_right fun h => by omega

theorem Slots.not_full (h : Slots E m v) (hm : 0 < m) (hc : Core v) (hf : Fs.CacheFull v i) :
    E (.fail .igetNoInodes) := by
  refine h.elim id fun h => ?_
  have hall : usedSlots v = Finset.range NINODE := by
    refine filter_true_of_mem fun k hk => ?_
    have h1 := hf.1 k (mem_range.mp hk)
    have h2 := hc.ref k (mem_range.mp hk)
    omega
  rw [hall,card_range] at h
  omega

/-- A slot that a walk has taken is one for an inode to which there are new references. -/
theorem card_usedSlots (hc : Core v) (h : Walk v v' δ) {T : Finset ℕ}
    (hT : ∀ i, 0 < δ i → i ∈ T) : (usedSlots v').card ≤ (usedSlots v).card + T.card := by
  have hnew : ((usedSlots v').filter (· ∉ usedSlots v)).card ≤ T.card := by
    refine card_le_card_of_injOn (fun k => (v'.inode k).inum) ?_ ?_
    · intro k hk
      rw [mem_coe,mem_filter,mem_usedSlots] at hk
      refine hT _ ?_
      have hpos := h.core.refs_pos.mpr ⟨k,hk.1⟩
      have hzero : ¬ 0 < refs v (v'.inode k).inum := by
        rw [hc.refs_pos]
        rintro ⟨j,hj⟩
        have := h.core.uniq j k _ (h.keep j _ hj) hk.1
        subst this
        refine hk.2 (mem_usedSlots.mpr ?_)
        rw [hj.inum]
        exact hj
      have := h.refs (v'.inode k).inum
      have := hc.refs_nonneg (v'.inode k).inum
      dsimp only
      omega
    · intro k hk l hl hkl
      rw [mem_coe,mem_filter,mem_usedSlots] at hk hl
      dsimp only at hkl
      exact h.core.uniq k l _ hk.1 (hkl ▸ hl.1)
  have hold : ((usedSlots v').filter (· ∈ usedSlots v)).card ≤ (usedSlots v).card :=
    card_le_card fun k hk => (mem_filter.mp hk).2
  have := card_filter_add_card_filter_not (s := usedSlots v') (· ∈ usedSlots v)
  omega

theorem Slots.walk_one (h : Slots E (m + 1) v) (hc : Core v) (hw : Walk v v' (one i)) :
    Slots E m v' := by
  refine h.imp_right fun h => ?_
  have := card_usedSlots hc hw (T := {i}) fun a ha => by
    by_contra hne
    rw [one,if_neg (by simpa using hne)] at ha
    omega
  rw [card_singleton] at this
  omega

end Slots

theorem one_nonneg (i a : ℕ) : 0 ≤ one i a := by
  unfold one
  split <;> omega

section Tree
variable {E : Stops} {v v' : View} {δ : ℕ → ℤ}

/-- What is needed to walk through the directories, unless `E` allows for the failure. -/
structure Tree (E : Stop Lock Panic → Prop) (v : View) : Prop where
  aligned : ∀ i n, files v.disk i = some n → n.type = T_DIR → n.size % Dirent.sizeof ≠ 0 →
    E (.fail .dirlookupRead)
  range : ∀ i n j, files v.disk i = some n → n.type = T_DIR → j < n.count →
    (n.entry j).inum ≠ 0 → (n.entry j).inum.toNat < Mkfs.NINODES
  /-- the entries stand for inodes that are not free, and none is freed on the way -/
  alloc : E (.fail .ilockNoType) ∨ (Quiet v ∧ ∀ i n j, files v.disk i = some n → n.type = T_DIR →
    j < n.count → (n.entry j).inum ≠ 0 → files v.disk (n.entry j).inum.toNat ≠ none)

theorem Walk.files_some (h : Walk v v' δ) {i : ℕ} {n : Node} (hn : Xv6.files v'.disk i = some n) :
    Xv6.files v.disk i = some n := by
  rcases h.files i with h1 | ⟨h1,-⟩
  · rwa [h1] at hn
  · rw [h1] at hn
    cases hn

end Tree

namespace Fs
section Namex
variable {p : ℕ} {E : Stops} {v₀ v : View} {k i : ℕ} {np : Bool}
  {path : List UInt8} {Q : Post (Option (ℕ × Name))}

/-- What `namex` leaves when it returns `r`: a reference to the inode, if there is one, and
otherwise the references as they were. -/
structure Resolved (v₀ : View) (np : Bool) (i : ℕ) (names : List Name) (r : Option (ℕ × Name))
    (v : View) : Prop where
  fail : r = none → Walk v₀ v 0 ∧ (Quiet v₀ → walkPath (files v₀.disk) np i names = none)
  found : ∀ k name, r = some (k,name) → ∃ a, Walk v₀ v (one a) ∧ Holds v k a ∧
    (np = true → ∃ n, Loaded v k a n ∧ n.type = T_DIR) ∧
    (Quiet v₀ → walkPath (files v₀.disk) np i names = some (a,name))

theorem Resolved.of_none {names : List Name} (h : Walk v₀ v 0)
    (hr : Quiet v₀ → walkPath (files v₀.disk) np i names = none) :
    Resolved v₀ np i names none v :=
  ⟨fun _ => ⟨h,hr⟩,nofun⟩

theorem Resolved.of_some {names : List Name} {a : ℕ} {name : Name} (h : Walk v₀ v (one a))
    (hk : Holds v k a) (hd : np = true → ∃ n, Loaded v k a n ∧ n.type = T_DIR)
    (hr : Quiet v₀ → walkPath (files v₀.disk) np i names = some (a,name)) :
    Resolved v₀ np i names (some (k,name)) v := by
  refine ⟨nofun,?_⟩
  rintro _ _ ⟨rfl,rfl⟩
  exact ⟨a,h,hk,hd,hr⟩

theorem Resolved.cons {names : List Name} {a : ℕ} {r : Option (ℕ × Name)}
    (h : Resolved v₀ np a names r v) {name : Name}
    (hstep : Quiet v₀ → walkPath (files v₀.disk) np i (name :: names)
      = walkPath (files v₀.disk) np a names) : Resolved v₀ np i (name :: names) r v := by
  refine ⟨fun hr => ?_,fun l nm hr => ?_⟩
  · obtain ⟨h1,h2⟩ := h.fail hr
    exact ⟨h1,fun hq => (hstep hq).trans (h2 hq)⟩
  · obtain ⟨b,h1,h2,h3,h4⟩ := h.found l nm hr
    exact ⟨b,h1,h2,h3,fun hq => (hstep hq).trans (h4 hq)⟩

/-- A reference is given back while another one, to inode `a`, has been taken: the rest of
the state is that of a walk with the other reference only. -/
theorem Safe.iunlockput_other {Q : Post Unit} {S : Finset ℕ} {k' a : ℕ}
    (h : Walk v₀ v (one a + one i)) (hc0 : Core v₀) (hk : Holds v k i) (hk' : Holds v k' a)
    (hS : k ∈ S) (hlog : Quiet v₀ ∨ ∀ e, E (.fail (.log e)))
    (hq : ∀ v', Walk v₀ v' (one a) → Holds v' k' a → Q () v' (held p (S.erase k))) :
    Safe p E (Fs.iunlockput k) Q v (held p S) := by
  have hput := h.put hc0 (one_nonneg a) hk
  -- if both references are to one inode, one of them is left
  have hleft : Holds (v.unref k) k' a := by
    refine holds_unref hk hk' fun ha => ?_
    subst ha
    have h1 := h.refs a
    have h2 := hc0.refs_nonneg a
    rw [h.core.refs_eq hk,Pi.add_apply,one,if_pos rfl] at h1
    omega
  have hlog' : Quiet (v.unref k) ∨ Budget E 2 v :=
    hlog.imp (hput.quiet_of (one_nonneg a)) .inl
  have hw : Walk (v.unref k) v (0 + one i) := by
    rw [zero_add]
    exact Walk.unref h.core hk
  refine iunlockput_walk hw hput.core (fun _ => le_rfl) hk hS hlog' fun v' hw' _ _ => ?_
  refine hq v' ?_ (hw'.keep k' a hleft)
  have := hput.trans hw' hc0 (one_nonneg a)
  rwa [add_zero] at this

/-- The loop of `namex`: the reference to the inode that has been reached is the only one
that was taken. -/
theorem Safe.namexFrom {fuel : ℕ} (hc0 : Core v₀) (ht : Tree E v₀) (hs : Slots E 2 v₀)
    (hlog : Quiet v₀ ∨ ∀ e, E (.fail (.log e))) (hw : Walk v₀ v (one i)) (hk : Holds v k i)
    (hal : E (.fail .ilockNoType) ∨ files v₀.disk i ≠ none) (hfuel : path.length < fuel)
    (hq : ∀ r v', Resolved v₀ np i (components path) r v' → Q r v' (held p ∅)) :
    Safe p E (Fs.namexFrom p np fuel k path) Q v (held p ∅) := by
  induction fuel generalizing v k i path with
  | zero => omega
  | succ fuel ih =>
    unfold Fs.namexFrom
    cases hskip : skipelem path with
    | none =>
      have hnames := skipelem_none hskip
      cases np with
      | false =>
        refine pure (hq _ v (.of_some hw hk nofun fun _ => ?_))
        rw [hnames]
        rfl
      | true =>
        rw [← zero_add (one i)] at hw
        refine bind (iput_walk hw hc0 (fun _ => le_rfl) hk (notMem_empty k)
          (hlog.imp_right .inl) fun v' hw' _ _ => pure (hq none v' (.of_none hw' fun _ => ?_)))
        rw [hnames]
        rfl
    | some nr =>
      obtain ⟨name,rest⟩ := nr
      obtain ⟨hnames,hlt,hlast⟩ := skipelem_some hskip
      have hdisk : Quiet v₀ → v.disk = v₀.disk := fun hquiet => by rw [hw.quiet hquiet]
      refine bind (ilock_core hw.core hk (notMem_empty k) (fun h0 => ?_)
        fun v1 n hw1 hv1 hl1 => ?_)
      · -- the inode is not free
        refine hal.elim id fun hal => ht.alloc.elim id fun hq' => ?_
        rw [← hdisk hq'.1,ne_eq,files_eq_none] at hal
        exact absurd h0 hal
      rw [show insert k (∅ : Finset ℕ) = {k} from rfl]
      have hw1' : Walk v₀ v1 (one i) := by
        have := hw.trans hw1 hc0 (one_nonneg i)
        rwa [add_zero] at this
      have ho1 := Opened.of_loaded hl1 hw1'.core
      have hnode0 : files v₀.disk i = some n := hw1'.files_some hl1.node
      refine inode_seq ?_
      rw [ho1.type]
      -- the inode is given back and nothing is found
      have hfail : (Quiet v₀ → walkPath (files v₀.disk) np i (components path) = none) →
          Safe p E (do Fs.iunlockput k; return none) Q v1 (held p {k}) := by
        intro hnone
        exact bind (iunlockput_last hw1' hc0 hl1.holds (hlog.imp_right .inl)
          fun v' hw' _ _ => pure (hq none v' (.of_none hw' hnone)))
      refine ite (fun hnd => hfail fun _ => ?_) fun hd => ?_
      · rw [hnames,walkPath,hnode0]
        exact if_pos hnd
      rw [not_not] at hd
      refine ite (fun hpar => ?_) fun hpar => ?_
      · -- the parent of the last element
        simp only [Bool.and_eq_true,beq_iff_eq] at hpar
        obtain ⟨rfl,hrest⟩ := hpar
        refine bind (iunlock_last hl1.holds.ref ?_)
        refine pure (hq _ v1 (.of_some hw1' hl1.holds (fun _ => ⟨n,hl1,hd⟩) fun _ => ?_))
        rw [hnames,walkPath,hnode0]
        dsimp only
        rw [if_neg (not_not.mpr hd),if_pos ⟨rfl,hlast.mp hrest⟩]
      have hwalk : walkPath (files v₀.disk) np i (name :: components rest)
          = (n.table.get (nameKey (cstr name))).bind
            fun a => walkPath (files v₀.disk) np a (components rest) := by
        rw [walkPath,hnode0]
        dsimp only
        rw [if_neg (not_not.mpr hd),if_neg]
        simpa only [Bool.and_eq_true,beq_iff_eq,hlast] using hpar
      have hslots := hs.walk_one hc0 hw1'
      refine bind (dirlookup ho1 (mem_singleton_self k) (fun hc => absurd hd hc)
        (ht.aligned i n hnode0 hd) (fun j _ => hslots.not_full Nat.one_pos hw1'.core)
        (fun _ hnone => ?_) fun _ j k' ip hj hg => ?_)
      · refine hfail fun _ => ?_
        rw [hnames,hwalk,SlotTable.get_eq_none.mpr hnone]
        rfl
      obtain ⟨hjlt,⟨hlive,-⟩,-⟩ := Node.lookup_eq_some.mp hj
      obtain ⟨-,hget⟩ := Node.get_of_lookup hj
      have hrange := ht.range i n j hnode0 hd hjlt hlive
      have hw2 := hg.walk hw1'.core hrange
      have hw2' := hw1'.trans hw2 hc0 (one_nonneg i)
      rw [add_comm] at hw2'
      refine bind (iunlockput_other hw2' hc0 (hw2.keep k i hl1.holds) hg.holds
        (mem_singleton_self k) hlog fun v3 hw3 hk3 => ?_)
      rw [erase_singleton]
      refine ih hw3 hk3 (ht.alloc.imp_right fun hq' => hq'.2 i n j hnode0 hd hjlt hlive)
        (by omega) fun r v' hr => hq r v' ?_
      rw [hnames]
      refine hr.cons fun _ => ?_
      rw [hwalk,hget]
      rfl

/-- The inode at which the resolution of a path starts. -/
def StartsAt (v : View) (p : ℕ) (path : List UInt8) (i : ℕ) : Prop :=
  if path.head? = some 47 then i = ROOTINO else Holds v ((v.proc p).cwd.getD 0) i

structure HasStart (E : Stop Lock Panic → Prop) (v : View) (p : ℕ) (path : List UInt8) : Prop where
  start : ∃ i, StartsAt v p path i
  alloc : ∀ i, StartsAt v p path i → E (.fail .ilockNoType) ∨ files v.disk i ≠ none

theorem Safe.namex (hc : Core v) (ht : Tree E v) (hs : Slots E 2 v)
    (hlog : Quiet v ∨ ∀ e, E (.fail (.log e))) (hstart : HasStart E v p path)
    (hq : ∀ i r v', StartsAt v p path i → Resolved v np i (components path) r v' →
      Q r v' (held p ∅)) :
    Safe p E (Fs.namex p path np) Q v (held p ∅) := by
  unfold Fs.namex Fs.pathStart
  obtain ⟨i,hi⟩ := hstart.start
  have hal := hstart.alloc i hi
  have hi' := hi
  unfold StartsAt at hi'
  by_cases hroot : path.head? = some 47
  · rw [if_pos hroot] at hi' ⊢
    subst hi'
    refine bind (iget hc (by decide) (hs.not_full (by decide) hc)
      fun k v' hw hk _ _ => ?_)
    exact namexFrom hc ht hs hlog hw hk hal (Nat.lt_succ_self _) fun r v'' => hq _ r v'' hi
  · rw [if_neg hroot] at hi' ⊢
    refine bind (proc_seq (idup hc hi' fun v' hw _ => ?_))
    exact namexFrom hc ht hs hlog hw (hw.keep _ i hi') hal (Nat.lt_succ_self _)
      fun r v'' => hq _ r v'' hi

end Namex
end Fs
end Xv6
