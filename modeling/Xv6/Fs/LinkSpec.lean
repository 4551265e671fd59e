import Xv6.Fs.CreateSpec
import Xv6.Fs.Rest

/-! # What `link` and `unlink` do -/
namespace Xv6
open Conc Function Finset

namespace Fs
section Start
variable {p : ℕ} {E : Stops} {v₀ v : View} {path : List UInt8} {i j : ℕ}

theorem StartsAt.unique (h : StartsAt v p path i) (h' : StartsAt v p path j) : i = j := by
  unfold StartsAt at h h'
  by_cases hroot : path.head? = some 47
  · rw [if_pos hroot] at h h'
    rw [h,h']
  · rw [if_neg hroot] at h h'
    rw [← h.inum,h'.inum]

theorem StartsAt.progress {fs : ℕ → Option Node} {δ : ℕ → ℤ} {A : Finset ℕ}
    (hp : Progress v₀ v fs δ A) (h : StartsAt v₀ p path i) : StartsAt v p path i := by
  obtain ⟨B,hB⟩ := hp.frame
  unfold StartsAt at *
  rw [hB.proc]
  by_cases hroot : path.head? = some 47
  · rw [if_pos hroot] at *
    exact h
  · rw [if_neg hroot] at *
    exact hp.keep _ i h

/-- The place where a path starts does not move during an operation. -/
theorem StartsAt.of_progress {fs : ℕ → Option Node} {δ : ℕ → ℤ} {A : Finset ℕ}
    (hp : Progress v₀ v fs δ A) (h0 : StartsAt v₀ p path j) (h : StartsAt v p path i) :
    StartsAt v₀ p path i ∧ j = i := by
  obtain rfl := (StartsAt.progress hp h0).unique h
  exact ⟨h0,rfl⟩

theorem Safe.namei_lock {α : Type} {Q : Post α}
    {f : Option ℕ → Fs α} {g : ℕ → Fs α} (hs : Starts E v₀) (hstart : HasStart E v₀ p path)
    (hf : ∀ k, f (some k) = Fs.ilock k >>= fun _ => g k)
    (hnone : ∀ s v', Walk v₀ v' 0 → StartsAt v₀ p path s →
      (Quiet v₀ → walkPath (files v₀.disk) false s (components path) = none) →
      Safe p E (f none) Q v' (held p ∅))
    (hsome : ∀ k i n s v', Walk v₀ v' (one i) → Loaded v' k i n → StartsAt v₀ p path s →
      (Quiet v₀ → walkPath (files v₀.disk) false s (components path) = some (i,[])) →
      Safe p E (g k) Q v' (held p {k})) :
    Safe p E (Fs.namei p path >>= f) Q v₀ (held p ∅) := by
  unfold Fs.namei
  rw [bind_assoc]
  refine bind (namex hs.core hs.tree (hs.slots.mono (by omega)) hs.log hstart
    fun s r v' hst hr => ?_)
  rw [pure_bind]
  cases r with
  | none => exact hnone s v' (hr.fail rfl).1 hst (hr.fail rfl).2
  | some kn =>
    obtain ⟨i,hw,hk,-,hpath⟩ := hr.found kn.1 kn.2 rfl
    have hpath' : Quiet v₀ →
        walkPath (files v₀.disk) false s (components path) = some (i,[]) := by
      intro hq
      have h1 := hpath hq
      rw [walkPath_false] at h1 ⊢
      obtain ⟨a,h2,h3⟩ := Option.map_eq_some_iff.mp h1
      rw [h2,← (Prod.mk.inj h3).1]
      rfl
    change Safe p E (f (some kn.1)) Q v' (held p ∅)
    rw [hf]
    refine bind (ilock_core hw.core hk (notMem_empty _) (fun h0 => ?_)
      fun v'' n hw' hv' hl => ?_)
    · -- what is named by an entry is not free
      refine hs.tree.alloc.elim id fun hq => (hstart.alloc s hst).elim id fun hs' => ?_
      have hal := walkPath_false_ne_none hs' (fun d n key b hd ht hb => ?_) (hpath' hq.1)
      · have hdisk : v'.disk = v₀.disk := by rw [hw.quiet hq.1]
        rw [← hdisk,ne_eq,files_eq_none] at hal
        exact absurd h0 hal
      · obtain ⟨j,hj,hlive,rfl⟩ := Node.entry_of_get hb
        exact hq.2 d n j hd ht hj hlive
    · have hw'' := hw.trans hw' hs.core (one_nonneg i)
      rw [add_zero] at hw''
      exact hsome kn.1 i n s v'' hw'' hl hst hpath'

end Start
/-- Where `link` makes a name for the inode `i`, which is `n`: in the directory `d`, which
is `nd`. -/
structure LinkedAt (v₀ : View) (p : ℕ) (old new : List UInt8) (i : ℕ) (n : Node) (d : ℕ)
    (name : Name) (nd : Node) : Prop where
  old : Quiet v₀ → ∃ s, StartsAt v₀ p old s ∧
    walkPath (files v₀.disk) false s (components old) = some (i,[])
  new : Quiet v₀ → ∃ s, StartsAt v₀ p new s ∧
    walkPath (files v₀.disk) true s (components new) = some (d,name)
  inode : files v₀.disk i = some n
  notDir : n.type ≠ T_DIR
  node : files v₀.disk d = some nd
  type : nd.type = T_DIR
  free : nd.lookup name = none

def ParentAt (v : View) (p : ℕ) (path : List UInt8) (d : ℕ) (name : Name) : Prop :=
  ∃ s, StartsAt v p path s ∧ walkPath (files v.disk) true s (components path) = some (d,name)

section Undo
variable {p : ℕ} {E : Stops} {v₀ v : View} {k i : ℕ} {n : Node}
  {Q : Post ℤ}

/-- The state between `ip->nlink++` and `ip->nlink--` in a `link` that fails. -/
structure Linking (v₀ v : View) (k i : ℕ) (n : Node) : Prop where
  core : Core v
  frame : ∃ A, Frame A v₀ v
  node : files v₀.disk i = some n
  loaded : Loaded v k i { n with nlink := n.nlink + 1 }
  inodes : inodeAt v.disk = update (inodeAt v₀.disk) i
    { inodeAt v₀.disk i with nlink := (inodeAt v₀.disk i).nlink + 1 }
  blocks : ∀ b, 58 ≤ b → v.disk b = v₀.disk b
  refs : ∀ a, refs v a = refs v₀ a + one i a
  keep : ∀ j a, Holds v₀ j a → Holds v j a
  valid : ∀ j a, Holds v₀ j a → (v₀.inode j).valid = true → (v.inode j).valid = true

/-- The label `bad` of `sys_link`: the link count is as it was. -/
theorem Safe.linkUndo (hc0 : Core v₀) (hq0 : Quiet v₀) (hl : Linking v₀ v k i n)
    (hlog : Budget E 3 v) (hq : ∀ v', Restored v₀ v' → Q (-1) v' (held p ∅)) :
    Safe p E (Fs.linkUndo k) Q v (held p ∅) := by
  refine bind (ilock_loaded hl.core hl.loaded (notMem_empty k) ?_)
  rw [show insert k (∅ : Finset ℕ) = {k} from rfl]
  have ho := Opened.of_loaded hl.loaded hl.core
  refine bind (addLink ho (hlog.mono (by omega)) fun v1 he hd => ?_)
  have hi := ho.inum_lt
  have hc1 := he.core hl.core ho.holds
  have hk1 := (he.opened ho).holds
  have hinodes : inodeAt v1.disk = inodeAt v₀.disk := by
    rw [hd,inodeAt_writeInode hi,hl.inodes,Function.update_self,Function.update_idem,
      Int16.add_assoc,show (1 : Int16) + -1 = 0 from rfl,Int16.add_zero,Function.update_eq_self]
  have hblocks : ∀ b, 58 ≤ b → v1.disk b = v₀.disk b := by
    intro b hb
    rw [hd,writeInode_ne (by have := IBLOCK_lt hi; omega),hl.blocks b hb]
  have hfiles : files v1.disk = files v₀.disk := files_of_blocks hc0.sound.owned hinodes hblocks
  have href : ∀ a, refs (v1.unref k) a = refs v₀ a := by
    intro a
    rw [refs_unref hk1,he.refs,hl.refs]
    omega
  have hquiet : Quiet (v1.unref k) := by
    intro a m hm h0
    rw [href]
    exact hq0 a m (hfiles ▸ hm) h0
  refine bind (iunlockput_last (Walk.unref hc1 hk1) (hc1.unref hk1) hk1 (.inl hquiet)
    fun v' hw _ _ => ?_)
  have hdisk : v'.disk = v1.disk := by
    rw [hw.quiet hquiet]
    rfl
  obtain ⟨A,hA⟩ := hl.frame
  have hframe := (hA.join he.frame).join ((Frame.inode he.frame.log _).trans hw.frame)
  -- the reference that `link` has taken is not the only one
  have hkeep : ∀ j a, Holds v₀ j a → Holds (v1.unref k) j a := by
    intro j a hj
    refine holds_unref hk1 (he.holds_iff.mpr (hl.keep j a hj)) fun ha => ?_
    subst ha
    have h1 := hc1.refs_eq hk1
    have h2 := hc0.refs_pos.mpr ⟨j,hj⟩
    rw [he.refs,hl.refs,one,if_pos rfl] at h1
    omega
  refine pure (hq v' ⟨hw.core,⟨_,hframe⟩,?_,fun b hb => ?_,fun a => ?_,
    fun j a hj => hw.keep j a (hkeep j a hj),fun j a hj hv => hw.valid j a (hkeep j a hj) ?_⟩)
  · rw [hdisk,hinodes]
  · rw [hdisk,hblocks b hb]
  · rw [hw.refs,href,Pi.zero_apply,add_zero]
  · rw [unref_valid,(he.slot j).2.2]
    exact hl.valid j a hj hv

theorem Linking.walk {v' : View} (h : Linking v₀ v k i n) (hw : Walk v v' 0) (hq : Quiet v) :
    Linking v₀ v' k i n := by
  have hd : v'.disk = v.disk := by rw [hw.quiet hq]
  obtain ⟨A,hA⟩ := h.frame
  refine ⟨hw.core,⟨_,hA.join hw.frame⟩,h.node,h.loaded.walk hw hd,?_,fun b hb => ?_,
    fun a => ?_,fun j a hj => hw.keep j a (h.keep j a hj),
    fun j a hj hv => hw.valid j a (h.keep j a hj) (h.valid j a hj hv)⟩
  · rw [hd,h.inodes]
  · rw [hd,h.blocks b hb]
  · rw [hw.refs,h.refs,Pi.zero_apply,add_zero]

end Undo

section Link
variable {p : ℕ} {E : Stops} {v₀ v : View} {k i : ℕ} {n : Node}
  {Q : Post ℤ}

theorem Safe.ilock_blocked {Q : Post Unit} {S : Finset ℕ}
    (hk : Holds v k i) (hS : k ∈ S) (hE : E (.blocked (.inode k) p)) :
    Safe p E (Fs.ilock k) Q v (held p S) := by
  refine inode_seq (bind (panicIf (fun hc => ?_) fun _ => ?_))
  · have hpos := hk.ref
    simp only [decide_eq_true_eq] at hc
    omega
  · exact bind (acquiresleep_blocked (held_mem hS) hE)

theorem Got.walk_drop {a : ℕ} {ip : Inode} (hg : Got v a k ip) (hc : Core v)
    (ha : a < Mkfs.NINODES) : Walk v ((v.setSlot k ip).unref k) 0 := by
  have hw := hg.walk hc ha
  rw [← zero_add (one a)] at hw
  exact hw.put hc (fun _ => le_rfl) hg.holds

theorem linked_blocks (a b x y : ℕ) : {a} ∪ {58, b, x, y} ∪ {58, b} ∪ {58, a}
    ⊆ ({58, a, b, x, y} : Finset ℕ) := by
  intro c hc
  simp only [mem_union,mem_insert,mem_singleton] at hc ⊢
  omega

/-- `link` from the place where the directory has been found: the name is entered, or the
link count is set back. -/
theorem Safe.link_enter {kd d : ℕ} {nd : Node} {name : Name} {v1 : View} (hs : Starts E v₀)
    (hq0 : Quiet v₀) (hl : Linking v₀ v k i n) (hq1 : Quiet v)
    (hp : Progress v₀ v (update (files v₀.disk) i (some { n with nlink := n.nlink + 1 })) (one i)
      {IBLOCK i Mkfs.sb})
    (hw : Walk v v1 (one d)) (hld : Loaded v1 kd d nd) (hd : nd.type = T_DIR) (hne : i ≠ d)
    (hnd : files v₀.disk d = some nd) (hslots : Slots E 1 v1)
    (hself : ∀ j, nd.lookup name = some j → (nd.entry j).inum.toNat = d →
      E (.blocked (.inode kd) p))
    (hmax : nd.lookup name = none →
      MAXFILE * BSIZE < nd.table.free * Dirent.sizeof + Dirent.sizeof → E (.fail .dirlink))
    (hfail : nd.lookup name ≠ none → ∀ v', Restored v₀ v' → Q (-1) v' (held p ∅))
    (hdone : nd.lookup name = none → ∀ x y v', Progress v₀ v' (update (update (files v₀.disk) i
        (some { n with nlink := n.nlink + 1 })) d (some (nd.setEntry nd.table.free
          (Dirent.named name i)))) 0 {58, IBLOCK i Mkfs.sb, IBLOCK d Mkfs.sb, x, y} →
      Q 0 v' (held p ∅)) :
    Safe p E (do
      Fs.ilock kd
      let r ← Fs.dirlink p kd name (← Fs.inode k).inum
      if r < 0 then do
        Fs.iunlockput kd
        Fs.linkUndo k
      else do
        Fs.iunlockput kd
        Fs.iput k
        return 0) Q v1 (held p ∅) := by
  have hfiles : files v.disk = update (files v₀.disk) i (some { n with nlink := n.nlink + 1 }) :=
    hp.exact hq0 fun a m hm h0 => by
      by_cases ha : a = i
      · subst ha
        exact hp.core.refs_pos.mpr ⟨k,hl.loaded.holds⟩
      · rw [update_of_ne ha] at hm
        rw [hl.refs,one,if_neg ha,add_zero]
        exact hq0 a m hm h0
  have hlv1 : Loaded v1 k i { n with nlink := n.nlink + 1 } :=
    hl.loaded.walk hw (by rw [hw.quiet hq1])
  have hod := Opened.of_loaded hld hw.core
  have hp1 := hp.walk hw (one_nonneg d) fun _ => hfiles
  refine bind (ilock_loaded hw.core hld (notMem_empty kd) ?_)
  rw [show insert kd (∅ : Finset ℕ) = {kd} from rfl]
  refine inode_seq ?_
  rw [hlv1.holds.inum]
  have hbudget : ∀ {m}, m ≤ 10 → Budget E m v1 := fun hm =>
    hp1.budget hs.log (hs.budget.mono (by rw [card_singleton]; omega))
  refine bind (dirlink hod (mem_singleton_self kd) hd
    (fun hc => ⟨hs.tree.aligned d nd hnd hd hc,hs.even d nd hnd hd hc⟩)
    (fun j _ => hslots.not_full Nat.one_pos hw.core) (fun j k' ip hj hg hk' => ?_)
    (fun j k' ip hj hg hk' => ?_) hmax (fun _ => hbudget (by omega))
    (fun _ => ?_) fun hnone x y v2 he => ?_)
  · -- the name stands for the directory itself
    rw [mem_singleton] at hk'
    subst hk'
    refine hself j hj ?_
    rcases hg.was with ⟨hk,-⟩ | ⟨hno,-⟩
    · rw [← hk.inum,hld.holds.inum]
    · exact absurd hld.holds (hno d)
  · -- the name is there
    obtain ⟨hjlt,⟨hlive,-⟩,-⟩ := Node.lookup_eq_some.mp hj
    have hdrop := hg.walk_drop hw.core (hs.tree.range d nd j hnd hd hjlt hlive)
    have hw2 := hw.trans hdrop hp.core (one_nonneg d)
    rw [add_zero] at hw2
    refine ite (fun _ => ?_) fun hr => absurd (show (-1 : ℤ) < 0 by decide) hr
    refine bind (iunlockput_last hw2 hp.core (hdrop.keep kd d hld.holds) (.inl hq1)
      fun v3 hw3 _ _ => ?_)
    refine linkUndo hs.core hq0 (hl.walk hw3 hq1) ?_ (hfail ?_)
    · refine hw3.budget (hp.budget hs.log (hs.budget.mono ?_)) (.inl hq1)
      rw [card_singleton]
      omega
    · rw [hj]
      exact Option.some_ne_none j
  · refine Spare.entry (hs.spare.of_files fun a ha => ?_) (by omega) hw.core.sound.owned d _
    have hdisk : v1.disk = v.disk := by rw [hw.quiet hq1]
    rw [hdisk,hfiles] at ha
    by_cases hai : a = i
    · rw [hai,hl.node]
      exact Option.some_ne_none n
    · rwa [update_of_ne hai] at ha
  · -- the name is entered
    refine ite (fun hr => absurd hr (by decide)) fun _ => ?_
    have hp2 := hp1.edit he hod.loaded
    have hod2 := he.opened hod
    have hl2 := he.loaded hlv1 hne
    have hA := card_union_le_add (le_of_eq (card_singleton (IBLOCK i Mkfs.sb)))
      (card_le_four (a := 58) (b := IBLOCK d Mkfs.sb) (c := x) (d := y))
    refine bind (iunlockput_progress hp2 hs.core (one_nonneg i) hod2.holds hod2.valid
      (mem_singleton_self kd) (hp2.budget hs.log (hs.budget.mono (by omega)))
      fun v3 hp3 hload => ?_)
    rw [erase_singleton]
    have hl3 := hload k i _ hl2 hne
    have hA3 := card_union_le_add hA (card_le_two (a := 58) (b := IBLOCK d Mkfs.sb))
    rw [← zero_add (one i)] at hp3
    refine bind (iput_progress hp3 hs.core (fun _ => le_rfl) hl3.holds hl3.valid
      (notMem_empty k) (hp3.budget hs.log (hs.budget.mono (by omega)))
      fun v' hp' _ => pure (hdone hnone x y v' (hp'.mono (linked_blocks _ _ x y))))

/-- `link` makes a name for a file that is no directory, or, where it cannot, leaves
everything as it was. -/
theorem Safe.linkBody {old new : List UInt8} (hs : Starts E v₀) (hq0 : Quiet v₀)
    (hold : HasStart E v₀ p old) (hnew : HasStart E v₀ p new)
    (hself : ∀ d name nd j, ParentAt v₀ p new d name → files v₀.disk d = some nd →
      nd.lookup name = some j → (nd.entry j).inum.toNat = d → ∀ k, E (.blocked (.inode k) p))
    (hroom : ∀ i n d name nd, LinkedAt v₀ p old new i n d name nd →
      MAXFILE * BSIZE < nd.table.free * Dirent.sizeof + Dirent.sizeof → E (.fail .dirlink))
    (hfail : ∀ v', (∀ i n d name nd, ¬ LinkedAt v₀ p old new i n d name nd) → Restored v₀ v' →
      Q (-1) v' (held p ∅))
    (hdone : ∀ i n d name nd x y v', LinkedAt v₀ p old new i n d name nd →
      Progress v₀ v' (update (update (files v₀.disk) i (some { n with nlink := n.nlink + 1 })) d
        (some (nd.setEntry nd.table.free (Dirent.named name i)))) 0
        {58, IBLOCK i Mkfs.sb, IBLOCK d Mkfs.sb, x, y} → Q 0 v' (held p ∅)) :
    Safe p E (Fs.linkBody p old new) Q v₀ (held p ∅) := by
  refine namei_lock hs hold (fun k => rfl)
    (fun s v' hw hst hnone => pure (hfail v' (fun i n d name nd h => ?_) (.of_walk hw hq0)))
    fun k i n s v1 hw1 hl1 hst hpath => ?_
  · obtain ⟨t,ht,hpath⟩ := h.old hq0
    rw [ht.unique hst,hnone hq0] at hpath
    cases hpath
  -- the inode is the one that a name would be made for
  have hsame : ∀ {i' n' d name nd}, LinkedAt v₀ p old new i' n' d name nd → i' = i := by
    intro i' n' d name nd h
    obtain ⟨t,ht,hpath'⟩ := h.old hq0
    rw [ht.unique hst,hpath hq0] at hpath'
    exact (Prod.mk.inj (Option.some.inj hpath')).1.symm
  have hn : files v₀.disk i = some n := hw1.files_some hl1.node
  have ho1 := Opened.of_loaded hl1 hw1.core
  refine inode_seq ?_
  rw [ho1.type]
  refine ite (fun hisdir => ?_) fun hnd => ?_
  · refine bind (iunlockput_last hw1 hs.core hl1.holds (.inl hq0) fun v' hw' _ _ => ?_)
    refine pure (hfail v' (fun i' n' d name nd h => h.notDir ?_) (.of_walk hw' hq0))
    have hn' := h.inode
    rw [hsame h,hn] at hn'
    exact Option.some.inj hn' ▸ hisdir
  have hp1 := Progress.of_walk hs.core hw1 (one_nonneg i)
  have hq1 := hw1.quiet_of (one_nonneg i) hq0
  have hd1 : v1.disk = v₀.disk := by rw [hw1.quiet hq0]
  refine bind (addLink ho1 ((hp1.budget hs.log (hs.budget.mono (by simp))).mono le_rfl)
    fun v2 he hd => ?_)
  have hp2 := hp1.edit he hl1
  rw [empty_union] at hp2
  have hq2 := hq1.edit he hw1.core hl1.holds
  have hl2 := (he.opened ho1).loaded
  have hi := ho1.inum_lt
  have hlinking : Linking v₀ v2 k i n := by
    refine ⟨hp2.core,hp2.frame,hn,hl2,?_,fun b hb => ?_,hp2.refs,hp2.keep,hp2.valid⟩
    · rw [hd,inodeAt_writeInode hi,hd1]
    · rw [hd,writeInode_ne (by have := IBLOCK_lt hi; omega),hd1]
  refine bind (iunlock_last hl2.holds.ref ?_)
  -- the directories are those of the start
  have hdirs : ∀ a m, m.type = T_DIR → (files v2.disk a = some m ↔ files v₀.disk a = some m) := by
    intro a m hm
    by_cases ha : a = i
    · subst ha
      rw [he.node_self,hn]
      refine iff_of_false ?_ ?_
      · rintro ⟨rfl⟩
        exact hnd hm
      · rintro ⟨rfl⟩
        exact hnd hm
    · rw [he.node_ne ha,hd1]
  have hkeep : ∀ a, files v₀.disk a ≠ none → files v2.disk a ≠ none := fun a ha =>
    he.files_ne_none (by rwa [hd1])
  have htree2 : Tree E v2 := hs.tree.of_dirs (fun a m hm ht => (hdirs a m ht).mp hm) (fun _ => hq2)
    fun _ => hkeep
  have hslots2 : Slots E 2 v2 := (hs.slots.walk_one hs.core hw1).edit he
  have hstart2 : HasStart E v2 p new := by
    obtain ⟨a,ha⟩ := hnew.start
    refine ⟨⟨a,ha.progress hp2⟩,fun b hb => ?_⟩
    obtain ⟨hb0,-⟩ := StartsAt.of_progress hp2 ha hb
    exact (hnew.alloc b hb0).imp_right (hkeep b)
  -- the parent directory is that of the start
  have hparent : ∀ {t r}, StartsAt v2 p new t →
      walkPath (files v2.disk) true t (components new) = r →
      StartsAt v₀ p new t ∧ walkPath (files v₀.disk) true t (components new) = r := by
    intro t r hst2 hr
    obtain ⟨a,ha⟩ := hnew.start
    rw [walkPath_congr fun a m hm => hdirs a m hm] at hr
    exact ⟨(StartsAt.of_progress hp2 ha hst2).1,hr⟩
  refine nameiparent_lock hp2.core htree2 hslots2 (.inl hq2) hstart2
    (fun t v' hw hst2 hnone => ?_) fun kd d name nd t v3 hw3 hl3 hdir hst2 hpath2 => ?_
  · refine linkUndo hs.core hq0 (hlinking.walk hw hq2) ?_ fun v' hr => hfail v' ?_ hr
    · refine hw.budget (hp2.budget hs.log (hs.budget.mono ?_)) (.inl hq2)
      rw [card_singleton]
      omega
    · intro i' n' d name nd h
      obtain ⟨hst0,hnone0⟩ := hparent hst2 (hnone hq2)
      obtain ⟨t',ht',hpath'⟩ := h.new hq0
      rw [ht'.unique hst0,hnone0] at hpath'
      cases hpath'
  have hnd0 : files v₀.disk d = some nd := (hdirs d nd hdir).mp (hw3.files_some hl3.node)
  have hne : i ≠ d := by
    rintro rfl
    rw [hn] at hnd0
    exact hnd (Option.some.inj hnd0 ▸ hdir)
  have hat0 := hparent hst2 (hpath2 hq2)
  have hplace : ParentAt v₀ p new d name := ⟨t,hat0⟩
  have hat : nd.lookup name = none → LinkedAt v₀ p old new i n d name nd := fun hnone =>
    ⟨fun hq => ⟨s,hst,hpath hq⟩,fun _ => hplace,hn,hnd,hnd0,hdir,hnone⟩
  refine link_enter hs hq0 hlinking hq2 hp2 hw3 hl3 hdir hne hnd0
    (hslots2.walk_one hp2.core hw3) (fun j hj hjd => hself d name nd j hplace hnd0 hj hjd kd)
    (fun hnone => hroom i n d name nd (hat hnone)) (fun hsome v' hr => hfail v' ?_ hr)
    fun hnone x y v' hp' => hdone i n d name nd x y v' (hat hnone) hp'
  -- the name is there
  intro i' n' d' name' nd' h
  obtain ⟨t',ht',hpath'⟩ := h.new hq0
  rw [ht'.unique hat0.1,hat0.2] at hpath'
  obtain ⟨rfl,rfl⟩ := Prod.mk.inj (Option.some.inj hpath')
  have hnd' := h.node
  rw [hnd0] at hnd'
  exact hsome (Option.some.inj hnd' ▸ h.free)

end Link
end Fs
end Xv6
