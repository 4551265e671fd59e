import Xv6.Fs.UnlinkSpec
import Xv6.Fs.OpenSpec

/-! # What every operation keeps

The file system between two operations, and how the references in the inode cache differ
after one. -/
namespace Xv6
open Conc Node Function
open Mkfs (NINODES)

/-- The entries of a directory stand for inodes that there are. -/
def Node.Within (n : Node) : Prop := n.type = T_DIR → ∀ j, j < n.count → (n.entry j).inum ≠ 0 →
  (n.entry j).inum.toNat < NINODES

namespace Node
variable {n : Node} {j : ℕ} {e : Dirent}

theorem count_setEntry_le (hj : j ≤ n.count) {m : ℕ} (hm : m < (n.setEntry j e).count) :
    m < n.count ∨ m = j := by
  have h16 : Dirent.sizeof = 16 := rfl
  unfold count at hj hm ⊢
  simp only [setEntry,write,Dirent.length_bytes,h16] at hj hm ⊢
  omega

theorem Within.setEntry (h : n.Within) (hj : j ≤ n.count)
    (he : e.inum ≠ 0 → e.inum.toNat < NINODES) : (n.setEntry j e).Within := by
  intro hd m hm hlive
  by_cases hmj : m = j
  · subst hmj
    rw [entry_setEntry_self] at hlive ⊢
    exact he hlive
  · rw [entry_setEntry_ne hmj] at hlive ⊢
    exact h hd m ((count_setEntry_le hj hm).resolve_right hmj) hlive

theorem type_setEntry : (n.setEntry j e).type = n.type := rfl

theorem nlink_setEntry : (n.setEntry j e).nlink = n.nlink := rfl

theorem Within.withNlink (h : n.Within) (m : Int16) : { n with nlink := m }.Within := h

theorem Within.of_empty (h : n.size = 0) : n.Within := by
  intro _ j hj
  rw [count_of_empty h] at hj
  exact absurd hj (Nat.not_lt_zero j)

theorem named_within {name : Name} {i : ℕ} (hi : i < NINODES) :
    (Dirent.named name i).inum.toNat < NINODES := by
  have hN : NINODES = 200 := rfl
  change (UInt16.ofNat i).toNat < _
  rw [UInt16.toNat_ofNat_of_lt' (by rw [UInt16.size]; omega)]
  exact hi

end Node

/-- The files `fs` come from `fs₀`: nothing has changed its type, and new files have links. -/
structure Follows (fs₀ fs : ℕ → Option Node) : Prop where
  within : ∀ a n, fs a = some n → n.Within
  type : ∀ a n, fs₀ a = some n → ∃ n', fs a = some n' ∧ n'.type = n.type
  new : ∀ a n, fs₀ a = none → fs a = some n → n.nlink ≠ 0

namespace Follows
variable {fs₀ fs : ℕ → Option Node} {a : ℕ} {n n' : Node}

theorem refl (h : ∀ a n, fs a = some n → n.Within) : Follows fs fs :=
  ⟨h,fun _ n hn => ⟨n,hn,rfl⟩,fun _ _ h0 hn => by rw [h0] at hn; cases hn⟩

theorem edit (h : Follows fs₀ fs) (hn : fs a = some n) (ht : n'.type = n.type) (hw : n'.Within)
    (hnew : fs₀ a = none → n'.nlink ≠ 0) : Follows fs₀ (update fs a (some n')) where
  within := by
    intro b m hm
    by_cases hb : b = a
    · rw [hb,update_self] at hm
      exact Option.some.inj hm ▸ hw
    · rw [update_of_ne hb] at hm
      exact h.within b m hm
  type := by
    intro b m hm
    obtain ⟨m',hm',ht'⟩ := h.type b m hm
    by_cases hb : b = a
    · subst hb
      rw [hn] at hm'
      obtain rfl := Option.some.inj hm'
      exact ⟨n',update_self ..,ht.trans ht'⟩
    · exact ⟨m',by rw [update_of_ne hb]; exact hm',ht'⟩
  new := by
    intro b m h0 hm
    by_cases hb : b = a
    · subst hb
      rw [update_self] at hm
      exact Option.some.inj hm ▸ hnew h0
    · rw [update_of_ne hb] at hm
      exact h.new b m h0 hm

theorem create (h : Follows fs₀ fs) (h0 : fs₀ a = none) (hw : n'.Within) (hnew : n'.nlink ≠ 0) :
    Follows fs₀ (update fs a (some n')) where
  within := by
    intro b m hm
    by_cases hb : b = a
    · rw [hb,update_self] at hm
      exact Option.some.inj hm ▸ hw
    · rw [update_of_ne hb] at hm
      exact h.within b m hm
  type := by
    intro b m hm
    have hb : b ≠ a := by
      rintro rfl
      rw [h0] at hm
      cases hm
    rw [update_of_ne hb]
    exact h.type b m hm
  new := by
    intro b m hb0 hm
    by_cases hb : b = a
    · subst hb
      rw [update_self] at hm
      exact Option.some.inj hm ▸ hnew
    · rw [update_of_ne hb] at hm
      exact h.new b m hb0 hm

end Follows

/-- What holds between operations, whether or not a transaction is open. -/
structure Consistent (v : View) : Prop where
  core : Core v
  within : ∀ a n, files v.disk a = some n → n.Within
  quiet : Quiet v
  orphans : OrphansRead v

theorem Consistent.inRange {v : View} (h : Consistent v) : InRange v :=
  fun i n j hn hd hj => h.within i n hn hd j hj

def single (k : ℕ) : ℕ → ℤ := fun j => if j = k then 1 else 0

theorem single_nonneg (k j : ℕ) : 0 ≤ single k j := by
  unfold single
  split
  · exact Int.one_nonneg
  · exact le_rfl

/-- An operation has led from `v` to `v'`, and slot `k` has `g k` references more. -/
structure Moved (v v' : View) (g : ℕ → ℤ) : Prop where
  good : Consistent v'
  file : v'.file = v.file
  proc : v'.proc = v.proc
  slot : ∀ k, k < NINODE → (v'.inode k).ref = (v.inode k).ref + g k
  loaded : ∀ k i n, Fs.Loaded v k i n → 0 < (v'.inode k).ref →
    ∃ n', Fs.Loaded v' k i n' ∧ n'.type = n.type

section Moved
variable {v₀ v v' : View} {δ : ℕ → ℤ} {k i : ℕ}

/-- The counts of the slots, from those of the inodes. -/
theorem slot_refs (hc0 : Core v₀) (hc : Core v) (hkeep : ∀ k i, Holds v₀ k i → Holds v k i)
    (hrefs : ∀ a, refs v a = refs v₀ a + δ a) (hk : k < NINODE) : (v.inode k).ref =
      (v₀.inode k).ref + if 0 < (v.inode k).ref then δ (v.inode k).inum else 0 := by
  have hpos0 := hc0.ref k hk
  have hpos := hc.ref k hk
  by_cases h0 : (v₀.inode k).ref = 0
  · by_cases h1 : 0 < (v.inode k).ref
    · have hkv : Holds v k (v.inode k).inum := ⟨hk,h1,rfl⟩
      have hnone : refs v₀ (v.inode k).inum = 0 := by
        by_contra hne
        have hnn := hc0.refs_nonneg (v.inode k).inum
        obtain ⟨j,hj⟩ := hc0.refs_pos.mp (show 0 < refs v₀ (v.inode k).inum by omega)
        obtain rfl := hc.uniq j k _ (hkeep j _ hj) hkv
        have := hj.ref
        omega
      rw [if_pos h1,← hc.refs_eq hkv,hrefs,hnone,h0]
    · rw [if_neg h1]
      omega
  · have hk0 : Holds v₀ k (v₀.inode k).inum := ⟨hk,by omega,rfl⟩
    have hkv := hkeep k _ hk0
    rw [if_pos hkv.ref,hkv.inum,← hc.refs_eq hkv,hrefs,hc0.refs_eq hk0]

theorem slot_refs_zero (hc0 : Core v₀) (hc : Core v) (hkeep : ∀ k i, Holds v₀ k i → Holds v k i)
    (hrefs : ∀ a, refs v a = refs v₀ a + (0 : ℕ → ℤ) a) (hk : k < NINODE) :
    (v.inode k).ref = (v₀.inode k).ref := by
  have := slot_refs hc0 hc hkeep hrefs hk
  rwa [Pi.zero_apply,ite_self,add_zero] at this

theorem slot_refs_one (hc0 : Core v₀) (hc : Core v) (hkeep : ∀ k i, Holds v₀ k i → Holds v k i)
    (hrefs : ∀ a, refs v a = refs v₀ a + one i a) (hi : Holds v k i) {j : ℕ} (hj : j < NINODE) :
    (v.inode j).ref = (v₀.inode j).ref + single k j := by
  have h := slot_refs hc0 hc hkeep hrefs hj
  rw [h]
  congr 1
  unfold single one
  by_cases hjk : j = k
  · rw [hjk,if_pos hi.ref,if_pos hi.inum,if_pos rfl]
  · rw [if_neg hjk]
    split
    · rename_i hpos
      refine if_neg fun hji => hjk ?_
      exact hc.uniq j k i ⟨hj,hpos,hji⟩ hi
    · rfl

section
variable (h : Consistent v₀)
include h

/-- What an operation has done that has only changed or made files. -/
theorem Consistent.progress {fs : ℕ → Option Node} {A : Finset ℕ}
    (hp : Progress v₀ v fs δ A) (hf : Follows (files v₀.disk) fs) : Consistent v where
  core := hp.core
  within := by
    intro a n hn
    rcases hp.files h.quiet a with h1 | ⟨h1,-⟩
    · exact hf.within a n (h1 ▸ hn)
    · rw [h1] at hn
      cases hn
  quiet := hp.quiet h.quiet
  orphans := by
    intro k a n hk hn h0
    refine hp.orphans h.quiet h.orphans k a n hk (fun hnone => ?_) hn h0
    have hfs := (hp.node h.quiet hk).symm.trans hn
    exact hf.new a n hnone hfs h0

theorem Moved.of_progress {fs : ℕ → Option Node} {A : Finset ℕ} {g : ℕ → ℤ}
    (hp : Progress v₀ v fs δ A) (hf : Follows (files v₀.disk) fs)
    (hg : ∀ j, j < NINODE → (v.inode j).ref = (v₀.inode j).ref + g j) : Moved v₀ v g where
  good := h.progress hp hf
  file := by
    obtain ⟨B,hB⟩ := hp.frame
    exact hB.file
  proc := by
    obtain ⟨B,hB⟩ := hp.frame
    exact hB.proc
  slot := hg
  loaded := by
    intro k i n hl _
    have hk := hp.keep k i hl.holds
    obtain ⟨n',hn',ht⟩ := hf.type i n hl.node
    exact ⟨n',⟨hk,hp.valid k i hl.holds hl.valid,(hp.node h.quiet hk).trans hn'⟩,ht⟩

theorem Moved.done {fs : ℕ → Option Node} {A : Finset ℕ}
    (hp : Progress v₀ v fs 0 A) (hf : Follows (files v₀.disk) fs) : Moved v₀ v 0 :=
  .of_progress h hp hf fun j hj => by
    rw [Pi.zero_apply,add_zero]
    exact slot_refs_zero h.core hp.core hp.keep hp.refs hj

theorem Moved.took {fs : ℕ → Option Node} {A : Finset ℕ}
    (hp : Progress v₀ v fs (one i) A) (hf : Follows (files v₀.disk) fs) (hk : Holds v k i) :
    Moved v₀ v (single k) :=
  .of_progress h hp hf fun _ hj => slot_refs_one h.core hp.core hp.keep hp.refs hk hj

end

theorem Consistent.follows (h : Consistent v) : Follows (files v.disk) (files v.disk) :=
  .refl h.within

theorem Moved.of_walk (h : Consistent v₀) (hw : Walk v₀ v 0) : Moved v₀ v 0 :=
  .done h (.of_walk h.core hw fun _ => le_rfl) h.follows

theorem Moved.of_walk_one (h : Consistent v₀) (hw : Walk v₀ v (one i)) (hk : Holds v k i) :
    Moved v₀ v (single k) :=
  .took h (.of_walk h.core hw (one_nonneg i)) h.follows hk

theorem Moved.of_restored (h : Consistent v₀) (hr : Restored v₀ v) : Moved v₀ v 0 := by
  have hfiles := hr.files h.core
  have hrefs : ∀ a, refs v a = refs v₀ a + (0 : ℕ → ℤ) a := fun a => by
    rw [hr.refs,Pi.zero_apply,add_zero]
  obtain ⟨A,hA⟩ := hr.frame
  refine ⟨⟨hr.core,fun a n hn => h.within a n (hfiles ▸ hn),fun a n hn h0 => ?_,
    fun k a n hk hn h0 => ?_⟩,hA.file,hA.proc,fun k hk => ?_,fun k i n hl _ => ?_⟩
  · rw [hr.refs]
    exact h.quiet a n (hfiles ▸ hn) h0
  · rw [hfiles] at hn
    obtain ⟨j,hj⟩ := h.core.refs_pos.mp (h.quiet a n hn h0)
    obtain rfl := hr.core.uniq j k a (hr.keep j a hj) hk
    exact hr.valid j a hj (h.orphans j a n hj hn h0)
  · rw [Pi.zero_apply,add_zero]
    exact slot_refs_zero h.core hr.core hr.keep hrefs hk
  · exact ⟨n,⟨hr.keep k i hl.holds,hr.valid k i hl.holds hl.valid,hfiles ▸ hl.node⟩,rfl⟩

theorem Moved.refl (h : Consistent v) : Moved v v 0 :=
  ⟨h,rfl,rfl,fun _ _ => (add_zero _).symm,fun _ _ n hl _ => ⟨n,hl,rfl⟩⟩

/-- Two operations, the first of which gives nothing back. -/
theorem Moved.trans {v'' : View} {g g' : ℕ → ℤ} (h : Moved v v' g) (h' : Moved v' v'' g')
    (hg : ∀ k, 0 ≤ g k) : Moved v v'' (g + g') where
  good := h'.good
  file := h'.file.trans h.file
  proc := h'.proc.trans h.proc
  slot := fun k hk => by rw [h'.slot k hk,h.slot k hk,Pi.add_apply,add_assoc]
  loaded := by
    intro k i n hl hpos
    have hpos' : 0 < (v'.inode k).ref := by
      have h1 := hl.holds.ref
      have h2 := hg k
      rw [h.slot k hl.holds.slot]
      omega
    obtain ⟨n',hl',ht⟩ := h.loaded k i n hl hpos'
    obtain ⟨n'',hl'',ht'⟩ := h'.loaded k i n' hl' hpos
    exact ⟨n'',hl'',ht'.trans ht⟩

section
variable (h : Consistent v)
include h

theorem Moved.put {B : Finset ℕ} (hk : Holds v k i) (hw : Walk (v.unref k) v' 0) (hf : Frame B v v')
    (hs : (v.inode k).valid = true → Fs.Settled v' i) : Moved v v' (-single k) := by
  have hcu := h.core.unref hk
  have hslot : ∀ j, j < NINODE → (v'.inode j).ref = (v.inode j).ref + (-single k) j := by
    intro j hj
    rw [slot_refs_zero hcu hw.core hw.keep hw.refs hj,Pi.neg_apply,single]
    by_cases hjk : j = k
    · subst hjk
      rw [View.unref,setSlot_self,if_pos rfl]
    · rw [View.unref,setSlot_ne hjk,if_neg hjk,neg_zero,add_zero]
  have hunref : ∀ j, (v.inode j).valid = true → ((v.unref k).inode j).valid = true :=
    fun j hv => (Fs.unref_valid v j k).trans hv
  refine ⟨⟨hw.core,fun a n hn => h.within a n (hw.files_some hn),fun a n hn h0 => ?_,
    fun j a n hj hn h0 => ?_⟩,hf.file,hf.proc,hslot,fun j a n hl hpos => ?_⟩
  · by_cases ha : a = i
    · subst ha
      exact hs (h.orphans k a n hk (hw.files_some hn) h0) n hn h0
    · have := h.quiet a n (hw.files_some hn) h0
      rw [hw.refs,refs_unref hk,one,if_neg ha,Pi.zero_apply]
      omega
  · have hpos := hw.core.refs_pos.mpr ⟨j,hj⟩
    rw [hw.refs,Pi.zero_apply,add_zero] at hpos
    obtain ⟨l,hl⟩ := hcu.refs_pos.mp hpos
    obtain rfl := hw.core.uniq l j a (hw.keep l a hl) hj
    have hlv := (Walk.unref h.core hk).keep l a hl
    exact hw.valid l a hl (hunref l (h.orphans l a n hlv (hw.files_some hn) h0))
  · -- a slot that is still in use has not been given up in between
    have hju : Holds (v.unref k) j a := by
      refine holds_unref hk hl.holds fun ha => ?_
      subst ha
      obtain rfl := h.core.uniq j k a hl.holds hk
      rw [hslot j hl.holds.slot,Pi.neg_apply,single,if_pos rfl] at hpos
      omega
    refine ⟨n,⟨hw.keep j a hju,hw.valid j a hju (hunref j hl.valid),?_⟩,rfl⟩
    rcases hw.files a with h1 | ⟨-,h1,-⟩
    · exact h1.trans hl.node
    · have := hcu.refs_pos.mpr ⟨j,hju⟩
      omega

theorem Consistent.of_inodes (hc : Core v')
    (hf : files v'.disk = files v.disk) (hi : v'.inode = v.inode) : Consistent v' where
  core := hc
  within := fun a n hn => h.within a n (hf ▸ hn)
  quiet := by
    intro a n hn h0
    unfold refs
    rw [hi]
    exact h.quiet a n (hf ▸ hn) h0
  orphans := by
    intro k a n hk hn h0
    rw [hi]
    exact h.orphans k a n (hk.of_inode hi.symm) (hf ▸ hn) h0

theorem Consistent.tables (file : ℕ → File) (proc : ℕ → Proc) :
    Consistent { v with file := file, proc := proc } :=
  h.of_inodes (h.core.of_inodes ⟨h.core.ready.sb,h.core.ready.block,h.core.ready.log⟩
    h.core.sound rfl rfl) rfl rfl

theorem Moved.input (inp : List UInt8) : Moved v { v with input := inp } 0 :=
  ⟨h.of_inodes (h.core.input inp) rfl rfl,rfl,rfl,fun _ _ => (add_zero _).symm,
    fun _ _ n hl _ => ⟨n,⟨hl.holds.of_inode rfl,hl.valid,hl.node⟩,rfl⟩⟩

end

/-- Nothing but the disk and the inode cache matters for where an operation has started. -/
theorem Moved.rebase {g : ℕ → ℤ} (h : Moved v₀ v' g) (hi : v₀.inode = v.inode)
    (hd : v₀.disk = v.disk) : Moved v { v' with file := v.file, proc := v.proc } g where
  good := h.good.tables v.file v.proc
  file := rfl
  proc := rfl
  slot := fun k hk => hi ▸ h.slot k hk
  loaded := by
    intro k i n hl hpos
    have hl0 : Fs.Loaded v₀ k i n :=
      ⟨hl.holds.of_inode hi,by rw [hi]; exact hl.valid,by rw [hd]; exact hl.node⟩
    obtain ⟨n',hl',ht⟩ := h.loaded k i n hl0 hpos
    exact ⟨n',⟨hl'.holds.of_inode rfl,hl'.valid,hl'.node⟩,ht⟩

theorem Consistent.begun (h : Consistent v) : Consistent v.begun :=
  h.of_inodes h.core.begun rfl rfl

theorem Moved.ended {g : ℕ → ℤ} {d : Disk} (h : Moved v.begun v' g) (hd : SameData v'.disk d) :
    Moved v (v'.ended d) g where
  good := h.good.of_inodes (h.good.core.ended hd) (hd.sound h.good.core.sound).2 rfl
  file := h.file
  proc := h.proc
  slot := h.slot
  loaded := by
    intro k i n hl hpos
    have hl0 : Fs.Loaded v.begun k i n := ⟨hl.holds.of_inode rfl,hl.valid,hl.node⟩
    obtain ⟨n',hl',ht⟩ := h.loaded k i n hl0 hpos
    refine ⟨n',⟨hl'.holds.of_inode rfl,hl'.valid,?_⟩,ht⟩
    exact (congrFun (hd.sound h.good.core.sound).2 i).trans hl'.node

end Moved

section Follows
variable {v₀ : View} {p i d j : ℕ} {n nd : Node} {name : Name} {path old new : List UInt8}

theorem Follows.edit_there {fs₀ fs : ℕ → Option Node} {m m' : Node} (h : Follows fs₀ fs) {a : ℕ}
    (h₀ : fs₀ a = some m) (hn : fs a = some m) (ht : m'.type = m.type) (hw : m'.Within) :
    Follows fs₀ (update fs a (some m')) :=
  h.edit hn ht hw fun h0 => by
    rw [h₀] at h0
    cases h0

theorem Fs.LinkedAt.follows (h : LinkedAt v₀ p old new i n d name nd) (hv : Consistent v₀) :
    Follows (files v₀.disk) (update (update (files v₀.disk) i (some { n with nlink := n.nlink + 1 }))
      d (some (nd.setEntry nd.table.free (Dirent.named name i)))) := by
  have hne : d ≠ i := by
    rintro rfl
    have := h.node
    rw [h.inode] at this
    exact h.notDir (Option.some.inj this ▸ h.type)
  have hi : i < NINODES := (files_eq_some h.inode).1
  have hnode := (hv.within i n h.inode).withNlink (n.nlink + 1)
  have hdir : (nd.setEntry nd.table.free (Dirent.named name i)).Within :=
    (hv.within d nd h.node).setEntry SlotTable.free_le fun _ => named_within hi
  have hf := hv.follows.edit_there h.inode h.inode (by rfl) hnode
  refine hf.edit_there h.node ?_ type_setEntry hdir
  rw [update_of_ne hne]
  exact h.node

theorem Fs.UnlinkedAt.follows (h : UnlinkedAt v₀ p path d name nd j i n) (hv : Consistent v₀) :
    Follows (files v₀.disk) (update (update (files v₀.disk) d (some (unlinkedDir n.type nd j))) i
      (some { n with nlink := n.nlink + -1 })) := by
  have hj : j < nd.count := (lookup_eq_some.mp h.found).1
  have hzero : (nd.setEntry j Dirent.zero).Within :=
    (hv.within d nd h.dir).setEntry hj.le fun h0 => absurd rfl h0
  have hdir : (unlinkedDir n.type nd j).Within ∧ (unlinkedDir n.type nd j).type = nd.type := by
    unfold unlinkedDir
    split
    · exact ⟨hzero.withNlink (nd.nlink + -1),by dsimp only; exact type_setEntry⟩
    · exact ⟨hzero,type_setEntry⟩
  have hnode := (hv.within i n h.inode).withNlink (n.nlink + -1)
  refine (hv.follows.edit_there h.dir h.dir hdir.2 hdir.1).edit_there h.inode ?_ (by rfl) hnode
  rw [update_of_ne h.ne]
  exact h.inode

theorem createdNode_within {type major minor : Int16} (hi : i < NINODES)
    (hd : d < NINODES) : (createdNode type major minor i d).Within := by
  have hnew : (newInode type major minor).Within := .of_empty rfl
  unfold createdNode
  split
  · have hdot := hnew.setEntry (e := Dirent.named dot i) (Nat.zero_le _) fun _ =>
      named_within hi
    refine hdot.setEntry ?_ fun _ => named_within hd
    rw [count_setEntry]
    exact le_max_right _ _
  · exact hnew

theorem createdNode_nlink {type major minor : Int16} :
    (createdNode type major minor i d).nlink = 1 := by
  unfold createdNode
  split
  · rw [nlink_setEntry,nlink_setEntry]
    rfl
  · rfl

theorem CreatedAt.follows {type major minor : Int16} (h : CreatedAt v₀ p path i d name nd)
    (hv : Consistent v₀) : Follows (files v₀.disk) (update (update (files v₀.disk) i
      (some (createdNode type major minor i d))) d (some (createdDir type nd name i))) := by
  have hnd := h.node hv.quiet
  have hw := hv.within d nd hnd
  have hdir : (createdDir type nd name i).Within ∧ (createdDir type nd name i).type = nd.type := by
    unfold createdDir
    split
    · exact ⟨(hw.withNlink (nd.nlink + 1)).setEntry SlotTable.free_le fun _ =>
        named_within h.lt,type_setEntry⟩
    · exact ⟨hw.setEntry SlotTable.free_le fun _ => named_within h.lt,type_setEntry⟩
  have hnode : (createdNode type major minor i d).Within :=
    createdNode_within h.lt (files_eq_some hnd).1
  have hf := hv.follows.create (h.free hv.quiet) hnode (by rw [createdNode_nlink]; decide)
  refine hf.edit_there hnd ?_ hdir.2 hdir.1
  rw [update_of_ne h.ne.symm]
  exact hnd

end Follows
end Xv6
