import Xv6.Fs.LinkSpec

/-! # What `unlink` does -/
namespace Xv6
open Conc
open Function (update)
open Dirent (sizeof)
open Finset

namespace Fs

/-- The entry `j` with the name `name` in the directory `d`, which is `nd`, stands for the
inode `i`, which is `n` and no directory with entries in it. -/
structure UnlinkedAt (v₀ : View) (p : ℕ) (path : List UInt8) (d : ℕ) (name : Name) (nd : Node)
    (j i : ℕ) (n : Node) : Prop where
  path : ParentAt v₀ p path d name
  notDots : ¬ (strncmp DIRSIZ (cstr name) (cstr dot) = 0 ∨
    strncmp DIRSIZ (cstr name) (cstr dotdot) = 0)
  dir : files v₀.disk d = some nd
  type : nd.type = T_DIR
  found : nd.lookup name = some j
  entry : (nd.entry j).inum.toNat = i
  inode : files v₀.disk i = some n
  ne : i ≠ d
  linked : 1 ≤ n.nlink
  empty : n.type = T_DIR → ∀ m, 2 ≤ m → m < n.count → (n.entry m).inum = 0

/-- The directory `nd` without its entry `j`, which stood for an inode of type `type`. -/
def unlinkedDir (type : Int16) (nd : Node) (j : ℕ) : Node :=
  if type = T_DIR then
    { nd.setEntry j Dirent.zero with nlink := nd.nlink + -1 }
  else nd.setEntry j Dirent.zero

section Empty
variable {p : ℕ} {E : Stops} {v : View} {S : Finset ℕ} {k i : ℕ} {n : Node}

/-- The loop of `isdirempty`: the entries from the third to the `j`-th are empty. -/
theorem Safe.isdiremptyFrom {Q : Post Bool} {fuel j : ℕ}
    (hl : Opened v k i n) (hS : k ∈ S) (hd : n.type = T_DIR) (hE : E (.fail .isdiremptyReadi))
    (hprev : ∀ m, 2 ≤ m → m < j → (n.entry m).inum = 0) (hfuel : n.count < j + fuel)
    (hq : ∀ b, (b = true → ∀ m, 2 ≤ m → m < n.count → (n.entry m).inum = 0) → Q b v (held p S)) :
    Safe p E (Fs.isdiremptyFrom p k fuel (j * sizeof)) Q v (held p S) := by
  induction fuel generalizing j with
  | zero => exact pure (hq true fun _ m hm hlt => hprev m hm (by omega))
  | succ fuel ih =>
    refine inode_seq ?_
    rw [hl.size]
    refine ite (fun hlt => ?_) fun hge => ?_
    · refine bind (readDirent hl hS hd hlt (fun _ => hE) fun hj => ?_)
      refine ite (fun _ => pure (hq false nofun)) fun h0 => ?_
      rw [← Nat.succ_mul]
      refine ih (fun m hm hlt' => ?_) (by omega)
      by_cases hmj : m = j
      · rw [hmj]
        exact not_not.mp h0
      · exact hprev m hm (by omega)
    · refine pure (hq true fun _ m hm hlt => hprev m hm ?_)
      by_contra hmj
      exact hge (Nat.lt_of_le_of_lt (Nat.mul_le_mul_right _ (by omega)) (entry_lt_of_lt hlt))

theorem Safe.isNonemptyDir {Q : Post Bool} (hl : Opened v k i n)
    (hS : k ∈ S) (hE : E (.fail .isdiremptyReadi))
    (hq : ∀ b, (b = false → n.type = T_DIR → ∀ m, 2 ≤ m → m < n.count → (n.entry m).inum = 0) →
      Q b v (held p S)) : Safe p E (Fs.isNonemptyDir p k) Q v (held p S) := by
  refine inode_seq ?_
  rw [hl.type]
  refine ite (fun hd => ?_) fun hd => pure (hq false fun _ hc => absurd hc hd)
  refine bind (inode_seq ?_)
  rw [hl.size]
  have hcount : n.count < 2 + (n.size / sizeof + 1) := by unfold Node.count; omega
  refine isdiremptyFrom hl hS hd hE (fun m hm hlt => absurd hm (by omega)) hcount
    fun b hb => pure (hq (!b) fun hnot _ => hb ?_)
  simpa using hnot

end Empty
section Unlink
variable {p : ℕ} {E : Stops} {v₀ v : View} {fs : ℕ → Option Node} {A : Finset ℕ}
  {k i kd d j : ℕ} {n nd : Node} {Q : Post ℤ}

theorem pair_erase (hk : k ≠ kd) : ({k, kd} : Finset ℕ).erase kd = {k} := by
  rw [pair_comm,erase_insert (by simpa using hk.symm)]

/-- The end of `unlink`: the directory is given back, and the inode with one link less. -/
theorem Safe.unlink_finish (hs : Starts E v₀) (hp : Progress v₀ v fs (one i + one d) A)
    (hA : A.card ≤ 5) (hl : Loaded v k i n) (hod : Opened v kd d nd) (hne : i ≠ d) (hk : k ≠ kd)
    (hq : ∀ v', Progress v₀ v' (update fs i (some { n with nlink := n.nlink + -1 })) 0
      (A ∪ {58, IBLOCK d Mkfs.sb} ∪ {IBLOCK i Mkfs.sb} ∪ {58, IBLOCK i Mkfs.sb}) →
      Q 0 v' (held p ∅)) :
    Safe p E (do
      Fs.iunlockput kd
      Fs.addLink k (-1)
      Fs.iunlockput k
      return 0) Q v (held p {k, kd}) := by
  refine bind (iunlockput_progress hp hs.core (one_nonneg i) hod.holds hod.valid (by simp)
    (hp.budget hs.log (hs.budget.mono (by omega))) fun v1 hp1 hload => ?_)
  rw [pair_erase hk]
  have hl1 := hload k i n hl hne
  have hA1 := card_union_le_add hA (card_le_two (a := 58) (b := IBLOCK d Mkfs.sb))
  have ho1 := Opened.of_loaded hl1 hp1.core
  refine bind (addLink ho1 (hp1.budget hs.log (hs.budget.mono (by omega)))
    fun v2 he _ => ?_)
  have hp2 := hp1.edit he hl1
  have hA2 := card_union_le_add hA1 (le_of_eq (card_singleton (IBLOCK i Mkfs.sb)))
  have ho2 := he.opened ho1
  rw [← zero_add (one i)] at hp2
  refine bind (iunlockput_progress hp2 hs.core (fun _ => le_rfl) ho2.holds ho2.valid
    (mem_singleton_self k) (hp2.budget hs.log (hs.budget.mono (by omega)))
    fun v' hp' _ => ?_)
  rw [erase_singleton]
  exact pure (hq v' hp')

theorem unlinked_blocks {a b x y : ℕ} (hA : A ⊆ {58, b, x, y}) : A ∪ {58, b} ∪ {a} ∪ {58, a}
    ⊆ ({58, a, b, x, y} : Finset ℕ) := by
  intro c hc
  have hcA : c ∈ A → c = 58 ∨ c = b ∨ c = x ∨ c = y := fun h => by simpa using hA h
  simp only [mem_union,mem_insert,mem_singleton] at hc ⊢
  tauto

theorem opened_size_le (hod : Opened v kd d nd) (hj : j < nd.count) :
    ¬ MAXFILE * BSIZE < j * sizeof + sizeof := by
  have hsize := hod.size_le
  have hM : MAXFILE * BSIZE = 71680 := rfl
  have h16 : sizeof = 16 := rfl
  unfold Node.count at hj
  rw [h16] at hj ⊢
  omega

/-- `unlink` from the place where the entry has been found. -/
theorem Safe.unlinkEntry (hs : Starts E v₀) (hw : Walk v₀ v (one d + one i)) (hk : Holds v k i)
    (hld : Loaded v kd d nd) (hd : nd.type = T_DIR) (hj : j < nd.count)
    (hal : (inodeAt v.disk i).type = 0 → E (.fail .ilockNoType))
    (hself : i = d → E (.blocked (.inode kd) p)) (hnlink : E (.fail .unlinkNlink))
    (hread : E (.fail .isdiremptyReadi))
    (hfail : ∀ v', Walk v₀ v' 0 → Q (-1) v' (held p ∅))
    (hdone : ∀ n x y v', files v.disk i = some n → i ≠ d → 1 ≤ n.nlink →
      (n.type = T_DIR → ∀ m, 2 ≤ m → m < n.count → (n.entry m).inum = 0) →
      Progress v₀ v' (update (update (files v₀.disk) d (some (unlinkedDir n.type nd j))) i
        (some { n with nlink := n.nlink + -1 })) 0 {58, IBLOCK i Mkfs.sb, IBLOCK d Mkfs.sb, x, y} →
      Q 0 v' (held p ∅)) :
    Safe p E (Fs.unlinkEntry p kd k (j * sizeof)) Q v (held p {kd}) := by
  by_cases hkd : k = kd
  · -- the entry stands for the directory itself
    subst hkd
    have hid : i = d := by rw [← hk.inum,hld.holds.inum]
    exact bind (ilock_blocked hk (mem_singleton_self k) (hself hid))
  have hne : i ≠ d := by
    rintro rfl
    exact hkd (hw.core.uniq k kd i hk hld.holds)
  refine bind (ilock_core hw.core hk (by simpa using hkd) hal
    fun v1 n hw1 hv1 hl1 => ?_)
  have hd1 : v1.disk = v.disk := by rw [hv1]
  have hw1' : Walk v₀ v1 (one d + one i) := by
    have := hw.trans hw1 hs.core fun a => add_nonneg (one_nonneg d a) (one_nonneg i a)
    rwa [add_zero] at this
  have hld1 := hld.walk hw1 hd1
  have ho1 := Opened.of_loaded hl1 hw1.core
  have hod1 := Opened.of_loaded hld1 hw1.core
  refine inode_seq ?_
  rw [ho1.nlink]
  refine bind (panicIf (fun _ => hnlink) fun hn => ?_)
  refine bind (isNonemptyDir ho1 (by simp) hread fun b hb => ?_)
  refine ite (fun _ => ?_) fun hbf => ?_
  · -- a directory that is not empty
    refine bind (iunlockput_other hw1' hs.core hl1.holds hld1.holds (by simp) hs.log
      fun v2 hw2 hk2 => ?_)
    rw [erase_insert (by simpa using hkd)]
    exact bind (iunlockput_last hw2 hs.core hk2 (hs.log.imp_right .inl)
      fun v' hw' _ _ => pure (hfail v' hw'))
  · have hp1 := Progress.of_walk hs.core hw1' fun a => add_nonneg (one_nonneg d a) (one_nonneg i a)
    refine bind (writeDirent hod1 (by simp) hd hj.le
      (fun hc => absurd hc (opened_size_le hod1 hj))
      (hp1.budget hs.log (hs.budget.mono (by simp)))
      (.inr (by rw [entryNeeds_eq_zero hod1 hj]; exact Nat.zero_le _)) fun x y v2 he2 => ?_)
    have hp2 := hp1.edit he2 hod1.loaded
    have hod2 := he2.opened hod1
    have hl2 := he2.loaded hl1 hne
    have hA2 : (∅ ∪ {58, IBLOCK d Mkfs.sb, x, y} : Finset ℕ).card ≤ 4 := by
      rw [empty_union]
      exact card_le_four
    have hn1 : files v.disk i = some n := hd1 ▸ hl1.node
    have hlinked : 1 ≤ n.nlink := by
      simpa only [decide_eq_false_iff_not,Int16.not_lt] using hn
    have hempty := hb (by simpa using hbf)
    refine inode_seq ?_
    rw [(Opened.of_loaded hl2 hp2.core).type]
    rw [add_comm] at hp2
    refine bind (whenever (fun ht => ?_) fun ht => ?_)
    · have ht' : n.type = T_DIR := by simpa using ht
      refine addLink hod2 (hp2.budget hs.log (hs.budget.mono (by omega))) fun v3 he3 _ => ?_
      have hp3 := hp2.edit he3 hod2.loaded
      have hA3 := card_union_le_add hA2 (le_of_eq (card_singleton (IBLOCK d Mkfs.sb)))
      refine unlink_finish hs hp3 hA3 (he3.loaded hl2 hne) (he3.opened hod2) hne hkd
        fun v' hp' => hdone n x y v' hn1 hne hlinked hempty ?_
      rw [unlinkedDir,if_pos ht']
      rw [Function.update_idem] at hp'
      refine hp'.mono (unlinked_blocks (union_subset (by simp) (by simp)))
    · have ht' : n.type ≠ T_DIR := by simpa using ht
      refine unlink_finish hs hp2 (by omega) hl2 hod2 hne hkd
        fun v' hp' => hdone n x y v' hn1 hne hlinked hempty ?_
      rw [unlinkedDir,if_neg ht']
      exact hp'.mono (unlinked_blocks (by simp))

/-- `unlink` removes a name, or leaves everything as it was. -/
theorem Safe.unlinkBody {path : List UInt8} (hs : Starts E v₀) (hq0 : Quiet v₀)
    (hstart : HasStart E v₀ p path)
    (hself : ∀ d name nd j, ParentAt v₀ p path d name → files v₀.disk d = some nd →
      nd.lookup name = some j → (nd.entry j).inum.toNat = d → ∀ k, E (.blocked (.inode k) p))
    (hnlink : E (.fail .unlinkNlink)) (hread : E (.fail .isdiremptyReadi))
    (hfail : ∀ v', Walk v₀ v' 0 → Q (-1) v' (held p ∅))
    (hdone : ∀ d name nd j i n x y v', UnlinkedAt v₀ p path d name nd j i n →
      Progress v₀ v' (update (update (files v₀.disk) d (some (unlinkedDir n.type nd j))) i
        (some { n with nlink := n.nlink + -1 })) 0 {58, IBLOCK i Mkfs.sb, IBLOCK d Mkfs.sb, x, y} →
      Q 0 v' (held p ∅)) :
    Safe p E (Fs.unlinkBody p path) Q v₀ (held p ∅) := by
  refine nameiparent_lock hs.core hs.tree (hs.slots.mono (by omega)) hs.log hstart
    (fun _ v' hw _ _ => pure (hfail v' hw))
    fun kd d name nd s v1 hw1 hl1 hdir hst hpath => ?_
  have hnd0 : files v₀.disk d = some nd := hw1.files_some hl1.node
  have hd1 : v1.disk = v₀.disk := by rw [hw1.quiet hq0]
  refine bind (ilock_loaded hw1.core hl1 (notMem_empty kd) ?_)
  rw [show insert kd (∅ : Finset ℕ) = {kd} from rfl]
  -- the directory is given back
  have hback : Safe p E (do Fs.iunlockput kd; return -1) Q v1 (held p {kd}) :=
    bind (iunlockput_last hw1 hs.core hl1.holds (.inl hq0) fun v' hw' _ _ => pure (hfail v' hw'))
  refine ite (fun _ => hback) fun hdots => ?_
  have ho1 := Opened.of_loaded hl1 hw1.core
  refine bind (dirlookup ho1 (mem_singleton_self kd) (fun hc => absurd hdir hc)
    (hs.tree.aligned d nd hnd0 hdir)
    (fun j _ => (hs.slots.walk_one hs.core hw1).not_full Nat.two_pos hw1.core) (fun _ _ => hback)
    fun _ j k ip hj hg => ?_)
  obtain ⟨hjlt,⟨hlive,-⟩,-⟩ := Node.lookup_eq_some.mp hj
  have hrange := hs.tree.range d nd j hnd0 hdir hjlt hlive
  have hw2 := hg.walk hw1.core hrange
  have hw2' := hw1.trans hw2 hs.core (one_nonneg d)
  have hld2 : Loaded (v1.setSlot k ip) kd d nd := hl1.walk hw2 rfl
  have hparent : ParentAt v₀ p path d name := ⟨s,hst,hpath hq0⟩
  refine unlinkEntry hs hw2' hg.holds hld2 hdir hjlt (fun h0 => ?_)
    (fun hid => hself d name nd j hparent hnd0 hj hid kd) hnlink hread hfail
    fun n x y v' hn hne hlinked hempty hp' => ?_
  · -- what is named by an entry is not free
    refine hs.tree.alloc.elim id fun hq => absurd h0 ?_
    have hal := hq.2 d nd j hnd0 hdir hjlt hlive
    rwa [← hd1,ne_eq,files_eq_none] at hal
  · refine hdone d name nd j _ n x y v'
      ⟨hparent,hdots,hnd0,hdir,hj,rfl,?_,hne,hlinked,hempty⟩ hp'
    rw [← hd1]
    exact hn

end Unlink
end Fs
end Xv6
