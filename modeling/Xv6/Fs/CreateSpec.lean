import Xv6.Fs.Starts

/-! # What `create` does -/
namespace Xv6
open Conc Mkfs Function
open Dirent (sizeof)
open Finset

theorem card_union_le_add {A B : Finset ℕ} {m n : ℕ} (hA : A.card ≤ m) (hB : B.card ≤ n) :
    (A ∪ B).card ≤ m + n :=
  (card_union_le A B).trans (Nat.add_le_add hA hB)

def newInode (type major minor : Int16) : Node :=
  { blankNode type with major := major, minor := minor, nlink := 1 }

/-- The inode `i` that `create` makes in the directory `d`. -/
def createdNode (type major minor : Int16) (i d : ℕ) : Node :=
  if type = T_DIR then ((newInode type major minor).setEntry 0 (Dirent.named dot i)).setEntry 1
    (Dirent.named dotdot d)
  else newInode type major minor

/-- The directory `nd` after `create` has entered inode `i` of type `type`. -/
def createdDir (type : Int16) (nd : Node) (name : Name) (i : ℕ) : Node :=
  (if type = T_DIR then { nd with nlink := nd.nlink + 1 } else nd).setEntry nd.table.free
    (Dirent.named name i)

/-- Where `create` makes the inode `i`: under a new name in the directory `d`, which is `nd`. -/
structure CreatedAt (v₀ : View) (p : ℕ) (path : List UInt8) (i d : ℕ) (name : Name) (nd : Node) :
    Prop where
  path : Quiet v₀ → ∃ s, Fs.StartsAt v₀ p path s ∧
    walkPath (files v₀.disk) true s (components path) = some (d,name)
  node : Quiet v₀ → files v₀.disk d = some nd
  type : nd.type = T_DIR
  new : nd.lookup name = none
  free : Quiet v₀ → files v₀.disk i = none
  pos : 0 < i
  lt : i < NINODES
  ne : i ≠ d

namespace Fs
section Create
variable {p : ℕ} {E : Stops} {v₀ v : View} {path : List UInt8}
  {type major minor : Int16}

theorem Safe.nameiparent_lock {α : Type} {Q : Post α}
    {f : Option (ℕ × Name) → Fs α} (hc : Core v₀) (ht : Tree E v₀) (hno : Slots E 2 v₀)
    (hlog : Quiet v₀ ∨ ∀ e, E (.fail (.log e))) (hstart : HasStart E v₀ p path)
    (hnone : ∀ s v', Walk v₀ v' 0 → StartsAt v₀ p path s →
      (Quiet v₀ → walkPath (files v₀.disk) true s (components path) = none) →
      Safe p E (f none) Q v' (held p ∅))
    (hsome : ∀ k d name n s v', Walk v₀ v' (one d) → Loaded v' k d n → n.type = T_DIR →
      StartsAt v₀ p path s →
      (Quiet v₀ → walkPath (files v₀.disk) true s (components path) = some (d,name)) →
      Safe p E (f (some (k,name))) Q v' (held p ∅)) :
    Safe p E (Fs.nameiparent p path >>= f) Q v₀ (held p ∅) := by
  refine bind (namex hc ht hno hlog hstart fun s r v' hst hr => ?_)
  cases r with
  | none => exact hnone s v' (hr.fail rfl).1 hst (hr.fail rfl).2
  | some kn =>
    obtain ⟨d,hw,-,hd,hpath⟩ := hr.found kn.1 kn.2 rfl
    obtain ⟨n,hl,ht⟩ := hd rfl
    exact hsome kn.1 d kn.2 n s v' hw hl ht hst hpath

theorem Safe.ilock_loaded {Q : Post Unit} {S : Finset ℕ} {k i : ℕ}
    {n : Node} (hc : Core v) (hl : Loaded v k i n) (hS : k ∉ S)
    (hq : Q () v (held p (insert k S))) : Safe p E (Fs.ilock k) Q v (held p S) := by
  refine ilock hc.ready (by rw [hl.holds.inum]; exact hc.inum k i hl.holds) hl.holds.ref
    (held_notMem hS) (fun _ _ => rfl) (fun hv => ?_) (fun _ => ?_) fun hv => ?_
  · rw [hl.valid] at hv
    cases hv
  · rw [held_insert]
    exact hq
  · rw [hl.valid] at hv
    cases hv

/-- The entries "." and ".." of a new directory. -/
theorem Safe.createDots {Q : Post Unit} {fs : ℕ → Option Node}
    {δ : ℕ → ℤ} {A S : Finset ℕ} {k i kd d m : ℕ} {n nd : Node} (hs : Starts E v₀)
    (hres : ∀ e : Panic, e.resource = true → E (.fail e))
    (hp : Progress v₀ v fs δ A) (hA : A.card ≤ m) (hm : m ≤ 2) (hl : Loaded v k i n)
    (hld : Loaded v kd d nd) (hS : k ∈ S) (hne : i ≠ d) (hpos : 0 < i) (h0 : n.size = 0)
    (hd : n.type = T_DIR)
    (hq : ∀ x y x' y' v', Progress v₀ v' (update (update fs d (some { nd with nlink := nd.nlink + 1 }))
        i (some ((n.setEntry 0 (Dirent.named dot i)).setEntry 1 (Dirent.named dotdot d)))) δ
        (A ∪ {IBLOCK d sb} ∪ {58, IBLOCK i sb, x, y} ∪ {58, IBLOCK i sb, x', y'}) →
      Loaded v' k i ((n.setEntry 0 (Dirent.named dot i)).setEntry 1 (Dirent.named dotdot d)) →
      Loaded v' kd d { nd with nlink := nd.nlink + 1 } → Q () v' (held p S)) :
    Safe p E (Fs.createDots p k kd) Q v (held p S) := by
  have hal : n.size % sizeof = 0 := by rw [h0]; rfl
  have hcard : ∀ {B : Finset ℕ} {l : ℕ}, B.card ≤ l → l ≤ 8 → Budget E (4 + B.card) v₀ :=
    fun hB hl => hs.budget.mono (by omega)
  refine bind (addLink (Opened.of_loaded hld hp.core)
    ((hp.budget hs.log (hcard hA (by omega))).mono (by omega)) fun v1 he1 _ => ?_)
  have hp1 := hp.edit he1 hld
  have hA1 := card_union_le_add hA (le_of_eq (card_singleton (IBLOCK d sb)))
  have hl1 := he1.loaded hl hne
  have hld1 := he1.opened (Opened.of_loaded hld hp.core)
  have ho1 := Opened.of_loaded hl1 hp1.core
  refine inode_seq ?_
  rw [ho1.holds.inum]
  refine bind (dirlink ho1 hS hd (fun hc => absurd hal hc) (fun _ _ _ => hres _ rfl)
    (fun j _ _ hj => ?_) (fun j _ _ hj => ?_)
    (fun _ hc => absurd hc (by rw [Node.free_of_empty h0]; decide))
    (fun _ => hp1.budget hs.log (hcard hA1 (by omega))) (fun _ => .inl (hres _ rfl))
    fun _ x y v2 he2 => ?_)
  · rw [Node.lookup_of_empty h0] at hj
    cases hj
  · rw [Node.lookup_of_empty h0] at hj
    cases hj
  rw [Node.free_of_empty h0] at he2
  have hi : i < 65536 := by
    have := ho1.inum_lt
    have hN : NINODES = 200 := rfl
    omega
  obtain ⟨-,hfree2,hnone2⟩ := Node.with_dot h0 hpos hi
  have hp2 := hp1.edit he2 ho1.loaded
  have hA2 := card_union_le_add hA1 (card_le_four (a := 58) (b := IBLOCK i sb) (c := x)
    (d := y))
  have ho2 := he2.opened ho1
  have hld2 := he2.loaded hld1.loaded hne.symm
  refine bind (panicIf (fun hc => absurd hc (by decide)) fun _ => ?_)
  refine inode_seq ?_
  rw [hld2.holds.inum]
  refine bind (dirlink ho2 hS hd (fun hc => absurd (Node.aligned_setEntry hal) hc)
    (fun _ _ _ => hres _ rfl) (fun j _ _ hj => ?_) (fun j _ _ hj => ?_)
    (fun _ hc => absurd hc (by rw [hfree2]; decide))
    (fun _ => hp2.budget hs.log (hcard hA2 (by omega))) (fun _ => .inl (hres _ rfl))
    fun _ x' y' v3 he3 => ?_)
  · rw [hnone2] at hj
    cases hj
  · rw [hnone2] at hj
    cases hj
  rw [hfree2] at he3
  have hp3 := hp2.edit he3 ho2.loaded
  rw [update_idem] at hp3
  refine panicIf (fun hc => absurd hc (by decide)) fun _ => ?_
  exact hq x y x' y' v3 hp3 (he3.opened ho2).loaded (he3.loaded hld2 hne.symm)

/-- The end of `create`: the name is entered into the directory, which is given back. -/
theorem Safe.create_enter {Q : Post (Option ℕ)} {fs : ℕ → Option Node}
    {A : Finset ℕ} {k i kd d : ℕ} {name : Name} {n nd : Node} (hs : Starts E v₀)
    (hp : Progress v₀ v fs (one i + one d) A) (hA : A.card ≤ 11) (hl : Loaded v k i n)
    (hld : Loaded v kd d nd) (hne : i ≠ d) (hkd : k ≠ kd) (hd : nd.type = T_DIR)
    (hres : ∀ e : Panic, e.resource = true → E (.fail e))
    (hal : nd.size % sizeof ≠ 0 → E (.fail .dirlookupRead) ∧ E (.fail .dirlinkRead))
    (hmax : MAXFILE * BSIZE < nd.table.free * sizeof + sizeof → E (.fail .dirlink))
    (hnew : nd.lookup name = none)
    (hq : ∀ x y v', Progress v₀ v' (update fs d (some (nd.setEntry nd.table.free
        (Dirent.named name i)))) (one i)
        (A ∪ {58, IBLOCK d sb, x, y} ∪ {58, IBLOCK d sb}) → Loaded v' k i n →
      Q (some k) v' (held p {k})) :
    Safe p E (do
      let r ← Fs.dirlink p kd name (← Fs.inode k).inum
      Fs.panicIf (decide (r < 0)) .createDirlink
      Fs.iunlockput kd
      return some k) Q v (held p {k, kd}) := by
  have hod := Opened.of_loaded hld hp.core
  have hmem : kd ∈ ({k, kd} : Finset ℕ) := by simp
  refine inode_seq ?_
  rw [hl.holds.inum]
  refine bind (dirlink hod hmem hd
    hal (fun _ _ _ => hres _ rfl) (fun j _ _ hj => ?_) (fun j _ _ hj => ?_) (fun _ => hmax)
    (fun _ => hp.budget hs.log (hs.budget.mono (by omega))) (fun _ => .inl (hres _ rfl))
    fun _ x y v1 he => ?_)
  · rw [hnew] at hj
    cases hj
  · rw [hnew] at hj
    cases hj
  have hp1 := hp.edit he hod.loaded
  have hA1 := card_union_le_add hA (card_le_four (a := 58) (b := IBLOCK d sb) (c := x)
    (d := y))
  have hod1 := he.opened hod
  have hl1 := he.loaded hl hne
  refine bind (panicIf (fun hc => absurd hc (by decide)) fun _ => ?_)
  refine bind (iunlockput_progress hp1 hs.core (one_nonneg i) hod1.holds hod1.valid hmem
    (hp1.budget hs.log (hs.budget.mono (by omega))) fun v' hp' hload => pure ?_)
  have herase : ({k, kd} : Finset ℕ).erase kd = {k} := by
    rw [pair_comm,erase_insert (by simpa using hkd.symm)]
  rw [herase]
  exact hq x y v' hp' (hload k i n hl1 hne)

/-- The blocks that `create` logs for a file with its inode in block `a`, in a directory with its
inode in block `b`. -/
theorem created_blocks (a b x y : ℕ) : ∅ ∪ {a} ∪ {a} ∪ {58, b, x, y} ∪ {58, b}
    ⊆ ({58, a, b, x, y, x, y, x, y} : Finset ℕ) := by
  intro c hc
  simp only [mem_union,mem_insert,mem_singleton,notMem_empty,
    false_or] at hc ⊢
  omega

theorem createdDir_blocks (a b x y x' y' x'' y'' : ℕ) : ∅ ∪ {a} ∪ {a} ∪ {b} ∪ {58, a, x, y}
    ∪ {58, a, x', y'} ∪ {58, b, x'', y''} ∪ {58, b}
    ⊆ ({58, a, b, x, y, x', y', x'', y''} : Finset ℕ) := by
  intro c hc
  simp only [mem_union,mem_insert,mem_singleton,notMem_empty,
    false_or] at hc ⊢
  omega

/-- `create` returns a file that is there, or makes an inode under a new name. -/
theorem Safe.create {Q : Post (Option ℕ)} (hs : Starts E v₀)
    (hres : ∀ e : Panic, e.resource = true → E (.fail e))
    (htype : type ≠ 0) (hstart : HasStart E v₀ p path)
    (hroom : ∀ i d name nd, CreatedAt v₀ p path i d name nd →
      MAXFILE * BSIZE < nd.table.free * sizeof + sizeof → E (.fail .dirlink))
    (hnone : ∀ v', Walk v₀ v' 0 → Q none v' (held p ∅))
    (hthere : ∀ k i n v', type = T_FILE → Walk v₀ v' (one i) → Loaded v' k i n →
      n.type = T_FILE → Q (some k) v' (held p {k}))
    (hnew : ∀ k i d name nd x y x' y' x'' y'' v', CreatedAt v₀ p path i d name nd →
      Progress v₀ v' (update (update (files v₀.disk) i (some (createdNode type major minor i d))) d
        (some (createdDir type nd name i))) (one i)
        {58, IBLOCK i sb, IBLOCK d sb, x, y, x', y', x'', y''} →
      Loaded v' k i (createdNode type major minor i d) → Q (some k) v' (held p {k})) :
    Safe p E (Fs.create p path type major minor) Q v₀ (held p ∅) := by
  refine nameiparent_lock hs.core hs.tree (hs.slots.mono (by omega)) hs.log hstart
    (fun _ v' hw _ _ => pure (hnone v' hw))
    fun kd d name nd s v1 hw1 hl1 hdir hst hpath => ?_
  have hnode0 : files v₀.disk d = some nd := hw1.files_some hl1.node
  refine bind (ilock_loaded hw1.core hl1 (notMem_empty kd) ?_)
  rw [show insert kd (∅ : Finset ℕ) = {kd} from rfl]
  have ho1 := Opened.of_loaded hl1 hw1.core
  refine bind (dirlookup ho1 (mem_singleton_self kd) (fun hc => absurd hdir hc)
    (hs.tree.aligned d nd hnode0 hdir) (fun _ _ _ => hres _ rfl) (fun _ hlook => ?_)
    fun _ j k ip hj hg => ?_)
  · -- a new inode
    have hp1 := Progress.of_walk hs.core hw1 (one_nonneg d)
    have hex1 : Quiet v₀ → files v1.disk = files v₀.disk := fun hq => by rw [hw1.quiet hq]
    refine bind (ialloc hw1.core htype ((hp1.budget hs.log
      (hs.budget.mono (by simp))).mono le_rfl) (hres _ rfl) (hres _ rfl) fun i k ip v2 ha hg => ?_)
    have hne : i ≠ d := by
      rintro rfl
      have := hl1.node
      rw [ha.free] at this
      cases this
    have hc2 := ha.core hw1.core
    have hw2 := hg.walk hc2 ha.lt
    have hp2 := hp1.ialloc hex1 (fun hq => by rw [← hex1 hq]; exact ha.free) ha hg
    have hld2 : Loaded (v2.setSlot k ip) kd d nd := (ha.loaded hl1).walk hw2 rfl
    have hkd : k ≠ kd := by
      rintro rfl
      exact hne (by rw [← hg.holds.inum,hld2.holds.inum])
    have hblank : files (v2.setSlot k ip).disk i = some (blankNode type) := by
      change files v2.disk i = _
      rw [ha.files,update_self]
    refine bind (ilock_core hp2.core hg.holds (by simpa using hkd) (fun h0 => ?_)
      fun v3 n hw3 hv3 hl3 => ?_)
    · rw [← files_eq_none,hblank] at h0
      cases h0
    obtain rfl : n = blankNode type := by
      have := hl3.node
      rw [hv3] at this
      rw [hblank] at this
      exact (Option.some.inj this).symm
    have hp3 := hp2.load hw3 hv3
    have hld3 : Loaded v3 kd d nd := hld2.walk hw3 (by rw [hv3])
    have hA3 : (∅ ∪ {IBLOCK i sb} : Finset ℕ).card ≤ 1 := by simp
    refine iupdate_fields_seq (m := newInode type major minor)
      (f := fun di => { di with major := major, minor := minor, nlink := 1 })
      (Opened.of_loaded hl3 hp3.core) (hp3.budget hs.log (hs.budget.mono (by omega)))
      (fun di => ⟨rfl,rfl,rfl⟩) (fun di dk hdk => ?_) fun v4 he4 => ?_
    · unfold newInode
      rw [← hdk]
      rfl
    have hp4 := hp3.edit he4 hl3
    have hA4 := card_union_le_add hA3 (le_of_eq (card_singleton (IBLOCK i sb)))
    have hl4 := (he4.opened (Opened.of_loaded hl3 hp3.core)).loaded
    have hld4 := he4.loaded hld3 hne.symm
    have hat : CreatedAt v₀ p path i d name nd :=
      ⟨fun hq => ⟨s,hst,hpath hq⟩,fun _ => hnode0,hdir,hlook,
        fun hq => by rw [← hex1 hq]; exact ha.free,ha.pos,ha.lt,hne⟩
    have hal : nd.size % sizeof ≠ 0 → E (.fail .dirlookupRead) ∧ E (.fail .dirlinkRead) :=
      fun hc => ⟨hs.tree.aligned d nd hnode0 hdir hc,hs.even d nd hnode0 hdir hc⟩
    have hmax := hroom i d name nd hat
    rw [add_comm (one d)] at hp4
    refine bind (whenever (fun ht => ?_) fun ht => ?_)
    · have ht' : type = T_DIR := by simpa using ht
      refine createDots hs hres hp4 hA4 le_rfl hl4 hld4 (by simp) hne ha.pos rfl ht'
        fun x y x' y' v5 hp5 hl5 hld5 => ?_
      refine create_enter hs hp5 ?_ hl5 hld5 hne hkd hdir hres hal hmax hlook
        fun x'' y'' v' hp' hl' => ?_
      · exact card_union_le_add (card_union_le_add (card_union_le_add hA4
          (le_of_eq (card_singleton _))) card_le_four) card_le_four
      · refine hnew k i d name nd x y x' y' x'' y'' v' hat ?_ ?_
        · rw [createdNode,createdDir,if_pos ht',if_pos ht']
          convert hp'.mono (createdDir_blocks _ _ x y x' y' x'' y'') using 1
          · funext a
            by_cases hd : a = d
            · rw [hd,update_self,update_self]
              rfl
            · by_cases hi : a = i
              · simp only [hi,ne_eq,hne,not_false_eq_true,update_of_ne,
                  update_self]
              · simp only [ne_eq,hd,hi,not_false_eq_true,update_of_ne]
        · rw [createdNode,if_pos ht']
          exact hl'
    · have ht' : type ≠ T_DIR := by simpa using ht
      refine create_enter hs hp4 (hA4.trans (by omega)) hl4 hld4 hne hkd hdir hres hal hmax hlook
        fun x y v' hp' hl' => hnew k i d name nd x y x y x y v' hat ?_ ?_
      · rw [createdNode,createdDir,if_neg ht',if_neg ht']
        rw [update_idem] at hp'
        exact hp'.mono (created_blocks _ _ x y)
      · rw [createdNode,if_neg ht']
        exact hl'
  · -- the name is there
    obtain ⟨hjlt,⟨hlive,-⟩,-⟩ := Node.lookup_eq_some.mp hj
    have hw2 := hg.walk hw1.core (hs.tree.range d nd j hnode0 hdir hjlt hlive)
    have hw2' := hw1.trans hw2 hs.core (one_nonneg d)
    rw [add_comm] at hw2'
    refine bind (iunlockput_other hw2' hs.core (hw2.keep kd d hl1.holds) hg.holds
      (mem_singleton_self kd) hs.log fun v3 hw3 hk3 => ?_)
    rw [erase_singleton]
    refine bind (ilock_core hw3.core hk3 (notMem_empty k) (fun h0 => ?_)
      fun v4 n hw4 hv4 hl4 => ?_)
    · refine hs.tree.alloc.elim id fun hq => ?_
      have hal := hq.2 d nd j hnode0 hdir hjlt hlive
      have hdisk : v3.disk = v₀.disk := by rw [hw3.quiet hq.1]
      rw [← hdisk,ne_eq,files_eq_none] at hal
      exact absurd h0 hal
    rw [show insert k (∅ : Finset ℕ) = {k} from rfl]
    have hw4' : Walk v₀ v4 (one (nd.entry j).inum.toNat) := by
      have := hw3.trans hw4 hs.core (one_nonneg _)
      rwa [add_zero] at this
    refine inode_seq ?_
    rw [(Opened.of_loaded hl4 hw4.core).type]
    refine ite (fun ht => pure (hthere k _ n v4 ht.1 hw4' hl4 ht.2)) fun _ => ?_
    exact bind (iunlockput_last hw4' hs.core hl4.holds (hs.log.imp_right .inl)
      fun v' hw' _ _ => pure (hnone v' hw'))

end Create
end Fs
end Xv6
