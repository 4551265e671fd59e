import Xv6.Fs.DirSpec

/-! # A directory is a finite map

Any history of `dirlink` and of removals of entries, on a directory that the process
has locked. -/
namespace Xv6
open Conc Node
open Function (update)
open Dirent (sizeof)
open List

namespace Fs

/-- The part of `sys_unlink` that takes the entry of a name out of the locked directory
`dp`. -/
def removeEntry (p dp : ℕ) (name : Name) : Fs ℤ := do
  if strncmp DIRSIZ (cstr name) (cstr dot) = 0 ∨
      strncmp DIRSIZ (cstr name) (cstr dotdot) = 0 then return -1
  else
    match ← dirlookup p dp name with
    | none => return -1
    | some (_,off) =>
      writeDirent dp off Dirent.zero .unlinkWritei
      return 0

end Fs

inductive DirOp where
  | link (name : Name) (inum : ℕ)
  | remove (name : Name)

namespace DirOp

def name : DirOp → Name
  | link name _ => name
  | remove name => name

/-- The name as it is stored. -/
def key (op : DirOp) : Bytes DIRSIZ := nameKey (cstr op.name)

def exec (p dp : ℕ) : DirOp → Fs ℤ
  | link name inum => Fs.dirlink p dp name inum
  | remove name => Fs.removeEntry p dp name

/-- The entry with this name is taken out if it is there. -/
def Removes (op : DirOp) (x : Bytes DIRSIZ) : Prop :=
  op = remove op.name ∧ op.key = x ∧ x ≠ nameKey (cstr dot) ∧ x ≠ nameKey (cstr dotdot)

def step (op : DirOp) (m : Bytes DIRSIZ → Option ℕ) : ℤ × (Bytes DIRSIZ → Option ℕ) :=
  match op with
  | link name inum =>
    if m (nameKey (cstr name)) = none then (0,update m (nameKey (cstr name)) (some inum))
    else (-1,m)
  | remove name =>
    if nameKey (cstr name) = nameKey (cstr dot) ∨ nameKey (cstr name) = nameKey (cstr dotdot) ∨
        m (nameKey (cstr name)) = none then (-1,m)
    else (0,update m (nameKey (cstr name)) none)

def steps : List DirOp → (Bytes DIRSIZ → Option ℕ) → List ℤ × (Bytes DIRSIZ → Option ℕ)
  | [], m => ([],m)
  | op :: ops, m => ((op.step m).1 :: (steps ops (op.step m).2).1,(steps ops (op.step m).2).2)

end DirOp

section Nodes
variable {n : Node} {name : Name} {inum j : ℕ} {op : DirOp}

/-- What an operation makes of the directory `n`. -/
structure DirOp.Did (op : DirOp) (n n' : Node) : Prop where
  type : n'.type = n.type
  aligned : n'.size % sizeof = 0
  unique : n'.table.Unique
  get : n'.table.get = (op.step n.table.get).2
  kept : ∀ j, j < n.count → (n.entry j).inum ≠ 0 → ¬ op.Removes (nameKey (n.entry j).name.byte) →
    j < n'.count ∧ n'.entry j = n.entry j
  added : ∀ name inum, op = link name inum → n.lookup name = none →
    n' = n.setEntry n.table.free (Dirent.named name inum)

theorem DirOp.Did.same (ha : n.size % sizeof = 0) (hu : n.table.Unique)
    (h : op.step n.table.get = (-1,n.table.get)) : op.Did n n := by
  refine ⟨rfl,ha,hu,by rw [h],fun _ hj _ _ => ⟨hj,rfl⟩,?_⟩
  rintro name inum rfl hnone
  rw [step,if_pos (SlotTable.get_eq_none.mpr hnone)] at h
  cases h

theorem lookup_isSome : n.lookup name = none ↔ n.table.get (nameKey (cstr name)) = none :=
  SlotTable.get_eq_none.symm

theorem DirOp.did_link (ha : n.size % sizeof = 0) (hu : n.table.Unique)
    (h0 : 0 < inum) (hlt : inum < 65536) (hnone : n.lookup name = none) :
    (link name inum).Did n (n.setEntry n.table.free (Dirent.named name inum)) := by
  obtain ⟨hin,hne⟩ := Dirent.named_live name h0 hlt
  have ht : (n.setEntry n.table.free (Dirent.named name inum)).table
      = n.table.insert (nameKey (cstr name)) inum := by
    rw [table_setEntry,if_neg hne,hin,Dirent.named_key]
    rfl
  refine ⟨rfl,aligned_setEntry ha,?_,?_,fun j hj hlive _ => ?_,?_⟩
  · rw [ht]
    exact hu.insert hnone
  · rw [ht,hu.get_insert hnone,step,if_pos (lookup_isSome.mp hnone)]
  · have hjf : j ≠ n.table.free := by
      rintro rfl
      exact hlive (slot_table_none.mp (SlotTable.slot_free hj))
    rw [count_setEntry,entry_setEntry_ne hjf]
    exact ⟨lt_of_lt_of_le hj (le_max_left _ _),rfl⟩
  · rintro name' inum' ⟨rfl,rfl⟩ _
    rfl

theorem DirOp.did_remove (ha : n.size % sizeof = 0) (hu : n.table.Unique)
    (hdot : nameKey (cstr name) ≠ nameKey (cstr dot))
    (hdd : nameKey (cstr name) ≠ nameKey (cstr dotdot)) (hj : n.lookup name = some j) :
    (remove name).Did n (n.setEntry j Dirent.zero) := by
  have hfind : n.table.find (nameKey (cstr name)) = some j := hj
  obtain ⟨hlt,hk,-⟩ := SlotTable.find_eq_some.mp hfind
  have hlt' : j < n.count := hlt
  have ht : (n.setEntry j Dirent.zero).table = n.table.put j none := by
    rw [table_setEntry]
    rfl
  have hget : n.table.get (nameKey (cstr name)) ≠ none := by
    rw [ne_eq,SlotTable.get_eq_none,hfind]
    simp
  refine ⟨rfl,aligned_setEntry ha,?_,?_,fun m hm hlive hr => ?_,nofun⟩
  · rw [ht]
    exact hu.remove hlt
  · rw [ht,hu.get_remove hfind,step,if_neg]
    rintro (hc | hc | hc)
    · exact hdot hc
    · exact hdd hc
    · exact hget hc
  · have hmj : m ≠ j := by
      rintro rfl
      obtain ⟨-,hname⟩ := holds_table.mp hk
      rw [namecmp_eq_zero] at hname
      rw [← hname] at hr
      exact hr ⟨rfl,rfl,hdot,hdd⟩
    rw [count_setEntry,entry_setEntry_ne hmj]
    exact ⟨lt_of_lt_of_le hm (le_max_left _ _),rfl⟩

end Nodes

/-- Nothing but unused slots of the inode cache differs. -/
structure Unchanged (v v' : View) : Prop where
  rest : v' = { v with inode := v'.inode }
  slot : ∀ k, v'.inode k = v.inode k ∨ ((v.inode k).ref = 0 ∧ (v'.inode k).ref = 0)

theorem Unchanged.refl (v : View) : Unchanged v v := ⟨rfl,fun _ => .inl rfl⟩

theorem Unchanged.slot_eq {v v' : View} {k a : ℕ} (h : Unchanged v v') (hk : Holds v k a) :
    v'.inode k = v.inode k := by
  rcases h.slot k with h1 | ⟨h1,-⟩
  · exact h1
  · have := hk.ref
    omega

theorem Unchanged.holds_iff {v v' : View} {k a : ℕ} (h : Unchanged v v') :
    Holds v' k a ↔ Holds v k a := by
  rcases h.slot k with h1 | ⟨h1,h2⟩
  · constructor
    · rintro ⟨h3,h4,h5⟩
      exact ⟨h3,h1 ▸ h4,h1 ▸ h5⟩
    · rintro ⟨h3,h4,h5⟩
      exact ⟨h3,h1 ▸ h4,h1 ▸ h5⟩
  · refine iff_of_false (fun hc => ?_) fun hc => ?_
    · have := hc.ref
      omega
    · have := hc.ref
      omega

theorem Fs.Got.unchanged {v : View} {k a : ℕ} {ip : Inode} (h : Fs.Got v a k ip) :
    Unchanged v ((v.setSlot k ip).unref k) := by
  refine ⟨rfl,fun j => ?_⟩
  by_cases hj : j = k
  · subst hj
    rw [View.unref,setSlot_self,setSlot_self]
    rcases h.was with ⟨-,rfl⟩ | ⟨-,h0,-,rfl⟩
    · left
      rw [add_neg_cancel_right]
    · exact .inr ⟨h0,rfl⟩
  · left
    rw [View.unref,setSlot_ne hj,setSlot_ne hj]

/-- Process `p` has locked the slots `S`, one of them the directory `n`, which is inode
`i` in slot `k`. -/
structure DirAt (p : ℕ) (S : Finset ℕ) (k i : ℕ) (n : Node) (v : View) (o : Lock → Option ℕ) :
    Prop where
  opened : Opened v k i n
  locks : o = held p S
  mem : k ∈ S
  /-- no inode has two slots -/
  uniq : ∀ j j' a, Holds v j a → Holds v j' a → j = j'
  inUse : ∀ j ∈ S, ∃ a, Holds v j a
  type : n.type = T_DIR
  aligned : n.size % sizeof = 0
  unique : n.table.Unique

namespace DirAt
variable {p : ℕ} {S : Finset ℕ} {k i : ℕ} {n n' : Node} {v v' : View} {o : Owners}

theorem unchanged (h : DirAt p S k i n v o) (hu : Unchanged v v') : DirAt p S k i n v' o := by
  have ho := h.opened
  have hs := hu.slot_eq ho.holds
  have hrest := hu.rest
  have hopen : Opened v' k i n := by
    refine ⟨?_,?_,hu.holds_iff.mpr ho.holds,hs ▸ ho.valid,?_,?_⟩
    · rw [hrest]
      exact ⟨ho.ready.sb,ho.ready.block,ho.ready.log⟩
    · rw [hrest]
      exact ho.sound
    · rw [hs,hrest]
      exact ho.copy
    · rw [hrest]
      exact ho.node
  refine ⟨hopen,h.locks,h.mem,?_,?_,h.type,h.aligned,h.unique⟩
  · intro j j' a hj hj'
    exact h.uniq j j' a (hu.holds_iff.mp hj) (hu.holds_iff.mp hj')
  · intro j hj
    obtain ⟨a,ha⟩ := h.inUse j hj
    exact ⟨a,hu.holds_iff.mpr ha⟩

theorem got {a j : ℕ} {ip : Inode} (h : DirAt p S k i n v o) (hg : Fs.Got v a j ip) :
    DirAt p S k i n (v.setSlot j ip) o := by
  refine ⟨h.opened.got hg,h.locks,h.mem,?_,?_,h.type,h.aligned,h.unique⟩
  · -- the slot is in use already, or no slot is in use for the inode
    have hold : ∀ l b, Holds (v.setSlot j ip) l b → Holds v l b ∨ (l = j ∧ b = a ∧
        ∀ m, ¬ Holds v m a) := by
      intro l b hl
      by_cases hlj : l = j
      · subst hlj
        obtain rfl : b = a := by rw [← hl.inum,hg.holds.inum]
        rcases hg.was with ⟨hk,-⟩ | ⟨-,-,hno,-⟩
        · exact .inl hk
        · exact .inr ⟨rfl,rfl,hno⟩
      · exact .inl ((holds_setSlot_ne hlj).mp hl)
    intro l l' b hl hl'
    rcases hold l b hl with h1 | ⟨h1,h2,h3⟩
    · rcases hold l' b hl' with h4 | ⟨-,h5,h6⟩
      · exact h.uniq l l' b h1 h4
      · exact absurd (h5 ▸ h1) (h6 l)
    · rcases hold l' b hl' with h4 | ⟨h4,-⟩
      · exact absurd (h2 ▸ h4) (h3 l')
      · rw [h1,h4]
  · intro l hl
    obtain ⟨b,hb⟩ := h.inUse l hl
    exact ⟨b,(hg.keep hb).1⟩

theorem edit {A : Finset ℕ} (h : DirAt p S k i n v o) (he : Edit A v k i n' v')
    (ht : n'.type = n.type) (ha : n'.size % sizeof = 0) (hu : n'.table.Unique) :
    DirAt p S k i n' v' o := by
  refine ⟨he.opened h.opened,h.locks,h.mem,?_,?_,ht.trans h.type,ha,hu⟩
  · intro j j' a hj hj'
    exact h.uniq j j' a (he.holds_iff.mp hj) (he.holds_iff.mp hj')
  · intro j hj
    obtain ⟨a,ha⟩ := h.inUse j hj
    exact ⟨a,he.holds_iff.mpr ha⟩

end DirAt

namespace DirOp

/-- The numbers that are linked fit into an entry and are not 0. -/
def InRange : DirOp → Prop
  | link _ inum => 0 < inum ∧ inum < 65536
  | remove _ => True

/-- There is a slot for the inode that the name stands for, and for a new name there is
place in the directory, in the log and on the disk. -/
structure HasRoom (op : DirOp) (v : View) (i : ℕ) (n : Node) : Prop where
  slot : ∀ j, n.lookup op.name = some j → ¬ Fs.CacheFull v (n.entry j).inum.toNat
  size : op ≠ remove op.name → n.lookup op.name = none →
    n.table.free * sizeof + sizeof ≤ MAXFILE * BSIZE
  blocks : op ≠ remove op.name → n.lookup op.name = none →
    Fs.entryNeeds v.disk i n.table.free ≤ freeCount v.disk
  log : 1 ≤ v.log.outstanding ∧ v.log.n + 5 < LOGSIZE

/-- The process that links a name that is there has not locked the inode that the name
stands for. -/
def Unlocked (op : DirOp) (S : Finset ℕ) (v : View) (n : Node) : Prop :=
  op ≠ remove op.name → ∀ j, n.lookup op.name = some j → ∀ k ∈ S,
    ¬ Holds v k (n.entry j).inum.toNat

end DirOp

namespace Fs
section Steps
variable {p : ℕ} {E : Stops} {S : Finset ℕ} {k i : ℕ} {n : Node} {v : View}
  {name : Name} {inum : ℕ}

/-- How an operation changes the state. -/
structure Does (op : DirOp) (p : ℕ) (S : Finset ℕ) (k i : ℕ) (n : Node) (v : View) (r : ℤ) (n' : Node)
    (v' : View) (o' : Lock → Option ℕ) : Prop where
  result : r = (op.step n.table.get).1
  did : op.Did n n'
  dirAt : DirAt p S k i n' v' o'
  /-- nothing changes when the operation fails -/
  failed : r = -1 → Unchanged v v' ∧ n' = n
  other : ∀ a, a ≠ i → files v'.disk a = files v.disk a

theorem Safe.dirlink_map (h : DirAt p S k i n v (held p S))
    (hin : (DirOp.link name inum).InRange) (hroom : (DirOp.link name inum).HasRoom v i n)
    (hblock : ∀ k' ∈ S, ∀ j, n.lookup name = some j → Holds v k' (n.entry j).inum.toNat →
      E (.blocked (.inode k') p)) :
    Safe p E (Fs.dirlink p k name inum)
      (fun r v' o' => ∃ n', Does (.link name inum) p S k i n v r n' v' o') v (held p S) := by
  have hnr : DirOp.link name inum ≠ .remove (DirOp.link name inum).name := nofun
  refine dirlink h.opened h.mem h.type (fun hc => absurd h.aligned hc)
    (fun j hj hc => absurd hc (hroom.slot j hj)) ?_ ?_ ?_ ?_ ?_ ?_
  · intro j k' ip hj hg hk'
    rcases hg.was with ⟨hh,-⟩ | ⟨hno,-⟩
    · exact hblock k' hk' j hj hh
    · obtain ⟨a,ha⟩ := h.inUse k' hk'
      exact absurd ha (hno a)
  · intro j k' ip hj hg _
    have hstep : (DirOp.link name inum).step n.table.get = (-1,n.table.get) := by
      refine if_neg fun hc => ?_
      rw [← lookup_isSome,hj] at hc
      cases hc
    refine ⟨n,by rw [hstep],.same h.aligned h.unique hstep,h.unchanged hg.unchanged,
      fun _ => ⟨hg.unchanged,rfl⟩,fun a _ => rfl⟩
  · intro hnone hc
    exact absurd (hroom.size hnr hnone) (by omega)
  · intro _
    exact .inr hroom.log
  · intro hnone
    exact .inr (hroom.blocks hnr hnone)
  · intro hnone x y v' he
    have hdid := DirOp.did_link h.aligned h.unique hin.1 hin.2 hnone
    have hstep : ((DirOp.link name inum).step n.table.get).1 = 0 := by
      rw [DirOp.step,if_pos (lookup_isSome.mp hnone)]
    refine ⟨_,hstep.symm,hdid,h.edit he hdid.type hdid.aligned hdid.unique,fun hc => ?_,
      fun a ha => he.node_ne ha⟩
    exact absurd hc (by decide)

theorem Safe.removeEntry_map (h : DirAt p S k i n v (held p S))
    (hroom : (DirOp.remove name).HasRoom v i n) :
    Safe p E (Fs.removeEntry p k name)
      (fun r v' o' => ∃ n', Does (.remove name) p S k i n v r n' v' o') v (held p S) := by
  have hfail : ((DirOp.remove name).step n.table.get) = (-1,n.table.get) →
      Does (.remove name) p S k i n v (-1) n v (held p S) := fun hstep =>
    ⟨by rw [hstep],.same h.aligned h.unique hstep,h,fun _ => ⟨.refl v,rfl⟩,
      fun _ _ => rfl⟩
  refine ite (fun hdot => pure ⟨n,hfail ?_⟩) fun hdot => ?_
  · rw [strncmp_eq_zero_iff,strncmp_eq_zero_iff] at hdot
    exact if_pos (hdot.imp_right .inl)
  rw [strncmp_eq_zero_iff,strncmp_eq_zero_iff,not_or] at hdot
  refine bind (dirlookup h.opened h.mem (fun hc => absurd h.type hc)
    (fun hc => absurd h.aligned hc) (fun j hj hc => absurd hc (hroom.slot j hj))
    (fun _ hnone => pure ⟨n,hfail ?_⟩) fun _ j k' ip hj hg => ?_)
  · exact if_pos (.inr (.inr (lookup_isSome.mp hnone)))
  have hg' := h.got hg
  have hjlt := (lookup_eq_some.mp hj).1
  have hdid := DirOp.did_remove h.aligned h.unique hdot.1 hdot.2 hj
  have hsize := hg'.opened.size_le
  have hlt := entry_lt_of_lt hjlt
  refine bind (writeDirent hg'.opened h.mem h.type hjlt.le (fun hc => ?_)
    (.inr hroom.log) (.inr ?_) fun x y v' he => pure ⟨_,?_,hdid,?_,fun hc => ?_,?_⟩)
  · have ha := h.aligned
    have hM : MAXFILE * BSIZE = 71680 := rfl
    have h16 : sizeof = 16 := rfl
    rw [h16] at hc hlt ha
    omega
  · rw [entryNeeds_eq_zero hg'.opened hjlt]
    exact Nat.zero_le _
  · rw [DirOp.step,if_neg]
    rintro (hc | hc | hc)
    · exact hdot.1 hc
    · exact hdot.2 hc
    · rw [← lookup_isSome,hj] at hc
      cases hc
  · exact hg'.edit he hdid.type hdid.aligned hdid.unique
  · exact absurd hc (by decide)
  · intro a ha
    exact he.node_ne ha

/-- A process that links a name whose inode it has locked waits for itself. -/
theorem Safe.dirlink_blocked {k' j : ℕ} (inum : ℕ) (h : DirAt p S k i n v (held p S))
    (hslot : ¬ CacheFull v (n.entry j).inum.toNat) (hj : n.lookup name = some j) (hk' : k' ∈ S)
    (hh : Holds v k' (n.entry j).inum.toNat) :
    Safe p (fun e => e = .blocked (.inode k') p) (Fs.dirlink p k name inum)
      (fun _ _ _ => False) v (held p S) := by
  have hthe : ∀ {j' : ℕ}, n.lookup name = some j' → j' = j := fun hj' => by
    rw [hj] at hj'
    exact (Option.some.inj hj').symm
  have hgot : ∀ {l : ℕ} {ip : Inode}, Got v (n.entry j).inum.toNat l ip → l = k' := by
    intro l ip hg
    rcases hg.was with ⟨hl,-⟩ | ⟨-,-,hno,-⟩
    · exact h.uniq l k' _ hl hh
    · exact absurd hh (hno k')
  refine dirlink h.opened h.mem h.type (fun hc => absurd h.aligned hc) ?_ ?_ ?_
    (fun hc => by rw [hj] at hc; cases hc) (fun hc => by rw [hj] at hc; cases hc)
    (fun hc => by rw [hj] at hc; cases hc) fun hc => by rw [hj] at hc; cases hc
  · intro j' hj' hfull
    rw [hthe hj'] at hfull
    exact absurd hfull hslot
  · intro j' l ip hj' hg _
    rw [hthe hj'] at hg
    rw [hgot hg]
  · intro j' l ip hj' hg hl
    rw [hthe hj'] at hg
    rw [hgot hg] at hl
    exact hl hk'

end Steps

section Runs
variable {p : ℕ} {S : Finset ℕ} {k i : ℕ} {n : Node} {c c' c'' : KCfg}

/-- An operation that has room and does not wait for its own process returns what the
map says. -/
theorem exec_returns {op : DirOp} (h : DirAt p S k i n c.st.view c.owner) (hin : op.InRange)
    (hroom : op.HasRoom c.st.view i n) (hun : op.Unlocked S c.st.view n) :
    ∃ r c' n', run p (op.exec p k) c = .ok (r,c') ∧
      Does op p S k i n c.st.view r n' c'.st.view c'.owner := by
  have hl := h.locks
  rw [hl] at h
  have hsafe : Safe p (fun _ => False) (op.exec p k)
      (fun r v' o' => ∃ n', Does op p S k i n c.st.view r n' v' o') c.st.view c.owner := by
    rw [hl]
    cases op with
    | link name inum =>
      refine Safe.dirlink_map h hin hroom fun k' hk' j hj hh => ?_
      exact hun nofun j hj k' hk' hh
    | remove name => exact Safe.removeEntry_map h hroom
  obtain ⟨r,c',hrun,n',hn'⟩ := Safe.returns hsafe
  exact ⟨r,c',n',hrun,hn'⟩

/-- A history of a directory: operations that have room and do not wait for their own
process, and anything that the rest of the system does and that leaves the directory
locked and as it is. -/
inductive DirRun (p : ℕ) (S : Finset ℕ) (k i : ℕ) : KCfg → List DirOp → List ℤ → KCfg → Prop
  | done (c : KCfg) : DirRun p S k i c [] [] c
  | op {c c' c'' : KCfg} {n : Node} {op : DirOp} {ops : List DirOp} {r : ℤ} {rs : List ℤ}
      (hn : files c.st.content i = some n) (hin : op.InRange) (hroom : op.HasRoom c.st.view i n)
      (hun : op.Unlocked S c.st.view n) (hrun : run p (op.exec p k) c = .ok (r,c'))
      (rest : DirRun p S k i c' ops rs c'') : DirRun p S k i c (op :: ops) (r :: rs) c''
  | other {c c' c'' : KCfg} {n : Node} {ops : List DirOp} {rs : List ℤ}
      (h : DirAt p S k i n c.st.view c.owner) (h' : DirAt p S k i n c'.st.view c'.owner)
      (rest : DirRun p S k i c' ops rs c'') : DirRun p S k i c ops rs c''

theorem DirAt.node_eq {m : Node} (h : DirAt p S k i n c.st.view c.owner)
    (hm : files c.st.content i = some m) : m = n := by
  have := h.opened.node
  change files c.st.content i = some n at this
  rw [hm] at this
  exact Option.some.inj this

theorem DirRun.steps {ops : List DirOp} {rs : List ℤ} (hrun : DirRun p S k i c ops rs c')
    (h : DirAt p S k i n c.st.view c.owner) : ∃ n', DirAt p S k i n' c'.st.view c'.owner ∧
      (rs,n'.table.get) = DirOp.steps ops n.table.get ∧
      ∀ j, j < n.count → (n.entry j).inum ≠ 0 →
        (∀ op ∈ ops, ¬ op.Removes (nameKey (n.entry j).name.byte)) →
        j < n'.count ∧ n'.entry j = n.entry j := by
  induction hrun generalizing n with
  | done c => exact ⟨n,h,rfl,fun _ hj _ _ => ⟨hj,rfl⟩⟩
  | op hn hin hroom hun hrun rest ih =>
    obtain rfl := DirAt.node_eq h hn
    obtain ⟨r,c1,n1,hrun1,hd⟩ := exec_returns h hin hroom hun
    rw [hrun] at hrun1
    obtain ⟨rfl,rfl⟩ := Prod.ext_iff.mp (Except.ok.inj hrun1)
    obtain ⟨n',hat,hsteps,hkept⟩ := ih hd.dirAt
    refine ⟨n',hat,?_,fun j hj hlive hno => ?_⟩
    · rw [hd.did.get] at hsteps
      rw [DirOp.steps,← hsteps]
      exact Prod.ext (congrArg (· :: _) hd.result) rfl
    · obtain ⟨h1,h2⟩ := hd.did.kept j hj hlive (hno _ mem_cons_self)
      obtain ⟨h3,h4⟩ := hkept j h1 (h2 ▸ hlive) fun op' hop' =>
        h2 ▸ hno op' (mem_cons_of_mem _ hop')
      exact ⟨h3,h4.trans h2⟩
  | other h₁ h₂ rest ih =>
    obtain rfl := DirAt.node_eq h h₁.opened.node
    exact ih h₂

theorem DirRun.cons_inv {op : DirOp} {ops : List DirOp} {rs : List ℤ}
    (hrun : DirRun p S k i c (op :: ops) rs c') (h : DirAt p S k i n c.st.view c.owner) :
    op.InRange ∧ ∃ c1 n1 rs', op.Did n n1 ∧ DirAt p S k i n1 c1.st.view c1.owner ∧
      DirRun p S k i c1 ops rs' c' := by
  generalize hl : op :: ops = l at hrun
  induction hrun generalizing n with
  | done c => cases hl
  | op hn hin hroom hun hrun rest ih =>
    obtain ⟨rfl,rfl⟩ := cons_eq_cons.mp hl
    obtain rfl := DirAt.node_eq h hn
    obtain ⟨r,c1,n1,hrun1,hd⟩ := exec_returns h hin hroom hun
    rw [hrun] at hrun1
    obtain ⟨rfl,rfl⟩ := Prod.ext_iff.mp (Except.ok.inj hrun1)
    exact ⟨hin,_,n1,_,hd.did,hd.dirAt,rest⟩
  | other h1 h2 rest ih =>
    obtain rfl := DirAt.node_eq h h1.opened.node
    exact ih h2 hl

/-- A directory that `create` has made keeps the entries "." and "..". -/
theorem DirRun.dots {a b : ℕ} {ops : List DirOp} {rs : List ℤ}
    (hrun : DirRun p S k i c (.link dot a :: .link dotdot b :: ops) rs c')
    (h : DirAt p S k i n c.st.view c.owner) (h0 : n.size = 0) :
    ∃ n', DirAt p S k i n' c'.st.view c'.owner ∧ 2 ≤ n'.count ∧
      n'.entry 0 = Dirent.named dot a ∧ n'.entry 1 = Dirent.named dotdot b := by
  obtain ⟨ha,c1,n1,rs1,hd1,h1,hrun1⟩ := hrun.cons_inv h
  have hn1 := hd1.added dot a rfl (lookup_of_empty h0 dot)
  rw [free_of_empty h0] at hn1
  obtain ⟨-,halive⟩ := Dirent.named_live dot ha.1 ha.2
  obtain ⟨hcount1,hfree1,hnone1⟩ := with_dot h0 ha.1 ha.2
  rw [← hn1] at hcount1 hfree1 hnone1
  obtain ⟨hb,c2,n2,rs2,hd2,h2,hrun2⟩ := hrun1.cons_inv h1
  obtain ⟨-,hblive⟩ := Dirent.named_live dotdot hb.1 hb.2
  have hn2 := hd2.added dotdot b rfl hnone1
  rw [hfree1] at hn2
  have hcount2 : n2.count = 2 := by
    rw [hn2,count_setEntry,hcount1]
    rfl
  have hentry2 : n2.entry 0 = Dirent.named dot a := by
    rw [hn2,entry_setEntry_ne (by decide),hn1,entry_setEntry_self]
  have hentry2' : n2.entry 1 = Dirent.named dotdot b := by rw [hn2,entry_setEntry_self]
  -- no operation removes these two names
  obtain ⟨n',h',-,hkept⟩ := hrun2.steps h2
  obtain ⟨-,he⟩ := hkept 0 (by omega) (by rw [hentry2]; exact halive) fun op _ hr => by
    rw [hentry2,Dirent.named_key] at hr
    exact hr.2.2.1 rfl
  obtain ⟨hlt,he'⟩ := hkept 1 (by omega) (by rw [hentry2']; exact hblive) fun op _ hr => by
    rw [hentry2',Dirent.named_key] at hr
    exact hr.2.2.2 rfl
  exact ⟨n',h',hlt,he.trans hentry2,he'.trans hentry2'⟩

/-- `dirlookup` of a name returns what the map of the directory says: the inode, and the
offset of the entry. -/
theorem dirlookup_returns {name : Name} (h : DirAt p S k i n c.st.view c.owner)
    (hroom : ∀ j, n.lookup name = some j → ¬ CacheFull c.st.view (n.entry j).inum.toNat) :
    ∃ r c', run p (Fs.dirlookup p k name) c = .ok (r,c') ∧
      (n.table.get (nameKey (cstr name)) = none → r = none ∧ c'.st.view = c.st.view) ∧
      ∀ inum, n.table.get (nameKey (cstr name)) = some inum → ∃ k' j,
        r = some (k',j * sizeof) ∧ Holds c'.st.view k' inum ∧ j < n.count ∧
          n.table.slot j = some (nameKey (cstr name),inum) := by
  have hsafe : Safe p (fun _ => False) (Fs.dirlookup p k name) (fun r v' _ =>
      (n.table.get (nameKey (cstr name)) = none → r = none ∧ v' = c.st.view) ∧
      ∀ inum, n.table.get (nameKey (cstr name)) = some inum → ∃ k' j,
        r = some (k',j * sizeof) ∧ Holds v' k' inum ∧ j < n.count ∧
          n.table.slot j = some (nameKey (cstr name),inum)) c.st.view c.owner := by
    rw [h.locks]
    refine Safe.dirlookup h.opened h.mem (fun hc => absurd h.type hc)
      (fun hc => absurd h.aligned hc) (fun j hj hc => absurd hc (hroom j hj)) (fun _ hnone => ?_)
      fun _ j k' ip hj hg => ?_
    · rw [lookup_isSome] at hnone
      refine ⟨fun _ => ⟨rfl,rfl⟩,fun inum hc => ?_⟩
      rw [hnone] at hc
      cases hc
    · obtain ⟨hslot,hget⟩ := get_of_lookup hj
      rw [hget]
      refine ⟨nofun,?_⟩
      rintro _ ⟨rfl⟩
      exact ⟨k',j,rfl,hg.holds,(lookup_eq_some.mp hj).1,hslot⟩
  exact Safe.returns hsafe

/-- A directory behaves as a finite map, as long as no process links a name whose inode
it has locked itself: such a process waits for ever. -/
theorem directory_finiteMap (h : DirAt p S k i n c.st.view c.owner) :
    (∀ op : DirOp, op.InRange → op.HasRoom c.st.view i n →
      (op.Unlocked S c.st.view n → ∃ r c' n', run p (op.exec p k) c = .ok (r,c') ∧
        Does op p S k i n c.st.view r n' c'.st.view c'.owner) ∧
      (¬ op.Unlocked S c.st.view n →
        ∃ k' ∈ S, run p (op.exec p k) c = .error (.blocked (.inode k') p))) ∧
    ∀ ops rs c', DirRun p S k i c ops rs c' → ∃ n', DirAt p S k i n' c'.st.view c'.owner ∧
      (rs,n'.table.get) = DirOp.steps ops n.table.get ∧
      (∀ name, (∀ j, n'.lookup name = some j → ¬ CacheFull c'.st.view (n'.entry j).inum.toNat) →
        ∃ r c'', run p (Fs.dirlookup p k name) c' = .ok (r,c'') ∧
          (n'.table.get (nameKey (cstr name)) = none → r = none ∧ c''.st.view = c'.st.view) ∧
          ∀ inum, n'.table.get (nameKey (cstr name)) = some inum → ∃ k' j,
            r = some (k',j * sizeof) ∧ Holds c''.st.view k' inum ∧ j < n'.count ∧
              n'.table.slot j = some (nameKey (cstr name),inum)) ∧
      (∀ j, j < n.count → (n.entry j).inum ≠ 0 →
        (∀ op ∈ ops, ¬ op.Removes (nameKey (n.entry j).name.byte)) →
        j < n'.count ∧ n'.entry j = n.entry j) ∧
      (n.size = 0 → ∀ a b ops', ops = .link dot a :: .link dotdot b :: ops' →
        2 ≤ n'.count ∧ n'.entry 0 = Dirent.named dot a ∧
          n'.entry 1 = Dirent.named dotdot b) := by
  refine ⟨fun op hin hroom => ⟨exec_returns h hin hroom,fun hun => ?_⟩,fun ops rs c' hrun => ?_⟩
  · unfold DirOp.Unlocked at hun
    push Not at hun
    obtain ⟨hlink,j,hj,k',hk',hh⟩ := hun
    refine ⟨k',hk',?_⟩
    cases op with
    | remove name => exact absurd rfl hlink
    | link name inum =>
      have hl := h.locks
      rw [hl] at h
      have hsafe := Safe.dirlink_blocked inum h (hroom.slot j hj) hj hk' hh c rfl hl
      cases hr : run p (Fs.dirlink p k name inum) c with
      | ok ac => exact (hsafe.of_run_ok hr).elim
      | error e =>
        change run p (Fs.dirlink p k name inum) c = _
        rw [hr,hsafe.of_run_error hr]
  · obtain ⟨n',h',hsteps,hkept⟩ := hrun.steps h
    refine ⟨n',h',hsteps,fun name => dirlookup_returns h',hkept,fun h0 a b ops' hops => ?_⟩
    subst hops
    obtain ⟨m,hm,hdots⟩ := hrun.dots h h0
    obtain rfl := DirAt.node_eq h' hm.opened.node
    exact hdots

end Runs

def oneDir : Mkfs.Image := (Mkfs.ialloc T_DIR Mkfs.blank).2

/-- Process 0 has the directory locked, in a transaction. -/
def oneDirLocked : KCfg where
  st :=
    { disk := .ofFun oneDir.full
      cache := .ofFun fun _ => none
      writes := []
      sb := Mkfs.sb
      log := ⟨Mkfs.logstart,Mkfs.nlog,1,false,[]⟩
      inode := .ofFun fun k => if k = 0 then ⟨1,1,true,inodeAt oneDir.full 1⟩ else default
      file := .ofFun fun _ => default
      proc := .ofFun fun _ => default
      input := [] }
  held := [(.inode 0,0)]

/-- The directory is given the entry "." that `create` writes.  A second `dirlink` of "."
does not return -1: `iput` waits for the lock that its caller holds. -/
theorem dirlink_dot_waits : run 0 (do
      let r ← Fs.dirlink 0 0 dot 1
      Fs.panicIf (r != 0) .createDots
      Fs.dirlink 0 0 dot 5) oneDirLocked = .error (.blocked (.inode 0) 0) :=
  eq_error_of_stop? (by decide +kernel)

theorem dirAt_oneDirLocked : DirAt 0 {0} 0 1 (Mkfs.newNode T_DIR) oneDirLocked.st.view
    oneDirLocked.owner := by
  have hok := ok_one (t := T_DIR) (by decide)
  have hh : Holds oneDirLocked.st.view 0 1 := ⟨by decide,Int.one_pos,rfl⟩
  have honly : ∀ j a, Holds oneDirLocked.st.view j a → j = 0 := by
    intro j a hj
    by_contra h0
    have href := hj.ref
    change 0 < (if j = 0 then (⟨1,1,true,inodeAt oneDir.full 1⟩ : Inode) else default).ref at href
    rw [if_neg h0] at href
    exact absurd href (Int.lt_irrefl 0)
  refine ⟨⟨⟨rfl,hok.1.superblock,rfl,rfl,by decide,show 0 + 0 < Mkfs.nlog by decide,nofun,
    nofun⟩,hok.1.sound,hh,rfl,rfl,hok.2⟩,?_,Finset.mem_singleton_self 0,?_,?_,rfl,rfl,?_⟩
  · funext l
    cases l with
    | inode j =>
      by_cases hj : j = 0
      · subst hj
        rfl
      · rw [held_notMem (by simpa using hj)]
        simp [oneDirLocked,Cfg.owner,Ne.symm hj]
    | buf b => rfl
  · intro j j' a hj hj'
    rw [honly j a hj,honly j' a hj']
  · intro j hj
    rw [Finset.mem_singleton.mp hj]
    exact ⟨1,hh⟩
  · intro j j' x hj
    exact absurd hj (Nat.not_lt_zero j)

/-- A name is linked in the empty directory. -/
theorem directory_finiteMap_oneDir : ∃ c', run 0 (Fs.dirlink 0 0 [97] 5) oneDirLocked = .ok (0,c') := by
  have hnone : (Mkfs.newNode T_DIR).lookup [97] = none :=
    lookup_eq_none.mpr fun j hj => absurd hj (Nat.not_lt_zero j)
  have hroom : (DirOp.link [97] 5).HasRoom oneDirLocked.st.view 1 (Mkfs.newNode T_DIR) :=
    ⟨fun j hj => absurd (hnone ▸ hj) (by simp),fun _ _ => by decide,
      fun _ _ => (needs_one _ _).trans freeCount_one,by decide⟩
  obtain ⟨h,-⟩ := directory_finiteMap dirAt_oneDirLocked
  obtain ⟨r,c',n',hrun,hd⟩ := (h (.link [97] 5) ⟨by decide,by decide⟩ hroom).1
    fun _ j hj => absurd (hnone ▸ hj) (by simp)
  have hr : r = 0 := by
    rw [hd.result,DirOp.step,if_pos (lookup_isSome.mp hnone)]
  exact ⟨c',hr ▸ hrun⟩

end Fs
end Xv6
