import Xv6.Sys.Runs

/-! # Full directories

A new name goes into the first free entry of its directory, or behind the last one.  What
happens when neither is possible. -/
namespace Xv6
open Conc Option Function
open Dirent (sizeof)
open List

/-- There is a free entry, or the file can grow by one. -/
def Node.HasRoom (n : Node) : Prop :=
  (∃ j, j < n.count ∧ (n.entry j).inum = 0) ∨ n.size + sizeof ≤ MAXFILE * BSIZE

theorem Node.HasRoom.free_lt {n : Node} (h : n.HasRoom) (hn : n.size ≤ MAXFILE * BSIZE) :
    ¬ MAXFILE * BSIZE < n.table.free * sizeof + sizeof := by
  have h16 : sizeof = 16 := rfl
  rcases h with ⟨j,hj,h0⟩ | hsize
  · have hle := SlotTable.free_le_of_none (t := n.table) hj (slot_table_none.mpr h0)
    unfold count at hj
    rw [h16] at *
    omega
  · have hle : n.table.free ≤ n.count := n.table.free_le
    unfold count at hle
    rw [h16] at *
    omega

/-- A call that may make a name. -/
inductive AddCall where
  | link (old new : Option (List UInt8))
  | mkdir (path : Option (List UInt8))
  | mknod (path : Option (List UInt8)) (major minor : ℤ)
  | opens (path : Option (List UInt8)) (omode : UInt32)

namespace AddCall

def call : AddCall → Call
  | .link old new => .name (.link old new)
  | .mkdir path => .name (.mkdir path)
  | .mknod path major minor => .name (.mknod path major minor)
  | .opens path omode => .opens path omode

def path : AddCall → Option (List UInt8)
  | .link _ new => argstr new
  | .mkdir path | .mknod path _ _ | .opens path _ => argstr path

end AddCall

/-- The files are `fs`, where `path` has been entered into its directory; that is freed
afterwards if it has no link. -/
def Entered (v : View) (p : ℕ) (path : List UInt8) (fs : ℕ → Option Node) : Prop :=
  ∃ d name nd i nd', Fs.ParentAt v p path d name ∧ files v.disk d = some nd ∧
    nd.lookup name = none ∧ nd'.entry nd.table.free = Dirent.named name i ∧
    (∀ j, j ≠ nd.table.free → nd'.entry j = nd.entry j) ∧
    (fs d = some nd' ∨ fs d = none ∧ nd'.nlink = 0)

section Entered
variable {p : ℕ} {v v' : View} {path old : List UInt8} {i d : ℕ} {name : Name} {nd n : Node}

theorem Entered.of_progress {fs : ℕ → Option Node} {δ : ℕ → ℤ} {A : Finset ℕ} {m : Node}
    (hq : Quiet v) (hp : Progress v.begun v' (update fs d (some (m.setEntry nd.table.free
      (Dirent.named name i)))) δ A) (hat : Fs.ParentAt v.begun p path d name)
    (hnd : files v.disk d = some nd) (hnone : nd.lookup name = none)
    (hm : ∀ j, m.entry j = nd.entry j) : Entered v p path (files v'.disk) := by
  obtain ⟨s,hs,hpath⟩ := hat
  refine ⟨d,name,nd,i,_,⟨s,Fs.startsAt_begun.mp hs,hpath⟩,hnd,hnone,
    Node.entry_setEntry_self,fun j hj => (Node.entry_setEntry_ne hj).trans (hm j),?_⟩
  rcases hp.files hq d with h | ⟨h,-,n',hn',h0⟩
  · rw [update_self] at h
    exact .inl h
  · rw [update_self] at hn'
    exact .inr ⟨h,some.inj hn' ▸ h0⟩

theorem Fs.LinkedAt.entered {fs : ℕ → Option Node} {δ : ℕ → ℤ} {A : Finset ℕ} (hq : Quiet v)
    (h : LinkedAt v.begun p old path i n d name nd)
    (hp : Progress v.begun v' (update fs d (some (nd.setEntry nd.table.free
      (Dirent.named name i)))) δ A) : Entered v p path (files v'.disk) :=
  .of_progress hq hp (h.new hq) h.node h.free fun _ => rfl

theorem CreatedAt.entered {type : Int16} {fs : ℕ → Option Node} {δ : ℕ → ℤ} {A : Finset ℕ}
    (hq : Quiet v) (h : CreatedAt v.begun p path i d name nd)
    (hp : Progress v.begun v' (update fs d (some (createdDir type nd name i))) δ A) :
    Entered v p path (files v'.disk) := by
  refine .of_progress hq hp (h.path hq) (h.node hq) h.new fun j => ?_
  split
  · rfl
  · rfl

end Entered

/-- Everything but a full directory may stop the call. -/
def NotFull : Stop Lock Panic → Prop := fun e => e ≠ .fail .dirlink

theorem NotFull.panic {e : Panic} (h : e ≠ .dirlink) : NotFull (.fail e) := by
  intro hc
  injection hc with he
  exact h he

section Starts
variable {p k : ℕ} {v : View}

theorem Stable.starts_notFull (h : Stable v) : Starts NotFull v.begun :=
  .of_panics h.kernel.good.core.begun h.kernel.good.inRange fun _ => NotFull.panic

theorem Stable.hasStart_notFull {path : List UInt8} (h : Stable v) (hp : v.cwd p = some k) :
    Fs.HasStart NotFull v.begun p path :=
  .of_cwd ⟨_,h.holds_cwd hp⟩ (NotFull.panic nofun)

theorem resource_notFull (e : Panic) (h : e.resource = true) : NotFull (.fail e) :=
  NotFull.panic fun hc => by rw [hc] at h; cases h

end Starts

namespace Fs
variable {p k : ℕ} {v : View}

/-- What a call that may make a name does to the files. -/
def Adds (v : View) (p : ℕ) (path : Option (List UInt8)) (v' : View) : Prop :=
  files v'.disk = files v.disk ∨ ∃ q ∈ path, Entered v p q (files v'.disk)

theorem Adds.ended {path : Option (List UInt8)} {v' : View} {d : Disk} (h : Adds v p path v')
    (hc : Core v') (hd : SameData v'.disk d) : Adds v p path (v'.ended d) := by
  have hf : files (v'.ended d).disk = files v'.disk := (hd.sound hc.sound).2
  unfold Adds
  rw [hf]
  exact h

theorem Adds.install {path : Option (List UInt8)} {v' : View} (f fd : ℕ) (h : Adds v p path v') :
    Adds v p path (v'.install p f fd) := h

theorem Safe.adds {α : Type} {x : Fs α} {path : Option (List UInt8)} (h : Stable v)
    (hx : Safe p NotFull x (fun _ v' o' => Core v' ∧ (∃ A, Logs A openLog v'.log) ∧
      o' = held p ∅ ∧ Adds v p path v') v.begun (held p ∅)) :
    Safe p NotFull (Fs.transaction x) (fun _ v' _ => Adds v p path v') v (held p ∅) :=
  operation h.kernel.log (hx.imp fun _ _ _ ⟨hc,hl,ho,ha⟩ =>
    ⟨hc,hl,ho,fun _ hd _ => ha.ended hc hd⟩)

/-- The directories of the names have room. -/
def RoomFor (v : View) (p : ℕ) (path : Option (List UInt8)) : Prop :=
  ∀ q ∈ path, ∀ d name nd, ParentAt v p q d name → files v.disk d = some nd →
    nd.lookup name = none → nd.HasRoom

theorem RoomFor.free_lt {path : Option (List UInt8)} {q : List UInt8} {d : ℕ} {name : Name}
    {nd : Node} (h : RoomFor v p path) (hc : Core v) (hq : q ∈ path)
    (hat : ParentAt v.begun p q d name) (hnd : files v.disk d = some nd)
    (hnone : nd.lookup name = none) :
    ¬ MAXFILE * BSIZE < nd.table.free * sizeof + sizeof := by
  obtain ⟨s,hs,hpath⟩ := hat
  exact (h q hq d name nd ⟨s,startsAt_begun.mp hs,hpath⟩ hnd hnone).free_lt (hc.sound.size_le hnd)

section Calls
variable (h : Stable v)
include h

theorem adds_walk {path : Option (List UInt8)} {v' : View} {δ : ℕ → ℤ}
    (hw : Walk v.begun v' δ) : Adds v p path v' :=
  .inl (by rw [hw.quiet h.kernel.good.begun.quiet]; rfl)

theorem Safe.mknode_adds {path : Option (List UInt8)} {type major minor : Int16}
    (hp : v.cwd p = some k) (hroom : RoomFor v p (argstr path)) (h0 : type ≠ 0)
    (hfile : type ≠ T_FILE) : Safe p NotFull (Fs.mknode p path type major minor)
      (fun _ v' _ => Adds v p (argstr path) v') v (held p ∅) := by
  have hq := h.kernel.good.begun.quiet
  rw [mknode_eq]
  refine adds h ?_
  cases hpath : argstr path with
  | none => exact pure ⟨h.kernel.good.core.begun,⟨∅,.refl⟩,rfl,.inl rfl⟩
  | some q =>
    rw [hpath] at hroom
    refine mknodeBody h.starts_notFull resource_notFull h0 hfile (h.hasStart_notFull hp)
      (fun i d name nd hat hc => ?_) (fun v' hw => ?_)
      fun i d name nd x y x' y' x'' y'' v' hat hp => ?_
    · exact absurd hc (hroom.free_lt h.kernel.good.core rfl (hat.path hq) (hat.node hq) hat.new)
    · exact ⟨hw.core,⟨_,hw.frame.logs⟩,rfl,adds_walk h hw⟩
    · obtain ⟨B,hB⟩ := hp.frame
      exact ⟨hp.core,⟨B,hB.logs⟩,rfl,.inr ⟨q,rfl,hat.entered hq hp⟩⟩

theorem Safe.sysLink_adds {old new : Option (List UInt8)} (hp : v.cwd p = some k)
    (hroom : RoomFor v p (argstr new)) : Safe p NotFull (Fs.sysLink p old new)
      (fun _ v' _ => Adds v p (argstr new) v') v (held p ∅) := by
  have hq := h.kernel.good.begun.quiet
  rw [sysLink_eq]
  cases argstr old with
  | none => exact pure (.inl rfl)
  | some old =>
    cases hnew : argstr new with
    | none => exact pure (.inl rfl)
    | some new =>
      rw [hnew] at hroom
      refine adds h (linkBody h.starts_notFull hq (h.hasStart_notFull hp)
        (h.hasStart_notFull hp) (fun _ _ _ _ _ _ _ _ _ => nofun) (fun i n d name nd hat hc => ?_)
        (fun v' _ hr => ?_) fun i n d name nd x y v' hat hp => ?_)
      · exact absurd hc (hroom.free_lt h.kernel.good.core rfl (hat.new hq) hat.node hat.free)
      · obtain ⟨A,hA⟩ := hr.frame
        exact ⟨hr.core,⟨A,hA.logs⟩,rfl,.inl (hr.files h.kernel.good.begun.core)⟩
      · obtain ⟨B,hB⟩ := hp.frame
        exact ⟨hp.core,⟨B,hB.logs⟩,rfl,.inr ⟨new,rfl,hat.entered hq hp⟩⟩

theorem Safe.sysOpen_adds {path : Option (List UInt8)} {omode : UInt32}
    (hp : v.cwd p = some k) (hroom : RoomFor v p (argstr path)) :
    Safe p NotFull (Fs.sysOpen p path omode) (fun _ v' _ => Adds v p (argstr path) v') v
      (held p ∅) := by
  have hq := h.kernel.good.begun.quiet
  rw [sysOpen_eq]
  cases hpath : argstr path with
  | none => exact pure (.inl rfl)
  | some q =>
    rw [hpath] at hroom
    refine seq (R := fun _ v' _ => Adds v p (some q) v') (operation h.kernel.log
      (openBody h.starts_notFull resource_notFull (h.hasStart_notFull hp)
        h.kernel.files.closed (fun i d name nd hat hc => ?_) (fun v' hw => ?_)
        (fun i d name nd x y x' y' x'' y'' v' _ hat _ hp' => ?_)
        (fun j i n f fd v1 hw hl hmode hff => ?_)
        fun j i d name nd f fd x y x' y' x'' y'' v1 _ hat hff hp' hl => ?_)) fun r v' o' ha => ?_
    · exact absurd hc (hroom.free_lt h.kernel.good.core rfl (hat.path hq) (hat.node hq) hat.new)
    · exact ⟨hw.core,⟨_,hw.frame.logs⟩,rfl,fun d hd _ => (adds_walk h hw).ended hw.core hd⟩
    · obtain ⟨B,hB⟩ := hp'.frame
      have ha : Adds v p (some q) v' := .inr ⟨q,rfl,hat.entered hq hp'⟩
      exact ⟨hp'.core,⟨B,hB.logs⟩,rfl,fun d hd _ => ha.ended hp'.core hd⟩
    · have ha : Adds v p (some q) (v1.install p f fd) := Adds.install f fd (adds_walk h hw)
      exact ⟨hw.core.install,⟨_,hw.frame.logs⟩,rfl,fun d hd _ => ha.ended hw.core.install hd⟩
    · obtain ⟨B,hB⟩ := hp'.frame
      have ha : Adds v p (some q) (v1.install p f fd) :=
        Adds.install f fd (.inr ⟨q,rfl,hat.entered hq hp'⟩)
      exact ⟨hp'.core.install,⟨B,hB.logs⟩,rfl,fun d hd _ => ha.ended hp'.core.install hd⟩
    · cases r with
      | none => exact pure ha
      | some r => exact bind (modifyFile (pure ha))

theorem Safe.add {call : AddCall} (hp : v.cwd p = some k)
    (hroom : RoomFor v p call.path) : Safe p NotFull (call.call.sys p)
      (fun _ v' _ => Adds v p call.path v') v (held p ∅) := by
  have hdrop : ∀ {x : Fs ℤ}, Safe p NotFull x (fun _ v' _ => Adds v p call.path v') v (held p ∅) →
      Safe p NotFull (do let _ ← x; return ()) (fun _ v' _ => Adds v p call.path v') v
        (held p ∅) := fun hx => bind (hx.imp fun _ _ _ h' => pure h')
  cases call with
  | link old new => exact hdrop (sysLink_adds h hp hroom)
  | mkdir path => exact hdrop (mknode_adds h hp hroom (by decide) (by decide))
  | mknod path major minor => exact hdrop (mknode_adds h hp hroom (by decide) (by decide))
  | opens path omode => exact hdrop (sysOpen_adds h hp hroom)

end Calls
end Fs

/-- The names of the entries of a directory that `link` fills up. -/
def entryName : ℕ → Name
  | 0 => dot
  | 1 => dotdot
  | 2 => [102]
  | j + 3 => [UInt8.ofNat (48 + j / 64), UInt8.ofNat (48 + j % 64)]

section Names
variable {j l : ℕ}

theorem key_bytes {s t : Name} (hs : cstr s 0 ≠ 0) (h : nameKey (cstr s) = nameKey (cstr t)) :
    cstr s 0 = cstr t 0 ∧ cstr s 1 = cstr t 1 := by
  have hb : ∀ i, i < DIRSIZ → strncpy (cstr s) i = strncpy (cstr t) i := by
    intro i hi
    have := congrArg (fun b => b.byte i) h
    simpa [nameKey,Bytes.byte_tabulate _ hi] using this
  have h0 : cstr s 0 = cstr t 0 := hb 0 (by decide)
  have h1 := hb 1 (by decide)
  simp only [strncpy] at h1
  rw [if_neg hs,if_neg (h0 ▸ hs)] at h1
  exact ⟨h0,h1⟩

theorem entryName_link (hj : j < 4480) : (cstr (entryName (j + 3)) 0).toNat = 48 + j / 64 ∧
    (cstr (entryName (j + 3)) 1).toNat = 48 + j % 64 :=
  ⟨UInt8.toNat_ofNat_of_lt' (by rw [UInt8.size]; omega),
    UInt8.toNat_ofNat_of_lt' (by rw [UInt8.size]; omega)⟩

theorem entryName_ne_zero (hj : j < 4483) : cstr (entryName j) 0 ≠ 0 := by
  match j with
  | 0 | 1 | 2 => decide
  | j + 3 =>
    have := (entryName_link (j := j) (by omega)).1
    intro hc
    rw [hc] at this
    change 0 = _ at this
    omega

theorem entryName_low (hj : j < 3) : (cstr (entryName j) 1).toNat < 48 := by
  match j with
  | 0 | 1 | 2 => decide

theorem entryName_injective (hj : j < 4483) (hl : l < 4483)
    (h : nameKey (cstr (entryName j)) = nameKey (cstr (entryName l))) : j = l := by
  obtain ⟨h0,h1⟩ := key_bytes (entryName_ne_zero hj) h
  have h0' := congrArg UInt8.toNat h0
  have h1' := congrArg UInt8.toNat h1
  match j, l with
  | 0, 0 | 1, 1 | 2, 2 => rfl
  | 0, 1 | 0, 2 | 1, 0 | 1, 2 | 2, 0 | 2, 1 => exact absurd h (by decide)
  | 0, l + 3 | 1, l + 3 | 2, l + 3 =>
    have hlow := h1' ▸ entryName_low (by omega)
    rw [(entryName_link (j := l) (by omega)).2] at hlow
    omega
  | j + 3, 0 | j + 3, 1 | j + 3, 2 =>
    have hlow := h1'.symm ▸ entryName_low (by omega)
    rw [(entryName_link (j := j) (by omega)).2] at hlow
    omega
  | j + 3, l + 3 =>
    rw [(entryName_link (j := j) (by omega)).1,(entryName_link (j := l) (by omega)).1] at h0'
    rw [(entryName_link (j := j) (by omega)).2,(entryName_link (j := l) (by omega)).2] at h1'
    omega

def entryPath (j : ℕ) : List UInt8 := 47 :: entryName j

theorem mem_entryName {x : UInt8} (hj : j < 4480) (h : x ∈ entryName (j + 3)) : 48 ≤ x.toNat := by
  obtain ⟨h0,h1⟩ := entryName_link hj
  obtain rfl | rfl : x = cstr (entryName (j + 3)) 0 ∨ x = cstr (entryName (j + 3)) 1 := by
    simpa [entryName,cstr] using h
  · omega
  · omega

theorem components_entryPath (hj : j < 4480) :
    components (entryPath (j + 3)) = [entryName (j + 3)] := by
  have hno : ∀ x ∈ entryName (j + 3), (x == 47) = false := by
    intro x hx
    have := mem_entryName hj hx
    rw [beq_eq_false_iff_ne]
    rintro rfl
    exact absurd this (by decide)
  unfold components entryPath
  rw [pathRuns_slash]
  unfold pathRuns List.splitOn
  rw [splitOnP_eq_singleton hno]
  rfl

theorem argstr_entryPath (hj : j < 4480) :
    argstr (some (entryPath (j + 3))) = some (entryPath (j + 3)) := by
  unfold argstr
  rw [map_some,takeWhile_eq_self_iff.mpr]
  intro x hx
  rw [entryPath,mem_cons] at hx
  rcases hx with rfl | hx
  · decide
  · have := mem_entryName hj hx
    rw [bne_iff_ne]
    rintro rfl
    exact absurd this (by decide)

end Names

/-- The inode of an entry: the root for `.` and `..`, and the file `f` for the others. -/
def entryInum (j : ℕ) : ℕ := if j < 2 then 1 else 2

theorem entryInum_pos (j : ℕ) : 0 < entryInum j ∧ entryInum j < 65536 := by
  unfold entryInum
  split <;> omega

/-- A directory with exactly the first `m` entries. -/
structure Node.FilledTo (r : Node) (m : ℕ) : Prop where
  type : r.type = T_DIR
  nlink : r.nlink = 1
  aligned : r.size % sizeof = 0
  count : m ≤ r.count
  entry : ∀ j, j < m → r.entry j = Dirent.named (entryName j) (entryInum j)
  empty : ∀ j, m ≤ j → (r.entry j).inum = 0

namespace Node.FilledTo
variable {r : Node} {m j : ℕ}
variable (h : r.FilledTo m)
include h

theorem live : (r.entry j).inum ≠ 0 ↔ j < m := by
  constructor
  · intro hne
    by_contra hj
    exact hne (h.empty j (by omega))
  · intro hj
    rw [h.entry j hj]
    exact (Dirent.named_live _ (entryInum_pos j).1 (entryInum_pos j).2).2

theorem inum (hj : j < m) : (r.entry j).inum.toNat = entryInum j := by
  rw [h.entry j hj]
  exact (Dirent.named_live _ (entryInum_pos j).1 (entryInum_pos j).2).1

theorem table_free : r.table.free = m :=
  SlotTable.free_eq h.count (fun _ hj hc => h.live.mpr hj (slot_table_none.mp hc))
    fun _ => slot_table_none.mpr (h.empty m le_rfl)

theorem namecmp_iff (hm : m ≤ 4483) {i : ℕ} (hi : i < 4483) (hj : j < m) :
    namecmp (entryName i) (r.entry j).name = 0 ↔ i = j := by
  rw [namecmp_eq_zero,h.entry j hj,Dirent.named_key]
  exact ⟨entryName_injective hi (by omega),fun h => by rw [h]⟩

theorem lookup_next (hm : m < 4483) : r.lookup (entryName m) = none := by
  rw [lookup_eq_none]
  rintro j - ⟨hlive,hname⟩
  have hj := h.live.mp hlive
  rw [h.namecmp_iff hm.le hm hj] at hname
  omega

theorem get_file (hm : m ≤ 4483) (h3 : 3 ≤ m) :
    r.table.get (nameKey (cstr (entryName 2))) = some 2 := by
  have hl : r.lookup (entryName 2) = some 2 := by
    rw [lookup_eq_some]
    refine ⟨by have := h.count; omega,⟨h.live.mpr (by omega),?_⟩,?_⟩
    · exact (h.namecmp_iff hm (by omega) (by omega)).mpr rfl
    · rintro i hi ⟨-,hname⟩
      rw [h.namecmp_iff hm (by omega) (by omega)] at hname
      omega
  rw [(get_of_lookup hl).2,h.inum (by omega)]
  rfl

theorem hasRoom (hm : m < 4480) : r.HasRoom := by
  have hcount := h.count
  by_cases hlt : m < r.count
  · exact .inl ⟨m,hlt,h.empty m le_rfl⟩
  · right
    have ha := h.aligned
    have hM : MAXFILE * BSIZE = 71680 := rfl
    have h16 : sizeof = 16 := rfl
    rw [Node.count,h16] at hlt hcount
    rw [h16] at ha ⊢
    omega

theorem next (h3 : 2 ≤ m) :
    (r.setEntry m (Dirent.named (entryName m) 2)).FilledTo (m + 1) where
  type := h.type
  nlink := h.nlink
  aligned := aligned_setEntry h.aligned
  count := by
    rw [count_setEntry]
    omega
  entry := by
    intro j hj
    by_cases hjm : j = m
    · have hi : entryInum m = 2 := if_neg (by omega)
      rw [hjm,entry_setEntry_self,hi]
    · rw [entry_setEntry_ne hjm,h.entry j (by omega)]
  empty := by
    intro j hj
    rw [entry_setEntry_ne (by omega)]
    exact h.empty j (by omega)

end Node.FilledTo

/-- The file system after `m` links to the file `f` that the root directory started with. -/
structure Filled (m : ℕ) (v : View) : Prop where
  root : ∃ r, files v.disk 1 = some r ∧ r.FilledTo (m + 3)
  file : ∃ n, files v.disk 2 = some n ∧ n.type = T_FILE ∧ n.nlink = Int16.ofNat (m + 1)
  other : ∀ a, a ≠ 1 → a ≠ 2 → files v.disk a = none
  procs : v.proc = (started sample).st.view.proc
  opens : v.file = (started sample).st.view.file

theorem filled_started : Filled 0 (started sample).st.view where
  root := by
    obtain ⟨r,hr,htype,hlink,hsize,hcount,hentry,hfree⟩ := fresh_sample.root
    refine ⟨r,hr,htype,hlink,hsize,hcount,fun j hj => ?_,hfree⟩
    have he := hentry j hj
    match j with
    | 0 | 1 | 2 => exact some.inj he
  file := by
    obtain ⟨n,hn,htype,hlink⟩ := fresh_sample.file 2 le_rfl (by decide)
    exact ⟨n,hn,htype,hlink⟩
  other := fun a h1 h2 => fresh_sample.other a h1 (by simp only [length_singleton]; omega)
  procs := rfl
  opens := rfl

namespace Filled
variable {m : ℕ} {v v' : View} {E : Stops}
variable (h : Filled m v)
include h

theorem cwd_zero : v.cwd 0 = some 0 := by
  unfold View.cwd
  rw [h.procs]
  rfl

theorem users (k : ℕ) : v.users k = Pointers.hit (some 0) k := by
  rw [← users_started (d := sample)]
  unfold View.users View.fileSlot View.cwd
  rw [h.procs,h.opens]

/-- The only slot in use is that of the working directory. -/
theorem card_usedSlots (hs : Stable v) : (usedSlots v).card ≤ 1 := by
  have hsub : usedSlots v ⊆ {0} := by
    intro k hk
    have hk' := mem_usedSlots.mp hk
    have href := hk'.ref
    rw [hs.kernel.slots.counts k hk'.slot,h.users,Pointers.hit_some] at href
    rw [Finset.mem_singleton]
    by_contra hne
    rw [if_neg hne] at href
    exact absurd href (by decide)
  exact Finset.card_le_card hsub

theorem card_allocated : (allocatedInodes v.disk).card ≤ 2 := by
  have hsub : allocatedInodes v.disk ⊆ {1, 2} := by
    intro a ha
    rw [Finset.mem_insert,Finset.mem_singleton]
    by_contra hc
    exact mem_allocatedInodes.mp ha (h.other a (by tauto) (by tauto))
  exact (Finset.card_le_card hsub).trans Finset.card_le_two

theorem dir {a : ℕ} {n : Node} (hn : files v.disk a = some n)
    (hd : n.type = T_DIR) : a = 1 ∧ n.FilledTo (m + 3) := by
  obtain ⟨r,hr,hf⟩ := h.root
  obtain ⟨n',hn',htype,-⟩ := h.file
  by_cases h1 : a = 1
  · subst h1
    rw [hr] at hn
    exact ⟨rfl,some.inj hn ▸ hf⟩
  · by_cases h2 : a = 2
    · subst h2
      rw [hn'] at hn
      rw [← some.inj hn,htype] at hd
      exact absurd hd (by decide)
    · rw [h.other a h1 h2] at hn
      cases hn

theorem starts (hs : Stable v) : Starts E v.begun where
  core := hs.kernel.good.core.begun
  tree :=
    { aligned := fun _ _ hn hd hc => absurd (h.dir hn hd).2.aligned hc
      range := hs.kernel.good.inRange
      alloc := by
        refine .inr ⟨hs.kernel.good.begun.quiet,fun a n j hn hd _ hlive => ?_⟩
        obtain ⟨-,hf⟩ := h.dir hn hd
        obtain ⟨r,hr,-⟩ := h.root
        obtain ⟨n',hn',-⟩ := h.file
        rw [hf.inum (hf.live.mp hlive)]
        change files v.disk _ ≠ none
        unfold entryInum
        split
        · rw [hr]
          nofun
        · rw [hn']
          nofun }
  even := fun _ _ hn hd hc => absurd (h.dir hn hd).2.aligned hc
  slots := by
    have hcard : (usedSlots v.begun).card ≤ 1 := h.card_usedSlots hs
    have hN : NINODE = 50 := rfl
    exact .inr (by omega)
  spare := by
    have hcard : (allocatedInodes v.begun.disk).card ≤ 2 := h.card_allocated
    exact .inr (by omega)
  log := .inl hs.kernel.good.begun.quiet
  budget := .inr ⟨le_rfl,show 0 + 20 + 1 < LOGSIZE by decide⟩

theorem hasStart (j : ℕ) : Fs.HasStart E v.begun 0 (entryPath j) where
  start := ⟨ROOTINO,rfl⟩
  alloc := by
    rintro a rfl
    obtain ⟨r,hr,-⟩ := h.root
    right
    change files v.disk 1 ≠ none
    rw [hr]
    nofun

theorem parent (hm : m < 4480) :
    walkPath (files v.disk) true ROOTINO (components (entryPath (m + 3)))
      = some (1,entryName (m + 3)) := by
  obtain ⟨r,hr,hf⟩ := h.root
  have hr' : files v.disk ROOTINO = some r := hr
  rw [components_entryPath hm,walkPath,hr']
  dsimp only
  rw [if_neg (not_not.mpr hf.type),if_pos ⟨rfl,rfl⟩]
  rfl

theorem old (hm : m < 4480) :
    walkPath (files v.disk) false ROOTINO (components (entryPath 2)) = some (2,[]) := by
  obtain ⟨r,hr,hf⟩ := h.root
  have hr' : files v.disk ROOTINO = some r := hr
  have hc : components (entryPath 2) = [entryName 2] := by decide
  rw [hc,walkPath,hr']
  dsimp only
  rw [if_neg (not_not.mpr hf.type),if_neg (by simp),hf.get_file (by omega) (by omega)]
  rfl

end Filled

section Fill
variable {m : ℕ} {v v' : View} {E : Stops} {i d : ℕ} {name : Name} {n nd : Node}

theorem Filled.linkedAt (h : Filled m v) (hm : m < 4480) :
    ∃ n nd, Fs.LinkedAt v.begun 0 (entryPath 2) (entryPath (m + 3)) 2 n 1 (entryName (m + 3)) nd := by
  obtain ⟨r,hr,hf⟩ := h.root
  obtain ⟨n,hn,htype,-⟩ := h.file
  refine ⟨n,r,fun _ => ⟨ROOTINO,rfl,h.old hm⟩,fun _ => ⟨ROOTINO,rfl,h.parent hm⟩,hn,?_,hr,
    hf.type,hf.lookup_next (by omega)⟩
  rw [htype]
  decide

theorem Filled.parent_eq (h : Filled m v) (hm : m < 4480)
    (hat : Fs.ParentAt v.begun 0 (entryPath (m + 3)) d name) : d = 1 ∧ name = entryName (m + 3) := by
  obtain ⟨t,ht,hpath⟩ := hat
  obtain rfl : t = ROOTINO := ht
  have heq : some (1,entryName (m + 3)) = some (d,name) := (h.parent hm).symm.trans hpath
  cases heq
  exact ⟨rfl,rfl⟩

theorem Filled.linked_eq (h : Filled m v) (hm : m < 4480) (hq : Quiet v.begun)
    (hat : Fs.LinkedAt v.begun 0 (entryPath 2) (entryPath (m + 3)) i n d name nd) :
    i = 2 ∧ d = 1 ∧ name = entryName (m + 3) := by
  obtain ⟨s,hs,hold⟩ := hat.old hq
  obtain rfl : s = ROOTINO := hs
  have heq : some ((2,[]) : ℕ × Name) = some (i,[]) := (h.old hm).symm.trans hold
  cases heq
  exact ⟨rfl,h.parent_eq hm (hat.new hq)⟩

theorem nlink_succ (hm : m < 4480) :
    Int16.ofNat (m + 1) + 1 = Int16.ofNat (m + 2) ∧ Int16.ofNat (m + 2) ≠ 0 := by
  refine ⟨(Int16.ofNat_add (m + 1) 1).symm,fun hc => ?_⟩
  have := congrArg Int16.toInt hc
  rw [Int16.toInt_ofNat_of_lt (by omega)] at this
  change (((m + 2 : ℕ) : ℤ)) = 0 at this
  omega

theorem Filled.link (h : Filled m v) (hm : m < 4480) (hq : Quiet v.begun) {δ : ℕ → ℤ} {A : Finset ℕ}
    (hat : Fs.LinkedAt v.begun 0 (entryPath 2) (entryPath (m + 3)) i n d name nd)
    (hp : Progress v.begun v' (update (update (files v.begun.disk) i
      (some { n with nlink := n.nlink + 1 })) d
      (some (nd.setEntry nd.table.free (Dirent.named name i)))) δ A) : Filled (m + 1) v' := by
  obtain ⟨rfl,rfl,rfl⟩ := h.linked_eq hm hq hat
  obtain ⟨r,hr,hf⟩ := h.root
  obtain ⟨n',hn',htype,hlink⟩ := h.file
  obtain rfl : nd = r := some.inj (hat.node.symm.trans hr)
  obtain rfl : n = n' := some.inj (hat.inode.symm.trans hn')
  obtain ⟨hsucc,hne⟩ := nlink_succ hm
  have hfs : files v'.disk = _ := hp.exact hq fun a k hk h0 => by
    by_cases h1 : a = 1
    · rw [h1,update_self] at hk
      rw [← some.inj hk,Node.nlink_setEntry,hf.nlink] at h0
      exact absurd h0 (by decide)
    · rw [update_of_ne h1] at hk
      by_cases h2 : a = 2
      · rw [h2,update_self] at hk
        rw [← some.inj hk] at h0
        rw [hlink,hsucc] at h0
        exact absurd h0 hne
      · rw [update_of_ne h2] at hk
        exact absurd (hk.symm.trans (h.other a h1 h2)) nofun
  obtain ⟨B,hB⟩ := hp.frame
  refine ⟨⟨_,by rw [hfs,update_self],?_⟩,
    ⟨{ n with nlink := n.nlink + 1 },?_,htype,?_⟩,fun a h1 h2 => ?_,
    hB.proc.trans h.procs,hB.file.trans h.opens⟩
  · rw [hf.table_free]
    exact hf.next (by omega)
  · rw [hfs,update_of_ne (by decide),update_self]
  · rw [hlink,hsucc]
  · rw [hfs,update_of_ne h1,update_of_ne h2]
    exact h.other a h1 h2

def nextLink (m : ℕ) : AddCall := .link (some (entryPath 2)) (some (entryPath (m + 3)))

theorem Fs.Safe.nextLink (h : Filled m v) (hs : Stable v) (hm : m < 4480)
    (hE : 4477 ≤ m → E (.fail .dirlink)) : Safe 0 E ((nextLink m).call.sys 0)
      (fun _ v' _ => Filled (m + 1) v' ∧ Core v') v (held 0 ∅) := by
  have hq := hs.kernel.good.begun.quiet
  have hargs : argstr (some (entryPath 2)) = some (entryPath 2) := by decide
  refine Safe.bind (Safe.imp ?_ fun _ _ _ h' => Safe.pure h')
  change Safe 0 E (Fs.sysLink 0 (some (entryPath 2)) (some (entryPath (m + 3)))) _ v (held 0 ∅)
  rw [sysLink_eq,hargs,argstr_entryPath hm]
  refine Safe.operation hs.kernel.log (Safe.linkBody (h.starts hs) hq (h.hasStart 2)
    (h.hasStart (m + 3)) ?_ ?_ ?_ ?_)
  · intro d name nd j hat hnd hj _ k
    obtain ⟨rfl,rfl⟩ := h.parent_eq hm hat
    obtain ⟨r,hr,hf⟩ := h.root
    obtain rfl : nd = r := some.inj (hnd.symm.trans hr)
    rw [hf.lookup_next (by omega)] at hj
    cases hj
  · intro i n d name nd hat hfull
    obtain ⟨-,hf⟩ := h.dir hat.node hat.type
    rw [hf.table_free] at hfull
    refine hE ?_
    have hM : MAXFILE * BSIZE = 71680 := rfl
    have h16 : sizeof = 16 := rfl
    rw [h16] at hfull
    omega
  · intro v' hnot
    obtain ⟨n,nd,hat⟩ := h.linkedAt hm
    exact absurd hat (hnot 2 n 1 _ nd)
  · intro i n d name nd x y v' hat hp
    have hfill := h.link hm hq hat hp
    obtain ⟨B,hB⟩ := hp.frame
    refine ⟨hp.core,⟨B,hB.logs⟩,rfl,fun d' hd hc => ⟨?_,hc⟩⟩
    have hfd : files (v'.ended d').disk = files v'.disk := (hd.sound hp.core.sound).2
    obtain ⟨hr,hn,ho,hproc,hfile⟩ := hfill
    refine ⟨?_,?_,?_,hproc,hfile⟩
    · rwa [hfd]
    · rwa [hfd]
    · rwa [hfd]

/-- The directory can be filled up. -/
theorem reachable_filled (hm : m ≤ 4477) : ∃ c, Reachable c ∧ Filled m c.st.view := by
  induction m with
  | zero => exact ⟨started sample,.boot fresh_sample,filled_started⟩
  | succ m ih =>
    obtain ⟨c,hc,hf⟩ := ih (by omega)
    obtain ⟨hs,ho⟩ := hc.stable
    have hsafe := Fs.Safe.nextLink (E := fun _ => False) hf hs (by omega) (by omega) c rfl (ho 0)
    cases hrun : run 0 ((nextLink m).call.sys 0) c with
    | error e => exact (hsafe.of_run_error hrun).elim
    | ok r =>
      obtain ⟨⟨⟩,c'⟩ := r
      refine ⟨c',hc.call ?_ hrun,(hsafe.of_run_ok hrun).1⟩
      rw [hf.cwd_zero]
      rfl

end Fill
end Xv6
