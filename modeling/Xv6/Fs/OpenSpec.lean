import Xv6.Fs.LinkSpec

/-! # What `open`, `mkdir`, `mknod`, `chdir` and `exec` do -/
namespace Xv6
open Conc Mkfs
open Function (update)
open Dirent (sizeof)
open List

/-- The entries of the file table that are not in use have no type. -/
def FilesClosed (v : View) : Prop := ∀ f, f < NFILE → (v.file f).ref = 0 → (v.file f).type = .none

/-- The entry `f` of the file table and the descriptor `fd` of process `p` are not in use. -/
structure FreeFile (v : View) (p f fd : ℕ) : Prop where
  file : f < NFILE
  unused : (v.file f).ref = 0
  descriptor : fd < NOFILE
  free : (v.proc p).ofile fd = none

/-- The state when `filealloc` has returned `f` and `fdalloc` has returned `fd`. -/
def View.install (v : View) (p f fd : ℕ) : View :=
  { v with
    file := update v.file f { v.file f with ref := 1 }
    proc := update v.proc p { v.proc p with ofile := upd (v.proc p).ofile fd (some f) } }

theorem Core.install {v : View} {p f fd : ℕ} (h : Core v) : Core (v.install p f fd) :=
  h.of_inodes ⟨h.ready.sb,h.ready.block,h.ready.log⟩ h.sound rfl rfl

theorem FilesClosed.frame {A : Finset ℕ} {v₀ v : View} (h : FilesClosed v₀) (hf : Frame A v₀ v) :
    FilesClosed v := by
  intro f hlt h0
  rw [hf.file] at h0 ⊢
  exact h f hlt h0

theorem FreeFile.of_frame {A : Finset ℕ} {v₀ v : View} {p f fd : ℕ} (hf : Frame A v₀ v) :
    FreeFile v p f fd ↔ FreeFile v₀ p f fd := by
  constructor
  · rintro ⟨h1,h2,h3,h4⟩
    rw [hf.file] at h2
    rw [hf.proc] at h4
    exact ⟨h1,h2,h3,h4⟩
  · rintro ⟨h1,h2,h3,h4⟩
    rw [← hf.file] at h2
    rw [← hf.proc] at h4
    exact ⟨h1,h2,h3,h4⟩

section Input
variable {v : View} {k i : ℕ} {n : Node}

/-- Nothing on disk and in the inode cache depends on the console. -/
theorem Core.input (h : Core v) (inp : List UInt8) : Core { v with input := inp } :=
  h.of_inodes ⟨h.ready.sb,h.ready.block,h.ready.log⟩ h.sound rfl rfl

theorem Opened.input (h : Opened v k i n) (inp : List UInt8) :
    Opened { v with input := inp } k i n where
  ready := ⟨h.ready.sb,h.ready.block,h.ready.log⟩
  sound := h.sound
  holds := h.holds.of_inode rfl
  valid := h.valid
  copy := h.copy
  node := h.node

end Input

namespace Fs
section File
variable {p : ℕ} {E : Stops} {v : View} {o : Owners}

theorem close_one {f : ℕ} {t : ℕ → File} {ff : File} (h : t f = { ff with ref := 1 }) :
    Ftable.close f t =
      (.last { ff with ref := 0 },some (f,{ ff with ref := 0, type := .none })) := by
  unfold Ftable.close
  rw [h]
  rfl

theorem closed_again {f : ℕ} {t : ℕ → File} {ff : File} (h0 : (t f).ref = 0)
    (ht : (t f).type = .none) :
    update (update t f ff) f { t f with ref := 0, type := .none } = t := by
  rw [Function.update_idem,← h0,← ht,Function.update_eq_self]

theorem Safe.fdalloc {Q : Post (Option ℕ)} {f : ℕ}
    (hnone : (∀ fd, fd < NOFILE → (v.proc p).ofile fd ≠ none) → Q none v o)
    (hsome : ∀ fd, fd < NOFILE → (v.proc p).ofile fd = none → Q (some fd) { v with
        proc := update v.proc p { v.proc p with ofile := upd (v.proc p).ofile fd (some f) } } o) :
    Safe p E (Fs.fdalloc p f) Q v o := by
  refine proc_seq ?_
  dsimp only
  cases hfd : (List.range NOFILE).find? fun fd => ((v.proc p).ofile fd).isNone with
  | none =>
    refine pure (hnone fun fd hlt hc => ?_)
    have := List.find?_eq_none.mp hfd fd (mem_range.mpr hlt)
    rw [hc] at this
    exact this rfl
  | some fd =>
    refine bind (modifyProc (pure (hsome fd ?_ ?_)))
    · exact mem_range.mp (mem_of_find?_eq_some hfd)
    · exact Option.isNone_iff_eq_none.mp (by simpa using List.find?_some hfd)

/-- A free entry of the file table and a free descriptor, or nothing. -/
theorem Safe.openFile {Q : Post (Option (ℕ × ℕ))} (hclosed : FilesClosed v)
    (hnone : (∀ f fd, ¬ FreeFile v p f fd) → Q none v o)
    (hsome : ∀ f fd, FreeFile v p f fd → Q (some (f,fd)) (v.install p f fd) o) :
    Safe p E (Fs.openFile p) Q v o := by
  refine bind (ftableSection ?_)
  unfold Ftable.alloc
  cases hf : (List.range NFILE).find? fun f => decide ((v.file f).ref = 0) with
  | none =>
    refine pure (hnone fun f fd h => ?_)
    have := List.find?_eq_none.mp hf f (mem_range.mpr h.file)
    simp only [h.unused,decide_true,not_true_eq_false] at this
  | some f =>
    have hlt : f < NFILE := mem_range.mp (mem_of_find?_eq_some hf)
    have h0 : (v.file f).ref = 0 := by simpa using List.find?_some hf
    dsimp only [assignAt]
    refine bind (fdalloc (fun hfull => ?_) fun fd hfd hfree => ?_)
    · -- the file is closed again
      refine bind ?_
      refine bind (ftableSection ?_)
      rw [close_one (Function.update_self f _ v.file)]
      dsimp only [assignAt]
      rw [closed_again h0 (hclosed f hlt h0),hclosed f hlt h0]
      refine pure (pure ?_)
      exact hnone fun f' fd h => hfull fd h.descriptor h.free
    · exact pure (hsome f fd ⟨hlt,h0,hfd,hfree⟩)

end File

section Create
variable {p : ℕ} {E : Stops} {v₀ : View} {path : List UInt8}
  {type major minor : Int16}

theorem card_le_nine (a b c d e f g h i : ℕ) :
    ({a, b, c, d, e, f, g, h, i} : Finset ℕ).card ≤ 9 := by
  refine (Finset.card_insert_le _ _).trans (Nat.succ_le_succ ?_)
  refine (Finset.card_insert_le _ _).trans (Nat.succ_le_succ ?_)
  refine (Finset.card_insert_le _ _).trans (Nat.succ_le_succ ?_)
  exact Finset.card_le_six

theorem created_put_blocks (a b x y x' y' x'' y'' : ℕ) :
    {58, a, b, x, y, x', y', x'', y''} ∪ {58, a} =
      ({58, a, b, x, y, x', y', x'', y''} : Finset ℕ) := by
  refine Finset.union_eq_left.mpr fun c hc => ?_
  simp only [Finset.mem_insert,Finset.mem_singleton] at hc ⊢
  omega

theorem Safe.created_put {Q : Post Unit} {fs : ℕ → Option Node}
    {k i b x y x' y' x'' y'' : ℕ} {v : View} {n : Node} (hs : Starts E v₀)
    (hp : Progress v₀ v fs (one i) {58, IBLOCK i sb, b, x, y, x', y', x'', y''})
    (hl : Loaded v k i n)
    (hq : ∀ v', Progress v₀ v' fs 0 {58, IBLOCK i sb, b, x, y, x', y', x'', y''} →
      Q () v' (held p ∅)) : Safe p E (Fs.iunlockput k) Q v (held p {k}) := by
  have hcard := card_le_nine 58 (IBLOCK i sb) b x y x' y' x'' y''
  have hbudget := hp.budget (m := 2) hs.log (hs.budget.mono (by omega))
  rw [← zero_add (one i)] at hp
  refine iunlockput_progress hp hs.core (fun _ => le_rfl) hl.holds hl.valid
    (Finset.mem_singleton_self k) hbudget fun v' hp' _ => ?_
  rw [Finset.erase_singleton]
  rw [created_put_blocks] at hp'
  exact hq v' hp'

/-- `mkdir` and `mknod` make an inode under a new name, or leave everything as it was. -/
theorem Safe.mknodeBody {Q : Post ℤ} (hs : Starts E v₀)
    (hres : ∀ e : Panic, e.resource = true → E (.fail e)) (htype : type ≠ 0) (hfile : type ≠ T_FILE)
    (hstart : HasStart E v₀ p path) (hroom : ∀ i d name nd, CreatedAt v₀ p path i d name nd →
      MAXFILE * BSIZE < nd.table.free * sizeof + sizeof → E (.fail .dirlink))
    (hfail : ∀ v', Walk v₀ v' 0 → Q (-1) v' (held p ∅))
    (hdone : ∀ i d name nd x y x' y' x'' y'' v', CreatedAt v₀ p path i d name nd →
      Progress v₀ v' (update (update (files v₀.disk) i (some (createdNode type major minor i d))) d
        (some (createdDir type nd name i))) 0
        {58, IBLOCK i sb, IBLOCK d sb, x, y, x', y', x'', y''} → Q 0 v' (held p ∅)) :
    Safe p E (Fs.mknodeBody p path type major minor) Q v₀ (held p ∅) := by
  refine bind (create hs hres htype hstart hroom (fun v' hw => pure (hfail v' hw))
    (fun k i n v' hc => absurd hc hfile) fun k i d name nd x y x' y' x'' y'' v1 hat hp hl => ?_)
  exact bind (created_put hs hp hl fun v' hp' =>
    pure (hdone i d name nd x y x' y' x'' y'' v' hat hp'))

end Create

section Chdir
variable {p : ℕ} {E : Stops} {v₀ : View} {path : List UInt8}

/-- `chdir` takes a reference to a directory and gives back the one to the old working
directory, or leaves everything as it was. -/
theorem Safe.chdirBody {Q : Post (Option ℕ)} {c : ℕ} (hs : Starts E v₀)
    (hstart : HasStart E v₀ p path) (hcwd : Holds v₀ ((v₀.proc p).cwd.getD 0) c)
    (hfail : ∀ v', Walk v₀ v' 0 → Q none v' (held p ∅))
    (hdone : ∀ k i n v1 v', Walk v₀ v1 (one i) → Loaded v1 k i n → n.type = T_DIR →
      Walk (v1.unref ((v₀.proc p).cwd.getD 0)) v' 0 → Frame {58, IBLOCK c sb} v1 v' →
      ((v1.inode ((v₀.proc p).cwd.getD 0)).valid = true → Settled v' c) → Holds v' k i →
      Q (some k) v' (held p ∅)) : Safe p E (Fs.chdirBody p path) Q v₀ (held p ∅) := by
  refine namei_lock hs hstart (fun k => rfl) (fun _ v' hw _ _ => pure (hfail v' hw))
    fun k i n s v1 hw1 hl1 hst hpath => ?_
  have ho1 := Opened.of_loaded hl1 hw1.core
  refine inode_seq ?_
  rw [ho1.type]
  refine ite (fun _ => ?_) fun hdir => ?_
  · exact bind (iunlockput_last hw1 hs.core hl1.holds (hs.log.imp_right .inl)
      fun v' hw' _ _ => pure (hfail v' hw'))
  refine bind (iunlock_last hl1.holds.ref ?_)
  refine proc_seq ?_
  rw [hw1.frame.proc]
  have hcwd1 := hw1.keep _ c hcwd
  have hput := Walk.unref hw1.core hcwd1
  rw [← zero_add (one c)] at hput
  have hbudget : Budget E 2 v1 := (hw1.budget hs.budget hs.log).mono (by omega)
  -- if the new directory is the old one, two references have been there
  have hk : Holds (v1.unref ((v₀.proc p).cwd.getD 0)) k i := by
    refine holds_unref hcwd1 hl1.holds fun hic => ?_
    subst hic
    have h1 := hw1.refs i
    have h2 := hs.core.refs_pos.mpr ⟨_,hcwd⟩
    rw [hw1.core.refs_eq hcwd1,one,if_pos rfl] at h1
    omega
  exact bind (iput_walk hput (hw1.core.unref hcwd1) (fun _ => le_rfl) hcwd1
    (Finset.notMem_empty _) (.inr hbudget) fun v' hw' hf hs' =>
      pure (hdone k i n v1 v' hw1 hl1 (not_not.mp hdir) hw' hf hs' (hw'.keep k i hk)))

end Chdir

section Open
variable {p : ℕ} {E : Stops} {v₀ : View} {path : List UInt8} {omode : UInt32}

theorem Safe.openInode {Q : Post (Option ℕ)} (hs : Starts E v₀)
    (hres : ∀ e : Panic, e.resource = true → E (.fail e)) (hstart : HasStart E v₀ p path)
    (hroom : ∀ i d name nd, CreatedAt v₀ p path i d name nd →
      MAXFILE * BSIZE < nd.table.free * sizeof + sizeof → E (.fail .dirlink))
    (hnone : ∀ v', Walk v₀ v' 0 → Q none v' (held p ∅))
    (hthere : ∀ k i n v', Walk v₀ v' (one i) → Loaded v' k i n → (n.type = T_DIR → omode = 0) →
      Q (some k) v' (held p {k}))
    (hnew : ∀ k i d name nd x y x' y' x'' y'' v', omode &&& O_CREATE ≠ 0 →
      CreatedAt v₀ p path i d name nd →
      Progress v₀ v' (update (update (files v₀.disk) i (some (createdNode T_FILE 0 0 i d))) d
        (some (createdDir T_FILE nd name i))) (one i)
        {58, IBLOCK i sb, IBLOCK d sb, x, y, x', y', x'', y''} →
      Loaded v' k i (createdNode T_FILE 0 0 i d) → Q (some k) v' (held p {k})) :
    Safe p E (Fs.openInode p path omode) Q v₀ (held p ∅) := by
  refine ite (fun hcreate => ?_) fun _ => ?_
  · refine create hs hres (by decide) hstart hroom hnone
      (fun k i n v' _ hw hl ht => hthere k i n v' hw hl fun hd => ?_)
      fun k i d name nd x y x' y' x'' y'' v' => hnew k i d name nd x y x' y' x'' y'' v' hcreate
    rw [ht] at hd
    exact absurd hd (by decide)
  · refine namei_lock hs hstart (fun k => rfl) (fun _ v' hw _ _ => pure (hnone v' hw))
      fun k i n s v1 hw1 hl1 hst hpath => ?_
    refine inode_seq ?_
    rw [(Opened.of_loaded hl1 hw1.core).type]
    refine ite (fun _ => ?_) fun hmode => ?_
    · exact bind (iunlockput_last hw1 hs.core hl1.holds (hs.log.imp_right .inl)
        fun v' hw' _ _ => pure (hnone v' hw'))
    · exact pure (hthere k i n v1 hw1 hl1 fun hd => by_contra fun h0 => hmode ⟨hd,h0⟩)

/-- `open` enters a file that is there or a new one into both tables.  If they are full a
file that is there is given back, and a new one stays. -/
theorem Safe.openBody {Q : Post (Option (ℕ × ℕ × ℕ))} (hs : Starts E v₀)
    (hres : ∀ e : Panic, e.resource = true → E (.fail e)) (hstart : HasStart E v₀ p path)
    (hclosed : FilesClosed v₀) (hroom : ∀ i d name nd, CreatedAt v₀ p path i d name nd →
      MAXFILE * BSIZE < nd.table.free * sizeof + sizeof → E (.fail .dirlink))
    (hnone : ∀ v', Walk v₀ v' 0 → Q none v' (held p ∅))
    (hfull : ∀ i d name nd x y x' y' x'' y'' v', omode &&& O_CREATE ≠ 0 →
      CreatedAt v₀ p path i d name nd → (∀ f fd, ¬ FreeFile v₀ p f fd) →
      Progress v₀ v' (update (update (files v₀.disk) i (some (createdNode T_FILE 0 0 i d))) d
        (some (createdDir T_FILE nd name i))) 0
        {58, IBLOCK i sb, IBLOCK d sb, x, y, x', y', x'', y''} → Q none v' (held p ∅))
    (hthere : ∀ k i n f fd v', Walk v₀ v' (one i) → Loaded v' k i n → (n.type = T_DIR → omode = 0) →
      FreeFile v₀ p f fd → Q (some (k,f,fd)) (v'.install p f fd) (held p ∅))
    (hnew : ∀ k i d name nd f fd x y x' y' x'' y'' v', omode &&& O_CREATE ≠ 0 →
      CreatedAt v₀ p path i d name nd → FreeFile v₀ p f fd →
      Progress v₀ v' (update (update (files v₀.disk) i (some (createdNode T_FILE 0 0 i d))) d
        (some (createdDir T_FILE nd name i))) (one i)
        {58, IBLOCK i sb, IBLOCK d sb, x, y, x', y', x'', y''} →
      Loaded v' k i (createdNode T_FILE 0 0 i d) →
      Q (some (k,f,fd)) (v'.install p f fd) (held p ∅)) :
    Safe p E (Fs.openBody p path omode) Q v₀ (held p ∅) := by
  refine bind (openInode hs hres hstart hroom (fun v' hw => pure (hnone v' hw))
    (fun k i n v1 hw hl hmode => ?_) fun k i d name nd x y x' y' x'' y'' v1 hcreate hat hp hl => ?_)
  · refine bind (openFile (hclosed.frame hw.frame) (fun _ => ?_) fun f fd hff => ?_)
    · exact bind (iunlockput_last hw hs.core hl.holds (hs.log.imp_right .inl)
        fun v' hw' _ _ => pure (hnone v' hw'))
    · exact bind (iunlock_last hl.holds.ref
        (pure (hthere k i n f fd v1 hw hl hmode ((FreeFile.of_frame hw.frame).mp hff))))
  · obtain ⟨A,hA⟩ := hp.frame
    refine bind (openFile (hclosed.frame hA) (fun hno => ?_) fun f fd hff => ?_)
    · refine bind (created_put hs hp hl fun v' hp' => pure ?_)
      exact hfull i d name nd x y x' y' x'' y'' v' hcreate hat
        (fun f fd hff => hno f fd ((FreeFile.of_frame hA).mpr hff)) hp'
    · exact bind (iunlock_last hl.holds.ref (pure (hnew k i d name nd f fd x y x' y' x'' y'' v1
        hcreate hat ((FreeFile.of_frame hA).mp hff) hp hl)))

end Open

section Exec
variable {p : ℕ} {E : Stops} {v₀ v : View} {S : Finset ℕ} {k i : ℕ} {n : Node}
  {path : List UInt8} {reads : List (ℕ × ℕ)}

/-- Reading changes nothing, unless the file is the console. -/
theorem Safe.execReads {Q : Post Unit} (hE : E .asleep)
    (hl : Opened v k i n) (hS : k ∈ S) (hq : ∀ inp, Q () { v with input := inp } (held p S)) :
    Safe p E (Fs.execReads p k reads) Q v (held p S) := by
  induction reads generalizing v with
  | nil => exact pure (hq v.input)
  | cons r reads ih =>
    have hi := hl.inum_lt
    have ht := hl.type_ne_zero
    refine bind (readi hl.ready hl.sound.owned hi hl.copy.symm ht (fun _ => rfl) (fun _ => hE)
      hl.holds.inum hl.valid hl.holds.ref (held_mem hS)
      (hl.sound.mapped i hi ht) fun _ inp _ => ?_)
    exact ih (hl.input inp) hq

theorem Safe.execBody {Q : Post ℤ} (hE : E .asleep) (hs : Starts E v₀)
    (hstart : HasStart E v₀ p path) (hnone : ∀ v', Walk v₀ v' 0 → Q (-1) v' (held p ∅))
    (hdone : ∀ k i n v1 inp v', Walk v₀ v1 (one i) → Loaded v1 k i n →
      Walk (View.unref { v1 with input := inp } k) v' 0 →
      Frame {58, IBLOCK i sb} { v1 with input := inp } v' → Settled v' i → Q 0 v' (held p ∅)) :
    Safe p E (Fs.execBody p path reads) Q v₀ (held p ∅) := by
  refine namei_lock hs hstart (fun k => rfl) (fun _ v' hw _ _ => pure (hnone v' hw))
    fun k i n s v1 hw hl _ _ => ?_
  refine bind (execReads hE (Opened.of_loaded hl hw.core) (Finset.mem_singleton_self k)
    fun inp => ?_)
  have hc := hw.core.input inp
  have hk : Holds { v1 with input := inp } k i := hl.holds.of_inode rfl
  have hbudget : Budget E 2 { v1 with input := inp } :=
    (hw.budget hs.budget hs.log).mono (by omega)
  exact bind (iunlockput_last (Walk.unref hc hk) (hc.unref hk) hk (.inr hbudget)
    fun v' hw' hf hsettled => pure (hdone k i n v1 inp v' hw hl hw' hf (hsettled hl.valid)))

end Exec
end Fs
end Xv6
