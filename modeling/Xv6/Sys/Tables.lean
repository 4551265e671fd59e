import Xv6.Fs.Consistent
import Xv6.Lib.Pointers
import Xv6.Sys.Boot

/-! # The tables of the kernel

A `struct file` counts the descriptors that stand for it, and a slot of the inode cache the
open files and the working directories. -/
namespace Xv6
open Conc Pointers Function Finset

@[irreducible] def allDescriptors : Finset (ℕ × ℕ) := Finset.range NPROC ×ˢ Finset.range NOFILE

theorem mem_descriptors {a : ℕ × ℕ} : a ∈ allDescriptors ↔ a.1 < NPROC ∧ a.2 < NOFILE := by
  unfold allDescriptors
  rw [mem_product,mem_range,mem_range]

namespace View

def ofile (v : View) (a : ℕ × ℕ) : Option ℕ := (v.proc a.1).ofile a.2

def fileSlot (v : View) (f : ℕ) : Option ℕ :=
  if 0 < (v.file f).ref then some (v.file f).ip else none

def cwd (v : View) (p : ℕ) : Option ℕ := (v.proc p).cwd

/-- The number of open files and processes that refer to slot `k`. -/
def users (v : View) (k : ℕ) : ℤ :=
  count (Finset.range NFILE) v.fileSlot k + count (Finset.range NPROC) v.cwd k

end View

structure Descriptors (v : View) : Prop where
  inside : ∀ a f, v.ofile a = some f → a ∈ allDescriptors ∧ f < NFILE
  counts : ∀ f, f < NFILE → (v.file f).ref = count allDescriptors v.ofile f

structure SlotUsers (v : View) : Prop where
  inside : ∀ p k, v.cwd p = some k → p < NPROC ∧ k < NINODE
  counts : ∀ k, k < NINODE → (v.inode k).ref = v.users k

/-- Open files are files that have been read, and those that may be written are no
directories. -/
structure OpenFiles (v : View) : Prop where
  opened : ∀ f, f < NFILE → 0 < (v.file f).ref → (v.file f).type = .inode ∧
    ∃ i n, Fs.Loaded v (v.file f).ip i n ∧ ((v.file f).writable = true → n.type ≠ T_DIR)
  closed : FilesClosed v

/-- The file system and the tables while no operation is going on. -/
structure Kernel (v : View) : Prop where
  good : Consistent v
  log : v.log = Fs.emptyLog
  descriptors : Descriptors v
  slots : SlotUsers v
  files : OpenFiles v

/-- Unused processes have no descriptors. -/
def IdleEmpty (v : View) : Prop := ∀ p, v.cwd p = none → ∀ fd, v.ofile (p,fd) = none

section Proc
variable {v v' : View} {p fd : ℕ} {x : Option ℕ}

theorem ofile_update (h : v'.proc = update v.proc p
    { v.proc p with ofile := upd (v.proc p).ofile fd x }) : v'.ofile = update v.ofile (p,fd) x := by
  funext ⟨q,e⟩
  unfold View.ofile
  rw [h,upd_eq_update]
  by_cases hq : q = p
  · by_cases he : e = fd
    · simp [hq,he]
    · simp [hq,he]
  · simp [hq]

theorem cwd_ofile (h : v'.proc = update v.proc p
    { v.proc p with ofile := upd (v.proc p).ofile fd x }) : v'.cwd = v.cwd := by
  funext q
  unfold View.cwd
  rw [h,apply_update fun _ => Proc.cwd,update_eq_self]

theorem cwd_update (h : v'.proc = update v.proc p { v.proc p with cwd := x }) :
    v'.cwd = update v.cwd p x := by
  funext q
  unfold View.cwd
  rw [h,apply_update fun _ => Proc.cwd]

theorem ofile_cwd (h : v'.proc = update v.proc p { v.proc p with cwd := x }) :
    v'.ofile = v.ofile := by
  funext ⟨q,e⟩
  unfold View.ofile
  rw [h,apply_update fun _ y => Proc.ofile y e,update_eq_self]

end Proc

section Counts
variable {v v' : View} {p f : ℕ} {a : ℕ × ℕ} {x : Option ℕ}

theorem Descriptors.update (h : Descriptors v) (ha : a ∈ allDescriptors)
    (hx : ∀ f, x = some f → f < NFILE) (ho : v'.ofile = update v.ofile a x)
    (hr : ∀ f, f < NFILE → (v'.file f).ref = (v.file f).ref - hit (v.ofile a) f + hit x f) :
    Descriptors v' where
  inside := by
    intro b f hb
    rw [ho] at hb
    rcases of_update_eq hb with ⟨rfl,he⟩ | ⟨-,he⟩
    · exact ⟨ha,hx f he⟩
    · exact h.inside b f he
  counts := fun f hf => by rw [hr f hf,ho,count_update ha,h.counts f hf]

theorem Descriptors.same (h : Descriptors v) (ho : v'.ofile = v.ofile)
    (hr : ∀ f, f < NFILE → (v'.file f).ref = (v.file f).ref) : Descriptors v' where
  inside := fun b f hb => h.inside b f (ho ▸ hb)
  counts := fun f hf => by rw [hr f hf,ho,h.counts f hf]

theorem fileSlot_same (hf : ∀ f, 0 < (v'.file f).ref ↔ 0 < (v.file f).ref)
    (hip : ∀ f, (v'.file f).ip = (v.file f).ip) : v'.fileSlot = v.fileSlot := by
  funext f
  unfold View.fileSlot
  rw [hip]
  by_cases h : 0 < (v.file f).ref
  · rw [if_pos h,if_pos ((hf f).mpr h)]
  · rw [if_neg h,if_neg (mt (hf f).mp h)]

/-- An open file refers to another slot, or to none. -/
theorem SlotUsers.file (h : SlotUsers v) (hf : f < NFILE)
    (hs : v'.fileSlot = update v.fileSlot f x) (hc : v'.cwd = v.cwd)
    (hr : ∀ k, k < NINODE → (v'.inode k).ref = (v.inode k).ref - hit (v.fileSlot f) k + hit x k) :
    SlotUsers v' where
  inside := fun q k hq => h.inside q k (hc ▸ hq)
  counts := by
    intro k hk
    rw [hr k hk,h.counts k hk]
    unfold View.users
    rw [hs,hc,count_update (mem_range.mpr hf)]
    ring

theorem SlotUsers.cwd (h : SlotUsers v) (hp : p < NPROC) (hx : ∀ k, x = some k → k < NINODE)
    (hs : v'.fileSlot = v.fileSlot) (hc : v'.cwd = update v.cwd p x)
    (hr : ∀ k, k < NINODE → (v'.inode k).ref = (v.inode k).ref - hit (v.cwd p) k + hit x k) :
    SlotUsers v' where
  inside := by
    intro q k hq
    rw [hc] at hq
    rcases of_update_eq hq with ⟨rfl,he⟩ | ⟨-,he⟩
    · exact ⟨hp,hx k he⟩
    · exact h.inside q k he
  counts := by
    intro k hk
    rw [hr k hk,h.counts k hk]
    unfold View.users
    rw [hs,hc,count_update (mem_range.mpr hp)]
    ring

theorem SlotUsers.same (h : SlotUsers v) (hs : v'.fileSlot = v.fileSlot) (hc : v'.cwd = v.cwd)
    (hr : ∀ k, k < NINODE → (v'.inode k).ref = (v.inode k).ref) : SlotUsers v' where
  inside := fun q k hq => h.inside q k (hc ▸ hq)
  counts := fun k hk => by rw [hr k hk,h.counts k hk,View.users,View.users,hs,hc]

theorem SlotUsers.ref_of_file (h : SlotUsers v) (hf : f < NFILE) (hr : 0 < (v.file f).ref)
    (hk : (v.file f).ip < NINODE) : 0 < (v.inode (v.file f).ip).ref := by
  rw [h.counts _ hk,View.users]
  have h1 : 0 < count _ v.fileSlot _ := count_pos (mem_range.mpr hf) (if_pos hr)
  have h2 : 0 ≤ count (Finset.range NPROC) v.cwd (v.file f).ip := count_nonneg
  omega

theorem SlotUsers.holds_cwd {k : ℕ} (h : SlotUsers v) (hc : v.cwd p = some k) :
    Holds v k (v.inode k).inum := by
  obtain ⟨hp,hk⟩ := h.inside p k hc
  refine ⟨hk,?_,rfl⟩
  rw [h.counts k hk,View.users]
  have h1 := count_pos (mem_range.mpr hp) hc
  have h2 : 0 ≤ count (Finset.range NFILE) v.fileSlot k := count_nonneg
  omega

end Counts

theorem hit_some_eq (k : ℕ) : hit (some k) = single k := by
  funext j
  exact hit_some k j

section Steps
variable {v w v' : View} {g : ℕ → ℤ} {p f fd k i : ℕ} {n : Node}

def OpenTo (v : View) (a : File) : Prop :=
  a.type = .inode ∧ ∃ i n, Fs.Loaded v a.ip i n ∧ (a.writable = true → n.type ≠ T_DIR)

theorem Kernel.opened {a : ℕ × ℕ} (h : Kernel v) (ha : v.ofile a = some f) :
    f < NFILE ∧ 0 < (v.file f).ref ∧ OpenTo v (v.file f) := by
  obtain ⟨hmem,hf⟩ := h.descriptors.inside a f ha
  have hpos : 0 < (v.file f).ref := by
    rw [h.descriptors.counts f hf]
    exact count_pos hmem ha
  exact ⟨hf,hpos,h.files.opened f hf hpos⟩

structure SameFile (a b : File) : Prop where
  ref : a.ref = b.ref
  type : a.type = b.type
  ip : a.ip = b.ip
  writable : a.writable = b.writable

theorem SameFile.refl (a : File) : SameFile a a := ⟨rfl,rfl,rfl,rfl⟩

/-- The inodes and the disk of `w` after an operation. -/
structure Rests (w v' : View) : Prop where
  good : Consistent v'
  log : v'.log = Fs.emptyLog
  inode : v'.inode = w.inode
  disk : v'.disk = w.disk

theorem Rests.loaded (hr : Rests w v') (hl : Fs.Loaded w k i n) : Fs.Loaded v' k i n :=
  ⟨hl.holds.of_inode hr.inode,by rw [hr.inode]; exact hl.valid,by rw [hr.disk]; exact hl.node⟩

/-- The file `a` is `b`, with another count, or has been opened. -/
def Goes (v' : View) (a b : File) : Prop :=
  (0 < b.ref ∧ a.type = b.type ∧ a.ip = b.ip ∧ a.writable = b.writable) ∨ OpenTo v' a

/-- Open files stay open as long as their slots are in use. -/
theorem OpenFiles.step (h : OpenFiles v) (hm : Moved v w g) (hr : Rests w v') (hs : SlotUsers v')
    (hclosed : FilesClosed v')
    (hfile : ∀ f, f < NFILE → 0 < (v'.file f).ref → Goes v' (v'.file f) (v.file f)) :
    OpenFiles v' where
  opened := by
    intro f hf hpos
    rcases hfile f hf hpos with ⟨hpos0,htype,hip,hwrite⟩ | hnew
    · obtain ⟨ht,i,n,hl,hw⟩ := h.opened f hf hpos0
      have href := hs.ref_of_file hf hpos (by rw [hip]; exact hl.holds.slot)
      rw [hr.inode,hip] at href
      obtain ⟨n',hl',ht'⟩ := hm.loaded _ i n hl href
      rw [htype,hip,hwrite]
      refine ⟨ht,i,n',hr.loaded hl',fun hwr => ?_⟩
      rw [ht']
      exact hw hwr
    · exact hnew
  closed := hclosed

/-- An operation that leaves the references, and changes of offsets. -/
theorem Kernel.keep (h : Kernel v) (hm : Moved v w 0) (hr : Rests w v') (hproc : v'.proc = v.proc)
    (hfile : ∀ f, SameFile (v'.file f) (v.file f)) : Kernel v' := by
  have ho : v'.ofile = v.ofile := by
    funext a
    rw [View.ofile,hproc]
    rfl
  have hc : v'.cwd = v.cwd := by
    funext q
    rw [View.cwd,hproc]
    rfl
  have hslots : SlotUsers v' := by
    refine h.slots.same (fileSlot_same (fun f => by rw [(hfile f).ref]) fun f => (hfile f).ip) hc ?_
    intro k hk
    rw [hr.inode,hm.slot k hk,Pi.zero_apply,add_zero]
  refine ⟨hr.good,hr.log,h.descriptors.same ho fun f _ => (hfile f).ref,hslots,
    h.files.step hm hr hslots (fun f hf h0 => ?_) fun f _ hpos => .inl ?_⟩
  · rw [(hfile f).ref] at h0
    rw [(hfile f).type]
    exact h.files.closed f hf h0
  · rw [(hfile f).ref] at hpos
    exact ⟨hpos,(hfile f).type,(hfile f).ip,(hfile f).writable⟩

/-- A working directory is set, and the references follow. -/
theorem Kernel.setCwd {x : Option ℕ} (h : Kernel v) (hm : Moved v w g) (hr : Rests w v')
    (hproc : v'.proc = update v.proc p { v.proc p with cwd := x }) (hfile : v'.file = v.file)
    (hp : p < NPROC) (hx : ∀ k, x = some k → k < NINODE)
    (hg : ∀ k, k < NINODE → g k = hit x k - hit (v.cwd p) k) : Kernel v' := by
  have hslots : SlotUsers v' := by
    refine h.slots.cwd hp hx ?_ (cwd_update hproc) fun k hk => ?_
    · funext f
      rw [View.fileSlot,hfile]
      rfl
    · rw [hr.inode,hm.slot k hk,hg k hk]
      ring
  refine ⟨hr.good,hr.log,h.descriptors.same (ofile_cwd hproc) fun f _ => by rw [hfile],hslots,
    h.files.step hm hr hslots (fun f hf h0 => ?_) fun f _ hpos => .inl ?_⟩
  · rw [hfile] at h0 ⊢
    exact h.files.closed f hf h0
  · rw [hfile] at hpos ⊢
    exact ⟨hpos,rfl,rfl,rfl⟩

/-- An entry of the file table and the descriptor that stands for it are set. -/
theorem Kernel.set {ff : File} {x : Option ℕ} (h : Kernel v) (hm : Moved v w g) (hr : Rests w v')
    (hp : p < NPROC) (hfd : fd < NOFILE) (hf : f < NFILE)
    (hproc : v'.proc = update v.proc p { v.proc p with ofile := upd (v.proc p).ofile fd x })
    (hfile : v'.file = update v.file f ff) (hx : x = none ∨ x = some f)
    (ho : v.ofile (p,fd) = none ∨ v.ofile (p,fd) = some f)
    (href : ff.ref = (v.file f).ref - hit (v.ofile (p,fd)) f + hit x f) (hslot : ∀ k, k < NINODE →
      g k = hit (if 0 < ff.ref then some ff.ip else none) k - hit (v.fileSlot f) k)
    (hclosed : ff.ref = 0 → ff.type = .none) (hopen : 0 < ff.ref → Goes v' ff (v.file f)) :
    Kernel v' := by
  have hslots : SlotUsers v' := by
    refine h.slots.file hf (x := if 0 < ff.ref then some ff.ip else none) ?_ (cwd_ofile hproc)
      fun j hj => ?_
    · funext e
      unfold View.fileSlot
      rw [hfile,apply_update fun _ (a : File) => if 0 < a.ref then some a.ip else none]
    · rw [hr.inode,hm.slot j hj,hslot j hj]
      ring
  have hmiss : ∀ e y, e ≠ f → y = none ∨ y = some f → hit y e = 0 := by
    rintro e y he (rfl | rfl)
    · exact hit_none e
    · rw [hit_some,if_neg he]
  refine ⟨hr.good,hr.log,h.descriptors.update (mem_descriptors.mpr ⟨hp,hfd⟩) (fun e he => ?_)
    (ofile_update hproc) (fun e _ => ?_),hslots,h.files.step hm hr hslots (fun e he => ?_)
    fun e _ => ?_⟩
  · rcases hx with rfl | rfl
    · cases he
    · exact Option.some.inj he ▸ hf
  · rw [hfile]
    refine update_cases (Q := fun e (a : File) => a.ref = (v.file e).ref - hit _ e + hit x e) href
      fun he => ?_
    rw [hmiss e _ he ho,hmiss e _ he hx,sub_zero,add_zero]
  · rw [hfile]
    exact update_cases (Q := fun _ (a : File) => a.ref = 0 → a.type = .none) hclosed
      fun _ => h.files.closed e he
  · rw [hfile]
    exact update_cases (Q := fun e (a : File) => 0 < a.ref → Goes v' a (v.file e)) hopen
      fun _ hpos => .inl ⟨hpos,rfl,rfl,rfl⟩

theorem Kernel.dup (h : Kernel v) (hp : p < NPROC) (hfd : fd < NOFILE)
    (hfree : v.ofile (p,fd) = none) (hf : f < NFILE) (hpos : 0 < (v.file f).ref) (hr : Rests v v')
    (hproc : v'.proc = update v.proc p { v.proc p with ofile := upd (v.proc p).ofile fd (some f) })
    (hfile : v'.file = update v.file f { v.file f with ref := (v.file f).ref + 1 }) : Kernel v' := by
  refine h.set (.refl h.good) hr hp hfd hf hproc hfile (.inr rfl) (.inl hfree) ?_ (fun j _ => ?_)
    (fun h0 => ?_) fun _ => .inl ⟨hpos,rfl,rfl,rfl⟩
  · rw [hfree,hit_none,hit_some,if_pos rfl,sub_zero]
  · rw [View.fileSlot,if_pos hpos,if_pos (by dsimp only; omega),sub_self]
    rfl
  · dsimp only at h0
    omega

theorem Kernel.enter {ff : File} (h : Kernel v) (hm : Moved v w (single k))
    (hff : FreeFile v p f fd) (hp : p < NPROC) (hl : Fs.Loaded w k i n)
    (hwr : ff.writable = true → n.type ≠ T_DIR) (htype : ff.type = .inode) (href : ff.ref = 1)
    (hip : ff.ip = k) (hr : Rests w v')
    (hproc : v'.proc = update v.proc p { v.proc p with ofile := upd (v.proc p).ofile fd (some f) })
    (hfile : v'.file = update v.file f ff) : Kernel v' := by
  have hfree : v.ofile (p,fd) = none := hff.free
  subst hip
  refine h.set hm hr hp hff.descriptor hff.file hproc hfile (.inr rfl) (.inl hfree) ?_
    (fun j _ => ?_) (fun h0 => ?_) fun _ => .inr ⟨htype,i,n,hr.loaded hl,hwr⟩
  · rw [hfree,hit_none,hit_some,if_pos rfl,href,hff.unused]
    rfl
  · rw [View.fileSlot,hff.unused,href,if_pos Int.one_pos,if_neg (Int.lt_irrefl 0),hit_none,
      hit_some_eq,sub_zero]
  · rw [href] at h0
    cases h0

/-- The entry `a` without one reference, where those to the slots change by `g`. -/
structure GivenUp (a ff : File) (g : ℕ → ℤ) : Prop where
  ref : ff.ref = a.ref - 1
  shared : 0 < ff.ref → ff.type = a.type ∧ ff.ip = a.ip ∧ ff.writable = a.writable ∧
    ∀ k, k < NINODE → g k = 0
  last : ff.ref = 0 → ff.type = .none ∧ ∀ k, k < NINODE → g k = -hit (some a.ip) k

/-- A descriptor is given up, and with the last one the slot. -/
theorem Kernel.close {ff : File} (h : Kernel v) (hp : p < NPROC) (hfd : fd < NOFILE)
    (hopen : v.ofile (p,fd) = some f) (hf : f < NFILE) (hm : Moved v w g)
    (hg : GivenUp (v.file f) ff g) (hr : Rests w v')
    (hproc : v'.proc = update v.proc p { v.proc p with ofile := upd (v.proc p).ofile fd none })
    (hfile : v'.file = update v.file f ff) : Kernel v' := by
  have hpos := (h.opened hopen).2.1
  refine h.set hm hr hp hfd hf hproc hfile (.inl rfl) (.inr hopen) ?_ (fun j hj => ?_)
    (fun h0 => (hg.last h0).1) fun h0 => ?_
  · rw [hopen,hit_none,hit_some,if_pos rfl,hg.ref,add_zero]
  · rw [View.fileSlot,if_pos hpos]
    by_cases h0 : 0 < ff.ref
    · obtain ⟨-,hip,-,h1⟩ := hg.shared h0
      rw [if_pos h0,hip,h1 j hj,sub_self]
    · have := hg.ref
      rw [if_neg h0,(hg.last (by omega)).2 j hj,hit_none,zero_sub]
  · obtain ⟨h1,h2,h3,-⟩ := hg.shared h0
    exact .inl ⟨hpos,h1,h2,h3⟩

end Steps
end Xv6
