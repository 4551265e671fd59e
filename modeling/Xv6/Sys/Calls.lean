import Xv6.Sys.Failing
import Xv6.Sys.Tables

/-! # System calls one after the other

Processes make system calls, each of which runs to its end before the next one starts. -/
namespace Xv6
open Conc Pointers Fs Function Option Finset

inductive Call where
  | name (call : NameCall)
  | opens (path : Option (List UInt8)) (omode : UInt32)
  | close (fd : ℤ)
  | dup (fd : ℤ)
  | read (fd : ℤ) (n : ℕ) (ok : Bool)
  | write (fd : ℤ) (src : Option (List UInt8))
  | fstat (fd : ℤ) (ok : Bool)
  | exec (path : Option (List UInt8)) (reads : List (ℕ × ℕ))
  | fork (q : ℕ)
  | exit

def Call.sys (p : ℕ) : Call → Fs Unit
  | .name call => do let _ ← call.sys p; return ()
  | .opens path omode => do let _ ← sysOpen p path omode; return ()
  | .close fd => do let _ ← sysClose p fd; return ()
  | .dup fd => do let _ ← sysDup p fd; return ()
  | .read fd n ok => do let _ ← sysRead p fd n ok; return ()
  | .write fd src => do let _ ← sysWrite p fd src; return ()
  | .fstat fd ok => do let _ ← sysFstat p fd ok; return ()
  | .exec path reads => do let _ ← Fs.sysExec p path reads; return ()
  | .fork q => do let _ ← Fs.fork p q; return ()
  | .exit => Fs.exit p

structure Stable (v : View) : Prop where
  kernel : Kernel v
  idle : IdleEmpty v

section Stable
variable {p : ℕ} {E : Stops} {v v' : View}

theorem IdleEmpty.of_proc (h : IdleEmpty v) (hp : v'.proc = v.proc) : IdleEmpty v' := by
  intro q hq fd
  unfold View.cwd at hq
  unfold View.ofile
  rw [hp] at hq ⊢
  exact h q hq fd

theorem Stable.starts (h : Stable v) (hE : ∀ e, E e) : Starts E v.begun :=
  .of_panics h.kernel.good.core.begun h.kernel.good.inRange fun _ _ => hE _

theorem Stable.holds_cwd {k : ℕ} (h : Stable v) (hp : v.cwd p = some k) :
    Holds v ((v.proc p).cwd.getD 0) (v.inode k).inum := by
  unfold View.cwd at hp
  rw [hp]
  exact h.kernel.slots.holds_cwd hp

theorem Stable.hasStart {k : ℕ} {path : List UInt8} (h : Stable v) (hE : ∀ e, E e)
    (hp : v.cwd p = some k) : HasStart E v.begun p path :=
  .of_cwd ⟨_,h.holds_cwd hp⟩ (hE _)

theorem IdleEmpty.of_others (h : IdleEmpty v)
    (hp : v'.cwd p = none → ∀ fd, v'.ofile (p,fd) = none)
    (hq : ∀ q, q ≠ p → v'.proc q = v.proc q) : IdleEmpty v' := by
  intro q hnone fd
  by_cases hqp : q = p
  · subst hqp
    exact hp hnone fd
  · unfold View.cwd at hnone
    unfold View.ofile
    rw [hq q hqp] at hnone ⊢
    exact h q hnone fd

theorem IdleEmpty.of_update {x : Proc} (h : IdleEmpty v) (hp : v'.proc = update v.proc p x)
    (hx : x.cwd ≠ none) : IdleEmpty v' := by
  refine h.of_others (p := p) (absurd · ?_) fun q hq => ?_
  · rwa [View.cwd,hp,update_self]
  · rw [hp,update_of_ne hq]

theorem Stable.moved {d : Disk} (h : Stable v) (hm : Moved v.begun v' 0)
    (hd : SameData v'.disk d) : Stable (v'.ended d) := by
  have hm' := hm.ended hd
  refine ⟨h.kernel.keep hm' ⟨hm'.good,rfl,rfl,rfl⟩ hm'.proc fun f => ?_,h.idle.of_proc hm.proc⟩
  rw [hm'.file]
  exact .refl _

/-- The end of `open`: the file is entered into the tables. -/
theorem Stable.enter {v1 : View} {d : Disk} {k i f fd : ℕ} {n : Node} {ff : File} {file : ℕ → File}
    {proc : ℕ → Proc} (h : Stable v) (hp : p < NPROC) (hcwd : v.cwd p ≠ none)
    (hm : Moved v.begun v1 (single k)) (hl : Loaded v1 k i n) (hff : FreeFile v.begun p f fd)
    (hd : SameData v1.disk d) (hfile : file = update v.file f ff)
    (hproc : proc = update v.proc p { v.proc p with ofile := upd (v.proc p).ofile fd (some f) })
    (htype : ff.type = .inode) (href : ff.ref = 1) (hip : ff.ip = k)
    (hwr : ff.writable = true → n.type ≠ T_DIR) :
    Stable { v1.ended d with file := file, proc := proc } := by
  subst hfile hproc
  have hm' := hm.ended hd
  have hl' : Loaded (v1.ended d) k i n :=
    ⟨hl.holds.of_inode rfl,hl.valid,
      (congrFun (hd.sound hm.good.core.sound).2 i).trans hl.node⟩
  refine ⟨h.kernel.enter hm' ⟨hff.file,hff.unused,hff.descriptor,hff.free⟩ hp hl' hwr htype href
    hip ⟨hm'.good.tables _ _,rfl,rfl,rfl⟩ rfl rfl,h.idle.of_update rfl hcwd⟩

end Stable

namespace Fs
variable {p : ℕ} {E : Stops} {v v' w : View}

def Stays (p : ℕ) {α : Type} : α → View → (Lock → Option ℕ) → Prop :=
  fun _ v' o' => Stable v' ∧ o' = held p ∅

/-- A transaction that leaves the references. -/
theorem Safe.keeps {α : Type} {x : Fs α} (h : Stable v)
    (hx : Safe p E x (fun _ v' o' => Moved v.begun v' 0 ∧ (∃ A, Logs A openLog v'.log) ∧
      o' = held p ∅) v.begun (held p ∅)) : Safe p E (Fs.transaction x) (Stays p) v (held p ∅) := by
  exact operation h.kernel.log (hx.imp fun r v' o' ⟨hm,hl,ho⟩ =>
    ⟨hm.good.core,hl,ho,fun d hd _ => ⟨h.moved hm hd,rfl⟩⟩)

section Names
variable {k : ℕ}

/-- What `Safe.keeps` asks for, where nothing has been done. -/
theorem keeps_walk (h : Stable v) (hw : Walk v.begun v' 0) :
    Moved v.begun v' 0 ∧ (∃ A, Logs A openLog v'.log) ∧ held p ∅ = held p ∅ :=
  ⟨.of_walk h.kernel.good.begun hw,⟨_,hw.frame.logs⟩,rfl⟩

theorem keeps_progress {fs : ℕ → Option Node} {A : Finset ℕ} (h : Stable v)
    (hp : Progress v.begun v' fs 0 A) (hf : Follows (files v.disk) fs) :
    Moved v.begun v' 0 ∧ (∃ A, Logs A openLog v'.log) ∧ held p ∅ = held p ∅ := by
  obtain ⟨B,hB⟩ := hp.frame
  exact ⟨.done h.kernel.good.begun hp hf,⟨B,hB.logs⟩,rfl⟩

variable (hE : ∀ e, E e) (h : Stable v) (hp : v.cwd p = some k)
include hE h hp

theorem Safe.mknode_stable {path : Option (List UInt8)} {type major minor : Int16} (h0 : type ≠ 0) (hfile : type ≠ T_FILE) :
    Safe p E (mknode p path type major minor) (Stays p) v (held p ∅) := by
  rw [mknode_eq]
  refine keeps h ?_
  cases argstr path with
  | none => exact pure (keeps_walk h (.refl h.kernel.good.core.begun))
  | some path =>
    exact mknodeBody (h.starts hE) (fun _ _ => hE _) h0 hfile (h.hasStart hE hp)
      (fun _ _ _ _ _ _ => hE _) (fun v' hw => keeps_walk h hw)
      fun _ _ _ _ _ _ _ _ _ _ v' hat hp => keeps_progress h hp (hat.follows h.kernel.good.begun)

theorem Safe.sysLink_stable {old new : Option (List UInt8)} : Safe p E (sysLink p old new) (Stays p) v (held p ∅) := by
  rw [sysLink_eq]
  cases argstr old with
  | none => exact pure ⟨h,rfl⟩
  | some old =>
    cases argstr new with
    | none => exact pure ⟨h,rfl⟩
    | some new =>
      refine keeps h (linkBody (h.starts hE) h.kernel.good.begun.quiet
        (h.hasStart hE hp) (h.hasStart hE hp) (fun _ _ _ _ _ _ _ _ _ => hE _)
        (fun _ _ _ _ _ _ _ => hE _) (fun v' _ hr => ?_) fun _ _ _ _ _ _ _ v' hat hp => ?_)
      · obtain ⟨A,hA⟩ := hr.frame
        exact ⟨.of_restored h.kernel.good.begun hr,⟨A,hA.logs⟩,rfl⟩
      · exact keeps_progress h hp (hat.follows h.kernel.good.begun)

theorem Safe.sysUnlink_stable {path : Option (List UInt8)} : Safe p E (sysUnlink p path) (Stays p) v (held p ∅) := by
  rw [sysUnlink_eq]
  cases argstr path with
  | none => exact pure ⟨h,rfl⟩
  | some path =>
    exact keeps h (unlinkBody (h.starts hE) h.kernel.good.begun.quiet (h.hasStart hE hp)
      (fun _ _ _ _ _ _ _ _ _ => hE _) (hE _) (hE _) (fun v' hw => keeps_walk h hw)
      fun _ _ _ _ _ _ _ _ v' hat hp => keeps_progress h hp (hat.follows h.kernel.good.begun))

theorem Safe.sysChdir_stable {path : Option (List UInt8)} : Safe p E (sysChdir p path) (Stays p) v (held p ∅) := by
  have hgood := h.kernel.good.begun
  rw [sysChdir_eq]
  refine bind (operation h.kernel.log ?_)
  cases argstr path with
  | none =>
    exact pure ⟨hgood.core,⟨∅,.refl⟩,rfl,fun d hd _ =>
      pure ⟨h.moved (.refl hgood) hd,rfl⟩⟩
  | some path =>
    have hcwd : Holds v.begun ((v.begun.proc p).cwd.getD 0) (v.inode k).inum :=
      (h.holds_cwd hp).of_inode rfl
    have hslot : (v.begun.proc p).cwd.getD 0 = k := by
      change (v.cwd p).getD 0 = k
      rw [hp]
      rfl
    refine chdirBody (h.starts hE) (h.hasStart hE hp) hcwd
      (fun v' hw => ⟨hw.core,⟨_,hw.frame.logs⟩,rfl,fun d hd _ =>
        pure ⟨h.moved (.of_walk hgood hw) hd,rfl⟩⟩)
      fun j i n v1 v' hw1 hl1 _ hw' hf hs hj => ?_
    rw [hslot] at hcwd hw' hs
    have hm1 := Moved.of_walk_one hgood hw1 hl1.holds
    have hm : Moved v.begun v' (single j + -single k) :=
      hm1.trans (.put hm1.good (hw1.keep k _ hcwd) hw' hf hs) fun _ => single_nonneg j _
    refine ⟨hw'.core,⟨_,hw1.frame.logs.trans hw'.frame.logs⟩,rfl,fun d hd _ =>
      bind (modifyProc (pure ⟨⟨?_,?_⟩,rfl⟩))⟩
    · have hm' := hm.ended hd
      refine h.kernel.setCwd hm' ⟨hm'.good.tables _ _,rfl,rfl,rfl⟩ (by rw [hm'.proc]) hm'.file
        (h.kernel.slots.inside p k hp).1 (fun a ha => Option.some.inj ha ▸ hj.slot) fun a _ => ?_
      rw [hp,hit_some_eq,hit_some_eq,Pi.add_apply,Pi.neg_apply,sub_eq_add_neg]
    · exact h.idle.of_update (congrArg (fun f : ℕ → Proc => update f p { f p with cwd := some j })
        hm.proc) (some_ne_none j)

theorem Safe.nameCall_stable {call : NameCall} : Safe p E (call.sys p) (Stays p) v (held p ∅) := by
  cases call with
  | link old new => exact sysLink_stable hE h hp
  | unlink path => exact sysUnlink_stable hE h hp
  | mkdir path => exact mknode_stable hE h hp (by decide) (by decide)
  | mknod path major minor => exact mknode_stable hE h hp (by decide) (by decide)
  | chdir path => exact sysChdir_stable hE h hp

theorem Safe.sysOpen_stable {path : Option (List UInt8)} {omode : UInt32} :
    Safe p E (sysOpen p path omode) (Stays p) v (held p ∅) := by
  have hgood := h.kernel.good.begun
  have hlt := (h.kernel.slots.inside p k hp).1
  have hcwd : v.cwd p ≠ none := ne_none_iff_exists'.2 ⟨k,hp⟩
  -- the entries of the tables when the fields of the file have been set
  have hset : ∀ {f fd : ℕ} {v1 : View} {d : Disk} {x : File}, v1.file = v.begun.file →
      update ((v1.install p f fd).ended d).file f x = update v.file f x := by
    intro f fd v1 d x hf
    change update (update v1.file f _) f x = _
    rw [Function.update_idem,hf]
    rfl
  have hproc : ∀ {f fd : ℕ} {v1 : View} {d : Disk}, v1.proc = v.begun.proc →
      ((v1.install p f fd).ended d).proc =
        update v.proc p { v.proc p with ofile := upd (v.proc p).ofile fd (some f) } := by
    intro f fd v1 d hpr
    change update v1.proc p { v1.proc p with ofile := _ } = _
    rw [hpr]
    rfl
  have hone : ∀ {f fd : ℕ} {v1 : View} {d : Disk},
      (((v1.install p f fd).ended d).file f).ref = 1 := by
    intro f fd v1 d
    change (update v1.file f { v1.file f with ref := 1 } f).ref = 1
    rw [update_self]
  rw [sysOpen_eq]
  cases argstr path with
  | none => exact pure ⟨h,rfl⟩
  | some path =>
    refine bind (operation h.kernel.log (openBody (h.starts hE) (fun _ _ => hE _)
      (h.hasStart hE hp) h.kernel.files.closed (fun _ _ _ _ _ _ => hE _) (fun v' hw => ?_)
      (fun i d name nd x y x' y' x'' y'' v' _ hat _ hp' => ?_)
      (fun j i n f fd v1 hw hl hmode hff => ?_)
      fun j i d name nd f fd x y x' y' x'' y'' v1 _ hat hff hp' hl => ?_))
    · exact ⟨hw.core,⟨_,hw.frame.logs⟩,rfl,fun d hd _ =>
        pure ⟨h.moved (.of_walk hgood hw) hd,rfl⟩⟩
    · obtain ⟨B,hB⟩ := hp'.frame
      exact ⟨hp'.core,⟨B,hB.logs⟩,rfl,fun d hd _ =>
        pure ⟨h.moved (.done hgood hp' (hat.follows hgood)) hd,rfl⟩⟩
    · have hm := Moved.of_walk_one hgood hw hl.holds
      refine ⟨hw.core.install,⟨_,hw.frame.logs⟩,rfl,fun d hd _ =>
        bind (modifyFile (pure ⟨?_,rfl⟩))⟩
      change Stable { v1.ended d with
        file := update ((v1.install p f fd).ended d).file f _
        proc := ((v1.install p f fd).ended d).proc }
      refine h.enter hlt hcwd hm hl hff hd (hset hm.file) (hproc hm.proc) rfl hone rfl
        fun hwr hdir => ?_
      dsimp only at hwr
      rw [hmode hdir] at hwr
      exact absurd hwr (by decide)
    · have hm := Moved.took hgood hp' (hat.follows hgood) hl.holds
      obtain ⟨B,hB⟩ := hp'.frame
      refine ⟨hp'.core.install,⟨B,hB.logs⟩,rfl,fun d hd _ =>
        bind (modifyFile (pure ⟨?_,rfl⟩))⟩
      change Stable { v1.ended d with
        file := update ((v1.install p f fd).ended d).file f _
        proc := ((v1.install p f fd).ended d).proc }
      refine h.enter hlt hcwd hm hl hff hd (hset hm.file) (hproc hm.proc) rfl hone rfl fun _ => ?_
      unfold createdNode
      rw [if_neg (by decide)]
      exact show T_FILE ≠ T_DIR by decide

end Names

section Files
variable {k f : ℕ}

/-- A descriptor of a process stands for an open file that has been read. -/
theorem Safe.argfd {Q : Post (Option ℕ)} {o : Owners} {fd : ℤ}
    (hnone : Q none v o)
    (hsome : ∀ f, fd.toNat < NOFILE → v.ofile (p,fd.toNat) = some f → Q (some f) v o) :
    Safe p E (Fs.argfd p fd) Q v o := by
  refine ite (fun _ => pure hnone) fun hfd => proc_seq (pure ?_)
  cases hf : (v.proc p).ofile fd.toNat with
  | none => exact hnone
  | some f => exact hsome f (by omega) hf

/-- `fileclose` gives up one reference to the file, and with the last one the slot. -/
theorem Safe.fileclose {Q : Post Unit} {i : ℕ} (hE : ∀ e, E e)
    (hc : Consistent v) (hlog : v.log = emptyLog) (hpos : 0 < (v.file f).ref)
    (htype : (v.file f).type = .inode) (hk : Holds v (v.file f).ip i)
    (hq : ∀ ff g v', GivenUp (v.file f) ff g →
      Moved { v with file := update v.file f ff } v' g → v'.log = emptyLog →
      Q () v' (held p ∅)) : Safe p E (fileclose f) Q v (held p ∅) := by
  rw [fileclose_eq]
  refine bind (ftableSection ?_)
  unfold Ftable.close
  rw [if_neg (by omega)]
  by_cases hshared : (v.file f).ref - 1 > 0
  · rw [if_pos hshared]
    refine pure (hq { v.file f with ref := (v.file f).ref - 1 } 0 _ ⟨rfl,
      fun _ => ⟨rfl,rfl,rfl,fun _ _ => rfl⟩,fun h0 => absurd h0 ?_⟩
      (.refl (hc.tables _ v.proc)) hlog)
    dsimp only
    omega
  · rw [if_neg hshared]
    dsimp only [assignAt]
    rw [htype]
    have hc1 := hc.tables
      (update v.file f { v.file f with ref := 0, type := .none }) v.proc
    have hk1 : Holds (View.begun { v with
        file := update v.file f { v.file f with ref := 0, type := .none } }) (v.file f).ip i :=
      hk.of_inode rfl
    have hput := Walk.unref hc1.begun.core hk1
    rw [← zero_add (one i)] at hput
    refine operation hlog (iput_walk hput (hc1.begun.core.unref hk1) (fun _ => le_rfl)
      hk1 (notMem_empty _) (.inr (.inl fun _ => hE _)) fun v' hw hf hs => ?_)
    refine ⟨hw.core,⟨_,hf.logs⟩,rfl,fun d hd _ => ?_⟩
    refine hq { v.file f with ref := 0, type := .none } (-single (v.file f).ip) _
      ⟨?_,(absurd · (Int.lt_irrefl 0)),fun _ => ⟨rfl,fun j _ => ?_⟩⟩ ((Moved.put hc1.begun hk1 hw hf hs).ended hd) rfl
    · dsimp only
      omega
    · rw [hit_some_eq]
      rfl

theorem Safe.sysClose_stable {fd : ℤ} (hE : ∀ e, E e) (h : Stable v) (hp : v.cwd p = some k) :
    Safe p E (sysClose p fd) (Stays p) v (held p ∅) := by
  refine bind (argfd (pure ⟨h,rfl⟩) fun f hfd hf => ?_)
  obtain ⟨hlt,hpos,htype,i,n,hl,-⟩ := h.kernel.opened hf
  refine bind (modifyProc ?_)
  have hc1 := h.kernel.good.tables v.file
    (update v.proc p { v.proc p with ofile := upd (v.proc p).ofile fd.toNat none })
  refine bind (fileclose hE hc1 h.kernel.log hpos htype (hl.holds.of_inode rfl)
    fun ff g v' hg hm hlog => pure ⟨⟨?_,?_⟩,rfl⟩)
  · exact h.kernel.close (h.kernel.slots.inside p k hp).1 hfd hf hlt
      (hm.rebase (v := v) rfl rfl) hg ⟨hm.good,hlog,rfl,rfl⟩ hm.proc hm.file
  · exact h.idle.of_update hm.proc (ne_none_iff_exists'.2 ⟨k,hp⟩)

theorem Safe.filedup {Q : Post Unit} {o : Owners}
    (hpos : 0 < (v.file f).ref)
    (hq : Q () { v with file := update v.file f { v.file f with ref := (v.file f).ref + 1 } } o) :
    Safe p E (Fs.filedup f) Q v o := by
  refine bind (ftableSection ?_)
  unfold Ftable.dup
  rw [if_neg (by omega)]
  exact panicIf nofun fun _ => hq

theorem Safe.sysDup_stable {fd : ℤ} (h : Stable v) (hp : v.cwd p = some k) :
    Safe p E (sysDup p fd) (Stays p) v (held p ∅) := by
  refine bind (argfd (pure ⟨h,rfl⟩) fun f _ hf => ?_)
  obtain ⟨hlt,hpos,-⟩ := h.kernel.opened hf
  refine bind (fdalloc (fun _ => pure ⟨h,rfl⟩) fun e he hfree => ?_)
  refine bind (filedup hpos (pure ⟨⟨?_,?_⟩,rfl⟩))
  · exact h.kernel.dup (h.kernel.slots.inside p k hp).1 he hfree hlt hpos
      ⟨h.kernel.good.tables _ _,h.kernel.log,rfl,rfl⟩ rfl rfl
  · exact h.idle.of_update rfl (ne_none_iff_exists'.2 ⟨k,hp⟩)

theorem Stable.offsets {inp : List UInt8} {file : ℕ → File} (h : Stable v)
    (hfile : ∀ e, SameFile (file e) (v.file e)) : Stable { v with file := file, input := inp } :=
  ⟨h.kernel.keep (.refl h.kernel.good)
    ⟨h.kernel.good.of_inodes (h.kernel.good.core.of_inodes ⟨h.kernel.good.core.ready.sb,
      h.kernel.good.core.ready.block,h.kernel.good.core.ready.log⟩ h.kernel.good.core.sound rfl rfl)
      rfl rfl,h.kernel.log,rfl,rfl⟩ rfl hfile,h.idle.of_proc rfl⟩

theorem sameFile_off (x e : ℕ) :
    SameFile (update v.file f { v.file f with off := x } e) (v.file e) := by
  by_cases he : e = f
  · rw [he,update_self]
    exact ⟨rfl,rfl,rfl,rfl⟩
  · rw [update_of_ne he]
    exact .refl _

/-- `f->off += r` changes the offset, if anything. -/
theorem Safe.advance_any {Q : Post Unit} {o : Owners} {r : ℤ}
    (hq : ∀ file, (∀ e, SameFile (file e) (v.file e)) → Q () { v with file := file } o) :
    Safe p E (Fs.advance f r) Q v o := by
  exact whenever (fun _ => modifyFile (hq _ fun e => sameFile_off _ e))
    fun _ => hq v.file fun _ => .refl _

theorem Safe.sysRead_stable {fd : ℤ} {n : ℕ} {ok : Bool} (hE : ∀ e, E e) (h : Stable v) :
    Safe p E (sysRead p fd n ok) (Stays p) v (held p ∅) := by
  refine bind (argfd (pure ⟨h,rfl⟩) fun f _ hf => ?_)
  obtain ⟨-,-,htype,i,m,hl,-⟩ := h.kernel.opened hf
  have ho := Opened.of_loaded hl h.kernel.good.core
  refine ite (fun _ => ?_) fun _ => pure ⟨h,rfl⟩
  refine file_seq (ite (fun _ => pure ⟨h,rfl⟩) fun _ => ?_)
  rw [htype]
  refine bind (ilock_loaded h.kernel.good.core hl (notMem_empty _) ?_)
  refine file_seq (bind (readi ho.ready ho.sound.owned ho.inum_lt ho.copy.symm ho.type_ne_zero
    (fun _ => rfl) (fun _ => hE _) ho.holds.inum ho.valid ho.holds.ref
    (held_mem (mem_insert_self _ _))
    (ho.sound.mapped i ho.inum_lt ho.type_ne_zero) fun r inp _ => ?_))
  refine bind (advance_any fun file hfile => ?_)
  refine bind (iunlock_last ho.holds.ref ?_)
  exact pure ⟨Stable.offsets (v := v) h hfile,rfl⟩

theorem Safe.sysFstat_stable {fd : ℤ} {ok : Bool} (h : Stable v) :
    Safe p E (sysFstat p fd ok) (Stays p) v (held p ∅) := by
  refine bind (argfd (pure ⟨h,rfl⟩) fun f _ hf => ?_)
  obtain ⟨-,-,htype,i,m,hl,-⟩ := h.kernel.opened hf
  refine ite (fun _ => ?_) fun _ => pure ⟨h,rfl⟩
  refine file_seq ?_
  rw [htype]
  refine bind (ilock_loaded h.kernel.good.core hl (notMem_empty _) ?_)
  refine bind (inode_seq (pure ?_))
  refine bind (iunlock_last hl.holds.ref ?_)
  exact pure ⟨h,rfl⟩

end Files

section Write
variable {f : ℕ}

def DirsKept (v v' : View) : Prop :=
  ∀ i n, files v.disk i = some n → n.type = T_DIR → files v'.disk i = some n

theorem Safe.writeChunk_stable {i : ℕ} {n : Node} {src : List UInt8} (hE : ∀ e, E e) (h : Stable v)
    (hl : Loaded v (v.file f).ip i n) (hdir : n.type ≠ T_DIR) :
    Safe p E (Fs.transaction (Fs.writeChunk f (v.file f).ip src)) (fun _ v' o' => Stable v' ∧
      DirsKept v v' ∧ (∀ e, SameFile (v'.file e) (v.file e)) ∧ o' = held p ∅) v (held p ∅) := by
  have hgood := h.kernel.good.begun
  have hl0 : Loaded v.begun (v.file f).ip i n := ⟨hl.holds.of_inode rfl,hl.valid,hl.node⟩
  have ho := Opened.of_loaded hl0 hgood.core
  -- the end of the round, after an operation that keeps the references
  have hend : ∀ {v1 : View} {r : ℤ} {A : Finset ℕ}, Moved v.begun v1 0 → Frame A v.begun v1 →
      DirsKept v v1 → Holds v1 (v.file f).ip i → Safe p E (do
        Fs.advance f r
        Fs.iunlock (v.file f).ip
        return r) (fun _ v' o' => Core v' ∧ (∃ A, Logs A openLog v'.log) ∧ o' = held p ∅ ∧
          ∀ d, SameData v'.disk d → Core (v'.ended d) → Stable (v'.ended d) ∧
            DirsKept v (v'.ended d) ∧ (∀ e, SameFile (v'.file e) (v.file e)) ∧
            held p ∅ = held p ∅) v1 (held p (insert (v.file f).ip ∅)) := by
    intro v1 r A hm hf hdirs hk
    refine bind (advance_any fun file hfile => ?_)
    refine bind (iunlock_last hk.ref ?_)
    have hc := (hm.good.tables file v1.proc).core
    refine pure ⟨hc,⟨A,hf.logs⟩,rfl,fun d hd _ =>
      ⟨Stable.offsets (h.moved hm hd) hfile,fun a m hm' ht => ?_,fun e => ?_,rfl⟩⟩
    · exact (congrFun (hd.sound hm.good.core.sound).2 a).trans (hdirs a m hm' ht)
    · rw [← show v1.file e = v.file e from congrFun hm.file e]
      exact hfile e
  have hrefl : DirsKept v v.begun := fun _ _ hn _ => hn
  refine operation h.kernel.log ?_
  refine bind (ilock_loaded hgood.core hl0 (notMem_empty _) ?_)
  refine file_seq (bind (writei (c := 0) ho.ready ho.sound ho.inum_lt ho.holds.inum
    ho.copy ho.type_ne_zero ho.valid ho.holds.ref (fun _ => rfl)
    (held_mem (mem_insert_self _ _))
    (fun _ _ => ⟨logSet_spec v.disk i _ _,.of_stops (fun _ => hE _) (hE _)⟩)
    (fun _ r => hend (A := ∅) (.refl hgood) (.refl ho.ready.log) hrefl hl0.holds)
    (fun _ _ => hend (A := ∅) (.refl hgood) (.refl ho.ready.log) hrefl hl0.holds)
    fun _ _ A v1 hw _ => ?_))
  have he := hw.edit ho.nodeOf_eq
  have hp := (Progress.of_walk hgood.core (.refl hgood.core) fun _ => le_rfl).edit he hl0
  refine hend (.done hgood hp (hgood.follows.edit_there hl0.node hl0.node rfl fun hd => ?_))
    he.frame (fun a m hm ht => ?_) (he.holds_iff.mpr hl0.holds)
  · exact absurd hd hdir
  · have hne : a ≠ i := by
      rintro rfl
      have hm' := hl0.node
      rw [show files v.begun.disk a = some m from hm] at hm'
      exact hdir (Option.some.inj hm' ▸ ht)
    rw [he.files,update_of_ne hne]
    exact hm

/-- The loop of `filewrite`, by induction on the rounds; the files that are open stay as they
are, up to their offsets. -/
theorem Safe.filewriteFrom_stable {fuel ip : ℕ} {src : List UInt8} (hE : ∀ e, E e) (h : Stable v)
    (hf : f < NFILE) (hpos : 0 < (v.file f).ref) (hw : (v.file f).writable = true)
    (hip : ip = (v.file f).ip) : Safe p E (filewriteFrom f ip fuel src)
      (fun _ v' o' => Stable v' ∧ DirsKept v v' ∧ o' = held p ∅) v (held p ∅) := by
  induction fuel generalizing v src with
  | zero => exact pure ⟨h,fun _ _ hn _ => hn,rfl⟩
  | succ fuel ih =>
    subst hip
    obtain ⟨-,i,n,hl,hdir⟩ := h.kernel.files.opened f hf hpos
    rw [filewriteFrom_succ]
    refine ite (fun _ => pure ⟨h,fun _ _ hn _ => hn,rfl⟩) fun _ => bind ?_
    refine (writeChunk_stable hE h hl (hdir hw)).imp fun r v' o' ⟨h',hdirs,hsame,ho⟩ => ?_
    subst ho
    refine ite (fun _ => pure ⟨h',hdirs,rfl⟩) fun _ => ?_
    have hpos' : 0 < (v'.file f).ref := (hsame f).ref ▸ hpos
    have hw' : (v'.file f).writable = true := (hsame f).writable ▸ hw
    refine bind (panicIf (fun _ => hE _) fun _ => ?_)
    exact (ih h' hpos' hw' (hsame f).ip.symm).imp fun _ v'' _ ⟨h'',hdirs',ho⟩ =>
      ⟨h'',fun a n hn ht => hdirs' a n (hdirs a n hn ht) ht,ho⟩

theorem Safe.sysWrite_stable {fd : ℤ} {src : Option (List UInt8)} (hE : ∀ e, E e) (h : Stable v) :
    Safe p E (sysWrite p fd src) (fun _ v' o' => Stable v' ∧ DirsKept v v' ∧ o' = held p ∅) v
      (held p ∅) := by
  have hsame : ∀ r : ℤ, Safe p E (Pure.pure r : Fs ℤ)
      (fun _ v' o' => Stable v' ∧ DirsKept v v' ∧ o' = held p ∅) v (held p ∅) :=
    fun _ => pure ⟨h,fun _ _ hn _ => hn,rfl⟩
  refine bind (argfd (hsame _) fun f _ hf => ?_)
  obtain ⟨hlt,hpos,htype,-⟩ := h.kernel.opened hf
  cases src with
  | none => exact hsame _
  | some src =>
    refine file_seq (ite (fun _ => hsame _) fun hw => ?_)
    rw [htype]
    refine bind ((filewriteFrom_stable hE h hlt hpos (by simpa using hw) rfl).imp
      fun _ v' o' h' => pure h')

end Write

section Processes
variable {k : ℕ}

theorem Safe.sysExec_stable {path : Option (List UInt8)} {reads : List (ℕ × ℕ)} (hE : ∀ e, E e)
    (h : Stable v) (hp : v.cwd p = some k) :
    Safe p E (sysExec p path reads) (Stays p) v (held p ∅) := by
  rw [sysExec_eq]
  cases argstr path with
  | none => exact pure ⟨h,rfl⟩
  | some path =>
    refine keeps h (execBody (hE _) (h.starts hE) (h.hasStart hE hp)
      (fun v' hw => keeps_walk h hw) fun j i n v1 inp v' hw hl hw' hf hs => ?_)
    have hm1 := Moved.of_walk_one h.kernel.good.begun hw hl.holds
    have hm2 := hm1.trans (.input hm1.good inp) fun a => single_nonneg j a
    rw [add_zero] at hm2
    have hm := hm2.trans (.put hm2.good (hl.holds.of_inode rfl) hw' hf fun _ => hs)
      fun a => single_nonneg j a
    rw [add_neg_cancel] at hm
    exact ⟨hm,⟨_,hw.frame.logs.trans hw'.frame.logs⟩,rfl⟩

/-- What holds in the loop of `fork`: the child has the descriptors below `j`. -/
structure Forking (v : View) (q j : ℕ) (w : View) : Prop where
  kernel : Kernel w
  others : ∀ r, r ≠ q → w.proc r = v.proc r
  idle : w.cwd q = none
  free : ∀ fd, j ≤ fd → w.ofile (q,fd) = none

theorem Safe.forkFile {q j : ℕ} (hq : q < NPROC) (hj : j < NOFILE) (h : Forking v q j w) :
    Safe p E (forkFile p q j) (fun _ w' o' => Forking v q (j + 1) w' ∧ o' = held p ∅) w
      (held p ∅) := by
  refine proc_seq ?_
  cases hf : (w.proc p).ofile j with
  | none => exact pure ⟨⟨h.kernel,h.others,h.idle,fun fd hfd => h.free fd (by omega)⟩,rfl⟩
  | some f =>
    obtain ⟨hlt,hpos,-⟩ := h.kernel.opened (a := (p,j)) hf
    refine bind (filedup hpos (modifyProc ⟨?_,rfl⟩))
    have hproc : update w.proc q { w.proc q with ofile := upd (w.proc q).ofile j (some f) } =
        update w.proc q { w.proc q with ofile := upd (w.proc q).ofile j (some f) } := rfl
    refine ⟨h.kernel.dup hq hj (h.free j le_rfl) hlt hpos
      ⟨h.kernel.good.tables _ _,h.kernel.log,rfl,rfl⟩ rfl rfl,fun r hr => ?_,?_,fun fd hfd => ?_⟩
    · dsimp only
      rw [update_of_ne hr]
      exact h.others r hr
    · rw [cwd_ofile hproc]
      exact h.idle
    · rw [ofile_update hproc,update_of_ne]
      · exact h.free fd (by omega)
      · intro hc
        have := (Prod.mk.inj hc).2
        omega

theorem Safe.fork_stable {q : ℕ} (h : Stable v) (hp : v.cwd p = some k) :
    Safe p E (fork p q) (Stays p) v (held p ∅) := by
  refine proc_seq (ite (fun _ => pure ⟨h,rfl⟩) fun hq => ?_)
  have hlt : q < NPROC := by
    by_contra hge
    exact hq (.inr (by omega))
  have hnone : v.cwd q = none := by
    cases hc : v.cwd q with
    | none => rfl
    | some a => exact absurd (.inl (by rw [View.cwd] at hc; rw [hc]; rfl)) hq
  have hpq : p ≠ q := by
    rintro rfl
    rw [hp] at hnone
    cases hnone
  refine bind (forM_range (Forking v q) (fun j w hj hw => forkFile hlt hj hw)
    ⟨h.kernel,fun _ _ => rfl,hnone,fun fd _ => h.idle q hnone fd⟩ fun w hw => ?_)
  have hcwd : w.cwd p = some k := by
    rw [View.cwd,hw.others p hpq]
    exact hp
  have hk := hw.kernel.slots.holds_cwd hcwd
  refine proc_seq ?_
  unfold View.cwd at hcwd
  rw [hcwd,getD_some]
  refine bind (idup hw.kernel.good.core hk fun v' hwalk hv' => ?_)
  have hm := Moved.of_walk_one hw.kernel.good hwalk (hwalk.keep k _ hk)
  have hlog : v'.log = emptyLog := by
    rw [hv']
    exact hw.kernel.log
  refine bind (modifyProc (pure ⟨⟨?_,?_⟩,rfl⟩))
  · refine hw.kernel.setCwd (x := some k) hm ⟨hm.good.tables _ _,hlog,rfl,rfl⟩ (by rw [hm.proc])
      hm.file hlt (fun a ha => Option.some.inj ha ▸ hk.slot) fun a _ => ?_
    rw [hw.idle,hit_some_eq,hit_none,sub_zero]
  · refine h.idle.of_others (p := q) (absurd · ?_) fun r hr => ?_
    · unfold View.cwd
      dsimp only
      rw [update_self]
      exact some_ne_none k
    · dsimp only
      rw [update_of_ne hr,hm.proc]
      exact hw.others r hr

/-- What holds in the loop of `exit`: the descriptors below `j` have been closed. -/
structure Exiting (v : View) (p k j : ℕ) (w : View) : Prop where
  kernel : Kernel w
  others : ∀ r, r ≠ p → w.proc r = v.proc r
  cwd : w.cwd p = some k
  closed : ∀ fd, fd < j → w.ofile (p,fd) = none

theorem Safe.exitFile {j : ℕ} (hE : ∀ e, E e) (hj : j < NOFILE) (h : Exiting v p k j w) :
    Safe p E (exitFile p j) (fun _ w' o' => Exiting v p k (j + 1) w' ∧ o' = held p ∅) w
      (held p ∅) := by
  have hbelow : ∀ fd, fd < j + 1 → fd ≠ j → w.ofile (p,fd) = none :=
    fun fd h1 h2 => h.closed fd (by omega)
  refine proc_seq ?_
  cases hf : (w.proc p).ofile j with
  | none =>
    refine pure ⟨⟨h.kernel,h.others,h.cwd,fun fd hfd => ?_⟩,rfl⟩
    by_cases he : fd = j
    · rw [he]
      exact hf
    · exact hbelow fd hfd he
  | some f =>
    obtain ⟨hlt,hpos,htype,i,n,hl,-⟩ := h.kernel.opened (a := (p,j)) hf
    refine bind (fileclose hE h.kernel.good h.kernel.log hpos htype hl.holds
      fun ff g v' hg hm hlog => modifyProc ⟨?_,rfl⟩)
    have hproc : update v'.proc p { v'.proc p with ofile := upd (v'.proc p).ofile j none } =
        update w.proc p { w.proc p with ofile := upd (w.proc p).ofile j none } := by
      rw [hm.proc]
    refine ⟨h.kernel.close (h.kernel.slots.inside p k h.cwd).1 hj hf hlt
      (hm.rebase (v := w) rfl rfl) hg ⟨hm.good.tables _ _,hlog,rfl,rfl⟩ hproc
      hm.file,fun r hr => ?_,?_,fun fd hfd => ?_⟩
    · dsimp only
      rw [update_of_ne hr,hm.proc]
      exact h.others r hr
    · rw [cwd_ofile hproc]
      exact h.cwd
    · rw [ofile_update hproc]
      by_cases he : fd = j
      · rw [he,update_self]
      · rw [update_of_ne fun hc => he (Prod.mk.inj hc).2]
        exact hbelow fd hfd he

theorem Exiting.all_closed (h : Exiting v p k NOFILE w) (fd : ℕ) : w.ofile (p,fd) = none := by
  cases hf : w.ofile (p,fd) with
  | none => rfl
  | some f =>
    have := (mem_descriptors.mp (h.kernel.descriptors.inside _ f hf).1).2
    rw [h.closed fd this] at hf
    cases hf

theorem Safe.exit_stable (hE : ∀ e, E e) (h : Stable v) (hp : v.cwd p = some k) :
    Safe p E (exit p) (Stays p) v (held p ∅) := by
  rw [exit_eq]
  refine bind (panicIf (fun _ => hE _) fun _ => ?_)
  refine bind (forM_range (Exiting v p k) (fun j w hj hw => exitFile hE hj hw)
    ⟨h.kernel,fun _ _ => rfl,hp,nofun⟩ fun w hw => ?_)
  have hgood := hw.kernel.good.begun
  have hk : Holds w.begun k (w.inode k).inum := (hw.kernel.slots.holds_cwd hw.cwd).of_inode rfl
  have hput := Walk.unref hgood.core hk
  rw [← zero_add (one _)] at hput
  have hcwd : (w.begun.proc p).cwd = some k := hw.cwd
  refine bind (operation hw.kernel.log (proc_seq ?_))
  rw [hcwd]
  refine iput_walk hput (hgood.core.unref hk) (fun _ => le_rfl) hk (notMem_empty _)
    (.inr (.inl fun _ => hE _)) fun v' hwalk hf hs => ?_
  have hm := Moved.put hgood hk hwalk hf hs
  refine ⟨hwalk.core,⟨_,hf.logs⟩,rfl,fun d hd _ => modifyProc ⟨⟨?_,?_⟩,rfl⟩⟩
  · have hm' := hm.ended hd
    refine hw.kernel.setCwd (x := none) hm' ⟨hm'.good.tables _ _,rfl,rfl,rfl⟩ (by rw [hm'.proc])
      hm'.file (h.kernel.slots.inside p k hp).1 nofun fun a _ => ?_
    rw [hw.cwd,hit_some_eq,hit_none,zero_sub]
    rfl
  · refine h.idle.of_others (p := p) (fun _ fd => ?_) fun q hqp => ?_
    · unfold View.ofile
      dsimp only
      rw [update_self]
      change (v'.proc p).ofile fd = none
      rw [hm.proc]
      exact hw.all_closed fd
    · dsimp only
      rw [update_of_ne hqp]
      exact (congrFun hm.proc q).trans (hw.others q hqp)

end Processes

/-- Every system call by a process keeps what holds between system calls. -/
theorem Safe.call {k : ℕ} {call : Call} (hE : ∀ e, E e) (h : Stable v) (hp : v.cwd p = some k) :
    Safe p E (call.sys p) (Stays p) v (held p ∅) := by
  have hdrop : ∀ {α : Type} {x : Fs α}, Safe p E x (Stays p) v (held p ∅) →
      Safe p E (do let _ ← x; return ()) (Stays p) v (held p ∅) :=
    fun hx => bind (hx.imp fun _ _ _ h' => pure h')
  cases call with
  | name call => exact hdrop (nameCall_stable hE h hp)
  | opens path omode => exact hdrop (sysOpen_stable hE h hp)
  | close fd => exact hdrop (sysClose_stable hE h hp)
  | dup fd => exact hdrop (sysDup_stable h hp)
  | read fd n ok => exact hdrop (sysRead_stable hE h)
  | write fd src =>
    exact hdrop ((sysWrite_stable hE h).imp fun _ _ _ ⟨h',_,ho⟩ => ⟨h',ho⟩)
  | fstat fd ok => exact hdrop (sysFstat_stable h)
  | exec path reads => exact hdrop (sysExec_stable hE h hp)
  | fork q => exact hdrop (fork_stable h hp)
  | exit => exact exit_stable hE h hp
end Fs
end Xv6
