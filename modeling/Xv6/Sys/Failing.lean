import Xv6.Fs.UnlinkSpec
import Xv6.Fs.OpenSpec
import Xv6.Sys.Boot

/-! # Calls that fail

What `link`, `unlink`, `mkdir`, `mknod`, `chdir` and `open` leave when they return -1. -/
namespace Xv6
open Conc

/-- The inodes, the contents of the files, the free map, the processes, the file table and
the reference counts are the same. -/
structure Untouched (v v' : View) : Prop where
  inodes : inodeAt v'.disk = inodeAt v.disk
  files : files v'.disk = files v.disk
  bits : bitAt v'.disk = bitAt v.disk
  proc : v'.proc = v.proc
  file : v'.file = v.file
  refs : ∀ k, k < NINODE → (v'.inode k).ref = (v.inode k).ref

theorem Untouched.refl {v : View} : Untouched v v := ⟨rfl,rfl,rfl,rfl,rfl,fun _ _ => rfl⟩

/-- A slot that is not in use stays so, for the inode of a slot in use has been in its slot
before. -/
theorem Restored.ref {v0 v : View} (h : Restored v0 v) (hc : Core v0) {k : ℕ} (hk : k < NINODE) :
    (v.inode k).ref = (v0.inode k).ref := by
  have hpos0 := hc.ref k hk
  have hpos := h.core.ref k hk
  by_cases h0 : (v0.inode k).ref = 0
  · by_contra hne
    have hk' : Holds v k (v.inode k).inum := ⟨hk,by omega,rfl⟩
    obtain ⟨j,hj⟩ := hc.refs_pos.mp (h.refs (v.inode k).inum ▸ h.core.refs_pos.mpr ⟨k,hk'⟩)
    obtain rfl := h.core.uniq j k _ (h.keep j _ hj) hk'
    have := hj.ref
    omega
  · have hk0 : Holds v0 k (v0.inode k).inum := ⟨hk,by omega,rfl⟩
    rw [← h.core.refs_eq (h.keep k _ hk0),h.refs,hc.refs_eq hk0]

theorem Restored.untouched {v v' : View} {d : Disk} (h : Restored v.begun v') (hc : Core v)
    (hd : SameData v'.disk d) : Untouched v (v'.ended d) where
  inodes := hd.inodeAt_eq.trans h.inodes
  files := (hd.sound h.core.sound).2.trans (h.files hc.begun)
  bits := by
    change bitAt d = bitAt v.disk
    rw [hd.bitAt_eq]
    funext b
    unfold bitAt
    rw [bmapstart_eq,h.blocks 58 le_rfl]
    rfl
  proc := by
    obtain ⟨A,hA⟩ := h.frame
    exact hA.proc
  file := by
    obtain ⟨A,hA⟩ := h.frame
    exact hA.file
  refs := fun _ => h.ref hc.begun

/-- A system call that takes names and gives no descriptor. -/
inductive NameCall where
  | link (old new : Option (List UInt8))
  | unlink (path : Option (List UInt8))
  | mkdir (path : Option (List UInt8))
  | mknod (path : Option (List UInt8)) (major minor : ℤ)
  | chdir (path : Option (List UInt8))

def NameCall.sys (p : ℕ) : NameCall → Fs ℤ
  | .link old new => Fs.sysLink p old new
  | .unlink path => Fs.sysUnlink p path
  | .mkdir path => Fs.sysMkdir p path
  | .mknod path major minor => Fs.sysMknod p path major minor
  | .chdir path => Fs.sysChdir p path

namespace Fs
section Failing
variable {p : ℕ} {E : Stops} {v : View}

/-- A transaction that changes nothing if its result is bad. -/
theorem Safe.undone {α : Type} {x : Fs α} (bad : α → Prop) (hc : Core v) (hlog : v.log = emptyLog)
    (h : Safe p E x (fun r v' o' => Core v' ∧ (∃ A, Logs A openLog v'.log) ∧ o' = held p ∅ ∧
      (bad r → Restored v.begun v')) v.begun (held p ∅)) :
    Safe p E (Fs.transaction x) (fun r v' _ => bad r → Untouched v v') v (held p ∅) :=
  operation hlog (h.imp fun _ _ _ ⟨hc',hl,ho,hbad⟩ =>
    ⟨hc',hl,ho,fun _ hd _ hr => (hbad hr).untouched hc hd⟩)

/-- What `Safe.undone` asks for, at an end where nothing has been done. -/
theorem undone_walk {bad : Prop} {v' : View} (hq : Quiet v) (hw : Walk v.begun v' 0) :
    Core v' ∧ (∃ A, Logs A openLog v'.log) ∧ held p ∅ = held p ∅ ∧ (bad → Restored v.begun v') :=
  ⟨hw.core,⟨_,hw.frame.logs⟩,rfl,fun _ => .of_walk hw hq⟩

theorem undone_progress {bad : Prop} {fs : ℕ → Option Node} {δ : ℕ → ℤ} {A : Finset ℕ} {v' : View}
    (hp : Progress v.begun v' fs δ A) (hbad : ¬ bad) :
    Core v' ∧ (∃ A, Logs A openLog v'.log) ∧ held p ∅ = held p ∅ ∧ (bad → Restored v.begun v') := by
  obtain ⟨B,hB⟩ := hp.frame
  exact ⟨hp.core,⟨B,hB.logs⟩,rfl,fun h => absurd h hbad⟩

/-- With any failure allowed, a call about names that returns -1 changes nothing. -/
theorem Safe.nameCall {call : NameCall} (hE : ∀ e, E e) (hc : Core v) (hr : InRange v)
    (hq : Quiet v) (hcwd : ∃ i, Holds v ((v.proc p).cwd.getD 0) i) (hlog : v.log = emptyLog) :
    Safe p E (call.sys p) (fun r v' _ => r = -1 → Untouched v v') v (held p ∅) := by
  have hs : Starts E v.begun := .of_panics hc.begun hr fun _ _ => hE _
  have hq0 : Quiet v.begun := hq
  have hstart : ∀ path, HasStart E v.begun p path := fun path => .of_cwd hcwd (hE _)
  have hnode : ∀ {path : Option (List UInt8)} {type major minor : Int16}, type ≠ 0 →
      type ≠ T_FILE → Safe p E (Fs.mknode p path type major minor)
        (fun r v' _ => r = -1 → Untouched v v') v (held p ∅) := by
    intro path type major minor h0 hfile
    rw [mknode_eq]
    refine undone _ hc hlog ?_
    cases argstr path with
    | none => exact pure (undone_walk hq (.refl hc.begun))
    | some path =>
      exact mknodeBody hs (fun _ _ => hE _) h0 hfile (hstart path) (fun _ _ _ _ _ _ => hE _)
        (fun v' hw => undone_walk hq hw)
        fun _ _ _ _ _ _ _ _ _ _ v' _ hp => undone_progress hp (by decide)
  cases call with
  | link old new =>
    change Safe p E (Fs.sysLink p old new) _ v (held p ∅)
    rw [sysLink_eq]
    cases argstr old with
    | none => exact pure fun _ => .refl
    | some old =>
      cases argstr new with
      | none => exact pure fun _ => .refl
      | some new =>
        refine undone _ hc hlog (linkBody hs hq0 (hstart old) (hstart new)
          (fun _ _ _ _ _ _ _ _ _ => hE _) (fun _ _ _ _ _ _ _ => hE _) (fun v' _ h => ?_)
          fun _ _ _ _ _ _ _ v' _ hp => undone_progress hp (by decide))
        obtain ⟨A,hA⟩ := h.frame
        exact ⟨h.core,⟨A,hA.logs⟩,rfl,fun _ => h⟩
  | unlink path =>
    change Safe p E (Fs.sysUnlink p path) _ v (held p ∅)
    rw [sysUnlink_eq]
    cases argstr path with
    | none => exact pure fun _ => .refl
    | some path =>
      exact undone _ hc hlog (unlinkBody hs hq0 (hstart path)
        (fun _ _ _ _ _ _ _ _ _ => hE _) (hE _) (hE _) (fun v' hw => undone_walk hq hw)
        fun _ _ _ _ _ _ _ _ v' _ hp => undone_progress hp (by decide))
  | mkdir path => exact hnode (by decide) (by decide)
  | mknod path major minor => exact hnode (by decide) (by decide)
  | chdir path =>
    change Safe p E (Fs.sysChdir p path) _ v (held p ∅)
    rw [sysChdir_eq]
    obtain ⟨c,hcwd⟩ := hcwd
    refine bind (imp (undone (fun r => r = none) hc hlog ?_) fun r v' o' hbad => ?_)
    · cases argstr path with
      | none => exact pure (undone_walk hq (.refl hc.begun))
      | some path =>
        have hcwd0 : Holds v.begun ((v.begun.proc p).cwd.getD 0) c := hcwd.of_inode rfl
        refine chdirBody hs (hstart path) hcwd0 (fun v' hw => undone_walk hq hw)
          fun k i n v1 v' hw1 _ _ hw' _ _ _ => ⟨hw'.core,⟨metaBlocks,?_⟩,rfl,nofun⟩
        exact hw1.frame.logs.trans hw'.frame.logs
    · cases r with
      | none => exact pure fun _ => hbad rfl
      | some k => exact bind (modifyProc (pure fun h => absurd h (by decide)))

/-- An `open` that returns -1 changes nothing, unless it makes a file for which there is no
descriptor or no entry of the file table. -/
theorem Safe.sysOpen_undone {path : Option (List UInt8)} {omode : UInt32} (hE : ∀ e, E e)
    (hc : Core v) (hr : InRange v) (hq : Quiet v) (hclosed : FilesClosed v)
    (hcwd : ∃ i, Holds v ((v.proc p).cwd.getD 0) i) (hlog : v.log = emptyLog)
    (hfree : omode &&& O_CREATE ≠ 0 → ∀ q ∈ argstr path, ∀ d name nd, ParentAt v p q d name →
      files v.disk d = some nd → nd.lookup name = none → ∃ f fd, FreeFile v p f fd) :
    Safe p E (Fs.sysOpen p path omode) (fun r v' _ => r = -1 → Untouched v v') v (held p ∅) := by
  have hs : Starts E v.begun := .of_panics hc.begun hr fun _ _ => hE _
  rw [sysOpen_eq]
  cases hpath : argstr path with
  | none => exact pure fun _ => .refl
  | some q =>
    refine bind (imp (undone (fun r => r = none) hc hlog ?_) fun r v' o' hbad => ?_)
    · refine openBody hs (fun _ _ => hE _) (.of_cwd hcwd (hE _)) hclosed
        (fun _ _ _ _ _ _ => hE _) (fun v' hw => undone_walk hq hw)
        (fun i d name nd x y x' y' x'' y'' v' hcreate hat hno _ => ?_)
        (fun k i n f fd v' hw _ _ _ => ?_)
        fun k i d name nd f fd x y x' y' x'' y'' v' _ _ _ hp _ => ?_
      · obtain ⟨s,hst,hwalk⟩ := hat.path hq
        have hparent : ParentAt v p q d name := ⟨s,startsAt_begun.mp hst,hwalk⟩
        obtain ⟨f,fd,hff⟩ := hfree hcreate q hpath d name nd hparent (hat.node hq) hat.new
        exact absurd ⟨hff.file,hff.unused,hff.descriptor,hff.free⟩ (hno f fd)
      · exact ⟨hw.core.install,⟨_,hw.frame.logs⟩,rfl,nofun⟩
      · obtain ⟨B,hB⟩ := hp.frame
        exact ⟨hp.core.install,⟨B,hB.logs⟩,rfl,nofun⟩
    · cases r with
      | none => exact pure fun _ => hbad rfl
      | some r => exact bind (modifyFile (pure fun h => absurd h (by omega)))

end Failing
end Fs

/-- A call about names that returns -1 has changed nothing, where inodes without links are in
use and the entries of directories stand for inodes that there are. -/
theorem failed_name_call_unchanged {p : ℕ} {call : NameCall} {c c' : KCfg} (hc : Core c.st.view)
    (hr : InRange c.st.view) (hq : Quiet c.st.view)
    (hcwd : ∃ i, Holds c.st.view ((c.st.view.proc p).cwd.getD 0) i)
    (hlog : c.st.log = Fs.emptyLog) (hown : ∀ l, c.owner l = none)
    (hrun : run p (call.sys p) c = .ok (-1,c')) : Untouched c.st.view c'.st.view := by
  have hown' : c.owner = held p ∅ := by
    rw [held_empty]
    exact funext hown
  have hsafe : Fs.Safe p (fun _ => True) (call.sys p)
      (fun r v' _ => r = -1 → Untouched c.st.view v') c.st.view c.owner := by
    rw [hown']
    exact Fs.Safe.nameCall (fun _ => trivial) hc hr hq hcwd hlog
  exact (hsafe c rfl rfl).of_run_ok hrun rfl

/-- The name is there. -/
theorem failed_name_call_unchanged_mkdir : ∃ c',
    run 0 ((NameCall.mkdir (some [47, 102])).sys 0) (started sample) = .ok (-1,c') ∧
      Untouched (started sample).st.view c'.st.view := by
  obtain ⟨c',hrun⟩ : ∃ c', run 0 ((NameCall.mkdir (some [47, 102])).sys 0) (started sample) =
      .ok (-1,c') := exists_eq_ok_of_value? (by decide +kernel)
  have htree := dirTree_started fresh_sample
  exact ⟨c',hrun,failed_name_call_unchanged htree.core (htree.tree fun _ => True).range
    htree.quiet ⟨ROOTINO,holds_started.2 ⟨rfl,rfl⟩⟩ rfl (fun _ => rfl) hrun⟩

/-- The file `f` of the sample, which is in the root directory, has no link. -/
def unlinkedSample : Disk := writeInode sample 2 { inodeAt sample 2 with nlink := 0 }

theorem sound_unlinkedSample : Sound (inodeAt unlinkedSample) unlinkedSample := by
  have ht : (inodeAt sample 2).type ≠ 0 := by decide +kernel
  exact fresh_sample.sound.writeInode (by decide) (fun a => stored_fields ht ht rfl a)
    fun _ => fresh_sample.sound.mapped 2 (by decide) ht

/-- A file that has no link is freed by a `chdir` that finds it and fails. -/
theorem failed_chdir_frees : ∃ c', Core (started unlinkedSample).st.view ∧
    run 0 ((NameCall.chdir (some [47, 102])).sys 0) (started unlinkedSample) = .ok (-1,c') ∧
    inodeAt c'.st.view.disk 2 ≠ inodeAt (started unlinkedSample).st.view.disk 2 := by
  have heval : (run 0 ((NameCall.chdir (some [47, 102])).sys 0)
      (started unlinkedSample)).toOption.map (fun r => (r.1,(inodeAt r.2.st.view.disk 2).type)) =
        some (-1,0) := by decide +kernel
  have htype : (inodeAt (started unlinkedSample).st.view.disk 2).type ≠ 0 := by decide +kernel
  obtain ⟨⟨r,c'⟩,hrun,hr⟩ := Option.map_eq_some_iff.mp heval
  obtain ⟨rfl,h0⟩ := Prod.mk.inj hr
  refine ⟨c',core_of_sound ?_ sound_unlinkedSample,eq_ok_of_toOption hrun,fun hc => ?_⟩
  · rw [unlinkedSample,writeInode_ne (by decide)]
    exact fresh_sample.superblock
  · rw [hc] at h0
    exact htype h0

end Xv6
