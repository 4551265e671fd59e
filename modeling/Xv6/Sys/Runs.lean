import Xv6.Sys.Calls

/-! # Runs of the kernel

The states that system calls lead to from a new file system, and what holds in all of them. -/
namespace Xv6
open Conc Pointers Function Option

inductive Reachable : KCfg → Prop where
  | boot {names : List Name} {d : Disk} : Mkfs.Fresh names d → Reachable (started d)
  | call {p : ℕ} {call : Call} {c c' : KCfg} : Reachable c → (c.st.view.cwd p).isSome = true →
      run p (call.sys p) c = .ok ((),c') → Reachable c'
  /-- Lines are typed at the console. -/
  | input {c : KCfg} (input : List UInt8) :
      Reachable c → Reachable { c with st := { c.st with input := input } }

section Boot
variable {d : Disk} {names : List Name}

theorem cwd_started : (started d).st.view.cwd = update (fun _ => none) 0 (some 0) := by
  funext p
  change (if p = 0 then (⟨some 0,fun _ => none,false⟩ : Proc) else default).cwd = _
  by_cases hp : p = 0
  · rw [hp,if_pos rfl,update_self]
  · rw [if_neg hp,update_of_ne hp]
    rfl

theorem ofile_started (a : ℕ × ℕ) : (started d).st.view.ofile a = none := by
  change (if a.1 = 0 then (⟨some 0,fun _ => none,false⟩ : Proc) else default).ofile a.2 = none
  split
  · rfl
  · rfl

theorem users_started (k : ℕ) : (started d).st.view.users k = hit (some 0) k := by
  have hfile : (started d).st.view.fileSlot = fun _ => none := by
    funext f
    exact if_neg (Int.lt_irrefl 0)
  rw [View.users,cwd_started,hfile,count_none,count_update (Finset.mem_range.mpr (by decide)),
    count_none,hit_none,zero_add,sub_zero,zero_add]

theorem consistent_started (h : Mkfs.Fresh names d) : Consistent (started d).st.view where
  core := core_started h
  within := by
    intro a n hn hd j hj hlive
    exact ((dirTree_started h).tree fun _ => True).range a n j hn hd hj hlive
  quiet := (dirTree_started h).quiet
  orphans := by
    intro k a n _ hn h0
    rw [nlink_fresh h hn] at h0
    exact absurd h0 (by decide)

theorem stable_started (h : Mkfs.Fresh names d) : Stable (started d).st.view where
  kernel :=
    { good := consistent_started h
      log := rfl
      descriptors :=
        { inside := by
            intro a f ha
            rw [ofile_started] at ha
            cases ha
          counts := by
            intro f _
            rw [show (started d).st.view.ofile = fun _ => none from funext ofile_started,count_none]
            rfl }
      slots :=
        { inside := by
            intro p k hp
            rw [cwd_started] at hp
            by_cases h0 : p = 0
            · subst h0
              rw [update_self] at hp
              obtain rfl := Option.some.inj hp
              exact ⟨by decide,by decide⟩
            · rw [update_of_ne h0] at hp
              cases hp
          counts := by
            intro k _
            rw [users_started,hit_some]
            change (if k = 0 then (⟨ROOTINO,1,false,default⟩ : Inode) else default).ref = _
            split
            · rfl
            · rfl }
      files := ⟨fun f _ hpos => absurd hpos (Int.lt_irrefl 0),fun f _ _ => rfl⟩ }
  idle := fun p _ fd => ofile_started (p,fd)

end Boot

section Runs
variable {c c' : KCfg} {p : ℕ}

/-- Nothing is locked between system calls, and their tables and the file system fit. -/
theorem Reachable.stable (h : Reachable c) : Stable c.st.view ∧ ∀ p, c.owner = held p ∅ := by
  induction h with
  | boot hd => exact ⟨stable_started hd,fun p => by rw [held_empty,owner_started,held_empty]⟩
  | @call p call c c' _ hp hrun ih =>
    obtain ⟨k,hk⟩ := isSome_iff_exists.mp hp
    obtain ⟨hv,ho⟩ := (Fs.Safe.call (E := fun _ => True) (fun _ => trivial) ih.1 hk c rfl
      (ih.2 p)).of_run_ok hrun
    exact ⟨hv,fun q => by rw [ho,held_empty,held_empty]⟩
  | @input c inp _ ih =>
    refine ⟨?_,ih.2⟩
    exact Fs.Stable.offsets (v := c.st.view) ih.1 fun _ => .refl _

def calls : List (ℕ × Call) → KCfg → Option KCfg
  | [], c => some c
  | (p,call) :: rest, c =>
    if (c.st.view.cwd p).isSome then
      (run p (call.sys p) c).toOption.bind fun r => calls rest r.2
    else none

theorem Reachable.calls {l : List (ℕ × Call)} (h : Reachable c) (hl : calls l c = some c') :
    Reachable c' := by
  induction l generalizing c with
  | nil => exact Option.some.inj hl ▸ h
  | cons x rest ih =>
    obtain ⟨p,call⟩ := x
    rw [Xv6.calls] at hl
    split at hl
    · rename_i hp
      obtain ⟨⟨⟨⟩,c1⟩,hrun,hrest⟩ := bind_eq_some_iff.mp hl
      exact ih (h.call hp (eq_ok_of_toOption hrun)) hrest
    · cases hl

end Runs

section Kept
variable {c : KCfg} (h : Reachable c)
include h

end Kept

/-- A file that is open for writing is no directory, and `write` leaves directories. -/
theorem writable_not_directory {c : KCfg} (h : Reachable c) :
    (∀ f, f < NFILE → 0 < (c.st.view.file f).ref → (c.st.view.file f).writable = true →
      (c.st.view.inode (c.st.view.file f).ip).d.type ≠ T_DIR ∧
      (inodeAt c.st.view.disk (c.st.view.inode (c.st.view.file f).ip).inum).type ≠ T_DIR) ∧
    ∀ p fd src r c', run p (Fs.sysWrite p fd src) c = .ok (r,c') →
      Fs.DirsKept c.st.view c'.st.view := by
  obtain ⟨hs,ho⟩ := h.stable
  refine ⟨fun f hf hpos hw => ?_,fun p fd src r c' hrun => ?_⟩
  · obtain ⟨-,i,n,hl,hdir⟩ := hs.kernel.files.opened f hf hpos
    obtain ⟨hcopy,hn⟩ := hl.copy hs.kernel.good.core
    have htype : (inodeAt c.st.view.disk i).type ≠ T_DIR := by
      have := hdir hw
      rw [hn] at this
      exact this
    rw [hcopy,hl.holds.inum]
    exact ⟨htype,htype⟩
  · have hsafe : Fs.Safe p (fun _ => True) (Fs.sysWrite p fd src) (fun _ v' o' => Stable v' ∧
        Fs.DirsKept c.st.view v' ∧ o' = held p ∅) c.st.view (held p ∅) :=
      Fs.Safe.sysWrite_stable (fun _ => trivial) hs
    exact ((hsafe c rfl (ho p)).of_run_ok hrun).2.1

/-- Process 0 has opened `f` for reading and writing. -/
theorem writable_not_directory_open : ∃ c, Reachable c ∧ (c.st.view.file 0).writable = true ∧
    (c.st.view.inode (c.st.view.file 0).ip).d.type ≠ T_DIR := by
  have heval : (calls [(0,.opens (some [47, 102]) O_RDWR)] (started sample)).map (fun c =>
      ((c.st.view.file 0).ref,(c.st.view.file 0).writable)) = some (1,true) := by decide +kernel
  obtain ⟨c,hc,h0⟩ := map_eq_some_iff.mp heval
  obtain ⟨href,hw⟩ := Prod.mk.inj h0
  have hreach := (Reachable.boot fresh_sample).calls hc
  have hpos : 0 < (c.st.view.file 0).ref := by
    rw [href]
    exact Int.one_pos
  exact ⟨c,hreach,hw,((writable_not_directory hreach).1 0 (by decide) hpos hw).1⟩

end Xv6
