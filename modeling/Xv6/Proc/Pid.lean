import Xv6.Proc.Steps

/-! # Process identifiers

`allocproc` takes the identifiers from a counter, an `int` that wraps around.  As long as it has
not, the processes have different positive identifiers. -/
namespace Xv6.Procs
open List Ptable World

/-- A `fork` that finds a slot takes a positive number from the counter. -/
def PidsLeft (w : World) : Move → Prop
  | .act _ .fork => w.table.unused? ≠ none → 0 < w.table.nextpid
  | _ => True

instance (w : World) (m : Move) : Decidable (PidsLeft w m) := by
  unfold PidsLeft
  split <;> infer_instance

structure Pids (w : World) : Prop where
  pos : ∀ i, w.state i ≠ .unused → 0 < (w.table.proc i).pid
  /-- once the counter has wrapped around it may come to the identifiers in use -/
  lt : 0 < w.table.nextpid → ∀ i, w.state i ≠ .unused → (w.table.proc i).pid < w.table.nextpid
  unique : ∀ i j, w.state i ≠ .unused → w.state j ≠ .unused →
    (w.table.proc i).pid = (w.table.proc j).pid → i = j
  forks : ∀ pid ∈ w.forks, 0 < pid

theorem lt_succ_of_pos {a n : Int32} (hn : 0 < n) (h : a < n) (hs : 0 < n + 1) :
    a < n + 1 ∧ n < n + 1 := by
  rw [Int32.lt_iff_toInt_lt] at *
  rw [Int32.toInt_add,Int32.toInt_one] at *
  rw [Int32.toInt_zero] at *
  have hlt := n.toInt_lt
  rw [Int32.lt_iff_toInt_lt,Int32.toInt_add,Int32.toInt_one]
  rw [Int.bmod_def] at *
  omega

namespace Pids
variable {w w' : World} {m : Move}

theorem init : Pids init := by
  refine ⟨?_,?_,?_,?_⟩
  · decide
  · decide
  · decide
  · intro pid h
    cases h

variable (h : Pids w)
include h

theorem frame (hnext : w'.table.nextpid = w.table.nextpid) (hpid : ∀ i, w'.state i ≠ .unused →
      w.state i ≠ .unused ∧ (w'.table.proc i).pid = (w.table.proc i).pid)
    (hforks : ∀ pid ∈ w'.forks, pid ∈ w.forks ∨ 0 < pid) : Pids w' := by
  refine ⟨fun i hi => ?_,fun hpos i hi => ?_,fun i j hi hj he => ?_,fun pid hp => ?_⟩
  · rw [(hpid i hi).2]
    exact h.pos i (hpid i hi).1
  · rw [hnext] at hpos ⊢
    rw [(hpid i hi).2]
    exact h.lt hpos i (hpid i hi).1
  · rw [(hpid i hi).2,(hpid j hj).2] at he
    exact h.unique i j (hpid i hi).1 (hpid j hj).1 he
  · exact (hforks pid hp).elim (h.forks pid) id

theorem quiet (hq : Quiet w w') : Pids w' := by
  refine h.frame hq.moves.nextpid (fun i hi => ⟨fun he => hi ?_,hq.moves.pid i⟩)
    (fun pid hp => .inl (hq.forks ▸ hp))
  exact (hq.moves.state_eq (by decide)).mpr he

theorem alloc (hpos : 0 < w.table.nextpid) (p np : Fin NPROC) : Pids (w.alloc p np) := by
  have hself : ((w.alloc p np).table.proc np).pid = w.table.nextpid :=
    congrArg Proc.pid set_self
  have hother : ∀ i, i ≠ np → (w.alloc p np).table.proc i = w.table.proc i :=
    fun i hi => set_of_ne hi
  have hold : ∀ i, i ≠ np → (w.alloc p np).state i ≠ .unused → w.state i ≠ .unused :=
    fun i hi hs => by rwa [state,hother i hi] at hs
  refine ⟨fun i hi => ?_,fun hnext i hi => ?_,fun i j hi hj he => ?_,h.forks⟩
  · by_cases hin : i = np
    · rw [hin,hself]
      exact hpos
    · rw [hother i hin]
      exact h.pos i (hold i hin hi)
  · have hsucc : (w.alloc p np).table.nextpid = w.table.nextpid + 1 := rfl
    rw [hsucc] at hnext ⊢
    by_cases hin : i = np
    · rw [hin,hself]
      exact (lt_succ_of_pos hpos hpos hnext).2
    · rw [hother i hin]
      exact (lt_succ_of_pos hpos (h.lt hpos i (hold i hin hi)) hnext).1
  · by_cases hin : i = np
    · by_cases hjn : j = np
      · rw [hin,hjn]
      · rw [hin,hself,hother j hjn] at he
        exact (Int32.lt_irrefl (he ▸ h.lt hpos j (hold j hjn hj))).elim
    · by_cases hjn : j = np
      · rw [hjn,hself,hother i hin] at he
        exact (Int32.lt_irrefl (he ▸ h.lt hpos i (hold i hin hi))).elim
      · rw [hother i hin,hother j hjn] at he
        exact h.unique i j (hold i hin hi) (hold j hjn hj) he

theorem changes (hf : Forking w) (hok : PidsLeft w m) (hc : Changes w m w') : Pids w' := by
  cases hc with
  | alloc hrun hpc hnp => exact h.alloc (hok (by simp [hnp])) _ _
  | @forkFail p np hpc =>
    refine h.frame rfl (fun i hi => ⟨fun he => hi ?_,setState_pid⟩) (fun pid hp => .inl hp)
    refine setState_state.trans ?_
    split
    · rfl
    · exact he
  | @forkCopy p np hpc =>
    exact h.frame rfl
      (fun i hi => ⟨fun he => hi (setParent_state.trans he),setParent_pid⟩)
      (fun pid hp => .inl hp)
  | @forkDone p np hpc =>
    have hnp : w.state np ≠ .unused := by
      rw [hf.embryo p np (by rw [hpc]; rfl)]
      decide
    refine h.frame rfl (fun i hi => ⟨fun he => hi ?_,setState_pid⟩) (fun pid hp => ?_)
    · have hin : i ≠ np := fun hin => hnp (hin ▸ he)
      exact setState_state.trans ((if_neg hin).trans he)
    · rcases mem_append.mp hp with hp | hp
      · exact .inl hp
      · rw [mem_singleton.mp hp]
        exact .inr (h.pos np hnp)
  | @exit p hrun hpc hne =>
    have he := exit_exits (t := w.table) hne
    refine h.frame he.nextpid (fun i hi => ⟨fun hs => hi ?_,he.pid i⟩) (fun pid hp => .inl hp)
    have hip : i ≠ p := fun hip => by
      rw [hip,hrun] at hs
      cases hs
    rcases he.state i hip with h1 | ⟨h1,-⟩
    · exact h1.trans hs
    · exact absurd (h1.symm.trans hs) (by decide)
  | @reap p c hrun hc hpc =>
    refine h.frame rfl (fun i hi => ?_) (fun pid hp => .inl hp)
    have hic : i ≠ c := fun hic => hi (hic ▸ congrArg Proc.state set_self)
    have hsame : (w.table.reap c).proc i = w.table.proc i := reap_of_ne hic
    exact ⟨fun he => hi ((congrArg Proc.state hsame).trans he),congrArg Proc.pid hsame⟩

theorem step (hf : Forking w) (hok : PidsLeft w m) (hs : w.step m = some w') : Pids w' := by
  rcases (Did.of_step hs).quiet_or_changes with hq | hc
  · exact h.quiet hq
  · exact h.changes hf hok hc

end Pids

/-- As long as the counter is positive whenever a process is created, no two processes have the
same identifier, and those that `fork` returns are positive. -/
theorem pids_unique {w : World} (h : Machine.Reach World.step PidsLeft World.init w) :
    (∀ i j, w.state i ≠ .unused → w.state j ≠ .unused →
      (w.table.proc i).pid = (w.table.proc j).pid → i = j) ∧ ∀ pid ∈ w.forks, 0 < pid := by
  have hinv : Forking w ∧ Pids w :=
    h.invariant (I := fun w => Forking w ∧ Pids w) ⟨Forking.init,Pids.init⟩
      fun _ _ _ hi hok hs => ⟨hi.1.step hs,hi.2.step hi.1 hok hs⟩
  exact ⟨hinv.2.unique,hinv.2.forks⟩

theorem pids_unique_two : ∃ w, Machine.exec World.step World.init forkOnce = some w ∧
    (∀ i j, w.state i ≠ .unused → w.state j ≠ .unused →
      (w.table.proc i).pid = (w.table.proc j).pid → i = j) ∧
    w.forks = [2] ∧ ∀ pid ∈ w.forks, 0 < pid := by
  obtain ⟨w,hw,hall⟩ : ∃ w ∈ Machine.exec step init forkOnce, w.forks = [2] := by decide +kernel
  have hok : Machine.Allows step PidsLeft init forkOnce := by decide +kernel
  have h := pids_unique (.of_allows .init hok hw)
  exact ⟨w,hw,h.1,hall,h.2⟩

/-- init is the only process, it is running, and the counter has come to `n`. -/
structure Alone (w : World) (n : Int32) : Prop where
  reach : Reachable w
  run : w.state initproc = .running
  pc : w.pc initproc = .user
  pid : (w.table.proc initproc).pid = 1
  others : ∀ i, i ≠ initproc → w.state i = .unused
  nextpid : w.table.nextpid = n

namespace Alone
variable {w : World} {n : Int32}

section
variable (h : Alone w n)
include h

theorem unused? : w.table.unused? = some firstChild := by
  have hp : (fun i => (w.table.proc i).state == .unused) = fun i => i != initproc := by
    funext i
    by_cases hi : i = initproc
    · have := h.run
      rw [state] at this
      rw [hi,this]
      rfl
    · have := h.others i hi
      rw [state] at this
      rw [this]
      simp [hi]
  rw [Ptable.unused?,hp]
  decide

theorem alloc : ∃ w', Reachable w' ∧ w'.state initproc = .running ∧
    w'.pc initproc = .forked firstChild ∧ (w'.table.proc initproc).pid = 1 ∧
    (w'.table.proc firstChild).pid = n ∧ w'.table.nextpid = n + 1 ∧
    ∀ i, i ≠ initproc → i ≠ firstChild → w'.state i = .unused := by
  have hne : initproc ≠ firstChild := by decide
  have hpc : (w.alloc initproc firstChild).pc initproc = .forked firstChild :=
    goto_pc_self (w := w) (p := initproc) (c := .forked firstChild)
  refine ⟨_,h.reach.step trivial (step_fork h.run h.pc h.unused?),?_,hpc,?_,?_,
    congrArg (· + 1) h.nextpid,fun i hi hic => ?_⟩
  · exact allocproc_state.trans ((if_neg hne).trans h.run)
  · exact allocproc_pid.trans ((if_neg hne).trans h.pid)
  · exact allocproc_pid.trans ((if_pos rfl).trans h.nextpid)
  · exact allocproc_state.trans ((if_neg hic).trans (h.others i hi))

/-- A `fork` that fails costs a number. -/
theorem forkFail : ∃ w', Alone w' (n + 1) := by
  have hne : initproc ≠ firstChild := by decide
  obtain ⟨w1,hr,hrun,hpc,hpid,-,hnext,hothers⟩ := h.alloc
  have hpc' := goto_pc_self (w := w1) (p := initproc) (c := .user)
  refine ⟨_,hr.step trivial (step_forkFail hrun hpc),?_,hpc',?_,fun i hi => ?_,hnext⟩
  · exact setState_state.trans ((if_neg hne).trans hrun)
  · exact setState_pid.trans hpid
  · refine setState_state.trans ?_
    split
    · rfl
    · exact hothers i hi ‹_›

theorem forkFails (k : ℕ) : ∃ w', Alone w' (n + Int32.ofNat k) := by
  induction k with
  | zero => exact ⟨w,by simpa using h⟩
  | succ k ih =>
    obtain ⟨w',h'⟩ := ih
    obtain ⟨w'',h''⟩ := h'.forkFail
    refine ⟨w'',?_⟩
    rwa [Int32.ofNat_add,← Int32.add_assoc]

/-- The next `fork` succeeds, and its child has the number of the counter. -/
theorem forkDone : ∃ w', Reachable w' ∧ w'.state initproc = .running ∧
    w'.state firstChild = .runnable ∧ (w'.table.proc initproc).pid = 1 ∧
    (w'.table.proc firstChild).pid = n ∧ n ∈ w'.forks := by
  have hne : initproc ≠ firstChild := by decide
  obtain ⟨w1,hr,hrun,hpc,hpid,hchild,-,-⟩ := h.alloc
  have hr2 := hr.step trivial (step_forkCopy hrun hpc)
  generalize hw2 : ({ w1.goto initproc (.copied firstChild) with
    table := w1.table.setParent firstChild initproc
    parentGen := Function.update w1.parentGen firstChild (w1.gen initproc) } : World) = w2 at hr2
  have hrun2 : w2.state initproc = .running := hw2 ▸ setParent_state.trans hrun
  have hpc2 : w2.pc initproc = .copied firstChild :=
    hw2 ▸ goto_pc_self (w := w1) (p := initproc) (c := .copied firstChild)
  have hpid2 : (w2.table.proc initproc).pid = 1 := hw2 ▸ setParent_pid.trans hpid
  have hchild2 : (w2.table.proc firstChild).pid = n := hw2 ▸ setParent_pid.trans hchild
  refine ⟨_,hr2.step trivial (step_forkDone hrun2 hpc2),?_,?_,?_,?_,?_⟩
  · exact setState_state.trans ((if_neg hne).trans hrun2)
  · exact setState_state.trans (if_pos rfl)
  · exact setState_pid.trans hpid2
  · exact setState_pid.trans hchild2
  · exact mem_append_right _ (mem_singleton.mpr hchild2.symm)

end

/-- After `userinit`, when init has been scheduled. -/
theorem start : ∃ w, Alone w 2 := by
  refine ⟨{ init with table := init.table.resume initproc },?_⟩
  refine ⟨.step (m := .scheduler initproc) .init trivial rfl,?_,?_,?_,?_,?_⟩
  all_goals decide

end Alone

/-- The counter wraps around: `fork` returns a negative number, and much later init and its child
have the same identifier. -/
theorem pids_wrap : (∃ w, Reachable w ∧ ∃ pid ∈ w.forks, pid < 0) ∧
    ∃ w, Reachable w ∧ ∃ i j, i ≠ j ∧ w.state i ≠ .unused ∧ w.state j ≠ .unused ∧
      (w.table.proc i).pid = (w.table.proc j).pid := by
  obtain ⟨w,h⟩ := Alone.start
  constructor
  · obtain ⟨w₁,h₁⟩ := h.forkFails (2 ^ 31 - 2)
    obtain ⟨w₂,hr,-,-,-,-,hforks⟩ := h₁.forkDone
    exact ⟨w₂,hr,_,hforks,by decide⟩
  · obtain ⟨w₁,h₁⟩ := h.forkFails (2 ^ 32 - 1)
    obtain ⟨w₂,hr,hs,hs',hp,hp',-⟩ := h₁.forkDone
    refine ⟨w₂,hr,initproc,firstChild,by decide,?_,?_,?_⟩
    · rw [hs]
      decide
    · rw [hs']
      decide
    · rw [hp,hp']
      decide

end Xv6.Procs
