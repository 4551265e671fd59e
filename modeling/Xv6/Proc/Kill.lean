import Xv6.Proc.Steps

/-! # `kill`

`kill` looks for the identifier in every slot, also in those that are not in use, and
`allocproc` does not clear `killed`.  The flag of a process is due to a `kill` of its own as long
as no `kill` finds a slot that is not in use and no `fork` fails whose embryo has been killed. -/
namespace Xv6.Procs
open Ptable

/-- The slot that `kill` finds is in use, a `fork` that fails has an embryo that nobody has killed,
and there are no exceptions, which set the flag as well. -/
def NoStrayKill (w : World) : Move → Prop
  | .act _ (.kill pid) => ∀ i ∈ w.table.find? pid, w.state i ≠ .unused
  | .act p .forkFail => ∀ np ∈ (w.pc p).child?, (w.table.proc np).killed = false
  | .act _ .fault => False
  | _ => True

instance (w : World) (m : Move) : Decidable (NoStrayKill w m) := by
  unfold NoStrayKill
  split <;> infer_instance

/-- The flag is set only in processes that a `kill` has named. -/
structure Kills (w : World) : Prop where
  unused : ∀ i, w.state i = .unused → (w.table.proc i).killed = false
  named : ∀ i, (w.table.proc i).killed = true → w.named i = true

namespace Ptable
variable {t : Ptable} {i : Fin NPROC} {pid : Int32}

theorem kill_fst : (t.kill pid).1 = 0 ↔ ∃ i, (t.proc i).pid = pid := by
  unfold kill
  cases hf : t.find? pid with
  | some i => exact ⟨fun _ => ⟨i,find?_pid hf⟩,fun _ => rfl⟩
  | none =>
    refine ⟨fun h => ?_,?_⟩
    · exact absurd (show (-1 : ℤ) = 0 from h) (by decide)
    · rintro ⟨i,hi⟩
      exact absurd hi (find?_eq_none.mp hf i)

theorem kill_killed (h : ((t.kill pid).2.proc i).killed = true) :
    (t.proc i).killed = true ∨ t.find? pid = some i := by
  unfold kill at h
  cases hf : t.find? pid with
  | some j =>
    rw [hf] at h
    by_cases hij : i = j
    · exact .inr (hij ▸ rfl)
    · rw [set_of_ne hij] at h
      exact .inl h
  | none =>
    rw [hf] at h
    exact .inl h

end Ptable

namespace Kills
variable {w w' : World} {m : Move}

theorem init : Kills World.init := ⟨by decide,by decide⟩

/-- No flag is set, and none is left in a slot that is given up. -/
theorem frame (h : Kills w)
    (hkilled : ∀ i, (w'.table.proc i).killed = true → (w.table.proc i).killed = true)
    (hnamed : ∀ i, (w.table.proc i).killed = true → w.named i = true → w'.named i = true)
    (hunused : ∀ i, w'.state i = .unused →
      w.state i = .unused ∨ (w'.table.proc i).killed = false) : Kills w' := by
  refine ⟨fun i hi => ?_,fun i hi => hnamed i (hkilled i hi) (h.named i (hkilled i hi))⟩
  rcases hunused i hi with hu | hk
  · by_contra hk
    have hk := hkilled i (Bool.eq_true_of_not_eq_false hk)
    rw [h.unused i hu] at hk
    cases hk
  · exact hk

theorem moves (h : Kills w) (hm : w.table.Moves w'.table)
    (hkilled : ∀ i, (w'.table.proc i).killed = (w.table.proc i).killed)
    (hnamed : w'.named = w.named) : Kills w' :=
  h.frame (fun i hi => hkilled i ▸ hi) (fun i _ hi => hnamed ▸ hi)
    (fun _ hi => .inl ((hm.state_eq (by decide)).mp hi))

theorem kill {pid : Int32} (h : Kills w) (hok : ∀ i ∈ w.table.find? pid, w.state i ≠ .unused)
    (ht : w'.table = (w.table.kill pid).2)
    (hn : w'.named = fun i => w.named i || (w.table.proc i).pid == pid) : Kills w' := by
  have hm : w.table.Moves w'.table := ht ▸ kill_moves pid
  refine ⟨fun i hi => ?_,fun i hi => ?_⟩
  · have hu : w.state i = .unused := (hm.state_eq (by decide)).mp hi
    by_contra hk
    rw [ht] at hk
    rcases kill_killed (Bool.eq_true_of_not_eq_false hk) with hk | hf
    · rw [h.unused i hu] at hk
      cases hk
    · exact hok i hf hu
  · rw [ht] at hi
    rw [hn]
    rcases kill_killed hi with hk | hf
    · simp [h.named i hk]
    · simp [find?_pid hf]

theorem changes (h : Kills w) (hok : NoStrayKill w m) (hc : Changes w m w') : Kills w' := by
  cases hc with
  | @alloc p np hrun hpc hnp =>
    refine h.frame (fun i hi => allocproc_killed.symm.trans hi) (fun i hk hi => ?_)
      (fun i hi => .inl ?_)
    · have hne : i ≠ np := fun he => by
        rw [he,h.unused np (unused?_state hnp)] at hk
        cases hk
      exact (Function.update_of_ne hne _ _).trans hi
    · by_cases hin : i = np
      · exact hin ▸ unused?_state hnp
      · exact ((if_neg hin).symm.trans allocproc_state.symm).trans hi
  | @forkFail p np hpc =>
    have hk : (w.table.proc np).killed = false := hok np (by rw [hpc]; rfl)
    refine h.frame (fun i hi => setState_killed.symm.trans hi) (fun _ _ hi => hi)
      (fun i hi => ?_)
    by_cases hin : i = np
    · exact .inr (setState_killed.trans (hin ▸ hk))
    · exact .inl (((if_neg hin).symm.trans setState_state.symm).trans hi)
  | @forkCopy p np hpc =>
    exact h.frame (fun i hi => setParent_killed.symm.trans hi) (fun _ _ hi => hi)
      (fun i hi => .inl (setParent_state.symm.trans hi))
  | @forkDone p np hpc =>
    refine h.frame (fun i hi => setState_killed.symm.trans hi) (fun _ _ hi => hi)
      (fun i hi => .inl ?_)
    have hs : (if i = np then .runnable else w.state i) = .unused :=
      setState_state.symm.trans hi
    split at hs
    · cases hs
    · exact hs
  | @exit p hrun hpc hne =>
    have he := exit_exits (t := w.table) hne
    refine h.frame (fun i hi => (he.killed i).symm.trans hi) (fun _ _ hi => hi)
      (fun i hi => .inl ?_)
    have hip : i ≠ p := fun hip => absurd (he.self.symm.trans (hip ▸ hi)) (by decide)
    rcases he.state i hip with hs | ⟨-,hs⟩
    · exact hs.symm.trans hi
    · exact absurd (hs.symm.trans hi) (by decide)
  | @reap p c hrun hc hpc =>
    have hself : ((w.table.reap c).proc c).killed = false := congrArg Proc.killed set_self
    refine h.frame (fun i hi => ?_) (fun _ _ hi => hi) (fun i hi => ?_)
    · have hic : i ≠ c := fun he => absurd (hself.symm.trans (he ▸ hi)) (by decide)
      exact (congrArg Proc.killed (reap_of_ne hic)).symm.trans hi
    · by_cases hic : i = c
      · exact .inr (hic ▸ hself)
      · exact .inl ((congrArg Proc.state (reap_of_ne hic)).symm.trans hi)

theorem step (h : Kills w) (hok : NoStrayKill w m) (hs : w.step m = some w') : Kills w' := by
  have hd := Did.of_step hs
  cases hd with
  | changes hc => exact h.changes hok hc
  | noSlot => exact h
  | waitFail => exact ⟨h.unused,h.named⟩
  | waitSleep hrun =>
    exact h.moves (sleep_moves _ (.inr (.inr hrun))) (fun _ => sleep_killed) rfl
  | kill => exact h.kill hok rfl rfl
  | sleep hrun =>
    exact h.moves (sleep_moves _ (.inr (.inr hrun))) (fun _ => sleep_killed) rfl
  | wakeup => exact h.moves (wakeup1_moves _) (wakeup1_wakes _).killed rfl
  | yield hrun =>
    exact h.moves (setState_moves (.inr (.inr hrun)) (.inr (.inl rfl)))
      (fun _ => setState_killed) rfl
  | fault => exact hok.elim
  | scheduler hrun =>
    exact h.moves (resume_moves (.inr (.inl hrun))) (fun _ => resume_killed) rfl
  | intr => exact h.moves (wakeup1_moves _) (wakeup1_wakes _).killed rfl

end Kills

/-- In every state of a run without stray kills: a `kill` that finds no slot out of use returns 0
exactly if a process has the identifier, and marks only such a process, and every process that is
marked has been named by a `kill` since it was created. -/
theorem kill_affects_named {w : World} (h : Machine.Reach World.step NoStrayKill World.init w) :
    (∀ pid, (∀ i ∈ w.table.find? pid, w.state i ≠ .unused) →
      ((w.table.kill pid).1 = 0 ↔ ∃ i, w.state i ≠ .unused ∧ (w.table.proc i).pid = pid) ∧
      ∀ i, ((w.table.kill pid).2.proc i).killed = true →
        (w.table.proc i).killed = true ∨ w.state i ≠ .unused ∧ (w.table.proc i).pid = pid) ∧
    ∀ i, w.state i ≠ .unused → (w.table.proc i).killed = true → w.named i = true := by
  have hinv : Kills w := h.invariant Kills.init fun _ _ _ hi hok hs => hi.step hok hs
  refine ⟨fun pid hfind => ⟨?_,fun i hi => ?_⟩,fun i _ hi => hinv.named i hi⟩
  · rw [kill_fst]
    constructor
    · rintro ⟨j,hj⟩
      -- the slot that the loop finds is in use
      cases hf : w.table.find? pid with
      | some i => exact ⟨i,hfind i hf,find?_pid hf⟩
      | none => exact absurd hj (find?_eq_none.mp hf j)
    · rintro ⟨i,-,hi⟩
      exact ⟨i,hi⟩
  · rcases kill_killed hi with hk | hf
    · exact .inl hk
    · exact .inr ⟨hfind i hf,find?_pid hf⟩

theorem kill_affects_named_child : ∃ w,
    Machine.exec World.step World.init (forkOnce ++ [.act initproc (.kill 2)]) = some w ∧
      (w.table.proc firstChild).killed = true ∧ w.named firstChild = true := by
  obtain ⟨w,hw,hs,hk⟩ : ∃ w ∈ Machine.exec World.step World.init (forkOnce ++ [.act initproc (.kill 2)]),
      w.state firstChild ≠ .unused ∧ (w.table.proc firstChild).killed = true := by decide +kernel
  have hok : Machine.Allows World.step NoStrayKill World.init
      (forkOnce ++ [.act initproc (.kill 2)]) := by decide +kernel
  exact ⟨w,hw,hk,(kill_affects_named (.of_allows .init hok hw)).2 firstChild hs hk⟩

/-- init calls `kill(0)` before it forks. -/
def killZero : List Move :=
  .scheduler initproc :: .act initproc (.kill 0) :: forkOnce.tail

/-- No process has the identifier 0, but `kill(0)` finds a free slot and returns 0, and the next
process that is created there is killed. -/
theorem kill_marks_unused :
    (∀ i, World.init.state i ≠ .unused → (World.init.table.proc i).pid ≠ 0) ∧
    (World.init.table.kill 0).1 = 0 ∧
    ∃ w, Machine.exec World.step World.init killZero = some w ∧ w.state firstChild = .runnable ∧
      (w.table.proc firstChild).pid = 2 ∧ (w.table.proc firstChild).killed = true ∧
      w.named firstChild = false := by
  refine ⟨by decide,by decide,?_⟩
  decide +kernel

end Xv6.Procs
