import Xv6.Proc.Tree

/-! # Processes that exit are returned once

The processes that have exited are those that `wait` has returned, each once, and those that are
still in the table. -/
namespace Xv6.Procs
open List World

def Reap.exit (r : Reap) : ProcId × Int32 := (r.child,r.pid)

structure Reaping (w : World) : Prop where
  /-- a process that has exited is not started again in its slot -/
  past : ∀ e ∈ w.exits, e.1.gen ≤ w.gen e.1.slot ∧
    (e.1 = w.id e.1.slot → w.state e.1.slot = .zombie ∨ w.state e.1.slot = .unused)
  zombie : ∀ i, w.state i = .zombie → (w.id i,(w.table.proc i).pid) ∈ w.exits
  reaped : ∀ r ∈ w.reaps, r.exit ∈ w.exits ∧
    (r.child = w.id r.child.slot → w.state r.child.slot = .unused) ∧ r.parent = some r.curproc
  once : (w.reaps.map Reap.child).Nodup
  pending : ∀ e ∈ w.exits, e ∈ w.reaps.map Reap.exit ∨
    ∃ i, w.state i = .zombie ∧ e = (w.id i,(w.table.proc i).pid)

namespace Reaping
variable {w w' : World} {m : Move} {p np c : Fin NPROC}

theorem init : Reaping init := by
  refine ⟨?_,by decide,?_,nodup_nil,?_⟩
  all_goals
    intro _ h
    cases h

variable (h : Reaping w)
include h

theorem frame (he : w'.exits = w.exits) (hr : w'.reaps = w.reaps)
    (hgen : w'.gen = w.gen) (hpid : ∀ i, (w'.table.proc i).pid = (w.table.proc i).pid)
    (hz : ∀ i, w'.state i = .zombie ↔ w.state i = .zombie)
    (hu : ∀ i, w.state i = .unused → w'.state i = .unused) : Reaping w' := by
  have hid : w'.id = w.id := funext fun i => by rw [World.id,World.id,hgen]
  refine ⟨fun e hm => ?_,fun i hi => ?_,fun r hm => ?_,?_,fun e hm => ?_⟩
  · rw [he] at hm
    obtain ⟨hle,heq⟩ := h.past e hm
    rw [hgen,hid]
    exact ⟨hle,fun h' => (heq h').imp (hz _).mpr (hu _)⟩
  · rw [he,hid,hpid]
    exact h.zombie i ((hz i).mp hi)
  · rw [hr] at hm
    obtain ⟨hm',hun,hpar⟩ := h.reaped r hm
    rw [he,hid]
    exact ⟨hm',fun h' => hu _ (hun h'),hpar⟩
  · rw [hr]
    exact h.once
  · rw [he] at hm
    rw [hr,hid]
    refine (h.pending e hm).imp_right ?_
    rintro ⟨i,hi,rfl⟩
    exact ⟨i,(hz i).mpr hi,by rw [hpid]⟩

theorem quiet (hq : Quiet w w') : Reaping w' :=
  h.frame hq.exits hq.reaps hq.gen hq.moves.pid (fun _ => hq.moves.state_eq (by decide))
    (fun _ => (hq.moves.state_eq (by decide)).mpr)

/-- A slot that is allocated again belongs to another process. -/
theorem alloc (hnp : w.state np = .unused) : Reaping (w.alloc p np) := by
  have hold : ∀ i, i ≠ np → (w.alloc p np).id i = w.id i ∧
      (w.alloc p np).table.proc i = w.table.proc i := fun i hi =>
    ⟨congrArg (ProcId.mk i) (Function.update_of_ne hi _ _),Ptable.set_of_ne hi⟩
  have hnew : ∀ e ∈ w.exits, e.1.slot = np → e.1.gen < (w.alloc p np).gen np := fun e he hn => by
    have hself : (w.alloc p np).gen np = w.gen np + 1 := Function.update_self _ _ _
    rw [hself]
    exact Nat.lt_succ_of_le (hn ▸ (h.past e he).1)
  have hne : ∀ e ∈ w.exits, e.1 = (w.alloc p np).id e.1.slot → e.1.slot ≠ np := fun e he hid hn => by
    have hlt := hnew e he hn
    have hgen : e.1.gen = (w.alloc p np).gen np := by
      rw [hn] at hid
      exact congrArg ProcId.gen hid
    omega
  have hstate : ∀ i, i ≠ np → (w.alloc p np).state i = w.state i :=
    fun i hi => congrArg Proc.state (hold i hi).2
  have hself : (w.alloc p np).state np = .embryo := Ptable.allocproc_state.trans (if_pos rfl)
  refine ⟨fun e he => ⟨?_,fun hid => ?_⟩,fun i hi => ?_,fun r hr => ?_,h.once,fun e he => ?_⟩
  · by_cases hn : e.1.slot = np
    · rw [hn]
      exact (hnew e he hn).le
    · exact ((h.past e he).1).trans_eq (Function.update_of_ne hn _ _).symm
  · have hn := hne e he hid
    rw [hstate _ hn]
    exact (h.past e he).2 (hid.trans (hold _ hn).1)
  · have hin : i ≠ np := fun hin => by
      rw [hin,hself] at hi
      cases hi
    rw [(hold i hin).1,(hold i hin).2]
    exact h.zombie i ((hstate i hin).symm.trans hi)
  · obtain ⟨hm,hun,hpar⟩ := h.reaped r hr
    refine ⟨hm,fun hid => ?_,hpar⟩
    have hn : r.child.slot ≠ np := hne r.exit hm hid
    rw [hstate _ hn]
    exact hun (hid.trans (hold _ hn).1)
  · refine (h.pending e he).imp_right ?_
    rintro ⟨i,hi,rfl⟩
    have hin : i ≠ np := fun hin => by
      rw [hin,hnp] at hi
      cases hi
    exact ⟨i,(hstate i hin).trans hi,by rw [(hold i hin).1,(hold i hin).2]⟩

theorem exit (hrun : w.state p = .running) (hne : p ≠ initproc) : Reaping (w.exit p) := by
  have hex := Ptable.exit_exits (t := w.table) hne
  have hpid : ∀ i, ((w.exit p).table.proc i).pid = (w.table.proc i).pid := hex.pid
  have hid : (w.exit p).id = w.id := rfl
  -- the other processes that have exited, or were never started, are not touched
  have hstate : ∀ i, i ≠ p → (w.exit p).state i = w.state i ∨
      w.state i = .sleeping ∧ (w.exit p).state i = .runnable := hex.state
  have hz : ∀ i, i ≠ p → ((w.exit p).state i = .zombie ↔ w.state i = .zombie) := fun i hi => by
    rcases hstate i hi with hs | ⟨hs,hs'⟩
    · rw [hs]
    · rw [hs,hs']
      decide
  have hu : ∀ i, w.state i = .unused → (w.exit p).state i = .unused := fun i hi => by
    have hip : i ≠ p := fun hip => by
      rw [hip,hrun] at hi
      cases hi
    rcases hstate i hip with hs | ⟨hs,-⟩
    · exact hs.trans hi
    · exact absurd (hs.symm.trans hi) (by decide)
  have hzp : ∀ i, w.state i = .zombie → (w.exit p).state i = .zombie := fun i hi =>
    (hz i fun hip => by rw [hip,hrun] at hi; cases hi).mpr hi
  have hself : (w.exit p).state p = .zombie := hex.self
  refine ⟨fun e he => ?_,fun i hi => ?_,fun r hr => ?_,h.once,fun e he => ?_⟩
  · rcases mem_append.mp he with he | he
    · obtain ⟨hle,heq⟩ := h.past e he
      exact ⟨hle,fun h' => (heq h').imp (hzp _) (hu _)⟩
    · rw [mem_singleton.mp he]
      exact ⟨le_refl _,fun _ => .inl hself⟩
  · rw [hpid,hid]
    by_cases hip : i = p
    · rw [hip]
      exact mem_append_right _ (mem_singleton.mpr rfl)
    · exact mem_append_left _ (h.zombie i ((hz i hip).mp hi))
  · obtain ⟨hm,hun,hpar⟩ := h.reaped r hr
    exact ⟨mem_append_left _ hm,fun h' => hu _ (hun h'),hpar⟩
  · rw [hid]
    rcases mem_append.mp he with he | he
    · refine (h.pending e he).imp_right ?_
      rintro ⟨i,hi,rfl⟩
      exact ⟨i,hzp i hi,by rw [hpid]⟩
    · exact .inr ⟨p,hself,by rw [mem_singleton.mp he,hpid]⟩

theorem reap (ht : Tree w) (hc : w.table.zombieChild? p = some c) : Reaping { w.goto p .user with
      table := w.table.reap c
      reaps := w.reaps ++ [w.reapOf p c] } := by
  obtain ⟨hcp,hz⟩ := Ptable.zombieChild?_some hc
  have hzc : w.state c = .zombie := hz
  have hparent : w.parentId c = some (w.id p) := by
    have hci : c ≠ initproc := fun he => by
      have := ht.root
      rw [← he,hzc] at this
      exact absurd this (by decide)
    obtain ⟨q,hq,-,hgen⟩ := ht.linked c hci (.inr hz)
    have hqp : q = p := Option.some.inj (hq.symm.trans hcp)
    rw [parentId,hq,hgen,hqp]
    rfl
  generalize hw' : ({ w.goto p .user with
    table := w.table.reap c
    reaps := w.reaps ++ [w.reapOf p c] } : World) = w'
  have hid : w'.id = w.id := by rw [← hw']; rfl
  have hgen : w'.gen = w.gen := by rw [← hw']; rfl
  have he : w'.exits = w.exits := by rw [← hw']; rfl
  have hr : w'.reaps = w.reaps ++ [w.reapOf p c] := by rw [← hw']
  have hself : w'.state c = .unused := by
    subst hw'
    exact congrArg Proc.state Ptable.set_self
  have hold : ∀ i, i ≠ c → w'.table.proc i = w.table.proc i := by
    subst hw'
    exact fun i hi => Ptable.reap_of_ne hi
  have hstate : ∀ i, i ≠ c → w'.state i = w.state i := fun i hi => congrArg Proc.state (hold i hi)
  have hu : ∀ i, w.state i = .unused → w'.state i = .unused := fun i hi => by
    by_cases hic : i = c
    · rw [hic,hself]
    · rw [hstate i hic,hi]
  refine ⟨fun e hm => ?_,fun i hi => ?_,fun r hm => ?_,?_,fun e hm => ?_⟩
  · rw [he] at hm
    obtain ⟨hle,heq⟩ := h.past e hm
    rw [hgen,hid]
    refine ⟨hle,fun h' => ?_⟩
    by_cases hec : e.1.slot = c
    · rw [hec]
      exact .inr hself
    · rw [hstate _ hec]
      exact heq h'
  · have hic : i ≠ c := fun hic => by
      rw [hic,hself] at hi
      cases hi
    rw [he,hid,hold i hic]
    exact h.zombie i ((hstate i hic).symm.trans hi)
  · rw [hr] at hm
    rw [he,hid]
    rcases mem_append.mp hm with hm | hm
    · obtain ⟨hm',hun,hpar⟩ := h.reaped r hm
      exact ⟨hm',fun h' => hu _ (hun h'),hpar⟩
    · rw [mem_singleton.mp hm]
      exact ⟨h.zombie c hz,fun _ => hself,hparent⟩
  · rw [hr,map_append]
    refine List.Nodup.append h.once (nodup_singleton _) ?_
    rw [map_singleton,disjoint_singleton]
    rintro hm
    obtain ⟨r,hrm,hrc⟩ := mem_map.mp hm
    -- its slot would be free
    have hun := (h.reaped r hrm).2.1
    rw [hrc] at hun
    exact absurd ((hun rfl).symm.trans hzc) (by decide)
  · rw [he] at hm
    rw [hr,hid,map_append]
    rcases h.pending e hm with hm' | ⟨i,hi,rfl⟩
    · exact .inl (mem_append_left _ hm')
    · by_cases hic : i = c
      · rw [hic]
        exact .inl (mem_append_right _ (mem_singleton.mpr rfl))
      · exact .inr ⟨i,(hstate i hic).trans hi,by rw [hold i hic]⟩

theorem setState {s : ProcState} (hnp : w.state np = .embryo) (hs : s ≠ .zombie)
    (ht : w'.table = w.table.setState np s) (he : w'.exits = w.exits) (hr : w'.reaps = w.reaps)
    (hgen : w'.gen = w.gen) : Reaping w' := by
  have hstate : ∀ i, w'.state i = if i = np then s else w.state i := fun i => by
    rw [state,ht]
    exact Ptable.setState_state
  refine h.frame he hr hgen (fun i => by rw [ht,Ptable.setState_pid]) (fun i => ?_) fun i hi => ?_
  · rw [hstate]
    split
    · rename_i hin
      rw [hin,hnp]
      exact ⟨fun h' => absurd h' hs,fun h' => by cases h'⟩
    · rfl
  · have hin : i ≠ np := fun hin => by
      rw [hin,hnp] at hi
      cases hi
    rw [hstate,if_neg hin,hi]

theorem changes (hf : Forking w) (ht : Tree w) (hc : Changes w m w') : Reaping w' := by
  cases hc with
  | alloc hrun hpc hnp => exact h.alloc (Ptable.unused?_state hnp)
  | @forkFail p np hpc =>
    exact h.setState (hf.embryo p np (by rw [hpc]; rfl)) (by decide) rfl rfl rfl rfl
  | @forkCopy p np hpc =>
    have hstate : ∀ i, ((w.table.setParent np p).proc i).state = w.state i :=
      fun i => Ptable.setParent_state
    exact h.frame rfl rfl rfl (fun i => Ptable.setParent_pid)
      (fun i => ⟨fun hi => (hstate i).symm.trans hi,fun hi => (hstate i).trans hi⟩)
      (fun i hi => (hstate i).trans hi)
  | @forkDone p np hpc =>
    exact h.setState (hf.embryo p np (by rw [hpc]; rfl)) (by decide) rfl rfl rfl rfl
  | exit hrun hpc hne => exact h.exit hrun hne
  | reap hrun hc hpc => exact h.reap ht hc

theorem step (hf : Forking w) (ht : Tree w) (hs : w.step m = some w') : Reaping w' := by
  rcases (Did.of_step hs).quiet_or_changes with hq | hc
  · exact h.quiet hq
  · exact h.changes hf ht hc

end Reaping

/-- A process with a child that has exited calls `wait`. -/
theorem wait_returns {w : World} {p i : Fin NPROC} (hrun : w.state p = .running)
    (hpc : (w.pc p).child? = none) (hz : w.state i = .zombie) (hi : w.parent i = some p) :
    ∃ w' c, w.step (.act p .wait) = some w' ∧ w'.reaps = w.reaps ++ [w.reapOf p c] := by
  have hstep : w.step (.act p .wait) = some (w.wait p) := by
    rw [step,if_pos hrun,act,if_pos hpc]
  cases hc : w.table.zombieChild? p with
  | none => exact absurd hz (Ptable.zombieChild?_none hc i hi)
  | some c =>
    refine ⟨_,c,hstep,?_⟩
    simp only [wait,Ptable.wait,hc]
    rfl

/-- In every reachable state the parents of the processes are live and not replaced by others, they
lead to init, and nobody is asleep in `wait` without a child or with one that has exited.  A
process that has exited has been returned by one `wait`, of its parent at that time and with its
own identifier, or by none: then it is still a zombie, and a `wait` of its parent returns a child. -/
theorem processes_reaped_once {w : World} (h : Reachable w) : (∀ i, i ≠ initproc → w.Started i →
      ∃ q, w.parent i = some q ∧ (w.state q).Live ∧ w.parentId i = some (w.id q)) ∧
    (∀ i, w.Started i → Forest.Reaches w.parent initproc i) ∧
    (∀ p, w.table.Waits p → (∃ c, w.state c ≠ .unused ∧ w.parent c = some p) ∧
      ∀ c, w.parent c = some p → w.state c ≠ .zombie) ∧
    (∀ e ∈ w.exits, (w.reaps.map Reap.child).count e.1 = 1 ∧
        (∃ r ∈ w.reaps, r.exit = e ∧ r.parent = some r.curproc) ∨
      (w.reaps.map Reap.child).count e.1 = 0 ∧
        ∃ i, w.state i = .zombie ∧ e = (w.id i,(w.table.proc i).pid)) ∧
    ∀ p i, w.state p = .running → (w.pc p).child? = none → w.state i = .zombie →
      w.parent i = some p →
      ∃ w' c, w.step (.act p .wait) = some w' ∧ w'.reaps = w.reaps ++ [w.reapOf p c] := by
  obtain ⟨-,ht,hr⟩ : Forking w ∧ Tree w ∧ Reaping w :=
    h.invariant (I := fun w => Forking w ∧ Tree w ∧ Reaping w)
      ⟨Forking.init,Tree.init,Reaping.init⟩
      fun _ _ _ ⟨hf,ht,hr⟩ _ hs => ⟨hf.step hs,ht.step hf hs,hr.step hf ht hs⟩
  refine ⟨fun i hi hs => ?_,ht.reaches,fun p hp => ?_,fun e he => ?_,
    fun p i hrun hpc hz hi => wait_returns hrun hpc hz hi⟩
  · obtain ⟨q,hq,hl,hg⟩ := ht.linked i hi hs
    refine ⟨q,hq,hl,?_⟩
    rw [parentId,hq,hg]
    rfl
  · obtain ⟨⟨c,hc⟩,hnone⟩ := ht.awake p hp
    refine ⟨⟨c,fun hu => ?_,hc⟩,hnone⟩
    rw [ht.unused c hu] at hc
    cases hc
  · rcases hr.pending e he with hm | ⟨i,hi,rfl⟩
    · obtain ⟨r,hrm,rfl⟩ := mem_map.mp hm
      exact .inl ⟨count_eq_one_of_mem hr.once (mem_map_of_mem hrm),
        r,hrm,rfl,(hr.reaped r hrm).2.2⟩
    · refine .inr ⟨count_eq_zero.mpr fun hm => ?_,i,hi,rfl⟩
      obtain ⟨r,hrm,hrc⟩ := mem_map.mp hm
      have hun := (hr.reaped r hrm).2.1
      rw [hrc] at hun
      exact absurd ((hun rfl).symm.trans hi) (by decide)

def exitOnce : List Move := forkOnce ++ [.scheduler firstChild, .act firstChild .exit]

theorem processes_reaped_once_two : ∃ w,
    Machine.exec World.step World.init (exitOnce ++ [.act initproc .wait]) = some w ∧
      w.exits = [(⟨firstChild,1⟩,2)] ∧ (w.reaps.map Reap.child).count ⟨firstChild,1⟩ = 1 ∧
      ∃ r ∈ w.reaps, r.exit = (⟨firstChild,1⟩,2) ∧ r.parent = some r.curproc := by
  obtain ⟨w,hw,he,hc⟩ : ∃ w ∈ Machine.exec step init (exitOnce ++ [.act initproc .wait]),
      w.exits = [(⟨firstChild,1⟩,2)] ∧
        (w.reaps.map Reap.child).count ⟨firstChild,1⟩ ≠ 0 := by decide +kernel
  have hok : Machine.Allows step (fun _ _ => True) init
      (exitOnce ++ [.act initproc .wait]) := by decide +kernel
  have h := (processes_reaped_once (.of_allows .init hok hw)).2.2.2.1 (⟨firstChild,1⟩,2)
    (by rw [he]; exact mem_singleton.mpr rfl)
  exact ⟨w,hw,he,h.resolve_right fun h' => hc h'.1⟩

/-- A process that yields and is chosen again goes on where it was. -/
theorem exec_yield {w : World} {p : Fin NPROC} (hrun : w.state p = .running)
    (hchan : (w.table.proc p).chan = none) :
    Machine.exec step w [.act p .yield, .scheduler p] = some w := by
  have hrun' : (w.table.proc p).state = .running := hrun
  have htable : (w.table.setState p .runnable).resume p = w.table := by
    have hproc : { w.table.proc p with state := .running, chan := none } = w.table.proc p := by
      rw [← hrun',← hchan]
    simp only [Ptable.resume,Ptable.setState,Ptable.set,Function.update_self,
      Function.update_idem,hproc,Function.update_eq_self]
  have hyield : w.step (.act p .yield) =
      some { w with table := w.table.setState p .runnable } := by
    rw [step,if_pos hrun]
    rfl
  have hsched : step { w with table := w.table.setState p .runnable } (.scheduler p) =
      some w := by
    have hs : state { w with table := w.table.setState p .runnable } p = .runnable :=
      Ptable.setState_state.trans (if_pos rfl)
    rw [step,if_pos hs]
    rw [htable]
  simp [Machine.exec,hyield,hsched]

/-- The parent of a process that has exited may go on without `wait`, as long as it likes. -/
theorem exited_never_reaped : ∃ w, Machine.exec World.step World.init exitOnce = some w ∧
    w.exits = [(⟨firstChild,1⟩,2)] ∧ w.reaps = [] ∧
    Machine.exec World.step w [.act initproc .yield, .scheduler initproc] = some w := by
  obtain ⟨w,hw,he,hr,hs,hc⟩ : ∃ w ∈ Machine.exec step init exitOnce,
      w.exits = [(⟨firstChild,1⟩,2)] ∧ w.reaps = [] ∧ w.state initproc = .running ∧
        (w.table.proc initproc).chan = none := by decide +kernel
  exact ⟨w,hw,he,hr,exec_yield hs hc⟩

end Xv6.Procs
