import Xv6.Lib.Forest
import Xv6.Proc.Steps

/-! # The tree of processes

Parent pointers are indices of slots, and slots are used again.  Here they lead from every process
to init, over processes that have not exited, and a process that is asleep in `wait` has a child
and none that has exited. -/
namespace Xv6.Procs
open Function Ptable World

namespace Ptable

def Waits (t : Ptable) (p : Fin NPROC) : Prop :=
  (t.proc p).state = .sleeping ∧ (t.proc p).chan = some (.proc p)

variable {t : Ptable} {i p : Fin NPROC} {x : Proc}

theorem Waits.of_set_of_ne (h : (t.set i x).Waits p) (hp : p ≠ i) : t.Waits p := by
  unfold Waits at h
  rwa [set_of_ne hp] at h

theorem Waits.of_set (h : (t.set i x).Waits p)
    (hx : x.state = .sleeping → x.chan = some (.proc i) → t.Waits i) : t.Waits p := by
  by_cases hp : p = i
  · subst hp
    unfold Waits at h
    rw [set_self] at h
    exact hx h.1 h.2
  · exact h.of_set_of_ne hp

theorem Waits.of_kill {pid : Int32} (h : (t.kill pid).2.Waits p) : t.Waits p := by
  unfold kill at h
  split at h
  · refine h.of_set fun hs => ?_
    split at hs
    · cases hs
    · contradiction
  · exact h

theorem Waits.of_wakeup1 {chan : Option Chan} (h : (t.wakeup1 chan).Waits p) : t.Waits p :=
  ⟨(wakeup1_wakes chan).sleeping h.1,((wakeup1_wakes chan).chan p).symm.trans h.2⟩

end Ptable

/-- The process has been started; it may have exited. -/
def World.Started (w : World) (i : Fin NPROC) : Prop := (w.state i).Live ∨ w.state i = .zombie

structure Tree (w : World) : Prop where
  root : (w.state initproc).Live
  parentless : w.parent initproc = none
  unused : ∀ i, w.state i = .unused → w.parent i = none
  forked : ∀ p np, w.pc p = .forked np → w.parent np = none
  copied : ∀ p np, w.pc p = .copied np → w.parent np = some p ∧ w.parentGen np = w.gen p
  linked : ∀ i, i ≠ initproc → w.Started i →
    ∃ q, w.parent i = some q ∧ (w.state q).Live ∧ w.parentGen i = w.gen q
  reaches : ∀ i, w.Started i → Forest.Reaches w.parent initproc i
  awake : ∀ p, w.table.Waits p → (∃ c, w.parent c = some p) ∧
    ∀ c, w.parent c = some p → w.state c ≠ .zombie

namespace Tree
variable {w w' : World} {m : Move} {p np c : Fin NPROC}

theorem init : Tree World.init := by
  have hstate : ∀ i, World.init.state i = if i = initproc then .runnable else .unused := by decide
  have honly : ∀ i, World.init.Started i → i = initproc := fun i hi => by
    rw [Started,hstate i] at hi
    by_contra hne
    rw [if_neg hne] at hi
    exact absurd hi (by decide)
  refine ⟨by decide,by decide,by decide,fun _ _ h => ?_,fun _ _ h => ?_,fun i hi hs => ?_,
    fun i hs => ?_,fun p hp => ?_⟩
  · cases h
  · cases h
  · exact absurd (honly i hs) hi
  · rw [honly i hs]
    exact .root
  · have hs : World.init.state p = .sleeping := hp.1
    rw [hstate p] at hs
    split at hs
    all_goals cases hs

/-- The processes that have been started keep their parents and none exits; one that is started
has a parent that has not exited. -/
theorem frame (h : Tree w) (hs : ∀ i, w'.Started i →
      (w.Started i ∧ w'.parent i = w.parent i ∧ w'.parentGen i = w.parentGen i) ∨
      (¬ w.Started i ∧ ∃ q, w'.parent i = some q ∧ (w.state q).Live ∧ w'.parentGen i = w.gen q))
    (hl : ∀ i, (w.state i).Live → (w'.state i).Live ∧ w'.gen i = w.gen i)
    (hunused : ∀ i, w'.state i = .unused → w'.parent i = none)
    (hforked : ∀ p np, w'.pc p = .forked np → w'.parent np = none)
    (hcopied : ∀ p np, w'.pc p = .copied np → w'.parent np = some p ∧ w'.parentGen np = w'.gen p)
    (hawake : ∀ p, w'.table.Waits p → (∃ c, w'.parent c = some p) ∧
      ∀ c, w'.parent c = some p → w'.state c ≠ .zombie) : Tree w' := by
  have hold : ∀ i, w'.Started i → w.Started i →
      w'.parent i = w.parent i ∧ w'.parentGen i = w.parentGen i := fun i hi hi' =>
    (hs i hi).elim (fun h => h.2) fun h => absurd hi' h.1
  have hroot := (hl initproc h.root).1
  have hreach : ∀ i, w'.Started i → w.Started i → Forest.Reaches w'.parent initproc i := by
    intro i hi hi'
    refine (h.reaches i hi').congr (L := fun v => w'.Started v ∧ w.Started v) (.inr ⟨hi,hi'⟩)
      (fun v hv => (hold v hv.1 hv.2).1) fun v u hv hvu => ?_
    by_cases hv0 : v = initproc
    · rw [hv0,h.parentless] at hvu
      cases hvu
    · obtain ⟨q,hq,hlive,-⟩ := h.linked v hv0 hv.2
      rw [hvu] at hq
      cases hq
      exact .inr ⟨.inl (hl u hlive).1,.inl hlive⟩
  refine ⟨hroot,(hold initproc (.inl hroot) (.inl h.root)).1.trans h.parentless,hunused,hforked,
    hcopied,fun i hi hs' => ?_,fun i hi => ?_,hawake⟩
  · rcases hs i hs' with ⟨hst,hp,hg⟩ | ⟨-,q,hq,hlive,hgen⟩
    · obtain ⟨q,hq,hlive,hgen⟩ := h.linked i hi hst
      exact ⟨q,hp.trans hq,(hl q hlive).1,(hg.trans hgen).trans (hl q hlive).2.symm⟩
    · exact ⟨q,hq,(hl q hlive).1,hgen.trans (hl q hlive).2.symm⟩
  · rcases hs i hi with ⟨hst,-⟩ | ⟨-,q,hq,hlive,-⟩
    · exact hreach i hi hst
    · exact .up hq (hreach q (.inl (hl q hlive).1) (.inl hlive))

/-- The parents stay, and no process exits. -/
theorem awake_of (hp : ∀ i, w'.parent i = w.parent i)
    (hz : ∀ i, w'.state i = .zombie → w.state i = .zombie)
    (ha : (∃ c, w.parent c = some p) ∧ ∀ c, w.parent c = some p → w.state c ≠ .zombie) :
    (∃ c, w'.parent c = some p) ∧ ∀ c, w'.parent c = some p → w'.state c ≠ .zombie := by
  obtain ⟨⟨c,hc⟩,hnone⟩ := ha
  exact ⟨⟨c,(hp c).trans hc⟩,fun c hc hs => hnone c ((hp c).symm.trans hc) (hz c hs)⟩

theorem quiet (h : Tree w) (hq : Quiet w w') (ha : ∀ p, w'.table.Waits p →
      (∃ c, w.parent c = some p) ∧ ∀ c, w.parent c = some p → w.state c ≠ .zombie) : Tree w' := by
  have hp : ∀ i, w'.parent i = w.parent i := hq.moves.parent
  have hz : ∀ i, w'.state i = .zombie ↔ w.state i = .zombie :=
    fun _ => hq.moves.state_eq (by decide)
  refine h.frame
    (fun i hi => .inl ⟨hi.imp hq.moves.live.mp (hz i).mp,hp i,congrFun hq.parentGen i⟩)
    (fun i hi => ⟨hq.moves.live.mpr hi,congrFun hq.gen i⟩) (fun i hi => ?_) (fun p np hpc => ?_)
    (fun p np hpc => ?_) (fun p hwait => awake_of hp (fun i => (hz i).mp) (ha p hwait))
  · exact (hp i).trans (h.unused i ((hq.moves.state_eq (by decide)).mp hi))
  · rw [hp]
    exact h.forked p np ((hq.child? (by rw [hpc]; rfl)).symm.trans hpc)
  · rw [hp,hq.parentGen,hq.gen]
    exact h.copied p np ((hq.child? (by rw [hpc]; rfl)).symm.trans hpc)

/-- A step of `p` changes one slot, which no process has that could be a parent.  A process that
it starts has a parent that has not exited. -/
theorem slot (h : Tree w) (hf : Forking w) (hnp : ¬ (w.state np).Live)
    (hsame : ∀ i, i ≠ np → w'.state i = w.state i ∧ w'.parent i = w.parent i ∧
      w'.parentGen i = w.parentGen i ∧ w'.gen i = w.gen i) (hstart : w'.Started np →
      ¬ w.Started np ∧ ∃ q, w'.parent np = some q ∧ (w.state q).Live ∧ w'.parentGen np = w.gen q)
    (hunused : w'.state np = .unused → w'.parent np = none) (hz : w'.state np ≠ .zombie)
    (hchild : ∀ q, q ≠ p → (w.pc q).child? ≠ some np)
    (hpc : ∀ q x, q ≠ p → (w'.pc q).child? = some x → w'.pc q = w.pc q)
    (hforked : ∀ x, w'.pc p = .forked x → w'.parent x = none)
    (hcopied : ∀ x, w'.pc p = .copied x → w'.parent x = some p ∧ w'.parentGen x = w'.gen p)
    (hwait : ∀ q, w'.table.Waits q → w.table.Waits q)
    (hpar : w'.parent np = w.parent np ∨ ∀ q, w.table.Waits q → w.parent np ≠ some q) :
    Tree w' := by
  have hne : ∀ i, (w.state i).Live → i ≠ np := fun i hi hin => hnp (hin ▸ hi)
  have hold : ∀ q x, q ≠ p → (w'.pc q).child? = some x → w'.pc q = w.pc q ∧ x ≠ np := by
    intro q x hq hx
    have heq := hpc q x hq hx
    refine ⟨heq,fun hxn => hchild q hq ?_⟩
    rw [← heq,hx,hxn]
  refine h.frame (fun i hi => ?_) (fun i hi => ?_) (fun i hi => ?_) (fun q x hq => ?_)
    (fun q x hq => ?_) fun q hq => ?_
  · by_cases hin : i = np
    · subst hin
      exact .inr (hstart hi)
    · obtain ⟨hs,hp,hg,-⟩ := hsame i hin
      rw [Started,hs] at hi
      exact .inl ⟨hi,hp,hg⟩
  · obtain ⟨hs,-,-,hg⟩ := hsame i (hne i hi)
    exact ⟨hi.of_eq hs,hg⟩
  · by_cases hin : i = np
    · subst hin
      exact hunused hi
    · obtain ⟨hs,hp,-⟩ := hsame i hin
      exact hp.trans (h.unused i (hs.symm.trans hi))
  · by_cases hqp : q = p
    · subst hqp
      exact hforked x hq
    · obtain ⟨heq,hx⟩ := hold q x hqp (by rw [hq]; rfl)
      exact (hsame x hx).2.1.trans (h.forked q x (heq.symm.trans hq))
  · by_cases hqp : q = p
    · subst hqp
      exact hcopied x hq
    · obtain ⟨heq,hx⟩ := hold q x hqp (by rw [hq]; rfl)
      rw [heq] at hq
      obtain ⟨-,hp,hg,-⟩ := hsame x hx
      rw [hp,hg,(hsame q (hne q (hf.live q x (by rw [hq]; rfl)))).2.2.2]
      exact h.copied q x hq
  · obtain ⟨⟨c,hc⟩,hnone⟩ := h.awake q (hwait q hq)
    refine ⟨⟨c,?_⟩,fun d hd hdz => ?_⟩
    · by_cases hcn : c = np
      · subst hcn
        rw [hpar.resolve_right fun hn => hn q (hwait q hq) hc,hc]
      · rw [(hsame c hcn).2.1,hc]
    · have hdn : d ≠ np := fun hdn => hz (hdn ▸ hdz)
      obtain ⟨hs,hp,-⟩ := hsame d hdn
      exact hnone d (hp.symm.trans hd) (hs.symm.trans hdz)

theorem not_started {s : ProcState} (hs : w.state np = s) (h : ¬ (s.Live ∨ s = .zombie)) :
    ¬ w.Started np := by
  rwa [Started,hs]

/-- The other processes in `fork` have other children. -/
theorem child_ne (hf : Forking w) (hpc : (w.pc p).child? = some np) {q : Fin NPROC} (hq : q ≠ p) :
    (w.pc q).child? ≠ some np := fun h => hq (hf.unique q p np h hpc)

variable (h : Tree w)
include h

theorem alloc (hf : Forking w) (hnp : w.state np = .unused) : Tree (w.alloc p np) := by
  have hstate : ∀ i, (w.alloc p np).state i = if i = np then .embryo else w.state i :=
    fun i => allocproc_state
  have hp : ∀ i, (w.alloc p np).parent i = w.parent i := fun i => allocproc_parent
  have hself : (w.alloc p np).state np = .embryo := (hstate np).trans (if_pos rfl)
  have hpcp : (w.alloc p np).pc p = .forked np := goto_pc_self
  refine h.slot hf (p := p) (by rw [hnp]; decide)
    (fun i hi => ⟨(hstate i).trans (if_neg hi),hp i,rfl,update_of_ne hi _ _⟩)
    (fun hs => absurd hs (not_started hself (by decide))) (by rw [hself]; nofun)
    (by rw [hself]; nofun) (fun q _ hq => ?_) (fun q _ hq _ => goto_pc_of_ne hq)
    (fun x hx => ?_) (fun x hx => ?_) (fun q hq => Waits.of_set hq nofun) (.inl (hp np))
  · cases hnp.symm.trans (hf.embryo q np hq)
  · cases hpcp.symm.trans hx
    exact (hp np).trans (h.unused np hnp)
  · cases hpcp.symm.trans hx

theorem forkFail (hf : Forking w) (hpc : w.pc p = .forked np) :
    Tree { w.goto p .user with table := w.table.setState np .unused } := by
  have he : w.state np = .embryo := hf.embryo p np (by rw [hpc]; rfl)
  generalize hw' : ({ w.goto p .user with table := w.table.setState np .unused } : World) = w'
  have hstate : ∀ i, w'.state i = if i = np then .unused else w.state i :=
    fun i => hw' ▸ setState_state
  have hp : ∀ i, w'.parent i = w.parent i := fun i => hw' ▸ setState_parent
  have hself : w'.state np = .unused := (hstate np).trans (if_pos rfl)
  have hpcp : w'.pc p = .user := hw' ▸ goto_pc_self
  refine h.slot hf (p := p) (by rw [he]; decide)
    (fun i hi => ⟨(hstate i).trans (if_neg hi),hp i,by rw [← hw']; rfl,by rw [← hw']; rfl⟩)
    (fun hs => absurd hs (not_started hself (by decide)))
    (fun _ => (hp np).trans (h.forked p np hpc)) (by rw [hself]; nofun)
    (fun q => child_ne hf (by rw [hpc]; rfl)) (fun q _ hq _ => hw' ▸ goto_pc_of_ne hq)
    (fun x hx => ?_) (fun x hx => ?_) (fun q hq => ?_) (.inl (hp np))
  · cases hpcp.symm.trans hx
  · cases hpcp.symm.trans hx
  · rw [← hw'] at hq
    exact Waits.of_set hq nofun

theorem forkCopy (hf : Forking w) (hpc : w.pc p = .forked np) : Tree { w.goto p (.copied np) with
      table := w.table.setParent np p
      parentGen := update w.parentGen np (w.gen p) } := by
  have he : w.state np = .embryo := hf.embryo p np (by rw [hpc]; rfl)
  generalize hw' : ({ w.goto p (.copied np) with
    table := w.table.setParent np p
    parentGen := update w.parentGen np (w.gen p) } : World) = w'
  have hstate : ∀ i, w'.state i = w.state i := fun i => hw' ▸ setParent_state
  have hself : w'.state np = .embryo := (hstate np).trans he
  have hpcp : w'.pc p = .copied np := hw' ▸ goto_pc_self
  refine h.slot hf (p := p) (by rw [he]; decide) (fun i hi => ⟨hstate i,?_⟩)
    (fun hs => absurd hs (not_started hself (by decide))) (by rw [hself]; nofun)
    (by rw [hself]; nofun) (fun q => child_ne hf (by rw [hpc]; rfl))
    (fun q _ hq _ => hw' ▸ goto_pc_of_ne hq) (fun x hx => ?_) (fun x hx => ?_)
    (fun q hq => ?_) (.inr fun q _ => by rw [h.forked p np hpc]; nofun)
  · subst hw'
    exact ⟨setParent_parent.trans (if_neg hi),update_of_ne hi _ _,rfl⟩
  · cases hpcp.symm.trans hx
  · cases hpcp.symm.trans hx
    subst hw'
    exact ⟨setParent_parent.trans (if_pos rfl),Function.update_self _ _ _⟩
  · rw [← hw'] at hq
    exact Waits.of_set hq fun hs hc => ⟨hs,hc⟩

theorem forkDone (hf : Forking w) (hpc : w.pc p = .copied np) :
    Tree { (w.goto p .user).goto np .user with
      table := w.table.setState np .runnable
      forks := w.forks ++ [(w.table.proc np).pid] } := by
  have he : w.state np = .embryo := hf.embryo p np (by rw [hpc]; rfl)
  generalize hw' : ({ (w.goto p .user).goto np .user with
    table := w.table.setState np .runnable
    forks := w.forks ++ [(w.table.proc np).pid] } : World) = w'
  have hstate : ∀ i, w'.state i = if i = np then .runnable else w.state i :=
    fun i => hw' ▸ setState_state
  have hself : w'.state np = .runnable := (hstate np).trans (if_pos rfl)
  have hp : ∀ i, w'.parent i = w.parent i := fun i => hw' ▸ setState_parent
  have hpg : w'.parentGen = w.parentGen := by rw [← hw']; rfl
  have hpcs : ∀ q, w'.pc q ≠ .user → q ≠ p ∧ w'.pc q = w.pc q := fun q hq => by
    subst hw'
    have hqn : q ≠ np := fun he => hq (he ▸ goto_pc_self)
    have hqp : q ≠ p := fun he => hq (he ▸ (goto_pc_of_ne (he ▸ hqn)).trans goto_pc_self)
    exact ⟨hqp,(goto_pc_of_ne hqn).trans (goto_pc_of_ne hqp)⟩
  refine h.slot hf (p := p) (by rw [he]; decide)
    (fun i hi => ⟨(hstate i).trans (if_neg hi),hp i,congrFun hpg i,by rw [← hw']; rfl⟩)
    (fun _ => ⟨not_started he (by decide),p,?_⟩) (by rw [hself]; nofun) (by rw [hself]; nofun)
    (fun q => child_ne hf (by rw [hpc]; rfl)) (fun q x _ hx => (hpcs q ?_).2)
    (fun x hx => ?_) (fun x hx => ?_) (fun q hq => ?_) (.inl (hp np))
  · obtain ⟨hpar,hg⟩ := h.copied p np hpc
    exact ⟨(hp np).trans hpar,hf.live p np (by rw [hpc]; rfl),by rw [hpg,hg]⟩
  · intro hu
    rw [hu] at hx
    cases hx
  · exact absurd rfl (hpcs p (by rw [hx]; simp)).1
  · exact absurd rfl (hpcs p (by rw [hx]; simp)).1
  · rw [← hw'] at hq
    exact Waits.of_set hq nofun

theorem reap (hf : Forking w) (hrun : w.state p = .running) (hc : w.table.zombieChild? p = some c) :
    Tree { w.goto p .user with
      table := w.table.reap c
      reaps := w.reaps ++ [w.reapOf p c] } := by
  obtain ⟨hcp,hz⟩ := zombieChild?_some hc
  generalize hw' : ({ w.goto p .user with
    table := w.table.reap c
    reaps := w.reaps ++ [w.reapOf p c] } : World) = w'
  have hself : w'.state c = .unused ∧ w'.parent c = none := by
    subst hw'
    exact ⟨congrArg Proc.state set_self,congrArg Proc.parent set_self⟩
  have hpcp : w'.pc p = .user := hw' ▸ goto_pc_self
  refine h.slot hf (p := p) (by rw [state,hz]; decide) (fun i hi => ?_)
    (fun hs => absurd hs (not_started hself.1 (by decide))) (fun _ => hself.2)
    (by rw [hself.1]; rintro ⟨⟩) (fun q _ hq => ?_) (fun q _ hq _ => hw' ▸ goto_pc_of_ne hq)
    (fun x hx => ?_) (fun x hx => ?_) (fun q hq => ?_) (.inr fun q hq hcq => ?_)
  · subst hw'
    exact ⟨congrArg Proc.state (reap_of_ne hi),congrArg Proc.parent (reap_of_ne hi),
      rfl,rfl⟩
  · cases hz.symm.trans (hf.embryo q c hq)
  · cases hpcp.symm.trans hx
  · cases hpcp.symm.trans hx
  · rw [← hw'] at hq
    exact Waits.of_set hq (by rintro ⟨⟩)
  · -- the process that calls `wait` is not asleep
    obtain rfl : q = p := Option.some.inj (hcq.symm.trans hcp)
    cases hq.1.symm.trans hrun

/-- `exit` wakes the parent of the process, and init if it hands over a child that has exited. -/
theorem awake_exit {q : Fin NPROC} (hrun : w.state p = .running) (hne : p ≠ initproc)
    (hex : w.table.Exits (w.exit p).table p) (hq : (w.exit p).table.Waits q) :
    (∃ c, (w.exit p).parent c = some q) ∧
      ∀ c, (w.exit p).parent c = some q → (w.exit p).state c ≠ .zombie := by
  have hp : ∀ i, (w.exit p).parent i = if w.parent i = some p then some initproc else w.parent i :=
    hex.parent
  have hqp : q ≠ p := fun he => by
    rw [he] at hq
    exact absurd (hex.self.symm.trans hq.1) (by decide)
  have hqs : w.state q = .sleeping := by
    rcases hex.state q hqp with hs | ⟨hs,-⟩
    · exact hs.symm.trans hq.1
    · exact hs
  have hqc : (w.table.proc q).chan = some (.proc q) := (hex.chan q).symm.trans hq.2
  obtain ⟨⟨c,hc⟩,hnone⟩ := h.awake q ⟨hqs,hqc⟩
  refine ⟨⟨c,?_⟩,fun d hd hz => ?_⟩
  · rw [hp,if_neg (fun he => hqp (Option.some.inj (hc.symm.trans he)))]
    exact hc
  · rw [hp] at hd
    by_cases hdp : d = p
    · have hself : w.parent p ≠ some p :=
        (h.reaches p (.inl (.inr (.inr hrun)))).ne_self hne
      rw [hdp,if_neg hself] at hd
      refine hex.wakesParent q hqp hq.1 ?_
      rw [hqc]
      exact (congrArg (Option.map Chan.proc) hd).symm
    · have hdz : w.state d = .zombie := by
        rcases hex.state d hdp with hs | ⟨-,hs⟩
        · exact hs.symm.trans hz
        · exact absurd (hs.symm.trans hz) (by decide)
      by_cases hdc : w.parent d = some p
      · rw [if_pos hdc] at hd
        cases hd
        exact hex.wakesInit initproc d hqp hq.1 hdc hdz hqc
      · rw [if_neg hdc] at hd
        exact hnone d hd hdz

theorem exit (hrun : w.state p = .running) (hpc : w.pc p = .user)
    (hne : p ≠ initproc) : Tree (w.exit p) := by
  have hex := exit_exits (t := w.table) hne
  have hp : ∀ i, (w.exit p).parent i = if w.parent i = some p then some initproc else w.parent i :=
    hex.parent
  have hg : ∀ i, (w.exit p).parentGen i =
      if w.parent i = some p then w.gen initproc else w.parentGen i := fun _ => rfl
  have hself : (w.exit p).state p = .zombie := hex.self
  have hlive : ∀ i, i ≠ p → (w.state i).Live → ((w.exit p).state i).Live := fun i hi hl => by
    rcases hex.state i hi with hs | ⟨-,hs⟩
    · exact hl.of_eq hs
    · exact .inr (.inl hs)
  -- a state other than RUNNABLE is not the result of a wakeup
  have hback : ∀ i, i ≠ p → (w.exit p).state i ≠ .runnable → (w.exit p).state i = w.state i :=
    fun i hi hs => by
      rcases hex.state i hi with he | ⟨-,he⟩
      · exact he
      · exact absurd he hs
  have hstarted : ∀ i, (w.exit p).Started i → w.Started i := fun i hi => by
    by_cases hip : i = p
    · rw [hip,Started,hrun]
      decide
    · rcases hex.state i hip with hs | ⟨hs,-⟩
      · rw [Started,state,← hs]
        exact hi
      · exact .inl (.inl hs)
  have hroot := hlive initproc hne.symm h.root
  refine ⟨hroot,?_,fun i hi => ?_,fun q np hq => ?_,fun q np hq => ?_,fun i hi hs => ?_,
    fun i hi => (h.reaches i (hstarted i hi)).redirect fun v => ?_,fun q hq => ?_⟩
  · rw [hp,h.parentless]
    rfl
  · have hip : i ≠ p := fun hip => by
      rw [hip,hself] at hi
      cases hi
    rw [hp,h.unused i ((hback i hip (by rw [hi]; decide)).symm.trans hi)]
    rfl
  · rw [hp,h.forked q np hq]
    rfl
  · -- a process in `fork` is not the one that exits
    have hqp : w.parent np ≠ some p := fun he => by
      rw [(h.copied q np hq).1] at he
      cases he
      exact absurd (hpc.symm.trans hq) (by simp)
    rw [hp,hg,if_neg hqp,if_neg hqp]
    exact h.copied q np hq
  · rw [hp,hg]
    by_cases hip : w.parent i = some p
    · rw [if_pos hip,if_pos hip]
      exact ⟨initproc,rfl,hroot,rfl⟩
    · obtain ⟨q,hq,hl,hgen⟩ := h.linked i hi (hstarted i hs)
      rw [if_neg hip,if_neg hip]
      exact ⟨q,hq,hlive q (fun he => hip (he ▸ hq)) hl,hgen⟩
  · rw [hp]
    split
    · exact .inr rfl
    · exact .inl rfl
  · exact h.awake_exit hrun hne hex hq

theorem changes (hf : Forking w) (hc : Changes w m w') : Tree w' := by
  cases hc with
  | alloc hrun hpc hnp => exact h.alloc hf (unused?_state hnp)
  | forkFail hpc => exact h.forkFail hf hpc
  | forkCopy hpc => exact h.forkCopy hf hpc
  | forkDone hpc => exact h.forkDone hf hpc
  | exit hrun hpc hne => exact h.exit hrun hpc hne
  | reap hrun hc hpc => exact h.reap hf hrun hc

/-- A process that falls asleep in `wait` has looked for its children; the other moves that are
quiet put nobody to sleep there. -/
theorem awake_quiet (hd : Did w m w') (hnc : ¬ Changes w m w') {q : Fin NPROC}
    (hq : w'.table.Waits q) :
    (∃ c, w.parent c = some q) ∧ ∀ c, w.parent c = some q → w.state c ≠ .zombie := by
  cases hd with
  | changes hc => exact absurd hc hnc
  | noSlot => exact h.awake q hq
  | waitFail => exact h.awake q hq
  | @waitSleep p hrun hc hk _ hpc =>
    by_cases hqp : q = p
    · rw [hqp]
      exact ⟨havekids_iff.mp hk,zombieChild?_none hc⟩
    · exact h.awake q (Waits.of_set_of_ne hq hqp)
  | kill => exact h.awake q hq.of_kill
  | sleep => exact h.awake q (Waits.of_set hq fun _ hc => by cases hc)
  | wakeup => exact h.awake q hq.of_wakeup1
  | yield => exact h.awake q (Waits.of_set hq fun hs => by cases hs)
  | fault => exact h.awake q (Waits.of_set hq fun hs hc => ⟨hs,hc⟩)
  | scheduler => exact h.awake q (Waits.of_set hq fun hs => by cases hs)
  | intr => exact h.awake q hq.of_wakeup1

theorem step (hf : Forking w) (hs : w.step m = some w') : Tree w' := by
  have hd := Did.of_step hs
  by_cases hc : Changes w m w'
  · exact h.changes hf hc
  · have hq := hd.quiet_or_changes.resolve_right hc
    exact h.quiet hq fun p hp => h.awake_quiet hd hc hp

end Tree

end Xv6.Procs
