import Xv6.Proc.Cpus

/-! # A process runs on at most one CPU

Where a CPU is tells what `c->proc` is and in which state its process is.  CPUs that do not hold
`ptable.lock` are idle or run a process that is RUNNING, and what the one that holds it does to
the table does not touch those. -/
namespace Xv6.Cpus
open Function
open Procs (Action ProcState Forking Ptable)
open Option

def Ctx.holds : Ctx → Bool
  | .idle | .thread _ .out => false
  | _ => true

/-- What is true of `c->proc` and of its process where a CPU is. -/
def Fits (state : Fin NPROC → ProcState) : Ctx → Option (Fin NPROC) → Prop
  | .idle, q | .intr _, q | .intrDone, q | .scan _, q => q = none
  | .chosen p, q => q = some p ∧ state p = .runnable
  | .swtch p, q => q = some p ∧ state p = .running
  | .back _, q => ∃ i, q = some i ∧ state i ≠ .running
  | .thread i (.sched s), q =>
    q = some i ∧ if s = .exit then state i = .zombie else (state i).Live ∧ state i ≠ .running
  | .thread i _, q => q = some i ∧ state i = .running

section Base
variable {b b' : Procs.World} {m : Procs.Move} {p np i : Fin NPROC} {a : Action}

theorem step_of_act (hrun : b.state p = .running) (h : b.act p a = some b') :
    b.step (.act p a) = some b' := by
  rw [Procs.World.step,if_pos hrun,h]

/-- The states of all processes are kept, but for that of one which is not running before or
after. -/
theorem running_iff_of_set {t : Ptable} {x : Procs.Proc} {r : ProcState}
    (hb : (t.proc np).state ≠ .running) (hx : x.state = r) (hr : r ≠ .running) :
    ((t.set np x).proc i).state = .running ↔ (t.proc i).state = .running := by
  rw [Ptable.apply_set Procs.Proc.state]
  split
  · rename_i hi
    rw [hi,hx]
    exact ⟨fun h => absurd h hr,fun h => absurd h hb⟩
  · rfl

theorem running_iff_of_wakes {t t' : Ptable} (h : t.Wakes t') :
    (t'.proc i).state = .running ↔ (t.proc i).state = .running := by
  rcases h.state i with hs | ⟨hs,hs'⟩
  · rw [hs]
  · rw [hs,hs']
    decide

theorem running_iff_of_kill {t : Ptable} {pid : Int32} :
    ((t.kill pid).2.proc i).state = .running ↔ (t.proc i).state = .running := by
  unfold Ptable.kill
  split
  · rename_i j _
    rw [Ptable.apply_set Procs.Proc.state]
    by_cases hi : i = j
    · rw [if_pos hi,hi]
      dsimp only
      split
      · rename_i hs
        rw [hs]
        decide
      · rfl
    · rw [if_neg hi]
  · rfl

/-- The thread goes on with its process running, and the section has kept who is running. -/
theorem fits_of_running (hafter : after b p a = .release) (hrun : b.state p = .running)
    (h : ∀ i, b'.state i = .running ↔ b.state i = .running) :
    (∀ i, i ≠ p → (b'.state i = .running ↔ b.state i = .running)) ∧
      Fits b'.state (.thread p (after b p a)) (some p) := by
  rw [hafter]
  exact ⟨fun i _ => h i,rfl,(h p).mpr hrun⟩

theorem fits_of_sched {s : Saved} {t : Ptable} {x : Procs.Proc} {r : ProcState}
    (hs : s ≠ .exit) (hx : x.state = r) (hr : r.Live ∧ r ≠ .running) :
    (∀ i, i ≠ p → (((t.set p x).proc i).state = .running ↔ (t.proc i).state = .running)) ∧
      Fits (fun i => ((t.set p x).proc i).state) (.thread p (.sched s)) (some p) := by
  refine ⟨fun i hi => by rw [Ptable.set_of_ne hi],rfl,?_⟩
  have hself : ((t.set p x).proc p).state = r := by rw [Ptable.set_self,hx]
  rw [if_neg hs]
  dsimp only
  rwa [hself]

theorem changes_effect (hf : Forking b) (hrun : b.state p = .running)
    (hc : Procs.Changes b (.act p a) b') :
    (∀ i, i ≠ p → (b'.state i = .running ↔ b.state i = .running)) ∧
      Fits b'.state (.thread p (after b p a)) (some p) := by
  have hembryo : ∀ {np}, (b.pc p).child? = some np → b.state np ≠ .running := fun h => by
    rw [hf.embryo p _ h]
    decide
  cases hc with
  | @alloc _ np _ hpc hnp =>
    have hu := Ptable.unused?_state hnp
    exact fits_of_running rfl hrun fun i =>
      running_iff_of_set (t := b.table) (r := .embryo) (by rw [hu]; decide) rfl (by decide)
  | forkFail hpc =>
    exact fits_of_running rfl hrun fun i =>
      running_iff_of_set (t := b.table) (r := .unused) (hembryo (by rw [hpc]; rfl)) rfl (by decide)
  | forkCopy hpc =>
    have hnp := hembryo (by rw [hpc]; rfl)
    exact fits_of_running rfl hrun fun i => running_iff_of_set (t := b.table) hnp rfl hnp
  | forkDone hpc =>
    exact fits_of_running rfl hrun fun i =>
      running_iff_of_set (t := b.table) (r := .runnable) (hembryo (by rw [hpc]; rfl)) rfl (by decide)
  | exit _ hpc hne =>
    have hex := Ptable.exit_exits (t := b.table) hne
    refine ⟨fun i hi => ?_,rfl,?_⟩
    · have hs : (b.exit p).state i = b.state i ∨
          b.state i = .sleeping ∧ (b.exit p).state i = .runnable := hex.state i hi
      rcases hs with hs | ⟨hs,hs'⟩
      · rw [hs]
      · rw [hs,hs']
        decide
    · rw [if_pos rfl]
      exact hex.self
  | @reap _ c _ hc hpc =>
    have hz := (Ptable.zombieChild?_some hc).2
    refine fits_of_running ?_ hrun fun i =>
      running_iff_of_set (t := b.table) (r := .unused) (by rw [hz]; decide) rfl (by decide)
    simp only [after,Ptable.wait,hc]

/-- A section of a thread does not touch the other processes that are running, and leaves its own
in the state in which the thread goes on. -/
theorem section_effect (hf : Forking b) (hrun : b.state p = .running) (h : b.act p a = some b') :
    (∀ i, i ≠ p → (b'.state i = .running ↔ b.state i = .running)) ∧
      Fits b'.state (.thread p (after b p a)) (some p) := by
  have hd := Procs.Did.of_act hrun h
  cases hd with
  | changes hc => exact changes_effect hf hrun hc
  | noSlot => exact fits_of_running rfl hrun fun i => Iff.rfl
  | waitFail hw hpc =>
    exact fits_of_running (by simp only [after,hw]) hrun fun i => Iff.rfl
  | waitSleep _ _ _ hw hpc =>
    have hafter : after b p .wait = .sched .wait := by simp only [after,hw]
    rw [hafter]
    exact fits_of_sched (t := b.table) (r := .sleeping) (by decide) rfl (by decide)
  | kill => exact fits_of_running rfl hrun fun i => running_iff_of_kill (t := b.table)
  | sleep => exact fits_of_sched (t := b.table) (r := .sleeping) (by decide) rfl (by decide)
  | wakeup =>
    exact fits_of_running rfl hrun fun i => running_iff_of_wakes (Ptable.wakeup1_wakes _)
  | yield => exact fits_of_sched (t := b.table) (r := .runnable) (by decide) rfl (by decide)
  | fault =>
    have hsame : ∀ i, ((b.table.fault p).proc i).state = b.state i :=
      Ptable.apply_set_same Procs.Proc.state (by rfl)
    exact fits_of_running rfl hrun fun i => by
      rw [← hsame i]
      rfl

/-- What a thread does without the lock only gives up an embryo. -/
theorem free_effect (hf : Forking b) (hrun : b.state p = .running) (hl : locks a = false)
    (h : b.act p a = some b') (i : Fin NPROC) :
    b'.state i = b.state i ∨ b.state i = .embryo ∧ b'.state i = .unused := by
  have hd := Procs.Did.of_act hrun h
  cases hd with
  | changes hc =>
    cases hc with
    | @forkFail _ np hpc =>
      by_cases hi : i = np
      · rw [hi]
        exact .inr ⟨hf.embryo p np (by rw [hpc]; rfl),
          Ptable.setState_state.trans (if_pos rfl)⟩
      · exact .inl (Ptable.setState_state.trans (if_neg hi))
    | forkCopy hpc => exact .inl Ptable.setParent_state
    | _ => cases hl
  | fault => exact .inl (Ptable.apply_set_same Procs.Proc.state (by rfl) i)
  | _ => cases hl

/-- A process becomes live at the end of the `fork` that creates it. -/
theorem live_of_step (hs : b.step m = some b') (hl : (b'.state i).Live) :
    (b.state i).Live ∨ ∃ p, b.pc p = .copied i := by
  have hset : ∀ {np s}, ¬ ProcState.Live s → (if i = np then s else b.state i).Live →
      (b.state i).Live := fun hs hl => by
    split at hl
    · exact absurd hl hs
    · exact hl
  rcases (Procs.Did.of_step hs).quiet_or_changes with hq | hc
  · exact .inl (hq.moves.live.mp hl)
  cases hc with
  | alloc => exact .inl (hset (by decide) (hl.of_eq Ptable.allocproc_state.symm))
  | forkFail => exact .inl (hset (by decide) (hl.of_eq Ptable.setState_state.symm))
  | forkCopy => exact .inl (hl.of_eq Ptable.setParent_state.symm)
  | @forkDone p np hpc =>
    by_cases hi : i = np
    · exact .inr ⟨p,hi ▸ hpc⟩
    · refine .inl (hl.of_eq ?_)
      exact ((if_neg hi).symm.trans Ptable.setState_state.symm)
  | @exit p _ _ hne =>
    have hex := Ptable.exit_exits (t := b.table) hne
    have hself : (b.exit p).state p = .zombie := hex.self
    by_cases hi : i = p
    · rw [hi,hself] at hl
      exact absurd hl (by decide)
    · rcases hex.state i hi with he | ⟨he,-⟩
      · exact .inl (hl.of_eq he.symm)
      · exact .inl (.inl he)
  | @reap p c _ _ _ =>
    have hstate : ((b.table.reap c).proc i).state = if i = c then .unused else b.state i :=
      Ptable.apply_set Procs.Proc.state
    exact .inl (hset (by decide) (hl.of_eq hstate.symm))

theorem copied_of_step (hs : b.step m = some b') (hc : b'.pc p = .copied np) :
    b.pc p = .copied np ∨ m = .act p .forkCopy ∧ b.pc p = .forked np := by
  have hgoto : ∀ {q : Fin NPROC} {x : Procs.Pc}, x.child? = none → (b.goto q x).pc p = .copied np →
      b.pc p = .copied np := fun hx hp => by
    rcases Procs.goto_pc b _ hx p with he | he
    · exact he.symm.trans hp
    · rw [hp] at he
      cases he
  rcases (Procs.Did.of_step hs).quiet_or_changes with hq | hc'
  · exact .inl ((hq.child? (by rw [hc]; rfl)).symm.trans hc)
  cases hc' with
  | @alloc q x _ _ _ =>
    by_cases hp : p = q
    · have : Procs.Pc.forked x = .copied np :=
        (Procs.World.goto_pc_self (w := b) (p := q)).symm.trans (hp ▸ hc)
      cases this
    · exact .inl ((Procs.World.goto_pc_of_ne (w := b) hp).symm.trans hc)
  | forkFail => exact .inl (hgoto rfl hc)
  | @forkCopy q x hpc =>
    by_cases hp : p = q
    · have : Procs.Pc.copied x = .copied np :=
        (Procs.World.goto_pc_self (w := b) (p := q)).symm.trans (hp ▸ hc)
      cases this
      exact .inr ⟨hp ▸ rfl,hp ▸ hpc⟩
    · exact .inl ((Procs.World.goto_pc_of_ne (w := b) hp).symm.trans hc)
  | @forkDone q x hpc =>
    by_cases hp : p = x
    · have : Procs.Pc.user = .copied np :=
        (Procs.World.goto_pc_self (w := b.goto q .user) (p := x)).symm.trans (hp ▸ hc)
      cases this
    · exact .inl (hgoto rfl ((Procs.World.goto_pc_of_ne (w := b.goto q .user) hp).symm.trans hc))
  | exit => exact .inl hc
  | reap => exact .inl (hgoto rfl hc)

end Base

section Invariant
variable {K : Type}

structure Inv (w : World K) : Prop where
  /-- the table is one of the machine with sections as single steps -/
  base : Procs.Reachable w.base
  lock : ∀ c, w.lock = some c ↔ (w.ctx c).holds = true
  fits : ∀ c, Fits w.base.state (w.ctx c) (w.proc c)
  unique : ∀ c d i, w.proc c = some i → w.proc d = some i → c = d
  running : ∀ i, w.base.state i = .running → ∃ c, w.proc c = some i
  saved : ∀ i, (w.base.state i).Live → w.saved i ≠ .exit
  copied : ∀ p np, w.base.pc p = .copied np → w.saved np = .forkret

theorem Inv.init : Inv (World.init K) := by
  have hstate : ∀ i, Procs.World.init.state i ≠ .running := by decide
  refine ⟨.init,fun c => ?_,fun c => rfl,fun c d i hc => ?_,fun i hi => ?_,fun i _ => ?_,
    fun p np hp => ?_⟩
  · constructor
    all_goals
      intro h
      cases h
  · cases hc
  · exact absurd hi (hstate i)
  · exact (by decide : Saved.forkret ≠ .exit)
  · cases hp

variable {w w' : World K} {c d : K} {i p : Fin NPROC}

theorem Inv.forking (h : Inv w) : Forking w.base :=
  h.base.invariant Forking.init fun _ _ _ hf _ hs => hf.step hs

theorem Inv.fits_of (h : Inv w) {x : Ctx} (hx : w.ctx c = x) : Fits w.base.state x (w.proc c) :=
  hx ▸ h.fits c

theorem Inv.lock_of (h : Inv w) {x : Ctx} (hx : w.ctx c = x) (hh : x.holds = true) :
    w.lock = some c :=
  (h.lock c).mpr (hx ▸ hh)

/-- A CPU without the lock that points to a process runs it. -/
theorem Inv.running_of_free (h : Inv w) (hl : w.lock ≠ some c) (hp : w.proc c = some i) :
    w.base.state i = .running := by
  have hfit := h.fits c
  have hfree : (w.ctx c).holds ≠ true := fun hh => hl ((h.lock c).mpr hh)
  rw [hp] at hfit
  generalize w.ctx c = x at hfit hfree
  cases x with
  | idle => cases hfit
  | thread j pt =>
    cases pt with
    | out =>
      obtain ⟨hij,hrun⟩ := hfit
      cases hij
      exact hrun
    | _ => exact absurd rfl hfree
  | _ => exact absurd rfl hfree

/-- The CPUs without the lock do not mind what happens to processes that are not running. -/
theorem fits_of_free {state state' : Fin NPROC → ProcState} {x : Ctx} {q : Option (Fin NPROC)}
    (hx : x.holds ≠ true) (h : Fits state x q)
    (hs : ∀ i, q = some i → state i = .running → state' i = .running) : Fits state' x q := by
  cases x with
  | idle => exact h
  | thread j pt =>
    cases pt with
    | out => exact ⟨h.1,hs j h.1 h.2⟩
    | _ => exact absurd rfl hx
  | _ => exact absurd rfl hx

/-- The states that matter to a CPU are not those of embryos. -/
theorem fits_of_same {state state' : Fin NPROC → ProcState} {x : Ctx} {q : Option (Fin NPROC)}
    (h : Fits state x q)
    (hs : ∀ i, state' i = state i ∨ state i = .embryo ∧ state' i = .unused) : Fits state' x q := by
  have hkeep : ∀ i, state i ≠ .embryo → state' i = state i :=
    fun i hi => (hs i).elim id fun h' => absurd h'.1 hi
  cases x with
  | idle => exact h
  | intr n => exact h
  | intrDone => exact h
  | scan j => exact h
  | chosen p => exact ⟨h.1,(hkeep p (by rw [h.2]; decide)).trans h.2⟩
  | swtch p => exact ⟨h.1,(hkeep p (by rw [h.2]; decide)).trans h.2⟩
  | back j =>
    obtain ⟨i,hq,hi⟩ := h
    refine ⟨i,hq,?_⟩
    rcases hs i with he | ⟨-,he⟩
    · rwa [he]
    · rw [he]
      decide
  | thread j pt =>
    cases pt with
    | sched s =>
      obtain ⟨hq,hi⟩ := h
      refine ⟨hq,?_⟩
      have hne : state j ≠ .embryo := fun he => by
        rw [he] at hi
        split at hi
        · cases hi
        · exact absurd hi.1 (by decide)
      rwa [hkeep j hne]
    | out => exact ⟨h.1,(hkeep j (by rw [h.2]; decide)).trans h.2⟩
    | locked a => exact ⟨h.1,(hkeep j (by rw [h.2]; decide)).trans h.2⟩
    | release => exact ⟨h.1,(hkeep j (by rw [h.2]; decide)).trans h.2⟩

structure Moves (w w' : World K) (c : K) : Prop where
  ctx : ∀ d, d ≠ c → w'.ctx d = w.ctx d
  proc : ∀ d, d ≠ c → w'.proc d = w.proc d
  lock : ∀ d, d ≠ c → (w'.lock = some d ↔ w.lock = some d)

theorem Inv.move (h : Inv w) (hm : Moves w w' c) (hbase : Procs.Reachable w'.base)
    (hlock : w'.lock = some c ↔ (w'.ctx c).holds = true)
    (hfits : Fits w'.base.state (w'.ctx c) (w'.proc c))
    (hothers : ∀ d, d ≠ c → Fits w'.base.state (w.ctx d) (w.proc d))
    (hproc : ∀ i, w'.proc c = some i → w.proc c = some i ∨ ∀ d, w.proc d ≠ some i)
    (hrun : ∀ i, w'.base.state i = .running →
      w'.proc c = some i ∨ w.base.state i = .running ∧ w.proc c ≠ some i)
    (hsaved : ∀ i, (w'.base.state i).Live → w'.saved i ≠ .exit)
    (hcopied : ∀ p np, w'.base.pc p = .copied np → w'.saved np = .forkret) : Inv w' := by
  have hone : ∀ d i, d ≠ c → w'.proc c = some i → w'.proc d ≠ some i := fun d i hd hc hd' => by
    rw [hm.proc d hd] at hd'
    rcases hproc i hc with hi | hi
    · exact hd (h.unique d c i hd' hi)
    · exact hi d hd'
  refine ⟨hbase,fun d => ?_,fun d => ?_,fun d e i hd he => ?_,fun i hi => ?_,hsaved,hcopied⟩
  · by_cases hd : d = c
    · rw [hd]
      exact hlock
    · rw [hm.lock d hd,hm.ctx d hd]
      exact h.lock d
  · by_cases hd : d = c
    · rw [hd]
      exact hfits
    · rw [hm.ctx d hd,hm.proc d hd]
      exact hothers d hd
  · by_cases hdc : d = c
    · by_cases hec : e = c
      · rw [hdc,hec]
      · exact absurd he (hone e i hec (hdc ▸ hd))
    · by_cases hec : e = c
      · exact absurd hd (hone d i hdc (hec ▸ he))
      · rw [hm.proc d hdc] at hd
        rw [hm.proc e hec] at he
        exact h.unique d e i hd he
  · rcases hrun i hi with hc | ⟨hi',hc⟩
    · exact ⟨c,hc⟩
    · obtain ⟨d,hd⟩ := h.running i hi'
      have hdc : d ≠ c := fun hdc => hc (hdc ▸ hd)
      exact ⟨d,(hm.proc d hdc).trans hd⟩

/-- What the CPU with the lock does to processes that it does not run is no matter of the
others. -/
theorem Inv.others {state' : Fin NPROC → ProcState} (h : Inv w) (hl : w.lock = some c)
    (hs : ∀ i, w.proc c ≠ some i → w.base.state i = .running → state' i = .running) :
    ∀ d, d ≠ c → Fits state' (w.ctx d) (w.proc d) := by
  intro d hd
  have hfree : (w.ctx d).holds ≠ true := fun hh => by
    have hd' := (h.lock d).mpr hh
    rw [hl] at hd'
    exact hd (Option.some.inj hd').symm
  refine fits_of_free hfree (h.fits d) fun i hi hrun => hs i (fun hc => ?_) hrun
  exact hd (h.unique d c i hi hc)

/-- The contexts of the processes after a step: new ones start at `forkret`. -/
theorem Inv.saved_step {b' : Procs.World} {m : Procs.Move} {saved' : Fin NPROC → Saved} (h : Inv w)
    (hs : w.base.step m = some b') (hold : ∀ i, saved' i = w.saved i ∨ saved' i = .forkret)
    (hnew : ∀ p np, m = .act p .forkCopy → w.base.pc p = .forked np → saved' np = .forkret) :
    (∀ i, (b'.state i).Live → saved' i ≠ .exit) ∧
      ∀ p np, b'.pc p = .copied np → saved' np = .forkret := by
  have hkeep : ∀ i, w.saved i = .forkret → saved' i = .forkret :=
    fun i hi => (hold i).elim (fun he => he.trans hi) id
  refine ⟨fun i hl he => ?_,fun p np hp => ?_⟩
  · rcases live_of_step hs hl with hl | ⟨p,hp⟩
    · rcases hold i with hi | hi
      · exact h.saved i hl (hi.symm.trans he)
      · exact absurd (hi.symm.trans he) (by decide)
    · exact absurd ((hkeep i (h.copied p i hp)).symm.trans he) (by decide)
  · rcases copied_of_step hs hp with hp | ⟨hm,hp⟩
    · exact hkeep np (h.copied p np hp)
    · exact hnew p np hm hp

theorem newContext_old (w : World K) (p : Fin NPROC) (a : Action) (i : Fin NPROC) :
    w.newContext p a i = w.saved i ∨ w.newContext p a i = .forkret := by
  have hcases : w.newContext p a = w.saved ∨
      ∃ np, w.newContext p a = update w.saved np .forkret := by
    unfold World.newContext
    split
    · exact .inr ⟨_,rfl⟩
    · exact .inl rfl
  rcases hcases with he | ⟨np,he⟩
  · exact .inl (congrFun he i)
  · rw [he]
    by_cases hi : i = np
    · rw [hi]
      exact .inr (update_self _ _ _)
    · exact .inl (update_of_ne hi _ _)

theorem newContext_new {a : Action} {q np : Fin NPROC}
    (ha : Procs.Move.act p a = .act q .forkCopy) (hq : w.base.pc q = .forked np) :
    w.newContext p a np = .forkret := by
  cases ha
  simp [World.newContext,hq]

/-- What a thread does without the lock. -/
theorem Inv.free {a : Action} (h : Inv w) (hx : w.ctx c = .thread i .out) (hp : w.proc c = some p)
    (ha : locks a = false) (hs : w.perform p a = some w') : Inv w' := by
  obtain ⟨hpi,hrun⟩ := h.fits_of hx
  have hip : i = p := Option.some.inj (hpi.symm.trans hp)
  rw [hip] at hrun
  obtain ⟨b',hb,rfl⟩ := map_eq_some_iff.mp hs
  have hsame := free_effect h.forking hrun ha hb
  have hstep := step_of_act hrun hb
  obtain ⟨hsaved,hcopied⟩ := h.saved_step hstep (newContext_old w p a)
    fun p np hm hpc => newContext_new hm hpc
  refine h.move (c := c) ⟨fun _ _ => rfl,fun _ _ => rfl,fun _ _ => Iff.rfl⟩
    (h.base.step trivial hstep) (h.lock c) (fits_of_same (h.fits c) hsame)
    (fun d _ => fits_of_same (h.fits d) hsame) (fun j hj => .inl hj) (fun j hj => ?_) hsaved hcopied
  have hj' : w.base.state j = .running := by
    rcases hsame j with he | ⟨-,he⟩
    · exact he.symm.trans hj
    · exact absurd (he.symm.trans hj) (by decide)
  by_cases hc : w.proc c = some j
  · exact .inl hc
  · exact .inr ⟨hj',hc⟩

section Steps
variable [DecidableEq K]

theorem after_ne_out (b : Procs.World) (p : Fin NPROC) (a : Action) : after b p a ≠ .out := by
  unfold after
  split
  case h_4 => split <;> simp
  all_goals simp

section
variable (h : Inv w)
include h

theorem Inv.control {x : Ctx} (hbase : w'.base = w.base) (hproc : w'.proc = w.proc)
    (hsaved : w'.saved = w.saved) (hctx : w'.ctx = update w.ctx c x)
    (hothers : ∀ d, d ≠ c → (w'.lock = some d ↔ w.lock = some d))
    (hlock : w'.lock = some c ↔ x.holds = true) (hx : Fits w.base.state x (w.proc c)) : Inv w' := by
  have hself : w'.ctx c = x := by rw [hctx,update_self]
  refine h.move (c := c) ⟨fun d hd => ?_,fun d _ => congrFun hproc d,hothers⟩ (hbase ▸ h.base) ?_ ?_
    (fun d _ => hbase ▸ h.fits d) (fun i hi => .inl (hproc ▸ hi)) (fun i hi => ?_)
    (fun i hi => ?_) (fun p np hp => ?_)
  · rw [hctx,update_of_ne hd]
  · rw [hself]
    exact hlock
  · rw [hself,hbase,hproc]
    exact hx
  · rw [hbase] at hi
    rw [hproc]
    by_cases hc : w.proc c = some i
    · exact .inl hc
    · exact .inr ⟨hi,hc⟩
  · rw [hbase] at hi
    rw [hsaved]
    exact h.saved i hi
  · rw [hbase] at hp
    rw [hsaved]
    exact h.copied p np hp

theorem Inv.acquire {x : Ctx} (hs : w.acquire c x = some w') (hx : x.holds = true)
    (hfit : Fits w.base.state x (w.proc c)) : Inv w' := by
  obtain ⟨hl,hs⟩ := ite_none_right_eq_some.1 hs
  cases hs
  refine h.control (c := c) rfl rfl rfl rfl (fun d hd => ?_) (by simp [hx]) hfit
  rw [hl]
  simp [Ne.symm hd]

theorem Inv.release {x : Ctx} (hs : w.release c x = some w') (hx : x.holds ≠ true)
    (hfit : Fits w.base.state x (w.proc c)) : Inv w' := by
  obtain ⟨hl,hs⟩ := ite_none_right_eq_some.1 hs
  cases hs
  refine h.control (c := c) rfl rfl rfl rfl (fun d hd => ?_) (by simp [hx]) hfit
  rw [hl]
  simp [Ne.symm hd]

theorem Inv.goto {x : Ctx} (hx : x.holds = (w.ctx c).holds)
    (hfit : Fits w.base.state x (w.proc c)) : Inv (w.goto c x) :=
  h.control (c := c) rfl rfl rfl rfl (fun _ _ => Iff.rfl) (by rw [hx]; exact h.lock c) hfit

theorem Inv.table {b' : Procs.World} {m : Procs.Move} {x : Ctx} {saved' : Fin NPROC → Saved} (hl : w.lock = some c) (hs : w.base.step m = some b')
    (hx : x.holds = true) (hfit : Fits b'.state x (w.proc c))
    (hrun : ∀ i, w.proc c ≠ some i → (b'.state i = .running ↔ w.base.state i = .running))
    (hold : ∀ i, saved' i = w.saved i ∨ saved' i = .forkret)
    (hnew : ∀ p np, m = .act p .forkCopy → w.base.pc p = .forked np → saved' np = .forkret) :
    Inv { w.goto c x with base := b', saved := saved' } := by
  have hself : update w.ctx c x c = x := update_self _ _ _
  obtain ⟨hsaved,hcopied⟩ := h.saved_step hs hold hnew
  refine h.move (c := c)
    ⟨fun d hd => update_of_ne hd _ _,fun _ _ => rfl,fun _ _ => Iff.rfl⟩
    (h.base.step trivial hs) ?_ ?_ (h.others hl fun i hi => (hrun i hi).mpr) (fun i hi => .inl hi)
    (fun i hi => ?_) hsaved hcopied
  · show w.lock = some c ↔ (update w.ctx c x c).holds = true
    rw [hself,hl,hx]
    simp
  · show Fits b'.state (update w.ctx c x c) (w.proc c)
    rw [hself]
    exact hfit
  · by_cases hc : w.proc c = some i
    · exact .inl hc
    · exact .inr ⟨(hrun i hc).mp hi,hc⟩

theorem Inv.locked {a : Action} (hx : w.ctx c = .thread i (.locked a))
    (hs : w.thread c i (.locked a) = some w') : Inv w' := by
  have hl := h.lock_of hx rfl
  obtain ⟨hp,hrun⟩ := h.fits_of hx
  simp only [World.thread,hp] at hs
  obtain ⟨w1,hw1,rfl⟩ := map_eq_some_iff.mp hs
  obtain ⟨b',hb,rfl⟩ := map_eq_some_iff.mp hw1
  obtain ⟨hothers,hself⟩ := section_effect h.forking hrun hb
  have hholds : (Ctx.thread i (after w.base i a)).holds = true := by
    cases hafter : after w.base i a with
    | out => exact absurd hafter (after_ne_out _ _ _)
    | _ => rfl
  refine h.table hl (step_of_act hrun hb) hholds (hp ▸ hself) (fun j hj => hothers j ?_)
    (newContext_old w i a) (fun p np hm hpc => newContext_new hm hpc)
  exact fun hji => hj (hji ▸ hp)

/-- The CPU with the lock takes up another process, or none. -/
theorem Inv.switch {x : Ctx} {q : Option (Fin NPROC)} {saved' : Fin NPROC → Saved}
    (hl : w.lock = some c) (hx : x.holds = true) (hfit : Fits w.base.state x q)
    (hproc : ∀ i, q = some i → w.proc c = some i ∨ ∀ d, w.proc d ≠ some i)
    (hrun : ∀ i, w.base.state i = .running → q = some i ∨ w.proc c ≠ some i)
    (hsaved : ∀ i, (w.base.state i).Live → saved' i ≠ .exit)
    (hcopied : ∀ p np, w.base.pc p = .copied np → saved' np = .forkret) :
    Inv { w with ctx := update w.ctx c x, proc := update w.proc c q, saved := saved' } := by
  refine h.move (c := c) ⟨fun d hd => update_of_ne hd _ _,fun d hd => update_of_ne hd _ _,
    fun _ _ => Iff.rfl⟩ h.base ?_ ?_ (fun d _ => h.fits d) ?_ ?_ hsaved hcopied <;> dsimp only <;>
    rw [update_self]
  · simp [hl,hx]
  · rwa [update_self]
  · exact hproc
  · exact fun i hi => (hrun i hi).imp_right fun hc => ⟨hi,hc⟩

theorem Inv.sched {s : Saved} (hx : w.ctx c = .thread i (.sched s))
    (hs : w.thread c i (.sched s) = some w') : Inv w' := by
  obtain ⟨hp,hstate⟩ := h.fits_of hx
  simp only [World.thread,hp] at hs
  obtain ⟨hok,hs⟩ := ite_none_right_eq_some.1 hs
  cases hs
  have hsaved : ∀ j, (w.base.state j).Live → update w.saved i s j ≠ .exit := by
    intro j hj
    by_cases hji : j = i
    · rw [hji,update_self]
      intro he
      rw [if_pos he] at hstate
      rw [hji] at hj
      exact absurd (hj.of_eq hstate.symm) (by decide)
    · rw [update_of_ne hji]
      exact h.saved j hj
  have hcopied : ∀ q np, w.base.pc q = .copied np → update w.saved i s np = .forkret := by
    intro q np hq
    -- the new process of a `fork` has not run yet
    have hne : np ≠ i := fun hni => by
      have he := h.forking.embryo q np (by rw [hq]; rfl)
      rw [hni] at he
      rw [he] at hstate
      split at hstate
      · cases hstate
      · exact absurd hstate.1 (by decide)
    rw [update_of_ne hne]
    exact h.copied q np hq
  have hswitch := h.switch (x := .back (w.loop c)) (q := w.proc c) hok.1 rfl ⟨i,hp,hok.2⟩
    (fun j => .inl) (fun j _ => em _) hsaved hcopied
  rwa [update_eq_self] at hswitch

theorem Inv.choose {j : ℕ} {p : Fin NPROC} (hx : w.ctx c = .scan j)
    (hrun : w.base.state p = .runnable) :
    Inv { w.goto c (.chosen p) with proc := update w.proc c (some p) } := by
  have hl := h.lock_of hx rfl
  have hnone : w.proc c = none := h.fits_of hx
  refine h.switch hl rfl ⟨rfl,hrun⟩ (fun i hi => .inr fun d hd => ?_)
    (fun i _ => .inr (by rw [hnone]; simp)) h.saved h.copied
  -- no other CPU runs a process that is not running
  have hdc : d ≠ c := fun hdc => by
    rw [hdc,hnone] at hd
    cases hd
  have := h.running_of_free (c := d) (fun hd' => hdc (Option.some.inj (hd'.symm.trans hl))) hd
  rw [← Option.some.inj hi,hrun] at this
  cases this

theorem Inv.back {p : Fin NPROC} {j : ℕ} (hx : w.ctx c = .back p) :
    Inv { w.goto c (.scan j) with proc := update w.proc c none } := by
  obtain ⟨i0,hi0,hs0⟩ := h.fits_of hx
  refine h.switch (h.lock_of hx rfl) rfl rfl nofun (fun i hi => .inr fun hc => ?_) h.saved h.copied
  cases hi0.symm.trans hc
  exact hs0 hi

theorem Inv.run (hs : w.run c = some w') : Inv w' := by
  unfold World.run at hs
  split at hs
  · rename_i hx
    have hfit := h.fits_of hx
    exact h.acquire hs rfl hfit
  · rename_i n hx
    have hfit := h.fits_of hx
    cases hs
    refine h.table (m := .intr n) (h.lock_of hx rfl) rfl rfl hfit (fun i _ => ?_)
      (fun i => .inl rfl) (fun p np hm => by cases hm)
    exact running_iff_of_wakes (Ptable.wakeup1_wakes _)
  · rename_i hx
    have hfit := h.fits_of hx
    exact h.release hs (by decide) hfit
  · rename_i j hx
    have hfit := h.fits_of hx
    split at hs
    · split at hs
      · cases hs
        exact h.choose hx ‹_›
      · cases hs
        exact h.goto (by rw [hx]; rfl) hfit
    · exact h.release hs (by decide) hfit
  · rename_i p hx
    obtain ⟨hp,hstate⟩ := h.fits_of hx
    cases hs
    have hstep : w.base.step (.scheduler p) =
        some { w.base with table := w.base.table.resume p } := by
      rw [Procs.World.step,if_pos hstate]
    refine h.table (h.lock_of hx rfl) hstep rfl ⟨hp,?_⟩ (fun i hi => ?_) (fun i => .inl rfl)
      (fun p np hm => by cases hm)
    · exact congrArg Procs.Proc.state Ptable.set_self
    · have hip : i ≠ p := fun hip => hi (hip ▸ hp)
      have hsame : (w.base.table.resume p).proc i = w.base.table.proc i := Ptable.set_of_ne hip
      simp only [Procs.World.state,hsame]
  · rename_i p hx
    obtain ⟨pt,hpt,rfl⟩ := map_eq_some_iff.mp hs
    have hfit := h.fits_of hx
    have hthread : Fits w.base.state (.thread p pt) (w.proc c) ∧ (Ctx.thread p pt).holds = true := by
      cases hsaved : w.saved p
      all_goals
        rw [hsaved] at hpt
        cases hpt
      all_goals exact ⟨hfit,rfl⟩
    exact h.control (c := c) rfl rfl rfl rfl (fun _ _ => Iff.rfl)
      ⟨fun _ => hthread.2,fun _ => h.lock_of hx rfl⟩ hthread.1
  · cases hs
    exact h.back ‹_›
  · rename_i i pt hx
    cases pt with
    | out => cases hs
    | locked a => exact h.locked hx hs
    | sched s => exact h.sched hx hs
    | release =>
      have hfit := h.fits_of hx
      exact h.release hs (fun hh => by cases hh) hfit

theorem Inv.step {m : Move K} (hs : w.step m = some w') : Inv w' := by
  cases m with
  | run c => exact h.run hs
  | enter c a =>
    simp only [World.step] at hs
    split at hs
    · rename_i i p hx hp
      have hfit := h.fits_of hx
      split at hs
      · exact h.acquire hs rfl hfit
      · cases hs
    · cases hs
  | act c a =>
    simp only [World.step] at hs
    split at hs
    · rename_i i p hx hp
      split at hs
      · exact h.free hx hp ‹_› hs
      · cases hs
    · cases hs
  | intr c n =>
    simp only [World.step] at hs
    split at hs
    · rename_i hx
      have hfit := h.fits_of hx
      exact h.acquire hs rfl hfit
    · cases hs

end

/-- With `ptable.lock` free, a process is RUNNING exactly if one CPU points to it, and a CPU in
`scheduler` points to none.  Always, the process that `scheduler` has chosen is RUNNABLE, and the
one that `swtch` resumes is RUNNING and does not come from `exit`. -/
theorem running_on_one_cpu (h : Machine.Reach World.step (fun _ _ => True) (World.init K) w) :
    (w.lock = none → (∀ i, w.base.state i = .running ↔ ∃! c, w.proc c = some i) ∧
      ∀ c, (∀ i pt, w.ctx c ≠ .thread i pt) → w.proc c = none) ∧
    (∀ c p, w.ctx c = .chosen p → w.base.state p = .runnable) ∧
    ∀ c p, w.ctx c = .swtch p → w.base.state p = .running ∧ w.saved p ≠ .exit := by
  have hinv : Inv w := h.invariant Inv.init fun _ _ _ hi _ hs => hi.step hs
  refine ⟨fun hl => ⟨fun i => ⟨fun hi => ?_,?_⟩,fun c hc => ?_⟩,fun c p hx => ?_, fun c p hx => ?_⟩
  · obtain ⟨c,hc⟩ := hinv.running i hi
    exact ⟨c,hc,fun d hd => hinv.unique d c i hd hc⟩
  · rintro ⟨c,hc,-⟩
    exact hinv.running_of_free (by rw [hl]; simp) hc
  · -- the other places in `scheduler` are with the lock
    have hfree : (w.ctx c).holds ≠ true := fun hh => by
      have := (hinv.lock c).mpr hh
      rw [hl] at this
      cases this
    cases hx : w.ctx c with
    | idle => exact hinv.fits_of hx
    | thread i pt => exact absurd hx (hc i pt)
    | _ =>
      rw [hx] at hfree
      exact absurd rfl hfree
  · exact (hinv.fits_of hx).2
  · obtain ⟨-,hstate⟩ := hinv.fits_of hx
    exact ⟨hstate,hinv.saved p (.inr (.inr hstate))⟩

end Steps

def runInit : List (Move Bool) := List.replicate 5 (.run true)

theorem running_on_one_cpu_init : ∃ w,
    Machine.exec World.step (World.init Bool) runInit = some w ∧ w.lock = none ∧
      w.base.state Procs.initproc = .running ∧ ∃! c, w.proc c = some Procs.initproc := by
  obtain ⟨w,hw,hl,hs⟩ : ∃ w ∈ Machine.exec World.step (World.init Bool) runInit,
      w.lock = none ∧ w.base.state Procs.initproc = .running := by decide +kernel
  have hok : Machine.Allows World.step (fun _ _ => True) (World.init Bool) runInit := by
    decide +kernel
  have h := (running_on_one_cpu (.of_allows .init hok hw)).1 hl
  exact ⟨w,hw,hl,hs,(h.1 Procs.initproc).mp hs⟩

end Invariant

end Xv6.Cpus
