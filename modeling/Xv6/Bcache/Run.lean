import Xv6.Bcache.Pinned

/-! # Runs of the buffer cache and the log

One step of any process keeps the cache coherent and the logged blocks pinned, so all
runs do. -/
namespace Xv6.Caching
open Function World Option Finset

variable {P : Type} [Fintype P] {w w' : World P} {p : P} {b : Fin NBUF} {x : ℕ} {s : List Call}
  {c : Call}

theorem Logged.op_of_committing (h : Logged w) (hc : w.log.committing = true) (q : P) :
    w.op q = false := by
  have h0 := h.quiet hc
  rw [h.count] at h0
  have : (Finset.univ.filter fun p => w.op p = true) = ∅ :=
    card_eq_zero.mp (by exact_mod_cast h0)
  have hq := filter_eq_empty_iff.mp this (mem_univ q)
  simpa using hq

theorem Logged.committing_of_op (h : Logged w) (hp : w.op p = true) : w.log.committing = false := by
  by_contra hc
  rw [h.op_of_committing (by simpa using hc) p] at hp
  cases hp

theorem Logged.script_of_op (h : Logged w) (hp : w.op p = true) (q : P) : w.script q = none := by
  by_contra hq
  obtain ⟨s,hs⟩ := ne_none_iff_exists'.mp hq
  have := h.committing_of_op hp
  rw [h.committing_of_script hs] at this
  cases this

/-- Outside `bread`, a process that runs `commit` is not inside any other function. -/
theorem Logged.run_of_script (h : Logged w) (hp : w.script p = some (c :: s))
    (hc : ∀ x, c ≠ .bread x) : w.phase p = .run := by
  have hread : ∀ y, ¬ Reading w p y := by
    intro y hy
    obtain ⟨t,ht⟩ := h.reading p _ y hp hy
    exact hc y (List.cons.inj ht).1
  cases hph : w.phase p with
  | run => rfl
  | getting y => exact absurd (.inl hph) (hread y)
  | locked y b => exact absurd (.inr ⟨b,hph⟩) (hread y)
  | logging b =>
    have := h.logging p b hph
    rw [h.op_of_committing (h.committing_of_script hp) p] at this
    cases this

theorem Logged.block_of_reading (h : Logged w) (hp : w.script p = some (.bread x :: s)) {y : ℕ}
    (hy : Reading w p y) : y = x := by
  obtain ⟨t,ht⟩ := h.reading p _ y hp hy
  cases ht
  rfl

/-- A step of a process that does not run `commit`. -/
theorem Logged.ordinary (h : Logged w) (hp : w.script p = none) (hb : Below w p w')
    (hc : ∀ q, q ≠ p → Changed w' q ⊆ Changed w q) : Logged w' := by
  have hne : ∀ q s, w.script q = some s → q ≠ p := by
    rintro q s hq rfl
    rw [hp] at hq
    cases hq
  refine h.below hb (fun q s hq => hc q (hne q s hq)) fun q s y hq hy => .inl ?_
  unfold Reading at hy ⊢
  rwa [hb.other q (hne q s hq)] at hy

variable [DecidableEq P]

/-- The step leaves all contents alone, or stores into a buffer that `p` holds. -/
def Quiet (w : World P) (p : P) (w' : World P) : Prop :=
  w'.logical = w.logical ∨
    ∃ b y, w.Has p b ∧ w'.logical = update w.logical (w.buf b).blockno y

/-- A step to a good state that leaves all contents alone. -/
structure Silent (w w' : World P) : Prop where
  coherent : Coherent w'
  logged : Logged w'
  logical : w'.logical = w.logical

section Ordinary

omit [Fintype P] in
theorem held_eq (h : w.held p x = some b) :
    w.shared.owner b = some p ∧ w.label b = (ROOTDEV,x) := by
  have := List.find?_some h
  rw [Bool.and_eq_true,decide_eq_true_iff,beq_iff_eq] at this
  exact this

/-- `log_write` pins the buffer and puts its block into the header. -/
theorem Logged.logUpdate (h : Logged w) (hco : Coherent w) (hs : w.logUpdate p = some w') :
    Logged w' := by
  obtain ⟨b,hph,-,-,-,rfl⟩ := hco.logUpdate_eq hs
  have hop := h.logging p b hph
  have hcom := h.committing_of_op hop
  have hscript : ∀ q, (w.logged p b).script q = none := h.script_of_op hop
  have hbuf : ∀ c, c ≠ b → (w.logged p b).buf c = w.buf c :=
    fun c hc => w.setFlags_buf_ne hc true true
  have hb : (w.logged p b).buf b = { w.buf b with valid := true, dirty := true } :=
    w.setFlags_buf b true true
  refine ⟨h.count,h.quiet,h.committing,h.single,fun _ h0 => ?_,fun q c hq => ?_,
    fun c hd _ => ?_,fun c q s _ hq => ?_,fun q s hq => ?_,fun q s y hq => ?_, fun q s hq => ?_⟩
  · have hcount := h.count
    have hpos : 0 < (Finset.univ.filter fun q => w.op q = true).card :=
      card_pos.mpr ⟨p,by simp [hop]⟩
    have h0' : w.log.outstanding = 0 := h0
    omega
  · have hq' : update w.phase p .run q = .logging c := hq
    by_cases hqp : q = p
    · subst hqp
      exact hop
    · rw [update_of_ne hqp] at hq'
      exact h.logging q c hq'
  · change _ ∈ Log.absorb w.log.block (w.buf b).blockno
    rw [Log.mem_absorb]
    by_cases hcb : c = b
    · subst hcb
      exact .inr (by rw [hb])
    · rw [hbuf c hcb] at hd ⊢
      exact .inl (h.header c hd hcom)
  all_goals
    rw [hscript q] at hq
    cases hq

theorem Logged.beginOp (h : Logged w) (hs : w.beginOp p = some w') : Logged w' := by
  obtain ⟨hcond,hs⟩ := ite_none_right_eq_some.1 hs
  obtain ⟨l,hl,rfl⟩ := map_eq_some_iff.mp hs
  unfold Log.beginOp at hl
  split at hl
  · cases hl
  rename_i hcom
  split at hl
  · cases hl
  cases hl
  have hcom' : w.log.committing = false := by simpa using hcom
  have hcount := h.count
  refine ⟨?_,fun hc => absurd hc hcom,h.committing,h.single,fun _ h0 => ?_,fun q c hq => ?_,
    h.header,h.ahead,h.discipline,h.reading,h.cleared⟩
  · have : (Finset.univ.filter fun q => update w.op p true q = true)
        = insert p (Finset.univ.filter fun q => w.op q = true) := by
      ext q
      by_cases hq : q = p <;> simp [hq]
    rw [this,card_insert_of_notMem (by simp [hcond.1]),hcount]
    push_cast
    rfl
  · have h0' : w.log.outstanding + 1 = 0 := h0
    omega
  · change update w.op p true q = true
    by_cases hqp : q = p
    · rw [hqp,update_self]
    · rw [update_of_ne hqp]
      exact h.logging q c hq

theorem clear_mem_commit (l : Log) : .clear ∈ Call.commit l ∨ l.block = [] := by
  unfold Call.commit
  split
  · exact .inl (by simp)
  · rename_i hn
    exact .inr (List.eq_nil_of_length_eq_zero (by simpa [Log.n] using hn))

variable (h : Logged w)
include h

theorem Logged.card_sub_one (hop : w.op p = true) : w.log.outstanding - 1
      = (Finset.univ.filter fun q => update w.op p false q = true).card := by
  have hcard : (Finset.univ.filter fun q => update w.op p false q = true)
      = (Finset.univ.filter fun q => w.op q = true).erase p := by
    ext q
    by_cases hq : q = p <;> simp [hq]
  have hpos : 0 < (Finset.univ.filter fun q => w.op q = true).card :=
    card_pos.mpr ⟨p,by simp [hop]⟩
  rw [hcard,card_erase_of_mem (by simp [hop]),h.count]
  omega

theorem Logged.logging_of_run (hrun : w.phase p = .run) {q : P} {c : Fin NBUF}
    (hq : w.phase q = .logging c) : update w.op p false q = true := by
  have hqp : q ≠ p := by
    rintro rfl
    rw [hrun] at hq
    cases hq
  rw [update_of_ne hqp]
  exact h.logging q c hq

/-- The last operation of the transaction starts the commit of its header. -/
theorem Logged.startCommit (hop : w.op p = true) (hrun : w.phase p = .run)
    {l : Log} (hl : l.block = w.log.block) (hout : l.outstanding = w.log.outstanding - 1)
    (h0 : l.outstanding = 0) (hcommit : l.committing = true) : Logged { w with
      log := l
      op := update w.op p false
      script := update w.script p (some (Call.commit l)) } := by
  have hcom := h.committing_of_op hop
  have hown : ∀ q s, update w.script p (some (Call.commit l)) q = some s →
      q = p ∧ Call.commit l = s := by
    intro q s hq
    by_cases hqp : q = p
    · subst hqp
      rw [update_self] at hq
      exact ⟨rfl,Option.some.inj hq⟩
    · rw [update_of_ne hqp,h.script_of_op hop q] at hq
      cases hq
  have hsome : ∀ q, (update w.script p (some (Call.commit l)) q).isSome = true → q = p := by
    intro q hq
    obtain ⟨s,hs⟩ := isSome_iff_exists.mp hq
    exact (hown q s hs).1
  refine ⟨hout.trans (h.card_sub_one hop),fun _ => h0,⟨fun _ => ⟨p,by simp⟩,fun _ => hcommit⟩,
    fun q q' hq hq' => (hsome q hq).trans (hsome q' hq').symm,?_,
    fun q c => h.logging_of_run hrun,?_,?_,?_,?_,?_⟩
  · intro hc
    cases hcommit.symm.trans hc
  · intro c _ hc
    cases hcommit.symm.trans hc
  · intro c q s hd hq
    obtain ⟨rfl,rfl⟩ := hown q s hq
    apply bwrite_mem_pending
    rw [hl]
    exact h.header c hd hcom
  · intro q s hq
    obtain ⟨rfl,rfl⟩ := hown q s hq
    exact disciplined_commit _ _
  · intro q s y hq hy
    obtain ⟨rfl,rfl⟩ := hown q s hq
    rcases hy with hy | ⟨c,hy⟩
    · cases hrun.symm.trans hy
    · cases hrun.symm.trans hy
  · intro q s hq
    obtain ⟨rfl,rfl⟩ := hown q s hq
    exact clear_mem_commit _

theorem Logged.endOp (hs : w.endOp p = some w') : Logged w' := by
  obtain ⟨⟨hop,hrun⟩,hs⟩ := ite_none_right_eq_some.1 hs
  have hcom := h.committing_of_op hop
  unfold Log.endOp at hs
  rw [hcom,if_neg (by simp)] at hs
  by_cases hlast : w.log.outstanding - 1 = 0
  · rw [if_pos hlast] at hs
    cases hs
    exact h.startCommit hop hrun rfl rfl hlast rfl
  · rw [if_neg hlast] at hs
    cases hs
    have hc : w.log.committing = true ↔ _ := h.committing
    rw [hcom] at hc
    exact ⟨h.card_sub_one hop,nofun,hc,h.single,fun _ h0 => absurd h0 hlast,
      fun q c => h.logging_of_run hrun,fun c hd _ => h.header c hd hcom,h.ahead,h.discipline,
      h.reading,h.cleared⟩

end Ordinary

section Commit

/-- A step of `p` inside the `bread(x)` of its `commit`. -/
theorem Logged.inBread (h : Logged w) (hp : w.script p = some (.bread x :: s)) (ht : Tame w p w')
    (hr : ∀ y, Reading w' p y → y = x) : Silent w w' := by
  refine ⟨ht.coherent,h.below ht.below (fun q _ _ => ht.changed q) fun q t y hq hy => ?_,
    ht.logical⟩
  obtain rfl := h.single q p (by simp [hq]) (by simp [hp])
  rw [hp] at hq
  cases hq
  exact .inr ⟨s,by rw [hr y hy]⟩

/-- The block that `bread` has just locked is unchanged. -/
theorem Coherent.changed_of_locked (h : Coherent w) (hph : w.phase p = .locked x b) :
    x ∉ Changed w p := by
  obtain ⟨hown,hl,hm⟩ : w.shared.owner b = some p ∧ w.label b = (ROOTDEV,x) ∧
      w.modified b = false := by
    have := h.phase p
    rwa [PhaseOk,hph] at this
  rintro ⟨c,hc,hlc,hmc⟩
  obtain rfl : c = b :=
    h.unique (h.inUse_of_owner hc) (h.inUse_of_owner hown) (congrArg Prod.snd (hlc.trans hl.symm))
  rw [hm] at hmc
  cases hmc

theorem Coherent.advance (h : Coherent w) (s : List Call) :
    Coherent (w.advance p s) ∧ (w.advance p s).logical = w.logical :=
  h.above rfl rfl rfl rfl rfl fun q => (h.phase q).same rfl rfl rfl

theorem Logged.advanceTame (h : Logged w) (hp : w.script p = some (c :: s)) (ht : Tame w p w')
    (hc : c ≠ .clear) (hcw : ∀ z, c ≠ .bwrite z) (hdisc : Disciplined (Changed w' p) s)
    (hrun : w'.phase p = .run) : Silent w (w'.advance p s) := by
  obtain ⟨hco,hlog⟩ := ht.coherent.advance (p := p) s
  exact ⟨hco,h.advance hp ht.below hc (fun _ _ => hcw _) (fun q _ => ht.changed q) hdisc hrun,
    hlog.trans ht.logical⟩

theorem Logged.commitBread (h : Logged w) (hco : Coherent w)
    (hp : w.script p = some (.bread x :: s)) (hs : w.commitStep p (.bread x :: s) = some w') : Silent w w' := by
  unfold commitStep at hs
  dsimp only at hs
  split at hs
  · obtain ⟨ht,hget⟩ := hco.bget hs
    refine h.inBread hp ht fun y hy => ?_
    rcases hy with hy | ⟨c,hy⟩ <;> rw [hget] at hy <;> cases hy
    rfl
  · obtain ⟨ht,z,c,hget,hlock⟩ := hco.acquiresleep hs
    refine h.inBread hp ht fun y hy => ?_
    have hz := h.block_of_reading hp (.inl hget)
    rcases hy with hy | ⟨c',hy⟩ <;> rw [hlock] at hy <;> cases hy
    exact hz
  · rename_i y b hph
    obtain rfl := h.block_of_reading hp (.inr ⟨b,hph⟩)
    split at hs
    · obtain ⟨w1,h1,rfl⟩ := map_eq_some_iff.mp hs
      obtain ⟨ht,hrun⟩ := hco.ret h1
      refine h.advanceTame hp ht nofun nofun ?_ hrun
      have hd : Disciplined (Changed w p \ {y}) s := h.discipline p _ hp
      refine hd.mono fun z hz => ⟨ht.changed p hz,?_⟩
      rintro rfl
      exact hco.changed_of_locked hph (ht.changed p hz)
    · obtain ⟨ht,hsame⟩ := hco.fill hs
      refine h.inBread hp ht fun z hz => ?_
      unfold Reading at hz
      rw [hsame] at hz
      exact h.block_of_reading hp hz
  · cases hs

omit [Fintype P] in
theorem has_of_store {y : Block} (hs : w.store p b y = some w') : w.Has p b := by
  exact (ite_none_right_eq_some.1 hs).1

omit [Fintype P] in
theorem phase_of_store {y : Block} (hs : w.store p b y = some w') : w'.phase p = .run := by
  obtain ⟨hhas,hs⟩ := ite_none_right_eq_some.1 hs
  cases hs
  exact hhas.1

variable (h : Logged w)
include h

theorem Logged.commitStore {y : Block} (hco : Coherent w)
    (hp : w.script p = some (c :: s)) (hc : c ≠ .clear) (hcw : ∀ z, c ≠ .bwrite z)
    (hheld : w.held p x = some b) (hdisc : Disciplined (Changed w p ∪ {x}) s)
    (hs : (w.store p b y).map (·.advance p s) = some w') :
    Coherent w' ∧ Logged w' ∧ Quiet w p w' := by
  obtain ⟨w1,h1,rfl⟩ := map_eq_some_iff.mp hs
  obtain ⟨hco1,hlog⟩ := hco.store h1
  obtain ⟨hb,hcp,hcq⟩ := store_below h1
  have hadv := hco1.advance (p := p) s
  have hx : (w.buf b).blockno = x := congrArg Prod.snd (held_eq hheld).2
  rw [hx] at hcp
  exact ⟨hadv.1,h.advance hp hb hc (fun _ _ => hcw _) hcq (hdisc.mono hcp) (phase_of_store h1),
    .inr ⟨b,y,has_of_store h1,hadv.2.trans hlog⟩⟩

theorem Logged.commitBwrite (hco : Coherent w)
    (hp : w.script p = some (.bwrite x :: s)) (hheld : w.held p x = some b)
    (hs : (w.bwrite p b).map (·.advance p s) = some w') : Silent w w' := by
  obtain ⟨w1,h1,rfl⟩ := map_eq_some_iff.mp hs
  obtain ⟨hco1,hlog⟩ := hco.bwrite h1
  obtain ⟨hb,hne,hcp,hcq⟩ := hco.bwrite_below h1
  have hadv := hco1.advance (p := p) s
  have hx : (w.buf b).blockno = x := congrArg Prod.snd (held_eq hheld).2
  rw [hx] at hcp hne
  have hrun : w1.phase p = .run := by
    obtain ⟨hhas,-,rfl⟩ := hco.bwrite_eq h1
    exact hhas.1
  refine ⟨hadv.1,h.advance hp hb nofun (fun c hd => ?_) hcq ?_ hrun,hadv.2.trans hlog⟩
  · intro he
    exact hne c hd (Call.bwrite.inj he).symm
  · have hd : Disciplined (Changed w p \ {x}) s := h.discipline p _ hp
    exact hd.mono hcp

theorem Logged.commitBrelse (hco : Coherent w)
    (hp : w.script p = some (.brelse x :: s)) (hs : w.commitStep p (.brelse x :: s) = some w') : Silent w w' := by
  have hrun := h.run_of_script hp nofun
  obtain ⟨hx,hd⟩ : x ∉ Changed w p ∧ Disciplined (Changed w p) s := h.discipline p _ hp
  unfold commitStep at hs
  dsimp only at hs
  split at hs
  · obtain ⟨w1,h1,rfl⟩ := map_eq_some_iff.mp hs
    obtain ⟨ht,hsame⟩ := hco.brelse h1
    exact h.advanceTame hp ht nofun nofun (hd.mono (ht.changed p)) (by rw [hsame,hrun])
  · split at hs
    · rename_i b hheld
      obtain ⟨hown,hl⟩ := held_eq hheld
      have hm : w.modified b = false := by
        by_contra hm
        exact hx ⟨b,hown,hl,by simpa using hm⟩
      obtain ⟨ht,hsame⟩ := hco.releasesleep hm hs
      refine ⟨ht.coherent,h.below ht.below (fun q _ _ => ht.changed q) fun q t y hq hy => ?_,
        ht.logical⟩
      obtain rfl := h.single q p (by simp [hq]) (by simp [hp])
      unfold Reading at hy
      rw [hsame,hrun] at hy
      rcases hy with hy | ⟨c,hy⟩ <;> cases hy
    · cases hs

omit [DecidableEq P] in
theorem Logged.clean_of_pending (hp : w.script p = some s) (hs : ∀ x, .bwrite x ∉ pending s)
    (b : Fin NBUF) : (w.buf b).dirty ≠ true :=
  fun hd => hs _ (h.ahead b p s hd hp)

/-- `log.lh.n = 0`: by now every block of the header has been installed. -/
theorem Logged.commitClear (hco : Coherent w)
    (hp : w.script p = some (.clear :: s)) (hw : w' = { w.advance p s with log := w.log.clear }) : Silent w w' := by
  have hrun := h.run_of_script hp nofun
  have hdirty := h.clean_of_pending hp (by simp [pending])
  have hsc : (w.script p).isSome = true := by simp [hp]
  subst hw
  have hab : Coherent { w.advance p s with log := w.log.clear } ∧ _ :=
    hco.above rfl rfl rfl rfl rfl fun q => (hco.phase q).same rfl rfl rfl
  refine ⟨hab.1,⟨h.count,h.quiet,?_,?_,fun _ _ => rfl,h.logging,
    fun c hd => absurd hd (hdirty c),fun c q t hd => absurd hd (hdirty c),?_,?_,?_⟩,hab.2⟩
  · have : w.log.committing = true ↔ ∃ q, (update w.script p (some s) q).isSome = true := by
      simp only [isSome_update hsc]
      exact h.committing
    exact this
  · intro q q' hq hq'
    exact h.single q q' ((isSome_update hsc s q).symm.trans hq)
      ((isSome_update hsc s q').symm.trans hq')
  · intro q t hq
    obtain ⟨rfl,⟨⟩⟩ := h.only hsc hq
    exact h.discipline q (.clear :: s) hp
  · intro q t y hq hy
    obtain ⟨rfl,-⟩ := h.only hsc hq
    rcases hy with hy | ⟨c,hy⟩
    · cases hrun.symm.trans hy
    · cases hrun.symm.trans hy
  · exact fun _ _ _ => .inr rfl

theorem Logged.commitEnd (hco : Coherent w) (hp : w.script p = some [])
    (hw : w' = { w with log := w.log.endCommit, script := update w.script p none }) : Silent w w' := by
  have hdirty := h.clean_of_pending hp (by simp [pending])
  have hblock : w.log.block = [] := (h.cleared p _ hp).resolve_left (by rintro ⟨⟩)
  have hnone : ∀ q, update w.script p none q = none := by
    intro q
    by_contra hq
    obtain ⟨t,ht⟩ := ne_none_iff_exists'.mp hq
    cases (h.only (by simp [hp]) ht).2
  subst hw
  have hab : Coherent { w with log := w.log.endCommit, script := update w.script p none } ∧ _ :=
    hco.above rfl rfl rfl rfl rfl fun q => (hco.phase q).same rfl rfl rfl
  refine ⟨hab.1,⟨h.count,by rintro ⟨⟩,⟨by rintro ⟨⟩,?_⟩,?_,fun _ _ => hblock,h.logging,
    fun c hd => absurd hd (hdirty c),fun c q t hd => absurd hd (hdirty c),?_,?_,?_⟩,hab.2⟩
  · rintro ⟨q,hq⟩
    cases (congrArg Option.isSome (hnone q)).symm.trans hq
  · intro q q' hq
    cases (congrArg Option.isSome (hnone q)).symm.trans hq
  · intro q t hq
    cases (hnone q).symm.trans hq
  · intro q t y hq
    cases (hnone q).symm.trans hq
  · intro q t hq
    cases (hnone q).symm.trans hq

theorem Logged.commitStep (hco : Coherent w) (hp : w.script p = some s)
    (hs : w.commitStep p s = some w') : Coherent w' ∧ Logged w' ∧ Quiet w p w' := by
  have quiet : Silent w w' → Coherent w' ∧ Logged w' ∧ Quiet w p w' :=
    fun h => ⟨h.coherent,h.logged,.inl h.logical⟩
  cases s with
  | nil => exact quiet (h.commitEnd hco hp (Option.some.inj hs).symm)
  | cons c s =>
    cases c with
    | bread x => exact quiet (h.commitBread hco hp hs)
    | copy dst src =>
      unfold commitStep at hs
      dsimp only at hs
      split at hs
      · rename_i b b' hb _
        exact h.commitStore hco hp nofun nofun hb (h.discipline p _ hp) hs
      · cases hs
    | storeHead x =>
      unfold commitStep at hs
      dsimp only at hs
      split at hs
      · rename_i b hb
        exact h.commitStore hco hp nofun nofun hb (h.discipline p _ hp) hs
      · cases hs
    | bwrite x =>
      unfold commitStep at hs
      dsimp only at hs
      split at hs
      · rename_i b hb
        exact quiet (h.commitBwrite hco hp hb hs)
      · cases hs
    | brelse x => exact quiet (h.commitBrelse hco hp hs)
    | clear => exact quiet (h.commitClear hco hp (Option.some.inj hs).symm)

end Commit

section Run
variable {a : Action} {w₀ : World P}

/-- `begin_op` and `end_op` touch no buffer. -/
theorem Coherent.ofLog (h : Coherent w) {l : Log} {op : P → Bool} {f : P → Option (List Call)} :
    Coherent { w with log := l, op := op, script := f } ∧
      ({ w with log := l, op := op, script := f } : World P).logical = w.logical :=
  h.above rfl rfl rfl rfl rfl fun q => (h.phase q).same rfl rfl rfl

theorem Coherent.beginOp (h : Coherent w) (hs : w.beginOp p = some w') :
    Coherent w' ∧ w'.logical = w.logical := by
  obtain ⟨-,hs⟩ := ite_none_right_eq_some.1 hs
  obtain ⟨l,-,rfl⟩ := map_eq_some_iff.mp hs
  exact h.ofLog

theorem Coherent.endOp (h : Coherent w) (hs : w.endOp p = some w') :
    Coherent w' ∧ w'.logical = w.logical := by
  obtain ⟨-,hs⟩ := ite_none_right_eq_some.1 hs
  split at hs
  · cases hs
  · cases hs
    exact h.ofLog
  · cases hs
    exact h.ofLog

/-- A step keeps the cache coherent and the logged blocks pinned. -/
theorem Coherent.step (hco : Coherent w) (h : Logged w) (hs : w.step p a = some w') :
    Coherent w' ∧ Logged w' ∧ Quiet w p w' := by
  have below : w.script p = none → Tame w p w' → Coherent w' ∧ Logged w' ∧ Quiet w p w' :=
    fun hp ht => ⟨ht.coherent,h.ordinary hp ht.below fun q _ => ht.changed q,.inl ht.logical⟩
  unfold World.step at hs
  split at hs
  case h_1 hp => exact h.commitStep hco hp hs
  case h_2 hp => exact below hp (hco.bget hs).1
  case h_3 hp => exact below hp (hco.acquiresleep hs).1
  case h_4 hp => exact below hp (hco.fill hs).1
  case h_5 hp => exact below hp (hco.ret hs).1
  case h_6 b y hp =>
    obtain ⟨hb,-,hc⟩ := store_below hs
    exact ⟨(hco.store hs).1,h.ordinary hp hb hc,.inr ⟨b,y,has_of_store hs,(hco.store hs).2⟩⟩
  case h_7 hp =>
    obtain ⟨hb,-,-,hc⟩ := hco.bwrite_below hs
    exact ⟨(hco.bwrite hs).1,h.ordinary hp hb hc,.inl (hco.bwrite hs).2⟩
  case h_8 hp => exact below hp (hco.logWrite hs)
  case h_9 => exact ⟨(hco.logUpdate hs).1,h.logUpdate hco hs,.inl (hco.logUpdate hs).2⟩
  case h_10 b hp =>
    split at hs
    · cases hs
    · rename_i hm
      exact below hp (hco.releasesleep (by simpa using hm) hs).1
  case h_11 hp => exact below hp (hco.brelse hs).1
  case h_12 => exact ⟨(hco.beginOp hs).1,h.beginOp hs,.inl (hco.beginOp hs).2⟩
  case h_13 => exact ⟨(hco.endOp hs).1,h.endOp hs,.inl (hco.endOp hs).2⟩
  case h_14 => cases hs

omit [Fintype P] in
theorem coherent_init (disk : Disk) (start size : ℕ) : Coherent (init P disk start size) := by
  have hbuf : ∀ b, (init P disk start size).buf b = ⟨false,false,0,0,0⟩ := Bcache.binit_buf
  refine ⟨.init,fun b hb => ?_,fun b hd => ?_,fun b hv => ?_,nofun,fun _ => trivial,nofun⟩
  · rcases hb with hb | hb | hb
    · exact absurd hb (by rw [show (init P disk start size).shared.cache.buf b = _ from hbuf b]
                          simp)
    · cases (congrArg Buf.valid (hbuf b)).symm.trans hb
    · cases (congrArg Buf.dirty (hbuf b)).symm.trans hb
  · cases (congrArg Buf.dirty (hbuf b)).symm.trans hd
  · cases (congrArg Buf.valid (hbuf b)).symm.trans hv

omit [DecidableEq P] in
theorem logged_init (disk : Disk) (start size : ℕ) : Logged (init P disk start size) := by
  refine ⟨?_,nofun,⟨nofun,?_⟩,nofun,fun _ _ => rfl,nofun,?_,nofun,nofun,nofun,nofun⟩
  · simp [init]
  · rintro ⟨p,hp⟩
    cases hp
  · intro b hd
    have := congrArg Buf.dirty (Bcache.binit_buf b)
    cases this.symm.trans hd

theorem Reach.inv {disk : Disk} {start size : ℕ}
    (h : Reach (World.init P disk start size) w) : Coherent w ∧ Logged w := by
  induction h with
  | init => exact ⟨coherent_init disk start size,logged_init disk start size⟩
  | step _ hs ih =>
    obtain ⟨hco,hlog,-⟩ := ih.1.step ih.2 hs
    exact ⟨hco,hlog⟩

omit [Fintype P] in
theorem Reach.of_exec {w1 : World P} {run : List (P × Action)} (h : Reach w₀ w)
    (hs : w.exec run = some w1) : Reach w₀ w1 := by
  induction run generalizing w with
  | nil => cases hs; exact h
  | cons x run ih =>
    obtain ⟨w',h1,h2⟩ := bind_eq_some_iff.mp hs
    exact ih (.step h h1) h2

/-- In every run of processes that change only buffers they hold and write or log them
before they release them: `bread` returns a buffer with the content of its block; only
such a store changes a content, and `bget` never does; a block that has been logged and
not written to its place has a dirty buffer, which `bget` does not recycle; and with no
open transaction and no commit no buffer is dirty. -/
theorem bcache_transparent {disk : Disk} {start size : ℕ}
    (h : Reach (World.init P disk start size) w) :
    (∀ p x b w', w.phase p = .locked x b → w.ret p = some w' →
      w'.shared.owner b = some p ∧ w'.label b = (ROOTDEV,x) ∧ w'.data b = w'.logical x ∧
        w'.logical = w.logical) ∧ (∀ p x w', w.bget p x = some w' → w'.logical = w.logical) ∧
    (∀ p a w', w.step p a = some w' → Quiet w p w') ∧
    (∀ x ∈ w.unwritten, ∃ b, w.label b = (ROOTDEV,x) ∧ (w.buf b).valid = true ∧
      (w.buf b).dirty = true ∧ w.shared.cache.unused ≠ some b) ∧
    (w.log.outstanding = 0 → w.log.committing = false → ∀ b, (w.buf b).dirty = false) := by
  obtain ⟨hco,hlog⟩ := h.inv
  refine ⟨fun p x b w' hph hs => ?_,fun p x w' hs => (hco.bget hs).1.logical,
    fun p a w' hs => (hco.step hlog hs).2.2,fun x hx => ?_,fun h0 hc b => ?_⟩
  · have hsame := (hco.ret hs).1.logical
    obtain ⟨hown,hl,-⟩ : w.shared.owner b = some p ∧ w.label b = (ROOTDEV,x) ∧
        w.modified b = false := by
      have := hco.phase p
      rwa [PhaseOk,hph] at this
    unfold ret at hs
    rw [hph] at hs
    obtain ⟨hv,hs⟩ := ite_none_right_eq_some.1 hs
    cases hs
    have hx : (w.buf b).blockno = x := congrArg Prod.snd hl
    refine ⟨hown,hl,?_,hsame⟩
    rw [hsame,← hx,hco.logical_of_valid hv]
    rfl
  · obtain ⟨b,hl,hd⟩ := hco.unwritten x hx
    refine ⟨b,hl,hco.dirty b hd,hd,fun hu => ?_⟩
    cases (hco.idle_of_unused hu).2.symm.trans hd
  · by_contra hd
    have := hlog.header b (by simpa using hd) hc
    rw [hlog.empty hc h0] at this
    cases this

/-- A process logs a change of block 7 while another reads block 8. -/
def logSeven : List (Bool × Action) :=
  [(true,.beginOp), (true,.bget 7), (false,.bget 8), (true,.acquiresleep), (true,.fill),
    (true,.ret), (true,.store firstBuf Bytes.zero), (true,.logWrite firstBuf),
    (true,.logUpdate), (true,.releasesleep firstBuf), (true,.brelse)]

theorem bcache_transparent_logSeven :
    ∃ w : World Bool, (World.init Bool (fun _ => Bytes.zero) 2 30).exec logSeven = some w ∧
      (7 ∈ w.unwritten) ∧ ∃ b, w.label b = (ROOTDEV,7) ∧ (w.buf b).dirty = true ∧
        w.shared.cache.unused ≠ some b := by
  obtain ⟨w,hw,hall⟩ : ∃ w ∈ (init Bool (fun _ => Bytes.zero) 2 30).exec logSeven,
      7 ∈ w.unwritten := by decide +kernel
  obtain ⟨-,-,-,hpin,-⟩ := bcache_transparent (Reach.of_exec .init hw)
  obtain ⟨b,hl,-,hd,hu⟩ := hpin 7 (hall)
  exact ⟨w,hw,hall,b,hl,hd,hu⟩

end Run
end Xv6.Caching
