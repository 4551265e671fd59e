import Xv6.Log.Group

/-! # Group commit isolates transactions

A commit runs only while no operation is in progress, so the operations that
began since the previous commit are exactly those it writes. -/
namespace Xv6.Group
open Function (update)
open List Option World Pc
variable {P : Type} [DecidableEq P]

/-- The operation a process is in, between its `begin_op` and its `end_op`. -/
def Pc.op : Pc → Option ℕ
  | .inOp op _ => some op
  | .logging op _ _ => some op
  | _ => none

/-- The process runs `commit()` or is about to clear `log.committing`. -/
def Pc.inCommit : Pc → Bool
  | .idle | .inOp _ _ | .logging _ _ _ => false
  | _ => true

def active [Fintype P] (pc : P → Pc) : Finset P :=
  Finset.univ.filter fun p => (pc p).op.isSome

/-- What group commit promises of a state and of the history that led to it. -/
structure Isolated (w : World P) : Prop where
  /-- a commit runs with no operation outstanding -/
  quiet : w.log.committing = true → w.log.outstanding = 0
  endOp_safe : w.panicked ≠ some .logCommitting
  logWrite_safe : w.panicked ≠ some .logWriteOutsideOfTrans
  nodup : w.log.block.Nodup
  /-- the header lists what was logged since the last commit -/
  header : ∀ b, b ∈ w.log.block ↔ ∃ op, .logged op b w.epoch ∈ w.hist
  /-- a commit covers the operations that began since the previous one, all ended -/
  covers : ∀ e blocks, .commit e blocks ∈ w.hist →
    (∀ op, .began op e ∈ w.hist ↔ .ended op e ∈ w.hist) ∧
      ∀ b, b ∈ blocks ↔ ∃ op, .logged op b e ∈ w.hist
  /-- all of an operation falls between the same two commits -/
  oneEpoch : ∀ op e e', .began op e ∈ w.hist →
    (.began op e' ∈ w.hist ∨ .ended op e' ∈ w.hist ∨ ∃ b, .logged op b e' ∈ w.hist) → e' = e
  /-- an operation in progress is in no commit made so far -/
  unfinished : ∀ p op, (w.pc p).op = some op →
    .began op w.epoch ∈ w.hist ∧ ∀ e, .ended op e ∉ w.hist
  /-- once its epoch is over, an operation's block updates are in exactly one commit -/
  oneCommit : ∀ op e, .began op e ∈ w.hist → e < w.epoch →
    ∃! c : ℕ × List ℕ, .commit c.1 c.2 ∈ w.hist ∧ .began op c.1 ∈ w.hist

/-- The invariant behind `Isolated`. -/
structure Inv [Fintype P] (w : World P) : Prop where
  panicked : w.panicked = none ∨ w.panicked = some .tooBigATransaction
  count : w.log.outstanding = (active w.pc).card
  committing : w.log.committing = true ↔ ∃ p, (w.pc p).inCommit = true
  single : ∀ p q, (w.pc p).inCommit = true → (w.pc q).inCommit = true → p = q
  quiet : w.log.committing = true → w.log.outstanding = 0
  nodup : w.log.block.Nodup
  header : ∀ b, b ∈ w.log.block ↔ ∃ op, .logged op b w.epoch ∈ w.hist
  fresh : ∀ op e, .began op e ∈ w.hist → op < w.nextOp ∧ e ≤ w.epoch
  once : ∀ op e e', .began op e ∈ w.hist → .began op e' ∈ w.hist → e' = e
  ended : ∀ op e, .ended op e ∈ w.hist → .began op e ∈ w.hist
  logged : ∀ op b e, .logged op b e ∈ w.hist → .began op e ∈ w.hist
  owner : ∀ p q op, (w.pc p).op = some op → (w.pc q).op = some op → p = q
  unfinished : ∀ p op, (w.pc p).op = some op →
    .began op w.epoch ∈ w.hist ∧ ∀ e, .ended op e ∉ w.hist
  finished : ∀ op, .began op w.epoch ∈ w.hist →
    .ended op w.epoch ∈ w.hist ∨ ∃ p, (w.pc p).op = some op
  past : ∀ e blocks, .commit e blocks ∈ w.hist → e < w.epoch ∧
    (∀ op, .began op e ∈ w.hist → .ended op e ∈ w.hist) ∧
      ∀ b, b ∈ blocks ↔ ∃ op, .logged op b e ∈ w.hist
  closed : ∀ e, e < w.epoch → ∃ blocks, .commit e blocks ∈ w.hist
  same : ∀ e bs bs', .commit e bs ∈ w.hist → .commit e bs' ∈ w.hist → bs = bs'

omit [DecidableEq P] in
theorem Inv.isolated [Fintype P] {w : World P} (h : Inv w) : Isolated w where
  quiet := h.quiet
  endOp_safe := by rcases h.panicked with hp | hp <;> simp [hp]
  logWrite_safe := by rcases h.panicked with hp | hp <;> simp [hp]
  nodup := h.nodup
  header := h.header
  covers e blocks hc :=
    ⟨fun op => ⟨(h.past e blocks hc).2.1 op,h.ended op e⟩,(h.past e blocks hc).2.2⟩
  oneEpoch op e e' hb := by
    rintro (hb' | he | ⟨b,hl⟩)
    · exact h.once op e e' hb hb'
    · exact h.once op e e' hb (h.ended op e' he)
    · exact h.once op e e' hb (h.logged op b e' hl)
  unfinished := h.unfinished
  oneCommit op e hb he := by
    obtain ⟨bs,hbs⟩ := h.closed e he
    refine ⟨(e,bs),⟨hbs,hb⟩,?_⟩
    rintro ⟨e',bs'⟩ ⟨hbs',hb'⟩
    have hee : e' = e := h.once op e e' hb hb'
    subst hee
    exact Prod.ext rfl (h.same e' bs' bs hbs' hbs)

theorem apply_update_same {β : Type} (f : Pc → β) {pc : P → Pc} {p : P} {c : Pc}
    (h : f c = f (pc p)) (q : P) : f (update pc p c q) = f (pc q) := by
  by_cases hq : q = p
  · rw [hq,Function.update_self,h]
  · rw [Function.update_of_ne hq]

section Active
variable [Fintype P]

omit [DecidableEq P] in
theorem mem_active {pc : P → Pc} {p : P} : p ∈ active pc ↔ ∃ op, (pc p).op = some op := by
  simp [active,isSome_iff_exists]

theorem active_update_same (pc : P → Pc) (p : P) (c : Pc) (h : c.op = (pc p).op) :
    active (update pc p c) = active pc := by
  ext q
  by_cases hq : q = p
  · subst hq; simp [mem_active,h]
  · simp [mem_active,hq]

theorem active_update_insert (pc : P → Pc) (p : P) (c : Pc) (op : ℕ) (h : c.op = some op) :
    active (update pc p c) = insert p (active pc) := by
  ext q
  by_cases hq : q = p
  · subst hq; simp [mem_active,h]
  · simp [mem_active,hq]

theorem active_update_erase (pc : P → Pc) (p : P) (c : Pc) (h : c.op = none) :
    active (update pc p c) = (active pc).erase p := by
  ext q
  by_cases hq : q = p
  · subst hq; simp [mem_active,h]
  · simp [mem_active,hq]

omit [DecidableEq P] in
/-- A process that is in an operation is counted by `log.outstanding`. -/
theorem Inv.outstanding_pos {w : World P} (h : Inv w) {p : P} {op : ℕ}
    (hp : (w.pc p).op = some op) : 1 ≤ w.log.outstanding := by
  have hpos : 0 < (active w.pc).card := Finset.card_pos.mpr ⟨p,mem_active.mpr ⟨op,hp⟩⟩
  rw [h.count]
  omega

omit [DecidableEq P] in
theorem Inv.not_committing {w : World P} (h : Inv w) {p : P} {op : ℕ}
    (hp : (w.pc p).op = some op) : w.log.committing = false := by
  have h1 := h.outstanding_pos hp
  by_contra hc
  have h0 := h.quiet (by simpa using hc)
  omega

omit [DecidableEq P] in
theorem Inv.op_none {w : World P} (h : Inv w) (hc : w.log.committing = true) (p : P) :
    (w.pc p).op = none := by
  by_contra hp
  obtain ⟨op,hop⟩ := ne_none_iff_exists'.mp hp
  simp [h.not_committing hop] at hc

end Active

section Steps
variable [Fintype P]

omit [DecidableEq P] in
theorem Inv.init (start size : ℕ) : Inv (World.init P start size) := by
  constructor <;> simp [World.init,active,op,inCommit]

/-- Moving between two points that agree on the operation and on the commit. -/
theorem Inv.goto {w : World P} (h : Inv w) (p : P) (c : Pc) (ho : c.op = (w.pc p).op)
    (hc : c.inCommit = (w.pc p).inCommit) : Inv (w.goto p c) := by
  have hop := apply_update_same Pc.op ho
  have hin := apply_update_same Pc.inCommit hc
  exact { h with
    count := by simpa [World.goto,active_update_same _ _ _ ho] using h.count
    committing := by simpa [World.goto,hin] using h.committing
    single := by simpa [World.goto,hin] using h.single
    owner := by simpa [World.goto,hop] using h.owner
    unfinished := by simpa [World.goto,hop] using h.unfinished
    finished := by simpa [World.goto,hop] using h.finished }

omit [DecidableEq P] in
theorem Inv.tooBig {w : World P} (h : Inv w) : Inv (w.panic .tooBigATransaction) :=
  { h with panicked := Or.inr rfl }

theorem Inv.beginOp {w : World P} (h : Inv w) {p : P} (hpc : w.pc p = .idle)
    (hc : w.log.committing = false) :
    Inv (w.began p { w.log with outstanding := w.log.outstanding + 1 }) := by
  have hnew : ∀ e, .began w.nextOp e ∉ w.hist := fun e he => lt_irrefl _ (h.fresh _ e he).1
  have hin := apply_update_same Pc.inCommit (c := .inOp w.nextOp ∅) (congrArg Pc.inCommit hpc).symm
  have hold : ∀ q op, (update w.pc p (.inOp w.nextOp ∅) q).op = some op →
      (q = p ∧ op = w.nextOp) ∨ (q ≠ p ∧ (w.pc q).op = some op) := by
    intro q op hq
    by_cases hqp : q = p
    · subst hqp
      simp only [Function.update_self,Pc.op,Option.some.injEq] at hq
      exact Or.inl ⟨rfl,hq.symm⟩
    · simp only [Function.update_of_ne hqp] at hq
      exact Or.inr ⟨hqp,hq⟩
  constructor <;> simp only [began,hin]
  case panicked => exact h.panicked
  case count =>
    have hp : p ∉ active w.pc := by simp [mem_active,hpc,op]
    rw [active_update_insert _ _ _ w.nextOp rfl,Finset.card_insert_of_notMem hp,h.count]
    push_cast
    rfl
  case committing => exact h.committing
  case single => exact h.single
  case quiet => simp [hc]
  case nodup => exact h.nodup
  case header => simpa using h.header
  case fresh =>
    intro op e he
    rcases mem_cons.mp he with he | he
    · cases he; omega
    · have hf := h.fresh op e he
      omega
  case once =>
    intro op e e' he he'
    rcases mem_cons.mp he with he | he <;> rcases mem_cons.mp he' with he' | he'
    · cases he; cases he'; rfl
    · cases he; exact absurd he' (hnew _)
    · cases he'; exact absurd he (hnew _)
    · exact h.once op e e' he he'
  case ended =>
    intro op e he
    exact mem_cons_of_mem _ (h.ended op e (by simpa using he))
  case logged =>
    intro op b e hl
    exact mem_cons_of_mem _ (h.logged op b e (by simpa using hl))
  case owner =>
    intro q r op hq hr
    rcases hold q op hq with ⟨hqp,hop⟩ | ⟨-,hq⟩ <;>
      rcases hold r op hr with ⟨hrp,hop'⟩ | ⟨-,hr⟩
    · rw [hqp,hrp]
    · exact absurd (hop ▸ (h.unfinished r op hr).1) (hnew _)
    · exact absurd (hop' ▸ (h.unfinished q op hq).1) (hnew _)
    · exact h.owner q r op hq hr
  case unfinished =>
    intro q op hq
    rcases hold q op hq with ⟨rfl,rfl⟩ | ⟨-,hq⟩
    · refine ⟨mem_cons_self,fun e he => hnew e (h.ended _ e (by simpa using he))⟩
    · obtain ⟨hb,he⟩ := h.unfinished q op hq
      exact ⟨mem_cons_of_mem _ hb,by simpa using he⟩
  case finished =>
    intro op hb
    rcases mem_cons.mp hb with hb | hb
    · cases hb
      exact Or.inr ⟨p,by simp [op]⟩
    · rcases h.finished op hb with he | ⟨q,hq⟩
      · exact Or.inl (mem_cons_of_mem _ he)
      · have hqp : q ≠ p := by rintro rfl; simp [hpc,Pc.op] at hq
        exact Or.inr ⟨q,by simpa [hqp] using hq⟩
  case past =>
    intro e blocks hcm
    obtain ⟨he,hall,hb⟩ := h.past e blocks (by simpa using hcm)
    refine ⟨he,fun op ho => ?_,by simpa using hb⟩
    rcases mem_cons.mp ho with ho | ho
    · cases ho; omega
    · exact mem_cons_of_mem _ (hall op ho)
  case closed => simpa using h.closed
  case same => simpa using h.same

theorem Inv.logWrite {w : World P} (h : Inv w) {p : P} {op b : ℕ} {passed : Finset ℕ}
    (hpc : w.pc p = .logging op passed b) : Inv (w.updated p op passed b) := by
  have hop : (Pc.inOp op passed).op = (w.pc p).op := by simp [hpc,Pc.op]
  have hin : (Pc.inOp op passed).inCommit = (w.pc p).inCommit := by simp [hpc,Pc.inCommit]
  have hb := (h.unfinished p op (by simp [hpc,Pc.op])).1
  have hg := h.goto p (.inOp op passed) hop hin
  refine
    { hg with
      nodup := Log.absorb_nodup b h.nodup
      header := ?_
      fresh := ?_
      once := ?_
      ended := ?_
      logged := ?_
      unfinished := ?_
      finished := ?_
      past := ?_
      closed := ?_
      same := ?_ }
  · intro c
    simp only [updated,Log.logWriteUpdate,Log.mem_absorb,mem_cons,Event.logged.injEq,
      h.header c]
    constructor
    · rintro (⟨o,ho⟩ | rfl)
      · exact ⟨o,Or.inr ho⟩
      · exact ⟨op,Or.inl ⟨rfl,rfl,trivial⟩⟩
    · rintro ⟨o,⟨-,rfl,-⟩ | ho⟩
      · exact Or.inr rfl
      · exact Or.inl ⟨o,ho⟩
  · simpa [updated] using h.fresh
  · simpa [updated] using h.once
  · simpa [updated] using h.ended
  · intro o c e hl
    rcases mem_cons.mp hl with hl | hl
    · cases hl; exact mem_cons_of_mem _ hb
    · exact mem_cons_of_mem _ (h.logged o c e hl)
  · intro q o hq
    obtain ⟨h1,h2⟩ := hg.unfinished q o hq
    exact ⟨mem_cons_of_mem _ h1,by simpa [World.updated,World.goto] using h2⟩
  · simpa [World.updated,World.goto] using hg.finished
  · intro e blocks hcm
    obtain ⟨he,hall,hbl⟩ := h.past e blocks (by simpa [updated] using hcm)
    refine ⟨he,by simpa [updated] using hall,fun c => ?_⟩
    rw [hbl c]
    simp [updated,he.ne]
  · simpa [updated] using h.closed
  · simpa [updated] using h.same

/-- `end_op`, whether or not it goes on to commit. -/
theorem Inv.endOp {w : World P} (h : Inv w) {p : P} {op : ℕ} {passed : Finset ℕ}
    (hpc : w.pc p = .inOp op passed) {l : Log} {c : Pc} (hb : l.block = w.log.block)
    (ho : l.outstanding = w.log.outstanding - 1) (hc : c.op = none)
    (hcc : l.committing = c.inCommit) (hq : l.committing = true → l.outstanding = 0) :
    Inv (w.ended p op l c) := by
  have hpop : (w.pc p).op = some op := by simp [hpc,Pc.op]
  obtain ⟨hbegan,hnot⟩ := h.unfinished p op hpop
  have hnone : ∀ q, (w.pc q).inCommit = false := by
    intro q
    by_contra hcm
    have := h.committing.mpr ⟨q,by simpa using hcm⟩
    simp [h.not_committing hpop] at this
  have hold : ∀ q o, (update w.pc p c q).op = some o →
      (w.pc q).op = some o ∧ q ≠ p ∧ o ≠ op := by
    intro q o hqo
    by_cases hqp : q = p
    · subst hqp; simp [hc] at hqo
    · have hqo : (w.pc q).op = some o := by simpa [hqp] using hqo
      exact ⟨hqo,hqp,fun heq => hqp (h.owner q p op (heq ▸ hqo) hpop)⟩
  have hcomm : ∀ q, (update w.pc p c q).inCommit = true → q = p := by
    intro q hcm
    by_contra hqp
    simp [hqp,hnone] at hcm
  constructor <;> simp only [World.ended]
  case panicked => exact h.panicked
  case count =>
    have hp : p ∈ active w.pc := mem_active.mpr ⟨op,hpop⟩
    have hpos := Finset.card_pos.mpr ⟨p,hp⟩
    rw [active_update_erase _ _ _ hc,Finset.card_erase_of_mem hp,ho,h.count]
    omega
  case committing =>
    rw [hcc]
    constructor
    · intro hcm
      exact ⟨p,by simpa using hcm⟩
    · rintro ⟨q,hcm⟩
      have hqp := hcomm q hcm
      subst hqp
      simpa using hcm
  case single =>
    intro q r hqc hrc
    rw [hcomm q hqc,hcomm r hrc]
  case quiet => exact hq
  case nodup => exact hb ▸ h.nodup
  case header => simpa [hb] using h.header
  case fresh => simpa using h.fresh
  case once => simpa using h.once
  case ended =>
    intro o e he
    rcases mem_cons.mp he with he | he
    · cases he; exact mem_cons_of_mem _ hbegan
    · exact mem_cons_of_mem _ (h.ended o e he)
  case logged =>
    intro o b e hl
    exact mem_cons_of_mem _ (h.logged o b e (by simpa using hl))
  case owner =>
    intro q r o hqo hro
    exact h.owner q r o (hold q o hqo).1 (hold r o hro).1
  case unfinished =>
    intro q o hqo
    obtain ⟨hqo,-,hne⟩ := hold q o hqo
    obtain ⟨h1,h2⟩ := h.unfinished q o hqo
    refine ⟨mem_cons_of_mem _ h1,fun e he => ?_⟩
    rcases mem_cons.mp he with he | he
    · cases he; exact hne rfl
    · exact h2 e he
  case finished =>
    intro o hbo
    rcases h.finished o (by simpa using hbo) with he | ⟨q,hqo⟩
    · exact Or.inl (mem_cons_of_mem _ he)
    · by_cases hqp : q = p
      · subst hqp
        rw [hpop] at hqo
        cases hqo
        exact Or.inl mem_cons_self
      · exact Or.inr ⟨q,by simpa [hqp] using hqo⟩
  case past =>
    intro e blocks hcm
    obtain ⟨he,hall,hbl⟩ := h.past e blocks (by simpa using hcm)
    refine ⟨he,fun o hbo => ?_,by simpa using hbl⟩
    exact mem_cons_of_mem _ (hall o (by simpa using hbo))
  case closed => simpa using h.closed
  case same => simpa using h.same

/-- `commit()` empties the header: every operation of this epoch has ended, so
the epoch can be closed. -/
theorem Inv.commit {w : World P} (h : Inv w) {p : P} (hpc : (w.pc p).inCommit = true) {c : Pc}
    (hc : c.op = none) (hcc : c.inCommit = true) : Inv (w.cleared p c) := by
  have hcm : w.log.committing = true := h.committing.mpr ⟨p,hpc⟩
  have hopp : c.op = (w.pc p).op := by rw [hc,h.op_none hcm p]
  have hg := h.goto p c hopp (by rw [hcc,hpc])
  have hall : ∀ op, .began op w.epoch ∈ w.hist → .ended op w.epoch ∈ w.hist := by
    intro op hb
    rcases h.finished op hb with he | ⟨q,hq⟩
    · exact he
    · simp [h.op_none hcm q] at hq
  have hnew : ∀ e, .began e (w.epoch + 1) ∉ w.hist := by
    intro o hb
    have := (h.fresh o _ hb).2
    omega
  constructor <;> simp only [cleared,Log.clear]
  case panicked => exact h.panicked
  case count => exact hg.count
  case committing => exact hg.committing
  case single => exact hg.single
  case quiet => exact h.quiet
  case nodup => exact nodup_nil
  case header =>
    intro b
    simp only [not_mem_nil,false_iff,mem_cons,reduceCtorEq,false_or]
    rintro ⟨op,hl⟩
    exact hnew op (h.logged op b _ hl)
  case fresh =>
    intro op e hb
    have := h.fresh op e (by simpa using hb)
    omega
  case once => simpa using h.once
  case ended => simpa using h.ended
  case logged => simpa using h.logged
  case owner => exact hg.owner
  case unfinished =>
    intro q o hqo
    have hqn : (w.pc q).op = some o := by
      by_cases hqp : q = p
      · subst hqp; simp [hc] at hqo
      · simpa [hqp] using hqo
    simp [h.op_none hcm q] at hqn
  case finished =>
    intro op hb
    exact absurd (by simpa using hb) (hnew op)
  case past =>
    intro e blocks hcm'
    rcases mem_cons.mp hcm' with hcm' | hcm'
    · cases hcm'
      exact ⟨Nat.lt_succ_self _,by simpa using hall,by simpa using h.header⟩
    · obtain ⟨he,h1,h2⟩ := h.past e blocks hcm'
      exact ⟨by omega,by simpa using h1,by simpa using h2⟩
  case closed =>
    intro e he
    rcases Nat.lt_succ_iff_lt_or_eq.mp he with he | rfl
    · obtain ⟨bs,hbs⟩ := h.closed e he
      exact ⟨bs,mem_cons_of_mem _ hbs⟩
    · exact ⟨_,mem_cons_self⟩
  case same =>
    intro e bs bs' h1 h2
    rcases mem_cons.mp h1 with h1 | h1 <;> rcases mem_cons.mp h2 with h2 | h2
    · cases h1; cases h2; rfl
    · cases h1; exact absurd (h.past _ _ h2).1 (lt_irrefl _)
    · cases h2; exact absurd (h.past _ _ h1).1 (lt_irrefl _)
    · exact h.same e bs bs' h1 h2

theorem Inv.endCommit {w : World P} (h : Inv w) {p : P} (hpc : w.pc p = .committed) :
    Inv (w.released p) := by
  have hcp : (w.pc p).inCommit = true := by simp [hpc,inCommit]
  have hop : idle.op = (w.pc p).op := by simp [hpc,op]
  have hopq := apply_update_same Pc.op hop
  have hnone : ∀ q, (update w.pc p .idle q).inCommit = false := by
    intro q
    by_cases hq : q = p
    · subst hq; simp [inCommit]
    · by_contra hcm
      exact hq (h.single q p (by simpa [hq] using hcm) hcp)
  refine
    { h with
      count := by simpa [released,Log.endCommit,active_update_same _ _ _ hop] using h.count
      committing := by simp [released,Log.endCommit,hnone]
      single := by simp [released,hnone]
      quiet := by simp [released,Log.endCommit]
      owner := by simpa [released,hopq] using h.owner
      unfinished := by simpa [released,hopq] using h.unfinished
      finished := by simpa [released,hopq] using h.finished }

theorem Inv.step {w w' : World P} {p : P} {a : Action} (h : Inv w)
    (hs : w.step p a = some w') : Inv w' := by
  obtain ⟨-,hm⟩ := step_move hs
  cases hm with
  | beginOp hpc hc hn => exact h.beginOp hpc hc
  | tested b hpc ht => exact h.goto p _ (by simp [hpc,op]) (by simp [hpc,inCommit])
  | testPanic b e hpc ht =>
    have ho := h.outstanding_pos (congrArg op hpc)
    have he : e = .tooBigATransaction := by
      unfold Log.logWriteTest at ht
      split at ht
      · exact (Except.error.inj ht).symm
      · simp [show ¬ w.log.outstanding < 1 by omega] at ht
    exact he ▸ h.tooBig
  | update hpc => exact h.logWrite hpc
  | endPanic hpc hc =>
    simp [h.not_committing (congrArg op hpc)] at hc
  | endLast hpc hc ho =>
    exact h.endOp hpc rfl (by simp [ho]) rfl rfl (fun _ => rfl)
  | endOther hpc hc ho => exact h.endOp hpc rfl rfl rfl hc (by simp [hc])
  | commitEmpty hpc hn => exact h.commit (by simp [hpc,inCommit]) rfl rfl
  | clear hpc => exact h.commit (by simp [hpc,inCommit]) rfl rfl
  | release hpc => exact h.endCommit hpc
  | goCommit hpc | goWriteLog hpc | goWriteHead hpc | goInstall hpc | goInstallTrans hpc
  | goClear hpc | goCommitted hpc =>
    exact h.goto p _ (by simp [hpc,op]) (by simp [hpc,inCommit])

theorem Inv.reach {C : World P → P → Action → Prop} {w0 w : World P} (h0 : Inv w0)
    (h : Reach C w0 w) : Inv w := by
  induction h with
  | init => exact h0
  | step _ _ hs ih => exact ih.step hs

end Steps

/-- In every interleaving of any number of processes, from the log that
`initlog` leaves, every state reached is isolated. -/
theorem group_commit_isolated [Fintype P] (start size : ℕ) {w : World P}
    (h : Reach (fun _ _ _ => True) (World.init P start size) w) : Isolated w :=
  ((Inv.init start size).reach h).isolated

/-- Two processes share a transaction and the second one commits it. -/
theorem group_commit_isolated_two : ∃ w : World (Fin 2),
    Reach (fun _ _ _ => True) (World.init (Fin 2) 2 30) w ∧ w.epoch = 1 ∧ Isolated w := by
  let sched : List (Fin 2 × Action) :=
    [(0,.beginOp), (1,.beginOp), (0,.logWrite 60), (1,.logWrite 60), (1,.update),
      (0,.update), (0,.endOp), (1,.endOp), (1,.commitStep), (1,.commitStep), (1,.commitStep),
      (1,.commitStep), (1,.commitStep), (1,.commitStep), (1,.commitStep)]
  obtain ⟨w,hw⟩ : ∃ w, (init (Fin 2) 2 30).exec (fun _ _ _ => True) sched = some w :=
    isSome_iff_exists.mp (by decide)
  have he : ((init (Fin 2) 2 30).exec (fun _ _ _ => True) sched).map epoch = some 1 := by
    decide
  rw [hw] at he
  have hr := Reach.of_exec hw
  exact ⟨w,hr,by simpa using he,group_commit_isolated 2 30 hr⟩

end Xv6.Group
