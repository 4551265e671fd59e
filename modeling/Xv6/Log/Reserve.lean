import Mathlib.Algebra.Order.BigOperators.Group.Finset
import Xv6.Log.Isolation
import Xv6.Mkfs.Layout

/-! # The space that `begin_op` reserves

`begin_op` admits an operation while `lh.n + (outstanding+1)*MAXOPBLOCKS` is at
most `LOGSIZE`, but the log area that `mkfs` makes has room for `LOGSIZE - 1`
blocks after its header, and `log_write` tests for a free one before it looks
whether the block is logged already. -/
namespace Xv6.Group
open Function Mkfs Pc Log Option Finset
variable {P : Type} [DecidableEq P]

def mkfsLog (P : Type) : World P := World.init P logstart nlog

/-- The block numbers that the current operation has passed to `log_write`. -/
def Pc.passed : Pc → Finset ℕ
  | .inOp _ passed => passed
  | .logging _ passed _ => passed
  | _ => ∅

/-- No operation passes more than `MAXOPBLOCKS` distinct blocks to `log_write`. -/
def Limited (w : World P) (p : P) : Action → Prop
  | .logWrite b => (insert b (w.pc p).passed).card ≤ MAXOPBLOCKS
  | _ => True

/-- The number of blocks that a process in an operation may still add to the
header: those it has not passed yet, and the one of a `log_write` between its
test and its update. -/
def Pc.demand (block : List ℕ) : Pc → ℕ
  | .inOp _ passed => MAXOPBLOCKS - passed.card
  | .logging _ passed b => MAXOPBLOCKS - passed.card + if b ∈ block then 0 else 1
  | _ => 0

def World.demand [Fintype P] (w : World P) : ℕ := ∑ p, (w.pc p).demand w.log.block

/-- An operation is admitted only when the header, all that the operations in
progress may still add and its own blocks fit in `k`. -/
def Reserved [Fintype P] (k : ℕ) (w : World P) (_ : P) : Action → Prop
  | .beginOp => w.log.n + w.demand + MAXOPBLOCKS ≤ k
  | _ => True

/-- The log block that the next pass of `write_log` or `install_trans` uses. -/
def World.logBlock (w : World P) (p : P) : Option ℕ :=
  match w.pc p with
  | .writeLog tail => if tail < w.log.n then some (w.log.start + tail + 1) else none
  | .installTrans tail => if tail < w.log.n then some (w.log.start + tail + 1) else none
  | _ => none

instance (w : World P) (p : P) (a : Action) : Decidable (Limited w p a) := by
  cases a <;> unfold Limited <;> infer_instance

instance [Fintype P] (k : ℕ) (w : World P) (p : P) (a : Action) : Decidable (Reserved k w p a) := by
  cases a <;> unfold Reserved <;> infer_instance

/-- What an operation has passed is in the header, but for a pending block. -/
def Pc.Recorded (block : List ℕ) : Pc → Prop
  | .inOp _ passed => ∀ c ∈ passed, c ∈ block
  | .logging _ passed b => b ∈ passed ∧ ∀ c ∈ passed, c = b ∨ c ∈ block
  | _ => True

theorem Pc.demand_of_op_none {block : List ℕ} {c : Pc} (h : c.op = none) : c.demand block = 0 := by
  cases c <;> simp_all [op,demand]

theorem Pc.recorded_of_op_none {block : List ℕ} {c : Pc} (h : c.op = none) : c.Recorded block := by
  cases c <;> simp_all [op,Recorded]

theorem Pc.demand_mono {block block' : List ℕ} (h : block ⊆ block') (c : Pc) :
    c.demand block' ≤ c.demand block := by
  cases c with
  | logging op passed b =>
    by_cases hb : b ∈ block
    · simp [demand,hb,h hb]
    · simp only [demand,hb,if_false]
      split <;> omega
  | _ => simp [demand]

theorem Pc.Recorded.mono {block block' : List ℕ} (h : block ⊆ block') {c : Pc}
    (hc : c.Recorded block) : c.Recorded block' := by
  cases c with
  | inOp op passed => exact fun x hx => h (hc x hx)
  | logging op passed b => exact ⟨hc.1,fun x hx => (hc.2 x hx).imp id (@h x)⟩
  | _ => trivial

/-- Passing the test of `log_write` within the limit adds nothing to come. -/
theorem Pc.demand_test {block : List ℕ} {op b : ℕ} {passed : Finset ℕ}
    (hr : (inOp op passed).Recorded block) (hl : (insert b passed).card ≤ MAXOPBLOCKS) :
    (logging op (insert b passed) b).demand block ≤ (inOp op passed).demand block := by
  by_cases hb : b ∈ passed
  · simp [demand,insert_eq_of_mem hb,hr b hb]
  · rw [card_insert_of_notMem hb] at hl
    simp only [demand,card_insert_of_notMem hb]
    split <;> omega

section Sum
variable [Fintype P]

theorem sum_update (f : Pc → ℕ) (pc : P → Pc) (p : P) (c : Pc) :
    ∑ q, f (update pc p c q) + f (pc p) = ∑ q, f (pc q) + f c := by
  have hrest : ∑ q ∈ Finset.univ.erase p, f (update pc p c q) =
      ∑ q ∈ Finset.univ.erase p, f (pc q) := by
    apply sum_congr rfl
    intro q hq
    rw [Function.update_of_ne (ne_of_mem_erase hq)]
  rw [← add_sum_erase Finset.univ _ (mem_univ p),hrest,
    ← add_sum_erase Finset.univ (fun q => f (pc q)) (mem_univ p)]
  simp only [update_self]
  omega

end Sum

/-- Everything that is or may still come into the header fits in `k`. -/
structure Fits [Fintype P] (k : ℕ) (w : World P) : Prop where
  bound : w.log.n + w.demand ≤ k
  recorded : ∀ p, (w.pc p).Recorded w.log.block

section Steps
variable [Fintype P] {k : ℕ}

omit [DecidableEq P] in
theorem Fits.n_le {w : World P} (h : Fits k w) : w.log.n ≤ k :=
  (Nat.le_add_right _ _).trans h.bound

theorem Fits.move {w w' : World P} (h : Fits k w) {p : P} {c : Pc}
    (hpc : w'.pc = update w.pc p c) (hb : w'.log.block = w.log.block)
    (hd : c.demand w.log.block ≤ (w.pc p).demand w.log.block) (hr : c.Recorded w.log.block) :
    Fits k w' where
  bound := by
    have hs := sum_update (demand w.log.block) w.pc p c
    have hbound := h.bound
    unfold World.demand n at *
    rw [hpc,hb]
    omega
  recorded q := by
    rw [hpc,hb]
    by_cases hq : q = p
    · subst hq; simpa using hr
    · simpa [hq] using h.recorded q

theorem Fits.beginOp {w : World P} (h : Fits k w) {p : P} (hpc : w.pc p = .idle)
    (hk : w.log.n + w.demand + MAXOPBLOCKS ≤ k) (l : Log) (hl : l.block = w.log.block) :
    Fits k (w.began p l) where
  bound := by
    have hs := sum_update (demand w.log.block) w.pc p (.inOp w.nextOp ∅)
    have hfree : (w.pc p).demand w.log.block = 0 := by simp [hpc,demand]
    have hnew : (inOp w.nextOp ∅).demand w.log.block = MAXOPBLOCKS := by simp [demand]
    unfold World.demand n at *
    simp only [World.began,hl]
    omega
  recorded q := by
    simp only [World.began,hl]
    by_cases hq : q = p
    · subst hq; simp [Recorded]
    · simpa [hq] using h.recorded q

theorem Fits.update {w : World P} (h : Fits k w) {p : P} {op b : ℕ} {passed : Finset ℕ}
    (hpc : w.pc p = .logging op passed b) : Fits k (w.updated p op passed b) := by
  have hsub : w.log.block ⊆ absorb w.log.block b := fun x hx => mem_absorb.mpr (Or.inl hx)
  have hrec := h.recorded p
  rw [hpc] at hrec
  have hs := sum_update (demand (absorb w.log.block b)) w.pc p (.inOp op passed)
  have hp : (w.pc p).demand (absorb w.log.block b) = MAXOPBLOCKS - passed.card := by
    simp [hpc,demand]
  have hc : (inOp op passed).demand (absorb w.log.block b) = MAXOPBLOCKS - passed.card := rfl
  have hmono : ∀ q ∈ Finset.univ, (w.pc q).demand (absorb w.log.block b) ≤
      (w.pc q).demand w.log.block := fun q _ => demand_mono hsub _
  have hbound := h.bound
  constructor
  · unfold World.demand n at *
    simp only [World.updated,logWriteUpdate]
    by_cases hb : b ∈ w.log.block
    · have hsum := sum_le_sum hmono
      rw [absorb_of_mem hb] at *
      omega
    · -- the block that was pending is now in the header
      have hlt : (w.pc p).demand (absorb w.log.block b) < (w.pc p).demand w.log.block := by
        rw [hp]
        simp [hpc,demand,hb]
      have hsum := sum_lt_sum hmono ⟨p,mem_univ p,hlt⟩
      have hlen : (absorb w.log.block b).length = w.log.block.length + 1 := by
        simp [absorb_of_notMem hb]
      omega
  · intro q
    simp only [World.updated,logWriteUpdate]
    by_cases hq : q = p
    · subst hq
      simp only [update_self]
      intro x hx
      rcases hrec.2 x hx with rfl | hx'
      · simp
      · exact hsub hx'
    · simpa [hq] using (h.recorded q).mono hsub

theorem Fits.cleared {w : World P} (hi : Inv w) {p : P} (hpc : (w.pc p).inCommit = true)
    {c : Pc} (hc : c.op = none) : Fits k (w.cleared p c) := by
  have hcm : w.log.committing = true := hi.committing.mpr ⟨p,hpc⟩
  have hop : ∀ q, (Function.update w.pc p c q).op = none := by
    intro q
    by_cases hq : q = p
    · subst hq; simpa using hc
    · simpa [hq] using hi.op_none hcm q
  constructor
  · unfold World.demand Log.n
    simp only [World.cleared,Log.clear,List.length_nil]
    rw [sum_eq_zero fun q _ => demand_of_op_none (hop q)]
    omega
  · exact fun q => recorded_of_op_none (hop q)

/-- One step within the limits keeps `Fits`, unless it is a panic. -/
theorem Fits.step {w w' : World P} {p : P} {a : Action} (hi : Inv w) (h : Fits k w)
    (hl : Limited w p a) (hr : Reserved k w p a) (hs : w.step p a = some w') : Fits k w' := by
  obtain ⟨-,hm⟩ := step_move hs
  have done : ∀ {c : Pc}, c.op = none → c.demand w.log.block ≤ (w.pc p).demand w.log.block :=
    fun hc => by rw [demand_of_op_none hc]; exact Nat.zero_le _
  cases hm with
  | beginOp hpc hc hn => exact h.beginOp hpc hr _ rfl
  | tested b hpc ht =>
    have hrec := h.recorded p
    simp only [Limited,hpc,passed] at hl
    rw [hpc] at hrec
    refine h.move rfl rfl (hpc ▸ demand_test hrec hl) ?_
    refine ⟨mem_insert_self _ _,fun c hc => ?_⟩
    rcases mem_insert.mp hc with rfl | hc
    · exact Or.inl rfl
    · exact Or.inr (hrec c hc)
  | testPanic b e hpc ht => exact ⟨h.bound,h.recorded⟩
  | update hpc => exact h.update hpc
  | endPanic hpc hc => exact ⟨h.bound,h.recorded⟩
  | endLast hpc hc ho => exact h.move rfl rfl (done rfl) trivial
  | endOther hpc hc ho => exact h.move rfl rfl (done rfl) trivial
  | commitEmpty hpc hn => exact Fits.cleared hi (by simp [hpc,inCommit]) rfl
  | clear hpc => exact Fits.cleared hi (by simp [hpc,inCommit]) rfl
  | release hpc => exact h.move rfl rfl (done rfl) trivial
  | goCommit hpc | goWriteLog hpc | goWriteHead hpc | goInstall hpc | goInstallTrans hpc
  | goClear hpc | goCommitted hpc => exact h.move rfl rfl (done rfl) trivial

omit [DecidableEq P] in
theorem Fits.init (start size : ℕ) : Fits k (World.init P start size) where
  bound := by simp [World.init,World.demand,n,demand]
  recorded := by simp [World.init,Recorded]

theorem Fits.reach {w0 w : World P} (hi : Inv w0) (h0 : Fits k w0)
    (h : Reach (fun w p a => Limited w p a ∧ Reserved k w p a) w0 w) : Fits k w := by
  induction h with
  | init => exact h0
  | step hr hc hs ih => exact ih.step (hi.reach hr) hc.1 hc.2 hs

omit [Fintype P] in
/-- `initlog`'s values of `log.start` and `log.size` are never changed. -/
theorem log_area {C : World P → P → Action → Prop} {w₀ w : World P} (h : Reach C w₀ w) :
    w.log.start = w₀.log.start ∧ w.log.size = w₀.log.size := by
  induction h with
  | init => exact ⟨rfl,rfl⟩
  | step _ _ hs ih =>
    obtain ⟨-,hm⟩ := step_move hs
    cases hm <;> exact ih

/-- With room for two blocks fewer than the log area holds, no test of
`log_write` fails: at `size - 1` blocks even a block that is already in the
header would be refused. -/
theorem logWrite_never_too_big {w : World P}
    (h : Reach (fun w p a => Limited w p a ∧ Reserved (Mkfs.nlog - 2) w p a) (mkfsLog P) w) :
    w.panicked ≠ some .tooBigATransaction := by
  suffices hn : w.panicked = none by simp [hn]
  induction h with
  | init => rfl
  | @step w₁ w₂ p a hr hc hs ih =>
    have hi : Inv w₁ := (Inv.init _ _).reach hr
    have hf : Fits (nlog - 2) w₁ := (Fits.init _ _).reach (Inv.init _ _) hr
    have hsize : w₁.log.size = nlog := (log_area hr).2
    obtain ⟨hp,hm⟩ := step_move hs
    cases hm with
    | testPanic b e hpc ht =>
      have ho := hi.outstanding_pos (congrArg op hpc)
      have hle := hf.n_le
      have hN : nlog = 30 := rfl
      have hL : LOGSIZE = 30 := rfl
      rw [logWriteTest,if_neg (by omega),if_neg (by omega)] at ht
      cases ht
    | endPanic hpc hcm =>
      rw [hi.not_committing (congrArg op hpc)] at hcm
      cases hcm
    | _ => exact hp

end Steps

/-- `p` logs the blocks `b`, `b+1`, ... one after another. -/
def logBlocks {P : Type} (p : P) (b : ℕ) : ℕ → List (P × Action)
  | 0 => []
  | k + 1 => logBlocks p b k ++ [(p,.logWrite (b + k)), (p,.update)]

/-- Three operations begin; two log ten blocks each and the third logs nine. -/
def threeOps : List (Fin 3 × Action) :=
  [(0,.beginOp), (1,.beginOp), (2,.beginOp)] ++ logBlocks 0 100 10 ++ logBlocks 1 200 10 ++
    logBlocks 2 300 9

/-- Three admitted operations of ten blocks each: the thirtieth block is refused. -/
theorem logWrite_too_big_run : ¬ ∀ w : World (Fin 3), Reach Limited (mkfsLog (Fin 3)) w →
    w.panicked ≠ some .tooBigATransaction := by
  intro h
  have hp : ((mkfsLog (Fin 3)).exec Limited (threeOps ++ [(2,.logWrite 309)])).map
      World.panicked = some (some .tooBigATransaction) := by
    decide +kernel
  obtain ⟨w,hw,he⟩ := map_eq_some_iff.mp hp
  exact h w (.of_exec hw) he

/-- An operation that passes one block meets all the conditions. -/
theorem logWrite_never_too_big_one : ∃ w : World (Fin 1),
    Reach (fun w p a => Limited w p a ∧ Reserved (Mkfs.nlog - 2) w p a) (mkfsLog (Fin 1)) w ∧
      w.log.block = [60] ∧ w.panicked ≠ some .tooBigATransaction := by
  have hb : ((mkfsLog (Fin 1)).exec (fun w p a => Limited w p a ∧ Reserved (nlog - 2) w p a)
      [(0,.beginOp), (0,.logWrite 60), (0,.update)]).map (fun w => w.log.block) =
        some [60] := by
    decide +kernel
  obtain ⟨w,hw,he⟩ := map_eq_some_iff.mp hb
  have hr := Reach.of_exec hw
  exact ⟨w,hr,he,logWrite_never_too_big hr⟩

/-- Two processes make the test while the header lists 28 blocks; then the
header lists 30, and `write_log` reaches the first inode block. -/
def spill : List (Fin 3 × Action) :=
  [(0,.beginOp), (1,.beginOp), (2,.beginOp)] ++ logBlocks 0 100 10 ++ logBlocks 1 200 9 ++
    logBlocks 2 300 9 ++ [(1,.logWrite 209), (2,.logWrite 309), (1,.update), (2,.update),
      (0,.endOp), (1,.endOp), (2,.endOp)] ++ List.replicate 30 (2,.commitStep)

end Xv6.Group
