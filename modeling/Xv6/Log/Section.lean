import Xv6.Param

/-! # The critical sections of `log.c`

`struct log` and the code that runs with `log.lock` held, one function per
critical section.  The bounds test of `log_write` is made before the lock is
taken, so it is a function of its own. -/
namespace Xv6

/-- The panics of `log.c` that a running system can reach. -/
inductive LogPanic where
  | tooBigATransaction
  | logWriteOutsideOfTrans
  | logCommitting
  deriving DecidableEq, Repr

/-- `struct log`.  `block` is `lh.block[0..lh.n)`; the list may grow past
`LOGSIZE`, which is where the source would write past the array. -/
structure Log where
  start : ℕ
  size : ℕ
  outstanding : ℤ
  committing : Bool
  block : List ℕ
  deriving DecidableEq, Repr

namespace Log

def n (l : Log) : ℕ := l.block.length

/-- One pass of the loop of `begin_op`; `none` is `sleep(&log, &log.lock)`. -/
def beginOp (l : Log) : Option Log :=
  if l.committing then none
  else if (l.n : ℤ) + (l.outstanding + 1) * MAXOPBLOCKS > LOGSIZE then none
  else some { l with outstanding := l.outstanding + 1 }

/-- The first section of `end_op`; the flag is `do_commit`. -/
def endOp (l : Log) : Except LogPanic (Bool × Log) :=
  if l.committing then .error .logCommitting
  else if l.outstanding - 1 = 0 then
    .ok (true,{ l with outstanding := l.outstanding - 1, committing := true })
  else .ok (false,{ l with outstanding := l.outstanding - 1 })

/-- The second section of `end_op`, after `commit()`. -/
def endCommit (l : Log) : Log := { l with committing := false }

/-- The tests of `log_write`, made without the lock. -/
def logWriteTest (l : Log) : Except LogPanic Unit :=
  if l.n ≥ LOGSIZE ∨ l.n ≥ l.size - 1 then .error .tooBigATransaction
  else if l.outstanding < 1 then .error .logWriteOutsideOfTrans
  else .ok ()

/-- The search loop of `log_write` and the store that follows it. -/
def absorb : List ℕ → ℕ → List ℕ
  | [], b => [b]
  | x :: xs, b => if x = b then b :: xs else x :: absorb xs b

/-- The locked update of `log_write`. -/
def logWriteUpdate (l : Log) (b : ℕ) : Log := { l with block := absorb l.block b }

def clear (l : Log) : Log := { l with block := [] }

theorem absorb_of_mem {xs : List ℕ} {b : ℕ} (h : b ∈ xs) : absorb xs b = xs := by
  induction xs with
  | nil => simp at h
  | cons x xs ih =>
    by_cases hx : x = b
    · simp [absorb,hx]
    · have hb : b ∈ xs := by simpa [Ne.symm hx] using h
      simp [absorb,hx,ih hb]

theorem absorb_of_notMem {xs : List ℕ} {b : ℕ} (h : b ∉ xs) : absorb xs b = xs ++ [b] := by
  induction xs with
  | nil => rfl
  | cons x xs ih =>
    obtain ⟨hx,hb⟩ : b ≠ x ∧ b ∉ xs := by simpa using h
    simp [absorb,Ne.symm hx,ih hb]

@[simp] theorem mem_absorb {xs : List ℕ} {b c : ℕ} : c ∈ absorb xs b ↔ c ∈ xs ∨ c = b := by
  by_cases h : b ∈ xs
  · rw [absorb_of_mem h]
    constructor
    · exact Or.inl
    · rintro (hc | rfl)
      · exact hc
      · exact h
  · simp [absorb_of_notMem h]

theorem absorb_nodup {xs : List ℕ} (b : ℕ) (h : xs.Nodup) : (absorb xs b).Nodup := by
  by_cases hb : b ∈ xs
  · rwa [absorb_of_mem hb]
  · rw [absorb_of_notMem hb]
    exact List.nodup_append.mpr ⟨h,by simp,by rintro a ha c hc rfl; simp_all⟩

theorem beginOp_eq_some {l l' : Log} (h : l.beginOp = some l') :
    l.committing = false ∧ (l.n : ℤ) + (l.outstanding + 1) * MAXOPBLOCKS ≤ LOGSIZE ∧
      l' = { l with outstanding := l.outstanding + 1 } := by
  unfold beginOp at h
  split at h
  · cases h
  · split at h
    · cases h
    · rename_i hc hn
      exact ⟨by simpa using hc,by omega,by simpa using h.symm⟩

theorem endOp_of_committing {l : Log} (hc : l.committing = true) :
    l.endOp = .error .logCommitting := by
  simp [endOp,hc]

theorem endOp_last {l : Log} (hc : l.committing = false) (ho : l.outstanding = 1) :
    l.endOp = .ok (true,{ l with outstanding := 0, committing := true }) := by
  simp [endOp,hc,ho]

theorem endOp_other {l : Log} (hc : l.committing = false) (ho : l.outstanding ≠ 1) :
    l.endOp = .ok (false,{ l with outstanding := l.outstanding - 1 }) := by
  have h : ¬ l.outstanding - 1 = 0 := by omega
  simp [endOp,hc,h]

theorem logWriteTest_ok {l : Log} (h : l.logWriteTest = .ok ()) :
    l.n < LOGSIZE ∧ l.n < l.size - 1 ∧ 1 ≤ l.outstanding := by
  unfold logWriteTest at h
  split at h
  · cases h
  · split at h
    · cases h
    · omega

end Log
end Xv6
