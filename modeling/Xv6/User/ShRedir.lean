import Xv6.Param
import Xv6.User.ShGrammar

/-! # `sh.c`: the descriptors of a command

`runcmd` unwinds the redirections of a command from the outside, each with a `close` and an `open`. -/
namespace Xv6.Sh
open Function List

variable {F : Type} (openFile : List UInt8 → ℕ → Option F)

def fdalloc (ofile : ℕ → Option F) : Option ℕ :=
  (List.range NOFILE).find? fun fd => (ofile fd).isNone

/-- The case `REDIR` of `runcmd`: the command that it goes on with, and the descriptors.  There are
none where `open` fails and the process exits. -/
def runRedir : Cmd (List UInt8) × (ℕ → Option F) → Option (Cmd (List UInt8) × (ℕ → Option F))
  | (.redir cmd file mode fd,ofile) => do
    let closed := update ofile fd none
    let f ← openFile file mode
    let d ← fdalloc closed
    return (cmd,update closed d (some f))
  | _ => none

/-- `runcmd` through `n` redirections. -/
def runRedirs : ℕ → Cmd (List UInt8) × (ℕ → Option F) → Option (Cmd (List UInt8) × (ℕ → Option F))
  | 0, c => some c
  | n + 1, c => (runRedir openFile c).bind (runRedirs n)

def onFd (rs : List Redirection) (fd : ℕ) : Option Redirection := rs.find? fun r => r.fd = fd

/-- The first redirection of a descriptor is the one that is left. -/
def redirected (rs : List Redirection) (ofile : ℕ → Option F) (fd : ℕ) : Option F :=
  ((onFd rs fd).map fun r => openFile r.file r.mode).getD (ofile fd)

variable {openFile} {rs : List Redirection} {ofile : ℕ → Option F}

theorem fdalloc_closed {fd : ℕ} (hfd : fd ≤ 1) (h0 : (ofile 0).isSome) :
    fdalloc (update ofile fd none) = some fd := by
  have hrange : List.range NOFILE = 0 :: 1 :: (List.range 14).map (· + 2) := rfl
  rcases Nat.le_one_iff_eq_zero_or_eq_one.1 hfd with rfl | rfl
  · simp [fdalloc,hrange]
  · simp [fdalloc,hrange,Option.isSome_iff_ne_none.1 h0]

theorem redirected_append (r : Redirection) :
    redirected openFile (rs ++ [r]) ofile =
      redirected openFile rs (update ofile r.fd (openFile r.file r.mode)) := by
  funext fd
  rw [redirected,redirected,onFd,List.find?_append,← onFd]
  cases onFd rs fd with
  | some r' => rfl
  | none =>
    by_cases hfd : r.fd = fd
    · simp [hfd]
    · simp [hfd,update_of_ne (Ne.symm hfd)]

theorem runRedirs_nest (c : Cmd (List UInt8)) (hfd : ∀ r ∈ rs, r.fd ≤ 1)
    (hopen : ∀ r ∈ rs, (openFile r.file r.mode).isSome) (h0 : (ofile 0).isSome) :
    runRedirs openFile rs.length (nest c rs,ofile) = some (c,redirected openFile rs ofile) := by
  induction rs using List.reverseRecOn generalizing ofile with
  | nil => rfl
  | append_singleton rs r ih =>
    rw [forall_mem_append] at hfd hopen
    have hfd' := hfd.2 r mem_cons_self
    obtain ⟨f,hf⟩ := Option.isSome_iff_exists.1 (hopen.2 r mem_cons_self)
    have hstep : runRedir openFile (nest c (rs ++ [r]),ofile) =
        some (nest c rs,update ofile r.fd (some f)) := by
      rw [nest_append]
      change (do
        let f ← openFile r.file r.mode
        let d ← fdalloc (update ofile r.fd none)
        return (nest c rs,update (update ofile r.fd none) d (some f))) = _
      rw [hf,fdalloc_closed hfd' h0]
      exact congrArg (fun t => some (nest c rs,t)) (update_idem _ _ _)
    rw [length_append,length_singleton,runRedirs,hstep,redirected_append,hf]
    refine ih hfd.1 hopen.1 ?_
    rw [update_apply]
    split
    · rfl
    · exact h0

end Xv6.Sh
