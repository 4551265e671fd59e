import Xv6.Fs.OpenSpec
import Xv6.Sys.Boot
import Xv6.Vm.ExecSpec

/-! # A failing `exec`

`exec` works on two states that do not touch: the file system, from which it reads, and the
memory of the process. -/
namespace Xv6
open Conc

namespace Fs
section Exec
variable {p : ℕ} {E : Stops} {v : View} {reads : List (ℕ × ℕ)}

/-- `exec` leaves no lock, no transaction and no reference. -/
theorem Safe.sysExec {Q : Post ℤ} {path : Option (List UInt8)}
    (hE : ∀ e, E e) (hc : Core v) (hr : InRange v)
    (hcwd : ∃ i, Holds v ((v.proc p).cwd.getD 0) i) (hlog : v.log = emptyLog)
    (hq : ∀ r v', (∀ a, refs v' a = refs v a) → v'.log = emptyLog → Q r v' (held p ∅)) :
    Safe p E (Fs.sysExec p path reads) Q v (held p ∅) := by
  rw [sysExec_eq]
  cases argstr path with
  | none => exact pure (hq _ v (fun _ => rfl) hlog)
  | some path =>
    have hs : Starts E v.begun := .of_panics hc.begun hr fun _ _ => hE _
    have hstart : HasStart E v.begun p path := .of_cwd hcwd (hE _)
    refine operation hlog (execBody (hE _) hs hstart (fun v' hw => ?_)
      fun k i n v1 inp v' hw hl hw' _ _ => ?_)
    · refine ⟨hw.core,⟨_,hw.frame.logs⟩,rfl,fun d _ _ => hq _ (v'.ended d) (fun a => ?_) rfl⟩
      exact (hw.refs a).trans (add_zero _)
    · refine ⟨hw'.core,⟨_,hw.frame.logs.trans hw'.frame.logs⟩,rfl,
        fun d _ _ => hq _ (v'.ended d) (fun a => ?_) rfl⟩
      have hk : Holds { v1 with input := inp } k i := hl.holds.of_inode rfl
      have h1 := hw'.refs a
      rw [refs_unref hk,Pi.zero_apply,add_zero] at h1
      have h2 : refs { v1 with input := inp } a = refs v a + one i a := hw.refs a
      change refs v' a = refs v a
      omega

end Exec
end Fs

end Xv6
