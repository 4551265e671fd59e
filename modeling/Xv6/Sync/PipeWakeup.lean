import Mathlib.Data.Fintype.Basic
import Xv6.Sync.Pipe

/-! # Who sleeps on a pipe

A process sleeps on `&p->nread` while the pipe is empty and may still be written to, and on
`&p->nwrite` while it is full and may still be read.  There is one exit of `pipewrite` that
wakes nobody: a writer that is killed, or finds the read end closed, when it has filled the
pipe. -/
namespace Xv6.Pipe
open Monitor Circular

/-- Why a process may sleep on a channel. -/
def MaySleep (c : Chan) (s : State) : Prop :=
  match c with
  | .nread => s.pipe.empty = true ∧ s.pipe.writeopen = true
  | .nwrite => s.pipe.full = true ∧ s.pipe.readopen = true

/-- The process has to call `wakeup` on the channel. -/
def Owes (c : Chan) : Loc → Prop
  | .write _ _ stored => c = .nread ∧ stored = true
  | .read _ got => c = .nwrite ∧ got ≠ []
  | .closeWakeup writable => c = if writable then .nread else .nwrite
  | _ => False

variable {P : Type} [DecidableEq P]

/-- The writer `p` is about to return -1 from a full pipe, and has stored bytes since its last
`wakeup(&p->nread)`. -/
def givesUp (w : World P State Loc Chan) (p : P) : Bool :=
  match w.pc p with
  | .inside (.write c i true) =>
    decide ((i : ℤ) < c.n) && w.st.pipe.full && (!w.st.pipe.readopen || w.killed p)
  | _ => false

/-- No writer gives up so while a reader sleeps, or has given up `p->lock` in `sleep`. -/
def NoneLeftAsleep (w : World P State Loc Chan) : Move P Loc Empty → Prop
  | .run p => givesUp w p = true → ∀ q, (w.pc q).waits ≠ some .nread
  | _ => True

instance [Fintype P] (w : World P State Loc Chan) : ∀ m, Decidable (NoneLeftAsleep w m)
  | .run p =>
    inferInstanceAs (Decidable (givesUp w p = true → ∀ q, (w.pc q).waits ≠ some .nread))
  | .call _ _ | .kill _ | .env _ => inferInstanceAs (Decidable True)

omit [DecidableEq P] in
/-- A byte that is stored makes a sleeping reader's reason go away, and one that is taken that
of a writer. -/
theorem code_wakes : Wakes code (NoneLeftAsleep (P := P)) (fun s (f : P → Loc) _ => Fifo s f) Knows
    MaySleep Owes where
  act := by
    intro s f k p a h hk ha
    cases hl : f p with
    | write c i st =>
      rw [hl] at ha
      cases ha
      split
      · rename_i hi
        split
        · rename_i hfull
          split
          · trivial
          · rintro (_ | _) hne ho
            · exact (hne rfl).elim
            · cases ho.1
        · rename_i hfull
          rintro (_ | _) hw
          · exact .inr ⟨rfl,rfl⟩
          · rcases hw with hw | hw
            · exact absurd hw.1 hfull
            · cases hw.1
      · rintro (_ | _) hne ho
        · exact (hne rfl).elim
        · cases ho.1
    | writeSleep c i =>
      rw [hl] at ha hk
      cases ha
      exact ⟨hk,nofun⟩
    | writeDone c => rw [hl] at ha; cases ha; trivial
    | readWait n =>
      rw [hl] at ha
      cases ha
      split
      · rename_i hwait
        split
        · trivial
        · simp only [Bool.and_eq_true] at hwait
          exact ⟨hwait,nofun⟩
      · exact fun c hw => .inl (hw.resolve_right nofun)
    | read n got =>
      rw [hl] at ha
      cases ha
      split
      · rename_i hr
        rintro (_ | _) hw
        · rcases hw with hw | hw
          · exact absurd hw.1 hr.2
          · cases hw.1
        · exact .inr ⟨rfl,by simp⟩
      · rintro (_ | _) hne ho
        · cases ho.1
        · exact (hne rfl).elim
    | readDone n got => rw [hl] at ha; cases ha; trivial
    | close writable =>
      rw [hl] at ha
      cases ha
      intro c hw
      cases writable <;> cases c
      · exact .inl (hw.resolve_right nofun)
      · exact .inr rfl
      · exact .inr rfl
      · exact .inl (hw.resolve_right nofun)
    | closeWakeup writable =>
      rw [hl] at ha
      cases ha
      exact fun c hne ho => (hne ho).elim
    | closeDone => rw [hl] at ha; cases ha; trivial
    | _ => rw [hl] at ha; cases ha
  release := by
    intro w p l l' hok _ hp ha c q hq ho
    change next (w.killed p) w.st l = _ at ha
    cases l with
    | write d i st =>
      -- the only `release` of a process that owes a wakeup
      obtain ⟨rfl,rfl⟩ := ho
      refine absurd hq (hok ?_ q)
      simp only [next,Option.some.injEq] at ha
      split at ha
      · rename_i hi
        split at ha
        · rename_i hfull
          split at ha
          · rename_i hopen
            simp [givesUp,hp,hi,hfull,hopen]
          · cases ha
        · cases ha
      · cases ha
    | read n got =>
      simp only [next,Option.some.injEq] at ha
      split at ha <;> cases ha
    | closeWakeup writable => cases ha
    | _ => exact ho.elim
  call := by
    intro s s' l l' hs c hw
    change call s l' = some s' at hs
    unfold call at hs
    split at hs
    · split at hs
      · cases hs
        cases c <;> exact hw
      · cases hs
    · cases hs
      exact hw
    · cases hs
      exact hw
    · cases hs
  env := by
    intro _ _ e
    exact e.elim

/-- With `p->lock` free, whoever sleeps on the pipe has to wait: in every interleaving in which
no writer gives up with readers asleep. -/
theorem pipe_sleepers_wait {data : ℕ → UInt8} {w : World P State Loc Chan}
    (h : Reach code NoneLeftAsleep (World.init (start data) .idle) w) (hfree : w.lock = none) :
    ∀ p l, (w.pc p = .sleeping .nread l ∨ w.pc p = .switching .nread l →
        w.st.pipe.empty = true ∧ w.st.pipe.writeopen = true) ∧
      (w.pc p = .sleeping .nwrite l ∨ w.pc p = .switching .nwrite l →
        w.st.pipe.full = true ∧ w.st.pipe.readopen = true) := by
  have hl := h.locks (Locks.init _ _)
  have ha := h.awaits (code_invariant _) code_wakes (Locks.init _ _) 
    (Holds.init (fifo_start data) trivial) (Awaits.init _ _)
  refine fun p l => ⟨fun hp => ?_,fun hp => ?_⟩
  · refine ha.free (c := .nread) (q := p) hl hfree ?_
    rcases hp with hp | hp <;> rw [hp] <;> rfl
  · refine ha.free (c := .nwrite) (q := p) hl hfree ?_
    rcases hp with hp | hp <;> rw [hp] <;> rfl

/-- Process `a` goes to sleep in `piperead`, and process `b` writes a byte. -/
def sleepAndWrite (a b : Fin 2) : List (Move (Fin 2) Loc Empty) :=
  [.call a (.readWait 1)] ++ List.replicate 6 (.run a) ++ [.call b (.write ⟨0,[7],1⟩ 0 false)]

theorem pipe_sleepers_wait_two : ∃ w : World (Fin 2) State Loc Chan,
      (World.init (start fun _ => 0) .idle).exec code (sleepAndWrite 0 1) = some w ∧ w.lock = none ∧
        w.pc 0 = .sleeping .nread (.readWait 1) ∧ w.st.pipe.empty = true ∧
        w.st.pipe.writeopen = true := by
  obtain ⟨w,hw,hl,hp⟩ : ∃ w ∈ (World.init (start fun _ => 0) .idle :
      World (Fin 2) State Loc Chan).exec code (sleepAndWrite 0 1),
        w.lock = none ∧ w.pc 0 = .sleeping .nread (.readWait 1) := by decide +kernel
  have hok : (World.init (start fun _ => 0) .idle :
      World (Fin 2) State Loc Chan).Allows code NoneLeftAsleep (sleepAndWrite 0 1) := by
    decide +kernel
  obtain ⟨he,ho⟩ :=
    (pipe_sleepers_wait (Reach.of_allows .init hok hw) hl 0 (.readWait 1)).1 (.inl hp)
  exact ⟨w,hw,hl,hp,he,ho⟩

/-- Process `a` goes to sleep in `piperead`; process `b` is killed while it writes more than the
pipe can hold. -/
def fillAndGiveUp (a b : Fin 2) : List (Move (Fin 2) Loc Empty) :=
  [.call a (.readWait 1)] ++ List.replicate 6 (.run a) ++
    [.kill b, .call b (.write ⟨0,[],600⟩ 0 false)] ++ List.replicate (PIPESIZE + 2) (.run b)

/-- The reader sleeps on `&p->nread` with the pipe full and its lock free. -/
theorem reader_sleeps_on_full_pipe : ∃ w : World (Fin 2) State Loc Chan,
      (World.init (start fun _ => 0) .idle).exec code (fillAndGiveUp 0 1) = some w ∧ w.lock = none ∧
        w.pc 0 = .sleeping .nread (.readWait 1) ∧ w.st.pipe.empty = false ∧
        w.loc 1 = .wrote ⟨0,[],600⟩ (-1) := by
  decide +kernel

end Xv6.Pipe
