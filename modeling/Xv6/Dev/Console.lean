import Xv6.Lib.CallLog
import Xv6.Lib.Circular
import Xv6.Lib.Monitor

/-! # The input of `console.c`

`consoleintr` edits the line that is being typed, in a ring buffer that `consoleread` takes the
finished lines from.  `cons.lock` is the lock of the monitor.  What is put on the screen, the
listing of the processes and the lock of the inode are left out. -/
namespace Xv6.Console
open List hiding count
open Monitor Circular CallLog
open Function (update)

def INPUT_BUF : ℕ := 128

/-- `Control-x` -/
def C (x : Char) : UInt8 := x.toUInt8 - '@'.toUInt8

def newline : UInt8 := '\n'.toUInt8

def DEL : UInt8 := 0x7f

structure Input where
  buf : ℕ → UInt8
  /-- read index -/
  r : UInt32
  /-- write index -/
  w : UInt32
  /-- edit index -/
  e : UInt32

namespace Input

/-- The loop of `^U`; `input.e` can go down `fuel` times before it is `input.w`. -/
def killLine : ℕ → Input → Input
  | 0, i => i
  | fuel + 1, i =>
    if i.e ≠ i.w ∧ i.buf ((i.e - 1).toNat % INPUT_BUF) ≠ newline then
      killLine fuel { i with e := i.e - 1 }
    else i

def backspace (i : Input) : Input := if i.e ≠ i.w then { i with e := i.e - 1 } else i

/-- `input.buf[input.e++ % INPUT_BUF] = c` -/
def store (i : Input) (c : UInt8) : Input :=
  { i with buf := update i.buf (i.e.toNat % INPUT_BUF) c, e := i.e + 1 }

/-- The `switch` of `consoleintr`, and whether it calls `wakeup(&input.r)`. -/
def key (i : Input) (c : UInt8) : Input × Bool :=
  if c = C 'P' then (i,false)
  else if c = C 'U' then (i.killLine (count i.w i.e),false)
  else if c = C 'H' ∨ c = DEL then (i.backspace,false)
  else if c ≠ 0 ∧ i.e - i.r < UInt32.ofNat INPUT_BUF then
    let c := if c = '\r'.toUInt8 then newline else c
    let i := i.store c
    if c = newline ∨ c = C 'D' ∨ i.e = i.r + UInt32.ofNat INPUT_BUF then
      ({ i with w := i.e },true)
    else (i,false)
  else (i,false)

/-- `input.buf[input.r % INPUT_BUF]` -/
def front (i : Input) : UInt8 := i.buf (i.r.toNat % INPUT_BUF)

def advance (i : Input) : Input := { i with r := i.r + 1 }

def putBack (i : Input) : Input := { i with r := i.r - 1 }

/-- The bytes `buf[r .. w)`, which can be read. -/
def committed (i : Input) : List UInt8 := content INPUT_BUF i.buf i.r (count i.r i.w)

/-- The bytes `buf[w .. e)`, which can still be edited. -/
def line (i : Input) : List UInt8 := content INPUT_BUF i.buf i.w (count i.w i.e)

end Input

inductive Event where
  | key (c : UInt8)
  | take
  deriving DecidableEq, Repr

/-- What the console is for, without the ring buffer. -/
structure Discipline where
  /-- the input that has been accepted, after line editing -/
  accepted : List UInt8
  /-- how many of its bytes have been taken -/
  taken : ℕ
  /-- the line that can still be edited -/
  line : List UInt8

namespace Discipline

def used (d : Discipline) : ℕ := d.accepted.length - d.taken + d.line.length

def type (d : Discipline) (c : UInt8) : Discipline :=
  if c = newline ∨ c = C 'D' ∨ d.used + 1 = INPUT_BUF then
    { d with accepted := d.accepted ++ (d.line ++ [c]), line := [] }
  else { d with line := d.line ++ [c] }

def step (d : Discipline) : Event → Discipline
  | .take => { d with taken := d.taken + 1 }
  | .key c =>
    if c = C 'P' then d
    else if c = C 'U' then { d with line := [] }
    else if c = C 'H' ∨ c = DEL then { d with line := d.line.dropLast }
    else if c ≠ 0 ∧ d.used < INPUT_BUF then d.type (if c = '\r'.toUInt8 then newline else c)
    else d

def run (events : List Event) : Discipline := events.foldl step ⟨[],0,[]⟩

theorem run_append (events : List Event) (e : Event) : run (events ++ [e]) = (run events).step e := by
  simp [run]

end Discipline

/-- A call of `consoleread`; `id` tells it from the other calls. -/
structure ReadCall where
  id : ℕ
  target : ℤ
  deriving DecidableEq, Repr

inductive Loc where
  | idle
  /-- the loop of `consoleintr`; `getc` will return `cs` -/
  | intr (cs : List UInt8)
  /-- `wakeup(&input.r)` -/
  | intrWakeup (cs : List UInt8)
  /-- the loops of `consoleread`, which has copied `got` -/
  | read (c : ReadCall) (n : ℤ) (got : List UInt8)
  /-- the last `release` of `consoleread` -/
  | readDone (c : ReadCall) (n : ℤ) (got : List UInt8)
  /-- `consoleread` has returned `r` -/
  | readReturned (c : ReadCall) (r : ℤ) (got : List UInt8)
  deriving DecidableEq, Repr

/-- The input, with what has happened to it: `taken` are the bytes that `consoleread` has taken
out of the buffer, and `copied` those that it has copied to its caller, with the call that
did. -/
structure State where
  input : Input
  events : List Event
  taken : List (ℕ × UInt8)
  copied : List (ℕ × UInt8)
  /-- the number of calls of `consoleread` so far -/
  calls : ℕ

/-- `c = input.buf[input.r++ % INPUT_BUF]` -/
def State.take (s : State) (c : ReadCall) : State :=
  { s with
    input := s.input.advance
    events := s.events ++ [.take]
    taken := s.taken ++ [(c.id,s.input.front)] }

/-- `*dst++ = c` -/
def State.copy (s : State) (c : ReadCall) (b : UInt8) : State :=
  { s with copied := s.copied ++ [(c.id,b)] }

def next (killed : Bool) (s : State) : Loc → Option (Act State Loc Unit)
  | .intr [] => some (.release .idle)
  | .intr (c :: cs) =>
    some (.step { s with input := (s.input.key c).1, events := s.events ++ [.key c] }
      (if (s.input.key c).2 then .intrWakeup cs else .intr cs))
  | .intrWakeup cs => some (.wakeup () (.intr cs))
  | .read c n got =>
    some <|
      if 0 < n then
        if s.input.r = s.input.w then
          if killed then .release (.readReturned c (-1) got) else .sleep () (.read c n got)
        else if s.input.front = C 'D' then
          if n < c.target then
            .step { s with input := s.input.advance.putBack } (.readDone c n got)
          else .step (s.take c) (.readDone c n got)
        else
          .step ((s.take c).copy c s.input.front)
            (if s.input.front = newline then .readDone c (n - 1) (got ++ [s.input.front])
              else .read c (n - 1) (got ++ [s.input.front]))
      else .step s (.readDone c n got)
  | .readDone c n got => some (.release (.readReturned c (c.target - n) got))
  | .idle | .readReturned _ _ _ => none

def call (s : State) : Loc → Option State
  | .intr _ => some s
  | .read c n [] =>
    if c.id = s.calls ∧ n = c.target then some { s with calls := s.calls + 1 } else none
  | _ => none

def code : Code State Loc Unit Empty where
  call _ l s := call s l
  next killed l s := next killed s l
  env e := e.elim

def start (buf : ℕ → UInt8) : State := ⟨⟨buf,0,0,0⟩,[],[],[],0⟩

section Ring
variable {i : Input}

theorem INPUT_BUF_dvd : INPUT_BUF ∣ 2 ^ 32 := by decide

/-- The indices are in order, and close to each other. -/
structure Ordered (i : Input) : Prop where
  committed : count i.r i.w ≤ count i.r i.e
  bound : count i.r i.e ≤ INPUT_BUF

theorem Ordered.count_eq (h : Ordered i) : count i.r i.e = count i.r i.w + count i.w i.e :=
  count_add h.committed

theorem length_committed : i.committed.length = count i.r i.w := length_content

theorem length_line : i.line.length = count i.w i.e := length_content

/-- An edit of the line that takes its last byte away. -/
theorem line_pred (h : i.e ≠ i.w) :
    i.line = ({ i with e := i.e - 1 } : Input).line ++ [i.buf ((i.e - 1).toNat % INPUT_BUF)] := by
  have h0 : 0 < count i.w i.e := Nat.pos_of_ne_zero fun h0 => h (count_eq_zero.mp h0).symm
  have hpred := count_pred h0
  obtain ⟨k,hk⟩ := Nat.exists_eq_add_of_lt h0
  unfold Input.line
  rw [cell_eq INPUT_BUF_dvd hpred,hpred,hk,← content_succ]
  rfl

theorem Ordered.pred (h : Ordered i) (he : i.e ≠ i.w) : Ordered { i with e := i.e - 1 } := by
  have h0 : 0 < count i.w i.e := Nat.pos_of_ne_zero fun h0 => he (count_eq_zero.mp h0).symm
  have hc := h.count_eq
  have hb := h.bound
  have hpred : count i.r (i.e - 1) = count i.r i.e - 1 := count_pred (by omega)
  refine ⟨?_,?_⟩
  · change count i.r i.w ≤ count i.r (i.e - 1)
    omega
  · change count i.r (i.e - 1) ≤ _
    omega

/-- `^U` takes away the whole line: there is no newline in it. -/
theorem killLine_eq {fuel : ℕ} (hf : count i.w i.e = fuel) (hn : newline ∉ i.line) :
    i.killLine fuel = { i with e := i.w } := by
  induction fuel generalizing i with
  | zero =>
    obtain ⟨buf,r,w,e⟩ := i
    obtain rfl : w = e := count_eq_zero.mp hf
    rfl
  | succ fuel ih =>
    have he : i.e ≠ i.w := by
      intro he
      rw [he,count_self] at hf
      cases hf
    have hline := line_pred he
    rw [hline,mem_append,not_or,mem_singleton] at hn
    rw [Input.killLine,if_pos ⟨he,fun h => hn.2 h.symm⟩,ih ?_ hn.1]
    change count i.w (i.e - 1) = fuel
    rw [count_pred (by omega),hf]
    rfl

theorem line_backspace : i.backspace.line = i.line.dropLast := by
  unfold Input.backspace
  split
  · rename_i h
    rw [line_pred h,dropLast_concat]
  · rename_i h
    rw [not_not] at h
    rw [Input.line,h,count_self]
    rfl

theorem Ordered.backspace (h : Ordered i) : Ordered i.backspace := by
  unfold Input.backspace
  split
  · exact h.pred ‹_›
  · exact h

theorem committed_backspace : i.backspace.committed = i.committed := by
  unfold Input.backspace
  split <;> rfl

theorem room_iff : i.e - i.r < UInt32.ofNat INPUT_BUF ↔ count i.r i.e < INPUT_BUF := UInt32.lt_iff_toNat_lt

section
variable (h : Ordered i)
include h

theorem Ordered.store (hr : count i.r i.e < INPUT_BUF) (c : UInt8) :
    Ordered (i.store c) ∧ count i.r (i.e + 1) = count i.r i.e + 1 := by
  have hb : INPUT_BUF < 2 ^ 32 := by decide
  have hc := h.committed
  have hs : count i.r (i.e + 1) = count i.r i.e + 1 := count_succ (by omega)
  refine ⟨⟨?_,?_⟩,hs⟩
  · change count i.r i.w ≤ count i.r (i.e + 1)
    omega
  · change count i.r (i.e + 1) ≤ _
    omega

theorem committed_store (hr : count i.r i.e < INPUT_BUF) (c : UInt8) :
    (i.store c).committed = i.committed :=
  content_update INPUT_BUF_dvd rfl hr h.committed

theorem line_store (hr : count i.r i.e < INPUT_BUF) (c : UInt8) :
    (i.store c).line = i.line ++ [c] := by
  have hb : INPUT_BUF < 2 ^ 32 := by decide
  have hc := h.count_eq
  have hs : count i.w (i.e + 1) = count i.w i.e + 1 := count_succ (by omega)
  change content INPUT_BUF _ i.w (count i.w (i.e + 1)) = _
  rw [hs]
  exact content_push INPUT_BUF_dvd rfl (by omega)

theorem Ordered.commit : Ordered { i with w := i.e } := ⟨le_rfl,h.bound⟩

theorem committed_commit : ({ i with w := i.e } : Input).committed = i.committed ++ i.line := by
  change content INPUT_BUF i.buf i.r (count i.r i.e) = _
  rw [h.count_eq]
  exact content_append INPUT_BUF_dvd rfl

end

theorem line_commit : ({ i with w := i.e } : Input).line = [] := by
  change content INPUT_BUF i.buf i.e (count i.e i.e) = []
  rw [count_self]
  rfl

theorem full_iff : i.e = i.r + UInt32.ofNat INPUT_BUF ↔ count i.r i.e = INPUT_BUF := count_eq_iff

theorem committed_eq_cons (h : i.r ≠ i.w) : i.committed = i.front :: i.advance.committed := by
  have h0 : 0 < count i.r i.w := Nat.pos_of_ne_zero fun h0 => h (count_eq_zero.mp h0)
  obtain ⟨k,hk⟩ := Nat.exists_eq_add_of_lt h0
  have hn : count (i.r + 1) i.w = k := by
    rw [count_next h0]
    omega
  unfold Input.committed
  rw [hk,Nat.zero_add,content_pop INPUT_BUF_dvd]
  change _ = _ :: content INPUT_BUF i.buf (i.r + 1) (count (i.r + 1) i.w)
  rw [hn]
  rfl

theorem Ordered.advance (h : Ordered i) (hne : i.r ≠ i.w) : Ordered i.advance := by
  have h0 : 0 < count i.r i.w := Nat.pos_of_ne_zero fun h0 => hne (count_eq_zero.mp h0)
  have hc := h.committed
  have hb := h.bound
  have hw : count (i.r + 1) i.w = count i.r i.w - 1 := count_next h0
  have he : count (i.r + 1) i.e = count i.r i.e - 1 := count_next (by omega)
  refine ⟨?_,?_⟩
  · change count (i.r + 1) i.w ≤ count (i.r + 1) i.e
    omega
  · change count (i.r + 1) i.e ≤ _
    omega

theorem putBack_advance : i.advance.putBack = i := by
  obtain ⟨buf,r,w,e⟩ := i
  simp [Input.advance,Input.putBack]

end Ring

/-- The ring buffer holds what the abstract console does: `taken` has been taken out of it. -/
structure Agrees (i : Input) (d : Discipline) (taken : List UInt8) : Prop where
  ordered : Ordered i
  accepted : d.accepted = taken ++ i.committed
  number : d.taken = taken.length
  line : d.line = i.line
  -- a newline ends the line at once
  unfinished : newline ∉ i.line

namespace Agrees
variable {i : Input} {d : Discipline} {taken : List UInt8}
variable (h : Agrees i d taken)
include h

theorem used : d.used = count i.r i.e := by
  unfold Discipline.used
  rw [h.accepted,h.number,h.line,length_append,length_committed,length_line,
    h.ordered.count_eq]
  omega

theorem type (hr : count i.r i.e < INPUT_BUF) (c : UInt8) : Agrees
      (if c = newline ∨ c = C 'D' ∨ (i.store c).e = (i.store c).r + UInt32.ofNat INPUT_BUF then
        { i.store c with w := (i.store c).e } else i.store c) (d.type c) taken := by
  obtain ⟨ho,hs⟩ := h.ordered.store hr c
  have hfull : (i.store c).e = (i.store c).r + UInt32.ofNat INPUT_BUF ↔ d.used + 1 = INPUT_BUF := by
    rw [full_iff,h.used]
    change count i.r (i.e + 1) = INPUT_BUF ↔ _
    rw [hs]
  unfold Discipline.type
  rw [if_congr (or_congr_right (or_congr_right hfull)) rfl rfl]
  split
  · refine ⟨ho.commit,?_,h.number,line_commit.symm,?_⟩
    · rw [committed_commit ho,committed_store h.ordered hr,line_store h.ordered hr,h.accepted,
        h.line,append_assoc]
    · rw [line_commit]
      exact not_mem_nil
  · rename_i hc
    refine ⟨ho,?_,h.number,?_,?_⟩
    · rw [committed_store h.ordered hr,h.accepted]
    · rw [line_store h.ordered hr,h.line]
    · rw [line_store h.ordered hr,mem_append,mem_singleton,not_or]
      exact ⟨h.unfinished,fun he => hc (.inl he.symm)⟩

theorem key (c : UInt8) : Agrees (i.key c).1 (d.step (.key c)) taken := by
  unfold Input.key Discipline.step
  by_cases hP : c = C 'P'
  · simp only [if_pos hP]
    exact h
  by_cases hU : c = C 'U'
  · simp only [if_neg hP,if_pos hU]
    rw [killLine_eq rfl h.unfinished]
    have hline : ({ i with e := i.w } : Input).line = [] := by
      rw [Input.line,count_self]
      rfl
    refine ⟨⟨le_rfl,h.ordered.committed.trans h.ordered.bound⟩,h.accepted,h.number,hline.symm,?_⟩
    rw [hline]
    exact not_mem_nil
  by_cases hH : c = C 'H' ∨ c = DEL
  · simp only [if_neg hP,if_neg hU,if_pos hH]
    refine ⟨h.ordered.backspace,?_,h.number,?_,?_⟩
    · rw [committed_backspace,h.accepted]
    · rw [line_backspace,h.line]
    · rw [line_backspace]
      exact fun hm => h.unfinished (dropLast_subset _ hm)
  simp only [if_neg hP,if_neg hU,if_neg hH,room_iff,h.used]
  by_cases hr : c ≠ 0 ∧ count i.r i.e < INPUT_BUF
  · rw [if_pos hr,if_pos hr]
    have ht := h.type hr.2 (if c = '\r'.toUInt8 then newline else c)
    generalize (if c = '\r'.toUInt8 then newline else c) = b at ht ⊢
    split
    · rename_i hc
      rwa [if_pos hc] at ht
    · rename_i hc
      rwa [if_neg hc] at ht
  · rw [if_neg hr,if_neg hr]
    exact h

theorem take (hne : i.r ≠ i.w) : Agrees i.advance (d.step .take) (taken ++ [i.front]) := by
  refine ⟨h.ordered.advance hne,?_,?_,h.line,h.unfinished⟩
  · change d.accepted = _
    rw [h.accepted,committed_eq_cons hne,append_assoc]
    rfl
  · rw [length_append,← h.number]
    rfl

end Agrees

/-- Editing leaves the finished lines alone. -/
theorem committed_edit {i : Input} {c : UInt8} (hn : newline ∉ i.line)
    (hc : c = C 'U' ∨ c = C 'H' ∨ c = DEL) : (i.key c).1.committed = i.committed := by
  have hP : c ≠ C 'P' := by
    rintro rfl
    revert hc
    decide
  unfold Input.key
  rw [if_neg hP]
  split
  · rw [killLine_eq rfl hn]
    rfl
  · rename_i hU
    rw [if_pos (hc.resolve_left hU)]
    exact committed_backspace

/-- The call of `consoleread` that a process is in, or was in last. -/
def Loc.call? : Loc → Option ℕ
  | read c _ _ | readDone c _ _ | readReturned c _ _ => some c.id
  | _ => none

/-- What a call of `consoleread` that has read `got` has taken out of the buffer: a `^D` only if
it has read nothing. -/
structure Ended (taken : List UInt8) (c : ReadCall) (got : List UInt8) : Prop where
  took : (taken = got ∧ C 'D' ∉ got ∧ (0 < c.target → got ≠ [])) ∨ (taken = [C 'D'] ∧ got = [])
  newline : newline ∉ got.dropLast

/-- What a call has taken out of the buffer so far. -/
def Took (taken : List UInt8) : Loc → Prop
  | .read c n got =>
    taken = got ∧ n + got.length = c.target ∧ C 'D' ∉ got ∧ newline ∉ got
  | .readDone c n got => Ended taken c got ∧ n + got.length = c.target
  | .readReturned c r got => Ended taken c got ∧ r = got.length
  | _ => True

variable {P : Type} [DecidableEq P]

structure Inv (s : State) (f : P → Loc) (k : P → Bool) : Prop where
  agrees : Agrees s.input (Discipline.run s.events) (s.taken.map Prod.snd)
  copied : s.copied = s.taken.filter fun e => e.2 ≠ C 'D'
  calls : Calls s.taken s.calls Loc.call? Took f
  alive : ∀ p, k p = false

def NoKill (_ : World P State Loc Unit) : Move P Loc Empty → Prop
  | .kill _ => False
  | _ => True

instance (w : World P State Loc Unit) : ∀ m, Decidable (NoKill w m)
  | .kill _ => inferInstanceAs (Decidable False)
  | .call _ _ | .run _ | .env _ => inferInstanceAs (Decidable True)

namespace Inv
variable {s : State} {f : P → Loc} {k : P → Bool} {p : P} {l : Loc}
variable (h : Inv s f k)
include h

theorem goto (hl : ∀ i, l.call? = some i →
    (f p).call? = some i ∧ Took (ofCall s.taken i) l) : Inv s (update f p l) k :=
  ⟨h.agrees,h.copied,h.calls.move hl,h.alive⟩

theorem key (c : UInt8) (hl : l.call? = none) :
    Inv { s with input := (s.input.key c).1, events := s.events ++ [.key c] } (update f p l) k := by
  refine ⟨?_,h.copied,h.calls.move ?_,h.alive⟩
  · rw [Discipline.run_append]
    exact h.agrees.key c
  · rw [hl]
    nofun

theorem takeEof {c : ReadCall} (hp : (f p).call? = some c.id)
    (hne : s.input.r ≠ s.input.w) (heof : s.input.front = C 'D') (hl : l.call? = some c.id)
    (ht : Took (ofCall s.taken c.id ++ [C 'D']) l) : Inv (s.take c) (update f p l) k := by
  refine ⟨?_,?_,h.calls.append hp hl (heof ▸ ht),h.alive⟩
  · change Agrees _ (Discipline.run (s.events ++ [.take])) _
    rw [Discipline.run_append,State.take,map_append]
    exact h.agrees.take hne
  · change s.copied = filter _ (s.taken ++ [(c.id,s.input.front)])
    simp [heof,h.copied]

theorem takeByte {c : ReadCall} (hp : (f p).call? = some c.id)
    (hne : s.input.r ≠ s.input.w) (heof : s.input.front ≠ C 'D') (hl : l.call? = some c.id)
    (ht : Took (ofCall s.taken c.id ++ [s.input.front]) l) :
    Inv ((s.take c).copy c s.input.front) (update f p l) k := by
  refine ⟨?_,?_,h.calls.append hp hl ht,h.alive⟩
  · change Agrees _ (Discipline.run (s.events ++ [.take])) _
    rw [Discipline.run_append,State.copy,State.take,map_append]
    exact h.agrees.take hne
  · change s.copied ++ [(c.id,s.input.front)] = filter _ (s.taken ++ [(c.id,s.input.front)])
    simp [heof,h.copied]

end Inv

omit [DecidableEq P] in
theorem inv_start (buf : ℕ → UInt8) : Inv (start buf) (fun _ : P => Loc.idle) fun _ => false := by
  have hline : (start buf).input.line = [] := by simp [start,Input.line]
  have hcommitted : (start buf).input.committed = [] := by simp [start,Input.committed]
  have hbound : count (start buf).input.r (start buf).input.e ≤ INPUT_BUF := by simp [start]
  refine ⟨⟨⟨le_rfl,hbound⟩,hcommitted.symm,rfl,hline.symm,?_⟩,rfl,Calls.init fun _ => rfl,fun _ => rfl⟩
  rw [hline]
  exact not_mem_nil

/-- The end of a read that has taken what it has copied. -/
theorem Ended.of_read {taken got : List UInt8} {c : ReadCall} {n : ℤ} (hn : n < c.target ∨ n ≤ 0)
    (h : Took taken (.read c n got)) : Ended taken c got := by
  obtain ⟨ht,hg,hD,hnl⟩ := h
  refine ⟨.inl ⟨ht,hD,fun hpos he => ?_⟩,fun hm => hnl (dropLast_subset _ hm)⟩
  rw [he,length_nil] at hg
  omega

theorem code_invariant :
    Invariant code (NoKill (P := P)) (fun s (f : P → Loc) k => Inv s f k) (fun _ _ => True)
      (fun _ => True) (fun _ => True) where
  enter _ _ _ := trivial
  act := by
    intro w s f k p a _ _ _ h _ ha
    have htook := h.calls.each p
    cases hl : f p with
    | intr cs =>
      rw [hl] at ha
      cases cs with
      | nil => cases ha; exact ⟨h.goto nofun,trivial⟩
      | cons c cs =>
        cases ha
        refine ⟨h.key c ?_,trivial⟩
        split <;> rfl
    | intrWakeup cs => rw [hl] at ha; cases ha; exact ⟨h.goto nofun,trivial⟩
    | read c n got =>
      have hself : (f p).call? = some c.id := by rw [hl]; rfl
      have ht := htook c.id hself
      rw [hl] at ha ht
      cases ha
      have hmove : ∀ {l : Loc}, l.call? = some c.id → Took (ofCall s.taken c.id) l →
          ∀ i, l.call? = some i → (f p).call? = some i ∧ Took (ofCall s.taken i) l := by
        intro l hc ht i hi
        obtain rfl := Option.some.inj (hc.symm.trans hi)
        exact ⟨hself,ht⟩
      obtain ⟨htk,hg,hD,hnl⟩ := id ht
      split
      · rename_i hn
        split
        · rw [h.alive p]
          exact ⟨h.goto (hmove rfl ht),trivial,trivial⟩
        · rename_i hne
          split
          · rename_i heof
            split
            · rename_i hlt
              refine ⟨?_,trivial⟩
              rw [putBack_advance]
              exact h.goto (hmove rfl ⟨.of_read (.inl hlt) ht,hg⟩)
            · rename_i hlt
              have hnil : got = [] := eq_nil_of_length_eq_zero (by omega)
              subst hnil
              refine ⟨h.takeEof hself hne heof rfl ⟨⟨.inr ⟨?_,rfl⟩,not_mem_nil⟩,hg⟩,trivial⟩
              rw [htk]
              rfl
          · rename_i heof
            have hlen : n - 1 + ((got ++ [s.input.front]).length : ℤ) = c.target := by
              rw [length_append,length_singleton]
              push_cast
              omega
            have hD' : C 'D' ∉ got ++ [s.input.front] := by
              rw [mem_append,mem_singleton,not_or]
              exact ⟨hD,fun he => heof he.symm⟩
            refine ⟨h.takeByte hself hne heof ?_ ?_,?_⟩
            · split <;> rfl
            · rw [htk]
              split
              · refine ⟨⟨.inl ⟨rfl,hD',by simp⟩,?_⟩,hlen⟩
                rwa [dropLast_concat]
              · rename_i hnew
                refine ⟨rfl,hlen,hD',?_⟩
                rw [mem_append,mem_singleton,not_or]
                exact ⟨hnl,fun he => hnew he.symm⟩
            · trivial
      · rename_i hn
        exact ⟨h.goto (hmove rfl ⟨.of_read (.inr (by omega)) ht,hg⟩),trivial⟩
    | readDone c n got =>
      rw [hl] at ha htook
      cases ha
      refine ⟨h.goto fun i hi => ⟨by rwa [hl],?_⟩,trivial⟩
      obtain ⟨hend,hg⟩ := htook i hi
      exact ⟨hend,by omega⟩
    | _ => rw [hl] at ha; cases ha
  call := by
    intro s s' f k p l h hs
    change call s l = some s' at hs
    unfold call at hs
    split at hs
    · cases hs
      exact ⟨h.goto nofun,trivial,fun _ _ => trivial,fun h => h⟩
    · split at hs
      · rename_i c n hc
        cases hs
        refine ⟨⟨h.agrees,h.copied,h.calls.call (congrArg some hc.1) ?_,h.alive⟩,trivial,
          fun _ _ => trivial,fun h => h⟩
        exact ⟨rfl,by simp [hc.2],not_mem_nil,not_mem_nil⟩
      · cases hs
    · cases hs
  kill hk := hk.elim
  env := by
    intro _ _ _ _ _ e
    exact e.elim

omit [DecidableEq P] in
/-- A read that has ended has copied what it has taken, without the `^D`. -/
theorem Ended.copied {s : State} {f : P → Loc} {k : P → Bool} (h : Inv s f k) {c : ReadCall}
    {got : List UInt8} (he : Ended (ofCall s.taken c.id) c got) : got = ofCall s.copied c.id := by
  have hfilter := ofCall_filter s.taken (fun b => decide (b ≠ C 'D')) c.id
  rw [h.copied,hfilter]
  rcases he.took with ⟨ht,hD,-⟩ | ⟨ht,hgot⟩
  · rw [ht,eq_comm,filter_eq_self]
    intro b hb
    simp only [decide_eq_true_eq]
    rintro rfl
    exact hD hb
  · rw [ht,hgot]
    rfl

/-- The line discipline of the console, in every interleaving of interrupts and reads by
processes that are not killed.  The abstract console says which input is accepted after line
editing. -/
theorem console_line_discipline {buf : ℕ → UInt8} {w : World P State Loc Unit}
    (h : Reach code NoKill (World.init (start buf) .idle) w) :
    (count w.st.input.r w.st.input.w ≤ count w.st.input.r w.st.input.e ∧
      count w.st.input.r w.st.input.e ≤ INPUT_BUF) ∧
    (∀ p c cs w', w.pc p = .inside (.intr (c :: cs)) → c = C 'U' ∨ c = C 'H' ∨ c = DEL →
      w.step code (.run p) = some w' → w'.st.input.committed = w.st.input.committed) ∧
    w.st.taken.map Prod.snd ++ w.st.input.committed = (Discipline.run w.st.events).accepted ∧
    (w.st.copied = w.st.taken.filter fun e => e.2 ≠ C 'D') ∧
    (∀ p c r got, w.loc p = .readReturned c r got →
      r = got.length ∧ got = ofCall w.st.copied c.id ∧ newline ∉ got.dropLast ∧
        (0 < c.target → r = 0 → ofCall w.st.taken c.id = [C 'D'])) ∧
    (∀ p c n got w', w.pc p = .inside (.read c n got) → 0 < n → got ≠ [] →
      w.st.input.r ≠ w.st.input.w → w.st.input.front = C 'D' → w.step code (.run p) = some w' →
      w'.st = w.st ∧ w'.loc p = .readDone c n got) := by
  have hh := h.holds code_invariant (Locks.init _ _) (Holds.init (inv_start buf) trivial)
  have hinv := hh.inv
  refine ⟨⟨hinv.agrees.ordered.committed,hinv.agrees.ordered.bound⟩,?_,
    hinv.agrees.accepted.symm,hinv.copied,?_,?_⟩
  · intro p c cs w' hp hc hs
    simp only [World.step,World.run,hp] at hs
    cases hs
    exact committed_edit hinv.agrees.unfinished hc
  · intro p c r got hp
    have ht := hinv.calls.each p c.id (by rw [hp]; rfl)
    rw [hp] at ht
    obtain ⟨hend,hr⟩ := ht
    refine ⟨hr,hend.copied hinv,hend.newline,fun hpos h0 => ?_⟩
    rcases hend.took with ⟨-,-,hne⟩ | ⟨heof,-⟩
    · exact absurd (eq_nil_of_length_eq_zero (by omega)) (hne hpos)
    · exact heof
  · intro p c n got w' hp hn hgot hne heof hs
    have ht := hinv.calls.each p c.id (by rw [World.loc,hp]; rfl)
    rw [World.loc,hp] at ht
    have hlt : n < c.target := by
      have := length_pos_iff.mpr hgot
      have := ht.2.1
      omega
    simp only [World.step,World.run,hp,code,next,if_pos hn,if_neg hne,if_pos heof,
      if_pos hlt,putBack_advance,Option.map_some,Option.some.injEq] at hs
    subst hs
    exact ⟨rfl,by simp [World.loc,World.act,World.goto,Place.loc]⟩

def typeAndRead : List (Move (Fin 2) Loc Empty) :=
  [.call 0 (.read ⟨0,5⟩ 5 [])] ++ replicate 6 (.run 0) ++
    [.call 1 (.intr [97, 98, C 'H', 13, C 'D'])] ++ replicate 13 (.run 1) ++
    replicate 6 (.run 0)

theorem console_line_discipline_two : ∃ w : World (Fin 2) State Loc Unit,
    (World.init (start fun _ => 0) .idle).exec code typeAndRead = some w ∧
      w.loc 0 = .readReturned ⟨0,5⟩ 2 [97, newline] ∧ ofCall w.st.copied 0 = [97, newline] ∧
      [97, newline] ++ w.st.input.committed = (Discipline.run w.st.events).accepted := by
  obtain ⟨w,hw,hl,ht⟩ : ∃ w ∈ (World.init (start fun _ => 0) .idle :
      World (Fin 2) State Loc Unit).exec code typeAndRead,
      w.loc 0 = .readReturned ⟨0,5⟩ 2 [97, newline] ∧
        w.st.taken.map Prod.snd = [97, newline] := by decide +kernel
  have hok : (World.init (start fun _ => 0) .idle :
      World (Fin 2) State Loc Unit).Allows code NoKill typeAndRead := by decide +kernel
  obtain ⟨-,-,hacc,-,hret,-⟩ := console_line_discipline (Reach.of_allows .init hok hw)
  rw [ht] at hacc
  exact ⟨w,hw,hl,(hret 0 ⟨0,5⟩ 2 _ hl).2.1.symm,hacc⟩

end Xv6.Console
