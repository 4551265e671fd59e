import Xv6.Dev.Ide

/-! # The disk queue serves the requests in order

What holds of `idequeue`, of the command in progress and of the disk in every interleaving of
calls of `iderw` with interrupts: the requests have the effect that the memory disk gives them
when they arrive. -/
namespace Xv6.Ide
open Monitor Linked Function List Option

variable {P B α : Type}

def State.waiting (s : State B α) : List B := s.pending.map Prod.fst

structure Queued (s : State B α) : Prop where
  holds : s.queue.Holds s.waiting
  nodup : s.waiting.Nodup
  requests : ∀ e ∈ s.pending,
    s.inCall e.1 = true ∧ Accepted (s.bufs e.1) ∧ e.2 = (s.bufs e.1).command
  finished : s.device.finished <+: s.arrivals.map Prod.snd
  served_le : s.served ≤ s.device.finished.length
  le_served : s.device.finished.length ≤ s.served + 1
  -- the device is busy with the command of the first request
  busy : ∀ c, s.device.busy = some c →
    s.device.finished.length = s.served ∧ ∃ b rest, s.pending = (b,c) :: rest
  noError : s.device.error = false

/-- The memory disk has completed the pending requests already: `m` is its state. -/
structure Replayed [DecidableEq B] (m₀ : Memory B α) (s : State B α) (m : Memory B α) : Prop where
  run : m₀.run s.events = some m
  dev : ∀ b ∈ s.waiting, (s.bufs b).dev = 1
  same : ∀ b, b ∉ s.waiting → m.bufs b = s.bufs b
  ahead : ∀ b ∈ s.waiting,
    m.bufs b = { s.bufs b with valid := true, dirty := false, data := (m.bufs b).data }
  disk : Replays (fun b => (m.bufs b).data) (s.device.disk 1)
    (s.arrivals.drop s.device.finished.length) m.memdisk
  -- the command of the first request may be completed before `ideintr` runs
  ready : ∀ b c rest, s.pending = (b,c) :: rest → s.device.finished.length = s.served + 1 →
    (m.bufs b).data = if (s.bufs b).dirty then (s.bufs b).data else s.device.buffer

def Loc.buf? : Loc B → Option B
  | append b | walk b _ | wait b _ => some b
  | _ => none

/-- What a process knows of its request. -/
def Local (s : State B α) : Loc B → Prop
  | .append b | .walk b _ => s.inCall b = true ∧ b ∉ s.waiting ∧ Fits (s.bufs b)
  | .wait b k => s.inCall b = true ∧ ∃ c, s.arrivals[k]? = some (b,c)
  | .leave b k | .returned b k => k < s.served ∧ ∃ c, s.arrivals[k]? = some (b,c)
  | _ => True

structure Procs (s : State B α) (f : P → Loc B) : Prop where
  each : ∀ p, Local s (f p)
  distinct : ∀ p q b, (f p).buf? = some b → (f q).buf? = some b → p = q

structure Inv [DecidableEq B] (m₀ : Memory B α) (s : State B α) (f : P → Loc B) : Prop where
  queued : Queued s
  replayed : ∃ m, Replayed m₀ s m
  procs : Procs s f

/-- While the lock is free, the first request has been given to the device. -/
def Started (s : State B α) : Prop :=
  s.pending ≠ [] → s.device.busy.isSome = true ∨ s.device.finished.length = s.served + 1

def Knows (s : State B α) : Loc B → Prop
  | .walk b pp =>
    Started s ∧ s.queue.next b = none ∧ ∃ l₁ l₂, s.waiting = l₁ ++ l₂ ∧ pp = linkAfter l₁
  | .intrWakeup _ | .intrStart =>
    s.device.busy = none ∧ s.device.finished.length = s.served
  | _ => Started s

/-- Where a call starts, or starts again after `sleep`. -/
def Starts : Loc B → Prop
  | .walk _ _ | .intrWakeup _ | .intrStart => False
  | _ => True

/-- An interrupt that finds a request comes after the device has completed its command, and the
device makes no errors. -/
def AfterCompletion (w : World P (State B α) (Loc B) B) : Move P (Loc B) (Env B α) → Prop
  | .run p => w.pc p = .inside .intr → w.st.queue.head ≠ none → w.st.device.busy = none
  | .env (.complete error) => error = false
  | _ => True

section Queue
variable {s : State B α} {b : B} {pp : Link B}

theorem Queued.served_le_length (h : Queued s) : s.served ≤ s.arrivals.length := by
  have := h.finished.length_le
  rw [length_map] at this
  exact h.served_le.trans this

theorem Queued.pending_of_head (h : Queued s) (hb : s.queue.head = some b) :
    ∃ c rest, s.pending = (b,c) :: rest := by
  have hh := h.holds.head_eq
  rw [hb,State.waiting] at hh
  cases hp : s.pending with
  | nil =>
    rw [hp] at hh
    cases hh
  | cons e rest =>
    rw [hp] at hh
    obtain rfl : b = e.1 := Option.some.inj hh
    exact ⟨e.2,rest,rfl⟩

/-- With no request waiting the device has nothing to do. -/
theorem Queued.idle (h : Queued s) (hp : s.pending = []) :
    s.device.busy = none ∧ s.device.finished.length = s.served := by
  have hle := h.finished.length_le
  rw [length_map] at hle
  have hlen : s.arrivals.length ≤ s.served := drop_eq_nil_iff.mp hp
  refine ⟨?_,le_antisymm (hle.trans hlen) h.served_le⟩
  cases hb : s.device.busy with
  | none => rfl
  | some c =>
    obtain ⟨-,b,rest,hr⟩ := h.busy c hb
    rw [hp] at hr
    cases hr

theorem waiting_eq_nil : s.waiting = [] ↔ s.pending = [] := map_eq_nil_iff

theorem Queued.setNext [DecidableEq B] (h : Queued s) (hb : b ∉ s.waiting) :
    Queued { s with queue := s.queue.set (.next b) none } :=
  ⟨h.holds.setNext hb none,h.nodup,h.requests,h.finished,h.served_le,h.le_served,h.busy, h.noError⟩

theorem arrive_eq [DecidableEq B] (h : Queued s) (hb : b ∉ s.waiting) (hf : Accepted (s.bufs b))
    (hn : s.queue.next b = none) :
    (s.queue.set (linkAfter s.waiting) (some b)).Holds (s.waiting ++ [b]) ∧
    s.arrive b (linkAfter s.waiting) = some { s with
        queue := s.queue.set (linkAfter s.waiting) (some b)
        arrivals := s.arrivals ++ [(b,(s.bufs b).command)]
        events := s.events ++ [.request b]
        device := if s.pending = [] then { s.device with busy := some (s.bufs b).command }
          else s.device } := by
  have hholds := h.holds.append h.nodup hb hn
  refine ⟨hholds,?_⟩
  unfold State.arrive
  simp only [hholds.head_eq]
  by_cases hp : s.pending = []
  · have hhead : (s.waiting ++ [b]).head? = some b := by
      rw [waiting_eq_nil.mpr hp]
      rfl
    rw [if_pos hhead,if_pos hp,Device.idestart_eq hf.blockno (h.idle hp).1]
    rfl
  · obtain ⟨c,l,hl⟩ := exists_cons_of_ne_nil (mt waiting_eq_nil.mp hp)
    rw [if_neg hp,if_neg]
    rw [hl]
    intro hc
    rw [hl] at hb
    exact hb (Option.some.inj hc ▸ mem_cons_self)

end Queue

section Steps
variable {s s' : State B α} {b : B} {m m₀ : Memory B α}

structure Arrived (s s' : State B α) (b : B) : Prop where
  holds : s'.queue.Holds (s.waiting ++ [b])
  bufs : s'.bufs = s.bufs
  inCall : s'.inCall = s.inCall
  arrivals : s'.arrivals = s.arrivals ++ [(b,(s.bufs b).command)]
  served : s'.served = s.served
  events : s'.events = s.events ++ [.request b]
  device : s'.device = if s.pending = [] then { s.device with busy := some (s.bufs b).command }
    else s.device

theorem arrived [DecidableEq B] (h : Queued s) (hb : b ∉ s.waiting) (hf : Accepted (s.bufs b))
    (hn : s.queue.next b = none) (hs : s.arrive b (linkAfter s.waiting) = some s') :
    Arrived s s' b := by
  obtain ⟨hholds,heq⟩ := arrive_eq h hb hf hn
  rw [heq] at hs
  cases hs
  exact ⟨hholds,rfl,rfl,rfl,rfl,rfl,rfl⟩

namespace Arrived
variable (ha : Arrived s s' b)
include ha

theorem pending (h : Queued s) : s'.pending = s.pending ++ [(b,(s.bufs b).command)] := by
  rw [State.pending,ha.arrivals,ha.served,drop_append_of_le_length h.served_le_length]
  rfl

theorem waiting (h : Queued s) : s'.waiting = s.waiting ++ [b] := by
  rw [State.waiting,ha.pending h,map_append]
  rfl

theorem unchanged : s'.device.finished = s.device.finished ∧ s'.device.disk = s.device.disk ∧
    s'.device.buffer = s.device.buffer := by
  rw [ha.device]
  split <;> exact ⟨rfl,rfl,rfl⟩

theorem finished : s'.device.finished = s.device.finished := ha.unchanged.1

/-- The first request stays the first. -/
theorem first (h : Queued s) (hn : s.device.finished.length = s.served + 1) {e : B × Cmd α}
    {rest : List (B × Cmd α)} (hr : s'.pending = e :: rest) : ∃ l, s.pending = e :: l := by
  have hne : s.pending ≠ [] := fun hp => by
    have := (h.idle hp).2
    omega
  obtain ⟨e',l,hl⟩ := exists_cons_of_ne_nil hne
  rw [ha.pending h,hl] at hr
  obtain ⟨rfl,-⟩ := List.cons.inj hr
  exact ⟨l,hl⟩

theorem queued (h : Queued s) (hb : b ∉ s.waiting) (hc : s.inCall b = true)
    (hf : Accepted (s.bufs b)) : Queued s' where
  holds := by
    rw [ha.waiting h]
    exact ha.holds
  nodup := by
    rw [ha.waiting h]
    exact h.nodup.append (nodup_singleton b) (by simpa using hb)
  requests := by
    rw [ha.pending h,ha.inCall,ha.bufs]
    intro e he
    rcases mem_append.mp he with he | he
    · exact h.requests e he
    · obtain rfl := mem_singleton.mp he
      exact ⟨hc,hf,rfl⟩
  finished := by
    rw [ha.finished,ha.arrivals,map_append]
    exact h.finished.trans (prefix_append _ _)
  served_le := by
    rw [ha.finished,ha.served]
    exact h.served_le
  le_served := by
    rw [ha.finished,ha.served]
    exact h.le_served
  busy := by
    intro c hc
    rw [ha.finished,ha.served,ha.pending h]
    rw [ha.device] at hc
    split at hc
    · rename_i hp
      obtain rfl := Option.some.inj hc
      exact ⟨(h.idle hp).2,b,[],by rw [hp]; rfl⟩
    · obtain ⟨hn,b',rest,hr⟩ := h.busy c hc
      exact ⟨hn,b',rest ++ [(b,(s.bufs b).command)],by rw [hr]; rfl⟩
  noError := by
    rw [ha.device]
    split
    · exact h.noError
    · exact h.noError

theorem started (hstart : Started s) : Started s' := by
  intro _
  rw [ha.finished,ha.served,ha.device]
  split
  · exact .inl rfl
  · exact hstart ‹_›

/-- The memory disk completes the request. -/
theorem replayed [DecidableEq B] (h : Queued s) (hm : Replayed m₀ s m) (hb : b ∉ s.waiting)
    (hf : Fits (s.bufs b)) : ∃ m', Replayed m₀ s' m' := by
  have hle : s.device.finished.length ≤ s.arrivals.length := by
    simpa using h.finished.length_le
  have hsame := hm.same b hb
  -- what both kinds of requests have in common
  have hcommon : ∀ (m' : Memory B α) (x : α), m.iderw b = some m' →
      m'.bufs = update m.bufs b { s.bufs b with valid := true, dirty := false, data := x } →
      Replays (fun b => (m'.bufs b).data) m.memdisk [(b,(s.bufs b).command)] m'.memdisk →
      Replayed m₀ s' m' := by
    intro m' x hrw hbufs hdisk
    have hother : ∀ c, c ≠ b → m'.bufs c = m.bufs c := fun c hc => by
      rw [hbufs,update_of_ne hc]
    have hmem : ∀ c ∈ s.waiting, c ≠ b := fun c hc => ne_of_mem_of_not_mem hc hb
    refine ⟨?_,fun c hc => ?_,fun c hc => ?_,fun c hc => ?_,?_,fun c d rest hr hn => ?_⟩
    · rw [ha.events,Memory.run_append hm.run]
      exact hrw
    · rw [ha.waiting h,mem_append,mem_singleton] at hc
      rw [ha.bufs]
      rcases hc with hc | rfl
      · exact hm.dev c hc
      · exact hf.dev
    · rw [ha.waiting h,mem_append,mem_singleton,not_or] at hc
      rw [hother c hc.2,ha.bufs]
      exact hm.same c hc.1
    · rw [ha.waiting h,mem_append,mem_singleton] at hc
      rw [ha.bufs]
      rcases hc with hc | rfl
      · rw [hother c (hmem c hc)]
        exact hm.ahead c hc
      · rw [hbufs,update_self]
    · rw [ha.finished,ha.arrivals,drop_append_of_le_length hle]
      refine Replays.append (Replays.congr (r := fun b => (m.bufs b).data) ?_ fun e he => ?_) hdisk
      · rw [ha.unchanged.2.1]
        exact hm.disk
      · have hin : e ∈ s.pending := drop_subset_drop_left _ h.served_le he
        rw [hother e.1 (hmem e.1 (mem_map_of_mem hin))]
    · rw [ha.finished,ha.served] at hn
      obtain ⟨l,hl⟩ := ha.first h hn hr
      have hin : c ∈ s.waiting := by
        rw [State.waiting,hl]
        exact mem_cons_self
      rw [hother c (hmem c hin),ha.bufs,ha.unchanged.2.2]
      exact hm.ready c d l hl hn
  have hclean := hf.not_clean
  have hrange : ¬ FSSIZE ≤ (s.bufs b).blockno := Nat.not_le.mpr hf.blockno
  cases hd : (s.bufs b).dirty with
  | true =>
    refine ⟨⟨update m.memdisk (s.bufs b).blockno (s.bufs b).data,update m.bufs b
      { s.bufs b with valid := true, dirty := false, data := (s.bufs b).data }⟩,
      hcommon _ (s.bufs b).data ?_ rfl ?_⟩
    · simp [Memory.iderw,hsame,hclean,hf.dev,hrange,hd]
    · rw [hf.command,hd]
      exact ⟨by simp,rfl⟩
  | false =>
    refine ⟨⟨m.memdisk,update m.bufs b { s.bufs b with
      valid := true, dirty := false, data := m.memdisk (s.bufs b).blockno }⟩,
      hcommon _ (m.memdisk (s.bufs b).blockno) ?_ rfl ?_⟩
    · simp [Memory.iderw,hsame,hclean,hf.dev,hrange,hd]
    · rw [hf.command,hd]
      exact ⟨by simp,rfl⟩

end Arrived
structure Took [DecidableEq B] (s s' : State B α) (b : B) : Prop where
  bufs : s'.bufs = update s.bufs b { s.bufs b with
    valid := true
    dirty := false
    data := if (s.bufs b).dirty then (s.bufs b).data else s.device.buffer }
  queue : s'.queue = { s.queue with head := s.queue.next b }
  device : s'.device = s.device
  inCall : s'.inCall = s.inCall
  arrivals : s'.arrivals = s.arrivals
  served : s'.served = s.served + 1
  events : s'.events = s.events

section Took
variable [DecidableEq B] {c : Cmd α} {rest : List (B × Cmd α)}

theorem took (h : Queued s) (hb : s.device.busy = none) (hs : s.take b = some s') :
    Took s s' b := by
  rw [State.take,Device.insl_eq hb h.noError] at hs
  cases hs
  exact ⟨rfl,rfl,rfl,rfl,rfl,rfl,rfl⟩

namespace Took
variable (ht : Took s s' b)
include ht

theorem pending (hp : s.pending = (b,c) :: rest) : s'.pending = rest := by
  rw [State.pending,ht.arrivals,ht.served,← drop_drop]
  change List.drop 1 s.pending = rest
  rw [hp]
  rfl

theorem waiting (hp : s.pending = (b,c) :: rest) : s.waiting = b :: s'.waiting := by
  rw [State.waiting,State.waiting,ht.pending hp,hp]
  rfl

theorem others (h : Queued s) (hp : s.pending = (b,c) :: rest) : ∀ d ∈ s'.waiting, d ≠ b := by
  have hnodup := h.nodup
  rw [ht.waiting hp,nodup_cons] at hnodup
  exact fun d hd => ne_of_mem_of_not_mem hd hnodup.1

theorem queued (h : Queued s) (hp : s.pending = (b,c) :: rest)
    (hb : s.device.busy = none) (hn : s.device.finished.length = s.served + 1) : Queued s' := by
  have hholds := h.holds
  have hnodup := h.nodup
  rw [ht.waiting hp] at hholds hnodup
  refine ⟨?_,hnodup.of_cons,fun e he => ?_,?_,?_,?_,?_,?_⟩
  · rw [ht.queue]
    exact hholds.pop
  · have hne := ht.others h hp e.1 (mem_map_of_mem he)
    rw [ht.pending hp] at he
    rw [ht.inCall,ht.bufs,update_of_ne hne]
    exact h.requests e (hp ▸ mem_cons_of_mem _ he)
  · rw [ht.device,ht.arrivals]
    exact h.finished
  · rw [ht.device,ht.served,hn]
  · rw [ht.device,ht.served,hn]
    exact Nat.le_succ _
  · rw [ht.device,hb]
    nofun
  · rw [ht.device]
    exact h.noError

/-- The buffer gets what the memory disk has given it. -/
theorem replayed (h : Queued s) (hm : Replayed m₀ s m)
    (hp : s.pending = (b,c) :: rest) (hn : s.device.finished.length = s.served + 1) :
    Replayed m₀ s' m := by
  have hw := ht.waiting hp
  have hne := ht.others h hp
  refine ⟨by rw [ht.events]; exact hm.run,fun d hd => ?_,fun d hd => ?_,fun d hd => ?_,?_,
    fun d e l _ hl => ?_⟩
  · rw [ht.bufs,update_of_ne (hne d hd)]
    exact hm.dev d (hw ▸ mem_cons_of_mem _ hd)
  · by_cases hdb : d = b
    · subst hdb
      rw [ht.bufs,update_self,hm.ahead d (hw ▸ mem_cons_self), hm.ready d c rest hp hn]
    · rw [ht.bufs,update_of_ne hdb]
      refine hm.same d ?_
      rw [hw,mem_cons,not_or]
      exact ⟨hdb,hd⟩
  · rw [ht.bufs,update_of_ne (hne d hd)]
    exact hm.ahead d (hw ▸ mem_cons_of_mem _ hd)
  · rw [ht.device,ht.arrivals]
    exact hm.disk
  · rw [ht.device,ht.served] at hl
    omega

end Took
end Took

theorem Queued.start {c : Cmd α} {rest : List (B × Cmd α)} (h : Queued s)
    (hp : s.pending = (b,c) :: rest) (hn : s.device.finished.length = s.served) :
    Queued { s with device := { s.device with busy := some (s.bufs b).command } } := by
  refine ⟨h.holds,h.nodup,h.requests,h.finished,h.served_le,h.le_served,fun d hd => ?_, h.noError⟩
  obtain rfl := Option.some.inj hd
  refine ⟨hn,b,rest,?_⟩
  have hc : c = (s.bufs b).command := (h.requests (b,c) (hp ▸ mem_cons_self)).2.2
  rw [← hc]
  exact hp

/-- The device completes the command of the first request. -/
theorem Queued.complete {d : Device α} (h : Queued s) (hd : s.device.complete false = some d) :
    Queued { s with device := d } := by
  obtain ⟨c,hc,rfl⟩ := Device.complete_eq hd
  obtain ⟨hn,b,rest,hp⟩ := h.busy c hc
  have hfin : (s.device.perform c).finished = s.device.finished := by cases c <;> rfl
  refine ⟨h.holds,h.nodup,h.requests,?_,?_,?_,nofun,rfl⟩
  · obtain ⟨t,ht⟩ := h.finished
    have hdrop : t = c :: rest.map Prod.snd := by
      have := congrArg (List.drop s.served) ht
      rw [← hn,drop_left,hn,← map_drop] at this
      rw [this]
      change List.map Prod.snd s.pending = _
      rw [hp]
      rfl
    refine ⟨rest.map Prod.snd,?_⟩
    rw [← ht,hdrop,append_assoc]
    rfl
  · rw [length_append,hn]
    exact Nat.le_succ _
  · rw [length_append,hn]
    rfl

theorem Replayed.complete [DecidableEq B] {d : Device α} (h : Queued s) (hm : Replayed m₀ s m)
    (hd : s.device.complete false = some d) : Replayed m₀ { s with device := d } m := by
  obtain ⟨c,hc,rfl⟩ := Device.complete_eq hd
  obtain ⟨hn,b,rest,hp⟩ := h.busy c hc
  obtain ⟨-,hacc,hcmd⟩ := h.requests (b,c) (hp ▸ mem_cons_self)
  have hf : Fits (s.bufs b) := ⟨hacc,hm.dev b (by rw [State.waiting,hp]; exact mem_cons_self)⟩
  have hdisk := hm.disk
  rw [hn] at hdisk
  change Replays _ _ s.pending _ at hdisk
  have hrest : s.arrivals.drop (s.device.finished ++ [c]).length = rest := by
    rw [length_append,hn,← drop_drop]
    change List.drop 1 s.pending = rest
    rw [hp]
    rfl
  rw [hp] at hdisk
  rw [hf.command] at hcmd
  refine ⟨hm.run,hm.dev,hm.same,hm.ahead,?_,fun b' c' rest' hp' _ => ?_⟩
  · rw [hrest]
    split at hcmd
    · subst hcmd
      change Replays _ (update s.device.disk 1 _ 1) _ _
      rw [update_self]
      exact hdisk.2
    · subst hcmd
      exact hdisk.2
  · obtain ⟨hbc,-⟩ := List.cons.inj (hp.symm.trans hp')
    obtain ⟨rfl,rfl⟩ := Prod.mk.inj hbc
    split at hcmd
    · subst hcmd
      rw [if_pos ‹_›]
      exact hdisk.1
    · subst hcmd
      rw [if_neg ‹_›]
      exact hdisk.1

theorem Queued.not_waiting (h : Queued s) (hb : s.inCall b = false) : b ∉ s.waiting := by
  intro hm
  obtain ⟨e,he,rfl⟩ := mem_map.mp hm
  rw [(h.requests e he).1] at hb
  cases hb

section Edit
variable [DecidableEq B]

/-- The holder of a buffer that is in no call changes it. -/
theorem Queued.edit (h : Queued s) (hb : s.inCall b = false) (x : Buf α) :
    Queued { s with bufs := update s.bufs b x, events := s.events ++ [.edit b x] } := by
  refine ⟨h.holds,h.nodup,fun e he => ?_,h.finished,h.served_le,h.le_served,h.busy,h.noError⟩
  have hne : e.1 ≠ b := ne_of_mem_of_not_mem (mem_map_of_mem he) (h.not_waiting hb)
  change _ ∧ Accepted (update s.bufs b x e.1) ∧ e.2 = (update s.bufs b x e.1).command
  rw [update_of_ne hne]
  exact h.requests e he

theorem Replayed.edit (h : Queued s) (hm : Replayed m₀ s m) (hb : s.inCall b = false) (x : Buf α) :
    Replayed m₀ { s with bufs := update s.bufs b x, events := s.events ++ [.edit b x] }
      { m with bufs := update m.bufs b x } := by
  have hmem : ∀ c ∈ s.waiting, c ≠ b := fun c hc => ne_of_mem_of_not_mem hc (h.not_waiting hb)
  refine ⟨Memory.run_append hm.run _,fun c hc => ?_,fun c hc => ?_,fun c hc => ?_,?_,
    fun c d rest hp hn => ?_⟩
  · simp only [update_of_ne (hmem c hc)]
    exact hm.dev c hc
  · change update m.bufs b x c = update s.bufs b x c
    by_cases hcb : c = b
    · rw [hcb,update_self,update_self]
    · rw [update_of_ne hcb,update_of_ne hcb]
      exact hm.same c hc
  · simp only [update_of_ne (hmem c hc)]
    exact hm.ahead c hc
  · refine Replays.congr hm.disk fun e he => ?_
    have hin : e ∈ s.pending := drop_subset_drop_left _ h.served_le he
    simp only [update_of_ne (hmem e.1 (mem_map_of_mem hin))]
  · have hin : c ∈ s.waiting := mem_map.mpr ⟨(c,d),hp ▸ mem_cons_self,rfl⟩
    simp only [update_of_ne (hmem c hin)]
    exact hm.ready c d rest hp hn

theorem Queued.setInCall (h : Queued s) {x : Bool} (hx : x = true ∨ b ∉ s.waiting) :
    Queued { s with inCall := update s.inCall b x } := by
  refine ⟨h.holds,h.nodup,fun e he => ⟨?_,(h.requests e he).2⟩,h.finished,h.served_le,
    h.le_served,h.busy,h.noError⟩
  change update s.inCall b x e.1 = true
  by_cases heb : e.1 = b
  · rw [heb,update_self]
    exact hx.resolve_right (not_not.mpr (heb ▸ mem_map_of_mem he))
  · rw [update_of_ne heb]
    exact (h.requests e he).1

end Edit
end Steps

section Processes
variable {s s' : State B α} {f : P → Loc B} {p : P} {l : Loc B}

/-- What a process knows stays true when another request is made or completed. -/
theorem Local.keep (h : Local s l)
    (hc : ∀ b, l.buf? = some b → s.inCall b = true → s'.inCall b = true)
    (hw : ∀ b, l.buf? = some b → s.inCall b = true → b ∉ s.waiting →
      b ∉ s'.waiting ∧ s'.bufs b = s.bufs b)
    (ha : s.arrivals <+: s'.arrivals) (hs : s.served ≤ s'.served) : Local s' l := by
  have harr : ∀ {k : ℕ} {b : B}, (∃ c, s.arrivals[k]? = some (b,c)) → ∃ c, s'.arrivals[k]? = some (b,c) := by
    rintro k b ⟨c,hk⟩
    refine ⟨c,?_⟩
    obtain ⟨t,ht⟩ := ha
    rw [← ht,List.getElem?_append_left (List.getElem?_eq_some_iff.mp hk).1]
    exact hk
  have hbuf : ∀ b, l.buf? = some b → s.inCall b = true ∧ b ∉ s.waiting ∧ Fits (s.bufs b) →
      s'.inCall b = true ∧ b ∉ s'.waiting ∧ Fits (s'.bufs b) := by
    rintro b hb ⟨h1,h2,h3⟩
    obtain ⟨h4,h5⟩ := hw b hb h1 h2
    exact ⟨hc b hb h1,h4,h5 ▸ h3⟩
  cases l with
  | append b => exact hbuf b rfl h
  | walk b pp => exact hbuf b rfl h
  | wait b k => exact ⟨hc b rfl h.1,harr h.2⟩
  | leave b k => exact ⟨h.1.trans_le hs,harr h.2⟩
  | returned b k => exact ⟨h.1.trans_le hs,harr h.2⟩
  | _ => trivial

theorem Procs.local_of (h : Procs s f) (hp : f p = l) : Local s l := hp ▸ h.each p

/-- A process takes a buffer that no other process has. -/
theorem Procs.take [DecidableEq P] (h : Procs s f) (hl : Local s' l)
    (hb : ∀ q b, q ≠ p → l.buf? = some b → (f q).buf? ≠ some b)
    (hk : ∀ q, q ≠ p → Local s (f q) → Local s' (f q)) : Procs s' (update f p l) := by
  refine ⟨fun q => ?_,fun q r b hq hr => ?_⟩
  · by_cases hqp : q = p
    · rw [hqp,update_self]
      exact hl
    · rw [update_of_ne hqp]
      exact hk q hqp (h.each q)
  · by_cases hqp : q = p
    · by_cases hrp : r = p
      · rw [hqp,hrp]
      · rw [hqp,update_self] at hq
        rw [update_of_ne hrp] at hr
        exact absurd hr (hb r b hrp hq)
    · rw [update_of_ne hqp] at hq
      by_cases hrp : r = p
      · rw [hrp,update_self] at hr
        exact absurd hq (hb q b hqp hr)
      · rw [update_of_ne hrp] at hr
        exact h.distinct q r b hq hr

theorem Procs.move [DecidableEq P] (h : Procs s f) (hl : Local s' l)
    (hb : ∀ b, l.buf? = some b → (f p).buf? = some b)
    (hk : ∀ q, q ≠ p → Local s (f q) → Local s' (f q)) : Procs s' (update f p l) :=
  h.take hl (fun q b hq hlb hqb => hq (h.distinct q p b hqb (hb b hlb))) hk

/-- A process goes on and changes nothing that the others know. -/
theorem Procs.goto [DecidableEq P] (h : Procs s f) (hl : Local s l)
    (hb : ∀ b, l.buf? = some b → (f p).buf? = some b) : Procs s (update f p l) :=
  h.move hl hb fun _ _ h => h

end Processes

section Code
variable [DecidableEq P] [DecidableEq B] {m₀ : Memory B α} {s s' : State B α} {f : P → Loc B} {p : P}
  {b : B}

omit [DecidableEq P] [DecidableEq B] in
theorem Procs.other (h : Procs s f) (hp : (f p).buf? = some b) {q : P} (hq : q ≠ p) {c : B}
    (hc : (f q).buf? = some c) : c ≠ b := by
  rintro rfl
  exact hq (h.distinct q p c hc hp)

/-- The first step of `iderw` with the lock. -/
theorem Inv.append (h : Inv m₀ s f) (hp : f p = .append b) :
    Inv m₀ { s with queue := s.queue.set (.next b) none } (update f p (.walk b .head)) := by
  obtain ⟨hq,⟨m,hm⟩,hl⟩ := h
  have hloc := hl.local_of hp
  exact ⟨hq.setNext hloc.2.1,⟨m,hm.run,hm.dev,hm.same,hm.ahead,hm.disk,hm.ready⟩,
    hl.move hloc (by rw [hp]; exact fun _ h => h) fun q _ hk => hk⟩

theorem Inv.arrive (h : Inv m₀ s f) {pp : Link B} (hp : f p = .walk b pp)
    (ha : Arrived s s' b) : Inv m₀ s' (update f p (.wait b s.arrivals.length)) := by
  obtain ⟨hq,⟨m,hm⟩,hl⟩ := h
  have hself : (f p).buf? = some b := by rw [hp]; rfl
  obtain ⟨hc,hnot,hfit⟩ := hl.local_of hp
  refine ⟨ha.queued hq hnot hc hfit.toAccepted,ha.replayed hq hm hnot hfit,hl.move ⟨?_,?_⟩ ?_ ?_⟩
  · rw [ha.inCall]
    exact hc
  · refine ⟨(s.bufs b).command,?_⟩
    rw [ha.arrivals,List.getElem?_concat_length]
  · rw [hself]
    exact fun _ h => h
  · intro q hqp hk
    refine hk.keep (fun c _ hin => by rwa [ha.inCall]) (fun c hqc _ hw => ⟨?_,by rw [ha.bufs]⟩)
      (by rw [ha.arrivals]; exact prefix_append _ _) ha.served.ge
    rw [ha.waiting hq,mem_append,mem_singleton,not_or]
    exact ⟨hw,hl.other hself hqp hqc⟩

theorem Inv.take (h : Inv m₀ s f) {c : Cmd α} {rest : List (B × Cmd α)}
    (hp : s.pending = (b,c) :: rest) (hb : s.device.busy = none)
    (hn : s.device.finished.length = s.served + 1) (ht : Took s s' b) :
    Inv m₀ s' (update f p (.intrWakeup b)) := by
  obtain ⟨hq,⟨m,hm⟩,hl⟩ := h
  refine ⟨ht.queued hq hp hb hn,⟨m,ht.replayed hq hm hp hn⟩,hl.move trivial nofun ?_⟩
  intro q _ hk
  refine hk.keep (fun c _ hin => by rwa [ht.inCall]) (fun c _ _ hw => ?_)
    ⟨[],by rw [ht.arrivals,append_nil]⟩ (by rw [ht.served]; exact Nat.le_succ _)
  rw [ht.waiting hp,mem_cons,not_or] at hw
  exact ⟨hw.2,by rw [ht.bufs,update_of_ne hw.1]⟩

omit [DecidableEq P] in
/-- A request whose buffer is clean has been completed. -/
theorem Inv.served (h : Inv m₀ s f) {k : ℕ} (hp : f p = .wait b k)
    (hclean : (s.bufs b).clean = true) :
    b ∉ s.waiting ∧ k < s.served ∧ ∃ c, s.arrivals[k]? = some (b,c) := by
  obtain ⟨-,c,hk⟩ := h.procs.local_of hp
  have hnot : b ∉ s.waiting := by
    intro hw
    obtain ⟨e,he,rfl⟩ := mem_map.mp hw
    rw [(h.queued.requests e he).2.1.not_clean] at hclean
    cases hclean
  refine ⟨hnot,?_,c,hk⟩
  by_contra hlt
  refine hnot (mem_map.mpr ⟨(b,c),?_,rfl⟩)
  refine mem_of_getElem? (i := k - s.served) ?_
  rw [State.pending,List.getElem?_drop,Nat.add_sub_cancel' (Nat.le_of_not_lt hlt)]
  exact hk

theorem Inv.leave (h : Inv m₀ s f) {k : ℕ} (hp : f p = .wait b k)
    (hclean : (s.bufs b).clean = true) :
    Inv m₀ { s with inCall := update s.inCall b false } (update f p (.leave b k)) := by
  obtain ⟨hnot,hlt⟩ := h.served hp hclean
  obtain ⟨hq,⟨m,hm⟩,hl⟩ := h
  have hself : (f p).buf? = some b := by rw [hp]; rfl
  refine ⟨hq.setInCall (.inr hnot),⟨m,hm.run,hm.dev,hm.same,hm.ahead,hm.disk,hm.ready⟩,
    hl.move hlt nofun fun q hqp hk => ?_⟩
  refine hk.keep (fun c hqc hin => ?_) (fun _ _ _ h => ⟨h,rfl⟩) (prefix_refl _) le_rfl
  change update s.inCall b false c = true
  rwa [update_of_ne (hl.other hself hqp hqc)]

theorem Inv.goto (h : Inv m₀ s f) {l : Loc B} (hl : Local s l)
    (hb : ∀ b, l.buf? = some b → (f p).buf? = some b) : Inv m₀ s (update f p l) :=
  ⟨h.queued,h.replayed,h.procs.goto hl hb⟩

theorem Inv.call (h : Inv m₀ s f) (hc : s.inCall b = false) (hf : Fits (s.bufs b)) :
    Inv m₀ { s with inCall := update s.inCall b true } (update f p (.append b)) := by
  obtain ⟨hq,⟨m,hm⟩,hl⟩ := h
  -- no process has the buffer
  have hnone : ∀ q, (f q).buf? ≠ some b := by
    intro q hqb
    have hloc := hl.each q
    have hin : s.inCall b = true := by
      cases hfq : f q <;> rw [hfq] at hqb hloc <;> cases hqb <;> exact hloc.1
    rw [hc] at hin
    cases hin
  refine ⟨hq.setInCall (.inl rfl),⟨m,hm.run,hm.dev,hm.same,hm.ahead,hm.disk,hm.ready⟩,
    hl.take ⟨update_self _ _ _,hq.not_waiting hc,hf⟩ ?_ fun q _ hk => ?_⟩
  · rintro q c - ⟨⟩
    exact hnone q
  · refine hk.keep (fun c hqc hin => ?_) (fun _ _ _ h => ⟨h,rfl⟩) (prefix_refl _) le_rfl
    change update s.inCall b true c = true
    rwa [update_of_ne]
    rintro rfl
    exact hnone q hqc

omit [DecidableEq P] in
theorem Inv.get_walk (h : Inv m₀ s f) {pp : Link B} {l1 l2 : List B} (hw : s.waiting = l1 ++ l2)
    (hpp : pp = linkAfter l1) : s.queue.get pp = l2.head? := by
  have hholds := h.queued.holds
  rw [hw] at hholds
  rw [hpp]
  exact hholds.get_linkAfter.head

theorem code_act {w : World P (State B α) (Loc B) B} {a : Act (State B α) (Loc B) B}
    (hok : AfterCompletion w (.run p)) (hst : w.st = s) (hpc : w.pc p = .inside (f p))
    (h : Inv m₀ s f) (hk : Knows s (f p)) (ha : next s (f p) = some a) :
    Inv m₀ (a.st s) (update f p a.loc) ∧ a.Goes Knows Starts Started s := by
  have hloc := h.procs.each p
  generalize hl : f p = l at ha hk hpc hloc
  cases l with
  | append b =>
    cases ha
    exact ⟨h.append hl,hk,update_self _ _ _,[],s.waiting,rfl,rfl⟩
  | walk b pp =>
    obtain ⟨hstart,hnext,l1,l2,hw,hpp⟩ := hk
    have hget := h.get_walk hw hpp
    simp only [next,hget] at ha
    cases l2 with
    | cons c l2 =>
      cases ha
      refine ⟨h.goto hloc (by rw [hl]; exact fun _ h => h),hstart,hnext,l1 ++ [c],l2,?_,?_⟩
      · rw [hw,append_assoc]
        rfl
      · rw [linkAfter_append]
    | nil =>
      rw [append_nil] at hw
      subst hw
      obtain ⟨s',hs,rfl⟩ := map_eq_some_iff.mp ha
      rw [hpp] at hs
      have harr := arrived h.queued hloc.2.1 hloc.2.2.toAccepted hnext hs
      exact ⟨h.arrive hl harr,harr.started hstart⟩
  | wait b k =>
    cases ha
    split
    · exact ⟨h.leave hl ‹_›,hk⟩
    · exact ⟨h.goto hloc (by rw [hl]; exact fun _ h => h),trivial,hk⟩
  | leave b k =>
    cases ha
    exact ⟨h.goto hloc nofun,hk⟩
  | intr =>
    simp only [next] at ha
    cases hhead : s.queue.head with
    | none =>
      rw [hhead] at ha
      cases ha
      exact ⟨h.goto trivial nofun,hk⟩
    | some b =>
      rw [hhead] at ha
      obtain ⟨s',hs,rfl⟩ := map_eq_some_iff.mp ha
      obtain ⟨c,rest,hp⟩ := h.queued.pending_of_head hhead
      have hbusy : s.device.busy = none := by
        rw [← hst]
        exact hok hpc (by rw [hst,hhead]; nofun)
      have hn : s.device.finished.length = s.served + 1 := by
        refine (hk (by rw [hp]; exact cons_ne_nil _ _)).resolve_left ?_
        rw [hbusy]
        nofun
      have ht := took h.queued hbusy hs
      refine ⟨h.take hp hbusy hn ht,?_,?_⟩
      · rw [ht.device,hbusy]
      · rw [ht.device,ht.served,hn]
  | intrWakeup b =>
    cases ha
    exact ⟨h.goto trivial nofun,hk⟩
  | intrStart =>
    simp only [next] at ha
    cases hhead : s.queue.head with
    | none =>
      rw [hhead] at ha
      cases ha
      refine ⟨h.goto trivial nofun,fun hne => absurd ?_ hne⟩
      exact waiting_eq_nil.mp (h.queued.holds.eq_nil.mp hhead)
    | some b =>
      obtain ⟨c,rest,hp⟩ := h.queued.pending_of_head hhead
      have hfit := (h.queued.requests (b,c) (hp ▸ mem_cons_self)).2.1
      simp only [hhead,Device.idestart_eq hfit.blockno hk.1,map_some] at ha
      cases ha
      obtain ⟨m,hm⟩ := h.replayed
      exact ⟨⟨h.queued.start hp hk.2,⟨m,hm.run,hm.dev,hm.same,hm.ahead,hm.disk,hm.ready⟩,
        h.procs.move trivial nofun fun q _ hq => hq⟩,fun _ => .inl rfl⟩
  | intrDone =>
    cases ha
    exact ⟨h.goto trivial nofun,hk⟩
  | idle => cases ha
  | returned b k => cases ha

omit [DecidableEq B] in
/-- What the process with the lock knows of the queue stays true when the disk completes a
command. -/
theorem knows_complete (h : Queued s) {d : Device α} (hd : s.device.complete false = some d) :
    (∀ l, Knows s l → Knows { s with device := d } l) ∧
      (Started s → Started { s with device := d }) := by
  obtain ⟨c,hc,hd'⟩ := Device.complete_eq hd
  obtain ⟨hn,-⟩ := h.busy c hc
  have hstart : Started { s with device := d } := by
    intro _
    refine .inr ?_
    rw [hd']
    rw [length_append,hn]
    rfl
  refine ⟨fun l hk => ?_,fun _ => hstart⟩
  have hbusy : s.device.busy ≠ none := by
    rw [hc]
    nofun
  cases l with
  | walk b pp => exact ⟨hstart,hk.2⟩
  | intrWakeup b => exact absurd hk.1 hbusy
  | intrStart => exact absurd hk.1 hbusy
  | _ => exact hstart

theorem code_invariant :
    Invariant code (AfterCompletion (P := P)) (fun s (f : P → Loc B) _ => Inv m₀ s f)
      Knows Starts Started where
  enter := by
    intro s f k p _ hstart he
    cases hl : f p <;> rw [hl] at he <;> first | exact hstart | exact he.elim
  act hok hst hpc h hk ha := code_act hok hst hpc h hk ha
  call := by
    intro s s' f k p l h hs
    change call s l = some s' at hs
    unfold call at hs
    split at hs
    · split at hs
      · rename_i b hc
        cases hs
        refine ⟨h.call hc.1 hc.2,trivial,fun l hk => ?_,fun h => h⟩
        cases l <;> exact hk
      · cases hs
    · cases hs
      exact ⟨h.goto trivial nofun,trivial,fun _ h => h,fun h => h⟩
    · cases hs
  kill _ h := h
  env := by
    intro w s s' f k e hok h hs
    change env s e = some s' at hs
    obtain ⟨hq,⟨m,hm⟩,hl⟩ := h
    cases e with
    | complete error =>
      obtain rfl : error = false := hok
      obtain ⟨d,hd,rfl⟩ := map_eq_some_iff.mp hs
      exact ⟨⟨hq.complete hd,⟨m,hm.complete hq hd⟩,hl.each,hl.distinct⟩,knows_complete hq hd⟩
    | edit b x =>
      simp only [env] at hs
      split at hs
      · rename_i hb
        cases hs
        refine ⟨⟨hq.edit hb x,⟨_,hm.edit hq hb x⟩,fun q => ?_,hl.distinct⟩,fun l hk => ?_,
          fun h => h⟩
        · refine (hl.each q).keep (fun _ _ h => h) (fun c _ hin h => ⟨h,?_⟩) (prefix_refl _)
            le_rfl
          refine update_of_ne ?_ _ _
          rintro rfl
          rw [hb] at hin
          cases hin
        · cases l <;> exact hk
      · cases hs

omit [DecidableEq P] in
theorem inv_start (disk : ℕ → ℕ → α) (bufs : B → Buf α) (qnext : B → Option B) (buffer : α) :
    Inv ⟨disk 1,bufs⟩ (start disk bufs qnext buffer) fun _ : P => Loc.idle :=
  ⟨⟨.nil,nodup_nil,nofun, nil_prefix,le_rfl,Nat.le_succ _,nofun,rfl⟩,
    ⟨⟨disk 1,bufs⟩,rfl,nofun,fun _ _ => rfl,nofun,rfl,nofun⟩,fun _ => trivial,nofun⟩

omit [DecidableEq B] in
theorem Queued.finished_eq (h : Queued s) {k : ℕ} {c : Cmd α} (hk : s.arrivals[k]? = some (b,c))
    (hlt : k < s.device.finished.length) : s.device.finished[k]? = some c := by
  obtain ⟨t,ht⟩ := h.finished
  have happ : (s.device.finished ++ t)[k]? = s.device.finished[k]? := List.getElem?_append_left hlt
  rw [← happ,ht,List.getElem?_map,hk]
  rfl

/-- The disk queue serves each request once and in the order of arrival, in every interleaving of
calls of `iderw` on distinct buffers with interrupts, and the disk and the buffers get the
contents that the memory disk gives them. -/
theorem ide_serves_like_memide {disk : ℕ → ℕ → α} {bufs : B → Buf α} {qnext : B → Option B}
    {buffer : α} {w : World P (State B α) (Loc B) B}
    (h : Reach code AfterCompletion (World.init (start disk bufs qnext buffer) .idle) w) :
    (w.st.queue.Holds w.st.waiting ∧ w.st.waiting.Nodup) ∧
    (∀ c, w.st.device.busy = some c → ∃ b, w.st.queue.head = some b ∧ c = (w.st.bufs b).command) ∧
    (w.lock = none → ∀ b, w.st.queue.head = some b → w.st.device.busy = some (w.st.bufs b).command ∨
        w.st.device.finished[w.st.served]? = some (w.st.bufs b).command) ∧
    w.st.device.finished <+: w.st.arrivals.map Prod.snd ∧ (∀ p b k, w.loc p = .returned b k →
      ∃ c, w.st.arrivals[k]? = some (b,c) ∧ w.st.device.finished[k]? = some c) ∧
    ∃ m : Memory B α, Memory.run ⟨disk 1,bufs⟩ w.st.events = some m ∧
      (∀ b, b ∉ w.st.waiting → m.bufs b = w.st.bufs b) ∧
      Replays (fun b => (m.bufs b).data) (w.st.device.disk 1)
        (w.st.arrivals.drop w.st.device.finished.length) m.memdisk ∧
      (w.st.queue.head = none → m.memdisk = w.st.device.disk 1) := by
  have hh := h.holds code_invariant (Locks.init _ _)
    (Holds.init (inv_start disk bufs qnext buffer) fun hne => absurd rfl hne)
  have hstarted := hh.of_free (h.locks (Locks.init _ _))
  obtain ⟨hq,⟨m,hm⟩,hl⟩ := hh.inv
  refine ⟨⟨hq.holds,hq.nodup⟩,fun c hc => ?_,fun hfree b hb => ?_,hq.finished,
    fun p b k hp => ?_,m,hm.run,hm.same,hm.disk,fun hnone => ?_⟩
  · obtain ⟨-,b,rest,hp⟩ := hq.busy c hc
    refine ⟨b,?_,(hq.requests (b,c) (hp ▸ mem_cons_self)).2.2⟩
    rw [hq.holds.head_eq,State.waiting,hp]
    rfl
  · obtain ⟨c,rest,hp⟩ := hq.pending_of_head hb
    have hcmd : c = (w.st.bufs b).command := (hq.requests (b,c) (hp ▸ mem_cons_self)).2.2
    rw [← hcmd]
    rcases hstarted hfree (by rw [hp]; exact cons_ne_nil _ _) with hs | hn
    · obtain ⟨d,hd⟩ := isSome_iff_exists.mp hs
      obtain ⟨-,b',rest',hp'⟩ := hq.busy d hd
      obtain ⟨hbc,-⟩ := List.cons.inj (hp.symm.trans hp')
      rw [hd,(Prod.mk.inj hbc).2]
      exact .inl rfl
    · have hk : w.st.arrivals[w.st.served]? = some (b,c) := by
        have := congrArg (fun l => l[0]?) hp
        rwa [State.pending,List.getElem?_drop] at this
      exact .inr (hq.finished_eq hk (by omega))
  · obtain ⟨hlt,c,hk⟩ := hl.local_of hp
    exact ⟨c,hk,hq.finished_eq hk (hlt.trans_le hq.served_le)⟩
  · have hp := waiting_eq_nil.mp (hq.holds.eq_nil.mp hnone)
    have hdisk := hm.disk
    rw [(hq.idle hp).2] at hdisk
    change Replays _ _ w.st.pending _ at hdisk
    rw [hp] at hdisk
    exact hdisk

instance (w : World P (State B α) (Loc B) B) : ∀ m, Decidable (AfterCompletion w m)
  | .run p => inferInstanceAs (Decidable (w.pc p = .inside .intr → w.st.queue.head ≠ none →
      w.st.device.busy = none))
  | .env (.complete error) => inferInstanceAs (Decidable (error = false))
  | .env (.edit _ _) | .call _ _ | .kill _ => inferInstanceAs (Decidable True)

/-- Process `p` writes buffer `b` to block 5, and process `q` takes the interrupt. -/
def writeBlock (p q b : Fin 2) : List (Move (Fin 2) (Loc (Fin 2)) (Env (Fin 2) ℕ)) :=
  [.call p (.append b)] ++ List.replicate 8 (.run p) ++ [.env (.complete false), .call q .intr] ++
    List.replicate 7 (.run q) ++ List.replicate 5 (.run p)

def twoBuffers : State (Fin 2) ℕ :=
  start (fun _ _ => 0) (fun _ => ⟨false,true,1,5,7⟩) (fun _ => none) 0

theorem ide_serves_like_memide_write : ∃ w : World (Fin 2) (State (Fin 2) ℕ) (Loc (Fin 2)) (Fin 2),
    (World.init twoBuffers .idle).exec code (writeBlock 0 1 0) = some w ∧ w.loc 0 = .returned 0 0 ∧
      w.st.device.finished[0]? = some (.write 1 5 7) ∧ ∃ m : Memory (Fin 2) ℕ,
        Memory.run ⟨fun _ => 0,fun _ => ⟨false,true,1,5,7⟩⟩ [.request 0] = some m ∧
        m.memdisk = w.st.device.disk 1 := by
  obtain ⟨w,hw,hl,ha,hq,he⟩ : ∃ w ∈ (World.init twoBuffers .idle :
      World (Fin 2) (State (Fin 2) ℕ) (Loc (Fin 2)) (Fin 2)).exec code (writeBlock 0 1 0),
      w.loc 0 = .returned 0 0 ∧ w.st.arrivals = [(0,.write 1 5 7)] ∧ w.st.queue.head = none ∧
        w.st.events = [.request 0] := by
    decide +kernel
  have hok : (World.init twoBuffers .idle :
      World (Fin 2) (State (Fin 2) ℕ) (Loc (Fin 2)) (Fin 2)).Allows code AfterCompletion
        (writeBlock 0 1 0) := by
    decide +kernel
  obtain ⟨-,-,-,-,hret,m,hrun,-,-,hdisk⟩ :=
    ide_serves_like_memide (Reach.of_allows .init hok hw)
  obtain ⟨c,hc,hfin⟩ := hret 0 0 0 hl
  rw [ha] at hc
  cases hc
  rw [he] at hrun
  exact ⟨w,hw,hl,hfin,m,hrun,hdisk hq⟩

end Code

end Xv6.Ide
