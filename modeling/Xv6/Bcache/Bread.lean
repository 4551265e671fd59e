import Xv6.Bcache.Sharing
import Xv6.Dev.IdeQueue
import Xv6.Lib.Machine

/-! # `bread` and `bwrite` over the disk driver

Processes read, write and release buffers, the disk completes commands, with or without an
error, and interrupts.  A section under a spin lock is one step.  `bwrite` comes with the new
contents of the buffer, which its holder does not change otherwise. -/
namespace Xv6.Bread
open Linked Sharing Ide Bcache Function List Option

/-- Where a process is in `bread`, `bwrite` and `iderw`; `k` is the block that `bread` is for. -/
inductive Io where
  | run
  /-- in `bget` -/
  | get (dev blockno : ℕ)
  /-- in `bread`, after `bget` -/
  | got (dev blockno : ℕ) (b : Fin NBUF)
  /-- at the call of `iderw` -/
  | request (k : Option (ℕ × ℕ)) (b : Fin NBUF)
  /-- in `iderw`, waiting for the request -/
  | wait (k : Option (ℕ × ℕ)) (b : Fin NBUF)
  /-- `bread` has returned `b` -/
  | returned (dev blockno : ℕ) (b : Fin NBUF)
  deriving DecidableEq, Repr

def Io.idle : Io → Bool
  | run | returned _ _ _ => true
  | _ => false

inductive Action (α : Type) where
  | bread (dev blockno : ℕ)
  | acquiresleep
  /-- `if((b->flags & B_VALID) == 0)` -/
  | test
  | bwrite (b : Fin NBUF) (x : α)
  | iderw
  /-- the request of `iderw` is completed -/
  | wake
  | releasesleep (b : Fin NBUF)
  | brelse

inductive Move (P α : Type) where
  | proc (p : P) (a : Action α)
  | complete (error : Bool)
  | ideintr

/-- The buffer cache with the data of the buffers, the disk queue and the disks; `arrivals` and
`served` record the requests. -/
structure World (P α : Type) where
  share : Sharing.World P
  data : Fin NBUF → α
  queue : Queue (Fin NBUF)
  device : Device α
  io : P → Io
  arrivals : List (Fin NBUF × Cmd α)
  served : ℕ

variable {P α : Type} [DecidableEq P]

namespace World

def buf (w : World P α) (b : Fin NBUF) : Ide.Buf α :=
  let x := w.share.cache.buf b
  ⟨x.valid,x.dirty,x.dev,x.blockno,w.data b⟩

def ide (w : World P α) : State (Fin NBUF) α where
  bufs := w.buf
  queue := w.queue
  device := w.device
  inCall := fun _ => true
  arrivals := w.arrivals
  served := w.served
  events := []

def goto (w : World P α) (p : P) (c : Io) : World P α := { w with io := update w.io p c }

/-- The section of `iderw` up to its loop; there is no result when it panics. -/
def iderw (w : World P α) (p : P) (k : Option (ℕ × ℕ)) (b : Fin NBUF) : Option (World P α) :=
  let q := w.queue.set (.next b) none
  if Accepted (w.buf b) then
    (({ w.ide with queue := q } : State (Fin NBUF) α).arrive b (q.walk NBUF .head)).map fun s =>
      { w.goto p (.wait k b) with
        queue := s.queue
        device := s.device
        arrivals := s.arrivals }
  else none

/-- `ideintr` for the buffer in front, up to its `wakeup`. -/
def take (w : World P α) (b : Fin NBUF) : Option (World P α) :=
  (w.device.insl (w.buf b)).map fun x =>
    { w with
      share := { w.share with
        cache := w.share.cache.setBuf b { w.share.cache.buf b with valid := true, dirty := false } }
      data := update w.data b x
      queue := { w.queue with head := w.queue.next b }
      served := w.served + 1 }

/-- `if(idequeue != 0) idestart(idequeue);` -/
def start (w : World P α) : Option (World P α) :=
  match w.queue.head with
  | none => some w
  | some b => (w.device.idestart (w.buf b)).map fun d => { w with device := d }

def ideintr (w : World P α) : Option (World P α) :=
  match w.queue.head with
  | none => some w
  | some b => (w.take b).bind start

def proc (w : World P α) (p : P) : Action α → Option (World P α)
  | .bread dev blockno =>
    if (w.io p).idle then
      (w.share.step p (.bget dev blockno)).map fun sh => { w.goto p (.get dev blockno) with share := sh }
    else none
  | .acquiresleep =>
    match w.io p, w.share.pc p with
    | .get dev blockno, .wait b =>
      (w.share.step p .acquiresleep).map fun sh => { w.goto p (.got dev blockno b) with share := sh }
    | _, _ => none
  | .test =>
    match w.io p with
    | .got dev blockno b =>
      some (w.goto p (if (w.buf b).valid then .returned dev blockno b
        else .request (some (dev,blockno)) b))
    | _ => none
  | .bwrite b x =>
    if (w.io p).idle then
      (w.share.step p (.setFlags b (w.buf b).valid true)).map fun sh =>
        { w.goto p (.request none b) with share := sh, data := update w.data b x }
    else none
  | .iderw =>
    match w.io p with
    | .request k b => w.iderw p k b
    | _ => none
  | .wake =>
    match w.io p with
    | .wait k b =>
      if (w.buf b).clean then some (w.goto p (k.elim .run fun x => .returned x.1 x.2 b)) else none
    | _ => none
  | .releasesleep b =>
    if (w.io p).idle then
      (w.share.step p (.releasesleep b)).map fun sh => { w.goto p .run with share := sh }
    else none
  | .brelse =>
    if (w.io p).idle then
      (w.share.step p .brelse).map fun sh => { w.goto p .run with share := sh }
    else none

def step (w : World P α) : Move P α → Option (World P α)
  | .proc p a => w.proc p a
  | .complete error => (w.device.complete error).map fun d => { w with device := d }
  | .ideintr => w.ideintr

/-- After `binit`, with any contents of the disks and of the memory of the buffers. -/
def init (P : Type) (disk : ℕ → ℕ → α) (data : Fin NBUF → α) (qnext : Fin NBUF → Option (Fin NBUF))
    (buffer : α) : World P α where
  share := .init P
  data := data
  queue := ⟨none,qnext⟩
  device := ⟨disk,none,buffer,false,[]⟩
  io := fun _ => .run
  arrivals := []
  served := 0

end World

/-- The disks make no errors, interrupts for a request come after its command is completed, and
there are only the disks 0 and 1. -/
def Faultless (w : World P α) : Move P α → Prop
  | .complete error => error = false
  | .ideintr => w.queue.head ≠ none → w.device.busy = none
  | .proc _ (.bread dev _) => dev ≤ 1
  | .proc _ _ => True

instance (w : World P α) : ∀ m, Decidable (Faultless w m)
  | .complete error => inferInstanceAs (Decidable (error = false))
  | .ideintr => inferInstanceAs (Decidable (w.queue.head ≠ none → w.device.busy = none))
  | .proc _ (.bread dev _) => inferInstanceAs (Decidable (dev ≤ 1))
  | .proc _ .acquiresleep | .proc _ .test | .proc _ (.bwrite _ _) | .proc _ .iderw | .proc _ .wake
  | .proc _ (.releasesleep _) | .proc _ .brelse => inferInstanceAs (Decidable True)

/-- What the buffers have of the disks: a clean buffer has the contents of its block, and so has
the device for the first request, once its command is completed. -/
structure Data (s : State (Fin NBUF) α) : Prop where
  clean : ∀ b, (s.bufs b).clean = true →
    (s.bufs b).data = s.device.disk ((s.bufs b).dev % 2) (s.bufs b).blockno
  ready : ∀ b c rest, s.pending = (b,c) :: rest → s.device.finished.length = s.served + 1 →
    (if (s.bufs b).dirty then (s.bufs b).data else s.device.buffer)
      = s.device.disk ((s.bufs b).dev % 2) (s.bufs b).blockno

/-- The requests stay as they are, and a buffer that changes is not clean. -/
structure Edits (s s' : State (Fin NBUF) α) : Prop where
  queue : s'.queue = s.queue
  device : s'.device = s.device
  inCall : s'.inCall = s.inCall
  arrivals : s'.arrivals = s.arrivals
  served : s'.served = s.served
  bufs : ∀ b, s'.bufs b = s.bufs b ∨ (b ∉ s.waiting ∧ (s'.bufs b).clean = false)

section Edits
variable {s s' : State (Fin NBUF) α}
variable (h : Edits s s')
include h

theorem Edits.pending : s'.pending = s.pending := by
  rw [State.pending,h.arrivals,h.served]
  rfl

theorem Edits.bufs_eq {e : Fin NBUF × Cmd α} (he : e ∈ s.pending) : s'.bufs e.1 = s.bufs e.1 :=
  (h.bufs e.1).resolve_right fun hb => hb.1 (mem_map_of_mem he)

theorem Edits.queued (hq : Queued s) : Queued s' := by
  have hw : s'.waiting = s.waiting := by rw [State.waiting,h.pending]; rfl
  refine ⟨?_,?_,fun e he => ?_,?_,?_,?_,fun c hc => ?_,?_⟩
  · rw [h.queue,hw]
    exact hq.holds
  · rw [hw]
    exact hq.nodup
  · rw [h.pending] at he
    rw [h.inCall,h.bufs_eq he]
    exact hq.requests e he
  · rw [h.device,h.arrivals]
    exact hq.finished
  · rw [h.device,h.served]
    exact hq.served_le
  · rw [h.device,h.served]
    exact hq.le_served
  · rw [h.device] at hc
    rw [h.device,h.served,h.pending]
    exact hq.busy c hc
  · rw [h.device]
    exact hq.noError

theorem Edits.started (hs : Started s) : Started s' := by
  unfold Started
  rw [h.pending,h.device,h.served]
  exact hs

theorem Edits.data (hd : Data s) : Data s' := by
  refine ⟨fun b hc => ?_,fun b c rest hp hn => ?_⟩
  · rcases h.bufs b with hb | ⟨-,hb⟩
    · rw [hb] at hc ⊢
      rw [h.device]
      exact hd.clean b hc
    · rw [hb] at hc
      cases hc
  · rw [h.pending] at hp
    rw [h.device,h.served] at hn
    have hb := h.bufs_eq (e := (b,c)) (hp ▸ mem_cons_self)
    rw [h.device,hb]
    exact hd.ready b c rest hp hn

end Edits

/-- What a process knows of its buffer. -/
def At (sh : Sharing.World P) (p : P) : Io → Prop
  | .run => True
  | .get dev blockno => ∃ b, sh.pc p = .wait b ∧ sh.cache.label b = (dev,blockno)
  | .got dev blockno b =>
    sh.owner b = some p ∧ sh.pc p = .run ∧ sh.cache.label b = (dev,blockno)
  | .request k b | .wait k b =>
    sh.owner b = some p ∧ sh.pc p = .run ∧ ∀ x, k = some x → sh.cache.label b = x
  | .returned dev blockno b =>
    sh.owner b = some p ∧ sh.cache.label b = (dev,blockno) ∧ (sh.cache.buf b).valid = true

/-- What holds also in the middle of `ideintr`. -/
structure Core (w : World P α) : Prop where
  share : Sharing.Reach w.share
  queued : Queued w.ide
  owned : ∀ b ∈ w.ide.waiting, ∃ p k, w.io p = .wait k b
  each : ∀ p, At w.share p (w.io p)
  devs : ∀ b, (w.share.cache.buf b).dev ≤ 1
  data : Data w.ide

structure Inv (w : World P α) : Prop extends Core w where
  started : Started w.ide

/-- What a step of another process leaves to `q`. -/
structure Keeps (sh sh' : Sharing.World P) (q : P) : Prop where
  pc : sh'.pc q = sh.pc q
  owner : ∀ b, sh.owner b = some q → sh'.owner b = some q
  label : ∀ b, sh.owner b = some q ∨ sh.pc q = .wait b → sh'.cache.label b = sh.cache.label b
  valid : ∀ b, sh.owner b = some q → (sh.cache.buf b).valid = true → (sh'.cache.buf b).valid = true

omit [DecidableEq P] in
theorem At.keep {sh sh' : Sharing.World P} {q : P} {c : Io} (h : At sh q c) (hk : Keeps sh sh' q) :
    At sh' q c := by
  have hown : ∀ {k : Option (ℕ × ℕ)} {b : Fin NBUF}, sh.owner b = some q ∧ sh.pc q = .run ∧
      (∀ x, k = some x → sh.cache.label b = x) → sh'.owner b = some q ∧ sh'.pc q = .run ∧
      ∀ x, k = some x → sh'.cache.label b = x := by
    rintro k b ⟨h1,h2,h3⟩
    refine ⟨hk.owner b h1,hk.pc.trans h2,fun x hx => ?_⟩
    rw [hk.label b (.inl h1)]
    exact h3 x hx
  cases c with
  | run => trivial
  | get dev blockno =>
    obtain ⟨b,h1,h2⟩ := h
    exact ⟨b,hk.pc.trans h1,(hk.label b (.inr h1)).trans h2⟩
  | got dev blockno b =>
    obtain ⟨h1,h2,h3⟩ := h
    exact ⟨hk.owner b h1,hk.pc.trans h2,(hk.label b (.inl h1)).trans h3⟩
  | request k b => exact hown h
  | wait k b => exact hown h
  | returned dev blockno b =>
    obtain ⟨h1,h2,h3⟩ := h
    exact ⟨hk.owner b h1,(hk.label b (.inl h1)).trans h2,hk.valid b h1 h3⟩

section Sharing
variable [Fintype P] {sh sh' : Sharing.World P} {p q : P} {b : Fin NBUF}

section
variable (h : Sharing.Reach sh)
include h

/-- A buffer that a process has, or waits for, is in use. -/
theorem refcnt_pos (hb : sh.owner b = some q ∨ sh.pc q = .wait b) :
    0 < (sh.cache.buf b).refcnt := by
  obtain ⟨l,hl⟩ := Sharing.Inv.reach h
  rcases hb with hb | hb
  · have := hl.count b
    simp only [users,hb,isSome_some,if_true] at this
    omega
  · exact hl.refcnt_pos (p := q) (by rw [hb]; simp)

theorem refcnt_unused (hu : sh.cache.unused = some b) : (sh.cache.buf b).refcnt = 0 := by
  obtain ⟨l,hl⟩ := Sharing.Inv.reach h
  rw [hl.order.unused_eq] at hu
  have hidle : sh.cache.idle b = true := List.find?_some hu
  simp only [idle,Bool.and_eq_true,beq_iff_eq] at hidle
  exact hidle.1

theorem label_cached {dev blockno : ℕ}
    (hc : sh.cache.cached dev blockno = some b) : sh.cache.label b = (dev,blockno) := by
  obtain ⟨l,hl⟩ := Sharing.Inv.reach h
  rw [hl.order.cached_eq] at hc
  simpa using List.find?_some hc

/-- No two buffers with a copy of a block have the same one. -/
theorem label_ne {a : Fin NBUF} (ha : Sharing.InUse sh a)
    (hb : Sharing.InUse sh b) (hab : a ≠ b) : sh.cache.label a ≠ sh.cache.label b := by
  obtain ⟨l,hl⟩ := Sharing.Inv.reach h
  exact fun he => hab (hl.unique a b (hl.touched_of_inUse ha) (hl.touched_of_inUse hb) he)

end

omit [DecidableEq P] [Fintype P] in
theorem Keeps.setBuf {x : Buf} (hpc : sh'.pc q = sh.pc q)
    (howner : ∀ c, sh.owner c = some q → sh'.owner c = some q)
    (hc : sh'.cache = sh.cache.setBuf b x) (hx : sh.owner b = some q ∨ sh.pc q = .wait b →
      (x.dev,x.blockno) = sh.cache.label b ∧ ((sh.cache.buf b).valid = true → x.valid = true)) :
    Keeps sh sh' q := by
  have hbuf : ∀ c, c ≠ b → sh'.cache.buf c = sh.cache.buf c := fun c hcb => by
    rw [hc,setBuf_of_ne _ hcb]
  have hself : sh'.cache.buf b = x := by rw [hc,setBuf_self]
  refine ⟨hpc,howner,fun c hu => ?_,fun c hu hv => ?_⟩
  · by_cases hcb : c = b
    · subst hcb
      rw [← (hx hu).1,Bcache.label,hself]
    · rw [Bcache.label,hbuf c hcb]
      rfl
  · by_cases hcb : c = b
    · subst hcb
      rw [hself]
      exact (hx (.inl hu)).2 hv
    · rwa [hbuf c hcb]

omit [DecidableEq P] [Fintype P] in
theorem Keeps.same (hpc : sh'.pc q = sh.pc q)
    (howner : ∀ c, sh.owner c = some q → sh'.owner c = some q)
    (hlabel : ∀ c, sh'.cache.label c = sh.cache.label c)
    (hvalid : ∀ c, (sh'.cache.buf c).valid = (sh.cache.buf c).valid) : Keeps sh sh' q :=
  ⟨hpc,howner,fun c _ => hlabel c,fun c _ hv => (hvalid c).trans hv⟩

theorem Keeps.of_step (h : Sharing.Reach sh) {a : Sharing.Action} (hs : sh.step p a = some sh')
    (hq : q ≠ p) : Keeps sh sh' q := by
  cases a with
  | bget dev blockno =>
    obtain ⟨-,c,x,rfl,hx⟩ := step_bget hs
    refine Keeps.setBuf (b := c) (x := x) (update_of_ne hq _ _) (fun _ h => h) rfl
      fun hu => ?_
    rcases hx with ⟨-,rfl⟩ | ⟨-,hun,-⟩
    · exact ⟨rfl,id⟩
    · have := refcnt_pos h hu
      rw [refcnt_unused h hun] at this
      cases this
  | acquiresleep =>
    obtain ⟨c,-,hfree,rfl⟩ := step_acquiresleep hs
    refine Keeps.same (update_of_ne hq _ _) (fun d hd => ?_) (fun _ => rfl) fun _ => rfl
    refine (update_of_ne ?_ _ _).trans hd
    rintro rfl
    rw [hfree] at hd
    cases hd
  | setFlags c valid dirty =>
    obtain ⟨-,hc,rfl⟩ := step_setFlags hs
    refine ⟨rfl,fun _ h => h,fun d _ => ?_,fun d hd hv => ?_⟩
    · by_cases hdc : d = c
      · subst hdc
        simp [Bcache.label,Bcache.setBuf]
      · simp [Bcache.label,Bcache.setBuf,hdc]
    · have hdc : d ≠ c := by
        rintro rfl
        exact hq (Option.some.inj (hd.symm.trans hc))
      simpa [Bcache.setBuf,hdc] using hv
  | releasesleep c =>
    obtain ⟨-,hc,rfl⟩ := step_releasesleep hs
    refine Keeps.same (update_of_ne hq _ _) (fun d hd => ?_) (fun _ => rfl) fun _ => rfl
    refine (update_of_ne ?_ _ _).trans hd
    rintro rfl
    exact hq (Option.some.inj (hd.symm.trans hc))
  | brelse =>
    obtain ⟨c,-,rfl⟩ := step_brelse hs
    exact .same (update_of_ne hq _ _) (fun _ h => h) drop_label
      fun d => (brelse_kept _ c d).1

end Sharing

section Steps
variable {w w' : World P α} {p : P} {b : Fin NBUF} {c : Io}

theorem Core.at_of (h : Core w) (hp : w.io p = c) : At w.share p c := hp ▸ h.each p

theorem Core.setBuf_dev (h : Core w) {x : Buf} (hx : x.dev ≤ 1) (d : Fin NBUF) :
    ((w.share.cache.setBuf b x).buf d).dev ≤ 1 := by
  by_cases hdb : d = b
  · rw [hdb,setBuf_self]
    exact hx
  · rw [setBuf_of_ne _ hdb]
    exact h.devs d

/-- A buffer whose holder is not in `iderw` with it is not in the queue. -/
theorem Inv.not_waiting (h : Inv w) (hb : w.share.owner b = some p) (hp : ∀ k, w.io p ≠ .wait k b) :
    b ∉ w.ide.waiting := by
  intro hw
  obtain ⟨q,k,hq⟩ := h.owned b hw
  obtain rfl := Option.some.inj ((h.at_of hq).1.symm.trans hb)
  exact hp k hq

omit [DecidableEq P] in
theorem idle_ne_wait (h : (w.io p).idle = true) (k : Option (ℕ × ℕ)) (b : Fin NBUF) :
    w.io p ≠ .wait k b := by
  intro hp
  rw [hp] at h
  cases h

/-- A step of a process that is not a request. -/
theorem Inv.proc (h : Inv w) (hshare : Sharing.Reach w'.share) (he : Edits w.ide w'.ide)
    (hio : w'.io = update w.io p c) (hw : ∀ k b, w.io p = .wait k b → b ∉ w.ide.waiting)
    (hat : At w'.share p c) (hk : ∀ q, q ≠ p → Keeps w.share w'.share q)
    (hdevs : ∀ b, (w'.share.cache.buf b).dev ≤ 1) : Inv w' := by
  refine ⟨⟨hshare,he.queued h.queued,fun b hb => ?_,fun q => ?_,hdevs,he.data h.data⟩,
    he.started h.started⟩
  · rw [State.waiting,he.pending] at hb
    obtain ⟨q,k,hq⟩ := h.owned b hb
    refine ⟨q,k,?_⟩
    rw [hio,update_of_ne]
    · exact hq
    · rintro rfl
      exact hw k b hq hb
  · rw [hio]
    by_cases hqp : q = p
    · subst hqp
      rwa [update_self]
    · rw [update_of_ne hqp]
      exact (h.each q).keep (hk q hqp)

theorem Inv.goto (h : Inv w) (hw : ∀ k b, w.io p = .wait k b → b ∉ w.ide.waiting)
    (hat : At w.share p c) : Inv (w.goto p c) :=
  h.proc (p := p) h.share ⟨rfl,rfl,rfl,rfl,rfl,fun _ => .inl rfl⟩ rfl hw hat
    (fun _ _ => .same rfl (fun _ h => h) (fun _ => rfl) fun _ => rfl) h.devs

variable [Fintype P]
variable (h : Inv w)
include h

theorem Inv.bread {dev blockno : ℕ} (hdev : dev ≤ 1) (hidle : (w.io p).idle = true)
    {sh : Sharing.World P} (hs : w.share.step p (.bget dev blockno) = some sh) :
    Inv { w.goto p (.get dev blockno) with share := sh } := by
  have hkeep := fun q (hq : q ≠ p) => Keeps.of_step h.share hs hq
  have hreach := Sharing.Reach.step h.share hs
  obtain ⟨-,b,x,rfl,hx⟩ := step_bget hs
  have hlab : (x.dev,x.blockno) = (dev,blockno) := by
    rcases hx with ⟨hc,rfl⟩ | ⟨-,-,rfl⟩
    · exact label_cached h.share hc
    · rfl
  refine h.proc (p := p) hreach ⟨rfl,rfl,rfl,rfl,rfl,fun d => ?_⟩ rfl
    (fun k d hp => absurd hp (idle_ne_wait hidle k d)) ⟨b,update_self _ _ _,?_⟩ hkeep
    (h.setBuf_dev ((Prod.mk.inj hlab).1.trans_le hdev))
  · by_cases hdb : d = b
    · subst hdb
      rcases hx with ⟨-,rfl⟩ | ⟨-,hun,rfl⟩
      · refine .inl ?_
        simp [World.ide,World.buf,World.goto,setBuf]
      · refine .inr ⟨fun hw => ?_,?_⟩
        · obtain ⟨q,k,hq⟩ := h.owned d hw
          have := refcnt_pos h.share (.inl (h.at_of hq).1)
          rw [refcnt_unused h.share hun] at this
          cases this
        · simp [World.ide,World.buf,setBuf,Ide.Buf.clean]
    · refine .inl ?_
      simp [World.ide,World.buf,World.goto,setBuf,hdb]
  · change (((w.share.cache.setBuf b x).buf b).dev,((w.share.cache.setBuf b x).buf b).blockno) = _
    rw [setBuf_self]
    exact hlab

theorem Inv.acquiresleep {dev blockno : ℕ} (hp : w.io p = .get dev blockno)
    (hpc : w.share.pc p = .wait b) {sh : Sharing.World P}
    (hs : w.share.step p .acquiresleep = some sh) :
    Inv { w.goto p (.got dev blockno b) with share := sh } := by
  have hkeep := fun q (hq : q ≠ p) => Keeps.of_step h.share hs hq
  have hreach := Sharing.Reach.step h.share hs
  obtain ⟨b',hb',hlab⟩ := h.at_of hp
  obtain ⟨c,hc,-,rfl⟩ := step_acquiresleep hs
  obtain rfl := Sharing.Pc.wait.inj (hpc.symm.trans hc)
  obtain rfl := Sharing.Pc.wait.inj (hpc.symm.trans hb')
  exact h.proc (p := p) hreach ⟨rfl,rfl,rfl,rfl,rfl,fun _ => .inl rfl⟩ rfl
    (by rw [hp]; nofun) ⟨update_self _ _ _,update_self _ _ _,hlab⟩ hkeep h.devs

theorem Inv.bwrite {x : α} (hidle : (w.io p).idle = true) {sh : Sharing.World P}
    (hs : w.share.step p (.setFlags b (w.buf b).valid true) = some sh) :
    Inv { w.goto p (.request none b) with share := sh, data := update w.data b x } := by
  have hkeep := fun q (hq : q ≠ p) => Keeps.of_step h.share hs hq
  have hreach := Sharing.Reach.step h.share hs
  obtain ⟨hpc,hown,rfl⟩ := step_setFlags hs
  have hnot := h.not_waiting hown fun k => idle_ne_wait hidle k b
  refine h.proc (p := p) hreach ⟨rfl,rfl,rfl,rfl,rfl,fun d => ?_⟩ rfl
    (fun k d hp => absurd hp (idle_ne_wait hidle k d)) ⟨hown,hpc,nofun⟩ hkeep
    (h.setBuf_dev (h.devs b))
  · by_cases hdb : d = b
    · subst hdb
      refine .inr ⟨hnot,?_⟩
      simp [World.ide,World.buf,setBuf,Buf.clean]
    · refine .inl ?_
      simp [World.ide,World.buf,World.goto,setBuf,hdb]

/-- The sections of `brelse`: the buffers keep their contents. -/
theorem Inv.release (hidle : (w.io p).idle = true) {sh : Sharing.World P}
    {a : Sharing.Action} (hs : w.share.step p a = some sh)
    (hbuf : ∀ d, (sh.cache.buf d).valid = (w.share.cache.buf d).valid ∧
      (sh.cache.buf d).dirty = (w.share.cache.buf d).dirty ∧
      sh.cache.label d = w.share.cache.label d) : Inv { w.goto p .run with share := sh } := by
  refine h.proc (p := p) (h.share.step hs) ⟨rfl,rfl,rfl,rfl,rfl,fun d => .inl ?_⟩ rfl
    (fun k d hp => absurd hp (idle_ne_wait hidle k d)) trivial
    (fun q hq => Keeps.of_step h.share hs hq) fun d => ?_
  · obtain ⟨hv,hd,hl⟩ := hbuf d
    obtain ⟨h1,h2⟩ := Prod.mk.inj hl
    simp only [World.ide,World.buf,World.goto,hv,hd,h1,h2]
  · rw [(Prod.mk.inj (hbuf d).2.2).1]
    exact h.devs d

theorem Inv.brelse (hidle : (w.io p).idle = true) {sh : Sharing.World P}
    (hs : w.share.step p .brelse = some sh) : Inv { w.goto p .run with share := sh } := by
  refine h.release hidle hs fun d => ?_
  obtain ⟨c,-,rfl⟩ := step_brelse hs
  exact brelse_kept w.share.cache c d

end Steps

section Driver
variable {s s' : State (Fin NBUF) α} {b : Fin NBUF}

theorem Data.arrived (ha : Arrived s s' b) (hq : Queued s) (h : Data s) : Data s' := by
  obtain ⟨-,hdisk,hbuffer⟩ := ha.unchanged
  refine ⟨fun d hd => ?_,fun d c rest hp hn => ?_⟩
  · rw [ha.bufs] at hd ⊢
    rw [hdisk]
    exact h.clean d hd
  · rw [ha.finished,ha.served] at hn
    obtain ⟨l,hl⟩ := ha.first hq hn hp
    rw [ha.bufs,hdisk,hbuffer]
    exact h.ready d c l hl hn

theorem Data.took {c : Cmd α} {rest : List (Fin NBUF × Cmd α)} (ht : Took s s' b)
    (hp : s.pending = (b,c) :: rest) (hn : s.device.finished.length = s.served + 1) (h : Data s) :
    Data s' := by
  refine ⟨fun d hd => ?_,fun d e l _ hl => ?_⟩
  · rw [ht.bufs] at hd ⊢
    rw [ht.device]
    by_cases hdb : d = b
    · subst hdb
      rw [update_self]
      exact h.ready d c rest hp hn
    · rw [update_of_ne hdb] at hd ⊢
      exact h.clean d hd
  · rw [ht.device,ht.served] at hl
    omega

/-- A command is completed: only the block of its buffer changes. -/
theorem Data.complete {d : Device α} (hq : Queued s) (hd : s.device.complete false = some d)
    (hlabel : ∀ a e, e ∈ s.pending → (s.bufs a).clean = true →
      ((s.bufs a).dev % 2,(s.bufs a).blockno) ≠ ((s.bufs e.1).dev % 2,(s.bufs e.1).blockno))
    (h : Data s) : Data { s with device := d } := by
  obtain ⟨c,hc,rfl⟩ := Device.complete_eq hd
  obtain ⟨-,b,rest,hp⟩ := hq.busy c hc
  have hmem : (b,c) ∈ s.pending := hp ▸ mem_cons_self
  obtain ⟨-,hacc,hcmd⟩ := hq.requests (b,c) hmem
  dsimp only at hacc hcmd
  rw [Buf.command_eq hacc.blockno] at hcmd
  have hperform : (s.device.perform c).disk = if (s.bufs b).dirty then
      update s.device.disk ((s.bufs b).dev % 2)
        (update (s.device.disk ((s.bufs b).dev % 2)) (s.bufs b).blockno (s.bufs b).data)
      else s.device.disk := by
    rw [hcmd]
    split <;> rfl
  refine ⟨fun a ha => ?_,fun a c' rest' hp' _ => ?_⟩
  · rw [h.clean a ha,hperform]
    split
    · have hne := hlabel a (b,c) hmem ha
      by_cases hdev : (s.bufs a).dev % 2 = (s.bufs b).dev % 2
      · have hblock : (s.bufs a).blockno ≠ (s.bufs b).blockno := fun he => hne (by rw [hdev,he])
        rw [hdev,update_self,update_of_ne hblock]
      · rw [update_of_ne hdev]
    · rfl
  · obtain ⟨hbc,-⟩ := List.cons.inj (hp.symm.trans hp')
    obtain ⟨rfl,rfl⟩ := Prod.mk.inj hbc
    rw [hperform]
    split
    · rw [update_self,update_self]
    · rename_i hdirty
      rw [hcmd,if_neg hdirty]
      rfl

end Driver

section Moves
variable [Fintype P] {w w' : World P α} {p : P} {b : Fin NBUF}

omit [Fintype P] in
theorem Inv.iderw (h : Inv w) {k : Option (ℕ × ℕ)} (hp : w.io p = .request k b)
    (hs : w.iderw p k b = some w') : Inv w' := by
  have hat := h.at_of hp
  have hnot := h.not_waiting hat.1 fun k' hk => by
    rw [hp] at hk
    cases hk
  obtain ⟨hacc,hs⟩ := ite_none_right_eq_some.1 hs
  have hq1 := h.queued.setNext hnot
  have hlen : w.ide.waiting.length ≤ NBUF := by
    simpa using h.queued.nodup.length_le_card
  have hholds : Linked.Queue.Holds (w.queue.set (.next b) none) ([] ++ w.ide.waiting) :=
    hq1.holds
  have hwalk := hholds.walk_eq hlen
  rw [show linkAfter [] = Link.head from rfl,nil_append] at hwalk
  rw [hwalk] at hs
  obtain ⟨s,hs',rfl⟩ := map_eq_some_iff.mp hs
  have ha := arrived hq1 hnot hacc (update_self _ _ _) hs'
  have hedit : Edits s ({ w.goto p (.wait k b) with
      queue := s.queue, device := s.device, arrivals := s.arrivals } : World P α).ide :=
    ⟨rfl,rfl,ha.inCall.symm,rfl,ha.served.symm,fun d => .inl (by rw [ha.bufs]; rfl)⟩
  have hw := ha.waiting hq1
  refine ⟨⟨h.share,hedit.queued (ha.queued hq1 hnot rfl hacc),fun d hd => ?_,fun q => ?_,h.devs,
    hedit.data (Data.arrived ha hq1 ⟨h.data.clean,h.data.ready⟩)⟩,hedit.started (ha.started h.started)⟩
  · rw [State.waiting,hedit.pending] at hd
    change d ∈ s.waiting at hd
    rw [hw,mem_append,mem_singleton] at hd
    rcases hd with hd | rfl
    · obtain ⟨q,k',hq⟩ := h.owned d hd
      refine ⟨q,k',(update_of_ne ?_ _ _).trans hq⟩
      rintro rfl
      rw [hp] at hq
      cases hq
    · exact ⟨p,k,update_self _ _ _⟩
  · by_cases hqp : q = p
    · subst hqp
      change At w.share q (update w.io q (.wait k b) q)
      rw [update_self]
      exact hat
    · change At w.share q (update w.io p (.wait k b) q)
      rw [update_of_ne hqp]
      exact h.each q

/-- A clean buffer and one in the queue are for different blocks of the disks. -/
theorem Inv.label_ne (h : Inv w) {a : Fin NBUF} {e : Fin NBUF × Cmd α} (he : e ∈ w.ide.pending)
    (ha : (w.buf a).clean = true) :
    ((w.buf a).dev % 2,(w.buf a).blockno) ≠ ((w.buf e.1).dev % 2,(w.buf e.1).blockno) := by
  obtain ⟨p,k,hp⟩ := h.owned e.1 (mem_map_of_mem he)
  have hvalid : (w.share.cache.buf a).valid = true := by
    simp only [Ide.Buf.clean,Bool.and_eq_true] at ha
    exact ha.1
  have hne : a ≠ e.1 := by
    rintro rfl
    exact Bool.false_ne_true ((h.queued.requests e he).2.1.not_clean.symm.trans ha)
  have hlab := Bread.label_ne h.share (.inr (.inl hvalid))
    (.inl (refcnt_pos h.share (.inl (h.at_of hp).1))) hne
  intro heq
  obtain ⟨h1,h2⟩ := Prod.mk.inj heq
  have ha1 := h.devs a
  have he1 := h.devs e.1
  refine hlab (Prod.ext ?_ h2)
  change (w.share.cache.buf a).dev % 2 = (w.share.cache.buf e.1).dev % 2 at h1
  change (w.share.cache.buf a).dev = (w.share.cache.buf e.1).dev
  omega

theorem Inv.complete (h : Inv w) {d : Device α} (hd : w.device.complete false = some d) :
    Inv { w with device := d } :=
  ⟨⟨h.share,h.queued.complete hd,h.owned,h.each,h.devs,
    h.data.complete h.queued hd fun _ _ he ha => h.label_ne he ha⟩,
    (Ide.knows_complete h.queued hd).2 h.started⟩

omit [Fintype P] in
theorem Inv.take (h : Inv w) (hb : w.queue.head = some b) (hbusy : w.device.busy = none)
    (hs : w.take b = some w') : Core w' ∧ w'.device.busy = none ∧
      w'.device.finished.length = w'.served := by
  obtain ⟨c,rest,hp⟩ := h.queued.pending_of_head hb
  have hn : w.device.finished.length = w.served + 1 := by
    refine (h.started (by rw [hp]; exact cons_ne_nil _ _)).resolve_left ?_
    change ¬ w.device.busy.isSome = true
    rw [hbusy]
    nofun
  rw [World.take,Device.insl_eq hbusy h.queued.noError] at hs
  cases hs
  have ht : Took w.ide (World.ide { w with
      share := { w.share with
        cache := w.share.cache.setBuf b { w.share.cache.buf b with valid := true, dirty := false } }
      data := update w.data b (if (w.buf b).dirty then (w.buf b).data else w.device.buffer)
      queue := { w.queue with head := w.queue.next b }
      served := w.served + 1 }) b := by
    refine ⟨?_,rfl,rfl,rfl,rfl,rfl,rfl⟩
    funext d
    by_cases hdb : d = b
    · subst hdb
      simp only [World.ide,World.buf,setBuf_self,update_self]
      rfl
    · simp only [World.ide,World.buf,setBuf_of_ne _ hdb,update_of_ne hdb]
  have hmem : b ∈ w.ide.waiting := by
    rw [State.waiting,hp]
    exact mem_cons_self
  obtain ⟨p,k,hpk⟩ := h.owned b hmem
  have hat := h.at_of hpk
  refine ⟨⟨?_,ht.queued h.queued hp hbusy hn,fun d hd => ?_,fun q => ?_,h.setBuf_dev (h.devs b),
    Data.took ht hp hn h.data⟩,hbusy,hn⟩
  · -- the flags are those of a buffer that its holder may change
    refine Sharing.Reach.step (p := p) (a := .setFlags b true false) h.share ?_
    simp [Sharing.World.step,hat.1,hat.2.1]
  · refine h.owned d ?_
    rw [ht.waiting hp]
    exact mem_cons_of_mem _ hd
  · exact (h.each q).keep (Keeps.setBuf rfl (fun _ h => h) rfl fun _ => ⟨rfl,fun _ => rfl⟩)

omit [Fintype P] in
theorem Core.start (h : Core w) (hbusy : w.device.busy = none)
    (hn : w.device.finished.length = w.served) (hs : w.start = some w') : Inv w' := by
  unfold World.start at hs
  cases hhead : w.queue.head with
  | none =>
    rw [hhead] at hs
    cases hs
    refine ⟨h,fun hne => absurd ?_ hne⟩
    exact waiting_eq_nil.mp (h.queued.holds.eq_nil.mp hhead)
  | some b =>
    rw [hhead] at hs
    obtain ⟨c,rest,hp⟩ := h.queued.pending_of_head hhead
    have hacc : Accepted (w.buf b) := (h.queued.requests (b,c) (hp ▸ mem_cons_self)).2.1
    dsimp only at hs
    rw [Device.idestart_eq hacc.blockno hbusy] at hs
    cases hs
    exact ⟨⟨h.share,h.queued.start hp hn,h.owned,h.each,h.devs,⟨h.data.clean,h.data.ready⟩⟩,
      fun _ => .inl rfl⟩

omit [Fintype P] in
theorem Inv.ideintr (h : Inv w) (hok : w.queue.head ≠ none → w.device.busy = none)
    (hs : w.ideintr = some w') : Inv w' := by
  unfold World.ideintr at hs
  cases hhead : w.queue.head with
  | none =>
    rw [hhead] at hs
    cases hs
    exact h
  | some b =>
    rw [hhead] at hs
    obtain ⟨w1,htake,hstart⟩ := bind_eq_some_iff.mp hs
    obtain ⟨hcore,hbusy,hn⟩ := h.take hhead (hok (by rw [hhead]; nofun)) htake
    exact hcore.start hbusy hn hstart

theorem Inv.act (h : Inv w) {a : Action α} (hok : Faultless w (.proc p a))
    (hs : w.proc p a = some w') : Inv w' := by
  cases a with
  | bread dev blockno =>
    obtain ⟨hidle,hs⟩ := ite_none_right_eq_some.1 hs
    obtain ⟨sh,hsh,rfl⟩ := map_eq_some_iff.mp hs
    exact h.bread hok hidle hsh
  | acquiresleep =>
    simp only [World.proc] at hs
    split at hs
    · rename_i dev blockno b hio hpc
      obtain ⟨sh,hsh,rfl⟩ := map_eq_some_iff.mp hs
      exact h.acquiresleep hio hpc hsh
    · cases hs
  | test =>
    simp only [World.proc] at hs
    split at hs
    · rename_i dev blockno b hio
      cases hs
      obtain ⟨hown,hpc,hlab⟩ := h.at_of hio
      refine h.goto (by rw [hio]; nofun) ?_
      split
      · exact ⟨hown,hlab,‹_›⟩
      · refine ⟨hown,hpc,fun x hx => ?_⟩
        rw [← Option.some.inj hx]
        exact hlab
    · cases hs
  | bwrite b x =>
    obtain ⟨hidle,hs⟩ := ite_none_right_eq_some.1 hs
    obtain ⟨sh,hsh,rfl⟩ := map_eq_some_iff.mp hs
    exact h.bwrite hidle hsh
  | iderw =>
    simp only [World.proc] at hs
    split at hs
    · exact h.iderw ‹_› hs
    · cases hs
  | wake =>
    simp only [World.proc] at hs
    split at hs
    · rename_i k b hio
      obtain ⟨hclean,hs⟩ := ite_none_right_eq_some.1 hs
      cases hs
      refine h.goto (fun k' d hd hw => ?_) ?_
      · -- a request in the queue has a buffer that is not clean
        rw [hio] at hd
        cases hd
        obtain ⟨e,he,rfl⟩ := mem_map.mp hw
        exact Bool.false_ne_true ((h.queued.requests e he).2.1.not_clean.symm.trans hclean)
      · cases k with
        | none => trivial
        | some x =>
          obtain ⟨hown,-,hlab⟩ := h.at_of hio
          refine ⟨hown,hlab x rfl,?_⟩
          simp only [Buf.clean,Bool.and_eq_true] at hclean
          exact hclean.1
    · cases hs
  | releasesleep b =>
    obtain ⟨hidle,hs⟩ := ite_none_right_eq_some.1 hs
    obtain ⟨sh,hsh,rfl⟩ := map_eq_some_iff.mp hs
    refine h.release hidle hsh fun d => ?_
    obtain ⟨-,-,rfl⟩ := step_releasesleep hsh
    exact ⟨rfl,rfl,rfl⟩
  | brelse =>
    obtain ⟨hidle,hs⟩ := ite_none_right_eq_some.1 hs
    obtain ⟨sh,hsh,rfl⟩ := map_eq_some_iff.mp hs
    exact h.brelse hidle hsh

theorem Inv.step (h : Inv w) {m : Move P α} (hok : Faultless w m) (hs : w.step m = some w') :
    Inv w' := by
  cases m with
  | proc p a => exact h.act hok hs
  | complete error =>
    obtain rfl : error = false := hok
    obtain ⟨d,hd,rfl⟩ := map_eq_some_iff.mp hs
    exact h.complete hd
  | ideintr => exact h.ideintr hok hs

omit [Fintype P] in
theorem inv_init (disk : ℕ → ℕ → α) (data : Fin NBUF → α) (qnext : Fin NBUF → Option (Fin NBUF))
    (buffer : α) : Inv (World.init P disk data qnext buffer) := by
  have hbuf : ∀ b, binit.buf b = ⟨false,false,0,0,0⟩ := binit_buf
  refine ⟨⟨.init,⟨.nil,nodup_nil,nofun, nil_prefix,le_rfl,Nat.le_succ _,nofun,rfl⟩,
    nofun,fun _ => trivial,fun b => ?_,⟨fun b hb => ?_,nofun⟩⟩,fun hne => absurd rfl hne⟩
  · change (binit.buf b).dev ≤ 1
    rw [hbuf]
    exact Nat.zero_le _
  · simp [World.ide,World.buf,World.init,Sharing.World.init,hbuf,Ide.Buf.clean] at hb

/-- A buffer that `bread` returns and that is not dirty has the contents of the block it was
asked for, in every run in which the disks make no errors. -/
theorem bread_returns_disk {disk : ℕ → ℕ → α} {data : Fin NBUF → α}
    {qnext : Fin NBUF → Option (Fin NBUF)} {buffer : α}
    (h : Machine.Reach World.step Faultless (World.init P disk data qnext buffer) w)
    {dev blockno : ℕ} (hp : w.io p = .returned dev blockno b) (hd : (w.buf b).dirty = false) :
    (w.buf b).dev = dev ∧ (w.buf b).blockno = blockno ∧
      (w.buf b).data = w.device.disk dev blockno := by
  have hinv : Inv w := h.invariant (inv_init disk data qnext buffer) fun _ _ _ h => h.step
  obtain ⟨-,hlab,hvalid⟩ := hinv.at_of hp
  obtain ⟨hdev,hblock⟩ := Prod.mk.inj hlab
  have hclean : (w.buf b).clean = true := by
    simp only [Ide.Buf.clean,hd,Bool.not_false,Bool.and_true]
    exact hvalid
  have hdata : (w.buf b).data = w.device.disk ((w.buf b).dev % 2) (w.buf b).blockno :=
    hinv.data.clean b hclean
  have hle : (w.buf b).dev ≤ 1 := hinv.devs b
  rw [Nat.mod_eq_of_lt (Nat.lt_succ_of_le hle)] at hdata
  refine ⟨hdev,hblock,hdata.trans ?_⟩
  rw [← hdev,← hblock]
  rfl

end Moves

def sevenInFive : World Bool ℕ :=
  World.init Bool (fun _ n => if n = 5 then 7 else 0) (fun _ => 3) (fun _ => none) 0

def readFive (error : Bool) : List (Move Bool ℕ) :=
  [.proc true (.bread 1 5), .proc true .acquiresleep, .proc true .test, .proc true .iderw,
    .complete error, .ideintr, .proc true .wake]

theorem bread_returns_disk_five : ∃ w : World Bool ℕ,
    Machine.exec World.step sevenInFive (readFive false) = some w ∧
      w.io true = .returned 1 5 firstBuf ∧ (w.buf firstBuf).dirty = false ∧
      (w.buf firstBuf).data = w.device.disk 1 5 := by
  obtain ⟨w,hw,hp,hd⟩ : ∃ w ∈ Machine.exec World.step sevenInFive (readFive false),
      w.io true = .returned 1 5 firstBuf ∧ (w.buf firstBuf).dirty = false := by decide +kernel
  have hok : Machine.Allows World.step Faultless sevenInFive (readFive false) := by decide +kernel
  exact ⟨w,hw,hp,hd,(bread_returns_disk (.of_allows .init hok hw) hp hd).2.2⟩

/-- The disk reports an error, and `bread` returns what was in the memory of the buffer. -/
theorem bread_returns_stale_data : ∃ w : World Bool ℕ,
    Machine.exec World.step sevenInFive (readFive true) = some w ∧
      w.io true = .returned 1 5 firstBuf ∧ (w.buf firstBuf).dirty = false ∧
      (w.buf firstBuf).data = 3 ∧ w.device.disk 1 5 = 7 := by
  decide +kernel

end Xv6.Bread
