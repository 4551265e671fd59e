import Mathlib.Algebra.BigOperators.Group.Finset.Piecewise
import Xv6.Bcache.Cache

/-! # Processes sharing the buffer cache

Any number of processes get, hold and release buffers.  `bget` is two steps, its
section under `bcache.lock` and the `acquiresleep` that may have to wait, and so is
`brelse`.  A process that holds a buffer may change its flags.  `dropped` records
when the `refcnt` of a buffer last went to zero. -/
namespace Xv6.Sharing
open Function Bcache List Option Finset

inductive Pc where
  | run
  /-- in `bget`, before `acquiresleep` returns -/
  | wait (b : Fin NBUF)
  /-- in `brelse`, after `releasesleep` -/
  | drop (b : Fin NBUF)
  deriving DecidableEq

inductive Action where
  | bget (dev blockno : ℕ)
  | acquiresleep
  | setFlags (b : Fin NBUF) (valid dirty : Bool)
  | releasesleep (b : Fin NBUF)
  | brelse
  deriving DecidableEq

structure World (P : Type) where
  cache : Bcache
  owner : Fin NBUF → Option P
  pc : P → Pc
  clock : ℕ
  dropped : Fin NBUF → Option ℕ

variable {P : Type} [DecidableEq P]

namespace World

def goto (w : World P) (p : P) (c : Pc) : World P := { w with pc := update w.pc p c }

/-- The section of `brelse`. -/
def drop (w : World P) (p : P) (b : Fin NBUF) : World P :=
  { w.goto p .run with
    cache := w.cache.brelse b
    clock := w.clock + 1
    dropped := if (w.cache.buf b).refcnt = 1 then update w.dropped b (some w.clock) else w.dropped }

/-- One step of process `p`.  `brelse` panics unless the process holds the buffer. -/
def step (w : World P) (p : P) (a : Action) : Option (World P) :=
  match a, w.pc p with
  | .bget dev blockno, .run =>
    (w.cache.bget dev blockno).map fun r => { w.goto p (.wait r.1) with cache := r.2 }
  | .acquiresleep, .wait b =>
    if w.owner b = none then some { w.goto p .run with owner := update w.owner b (some p) }
    else none
  | .setFlags b valid dirty, .run =>
    if w.owner b = some p then
      some { w with cache := w.cache.setBuf b { w.cache.buf b with valid := valid, dirty := dirty } }
    else none
  | .releasesleep b, .run =>
    if w.owner b = some p then some { w.goto p (.drop b) with owner := update w.owner b none }
    else none
  | .brelse, .drop b => some (w.drop p b)
  | _, _ => none

def exec (w : World P) : List (P × Action) → Option (World P)
  | [] => some w
  | (p,a) :: rest => (w.step p a).bind fun w' => w'.exec rest

def init (P : Type) : World P where
  cache := .binit
  owner := fun _ => none
  pc := fun _ => .run
  clock := 0
  dropped := fun _ => none

end World

inductive Reach : World P → Prop where
  | init : Reach (World.init P)
  | step {w w' : World P} {p : P} {a : Action} (h : Reach w) (hs : w.step p a = some w') : Reach w'

section Steps
variable {w w' : World P} {p : P} {b : Fin NBUF}

/-- The section of `bget` finds the block, or recycles an idle buffer for it. -/
theorem step_bget {dev blockno : ℕ} (h : w.step p (.bget dev blockno) = some w') :
    w.pc p = .run ∧ ∃ b x, w' = { w.goto p (.wait b) with cache := w.cache.setBuf b x } ∧
      ((w.cache.cached dev blockno = some b ∧
          x = { w.cache.buf b with refcnt := (w.cache.buf b).refcnt + 1 }) ∨
        (w.cache.cached dev blockno = none ∧ w.cache.unused = some b ∧
          x = ⟨false,false,dev,blockno,1⟩)) := by
  unfold World.step at h
  cases hpc : w.pc p <;> rw [hpc] at h <;> dsimp only at h
  case wait => cases h
  case drop => cases h
  obtain ⟨⟨b,c⟩,hb,rfl⟩ := map_eq_some_iff.mp h
  refine ⟨rfl,b,?_⟩
  unfold bget at hb
  cases hc : w.cache.cached dev blockno with
  | some b' =>
    rw [hc] at hb
    cases hb
    exact ⟨_,rfl,.inl ⟨rfl,rfl⟩⟩
  | none =>
    rw [hc] at hb
    cases hu : w.cache.unused with
    | none =>
      rw [hu] at hb
      cases hb
    | some b' =>
      rw [hu] at hb
      cases hb
      exact ⟨_,rfl,.inr ⟨rfl,rfl,rfl⟩⟩

theorem step_acquiresleep (h : w.step p .acquiresleep = some w') :
    ∃ b, w.pc p = .wait b ∧ w.owner b = none ∧
      w' = { w.goto p .run with owner := update w.owner b (some p) } := by
  unfold World.step at h
  cases hpc : w.pc p <;> rw [hpc] at h <;> dsimp only at h
  case run => cases h
  case drop => cases h
  obtain ⟨hb,h⟩ := ite_none_right_eq_some.1 h
  cases h
  exact ⟨_,rfl,hb,rfl⟩

theorem step_setFlags {valid dirty : Bool} (h : w.step p (.setFlags b valid dirty) = some w') :
    w.pc p = .run ∧ w.owner b = some p ∧
      w' = { w with cache := w.cache.setBuf b { w.cache.buf b with valid := valid, dirty := dirty } } := by
  unfold World.step at h
  cases hpc : w.pc p <;> rw [hpc] at h <;> dsimp only at h
  case wait => cases h
  case drop => cases h
  obtain ⟨hb,h⟩ := ite_none_right_eq_some.1 h
  cases h
  exact ⟨rfl,hb,rfl⟩

theorem step_releasesleep (h : w.step p (.releasesleep b) = some w') :
    w.pc p = .run ∧ w.owner b = some p ∧
      w' = { w.goto p (.drop b) with owner := update w.owner b none } := by
  unfold World.step at h
  cases hpc : w.pc p <;> rw [hpc] at h <;> dsimp only at h
  case wait => cases h
  case drop => cases h
  obtain ⟨hb,h⟩ := ite_none_right_eq_some.1 h
  cases h
  exact ⟨rfl,hb,rfl⟩

theorem step_brelse (h : w.step p .brelse = some w') : ∃ b, w.pc p = .drop b ∧ w' = w.drop p b := by
  unfold World.step at h
  cases hpc : w.pc p <;> rw [hpc] at h <;> dsimp only at h
  case run => cases h
  case wait => cases h
  cases h
  exact ⟨_,rfl,rfl⟩

end Steps

theorem Reach.of_exec {w w' : World P} {sched : List (P × Action)} (h : Reach w)
    (he : w.exec sched = some w') : Reach w' := by
  induction sched generalizing w with
  | nil =>
    cases he
    exact h
  | cons pa rest ih =>
    obtain ⟨w1,hs,hr⟩ := bind_eq_some_iff.mp he
    exact ih (.step h hs) hr

/-- `a` had its `refcnt` drop to zero before `b` had; buffers that have never been used
come first, in the order of `binit`. -/
def Older (dropped : Fin NBUF → Option ℕ) (a b : Fin NBUF) : Prop :=
  match dropped a, dropped b with
  | none, none => a < b
  | none, some _ => True
  | some _, none => False
  | some t, some t' => t < t'

def Touched (w : World P) (b : Fin NBUF) : Prop :=
  0 < (w.cache.buf b).refcnt ∨ w.dropped b ≠ none

/-- The process has passed the section of `bget` for the buffer and not yet that of `brelse`. -/
def Pc.on : Pc → Fin NBUF → Bool
  | .run, _ => false
  | .wait b, c => b == c
  | .drop b, c => b == c

@[simp] theorem Pc.run_on (c : Fin NBUF) : Pc.run.on c = false := rfl

@[simp] theorem Pc.wait_on (b c : Fin NBUF) : (Pc.wait b).on c = (b == c) := rfl

@[simp] theorem Pc.drop_on (b c : Fin NBUF) : (Pc.drop b).on c = (b == c) := rfl

/-- How often a buffer is in use: by the process that holds it and by those that are in
`bget` or `brelse` with it. -/
def users [Fintype P] (w : World P) (b : Fin NBUF) : ℕ :=
  (if (w.owner b).isSome then 1 else 0) + (Finset.univ.filter fun p => (w.pc p).on b).card

/-- How two buffers are related when the first comes before the second on the list. -/
structure Before (w : World P) (a b : Fin NBUF) : Prop where
  lru : (w.cache.buf a).refcnt = 0 → (w.cache.buf b).refcnt = 0 → Older w.dropped b a
  /-- the buffer of block (0, 0) comes before the buffers that have kept that label -/
  label : Touched w b → w.cache.label b = (0,0) → Touched w a

structure Inv [Fintype P] (w : World P) (l : List (Fin NBUF)) : Prop where
  order : w.cache.Order l
  count : ∀ b, (w.cache.buf b).refcnt = users w b
  fresh : ∀ b, ¬ Touched w b → w.cache.label b = (0,0) ∧
    (w.cache.buf b).valid = false ∧ (w.cache.buf b).dirty = false
  unique : ∀ a b, Touched w a → Touched w b → w.cache.label a = w.cache.label b → a = b
  before : l.Pairwise (Before w)
  clock : ∀ b t, w.dropped b = some t → t < w.clock

section Lists
variable {α : Type} {l : List α} {a b : α} {f : α → Bool}

theorem pairwise_or {R : α → α → Prop} (h : l.Pairwise R) (ha : a ∈ l) (hb : b ∈ l)
    (hne : a ≠ b) : R a b ∨ R b a := by
  induction l with
  | nil => cases ha
  | cons x l ih =>
    obtain ⟨hx,hl⟩ := pairwise_cons.mp h
    rcases mem_cons.mp ha with rfl | ha'
    · exact .inl (hx b ((mem_cons.mp hb).resolve_left hne.symm))
    · rcases mem_cons.mp hb with rfl | hb'
      · exact .inr (hx a ha')
      · exact ih hl ha' hb'

/-- What comes before the element that a search finds was passed over. -/
theorem find?_pairwise (hn : l.Nodup) (h : l.find? f = some b) :
    l.Pairwise fun x y => y = b → f x = false := by
  obtain ⟨-,as,bs,rfl,has⟩ := List.find?_eq_some_iff_append.mp h
  obtain ⟨-,hn2,hd⟩ := nodup_append.mp hn
  refine pairwise_append.mpr ⟨?_,?_,?_⟩
  · exact pairwise_of_forall_mem_list fun x hx _ _ _ => by simpa using has x hx
  · refine pairwise_cons.mpr ⟨?_,?_⟩
    · rintro y hy rfl
      exact absurd hy (nodup_cons.mp hn2).1
    · refine pairwise_of_forall_mem_list fun x _ y hy hyb => ?_
      exact absurd (hyb ▸ hy) (nodup_cons.mp hn2).1
  · intro x hx _ _ _
    simpa using has x hx

theorem find?_reverse_pairwise (hn : l.Nodup) (h : l.reverse.find? f = some b) :
    l.Pairwise fun x y => x = b → f y = false :=
  pairwise_reverse.mp (find?_pairwise (nodup_reverse.mpr hn) h)

end Lists

section Invariant
variable [Fintype P] {w w' : World P} {p : P} {l : List (Fin NBUF)}

/-- A process moves on, and its use of buffers with it. -/
theorem card_on_update (pc : P → Pc) (c : Pc) (b : Fin NBUF) :
    (Finset.univ.filter fun q => (update pc p c q).on b).card + (if (pc p).on b then 1 else 0)
      = (Finset.univ.filter fun q => (pc q).on b).card + if c.on b then 1 else 0 := by
  simp only [card_filter]
  rw [← add_sum_erase _ _ (mem_univ p),
    ← add_sum_erase (a := p) Finset.univ (fun q => if (pc q).on b then 1 else 0)
      (mem_univ p)]
  have hsame : ∑ q ∈ Finset.univ.erase p, (if (update pc p c q).on b then 1 else 0)
      = ∑ q ∈ Finset.univ.erase p, if (pc q).on b then 1 else 0 := by
    refine sum_congr rfl fun q hq => ?_
    rw [update_of_ne (ne_of_mem_erase hq)]
  rw [hsame,update_self]
  omega

omit [DecidableEq P] in
theorem Inv.init : Inv (World.init P) (List.finRange NBUF).reverse := by
  have hb : ∀ b, (World.init P).cache.buf b = ⟨false,false,0,0,0⟩ := binit_buf
  have hnt : ∀ b, ¬ Touched (World.init P) b := by
    intro b
    rintro (h | h)
    · rw [hb] at h
      exact absurd h (by decide)
    · exact h rfl
  refine ⟨binit_order,?_,?_,?_,?_,nofun⟩
  · intro b
    rw [hb]
    simp [users,World.init,Pc.on]
  · intro b _
    simp [label,hb]
  · exact fun a _ ha => absurd ha (hnt a)
  · rw [pairwise_reverse]
    refine (pairwise_lt_finRange NBUF).imp fun {a b} hab => ⟨fun _ _ => ?_,?_⟩
    · exact hab
    · exact fun h => absurd h (hnt _)

/-- The uses of a buffer when `p` goes from one place to another. -/
theorem users_goto (w : World P) (p : P) (c : Pc) (b : Fin NBUF) :
    users (w.goto p c) b + (if (w.pc p).on b then 1 else 0)
      = users w b + if c.on b then 1 else 0 := by
  have hold : users w b = (if (w.owner b).isSome then 1 else 0) +
    (Finset.univ.filter fun q => (w.pc q).on b).card := rfl
  have hnew : users (w.goto p c) b = (if (w.owner b).isSome then 1 else 0) +
    (Finset.univ.filter fun q => (update w.pc p c q).on b).card := rfl
  have := card_on_update (p := p) w.pc c b
  omega

omit [DecidableEq P] in
theorem Inv.touched_of_use (h : Inv w l) {b : Fin NBUF} (hb : 0 < users w b) : Touched w b :=
  .inl (by rw [h.count]; exact hb)

omit [DecidableEq P] in
theorem Inv.touched_of_label (h : Inv w l) {b : Fin NBUF} {x : ℕ × ℕ}
    (hb : w.cache.label b = x) (hx : x ≠ (0,0)) : Touched w b := by
  by_contra hc
  exact hx (hb ▸ (h.fresh b hc).1)

/-- `bget` hands out buffer `b` with the contents `x`, so that no other buffer in use
has its label. -/
theorem Inv.got (h : Inv w l) (hpc : w.pc p = .run) {b : Fin NBUF} {x : Buf}
    (href : x.refcnt = (w.cache.buf b).refcnt + 1)
    (hother : ∀ a, a ≠ b → Touched w a → w.cache.label a ≠ (x.dev,x.blockno))
    (hbefore : l.Pairwise fun a y => y = b → (x.dev,x.blockno) = (0,0) → Touched w a) :
    Inv { w.goto p (.wait b) with cache := w.cache.setBuf b x } l := by
  have hlabel : ∀ c, (w.cache.setBuf b x).label c
      = if c = b then (x.dev,x.blockno) else w.cache.label c := by
    intro c
    by_cases hc : c = b
    · subst hc; simp [label,setBuf]
    · simp [label,setBuf,hc]
  have htouch : ∀ c, Touched (P := P) { w.goto p (.wait b) with cache := w.cache.setBuf b x } c ↔
      Touched w c ∨ c = b := by
    intro c
    by_cases hc : c = b
    · subst hc; simp [Touched,setBuf,href]
    · simp [Touched,setBuf,World.goto,hc]
  refine ⟨h.order,?_,?_,?_,?_,h.clock⟩
  · intro c
    have hu := users_goto w p (.wait b) c
    rw [hpc] at hu
    change _ = users (w.goto p (.wait b)) c
    have hcount := h.count c
    by_cases hc : c = b
    · subst hc
      simp only [Pc.on,beq_self_eq_true,if_true,Bool.false_eq_true,if_false] at hu
      simp only [setBuf,update_self]
      omega
    · have hbc : (b == c) = false := by simpa using Ne.symm hc
      simp only [Pc.on,hbc,Bool.false_eq_true,if_false] at hu
      simp only [setBuf,update_of_ne hc]
      omega
  · intro c hc
    rw [htouch] at hc
    obtain ⟨hc,hcb⟩ := not_or.mp hc
    have := h.fresh c hc
    simpa [setBuf,hcb,label] using this
  · intro a c ha hc hac
    rw [hlabel,hlabel] at hac
    rw [htouch] at ha hc
    by_cases hab : a = b <;> by_cases hcb : c = b
    · rw [hab,hcb]
    · rw [if_pos hab,if_neg hcb] at hac
      exact absurd hac.symm (hother c hcb (hc.resolve_right hcb))
    · rw [if_neg hab,if_pos hcb] at hac
      exact absurd hac (hother a hab (ha.resolve_right hab))
    · rw [if_neg hab,if_neg hcb] at hac
      exact h.unique a c (ha.resolve_right hab) (hc.resolve_right hcb) hac
  · refine (h.before.and hbefore).imp fun {c y} hcy => ⟨?_,?_⟩
    · intro hc hy
      refine hcy.1.lru ?_ ?_
      · by_cases hcb : c = b
        · subst hcb; simp [setBuf,href] at hc
        · simpa [setBuf,hcb] using hc
      · by_cases hyb : y = b
        · subst hyb; simp [setBuf,href] at hy
        · simpa [setBuf,hyb] using hy
    · rw [hlabel,htouch,htouch]
      intro hy h00
      by_cases hyb : y = b
      · rw [if_pos hyb] at h00
        exact .inl (hcy.2 hyb h00)
      · rw [if_neg hyb] at h00
        exact .inl (hcy.1.label (hy.resolve_right hyb) h00)

/-- `bget` of a block that has a buffer: of the buffers with its label it takes the first. -/
theorem Inv.bget_cached (h : Inv w l) (hpc : w.pc p = .run) {dev blockno : ℕ} {b : Fin NBUF}
    (hb : w.cache.cached dev blockno = some b) : Inv { w.goto p (.wait b) with
      cache := w.cache.setBuf b { w.cache.buf b with refcnt := (w.cache.buf b).refcnt + 1 } } l := by
  rw [h.order.cached_eq] at hb
  have hlab : w.cache.label b = (dev,blockno) := by simpa using List.find?_some hb
  have hfirst := h.before.and (find?_pairwise h.order.nodup hb)
  refine h.got hpc rfl ?_ ?_
  · intro a hne ha hab
    have hab' : w.cache.label a = w.cache.label b := hab
    have hfa : (w.cache.label a == (dev,blockno)) = true := by simp [hab',hlab]
    rcases pairwise_or hfirst (h.order.2 a) (h.order.2 b) hne with ⟨-,h2⟩ | ⟨h1,-⟩
    · rw [h2 rfl] at hfa
      cases hfa
    · refine hne (h.unique a b ha ?_ hab')
      by_cases h00 : (dev,blockno) = (0,0)
      · exact h1.label ha (by rw [hab',hlab,h00])
      · exact h.touched_of_label hlab h00
  · refine (find?_pairwise h.order.nodup hb).imp fun {x y} hxy hy h00 => ?_
    -- what comes before the buffer that was found has another label
    refine h.touched_of_label rfl fun hx => ?_
    have hlab0 : w.cache.label b = (0,0) := h00
    have := hxy hy
    rw [hx,← hlab,hlab0] at this
    simp at this

/-- `bget` of a block that has none: a buffer is recycled. -/
theorem Inv.bget_recycled (h : Inv w l) (hpc : w.pc p = .run) {dev blockno : ℕ} {b : Fin NBUF}
    (hn : w.cache.cached dev blockno = none) (hb : w.cache.unused = some b) :
    Inv { w.goto p (.wait b) with
      cache := w.cache.setBuf b ⟨false,false,dev,blockno,1⟩ } l := by
  rw [h.order.cached_eq,List.find?_eq_none] at hn
  rw [h.order.unused_eq] at hb
  have hzero : (w.cache.buf b).refcnt = 0 := by
    have hidle : w.cache.idle b = true := List.find?_some hb
    simp only [idle,Bool.and_eq_true,beq_iff_eq] at hidle
    exact hidle.1
  have hne : ∀ c, w.cache.label c ≠ (dev,blockno) := by
    intro c
    simpa using hn c (h.order.2 c)
  refine h.got hpc (by simp [hzero]) (fun a _ _ => hne a) ?_
  refine pairwise_of_forall fun x y _ h00 => ?_
  exact h.touched_of_label rfl fun hx => hne x (hx.trans h00.symm)

omit [DecidableEq P] in
/-- A step that takes no buffer out of use and leaves the list as it is. -/
theorem Inv.keep (h : Inv w l) (ho : w'.cache.Order l)
    (hcount : ∀ b, (w'.cache.buf b).refcnt = users w' b)
    (hlabel : ∀ b, w'.cache.label b = w.cache.label b)
    (hpos : ∀ b, 0 < (w.cache.buf b).refcnt → 0 < (w'.cache.buf b).refcnt)
    (hfresh : ∀ b, ¬ Touched w b → w'.cache.buf b = w.cache.buf b)
    (hd : w'.dropped = w.dropped) (hk : w.clock ≤ w'.clock) : Inv w' l := by
  have htouch : ∀ b, Touched w' b ↔ Touched w b := by
    intro b
    refine ⟨fun hb => ?_,Or.imp (hpos b) (hd ▸ id)⟩
    by_contra hc
    rw [Touched,hfresh b hc,hd] at hb
    exact hc hb
  have hzero : ∀ b, (w'.cache.buf b).refcnt = 0 → (w.cache.buf b).refcnt = 0 := by
    intro b hb
    have := hpos b
    omega
  refine ⟨ho,hcount,fun b hb => ?_,fun a b => ?_,?_,fun b t hb => ?_⟩
  · rw [htouch] at hb
    rw [hlabel,hfresh b hb]
    exact h.fresh b hb
  · rw [htouch,htouch,hlabel,hlabel]
    exact h.unique a b
  · refine h.before.imp fun {x y} hxy => ⟨fun hx hy => ?_,?_⟩
    · rw [hd]
      exact hxy.lru (hzero x hx) (hzero y hy)
    · rw [htouch,htouch,hlabel]
      exact hxy.label
  · rw [hd] at hb
    exact (h.clock b t hb).trans_le hk

omit [DecidableEq P] in
theorem Inv.same_cache (h : Inv w l) {owner : Fin NBUF → Option P} {pc : P → Pc}
    (hu : ∀ b, users { w with owner := owner, pc := pc } b = users w b) :
    Inv { w with owner := owner, pc := pc } l :=
  h.keep h.order (fun b => (h.count b).trans (hu b).symm) (fun _ => rfl) (fun _ h => h)
    (fun _ _ => rfl) rfl le_rfl

omit [DecidableEq P] in
theorem Inv.setFlags (h : Inv w l) {b : Fin NBUF} (hb : w.owner b = some p) (valid dirty : Bool) :
    Inv { w with
      cache := w.cache.setBuf b { w.cache.buf b with valid := valid, dirty := dirty } } l := by
  have hbuf : ∀ c, ((w.cache.setBuf b { w.cache.buf b with valid := valid, dirty := dirty }).buf
        c).refcnt = (w.cache.buf c).refcnt ∧ (w.cache.setBuf b
        { w.cache.buf b with valid := valid, dirty := dirty }).label c = w.cache.label c := by
    intro c
    by_cases hc : c = b
    · subst hc; simp [label,setBuf]
    · simp [label,setBuf,hc]
  refine h.keep h.order (fun c => (hbuf c).1.trans (h.count c)) (fun c => (hbuf c).2)
    (fun c hc => hc.trans_eq (hbuf c).1.symm) (fun c hc => setBuf_of_ne _ ?_ _) rfl le_rfl
  rintro rfl
  exact hc (h.touched_of_use (by simp only [users,hb,isSome_some,if_true]; omega))

omit [DecidableEq P] in
theorem Inv.refcnt_pos (h : Inv w l) {b : Fin NBUF} (hp : (w.pc p).on b = true) :
    0 < (w.cache.buf b).refcnt := by
  have : 0 < (Finset.univ.filter fun q => (w.pc q).on b).card :=
    card_pos.mpr ⟨p,by simp [hp]⟩
  have := h.count b
  simp only [users] at this
  omega

/-- The uses of the buffers after the section of `brelse`. -/
theorem Inv.drop_count (h : Inv w l) {b : Fin NBUF} (hpc : w.pc p = .drop b) (c : Fin NBUF) :
    ((w.cache.brelse b).buf c).refcnt = users (w.drop p b) c := by
  have hu := users_goto w p .run c
  have hpos := h.refcnt_pos (p := p) (b := b) (by simp [hpc,Pc.on])
  have hcount := h.count c
  change _ = users (w.goto p .run) c
  rw [hpc] at hu
  rw [brelse_buf]
  dsimp only
  by_cases hc : c = b
  · subst hc
    simp only [Pc.on,beq_self_eq_true,if_true,Bool.false_eq_true,if_false] at hu
    rw [if_pos rfl]
    omega
  · have hbc : (b == c) = false := by simpa using Ne.symm hc
    simp only [Pc.on,hbc,Bool.false_eq_true,if_false] at hu
    rw [if_neg hc]
    omega

omit [Fintype P] in
theorem drop_label {b : Fin NBUF} (c : Fin NBUF) :
    (w.drop p b).cache.label c = w.cache.label c :=
  (brelse_kept w.cache b c).2.2

/-- A buffer that nobody uses any more becomes the most recent. -/
theorem Inv.drop_last (h : Inv w l) {b : Fin NBUF} (hpc : w.pc p = .drop b)
    (h1 : (w.cache.buf b).refcnt = 1) : Inv (w.drop p b) (b :: l.erase b) := by
  have hbt : Touched w b := .inl (by omega)
  have hdrop : (w.drop p b).dropped = update w.dropped b (some w.clock) := if_pos h1
  have hother : ∀ c, c ≠ b → (w.drop p b).cache.buf c = w.cache.buf c ∧
      (w.drop p b).dropped c = w.dropped c := by
    intro c hc
    refine ⟨(brelse_buf w.cache b c).trans ?_,by rw [hdrop,update_of_ne hc]⟩
    rw [if_neg hc]
  have htouch : ∀ c, Touched (w.drop p b) c ↔ Touched w c := by
    intro c
    by_cases hc : c = b
    · rw [hc]
      exact iff_of_true (.inr (by rw [hdrop,update_self]; nofun)) hbt
    · rw [Touched,Touched,(hother c hc).1,(hother c hc).2]
  have hne : ∀ x ∈ l.erase b, x ≠ b := fun x hx => (h.order.nodup.mem_erase_iff.mp hx).1
  refine ⟨?_,h.drop_count hpc,fun c hc => ?_,fun a c => ?_,
    pairwise_cons.mpr ⟨fun y hy => ⟨fun _ _ => ?_,fun _ _ => (htouch b).mpr hbt⟩,?_⟩,
    fun c t ht => ?_⟩
  · change (w.cache.brelse b).Order _
    rw [brelse_of_last (by omega)]
    exact Order.moved (c := w.cache.decref b) h.order
  · rw [htouch] at hc
    rw [drop_label,(hother c fun he => hc (he ▸ hbt)).1]
    exact h.fresh c hc
  · rw [htouch,htouch,drop_label,drop_label]
    exact h.unique a c
  · rw [Older,hdrop,update_self,update_of_ne (hne y hy)]
    cases ht : w.dropped y with
    | none => trivial
    | some t => exact h.clock y t ht
  · -- the other buffers stand to each other as before
    refine (h.before.sublist erase_sublist).imp_of_mem fun {x y} hx hy hxy => ?_
    obtain ⟨hbx,hdx⟩ := hother x (hne x hx)
    obtain ⟨hby,hdy⟩ := hother y (hne y hy)
    refine ⟨?_,?_⟩
    · rw [Older,hbx,hby,hdx,hdy]
      exact hxy.lru
    · rw [htouch,htouch,drop_label]
      exact hxy.label
  · rw [hdrop] at ht
    change t < w.clock + 1
    by_cases hc : c = b
    · rw [hc,update_self,Option.some.injEq] at ht
      omega
    · rw [update_of_ne hc] at ht
      have := h.clock c t ht
      omega

/-- The section of `brelse`. -/
theorem Inv.drop (h : Inv w l) {b : Fin NBUF} (hpc : w.pc p = .drop b) :
    ∃ l', Inv (w.drop p b) l' := by
  have hpos := h.refcnt_pos (p := p) (b := b) (by simp [hpc,Pc.on])
  by_cases h1 : (w.cache.buf b).refcnt = 1
  · exact ⟨_,h.drop_last hpc h1⟩
  · refine ⟨l,h.keep ?_ (h.drop_count hpc) drop_label (fun c hc => ?_) (fun c hc => ?_)
      (if_neg h1) (Nat.le_succ _)⟩
    · change (w.cache.brelse b).Order _
      rw [brelse_of_used (by omega)]
      exact h.order
    · refine Nat.lt_of_lt_of_eq ?_ (congrArg Buf.refcnt (brelse_buf w.cache b c)).symm
      dsimp only
      split
      · rename_i hcb
        rw [hcb]
        omega
      · exact hc
    · refine (brelse_buf w.cache b c).trans ?_
      rw [if_neg]
      rintro rfl
      exact hc (.inl hpos)

/-- Giving the sleep-lock to `p`, or taking it back, with the step of `p` that goes with it. -/
theorem users_lock {b : Fin NBUF} {o : Option P} {c : Pc}
    (hb : (if o.isSome then 1 else 0) + (if c.on b then 1 else 0)
      = (if (w.owner b).isSome then 1 else 0) + if (w.pc p).on b then 1 else 0)
    (hne : ∀ x, x ≠ b → c.on x = (w.pc p).on x) (x : Fin NBUF) :
    users { w.goto p c with owner := update w.owner b o } x = users w x := by
  have hu := card_on_update (p := p) w.pc c x
  have hnew : users { w.goto p c with owner := update w.owner b o } x
      = (if (update w.owner b o x).isSome then 1 else 0) +
        (Finset.univ.filter fun q => (update w.pc p c q).on x).card := rfl
  have hold : users w x = (if (w.owner x).isSome then 1 else 0) +
    (Finset.univ.filter fun q => (w.pc q).on x).card := rfl
  by_cases hx : x = b
  · subst hx
    rw [update_self] at hnew
    omega
  · rw [update_of_ne hx] at hnew
    rw [hne x hx] at hu
    omega

theorem Inv.step {a : Action} (h : Inv w l) (hs : w.step p a = some w') : ∃ l', Inv w' l' := by
  cases a with
  | bget dev blockno =>
    obtain ⟨hpc,b,x,rfl,⟨hc,rfl⟩ | ⟨hc,hu,rfl⟩⟩ := step_bget hs
    · exact ⟨l,h.bget_cached hpc hc⟩
    · exact ⟨l,h.bget_recycled hpc hc hu⟩
  | acquiresleep =>
    obtain ⟨b,hpc,hfree,rfl⟩ := step_acquiresleep hs
    refine ⟨l,h.same_cache (users_lock (by simp [hpc,hfree]) fun x hx => ?_)⟩
    simpa [hpc] using Ne.symm hx
  | setFlags b valid dirty =>
    obtain ⟨-,hown,rfl⟩ := step_setFlags hs
    exact ⟨l,h.setFlags hown valid dirty⟩
  | releasesleep b =>
    obtain ⟨hpc,hown,rfl⟩ := step_releasesleep hs
    refine ⟨l,h.same_cache (users_lock (by simp [hpc,hown]) fun x hx => ?_)⟩
    simpa [hpc] using Ne.symm hx
  | brelse =>
    obtain ⟨b,hpc,rfl⟩ := step_brelse hs
    exact h.drop hpc

theorem Inv.reach (h : Reach w) : ∃ l, Inv w l := by
  induction h with
  | init => exact ⟨_,Inv.init⟩
  | step _ hs ih =>
    obtain ⟨l,hl⟩ := ih
    exact hl.step hs

/-- The buffer has a copy of its block, or somebody wants it to. -/
def InUse (w : World P) (b : Fin NBUF) : Prop :=
  0 < (w.cache.buf b).refcnt ∨ (w.cache.buf b).valid = true ∨ (w.cache.buf b).dirty = true

omit [DecidableEq P] in
theorem Inv.touched_of_inUse (h : Inv w l) {b : Fin NBUF} (hb : InUse w b) : Touched w b := by
  by_contra hc
  obtain ⟨-,hv,hd⟩ := h.fresh b hc
  rcases hb with hb | hb | hb
  · exact hc (.inl hb)
  · rw [hv] at hb
    cases hb
  · rw [hd] at hb
    cases hb

/-- The list of buffers as the pointers give it. -/
structure Listed (c : Bcache) (l : List (Fin NBUF)) : Prop where
  nodup : l.Nodup
  all : ∀ b, b ∈ l
  next : (List.range (NBUF + 1)).map (fun i => c.next^[i + 1] none) = l.map some ++ [none]
  prev : (List.range (NBUF + 1)).map (fun i => c.prev^[i + 1] none) = l.reverse.map some ++ [none]
  inverse : ∀ x, c.prev (c.next x) = x ∧ c.next (c.prev x) = x

theorem listed_of_order {c : Bcache} (h : c.Order l) : Listed c l := by
  have walk : ∀ {next prev : BufPtr → BufPtr} {l : List (Fin NBUF)}, l.length = NBUF →
      Ring.Seg next prev none (l.map some) none →
      (List.range (NBUF + 1)).map (fun i => next^[i + 1] none) = l.map some ++ [none] := by
    intro next prev l hl hs
    refine ext_get (by simp [hl]) fun i h1 h2 => ?_
    rw [← hs.iterate h2]
    simp only [get_eq_getElem,getElem_map,getElem_range]
  have hs := h.1.seg.reverse
  rw [← map_reverse] at hs
  refine ⟨h.nodup,h.2,walk h.length h.1.seg,walk (by rw [length_reverse,h.length]) hs,?_⟩
  intro x
  obtain ⟨h1,h2⟩ := h.1.seg.inverse
  have hx : x ∈ none :: l.map some := by
    cases x with
    | none => simp
    | some b => simp [h.2 b]
  exact ⟨h1 x hx,h2 x (by simpa [or_comm] using hx)⟩

/-- The representation invariant of the buffer cache: the list, the reference counts,
one buffer per block, and which buffer `bget` recycles. -/
theorem bcache_invariant (h : Reach w) : (∃ l, Listed w.cache l) ∧
    (∀ b, (w.cache.buf b).refcnt = users w b) ∧
    (∀ a b, InUse w a → InUse w b → w.cache.label a = w.cache.label b → a = b) ∧
    ∀ dev blockno b c, (∀ a, w.cache.label a ≠ (dev,blockno)) →
      w.cache.bget dev blockno = some (b,c) →
      w.cache.idle b = true ∧ ∀ a, w.cache.idle a = true → a ≠ b → Older w.dropped b a := by
  obtain ⟨l,hl⟩ := Inv.reach h
  refine ⟨⟨l,listed_of_order hl.order⟩,hl.count,?_,?_⟩
  · intro a b ha hb hab
    exact hl.unique a b (hl.touched_of_inUse ha) (hl.touched_of_inUse hb) hab
  · intro dev blockno b c hne hb
    have hnone : w.cache.cached dev blockno = none := by
      rw [hl.order.cached_eq,List.find?_eq_none]
      intro a _
      simpa using hne a
    have hunused : w.cache.unused = some b := by
      unfold bget at hb
      rw [hnone] at hb
      dsimp only at hb
      split at hb
      · cases hb
        assumption
      · cases hb
    have href : ∀ a, w.cache.idle a = true → (w.cache.buf a).refcnt = 0 := by
      intro a ha
      simp only [idle,Bool.and_eq_true,beq_iff_eq] at ha
      exact ha.1
    rw [hl.order.unused_eq] at hunused
    have hidle : w.cache.idle b = true := List.find?_some hunused
    refine ⟨hidle,fun a ha hab => ?_⟩
    have hlast := hl.before.and (find?_reverse_pairwise hl.order.nodup hunused)
    rcases pairwise_or hlast (hl.order.2 a) (hl.order.2 b) hab with ⟨h1,-⟩ | ⟨-,h2⟩
    · exact h1.lru (href a ha) (href b hidle)
    · rw [h2 rfl] at ha
      cases ha

end Invariant

def lastBuf : Fin NBUF := ⟨29,by decide⟩

/-- A process reads block (0, 0) and gives it back while another gets a block. -/
def readZero : List (Bool × Action) :=
  [(true,.bget 0 0), (true,.acquiresleep), (true,.setFlags lastBuf true false),
    (true,.releasesleep lastBuf), (true,.brelse), (false,.bget 1 7)]

theorem bcache_invariant_readZero :
    ∃ w : World Bool, (World.init Bool).exec readZero = some w ∧ InUse w lastBuf ∧
      w.cache.label lastBuf = (0,0) ∧ (∀ b, (w.cache.buf b).refcnt = users w b) ∧
      ∀ b, InUse w b → w.cache.label b = (0,0) → b = lastBuf := by
  obtain ⟨w,hw,hv,hl⟩ : ∃ w ∈ (World.init Bool).exec readZero,
      (w.cache.buf lastBuf).valid = true ∧ w.cache.label lastBuf = (0,0) := by decide +kernel
  obtain ⟨-,hcount,hunique,-⟩ := bcache_invariant (Reach.of_exec .init hw)
  exact ⟨w,hw,.inr (.inl hv),hl,hcount,
    fun b hb h0 => hunique b lastBuf hb (.inr (.inl hv)) (h0.trans hl.symm)⟩

end Xv6.Sharing
