import Xv6.Bcache.Commit

/-! # The buffer cache is transparent

Every step leaves the logical content of the blocks alone, or is a store of the
process that holds the buffer. -/
namespace Xv6.Caching
open Function Sharing Bcache Option

variable {P : Type} {w w' : World P} {p : P} {b : Fin NBUF} {x : ℕ}

namespace World

def label (w : World P) (b : Fin NBUF) : ℕ × ℕ := w.shared.cache.label b

def setFlags (w : World P) (b : Fin NBUF) (valid dirty : Bool) : World P :=
  let c := w.shared.cache.setBuf b { w.shared.cache.buf b with valid := valid, dirty := dirty }
  { w with shared := { w.shared with cache := c } }

@[simp] theorem setFlags_buf (w : World P) (b : Fin NBUF) (valid dirty : Bool) :
    (w.setFlags b valid dirty).buf b = { w.buf b with valid := valid, dirty := dirty } := by
  simp [setFlags,buf,setBuf]

theorem setFlags_buf_ne (w : World P) {b c : Fin NBUF} (hc : c ≠ b) (valid dirty : Bool) :
    (w.setFlags b valid dirty).buf c = w.buf c := by
  simp [setFlags,buf,setBuf,hc]

@[simp] theorem setFlags_label (w : World P) (b c : Fin NBUF) (valid dirty : Bool) :
    (w.setFlags b valid dirty).label c = w.label c := by
  by_cases hc : c = b
  · subst hc
    simp [label,Bcache.label,setFlags,Bcache.setBuf]
  · simp [label,Bcache.label,setFlags,Bcache.setBuf,hc]

theorem setFlags_setFlags (w : World P) (b : Fin NBUF) (v d v' d' : Bool) :
    (w.setFlags b v d).setFlags b v' d' = w.setFlags b v' d' := by
  simp [setFlags,setBuf]

end World

/-- The buffer that a process is busy with. -/
def PhaseOk (w : World P) (p : P) : Prop :=
  match w.phase p with
  | .run => True
  | .getting x => ∃ b, w.shared.pc p = .wait b ∧ w.label b = (ROOTDEV,x)
  | .locked x b => w.shared.owner b = some p ∧ w.label b = (ROOTDEV,x) ∧ w.modified b = false
  | .logging b => w.shared.owner b = some p ∧ (w.buf b).valid = true

/-- The blocks whose buffers `p` has changed and not yet written or logged. -/
def Changed (w : World P) (p : P) : Set ℕ :=
  { x | ∃ b, w.shared.owner b = some p ∧ w.label b = (ROOTDEV,x) ∧ w.modified b = true }

/-- A step of `p` below the log. -/
structure Below (w : World P) (p : P) (w' : World P) : Prop where
  log : w'.log = w.log
  op : w'.op = w.op
  script : w'.script = w.script
  dirty : ∀ b, (w'.buf b).dirty = true →
    (w.buf b).dirty = true ∧ (w'.buf b).blockno = (w.buf b).blockno
  other : ∀ q, q ≠ p → w'.phase q = w.phase q
  logging : ∀ b, w'.phase p = .logging b → w.phase p = .logging b ∨ w.op p = true

def DirtyBefore (w w' : World P) : Prop :=
  ∀ b, (w'.buf b).dirty = true →
    (w.buf b).dirty = true ∧ (w'.buf b).blockno = (w.buf b).blockno

theorem inUse_of_valid (hv : (w.buf b).valid = true) : Sharing.InUse w.shared b := .inr (.inl hv)

theorem label_eq_of_buf (hd : (w'.buf b).dev = (w.buf b).dev)
    (hn : (w'.buf b).blockno = (w.buf b).blockno) : w'.label b = w.label b :=
  Prod.ext hd hn

theorem logical_of_none (hn : ∀ b, w.label b = (ROOTDEV,x) → (w.buf b).valid = false) :
    w.logical x = w.disk x := by
  unfold World.logical
  have : (List.finRange NBUF).find? (fun c =>
      w.shared.cache.label c == (ROOTDEV,x) && (w.buf c).valid) = none := by
    rw [List.find?_eq_none]
    intro b _ hb
    simp only [Bool.and_eq_true,beq_iff_eq] at hb
    have := hn b hb.1
    simp [this] at hb
  rw [this]

/-- A process is not disturbed by what happens to buffers that it neither waits for nor
holds. -/
theorem PhaseOk.frame {q : P} (h : PhaseOk w q) (hph : w'.phase q = w.phase q)
    (hpc : w'.shared.pc q = w.shared.pc q)
    (hwait : ∀ c, w.shared.pc q = .wait c → w'.label c = w.label c)
    (hown : ∀ c, w.shared.owner c = some q → w'.shared.owner c = some q ∧
      w'.label c = w.label c ∧ (w'.buf c).valid = (w.buf c).valid ∧ w'.modified c = w.modified c) :
    PhaseOk w' q := by
  unfold PhaseOk at h ⊢
  rw [hph]
  cases hq : w.phase q <;> rw [hq] at h <;> dsimp only at h ⊢
  case getting x =>
    obtain ⟨b,hb,hl⟩ := h
    exact ⟨b,by rw [hpc,hb],by rw [hwait b hb,hl]⟩
  case locked x b =>
    obtain ⟨ho,hl,hm⟩ := h
    obtain ⟨h1,h2,-,h4⟩ := hown b ho
    exact ⟨h1,by rw [h2,hl],by rw [h4,hm]⟩
  case logging b =>
    obtain ⟨ho,hv⟩ := h
    obtain ⟨h1,-,h3,-⟩ := hown b ho
    exact ⟨h1,by rw [h3,hv]⟩

theorem PhaseOk.same {q : P} (h : PhaseOk w q) (hph : w'.phase q = w.phase q)
    (hsh : w'.shared = w.shared) (hm : w'.modified = w.modified) : PhaseOk w' q := by
  refine h.frame hph (by rw [hsh]) (fun c _ => congrArg (·.cache.label c) hsh) fun c hc => ?_
  exact ⟨by rw [hsh,hc],congrArg (·.cache.label c) hsh,congrArg (·.cache.buf c |>.valid) hsh,
    by rw [hm]⟩

theorem Below.op_of_logging (hb : Below w p w') (h : ∀ q c, w.phase q = .logging c → w.op q = true)
    {q : P} (hq : w'.phase q = .logging b) : w'.op q = true := by
  rw [hb.op]
  by_cases hqp : q = p
  · subst hqp
    exact (hb.logging b hq).elim (h q b) id
  · rw [hb.other q hqp] at hq
    exact h q b hq

theorem Below.of_phase (hphase : w'.phase = w.phase) (hlog : w'.log = w.log) (hop : w'.op = w.op)
    (hscript : w'.script = w.script) (hdirty : DirtyBefore w w') : Below w p w' :=
  ⟨hlog,hop,hscript,hdirty,fun q _ => congrFun hphase q,
    fun _ hb => .inl ((congrFun hphase p).symm.trans hb)⟩

structure SameBufs (w w' : World P) : Prop where
  label : ∀ b, w'.label b = w.label b
  valid : ∀ b, (w'.buf b).valid = (w.buf b).valid
  dirty : ∀ b, (w'.buf b).dirty = (w.buf b).dirty
  data : w'.data = w.data
  disk : w'.disk = w.disk
  modified : w'.modified = w.modified
  unwritten : w'.unwritten = w.unwritten

theorem SameBufs.of_refcnt (hbuf : ∀ c, ∃ n, w'.buf c = { w.buf c with refcnt := n })
    (hdata : w'.data = w.data) (hdisk : w'.disk = w.disk) (hm : w'.modified = w.modified)
    (hu : w'.unwritten = w.unwritten) : SameBufs w w' := by
  refine ⟨fun c => ?_,fun c => ?_,fun c => ?_,hdata,hdisk,hm,hu⟩ <;>
    obtain ⟨n,hn⟩ := hbuf c
  · exact label_eq_of_buf (by rw [hn]) (by rw [hn])
  · rw [hn]
  · rw [hn]

theorem SameBufs.changed (h : SameBufs w w')
    (ho : ∀ b, w.modified b = true → w'.shared.owner b = w.shared.owner b) (q : P) :
    Changed w' q ⊆ Changed w q := by
  rintro y ⟨c,hc,hl,hm⟩
  rw [h.modified] at hm
  exact ⟨c,(ho c hm).symm.trans hc,(h.label c).symm.trans hl,hm⟩

structure Apart (w w' : World P) (b : Fin NBUF) : Prop where
  buf : ∀ c, c ≠ b → w'.buf c = w.buf c
  data : ∀ c, c ≠ b → w'.data c = w.data c
  modified : ∀ c, c ≠ b → w'.modified c = w.modified c
  owner : w'.shared.owner = w.shared.owner

theorem Apart.label (h : Apart w w' b) {c : Fin NBUF} (hc : c ≠ b) : w'.label c = w.label c :=
  Prod.ext (congrArg Buf.dev (h.buf c hc)) (congrArg Buf.blockno (h.buf c hc))

theorem Apart.phase (h : Apart w w' b) {q : P} (hq : PhaseOk w q)
    (hph : w'.phase q = w.phase q) (hpc : w'.shared.pc q = w.shared.pc q)
    (hw : w.shared.pc q = .wait b → w'.label b = w.label b)
    (ho : w.shared.owner b ≠ some q) : PhaseOk w' q := by
  refine hq.frame hph hpc (fun c hc => ?_) fun c hc => ?_
  · by_cases hcb : c = b
    · subst hcb
      exact hw hc
    · exact h.label hcb
  · have hcb : c ≠ b := by
      rintro rfl
      exact ho hc
    exact ⟨by rw [h.owner,hc],h.label hcb,by rw [h.buf c hcb],h.modified c hcb⟩

theorem Apart.dirtyBefore (ha : Apart w w' b) (hb : (w'.buf b).dirty = false) :
    DirtyBefore w w' := by
  intro c hd
  have hcb : c ≠ b := by
    rintro rfl
    cases hb.symm.trans hd
  rw [ha.buf c hcb] at hd ⊢
  exact ⟨hd,rfl⟩

theorem Apart.changed (ha : Apart w w' b) {q : P}
    (hb : w.shared.owner b = some q → w'.modified b = false) : Changed w' q ⊆ Changed w q := by
  rintro y ⟨c,ho,hl,hm⟩
  rw [ha.owner] at ho
  have hcb : c ≠ b := by
    rintro rfl
    cases (hb ho).symm.trans hm
  exact ⟨c,ho,(ha.label hcb).symm.trans hl,(ha.modified c hcb).symm.trans hm⟩

variable [DecidableEq P]

/-- How the buffers, the disk and what the processes are doing fit together. -/
structure Coherent (w : World P) : Prop where
  shared : Sharing.Reach w.shared
  dev : ∀ b, Sharing.InUse w.shared b → (w.buf b).dev = ROOTDEV
  dirty : ∀ b, (w.buf b).dirty = true → (w.buf b).valid = true
  /-- data that differs from the disk is pinned or still being changed -/
  clean : ∀ b, (w.buf b).valid = true → (w.buf b).dirty = false → w.modified b = false →
    w.data b = w.disk (w.buf b).blockno
  modified : ∀ b, w.modified b = true → (w.buf b).valid = true ∧ w.shared.owner b ≠ none
  phase : ∀ p, PhaseOk w p
  unwritten : ∀ x ∈ w.unwritten, ∃ b, w.label b = (ROOTDEV,x) ∧ (w.buf b).dirty = true

/-- A step of `p` below the log that keeps all contents and changes no more buffers. -/
structure Tame (w : World P) (p : P) (w' : World P) : Prop where
  coherent : Coherent w'
  logical : w'.logical = w.logical
  below : Below w p w'
  changed : ∀ q, Changed w' q ⊆ Changed w q

theorem Coherent.label_eq (h : Coherent w) (hb : Sharing.InUse w.shared b) :
    w.label b = (ROOTDEV,(w.buf b).blockno) :=
  Prod.ext (h.dev b hb) rfl

/-- A step that moves `p` to a place outside `log_write`. -/
theorem Below.of_goto {c : Phase} (hphase : w'.phase = update w.phase p c)
    (hc : ∀ b, c ≠ .logging b) (hlog : w'.log = w.log) (hop : w'.op = w.op)
    (hscript : w'.script = w.script) (hdirty : DirtyBefore w w') : Below w p w' := by
  refine ⟨hlog,hop,hscript,hdirty,fun q hq => ?_,fun b hb => ?_⟩
  · rw [hphase,update_of_ne hq]
  · rw [hphase,update_self] at hb
    exact absurd hb (hc b)

/-- A step on one buffer: it is enough to look at that buffer. -/
theorem Coherent.apart (h : Coherent w) (hr : Sharing.Reach w'.shared) (ha : Apart w w' b)
    (hdev : (w'.buf b).dev = ROOTDEV) (hdirty : (w'.buf b).dirty = true → (w'.buf b).valid = true)
    (hclean : (w'.buf b).valid = true → (w'.buf b).dirty = false → w'.modified b = false →
      w'.data b = w'.disk (w'.buf b).blockno)
    (hmod : w'.modified b = true → (w'.buf b).valid = true ∧ w.shared.owner b ≠ none)
    (hdisk : ∀ c, c ≠ b → (w.buf c).valid = true →
      w'.disk (w.buf c).blockno = w.disk (w.buf c).blockno) (hphase : ∀ q, PhaseOk w' q)
    (hunw : ∀ y ∈ w'.unwritten, (w'.label b = (ROOTDEV,y) ∧ (w'.buf b).dirty = true) ∨
      y ∈ w.unwritten ∧ ¬ (w.label b = (ROOTDEV,y) ∧ (w.buf b).dirty = true)) : Coherent w' := by
  refine ⟨hr,?_,?_,?_,?_,hphase,?_⟩
  · intro c hc
    by_cases hcb : c = b
    · rw [hcb]
      exact hdev
    · have hcc : w'.shared.cache.buf c = w.shared.cache.buf c := ha.buf c hcb
      rw [ha.buf c hcb]
      refine h.dev c ?_
      rwa [Sharing.InUse,hcc] at hc
  · intro c hc
    by_cases hcb : c = b
    · subst hcb
      exact hdirty hc
    · rw [ha.buf c hcb] at hc ⊢
      exact h.dirty c hc
  · intro c hv hd hm
    by_cases hcb : c = b
    · subst hcb
      exact hclean hv hd hm
    · rw [ha.buf c hcb] at hv hd ⊢
      rw [ha.modified c hcb] at hm
      rw [ha.data c hcb,hdisk c hcb hv]
      exact h.clean c hv hd hm
  · intro c hm
    rw [ha.owner]
    by_cases hcb : c = b
    · subst hcb
      exact hmod hm
    · rw [ha.modified c hcb] at hm
      rw [ha.buf c hcb]
      exact h.modified c hm
  · intro y hy
    rcases hunw y hy with hb | ⟨hy,hb⟩
    · exact ⟨b,hb⟩
    · obtain ⟨c,hc⟩ := h.unwritten y hy
      have hcb : c ≠ b := by
        rintro rfl
        exact hb hc
      exact ⟨c,by rw [ha.label hcb,hc.1],by rw [ha.buf c hcb,hc.2]⟩

/-- Another process neither waits for a buffer whose label stays nor holds that of `p`. -/
theorem Coherent.phase_other (h : Coherent w) (ha : Apart w w' b) (hown : w.shared.owner b = some p)
    (hlab : w'.label b = w.label b) {q : P} (hq : q ≠ p) (hph : w'.phase q = w.phase q)
    (hpc : w'.shared.pc q = w.shared.pc q) : PhaseOk w' q :=
  ha.phase (h.phase q) hph hpc (fun _ => hlab) (by
    rw [hown]
    exact fun he => hq (Option.some.inj he).symm)

theorem share_eq {a : Sharing.Action} (hs : w.share p a = some w') :
    ∃ s, w.shared.step p a = some s ∧ w' = { w with shared := s } := by
  obtain ⟨s,h1,h2⟩ := map_eq_some_iff.mp hs
  exact ⟨s,h1,h2.symm⟩

theorem share_setFlags {valid dirty : Bool} (h : Sharing.Reach w.shared)
    (hs : w.share p (.setFlags b valid dirty) = some w') :
    w.shared.owner b = some p ∧ Sharing.Reach w'.shared ∧ w' = w.setFlags b valid dirty := by
  obtain ⟨s,h1,rfl⟩ := share_eq hs
  have hr : Sharing.Reach s := .step h h1
  obtain ⟨-,hown,rfl⟩ := step_setFlags h1
  exact ⟨hown,hr,rfl⟩

def World.filled (w : World P) (b : Fin NBUF) : World P :=
  { w.setFlags b true false with data := update w.data b (w.disk (w.buf b).blockno) }

/-- `bread` reads a buffer that is not valid, and so not dirty, from the disk. -/
theorem Coherent.fill_eq (h : Coherent w) (hs : w.fill p = some w') :
    ∃ x b, w.phase p = .locked x b ∧ (w.buf b).valid = false ∧ (w.buf b).dirty = false ∧
      w.shared.owner b = some p ∧ Sharing.Reach (w.setFlags b true false).shared ∧
      w.filled b = w' := by
  unfold World.fill at hs
  split at hs
  swap
  · cases hs
  rename_i x b hph
  split at hs
  · cases hs
  rename_i hnv
  have hd : (w.buf b).dirty = false := by
    by_contra hc
    exact hnv (h.dirty b (by simpa using hc))
  obtain ⟨w1,h1,hw⟩ := map_eq_some_iff.mp hs
  obtain ⟨hown,hr,rfl⟩ := share_setFlags h.shared h1
  rw [hd,if_neg (by simp)] at hw
  exact ⟨x,b,hph,by simpa using hnv,hd,hown,hr,hw⟩

def World.written (w : World P) (b : Fin NBUF) : World P :=
  { w.setFlags b true false with
    disk := update w.disk (w.buf b).blockno (w.data b)
    modified := update w.modified b false
    unwritten := w.unwritten.erase (w.buf b).blockno }

theorem Coherent.bwrite_eq (h : Coherent w) (hs : w.bwrite p b = some w') :
    w.Has p b ∧ Sharing.Reach (w.setFlags b true false).shared ∧ w.written b = w' := by
  obtain ⟨hhas,hs⟩ := ite_none_right_eq_some.1 hs
  obtain ⟨w2,h2,hw⟩ := map_eq_some_iff.mp hs
  obtain ⟨w1,h1,h2⟩ := bind_eq_some_iff.mp h2
  obtain ⟨-,hr1,rfl⟩ := share_setFlags h.shared h1
  obtain ⟨w3,h3,hw2⟩ := map_eq_some_iff.mp h2
  obtain ⟨-,hr,rfl⟩ := share_setFlags hr1 h3
  rw [w.setFlags_setFlags] at hr hw2
  rw [w.setFlags_buf,if_pos rfl] at hw2
  subst hw2
  exact ⟨hhas,hr,hw⟩

def World.logged (w : World P) (p : P) (b : Fin NBUF) : World P :=
  { (w.setFlags b true true).goto p .run with
    log := w.log.logWriteUpdate (w.buf b).blockno
    modified := update w.modified b false
    unwritten := insert (w.buf b).blockno w.unwritten }

theorem Coherent.logUpdate_eq (h : Coherent w) (hs : w.logUpdate p = some w') :
    ∃ b, w.phase p = .logging b ∧ w.shared.owner b = some p ∧ (w.buf b).valid = true ∧
      Sharing.Reach (w.setFlags b true true).shared ∧ w.logged p b = w' := by
  unfold World.logUpdate at hs
  split at hs
  swap
  · cases hs
  rename_i b hph
  obtain ⟨-,hv⟩ : w.shared.owner b = some p ∧ (w.buf b).valid = true := by
    have := h.phase p
    rwa [PhaseOk,hph] at this
  obtain ⟨w1,h1,hw⟩ := map_eq_some_iff.mp hs
  obtain ⟨hown,hr,rfl⟩ := share_setFlags h.shared h1
  exact ⟨b,hph,hown,hv,hr,hw⟩

variable [Fintype P]

section Facts
variable (h : Coherent w)
include h

theorem Coherent.unique {a : Fin NBUF} (ha : Sharing.InUse w.shared a)
    (hb : Sharing.InUse w.shared b) (hab : (w.buf a).blockno = (w.buf b).blockno) : a = b := by
  obtain ⟨l,hl⟩ := Sharing.Inv.reach h.shared
  refine hl.unique a b (hl.touched_of_inUse ha) (hl.touched_of_inUse hb) (Prod.ext ?_ hab)
  exact (h.dev a ha).trans (h.dev b hb).symm

theorem Coherent.refcnt_of_owner (hb : w.shared.owner b ≠ none) : 0 < (w.buf b).refcnt := by
  obtain ⟨l,hl⟩ := Sharing.Inv.reach h.shared
  obtain ⟨q,hq⟩ := ne_none_iff_exists'.mp hb
  have := hl.count b
  simp only [users,hq,isSome_some,if_true] at this
  change 0 < (w.shared.cache.buf b).refcnt
  omega

theorem Coherent.refcnt_of_pc (hb : (w.shared.pc p).on b = true) : 0 < (w.buf b).refcnt := by
  obtain ⟨l,hl⟩ := Sharing.Inv.reach h.shared
  exact hl.refcnt_pos hb

theorem Coherent.inUse_of_owner {q : P}
    (hb : w.shared.owner b = some q) : Sharing.InUse w.shared b :=
  .inl (h.refcnt_of_owner (by simp [hb]))

/-- The logical content of a block that has a valid buffer. -/
theorem Coherent.logical_of_valid (hv : (w.buf b).valid = true) :
    w.logical (w.buf b).blockno = w.data b := by
  unfold World.logical
  have hlab : w.shared.cache.label b = _ := h.label_eq (inUse_of_valid hv)
  cases hf : (List.finRange NBUF).find? fun c =>
      w.shared.cache.label c == (ROOTDEV,(w.buf b).blockno) && (w.buf c).valid with
  | none =>
    have := List.find?_eq_none.mp hf b (List.mem_finRange b)
    simp [hlab,hv] at this
  | some c =>
    have hc := List.find?_some hf
    simp only [Bool.and_eq_true,beq_iff_eq] at hc
    obtain rfl : c = b :=
      h.unique (inUse_of_valid hc.2) (inUse_of_valid hv) (congrArg Prod.snd hc.1)
    rfl

/-- Two states whose blocks have the same contents, however they are stored. -/
theorem Coherent.logical_eq
    (hval : ∀ b, (w.buf b).valid = true → w'.logical (w.buf b).blockno = w.data b)
    (hdisk : ∀ x, (∀ b, w.label b = (ROOTDEV,x) → (w.buf b).valid = false) →
      w'.logical x = w.disk x) : w'.logical = w.logical := by
  funext x
  by_cases hx : ∃ b, w.label b = (ROOTDEV,x) ∧ (w.buf b).valid = true
  · obtain ⟨b,hl,hv⟩ := hx
    obtain rfl : (w.buf b).blockno = x := congrArg Prod.snd hl
    rw [h.logical_of_valid hv]
    exact hval b hv
  · have hn : ∀ b, w.label b = (ROOTDEV,x) → (w.buf b).valid = false := by
      intro b hl
      by_contra hc
      exact hx ⟨b,hl,by simpa using hc⟩
    rw [logical_of_none hn]
    exact hdisk x hn

theorem Coherent.label_of_cached
    (hc : w.shared.cache.cached ROOTDEV x = some b) : w.label b = (ROOTDEV,x) := by
  obtain ⟨l,hl⟩ := Sharing.Inv.reach h.shared
  rw [hl.order.cached_eq] at hc
  have := List.find?_some hc
  exact beq_iff_eq.mp this

theorem Coherent.idle_of_unused (hu : w.shared.cache.unused = some b) :
    (w.buf b).refcnt = 0 ∧ (w.buf b).dirty = false := by
  obtain ⟨l,hl⟩ := Sharing.Inv.reach h.shared
  rw [hl.order.unused_eq] at hu
  have := List.find?_some hu
  simp only [idle,Bool.and_eq_true,beq_iff_eq,Bool.not_eq_true'] at this
  exact this

theorem Coherent.frame (hr : Sharing.Reach w'.shared) (hs : SameBufs w w')
    (hdev : ∀ b, 0 < (w'.buf b).refcnt → (w.buf b).dev = ROOTDEV)
    (hown : ∀ b, w.modified b = true → w'.shared.owner b ≠ none)
    (hphase : ∀ q, PhaseOk w' q) : Coherent w' ∧ w'.logical = w.logical := by
  have hblk : ∀ b, (w'.buf b).blockno = (w.buf b).blockno := fun b => congrArg Prod.snd (hs.label b)
  have hdv : ∀ b, (w'.buf b).dev = (w.buf b).dev := fun b => congrArg Prod.fst (hs.label b)
  have hc : Coherent w' := by
    refine ⟨hr,?_,?_,?_,?_,hphase,?_⟩
    · rintro b (hb | hb | hb)
      · rw [hdv]
        exact hdev b hb
      · rw [hdv]
        exact h.dev b (.inr (.inl ((hs.valid b).symm.trans hb)))
      · rw [hdv]
        exact h.dev b (.inr (.inr ((hs.dirty b).symm.trans hb)))
    · intro b
      rw [hs.dirty,hs.valid]
      exact h.dirty b
    · intro b
      rw [hs.dirty,hs.valid,hs.modified,hs.data,hs.disk,hblk]
      exact h.clean b
    · intro b hb
      rw [hs.modified] at hb
      rw [hs.valid]
      exact ⟨(h.modified b hb).1,hown b hb⟩
    · intro x hx
      rw [hs.unwritten] at hx
      obtain ⟨b,hl,hd⟩ := h.unwritten x hx
      exact ⟨b,by rw [hs.label,hl],by rw [hs.dirty,hd]⟩
  refine ⟨hc,h.logical_eq ?_ ?_⟩
  · intro b hv
    rw [← hblk,hc.logical_of_valid (by rw [hs.valid,hv]),hs.data]
  · intro x hx
    rw [logical_of_none,hs.disk]
    intro b hb
    rw [hs.valid]
    exact hx b (by rw [← hs.label,hb])

/-- A step of `p` that only moves buffers between processes. -/
theorem Coherent.tame (hr : Sharing.Reach w'.shared) (hs : SameBufs w w')
    (hdev : ∀ b, 0 < (w'.buf b).refcnt → (w.buf b).dev = ROOTDEV)
    (hmod : ∀ b, w.modified b = true → w'.shared.owner b = w.shared.owner b)
    (hb : DirtyBefore w w' → Below w p w') (hpc : ∀ q, q ≠ p → w'.shared.pc q = w.shared.pc q)
    (hown : ∀ q, q ≠ p → ∀ c, w.shared.owner c = some q → w'.shared.owner c = some q)
    (hp : PhaseOk w' p) : Tame w p w' := by
  have hbel := hb fun b hd => ⟨(hs.dirty b).symm.trans hd,congrArg Prod.snd (hs.label b)⟩
  have hphase : ∀ q, PhaseOk w' q := by
    intro q
    by_cases hq : q = p
    · rwa [hq]
    · exact (h.phase q).frame (hbel.other q hq) (hpc q hq) (fun c _ => hs.label c)
        fun c hc => ⟨hown q hq c hc,hs.label c,hs.valid c,congrFun hs.modified c⟩
  obtain ⟨hco,hlog⟩ := h.frame hr hs hdev (fun b hm => hmod b hm ▸ (h.modified b hm).2) hphase
  exact ⟨hco,hlog,hbel,hs.changed hmod⟩

theorem Coherent.above (hsh : w'.shared = w.shared) (hd : w'.data = w.data)
    (hk : w'.disk = w.disk) (hm : w'.modified = w.modified) (hu : w'.unwritten = w.unwritten)
    (hphase : ∀ q, PhaseOk w' q) : Coherent w' ∧ w'.logical = w.logical := by
  have hbuf : ∀ b, w'.buf b = w.buf b := fun b => congrArg (·.cache.buf b) hsh
  refine h.frame (hsh ▸ h.shared) ⟨?_,?_,?_,hd,hk,hm,hu⟩ ?_ ?_ hphase
  · exact fun b => congrArg (·.cache.label b) hsh
  · exact fun b => by rw [hbuf]
  · exact fun b => by rw [hbuf]
  · intro b hb
    rw [hbuf] at hb
    exact h.dev b (.inl hb)
  · intro b hb
    rw [hsh]
    exact (h.modified b hb).2

/-- Such a step keeps the contents if it does so for the blocks that the buffer has held
or holds now. -/
theorem Coherent.apart_logical (h' : Coherent w') (ha : Apart w w' b)
    (hold : (w.buf b).valid = true → w'.logical (w.buf b).blockno = w.data b)
    (hdisk : ∀ y, (∀ c, w.label c = (ROOTDEV,y) → (w.buf c).valid = false) → w'.disk y = w.disk y)
    (hnew : (w'.buf b).valid = true →
      (∀ c, w.label c = (ROOTDEV,(w'.buf b).blockno) → (w.buf c).valid = false) →
      w'.data b = w.disk (w'.buf b).blockno) : w'.logical = w.logical := by
  refine h.logical_eq ?_ ?_
  · intro c hv
    by_cases hcb : c = b
    · subst hcb
      exact hold hv
    · rw [← ha.buf c hcb,h'.logical_of_valid (by rw [ha.buf c hcb,hv]),ha.data c hcb]
  · intro y hy
    by_cases hb : w'.label b = (ROOTDEV,y) ∧ (w'.buf b).valid = true
    · obtain ⟨hl,hv⟩ := hb
      obtain rfl : (w'.buf b).blockno = y := congrArg Prod.snd hl
      rw [h'.logical_of_valid hv]
      exact hnew hv hy
    · rw [logical_of_none,hdisk y hy]
      intro c hc
      by_cases hcb : c = b
      · subst hcb
        by_contra hv
        exact hb ⟨hc,by simpa using hv⟩
      · rw [ha.buf c hcb]
        exact hy c ((ha.label hcb).symm.trans hc)

/-- The holder of `b` sets its flags to valid and `d`; from now on its data is what it
has been, or what the disk has. -/
theorem Coherent.flags {d : Bool} (hown : w.shared.owner b = some p)
    (ha : Apart w w' b) (hr : Sharing.Reach w'.shared)
    (hb : w'.buf b = { w.buf b with valid := true, dirty := d }) (hm : w'.modified b = false)
    (hkeep : (w.buf b).valid = true → w'.data b = w.data b)
    (hread : (w.buf b).valid = false → w'.data b = w.disk (w.buf b).blockno ∧ w'.disk = w.disk)
    (hclean : d = false → w'.data b = w'.disk (w.buf b).blockno)
    (hdisk : ∀ y, y ≠ (w.buf b).blockno → w'.disk y = w.disk y)
    (hpc : w'.shared.pc = w.shared.pc) (hph : ∀ q, q ≠ p → w'.phase q = w.phase q)
    (hp : PhaseOk w' p)
    (hunw : ∀ y ∈ w'.unwritten, (w'.label b = (ROOTDEV,y) ∧ (w'.buf b).dirty = true) ∨
      y ∈ w.unwritten ∧ ¬ (w.label b = (ROOTDEV,y) ∧ (w.buf b).dirty = true)) :
    Coherent w' ∧ w'.logical = w.logical := by
  have hin := h.inUse_of_owner hown
  have hlab : w'.label b = w.label b := label_eq_of_buf (by rw [hb]) (by rw [hb])
  have hco : Coherent w' := by
    refine h.apart hr ha (by rw [hb]; exact h.dev b hin) (fun _ => by rw [hb])
      (fun _ hd _ => ?_) (by rw [hm]; nofun) (fun c hc hv => hdisk _ fun he => hc ?_)
      (fun q => ?_) hunw
    · rw [hb] at hd ⊢
      exact hclean hd
    · exact h.unique (inUse_of_valid hv) hin he
    · by_cases hq : q = p
      · rwa [hq]
      · exact h.phase_other ha hown hlab hq (hph q hq) (congrFun hpc q)
  have hinvalid : (∀ c, w.label c = (ROOTDEV,(w.buf b).blockno) → (w.buf c).valid = false) →
      (w.buf b).valid = false := fun hn => hn b (h.label_eq hin)
  refine ⟨hco,h.apart_logical hco ha (fun hv => ?_) (fun y hy => ?_) fun _ hn => ?_⟩
  · have := hco.logical_of_valid (b := b) (by rw [hb])
    rw [hb,hkeep hv] at this
    exact this
  · by_cases hy' : y = (w.buf b).blockno
    · subst hy'
      rw [(hread (hinvalid hy)).2]
    · exact hdisk y hy'
  · rw [hb] at hn ⊢
    exact (hread (hinvalid hn)).1

end Facts

section Primitives
variable (h : Coherent w)
include h

theorem Coherent.bget_cached
    (hc : w.shared.cache.cached ROOTDEV x = some b) (hr : Sharing.Reach w'.shared)
    (hw : w' = ({ w with shared := { w.shared.goto p (.wait b) with
      cache := w.shared.cache.setBuf b
        { w.buf b with refcnt := (w.buf b).refcnt + 1 } } } : World P).goto p (.getting x)) :
    Tame w p w' := by
  have hbuf : ∀ c, w'.buf c
      = { w.buf c with refcnt := if c = b then (w.buf c).refcnt + 1 else (w.buf c).refcnt } := by
    intro c
    subst hw
    by_cases hcb : c = b
    · subst hcb; simp [World.buf,World.goto,setBuf]
    · simp [World.buf,World.goto,setBuf,hcb]
  have hlb := h.label_of_cached hc
  have hsame : SameBufs w w' := by
    refine .of_refcnt (fun c => ⟨_,hbuf c⟩) ?_ ?_ ?_ ?_ <;> rw [hw] <;> rfl
  subst hw
  refine h.tame hr hsame (fun c href => ?_) (fun _ _ => rfl) (.of_goto rfl (by rintro _ ⟨⟩) rfl rfl rfl)
    (fun q hq => update_of_ne hq ..) (fun _ _ _ => id) ?_
  · by_cases hcb : c = b
    · subst hcb
      exact congrArg Prod.fst hlb
    · rw [hbuf,if_neg hcb] at href
      exact h.dev c (.inl href)
  · simp only [PhaseOk,World.goto,update_self,Sharing.World.goto]
    exact ⟨b,rfl,(hsame.label b).trans hlb⟩

/-- `bget` recycles a buffer: it is nobody's, so its data is that of the disk. -/
theorem Coherent.bget_recycled (hu : w.shared.cache.unused = some b) (hr : Sharing.Reach w'.shared)
    (hw : w' = ({ w with shared := { w.shared.goto p (.wait b) with
      cache := w.shared.cache.setBuf b ⟨false,false,ROOTDEV,x,1⟩ } } : World P).goto p
        (.getting x)) : Tame w p w' := by
  obtain ⟨hr0,hd0⟩ := h.idle_of_unused hu
  have hown : w.shared.owner b = none := by
    by_contra ho
    have := h.refcnt_of_owner ho
    omega
  have hmod : w.modified b = false := by
    by_contra hm
    exact (h.modified b (by simpa using hm)).2 hown
  have hb : w'.buf b = ⟨false,false,ROOTDEV,x,1⟩ := by
    subst hw; simp [World.buf,World.goto,setBuf]
  have hlb : w'.label b = (ROOTDEV,x) :=
    Prod.ext (congrArg Buf.dev hb) (congrArg Buf.blockno hb)
  have ha : Apart w w' b := by
    subst hw
    refine ⟨fun c hcb => ?_,fun _ _ => rfl,fun _ _ => rfl,rfl⟩
    simp [World.buf,World.goto,setBuf,hcb]
  have hm' : w'.modified b = false := by rw [hw]; exact hmod
  have hunw : w'.unwritten = w.unwritten := by rw [hw]; rfl
  have hdisk : w'.disk = w.disk := by rw [hw]; rfl
  have hco : Coherent w' := by
    refine h.apart hr ha (by rw [hb]) (by rw [hb]; rintro ⟨⟩) (by rw [hb]; rintro ⟨⟩)
      (by rw [hm']; rintro ⟨⟩) (fun c _ _ => by rw [hdisk]) ?_ fun y hy => .inr ⟨hunw ▸ hy,?_⟩
    · intro q
      by_cases hq : q = p
      · subst hq
        have hph : w'.phase q = .getting x := by rw [hw]; exact update_self ..
        have hpc : w'.shared.pc q = .wait b := by rw [hw]; exact update_self ..
        rw [PhaseOk,hph]
        exact ⟨b,hpc,hlb⟩
      · refine ha.phase (h.phase q) (by rw [hw]; exact update_of_ne hq ..)
          (by rw [hw]; exact update_of_ne hq ..) (fun hwait => ?_) (by rw [hown]; rintro ⟨⟩)
        have := h.refcnt_of_pc (p := q) (b := b) (by simp [hwait])
        omega
    · rw [hd0]
      exact fun hc => Bool.noConfusion hc.2
  refine ⟨hco,h.apart_logical hco ha (fun hv => ?_) (fun y _ => by rw [hdisk])
    (by rw [hb]; rintro ⟨⟩),?_,fun q => ha.changed fun _ => hm'⟩
  · rw [h.clean b hv hd0 hmod,logical_of_none,hdisk]
    intro a hla
    by_cases hab : a = b
    · rw [hab,hb]
    · by_contra hva
      have hva' : (w.buf a).valid = true := by
        rw [← ha.buf a hab]
        simpa using hva
      have hla' := (ha.label hab).symm.trans hla
      exact hab (h.unique (inUse_of_valid hva') (inUse_of_valid hv) (congrArg Prod.snd hla'))
  · have hdirty := ha.dirtyBefore (by rw [hb])
    subst hw
    exact .of_goto rfl (by rintro _ ⟨⟩) rfl rfl rfl hdirty

theorem Coherent.bget (hs : w.bget p x = some w') : Tame w p w' ∧ w'.phase p = .getting x := by
  obtain ⟨-,hs⟩ := ite_none_right_eq_some.1 hs
  obtain ⟨w1,h1,hw⟩ := map_eq_some_iff.mp hs
  obtain ⟨s,h2,rfl⟩ := share_eq h1
  have hr : Sharing.Reach w'.shared := by
    rw [← hw]
    exact .step h.shared h2
  refine ⟨?_,by rw [← hw]; exact update_self ..⟩
  obtain ⟨-,b,y,rfl,⟨hc,rfl⟩ | ⟨-,hu,rfl⟩⟩ := step_bget h2
  · exact h.bget_cached hc hr hw.symm
  · exact h.bget_recycled hu hr hw.symm

theorem Coherent.acquiresleep (hs : w.acquiresleep p = some w') :
    Tame w p w' ∧ ∃ y b, w.phase p = .getting y ∧ w'.phase p = .locked y b := by
  unfold World.acquiresleep at hs
  split at hs
  swap
  · cases hs
  rename_i x b hph hpc
  obtain ⟨w1,h1,rfl⟩ := map_eq_some_iff.mp hs
  obtain ⟨s,h2,rfl⟩ := share_eq h1
  have hr : Sharing.Reach s := .step h.shared h2
  obtain ⟨b',hpc',hfree,rfl⟩ := step_acquiresleep h2
  obtain rfl : b' = b := by
    rw [hpc] at hpc'
    cases hpc'
    rfl
  have hb : w.label b' = (ROOTDEV,x) := by
    have := h.phase p
    rw [PhaseOk,hph] at this
    obtain ⟨c,hc,hl⟩ := this
    rw [hpc] at hc
    cases hc
    exact hl
  refine ⟨h.tame hr ⟨fun _ => rfl,fun _ => rfl,fun _ => rfl,rfl,rfl,rfl,rfl⟩
    (fun c hc => h.dev c (.inl hc)) (fun c hm => ?_) (.of_goto rfl nofun rfl rfl rfl)
    (fun q hq => update_of_ne hq ..) (fun q _ c hc => ?_) ?_,x,b',hph,update_self ..⟩
  · refine update_of_ne ?_ ..
    rintro rfl
    exact (h.modified c hm).2 hfree
  · refine (update_of_ne ?_ ..).trans hc
    rintro rfl
    cases hfree.symm.trans hc
  · simp only [PhaseOk,World.goto,update_self]
    refine ⟨trivial,hb,?_⟩
    by_contra hm
    exact (h.modified b' (by simpa using hm)).2 hfree

theorem Coherent.fill (hs : w.fill p = some w') : Tame w p w' ∧ w'.phase = w.phase := by
  obtain ⟨x,b,hph,hv,hd,hown,hr,rfl⟩ := h.fill_eq hs
  obtain ⟨-,hlb,hmod⟩ : w.shared.owner b = some p ∧ w.label b = (ROOTDEV,x) ∧
      w.modified b = false := by
    have := h.phase p
    rwa [PhaseOk,hph] at this
  have hb : (w.filled b).buf b = _ := w.setFlags_buf b true false
  have hdata : (w.filled b).data b = w.disk (w.buf b).blockno := update_self ..
  have ha : Apart w (w.filled b) b :=
    ⟨fun c hc => w.setFlags_buf_ne hc true false,fun c hc => update_of_ne hc ..,fun _ _ => rfl, rfl⟩
  have hp : PhaseOk (w.filled b) p := by
    rw [PhaseOk,show (w.filled b).phase p = .locked x b from hph]
    exact ⟨hown,(w.setFlags_label b b true false).trans hlb,hmod⟩
  obtain ⟨hco,hlog⟩ := h.flags hown ha hr hb hmod (by rw [hv]; nofun) (fun _ => ⟨hdata,rfl⟩)
    (fun _ => hdata) (fun _ _ => rfl) rfl (fun _ _ => rfl) hp fun y hy => .inr ⟨hy,by simp [hd]⟩
  exact ⟨⟨hco,hlog,.of_phase rfl rfl rfl rfl (ha.dirtyBefore (by rw [hb])),
    fun q => ha.changed fun _ => hmod⟩,rfl⟩

theorem Coherent.ret (hs : w.ret p = some w') : Tame w p w' ∧ w'.phase p = .run := by
  unfold World.ret at hs
  split at hs
  swap
  · cases hs
  split at hs
  swap
  · cases hs
  cases hs
  have hphase : ∀ q, PhaseOk (w.goto p .run) q := by
    intro q
    by_cases hq : q = p
    · subst hq
      simp [PhaseOk,World.goto]
    · exact (h.phase q).same (update_of_ne hq ..) rfl rfl
  obtain ⟨hco,hlog⟩ : Coherent (w.goto p .run) ∧ _ := h.above rfl rfl rfl rfl rfl hphase
  exact ⟨⟨hco,hlog,.of_goto rfl nofun rfl rfl rfl fun c hd => ⟨hd,rfl⟩,
    fun q => subset_rfl⟩,update_self ..⟩

/-- A store into a buffer that the process holds changes the content of its block. -/
theorem Coherent.store {y : Block} (hs : w.store p b y = some w') :
    Coherent w' ∧ w'.logical = update w.logical (w.buf b).blockno y := by
  obtain ⟨⟨hph,hpc,hown,hv⟩,hs⟩ := ite_none_right_eq_some.1 hs
  cases hs
  set w' : World P := { w with
    data := update w.data b y, modified := update w.modified b true } with hw'
  have hbuf : ∀ c, w'.buf c = w.buf c := fun _ => rfl
  have hdata : w'.data b = y := update_self ..
  have ha : Apart w w' b :=
    ⟨fun _ _ => rfl,fun c hc => update_of_ne hc ..,fun c hc => update_of_ne hc .., rfl⟩
  have hco : Coherent w' := by
    refine h.apart h.shared ha (h.dev b (inUse_of_valid hv)) (h.dirty b) (fun _ _ hm => ?_)
      (fun _ => ⟨hv,by rw [hown]; nofun⟩) (fun _ _ _ => rfl) (fun q => ?_) fun z hz => ?_
    · rw [show w'.modified b = true from update_self ..] at hm
      cases hm
    · by_cases hq : q = p
      · subst hq
        rw [PhaseOk,show w'.phase q = .run from hph]
        trivial
      · exact h.phase_other ha hown rfl hq rfl rfl
    · by_cases hz' : w.label b = (ROOTDEV,z) ∧ (w.buf b).dirty = true
      · exact .inl hz'
      · exact .inr ⟨hz,hz'⟩
  refine ⟨hco,?_⟩
  funext z
  by_cases hz : z = (w.buf b).blockno
  · subst hz
    have hv' : (w'.buf b).valid = true := hv
    rw [update_self,← hdata]
    exact hco.logical_of_valid hv'
  · rw [update_of_ne hz]
    by_cases hx : ∃ c, w.label c = (ROOTDEV,z) ∧ (w.buf c).valid = true
    · obtain ⟨c,hl,hvc⟩ := hx
      obtain rfl : (w.buf c).blockno = z := congrArg Prod.snd hl
      have hcb : c ≠ b := by
        rintro rfl
        exact hz rfl
      rw [h.logical_of_valid hvc,← ha.data c hcb]
      exact hco.logical_of_valid (b := c) hvc
    · have hn : ∀ c, w.label c = (ROOTDEV,z) → (w.buf c).valid = false := by
        intro c hl
        by_contra hc
        exact hx ⟨c,hl,by simpa using hc⟩
      rw [logical_of_none hn]
      exact logical_of_none (w := w') hn

theorem Coherent.bwrite (hs : w.bwrite p b = some w') : Coherent w' ∧ w'.logical = w.logical := by
  obtain ⟨⟨hph,hpc,hown,hv⟩,hr,rfl⟩ := h.bwrite_eq hs
  have ha : Apart w (w.written b) b :=
    ⟨fun c hc => w.setFlags_buf_ne hc true false,fun _ _ => rfl, fun c hc => update_of_ne hc ..,rfl⟩
  have hdisk : (w.written b).disk (w.buf b).blockno = w.data b := update_self ..
  refine h.flags hown ha hr (w.setFlags_buf b true false) (update_self ..) (fun _ => rfl)
    (by rw [hv]; nofun) (fun _ => hdisk.symm) (fun y hy => update_of_ne hy ..) rfl
    (fun _ _ => rfl) ?_ fun y hy => .inr ?_
  · rw [PhaseOk,show (w.written b).phase p = .run from hph]
    trivial
  · obtain ⟨hne,hmem⟩ := Finset.mem_erase.mp hy
    exact ⟨hmem,fun hc => hne (congrArg Prod.snd hc.1).symm⟩

theorem Coherent.releasesleep (hm : w.modified b = false)
    (hs : w.releasesleep p b = some w') : Tame w p w' ∧ w'.phase = w.phase := by
  obtain ⟨hhas,hs⟩ := ite_none_right_eq_some.1 hs
  obtain ⟨s,h1,rfl⟩ := share_eq hs
  have hr : Sharing.Reach s := .step h.shared h1
  obtain ⟨-,hown,rfl⟩ := step_releasesleep h1
  refine ⟨h.tame hr ⟨fun _ => rfl,fun _ => rfl,fun _ => rfl,rfl,rfl,rfl,rfl⟩
    (fun c hc => h.dev c (.inl hc)) (fun c hc => ?_) (.of_phase rfl rfl rfl rfl)
    (fun q hq => update_of_ne hq ..) (fun q hq c hc => ?_) ?_,rfl⟩
  · refine update_of_ne ?_ ..
    rintro rfl
    cases hm.symm.trans hc
  · refine (update_of_ne ?_ ..).trans hc
    rintro rfl
    rw [hown] at hc
    exact hq (Option.some.inj hc).symm
  · have hrun : w.phase p = .run := hhas.1
    simp only [PhaseOk,hrun]

theorem Coherent.brelse (hs : w.brelse p = some w') : Tame w p w' ∧ w'.phase = w.phase := by
  obtain ⟨s,h1,rfl⟩ := share_eq hs
  have hr : Sharing.Reach s := .step h.shared h1
  obtain ⟨b,hpc,rfl⟩ := step_brelse h1
  have hbuf : ∀ c, (w.shared.cache.brelse b).buf c
      = { w.buf c with refcnt := if c = b then (w.buf c).refcnt - 1 else (w.buf c).refcnt } :=
    brelse_buf _ b
  have hsame : SameBufs w { w with shared := w.shared.drop p b } :=
    .of_refcnt (fun c => ⟨_,hbuf c⟩) rfl rfl rfl rfl
  refine ⟨h.tame hr hsame (fun c hc => ?_) (fun _ _ => rfl) (.of_phase rfl rfl rfl rfl)
    (fun q hq => update_of_ne hq ..) (fun _ _ _ => id) ?_,rfl⟩
  · have hc' : 0 < ((w.shared.cache.brelse b).buf c).refcnt := hc
    rw [hbuf] at hc'
    refine h.dev c (.inl ?_)
    change 0 < (w.buf c).refcnt
    change 0 < if c = b then (w.buf c).refcnt - 1 else (w.buf c).refcnt at hc'
    split at hc' <;> omega
  · have := h.phase p
    unfold PhaseOk at this ⊢
    cases hph : w.phase p <;> rw [hph] at this
    case run => trivial
    case getting x =>
      obtain ⟨c,hc,-⟩ := this
      rw [hpc] at hc
      cases hc
    case locked x c => exact ⟨this.1,(hsame.label c).trans this.2.1,this.2.2⟩
    case logging c => exact ⟨this.1,(hsame.valid c).trans this.2⟩

theorem Coherent.logUpdate (hs : w.logUpdate p = some w') :
    Coherent w' ∧ w'.logical = w.logical := by
  obtain ⟨b,hph,hown,hv,hr,rfl⟩ := h.logUpdate_eq hs
  have hin := inUse_of_valid hv
  have ha : Apart w (w.logged p b) b :=
    ⟨fun c hc => w.setFlags_buf_ne hc true true,fun _ _ => rfl, fun c hc => update_of_ne hc ..,rfl⟩
  have hb : (w.logged p b).buf b = _ := w.setFlags_buf b true true
  refine h.flags hown ha hr hb (update_self ..) (fun _ => rfl) (by rw [hv]; nofun) nofun
    (fun _ _ => rfl) rfl (fun q hq => update_of_ne hq ..) ?_ fun y hy => ?_
  · rw [PhaseOk,show World.phase _ p = .run from update_self ..]
    trivial
  · by_cases hy' : y = (w.buf b).blockno
    · refine .inl ⟨?_,by rw [hb]⟩
      rw [hy']
      exact (w.setFlags_label b b true true).trans (h.label_eq hin)
    · refine .inr ⟨?_,fun hc => hy' (congrArg Prod.snd hc.1).symm⟩
      exact (Finset.mem_insert.mp hy).resolve_left hy'

theorem Coherent.logWrite (hs : w.logWrite p b = some w') : Tame w p w' := by
  unfold World.logWrite at hs
  split at hs
  swap
  · cases hs
  rename_i hhas
  split at hs
  swap
  · cases hs
  cases hs
  have hphase : ∀ q, PhaseOk (w.goto p (.logging b)) q := by
    intro q
    by_cases hq : q = p
    · subst hq
      rw [PhaseOk,show World.phase _ q = .logging b from update_self ..]
      exact ⟨hhas.1.2.2.1,hhas.1.2.2.2⟩
    · exact (h.phase q).same (update_of_ne hq ..) rfl rfl
  obtain ⟨hco,hlog⟩ : Coherent (w.goto p (.logging b)) ∧ _ :=
    h.above rfl rfl rfl rfl rfl hphase
  exact ⟨hco,hlog,⟨rfl,rfl,rfl,fun c hd => ⟨hd,rfl⟩,fun q hq => update_of_ne hq ..,
    fun _ _ => .inr hhas.2⟩,fun q => subset_rfl⟩

end Primitives
end Xv6.Caching
