import Xv6.Bcache.Transparent

/-! # Logged blocks stay in the cache until they are installed

`log_write` sets `B_DIRTY`, which keeps `bget` from recycling the buffer, and only
`bwrite` clears it.  Every dirty block is in the header, and once `commit` has started
its `bwrite` is still ahead. -/
namespace Xv6.Caching
open Function Call List

variable {P : Type} {w w' : World P} {p : P} {b : Fin NBUF} {x : ℕ}

/-- The calls release no block that has been changed and not written; `M` is the set of
changed blocks at the start.  A block that `bread` has just locked is unchanged. -/
def Disciplined : Set ℕ → List Call → Prop
  | _, [] => True
  | M, .bread x :: s => Disciplined (M \ {x}) s
  | M, .copy dst _ :: s => Disciplined (M ∪ {dst}) s
  | M, .storeHead x :: s => Disciplined (M ∪ {x}) s
  | M, .bwrite x :: s => Disciplined (M \ {x}) s
  | M, .brelse x :: s => x ∉ M ∧ Disciplined M s
  | M, .clear :: s => Disciplined M s

theorem Disciplined.mono {M N : Set ℕ} {s : List Call} (h : Disciplined N s) (hM : M ⊆ N) :
    Disciplined M s := by
  induction s generalizing M N with
  | nil => trivial
  | cons c s ih =>
    cases c with
    | bread x => exact ih h (Set.sdiff_subset_sdiff_left hM)
    | copy dst src => exact ih h (Set.union_subset_union_left _ hM)
    | storeHead x => exact ih h (Set.union_subset_union_left _ hM)
    | bwrite x => exact ih h (Set.sdiff_subset_sdiff_left hM)
    | brelse x => exact ⟨fun hx => h.1 (hM hx),ih h.2 hM⟩
    | clear => exact ih h hM

theorem disciplined_writeHead (start : ℕ) (M : Set ℕ) : Disciplined M (writeHead start) := by
  simp [writeHead,Disciplined]

theorem disciplined_writeLogFrom (start : ℕ) {s : List Call} (hs : ∀ M, Disciplined M s)
    (xs : List ℕ) (tail : ℕ) (M : Set ℕ) :
    Disciplined M (writeLogFrom start tail xs ++ s) := by
  induction xs generalizing tail M with
  | nil => exact hs M
  | cons x xs ih =>
    simp only [writeLogFrom,cons_append,Disciplined]
    exact ⟨by simp,by simp,ih _ _⟩

theorem disciplined_installTransFrom (start : ℕ) {s : List Call} (hs : ∀ M, Disciplined M s)
    (xs : List ℕ) (tail : ℕ) (M : Set ℕ) :
    Disciplined M (installTransFrom start tail xs ++ s) := by
  induction xs generalizing tail M with
  | nil => exact hs M
  | cons x xs ih =>
    simp only [installTransFrom,cons_append,Disciplined]
    exact ⟨by simp,by simp,ih _ _⟩

theorem disciplined_commit (l : Log) (M : Set ℕ) : Disciplined M (commit l) := by
  unfold commit
  split
  · rw [append_assoc,append_assoc]
    refine disciplined_writeLogFrom _ (fun M => ?_) _ _ _
    have hi := fun N => disciplined_installTransFrom l.start (s := .clear :: writeHead l.start)
      (fun M => disciplined_writeHead l.start M) l.block 0 N
    simp only [writeHead,cons_append,nil_append,Disciplined]
    exact ⟨by simp,hi _⟩
  · trivial

/-- The calls up to `log.lh.n = 0`. -/
def pending (s : List Call) : List Call := s.takeWhile (· ≠ .clear)

theorem clear_notMem_writeLogFrom (start : ℕ) (xs : List ℕ) (tail : ℕ) :
    ∀ c ∈ writeLogFrom start tail xs, c ≠ .clear := by
  induction xs generalizing tail with
  | nil => nofun
  | cons x xs ih => simpa [writeLogFrom] using ih (tail + 1)

theorem clear_notMem_installTransFrom (start : ℕ) (xs : List ℕ) (tail : ℕ) :
    ∀ c ∈ installTransFrom start tail xs, c ≠ .clear := by
  induction xs generalizing tail with
  | nil => nofun
  | cons x xs ih => simpa [installTransFrom] using ih (tail + 1)

theorem bwrite_mem_installTransFrom (start : ℕ) {xs : List ℕ} {x : ℕ} (hx : x ∈ xs) (tail : ℕ) :
    bwrite x ∈ installTransFrom start tail xs := by
  induction xs generalizing tail with
  | nil => cases hx
  | cons y xs ih =>
    rcases mem_cons.mp hx with rfl | hx
    · simp [installTransFrom]
    · have := ih hx (tail + 1)
      simp [installTransFrom,this]

/-- `commit` installs every block of the header before it empties the header. -/
theorem bwrite_mem_pending {l : Log} {x : ℕ} (hx : x ∈ l.block) :
    bwrite x ∈ pending (commit l) := by
  have hn : l.n > 0 := length_pos_of_mem hx
  have hpre : ∀ c ∈ writeLogFrom l.start 0 l.block ++ writeHead l.start ++
      installTransFrom l.start 0 l.block, c ≠ .clear := by
    intro c hc
    rcases mem_append.mp hc with hc | hc
    · rcases mem_append.mp hc with hc | hc
      · exact clear_notMem_writeLogFrom _ _ _ c hc
      · rintro rfl
        simp [writeHead] at hc
    · exact clear_notMem_installTransFrom _ _ _ c hc
  rw [pending,commit,if_pos hn,takeWhile_append_of_pos (by simpa using hpre)]
  exact mem_append_left _ (mem_append_right _ (bwrite_mem_installTransFrom _ hx _))

def Reading (w : World P) (p : P) (x : ℕ) : Prop :=
  w.phase p = .getting x ∨ ∃ b, w.phase p = .locked x b

/-- The part of the state that the log is responsible for. -/
structure Logged [Fintype P] (w : World P) : Prop where
  count : w.log.outstanding = (Finset.univ.filter fun p => w.op p = true).card
  quiet : w.log.committing = true → w.log.outstanding = 0
  committing : w.log.committing = true ↔ ∃ p, (w.script p).isSome = true
  single : ∀ p q, (w.script p).isSome = true → (w.script q).isSome = true → p = q
  empty : w.log.committing = false → w.log.outstanding = 0 → w.log.block = []
  logging : ∀ p b, w.phase p = .logging b → w.op p = true
  header : ∀ b, (w.buf b).dirty = true → w.log.committing = false →
    (w.buf b).blockno ∈ w.log.block
  ahead : ∀ b p s, (w.buf b).dirty = true → w.script p = some s →
    .bwrite (w.buf b).blockno ∈ pending s
  discipline : ∀ p s, w.script p = some s → Disciplined (Changed w p) s
  reading : ∀ p s x, w.script p = some s → Reading w p x → ∃ t, s = .bread x :: t
  cleared : ∀ p s, w.script p = some s → .clear ∈ s ∨ w.log.block = []

theorem Logged.below [Fintype P] (h : Logged w) (hb : Below w p w')
    (hc : ∀ q s, w.script q = some s → Changed w' q ⊆ Changed w q)
    (hr : ∀ q s x, w.script q = some s → Reading w' q x →
      Reading w q x ∨ ∃ t, s = .bread x :: t) : Logged w' := by
  refine ⟨?_,?_,?_,?_,?_,?_,?_,?_,?_,?_,?_⟩
  · rw [hb.log,hb.op]
    exact h.count
  · rw [hb.log]
    exact h.quiet
  · rw [hb.log,hb.script]
    exact h.committing
  · rw [hb.script]
    exact h.single
  · rw [hb.log]
    exact h.empty
  · exact fun q b hq => hb.op_of_logging h.logging hq
  · intro b hd
    obtain ⟨hd',hn⟩ := hb.dirty b hd
    rw [hb.log,hn]
    exact h.header b hd'
  · intro b q s hd hs
    obtain ⟨hd',hn⟩ := hb.dirty b hd
    rw [hb.script] at hs
    rw [hn]
    exact h.ahead b q s hd' hs
  · intro q s hs
    rw [hb.script] at hs
    exact (h.discipline q s hs).mono (hc q s hs)
  · intro q s x hs hx
    rw [hb.script] at hs
    exact (hr q s x hs hx).elim (h.reading q s x hs) id
  · rw [hb.script,hb.log]
    exact h.cleared

section Effects
variable [DecidableEq P]

theorem store_below {y : Block} (hs : w.store p b y = some w') :
    Below w p w' ∧ Changed w' p ⊆ Changed w p ∪ {(w.buf b).blockno} ∧
      ∀ q, q ≠ p → Changed w' q ⊆ Changed w q := by
  unfold World.store at hs
  split at hs
  swap
  · cases hs
  rename_i hhas
  cases hs
  refine ⟨⟨rfl,rfl,rfl,fun c hd => ⟨hd,rfl⟩,fun _ _ => rfl,fun _ hq => .inl hq⟩,?_,fun q hq => ?_⟩
  · rintro z ⟨c,hc,hl,hm⟩
    by_cases hcb : c = b
    · subst hcb
      exact .inr (congrArg Prod.snd hl).symm
    · exact .inl ⟨c,hc,hl,(update_of_ne hcb true w.modified).symm.trans hm⟩
  · apply Apart.changed (b := b) ⟨fun _ _ => by rfl,fun c hc => update_of_ne hc ..,
      fun c hc => update_of_ne hc ..,by rfl⟩
    rw [hhas.2.2.1]
    exact fun he => absurd (Option.some.inj he).symm hq

variable [Fintype P]

theorem Coherent.bwrite_below (h : Coherent w) (hs : w.bwrite p b = some w') :
    Below w p w' ∧ (∀ c, (w'.buf c).dirty = true → (w'.buf c).blockno ≠ (w.buf b).blockno) ∧
      Changed w' p ⊆ Changed w p \ {(w.buf b).blockno} ∧
      ∀ q, q ≠ p → Changed w' q ⊆ Changed w q := by
  obtain ⟨hhas,hr,rfl⟩ := h.bwrite_eq hs
  have hin := inUse_of_valid hhas.2.2.2
  have hb : (w.written b).buf b = { w.buf b with valid := true, dirty := false } :=
    w.setFlags_buf b true false
  have ha : Apart w (w.written b) b :=
    ⟨fun c hc => w.setFlags_buf_ne hc true false,fun _ _ => rfl, fun c hc => update_of_ne hc ..,rfl⟩
  have hdirty : ∀ c, ((w.written b).buf c).dirty = true → c ≠ b ∧ (w.buf c).dirty = true ∧
      ((w.written b).buf c).blockno = (w.buf c).blockno := by
    intro c hd
    by_cases hc : c = b
    · subst hc
      rw [hb] at hd
      cases hd
    · rw [ha.buf c hc] at hd ⊢
      exact ⟨hc,hd,rfl⟩
  refine ⟨⟨rfl,rfl,rfl,fun c hd => (hdirty c hd).2,fun _ _ => rfl,fun _ hq => .inl hq⟩,?_,?_,?_⟩
  · intro c hd he
    obtain ⟨hc,hd',hn⟩ := hdirty c hd
    exact hc (h.unique (.inr (.inr hd')) hin (hn.symm.trans he))
  · rintro z ⟨c,hc,hl,hm⟩
    have hcb : c ≠ b := by
      rintro rfl
      have hm' : update w.modified c false c = true := hm
      rw [update_self] at hm'
      cases hm'
    have hc' : w.shared.owner c = some p := hc
    have hl' : w.label c = (ROOTDEV,z) := (ha.label hcb).symm.trans hl
    refine ⟨⟨c,hc',hl',(ha.modified c hcb).symm.trans hm⟩,fun hz => hcb ?_⟩
    refine h.unique (h.inUse_of_owner hc') hin ?_
    rw [← Set.mem_singleton_iff.mp hz]
    exact congrArg Prod.snd hl'
  · exact fun q _ => ha.changed fun _ => update_self ..

end Effects

section Advance
variable [DecidableEq P] [Fintype P] {c : Call} {s : List Call}

omit [DecidableEq P] in
theorem Logged.committing_of_script (h : Logged w) {s : List Call} (hp : w.script p = some s) :
    w.log.committing = true :=
  h.committing.mpr ⟨p,by simp [hp]⟩

theorem Logged.only (h : Logged w) (hp : (w.script p).isSome = true) {o : Option (List Call)}
    {q : P} {t : List Call} (hq : update w.script p o q = some t) : q = p ∧ o = some t := by
  by_cases hqp : q = p
  · subst hqp
    rw [update_self] at hq
    exact ⟨rfl,hq⟩
  · rw [update_of_ne hqp] at hq
    exact absurd (h.single q p (by simp [hq]) hp) hqp

omit [Fintype P] in
theorem isSome_update {f : P → Option (List Call)} (hp : (f p).isSome = true) (s : List Call)
    (q : P) : (update f p (some s) q).isSome = (f q).isSome := by
  by_cases hqp : q = p
  · subst hqp
    simp [hp]
  · rw [update_of_ne hqp]

/-- `commit` has made its next call. -/
theorem Logged.advance (h : Logged w) (hp : w.script p = some (c :: s)) (hb : Below w p w')
    (hc : c ≠ .clear) (hd : ∀ b, (w'.buf b).dirty = true → c ≠ .bwrite (w'.buf b).blockno)
    (hq : ∀ q, q ≠ p → Changed w' q ⊆ Changed w q) (hdisc : Disciplined (Changed w' p) s)
    (hrun : w'.phase p = .run) : Logged (w'.advance p s) := by
  have hsc : (w.script p).isSome = true := by simp [hp]
  have hscript : (w'.advance p s).script = update w.script p (some s) := by
    rw [← hb.script]
    rfl
  have hlog : (w'.advance p s).log = w.log := hb.log
  have hop : (w'.advance p s).op = w.op := hb.op
  refine ⟨?_,?_,?_,?_,?_,?_,?_,?_,?_,?_,?_⟩
  · rw [hlog,hop]
    exact h.count
  · rw [hlog]
    exact h.quiet
  · rw [hlog,hscript]
    simp only [isSome_update hsc]
    exact h.committing
  · intro q q'
    rw [hscript,isSome_update hsc,isSome_update hsc]
    exact h.single q q'
  · rw [hlog]
    exact h.empty
  · exact fun q b hq => hb.op_of_logging h.logging hq
  · intro b _ hn
    rw [hlog,h.committing_of_script hp] at hn
    cases hn
  · intro b q t hdb ht
    rw [hscript] at ht
    obtain ⟨rfl,⟨⟩⟩ := h.only hsc ht
    obtain ⟨hd',hn⟩ := hb.dirty b hdb
    have hmem := h.ahead b q _ hd' hp
    rw [pending,takeWhile_cons_of_pos (by simpa using hc)] at hmem
    rw [← hn] at hmem
    exact (mem_cons.mp hmem).resolve_left (hd b hdb).symm
  · intro q t ht
    rw [hscript] at ht
    obtain ⟨rfl,⟨⟩⟩ := h.only hsc ht
    exact hdisc
  · intro q t y ht hy
    rw [hscript] at ht
    obtain ⟨rfl,-⟩ := h.only hsc ht
    have hrun' : (w'.advance q s).phase q = .run := hrun
    rcases hy with hy | ⟨b,hy⟩ <;> rw [hrun'] at hy <;> cases hy
  · intro q t ht
    rw [hscript] at ht
    obtain ⟨rfl,⟨⟩⟩ := h.only hsc ht
    rw [hlog]
    refine (h.cleared q _ hp).imp_left fun hm => ?_
    exact (mem_cons.mp hm).resolve_left hc.symm

end Advance
end Xv6.Caching
