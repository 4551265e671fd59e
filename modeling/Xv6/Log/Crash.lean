import Xv6.Log.Writes

/-! # Crash atomicity of the redo log

The disk keeps a prefix of the block writes of a run.  A cut in `commit` leaves
the disk either `Clean` with the old contents or `Committed`; a cut in
`recover_from_log` leaves a `Clean` disk clean and a `Committed` one committed or
clean with the new contents. -/
namespace Xv6
open Conc WriteSeq Function List

section Header
variable {b : Block}

theorem word_storeBlocks_le {i j : ℕ} (l : List ℕ) (h : j ≤ i) :
    (b.storeBlocks i l).word j = b.word j := by
  induction l generalizing b i with
  | nil => rfl
  | cons x xs ih =>
    rw [Block.storeBlocks,ih (by omega)]
    exact Bytes.word_setWord_ne b _ (by omega)

theorem word_storeBlocks {i j : ℕ} {l : List ℕ} (hj : j < l.length)
    (hl : 4 * (i + l.length) + 4 ≤ BSIZE) (hb : ∀ x ∈ l, x < 2 ^ 32) :
    ((b.storeBlocks i l).word (i + j + 1)).toNat = l[j] := by
  induction l generalizing b i j with
  | nil => cases hj
  | cons x xs ih =>
    simp only [length_cons] at hl hj
    rw [Block.storeBlocks]
    cases j with
    | zero =>
      rw [word_storeBlocks_le xs (by omega),Nat.add_zero,Bytes.word_setWord_self _ _ (by omega)]
      exact Nat.mod_eq_of_lt (hb x mem_cons_self)
    | succ j =>
      rw [show i + (j + 1) + 1 = (i + 1) + j + 1 by omega]
      exact ih (by omega) (by omega) fun y hy => hb y (mem_cons_of_mem _ hy)

theorem word_storeHead (l : List ℕ) : (b.storeHead l).word 0 = UInt32.ofNat l.length := by
  rw [Block.storeHead,word_storeBlocks_le l le_rfl]
  exact Bytes.word_setWord_self b _ (by simp [BSIZE])

theorem loadHead_eq_nil (h : b.word 0 = 0) : b.loadHead = [] := by
  simp [Block.loadHead,h]

/-- A header that fits in its block is read back. -/
theorem loadHead_storeHead {l : List ℕ} (hl : 4 * l.length + 4 ≤ BSIZE)
    (hb : ∀ x ∈ l, x < 2 ^ 32) : (b.storeHead l).loadHead = l := by
  have hlen : l.length < 128 := by simp only [BSIZE] at hl; omega
  have hsmall : ∀ n < 128, (UInt32.ofNat n).toInt32.toInt.toNat = n := by decide
  have hn : ((b.storeHead l).word 0).toInt32.toInt.toNat = l.length := by
    rw [word_storeHead,hsmall _ hlen]
  unfold Block.loadHead
  rw [hn]
  apply ext_getElem
  · simp
  intro i h1 h2
  rw [getElem_map,getElem_range]
  have hw := word_storeBlocks (b := b.setWord 0 (UInt32.ofNat l.length)) (i := 0) h2
    (by omega) hb
  rw [Nat.zero_add] at hw
  exact hw

end Header

section Lists
variable {start tail : ℕ} {g m : Disk} {l : List ℕ}

theorem mem_logWrites {w : ℕ × Block} (h : w ∈ logWrites start g tail l) :
    start + tail < w.1 ∧ w.1 ≤ start + tail + l.length := by
  induction l generalizing tail with
  | nil => cases h
  | cons b bs ih =>
    simp only [length_cons]
    rcases mem_cons.mp h with rfl | h
    · omega
    · have := ih h
      omega

/-- After `write_log` the log blocks hold what the cache holds for the home blocks. -/
theorem apply_logWrites {i : ℕ} (hi : i < l.length) :
    apply (logWrites start g tail l) m (start + tail + i + 1) = g l[i] := by
  induction l generalizing tail m i with
  | nil => cases hi
  | cons b bs ih =>
    rw [logWrites,apply_cons]
    cases i with
    | zero =>
      rw [apply_of_notMem,Nat.add_zero,update_self]
      · rfl
      · intro w hw he
        have := mem_logWrites hw
        omega
    | succ i =>
      rw [show start + tail + (i + 1) + 1 = start + (tail + 1) + i + 1 by omega]
      exact ih (by simpa using hi)

theorem mem_installWrites {w : ℕ × Block} (h : w ∈ installWrites start m tail l) : w.1 ∈ l := by
  induction l generalizing tail with
  | nil => cases h
  | cons b bs ih =>
    rcases mem_cons.mp h with rfl | h
    · exact mem_cons_self
    · exact mem_cons_of_mem _ (ih h)

/-- `install_trans` writes to the home blocks what `write_log` has logged. -/
theorem installWrites_eq (h : ∀ i (hi : i < l.length), m (start + tail + i + 1) = g l[i]) :
    installWrites start m tail l = l.map fun b => (b,g b) := by
  induction l generalizing tail with
  | nil => rfl
  | cons b bs ih =>
    have h0 := h 0 (by simp)
    rw [installWrites,map_cons]
    congr 1
    · exact congrArg (Prod.mk b) h0
    · apply ih
      intro i hi
      have := h (i + 1) (by simpa using hi)
      rw [show start + (tail + 1) + i + 1 = start + tail + (i + 1) + 1 by omega]
      exact this

end Lists

/-- A disk with nothing in its log and the contents `old` outside the log area. -/
structure Clean (start size : ℕ) (old d : Disk) : Prop where
  header : (d start).word 0 = 0
  same : ∀ b, (b < start ∨ start + size ≤ b) → d b = old b

/-- A disk whose log holds the contents `new` of the home blocks `l`. -/
structure Committed (start size : ℕ) (l : List ℕ) (new d : Disk) : Prop where
  header : (d start).loadHead = l
  logged : ∀ i (hi : i < l.length), d (start + i + 1) = new l[i]
  same : ∀ b, (b < start ∨ start + size ≤ b) → b ∉ l → d b = new b

section Disk
variable {start size : ℕ} {l : List ℕ} {old new d : Disk}

/-- Clearing the header of a clean disk, or not. -/
theorem Clean.clear (h : Clean start size old d) (hs : 0 < size) (k : ℕ) :
    Clean start size old (apply ([(start,(d start).storeHead [])].take k) d) := by
  cases k with
  | zero => exact h
  | succ k =>
    rw [take_succ_cons,take_nil,apply_cons,apply_nil]
    refine ⟨?_,?_⟩
    · rw [update_self,word_storeHead]
      rfl
    · intro b hb
      rw [update_of_ne (by dsimp only; omega)]
      exact h.same b hb

/-- Writes to the home blocks keep a committed disk committed. -/
theorem Committed.install (h : Committed start size l new d) (hl : LogArea start size 0 l)
    {ws : List (ℕ × Block)} (hw : ∀ w ∈ ws, w.1 ∈ l) :
    Committed start size l new (apply ws d) := by
  have hin : ∀ x, start ≤ x → x < start + size → ∀ w ∈ ws, w.1 ≠ x := by
    intro x h1 h2 w hm he
    have := hl.home w.1 (hw w hm)
    omega
  have hlen := hl.len
  refine ⟨?_,?_,?_⟩
  · rw [apply_of_notMem (hin start le_rfl (by omega))]
    exact h.header
  · intro i hi
    rw [apply_of_notMem (hin _ (by omega) (by omega))]
    exact h.logged i hi
  · intro b hb hbl
    rw [apply_of_notMem]
    · exact h.same b hb hbl
    · intro w hm he
      exact hbl (he ▸ hw w hm)

/-- `install_trans` and the clearing of the header, cut after `k` writes. -/
theorem Committed.recover (h : Committed start size l new d) (hl : LogArea start size 0 l)
    (x : Block) (k : ℕ) :
    Committed start size l new (apply
        (((l.map fun b => (b,new b)) ++ [(start,x.storeHead [])]).take k) d) ∧ k ≤ l.length ∨
      Clean start size new (apply
        (((l.map fun b => (b,new b)) ++ [(start,x.storeHead [])]).take k) d) ∧
        l.length < k := by
  by_cases hk : k ≤ l.length
  · left
    refine ⟨?_,hk⟩
    rw [take_append_of_le_length (by simpa using hk)]
    apply h.install hl
    intro w hw
    obtain ⟨b,hb,rfl⟩ := mem_map.mp (mem_of_mem_take hw)
    exact hb
  · right
    have hlen := hl.len
    refine ⟨?_,by omega⟩
    rw [take_of_length_le (by simp; omega),apply_append,apply_cons,
      apply_nil]
    refine ⟨?_,?_⟩
    · rw [update_self,word_storeHead]
      rfl
    · intro b hb
      rw [update_of_ne (by dsimp only; omega)]
      by_cases hbl : b ∈ l
      · refine apply_of_mem (g := new) ?_ ⟨(b,new b),mem_map.mpr ⟨b,hbl,rfl⟩,rfl⟩ d
        rintro w hw
        obtain ⟨y,-,rfl⟩ := mem_map.mp hw
        rfl
      · rw [apply_of_notMem]
        · exact h.same b hb hbl
        · rintro w hw rfl
          obtain ⟨y,hy,rfl⟩ := mem_map.mp hw
          exact hbl hy

end Disk

/-- The block writes of `commit`, where `g` is what is seen through the cache. -/
def Log.commitWrites (log : Log) (g : Disk) : List (ℕ × Block) :=
  if log.block = [] then []
  else logWrites log.start g 0 log.block ++ [(log.start,(g log.start).storeHead log.block)] ++
    ((log.block.map fun b => (b,g b)) ++
      [(log.start,((g log.start).storeHead log.block).storeHead [])])

section Specs
variable {p : ℕ} {E : Stops} {c : KCfg}

theorem safe_clearHead (hs : c.st.log.start < FSSIZE) (ho : ∀ b, c.owner (.buf b) = none) :
    Conc.Safe p E (do Fs.logSection fun l => ((),l.clear); Fs.writeHead) (fun _ c' =>
      Wrote { c.st with log := c.st.log.clear } c'.st
        [(c.st.log.start,(c.st.content c.st.log.start).storeHead [])] ∧ c'.owner = c.owner) c := by
  rw [safe_bind,safe_logSection]
  exact safe_writeHead hs ho

theorem safe_commit (hl : LogArea c.st.log.start c.st.log.size 0 c.st.log.block)
    (ho : ∀ b, c.owner (.buf b) = none) :
    Conc.Safe p E Fs.commit (fun _ c' =>
      Wrote { c.st with log := c.st.log.clear } c'.st (c.st.log.commitWrites c.st.content) ∧
        c'.owner = c.owner) c := by
  have hlen := hl.len
  have harea := hl.area
  have hs : c.st.log.start < FSSIZE := by omega
  unfold Fs.commit
  rw [safe_bind,safe_view]
  change Conc.Safe p E (if c.st.log.n > 0 then _ else _) _ c
  by_cases hn : c.st.log.block = []
  · rw [if_neg (by simp [Log.n,hn])]
    have hc : c.st.log.clear = c.st.log := by simp [Log.clear,← hn]
    rw [Log.commitWrites,if_pos hn,hc]
    exact ⟨Wrote.refl _,rfl⟩
  rw [if_pos (by simpa [Log.n,length_pos_iff] using hn),Log.commitWrites,if_neg hn]
  unfold Fs.writeLog Fs.installTrans
  simp only [bind_assoc]
  rw [safe_bind,safe_view]
  refine (safe_writeLogFrom hl ho).seq ?_
  rintro _ c1 ⟨hw1,ho1⟩
  have hl1 := hw1.log
  refine (safe_writeHead (by rw [hl1]; exact hs) (fun b => by rw [ho1,ho])).seq ?_
  rintro _ c2 ⟨hw2,ho2⟩
  have hg1 : c1.st.content c.st.log.start = c.st.content c.st.log.start := by
    rw [hw1.content]
    refine apply_of_notMem (fun w hw he => ?_) _
    have := mem_logWrites hw
    omega
  rw [hl1,hg1] at hw2
  have hw12 := hw1.trans hw2
  rw [safe_bind,safe_view]
  change Conc.Safe p E (Fs.installTransFrom c2.st.log.start 0 c2.st.log.block >>= _) _ c2
  rw [hw12.log]
  refine (safe_installTransFrom hl (fun b => by rw [ho2,ho1,ho])).seq ?_
  rintro _ c3 ⟨hw3,ho3⟩
  -- the log blocks hold what the cache held when the commit began
  have hlogged : ∀ i (hi : i < c.st.log.block.length),
      c2.st.content (c.st.log.start + 0 + i + 1) = c.st.content c.st.log.block[i] := by
    intro i hi
    rw [hw12.content,apply_append,apply_of_notMem,apply_logWrites hi]
    rintro w hw he
    rw [mem_singleton.mp hw] at he
    omega
  rw [installWrites_eq hlogged] at hw3
  have hw13 := hw12.trans hw3
  have hg3 : c3.st.content c.st.log.start = (c.st.content c.st.log.start).storeHead
      c.st.log.block := by
    rw [hw13.content,apply_append,apply_of_notMem,apply_append,
      apply_cons,apply_nil,update_self]
    rintro w hw he
    obtain ⟨b,hb,rfl⟩ := mem_map.mp hw
    have := hl.home b hb
    omega
  refine (safe_clearHead (by rw [hw13.log]; exact hs)
    (fun b => by rw [ho3,ho2,ho1,ho])).imp ?_
  rintro _ c' ⟨hw,hco⟩
  rw [hw13.log,hg3] at hw
  refine ⟨?_,by rw [hco,ho3,ho2,ho1]⟩
  rw [← append_assoc]
  have hw13' : Wrote { c.st with log := c.st.log.clear } { c3.st with log := c.st.log.clear }
      _ := ⟨hw13.writes,hw13.disk,
        (congrArg (fun v : View => { v with log := c.st.log.clear }) hw13.view :)⟩
  exact hw13'.trans hw

/-- The whole of `recover_from_log`, with nothing in the cache that differs from
the disk. -/
theorem safe_recoverFromLog {l : List ℕ}
    (hh : (c.st.content c.st.log.start).loadHead = l)
    (hl : LogArea c.st.log.start c.st.log.size 0 l) (ho : ∀ b, c.owner (.buf b) = none) :
    Conc.Safe p E Fs.recoverFromLog (fun _ c' =>
      Wrote { c.st with log := c.st.log.clear } c'.st
        (installWrites c.st.log.start c.st.content 0 l ++
          [(c.st.log.start,(c.st.content c.st.log.start).storeHead [])]) ∧
        c'.owner = c.owner) c := by
  have hlen := hl.len
  have harea := hl.area
  have hs : c.st.log.start < FSSIZE := by omega
  unfold Fs.recoverFromLog Fs.readHead Fs.installTrans
  simp only [bind_assoc]
  rw [safe_bind,safe_view,safe_bind]
  refine safe_bread hs (ho _) fun c1 hv1 hd1 hw1 ho1 => ?_
  have hc1 : c1.st.content = c.st.content := congrArg View.disk hv1
  have hl1 : c1.st.log = c.st.log := congrArg View.log hv1
  rw [safe_bind,safe_data,safe_bind,safe_logSection,safe_bind]
  have hown : c1.owner (.buf c.st.view.log.start) = some p := by rw [ho1,update_self]
  refine safe_brelse ((congrFun (Cfg.owner_mk _ c1) _).trans hown) fun c2 hs2 ho2 => ?_
  -- the header has been read into memory and nothing else has changed
  have hst : c2.st = { c1.st with log := { c.st.log with block := l } } := by
    have hh' : (c1.st.content c.st.log.start).loadHead = l := by rw [hc1,hh]
    rw [hs2,← hl1,← hh']
    rfl
  have ho2' : c2.owner = c.owner := by
    rw [ho2,Cfg.owner_mk,ho1,Cfg.update_owner_none p (ho _)]
  have hc2 : c2.st.content = c.st.content := by rw [hst]; exact hc1
  have hl2 : c2.st.log = { c.st.log with block := l } := by rw [hst]
  have hw2 : Wrote { c.st with log := c.st.log.clear } { c2.st with log := c.st.log.clear } [] := by
    refine Wrote.silent ?_ ?_ ?_
    · rw [hst]
      exact congrArg (fun v : View => { v with log := c.st.log.clear }) hv1
    · rw [hst]; exact hd1
    · rw [hst]; exact hw1
  rw [safe_bind,safe_view]
  change Conc.Safe p E (Fs.installTransFrom c2.st.log.start 0 c2.st.log.block >>= _) _ c2
  rw [hl2]
  refine (safe_installTransFrom hl (fun b => by rw [ho2',ho])).seq ?_
  rintro _ c3 ⟨hw3,ho3⟩
  have hl3 : c3.st.log = { c.st.log with block := l } := hw3.log.trans hl2
  refine (safe_clearHead (by rw [hl3]; exact hs) (fun b => by rw [ho3,ho2',ho])).imp ?_
  rintro _ c' ⟨hw,hco⟩
  refine ⟨?_,by rw [hco,ho3,ho2']⟩
  have hg : c3.st.content c.st.log.start = c.st.content c.st.log.start := by
    rw [hw3.content,apply_of_notMem,hc2]
    rintro w hm he
    have := hl.home w.1 (mem_installWrites hm)
    omega
  have hcl : c3.st.log.clear = c.st.log.clear := by rw [hl3]; rfl
  have hst3 : c3.st.log.start = c.st.log.start := by rw [hl3]
  rw [hcl,hst3,hg] at hw
  rw [hc2] at hw3
  have hw3' : Wrote { c2.st with log := c.st.log.clear } { c3.st with log := c.st.log.clear } _ :=
    ⟨hw3.writes,hw3.disk,(congrArg (fun v : View => { v with log := c.st.log.clear }) hw3.view :)⟩
  exact (hw2.trans hw3').trans hw

end Specs

/-- The state in which recovery starts: nothing cached, no lock held. -/
def boot (start size : ℕ) (d : Disk) : KCfg where
  st :=
    { disk := .ofFun d, cache := .ofFun fun _ => none, writes := []
      sb := Superblock.ofBlock (d 1), log := ⟨start,size,0,false,[]⟩
      inode := .ofFun default, file := .ofFun default, proc := .ofFun default, input := [] }
  held := []

/-- `recover_from_log` runs on the disk `d`, perhaps cut after some of its writes
and started again, any number of times, until it completes with the disk `d'`. -/
inductive Recovers (p start size : ℕ) : Disk → Disk → Prop where
  | done {d : Disk} {c : KCfg} (h : run p Fs.recoverFromLog (boot start size d) = .ok ((),c)) :
    Recovers p start size d c.st.disk.get
  | cut {d d' : Disk} {c : KCfg} (k : ℕ)
    (h : run p Fs.recoverFromLog (boot start size d) = .ok ((),c))
    (hr : Recovers p start size (apply (c.st.writes.take k) d) d') :
    Recovers p start size d d'

section Recovery
variable {p start size : ℕ} {l : List ℕ} {old new d d' : Disk}

theorem run_recoverFromLog (hh : (d start).loadHead = l) (hl : LogArea start size 0 l) :
    ∃ c, run p Fs.recoverFromLog (boot start size d) = .ok ((),c) ∧
      c.st.writes = installWrites start d 0 l ++ [(start,(d start).storeHead [])] ∧
      c.st.disk.get = apply c.st.writes d := by
  have h := safe_recoverFromLog (p := p) (E := fun _ => False) (c := boot start size d)
    (l := l) hh hl (fun _ => rfl)
  unfold Conc.Safe at h
  cases hr : run p Fs.recoverFromLog (boot start size d) with
  | error e => rw [hr] at h; exact h.elim
  | ok r =>
    rw [hr] at h
    obtain ⟨⟨hw,hd,-⟩,-⟩ := h
    have hw' : r.2.st.writes = installWrites start d 0 l ++ [(start,(d start).storeHead [])] := hw
    exact ⟨r.2,rfl,hw',by rw [hw']; exact hd⟩

/-- From a clean disk every chain of recoveries ends with the same contents. -/
theorem Clean.recovers (hr : Recovers p start size d d') (ha : start + size ≤ FSSIZE)
    (hs : 0 < size) (h : Clean start size old d) : Clean start size old d' := by
  have hl : LogArea start size 0 [] := ⟨ha,by simpa using hs,by simp,by simp⟩
  induction hr with
  | @done d c hrun =>
    obtain ⟨c1,hc1,hw,hd⟩ := run_recoverFromLog (p := p) (loadHead_eq_nil h.header) hl
    obtain rfl : c1 = c := by simpa using hc1.symm.trans hrun
    rw [hd,hw,← take_length (l := installWrites start d 0 [] ++ _)]
    exact h.clear hs _
  | @cut d d' c k hrun _ ih =>
    obtain ⟨c1,hc1,hw,-⟩ := run_recoverFromLog (p := p) (loadHead_eq_nil h.header) hl
    obtain rfl : c1 = c := by simpa using hc1.symm.trans hrun
    apply ih
    rw [hw]
    exact h.clear hs k

/-- From a committed disk every chain of recoveries ends with the new contents. -/
theorem Committed.recovers (hr : Recovers p start size d d') (hl : LogArea start size 0 l)
    (h : Committed start size l new d) : Clean start size new d' := by
  have hpos : 0 < size := by have := hl.len; omega
  induction hr with
  | @done d c hrun =>
    obtain ⟨c1,hc1,hw,hd⟩ := run_recoverFromLog (p := p) h.header hl
    obtain rfl : c1 = c := by simpa using hc1.symm.trans hrun
    rw [installWrites_eq (by simpa using h.logged)] at hw
    rcases h.recover hl (d start) (l.length + 1) with ⟨-,hk⟩ | ⟨hc,-⟩
    · omega
    · rwa [take_of_length_le (by simp),← hw,← hd] at hc
  | @cut d d' c k hrun hrest ih =>
    obtain ⟨c1,hc1,hw,-⟩ := run_recoverFromLog (p := p) h.header hl
    obtain rfl : c1 = c := by simpa using hc1.symm.trans hrun
    rw [installWrites_eq (by simpa using h.logged)] at hw
    rw [hw] at ih hrest
    rcases h.recover hl (d start) k with ⟨hc,-⟩ | ⟨hc,-⟩
    · exact ih hc
    · exact hc.recovers hrest hl.area hpos

theorem Recovers.exists (hl : LogArea start size 0 (d start).loadHead) :
    ∃ d', Recovers p start size d d' := by
  obtain ⟨c,hc,-,-⟩ := run_recoverFromLog (p := p) rfl hl
  exact ⟨_,.done hc⟩

end Recovery

/-- The contents of the disk once the transaction in `log` has been installed. -/
def Sys.committed (s : Sys) : Disk := fun b => if b ∈ s.log.block then s.content b else s.disk.get b

section Commit
variable {s : Sys}

/-- A cut before the header is written leaves the old contents. -/
theorem clean_of_writeLog (hh : (s.disk.get s.log.start).word 0 = 0)
    (hl : LogArea s.log.start s.log.size 0 s.log.block) (k : ℕ) :
    Clean s.log.start s.log.size s.disk.get
      (apply ((logWrites s.log.start s.content 0 s.log.block).take k) s.disk.get) := by
  have hlen := hl.len
  have hkeep : ∀ b, (b ≤ s.log.start ∨ s.log.start + s.log.size ≤ b) →
      apply ((logWrites s.log.start s.content 0 s.log.block).take k) s.disk.get b
        = s.disk.get b := by
    intro b hb
    refine apply_of_notMem (fun w hw he => ?_) _
    have := mem_logWrites (mem_of_mem_take hw)
    omega
  refine ⟨?_,?_⟩
  · rw [hkeep _ (.inl le_rfl)]
    exact hh
  · intro b hb
    exact hkeep b (by omega)

/-- Once the header is written the disk is committed. -/
theorem committed_of_writeHead (hl : LogArea s.log.start s.log.size 0 s.log.block)
    (hn : s.log.n ≤ LOGSIZE) :
    Committed s.log.start s.log.size s.log.block s.committed
      (apply (logWrites s.log.start s.content 0 s.log.block ++
        [(s.log.start,(s.content s.log.start).storeHead s.log.block)]) s.disk.get) := by
  have hlen := hl.len
  rw [apply_append,apply_cons,apply_nil]
  refine ⟨?_,?_,?_⟩
  · rw [update_self]
    apply loadHead_storeHead
    · simp only [Log.n,LOGSIZE,MAXOPBLOCKS] at hn
      simp only [BSIZE]
      omega
    · intro b hb
      have := hl.onDisk b hb
      simp only [FSSIZE] at this
      omega
  · intro i hi
    rw [update_of_ne (by dsimp only; omega),← Nat.add_zero s.log.start,
      apply_logWrites hi]
    exact (if_pos (getElem_mem hi)).symm
  · intro b hb hbl
    rw [update_of_ne (by dsimp only; omega),apply_of_notMem]
    · exact (if_neg hbl).symm
    · intro w hw he
      have := mem_logWrites hw
      omega

/-- The disk after the first `k` writes of `commit`. -/
theorem commitWrites_take (hh : (s.disk.get s.log.start).word 0 = 0)
    (hl : LogArea s.log.start s.log.size 0 s.log.block) (hn : s.log.n ≤ LOGSIZE) (k : ℕ) :
    let ws := (s.log.commitWrites s.content).take k
    (∀ x, (s.log.start,x) ∉ ws) ∧
        Clean s.log.start s.log.size s.disk.get (apply ws s.disk.get) ∨
      (∃ x, (s.log.start,x) ∈ ws) ∧
        (Committed s.log.start s.log.size s.log.block s.committed (apply ws s.disk.get) ∨
          Clean s.log.start s.log.size s.committed (apply ws s.disk.get)) := by
  intro ws
  by_cases hb : s.log.block = []
  · have hws : ws = [] := by simp [ws,Log.commitWrites,hb]
    rw [hws]
    exact .inl ⟨by simp,hh,fun _ _ => rfl⟩
  have hnotLog : ∀ x, (s.log.start,x) ∉ logWrites s.log.start s.content 0 s.log.block := by
    intro x hx
    have := mem_logWrites hx
    omega
  by_cases hk : k ≤ (logWrites s.log.start s.content 0 s.log.block).length
  · have hws : ws = (logWrites s.log.start s.content 0 s.log.block).take k := by
      simp only [ws,Log.commitWrites,if_neg hb]
      rw [append_assoc,take_append_of_le_length hk]
    rw [hws]
    exact .inl ⟨fun x hx => hnotLog x (mem_of_mem_take hx),clean_of_writeLog hh hl k⟩
  · -- the rest of the run is an installation from the log, as in a recovery
    right
    have hws : ws = (logWrites s.log.start s.content 0 s.log.block ++
        [(s.log.start,(s.content s.log.start).storeHead s.log.block)]) ++
        (((s.log.block.map fun b => (b,s.committed b)) ++
          [(s.log.start,((s.content s.log.start).storeHead s.log.block).storeHead [])]).take
          (k - (logWrites s.log.start s.content 0 s.log.block).length - 1)) := by
      have hm : (s.log.block.map fun b => (b,s.committed b))
          = s.log.block.map fun b => (b,s.content b) :=
        map_congr_left fun b hm => congrArg (Prod.mk b) (if_pos hm)
      simp only [ws,Log.commitWrites,if_neg hb]
      rw [take_append,take_of_length_le (by simp; omega),hm]
      simp only [length_append,length_singleton,Nat.sub_sub]
    rw [hws,apply_append]
    refine ⟨⟨_,mem_append_left _ (mem_append_right _ mem_cons_self)⟩,?_⟩
    rcases (committed_of_writeHead hl hn).recover hl _ _ with ⟨hc,-⟩ | ⟨hc,-⟩
    · exact .inl hc
    · exact .inr hc

/-- A transaction of the blocks 70 and 71 on a zeroed disk with an `mkfs` log. -/
def twoBlocks : KCfg :=
  let c := boot 2 LOGSIZE fun _ => Bytes.zero
  { c with st := { c.st with
      log := { c.st.log with block := [70, 71] }
      cache := .ofFun fun b => if b = 70 ∨ b = 71 then some (Bytes.tabulate fun _ => 1) else none } }

end Commit
end Xv6
