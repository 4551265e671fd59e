import Xv6.Fs.ByteString
import Xv6.Fs.TransactionSpec
import Xv6.Lib.Machine
import Xv6.Lib.Tally

/-! # An open file that processes share

A `struct file` has one offset.  `fileread` and every round of the loop of `filewrite` read
and advance it with the inode locked, and other processes run between the rounds. -/
namespace Xv6
open Conc Function List

/-- Open file `f` is inode `i` in slot `k`, a regular file with the contents `n`, and nobody
is in a transaction or holds a lock. -/
structure Shared (f k i : ℕ) (ff : File) (n : Node) (v : View) (o : Lock → Option ℕ) : Prop where
  sb : v.sb = Mkfs.sb
  block : Superblock.ofBlock (v.disk 1) = Mkfs.sb
  log : v.log = Fs.emptyLog
  sound : Sound (inodeAt v.disk) v.disk
  file : v.file f = ff
  type : ff.type = .inode
  ip : ff.ip = k
  inum : (v.inode k).inum = i
  ref : 0 < (v.inode k).ref
  copy : (v.inode k).valid = true → (v.inode k).d = inodeAt v.disk i
  node : files v.disk i = some n
  regular : n.type = T_FILE
  off : ff.off ≤ n.size
  free : o = fun _ => none

variable {p f k i : ℕ} {ff : File} {n : Node} {v : View} {o : Owners}
  {E : Stops}

namespace Fs

theorem logOk_emptyLog : LogOk emptyLog :=
  ⟨rfl,rfl,by decide,by decide,nofun,nofun⟩

/-- `f->off += r` for a positive result of `readi` or `writei`. -/
theorem Safe.advance {Q : Post Unit} {r : ℤ} {m : ℕ}
    (hr : r.toNat = m) (hm : (v.file f).off + m < 2 ^ 32)
    (h : Q () { v with file := update v.file f { v.file f with off := (v.file f).off + m } } o) :
    Safe p E (Fs.advance f r) Q v o := by
  refine whenever (fun _ => modifyFile ?_) fun h0 => ?_
  · rw [hr,Nat.mod_eq_of_lt hm]
    exact h
  · have hm0 : m = 0 := by
      simp only [decide_eq_false_iff_not] at h0
      omega
    subst hm0
    rw [Nat.add_zero,Function.update_eq_self] at h
    exact h

theorem logOk_openLog : LogOk openLog :=
  ⟨rfl,rfl,by decide,by decide,nofun,nofun⟩

theorem touched_le (off : ℕ) {len : ℕ} (h : len ≤ filewriteMax) : touched off len ≤ 4 := by
  have hB : BSIZE = 512 := rfl
  have hM : filewriteMax = 1536 := rfl
  unfold touched endBlock
  rw [hB]
  omega

end Fs

namespace Shared
open Fs
variable (h : Shared f k i ff n v o)
include h

theorem logOk : LogOk v.log := by
  rw [h.log]
  exact logOk_emptyLog

theorem type_inode : (inodeAt v.disk i).type = T_FILE := by
  obtain ⟨-,-,rfl⟩ := files_eq_some h.node
  exact h.regular

theorem size_lt : n.size < 2 ^ 32 := by
  obtain ⟨-,-,rfl⟩ := files_eq_some h.node
  exact UInt32.toNat_lt _

theorem write {src : List UInt8}
    (hlen : src.length ≤ filewriteMax) (hmax : ff.off + src.length ≤ MAXFILE * BSIZE)
    (hfree : E (.fail .ballocOutOfBlocks) ∨ needs (inodeAt v.disk i) v.disk (ff.off / BSIZE)
      (endBlock ff.off src.length) ≤ freeCount v.disk) :
    Safe p E (Fs.transaction (Fs.writeChunk f k src)) (fun r v' o' => r = src.length ∧
      Shared f k i { ff with off := ff.off + src.length } (n.write ff.off src) v' o' ∧
      ∀ j, j ≠ i → files v'.disk j = files v.disk j) v o := by
  obtain ⟨hi,ht,hnode⟩ := files_eq_some h.node
  have hM : MAXFILE * BSIZE = 71680 := rfl
  have hdev : (inodeAt v.disk i).type ≠ T_DEV := by
    rw [h.type_inode]
    decide
  have hgood : ¬ WriteBad (inodeAt v.disk i) ff.off src.length := by
    rw [writeBad_iff (by omega) h.node]
    have := h.off
    unfold WriteRefused
    omega
  refine Safe.transaction h.log ?_
  refine Safe.bind (Safe.ilock_locked ⟨h.sb,h.block,logOk_openLog⟩ hi h.inum h.ref ht h.copy
    (by rw [h.free]) (fun b => by rw [h.free]) fun x hl => ?_)
  refine Safe.file_seq ?_
  rw [h.file]
  refine Safe.bind (Safe.writei (c := 0) ⟨h.sb,h.block,logOk_openLog⟩ h.sound hi hl.inum hl.copy
    ht hl.valid hl.ref hl.bufs hl.lock (fun _ _ => ⟨logSet_spec v.disk i _ _,?_⟩)
    (fun hd => absurd hd hdev) (fun _ hb => absurd hb hgood) fun _ _ A v' hw _ => ?_)
  · refine ⟨.inr ⟨le_rfl,?_⟩,hfree.imp_right fun hf => by dsimp only; omega⟩
    have h1 := card_logSet v.disk i ff.off src.length
    have h2 := Finset.card_filter_le (logSet v.disk i ff.off src.length) (· ∉ openLog.block)
    have h3 := touched_le ff.off hlen
    have hL : LOGSIZE = 30 := rfl
    have hn0 : openLog.n = 0 := rfl
    unfold Log.load
    dsimp only
    omega
  -- the offset moves, and `end_op` changes nothing outside of the log
  have hfile : v'.file f = ff := by
    rw [hw.frame.file]
    exact h.file
  refine Safe.bind (Safe.advance (Int.toNat_natCast _) (by rw [hfile]; omega) ?_)
  have hino : v'.inode k = (update v.inode k x k).withD (inodeAt v'.disk i) := by
    rw [hw.inode]
    exact update_self ..
  have href : 0 < (v'.inode k).ref := by
    rw [hino]
    exact hl.ref
  refine Safe.bind (Safe.iunlock hl.lock href (Safe.pure ⟨hw.frame.log,?_,?_,?_,?_⟩))
  · exact hw.frame.logs.outstanding
  · exact hw.frame.logs.committing
  · intro b
    rw [update_of_ne (by simp)]
    exact hl.bufs b
  intro d' hd
  obtain ⟨hsound,hfiles⟩ := hd.sound hw.sound
  refine ⟨rfl,⟨hw.frame.sb.trans h.sb,?_,rfl,hsound,?_,h.type,h.ip,?_,href,fun _ => ?_,
    ?_,h.regular,?_,?_⟩,fun j hj => ?_⟩
  · dsimp only
    rw [hd 1 (.inl (by decide)),hw.superblock]
    exact h.block
  · dsimp only
    rw [update_self,hfile]
  · rw [hino]
    exact hl.inum
  · rw [hino,hd.inodeAt_eq]
    rfl
  · rw [hfiles,hw.files,update_self,hnode]
  · exact le_max_right _ _
  · rw [update_idem,h.free,Function.update_eq_self_iff]
  · rw [hfiles,hw.files,update_of_ne hj]

/-- What `readi` returns is a part of the file at the offset. -/
theorem readPart {len : ℕ} {r : ℤ × List UInt8}
    (hr : r = readResult (inodeAt v.disk i) v.disk ff.off len) :
    r.1.toNat = r.2.length ∧ ff.off + r.2.length ≤ n.size ∧
      ∀ x, (hx : x < r.2.length) → n.data (ff.off + x) = r.2[x] := by
  obtain ⟨-,-,hnode⟩ := files_eq_some h.node
  have hsize : n.size = (inodeAt v.disk i).size.toNat := by rw [hnode]; rfl
  have hoff := h.off
  unfold readResult at hr
  split at hr
  · rw [hr]
    exact ⟨rfl,hoff,nofun⟩
  · rw [hr]
    refine ⟨?_,?_,fun x hx => ?_⟩
    · dsimp only
      rw [Int.toNat_natCast,contentAt,length_map,length_range]
    · simp only [contentAt,length_map,length_range]
      split <;> omega
    · simp only [contentAt,length_map,length_range] at hx
      have hx' : ff.off + x < (inodeAt v.disk i).size.toNat := by
        split at hx <;> omega
      simp [contentAt,hnode,nodeOf,hx']

/-- `fileread` returns a part of the file at the offset. -/
theorem read (len : ℕ) : Safe p E (Fs.fileread p f len) (fun r v' o' =>
      Shared f k i { ff with off := ff.off + r.2.length } n v' o' ∧
      (∀ x, (hx : x < r.2.length) → n.data (ff.off + x) = r.2[x]) ∧
      files v'.disk = files v.disk) v o := by
  obtain ⟨hi,ht,hnode⟩ := files_eq_some h.node
  have hdev : (inodeAt v.disk i).type ≠ T_DEV := by
    rw [h.type_inode]
    decide
  refine Safe.file_seq ?_
  rw [h.file]
  refine Safe.ite (fun _ => Safe.pure ⟨h,nofun,rfl⟩) fun _ => ?_
  rw [h.type]
  rw [h.ip]
  refine Safe.bind (Safe.ilock_locked ⟨h.sb,h.block,h.logOk⟩ hi h.inum h.ref ht h.copy
    (by rw [h.free]) (fun b => by rw [h.free]) fun x hl => ?_)
  refine Safe.file_seq ?_
  rw [h.file]
  refine Safe.bind (Safe.readi (v := { v with inode := update v.inode k x }) ⟨h.sb,h.block,h.logOk⟩
    h.sound.owned hi hl.copy.symm ht hl.bufs (fun hd => absurd hd hdev) hl.inum hl.valid hl.ref
    hl.lock (h.sound.mapped i hi ht) fun r inp hres => ?_)
  obtain ⟨rfl,rfl⟩ := hres hdev
  obtain ⟨hnat,hsize,hbytes⟩ := h.readPart rfl
  refine Safe.bind (Safe.advance hnat (by rw [h.file]; exact hsize.trans_lt h.size_lt) ?_)
  refine Safe.bind (Safe.iunlock hl.lock hl.ref (Safe.pure ⟨⟨h.sb,h.block,h.log,h.sound,?_,
    rfl,rfl,hl.inum,hl.ref,fun _ => hl.copy,h.node,h.regular,hsize,?_⟩,hbytes,rfl⟩))
  · dsimp only
    rw [update_self,h.file,h.type,h.ip]
  · rw [update_idem,h.free,Function.update_eq_self_iff]

end Shared

namespace SharedFile
open Fs Tally

/-- The processes that share an open file.  `left` has the bytes that a process still has to
write in its call of `filewrite`, `asked` those of all its calls, and `hist` the sections so
far. -/
structure World where
  cfg : KCfg
  left : ℕ → Option (List UInt8)
  asked : ℕ → List UInt8
  hist : List (Transfer ℕ UInt8)

def World.init (c : KCfg) : World := ⟨c,fun _ => none,fun _ => [],[]⟩

inductive Move where
  /-- a call of `fileread` -/
  | read (len : ℕ)
  /-- a call of `filewrite`, up to its loop -/
  | write (src : List UInt8)
  /-- one round of the loop of `filewrite`, or its end -/
  | round

/-- The round of the loop of `filewrite` that writes the start of `src`. -/
def writeRound (f ip : ℕ) (w : World) (p : ℕ) (src : List UInt8) : Option World :=
  let n1 := min src.length filewriteMax
  match run p (transaction (writeChunk f ip (src.take n1))) w.cfg with
  | .error _ => none
  | .ok (r,c) =>
    if r < 0 then some { w with cfg := c, left := update w.left p none }
    else if r != n1 then none
    else some
      { w with
        cfg := c
        left := update w.left p (some (src.drop n1))
        hist := w.hist ++ [⟨p,true,src.take n1⟩] }

/-- A section of a process, with `f` open on the inode in slot `ip`. -/
def step (f ip : ℕ) (w : World) : ℕ × Move → Option World
  | (p,.read len) =>
    match w.left p, run p (fileread p f len) w.cfg with
    | none, .ok (r,c) => some { w with cfg := c, hist := w.hist ++ [⟨p,false,r.2⟩] }
    | _, _ => none
  | (p,.write src) =>
    match w.left p with
    | some _ => none
    | none =>
      if !(w.cfg.st.view.file f).writable then some w
      else
        match (w.cfg.st.view.file f).type with
        | .none => none
        | .inode => some
          { w with
            left := update w.left p (some src)
            asked := update w.asked p (w.asked p ++ src) }
  | (p,.round) =>
    match w.left p with
    | none => none
    | some src =>
      if src = [] then some { w with left := update w.left p none } else writeRound f ip w p src

/-- A round does not write beyond the maximal size of a file. -/
def Within (f : ℕ) (w : World) : ℕ × Move → Prop
  | (p,.round) => ∀ src, w.left p = some src →
    (w.cfg.st.view.file f).off + min src.length filewriteMax ≤ MAXFILE * BSIZE
  | _ => True

section Rounds
variable {w w' : World} {m : ℕ × Move} {ip : ℕ} {src : List UInt8}

theorem step_cases (h : step f ip w m = some w') :
    (∃ p len r c, m = (p,.read len) ∧ run p (fileread p f len) w.cfg = .ok (r,c) ∧
      w' = { w with cfg := c, hist := w.hist ++ [⟨p,false,r.2⟩] }) ∨
    (∃ p src, m = (p,.write src) ∧ w.left p = none ∧ (w' = w ∨ w' = { w with
        left := update w.left p (some src)
        asked := update w.asked p (w.asked p ++ src) })) ∨
    (∃ p, m = (p,.round) ∧ w.left p = some [] ∧ w' = { w with left := update w.left p none }) ∨
    (∃ p src, m = (p,.round) ∧ w.left p = some src ∧ writeRound f ip w p src = some w') := by
  obtain ⟨p,a⟩ := m
  cases a with
  | read len =>
    simp only [step] at h
    split at h
    · rename_i r c _ hr
      exact .inl ⟨p,len,r,c,rfl,hr,(Option.some.inj h).symm⟩
    · cases h
  | write src =>
    simp only [step] at h
    split at h
    · cases h
    · rename_i hl
      refine .inr (.inl ⟨p,src,rfl,hl,?_⟩)
      split at h
      · exact .inl (Option.some.inj h).symm
      · split at h
        · cases h
        · exact .inr (Option.some.inj h).symm
  | round =>
    simp only [step] at h
    split at h
    · cases h
    · rename_i src hl
      split at h
      · rename_i hnil
        exact .inr (.inr (.inl ⟨p,rfl,by rw [hl,hnil],(Option.some.inj h).symm⟩))
      · exact .inr (.inr (.inr ⟨p,src,rfl,hl,h⟩))

end Rounds

/-- There are free blocks for the round of `filewrite` that writes the start of `src` at
offset `off`. -/
def RoundFits (i : ℕ) (d : Disk) (off : ℕ) (src : List UInt8) : Prop :=
  needs (inodeAt d i) d (off / BSIZE) (endBlock off (min src.length filewriteMax)) ≤ freeCount d

/-- What holds after the sections of `w.hist`, where the file was `n₀`, and is `n` now. -/
structure Tallied (f k i : ℕ) (ff : File) (n₀ : Node) (fs : ℕ → Option Node) (w : World) (n : Node) :
    Prop where
  shared : Shared f k i { ff with off := cursor ff.off w.hist } n w.cfg.st.view w.cfg.owner
  recorded : Recorded n₀.data n.data ff.off w.hist
  size : n.size = max n₀.size (cursor ff.off w.hist)
  chunk : ∀ t ∈ w.hist, t.wrote = true → t.cells.length ≤ filewriteMax
  order : ∀ p, sent p w.hist ++ (w.left p).getD [] = w.asked p
  others : ∀ j, j ≠ i → files w.cfg.st.content j = fs j

namespace Tallied
variable {n₀ : Node} {fs : ℕ → Option Node} {w w' : World} {src : List UInt8}

theorem init {c : KCfg} (h : Shared f k i ff n c.st.view c.owner) :
    Tallied f k i ff n (files c.st.content) (World.init c) n where
  shared := h
  recorded := .nil
  size := (max_eq_left h.off).symm
  chunk := nofun
  order := fun _ => rfl
  others := fun _ _ => rfl

variable (h : Tallied f k i ff n₀ fs w n)
include h

theorem afterRead {bs : List UInt8} {c : KCfg}
    (hs : Shared f k i { ff with off := cursor ff.off w.hist + bs.length } n c.st.view c.owner)
    (hbs : ∀ x, (hx : x < bs.length) → n.data (cursor ff.off w.hist + x) = bs[x])
    (hfiles : files c.st.content = files w.cfg.st.content) :
    Tallied f k i ff n₀ fs { w with cfg := c, hist := w.hist ++ [⟨p,false,bs⟩] } n := by
  have hcur : cursor ff.off (w.hist ++ [⟨p,false,bs⟩]) = cursor ff.off w.hist + bs.length :=
    cursor_append
  refine ⟨by rw [hcur]; exact hs,h.recorded.append (fun _ _ => rfl) hbs fun _ _ => rfl,?_,?_,
    fun q => ?_,fun j hj => ?_⟩
  · have := h.size
    have hoff : cursor ff.off w.hist + bs.length ≤ n.size := hs.off
    rw [hcur]
    omega
  · intro t ht hw
    rcases mem_append.mp ht with ht | ht
    · exact h.chunk t ht hw
    · rw [mem_singleton.mp ht] at hw
      cases hw
  · rw [sent_append,if_neg (by simp),append_nil]
    exact h.order q
  · rw [← h.others j hj]
    exact congrFun hfiles j

theorem afterWrite {c : KCfg} {a b : List UInt8}
    (hl : w.left p = some (a ++ b)) (ha : a.length ≤ filewriteMax)
    (hs : Shared f k i { ff with off := cursor ff.off w.hist + a.length }
      (n.write (cursor ff.off w.hist) a) c.st.view c.owner)
    (hfiles : ∀ j, j ≠ i → files c.st.content j = files w.cfg.st.content j) : Tallied f k i ff n₀ fs
      ⟨c,update w.left p (some b),w.asked,w.hist ++ [⟨p,true,a⟩]⟩
      (n.write (cursor ff.off w.hist) a) := by
  have hcur : cursor ff.off (w.hist ++ [⟨p,true,a⟩]) = cursor ff.off w.hist + a.length :=
    cursor_append
  refine ⟨by rw [hcur]; exact hs,h.recorded.append (fun y hy => ?_) (fun x hx => ?_)
    (fun y hy => ?_),?_,?_,fun q => ?_,fun j hj => ?_⟩
  · exact if_neg (by omega)
  · simp only [Node.write]
    have hlt : x < a.length := hx
    rw [if_pos (by omega),Nat.add_sub_cancel_left,getD_eq_getElem _ _ hlt]
  · exact if_neg (hy rfl)
  · have := h.size
    dsimp only [Node.write]
    rw [hcur]
    omega
  · intro t ht hw
    rcases mem_append.mp ht with ht | ht
    · exact h.chunk t ht hw
    · rw [mem_singleton.mp ht]
      exact ha
  · dsimp only
    rw [sent_append,← h.order q,append_assoc]
    congr 1
    by_cases hq : p = q
    · subst hq
      rw [if_pos ⟨rfl,rfl⟩,update_self,hl]
      rfl
    · rw [if_neg (fun hc => hq hc.2),update_of_ne (Ne.symm hq),nil_append]
  · rw [← h.others j hj]
    exact hfiles j hj

theorem asking {left : ℕ → Option (List UInt8)}
    {asked : ℕ → List UInt8} (ho : ∀ q, sent q w.hist ++ (left q).getD [] = asked q) :
    Tallied f k i ff n₀ fs { w with left := left, asked := asked } n :=
  ⟨h.shared,h.recorded,h.size,h.chunk,ho,h.others⟩

theorem file_eq : w.cfg.st.view.file f = { ff with off := cursor ff.off w.hist } := h.shared.file

/-- A round of the loop of `filewrite` that stays within the maximal size. -/
theorem round (hl : w.left p = some src) (hm : Within f w (p,.round))
    (hfree : E (.fail .ballocOutOfBlocks) ∨ RoundFits i w.cfg.st.content (cursor ff.off w.hist) src) :
    Safe p E (transaction (writeChunk f k (src.take (min src.length filewriteMax))))
      (fun r v' o' => r = (min src.length filewriteMax : ℕ) ∧
        Shared f k i { ff with off := cursor ff.off w.hist + min src.length filewriteMax }
          (n.write (cursor ff.off w.hist) (src.take (min src.length filewriteMax))) v' o' ∧
        ∀ j, j ≠ i → files v'.disk j = files w.cfg.st.content j) w.cfg.st.view w.cfg.owner := by
  have hlen : (src.take (min src.length filewriteMax)).length = min src.length filewriteMax := by
    rw [length_take]
    omega
  have hmax := hm src hl
  rw [h.file_eq] at hmax
  have hsafe : Safe p E (transaction (writeChunk f k (src.take (min src.length filewriteMax)))) _
    w.cfg.st.view w.cfg.owner :=
    h.shared.write (by omega) (by rw [hlen]; exact hmax) (by rw [hlen]; exact hfree)
  rw [hlen] at hsafe
  exact hsafe

theorem round_total (hl : w.left p = some src) (hne : src ≠ []) (hm : Within f w (p,.round))
    (hfree : RoundFits i w.cfg.st.content (cursor ff.off w.hist) src) :
    ∃ c, SharedFile.step f k w (p,.round) = some { w with
        cfg := c
        left := update w.left p (some (src.drop (min src.length filewriteMax)))
        hist := w.hist ++ [⟨p,true,src.take (min src.length filewriteMax)⟩] } := by
  obtain ⟨r,c,hr,rfl,-⟩ := Safe.returns (h.round hl hm (.inr hfree))
  refine ⟨c,?_⟩
  simp only [SharedFile.step,hl,if_neg hne,writeRound,hr]
  rw [if_neg (by omega),if_neg (by simp)]

theorem read_total (hl : w.left p = none) (len : ℕ) :
    ∃ c bs, SharedFile.step f k w (p,.read len) = some
      { w with cfg := c, hist := w.hist ++ [⟨p,false,bs⟩] } := by
  obtain ⟨r,c,hr,-⟩ := Safe.returns (h.shared.read (p := p) len)
  refine ⟨c,r.2,?_⟩
  simp only [SharedFile.step,hl,hr]

theorem step {m : ℕ × Move} (hm : Within f w m)
    (hstep : step f k w m = some w') : ∃ n', Tallied f k i ff n₀ fs w' n' := by
  obtain ⟨p,len,r,c,rfl,hr,rfl⟩ | ⟨p,src,rfl,hl,rfl | rfl⟩ | ⟨p,rfl,hl,rfl⟩ |
    ⟨p,src,rfl,hl,hround⟩ := step_cases hstep
  · obtain ⟨hs,hbs,hfiles⟩ :=
      (h.shared.read (p := p) (E := fun _ => True) len _ rfl rfl).of_run_ok hr
    exact ⟨n,h.afterRead hs hbs hfiles⟩
  · exact ⟨n,h⟩
  · refine ⟨n,h.asking fun q => ?_⟩
    by_cases hpq : q = p
    · subst hpq
      rw [update_self,update_self,← h.order,hl]
      simp
    · rw [update_of_ne hpq,update_of_ne hpq]
      exact h.order q
  · refine ⟨n,h.asking fun q => ?_⟩
    rw [← h.order q]
    by_cases hpq : q = p
    · subst hpq
      rw [update_self,hl]
      rfl
    · rw [update_of_ne hpq]
  · unfold writeRound at hround
    dsimp only at hround
    split at hround
    · cases hround
    rename_i r c hr
    obtain ⟨rfl,hs,hfiles⟩ := (h.round (E := fun _ => True) hl hm (.inl trivial) _ rfl rfl).of_run_ok hr
    rw [if_neg (by omega),if_neg (by simp)] at hround
    cases hround
    refine ⟨_,h.afterWrite (by rw [take_append_drop]; exact hl) ?_ ?_ hfiles⟩
    · rw [length_take]
      omega
    · rw [length_take,Nat.min_eq_left (by omega)]
      exact hs

end Tallied

/-- Processes share an open file, and their sections interleave in any way.  Every section
has a range of the file of its own, one behind the other, a round of `filewrite` at most
1536 bytes.  The file holds there what the section has moved, everything else is as it was,
the offset is behind the last range, and the rounds of a process write its bytes in order. -/
theorem shared_file_tally {c : KCfg} {n₀ : Node} {w : World}
    (h₀ : Shared f k i ff n₀ c.st.view c.owner)
    (h : Machine.Reach (step f k) (Within f) (World.init c) w) :
    ∃ n, files w.cfg.st.content i = some n ∧
      (w.cfg.st.view.file f).off = ff.off + (w.hist.map fun t => t.cells.length).sum ∧
      (∀ j t, w.hist[j]? = some t → ∀ x, (hx : x < t.cells.length) →
        n.data (start ff.off w.hist j + x) = t.cells[x]) ∧
      (∀ y, (∀ j t, w.hist[j]? = some t → t.wrote = true →
        ¬ (start ff.off w.hist j ≤ y ∧ y < start ff.off w.hist j + t.cells.length)) →
        n.data y = n₀.data y) ∧ (∀ a b t, w.hist[a]? = some t → a < b → b ≤ w.hist.length →
        start ff.off w.hist a + t.cells.length ≤ start ff.off w.hist b) ∧
      (∀ t ∈ w.hist, t.wrote = true → t.cells.length ≤ 1536) ∧
      (∀ p, sent p w.hist ++ (w.left p).getD [] = w.asked p) ∧
      n.size = max n₀.size (w.cfg.st.view.file f).off ∧
      (∀ j, j ≠ i → files w.cfg.st.content j = files c.st.content j) ∧
      (∀ p len, w.left p = none → ∃ c' bs, step f k w (p,.read len) = some
        { w with cfg := c', hist := w.hist ++ [⟨p,false,bs⟩] }) ∧
      (∀ p src, w.left p = some src → src ≠ [] → Within f w (p,.round) →
        RoundFits i w.cfg.st.content (w.cfg.st.view.file f).off src →
        ∃ c', step f k w (p,.round) = some { w with
            cfg := c'
            left := update w.left p (some (src.drop (min src.length filewriteMax)))
            hist := w.hist ++ [⟨p,true,src.take (min src.length filewriteMax)⟩] }) := by
  obtain ⟨n,hw⟩ := h.invariant (I := fun w => ∃ n, Tallied f k i ff n₀ (files c.st.content) w n)
    ⟨n₀,.init h₀⟩ fun _ _ _ ⟨_,hs⟩ hm hstep => hs.step hm hstep
  rw [hw.file_eq]
  exact ⟨n,hw.shared.node,cursor_eq,hw.recorded.holds,hw.recorded.other,
    fun a b t ha hab hb => start_add_le ha hab hb,hw.chunk,hw.order,hw.size,hw.others,
    fun p len hl => hw.read_total hl len,fun p src hl hne hm hf => hw.round_total hl hne hm hf⟩

/-- File 0 is open on an empty file, for all processes. -/
def oneFileOpen : KCfg where
  st :=
    { (oneFileLocked []).st with
      log := emptyLog
      file := .ofFun fun _ => ⟨.inode,1,true,true,0,0⟩ }
  held := []

theorem shared_oneFileOpen :
    Shared 0 0 1 ⟨.inode,1,true,true,0,0⟩ (Mkfs.newNode T_FILE) oneFileOpen.st.view
      oneFileOpen.owner where
  sb := rfl
  block := (ok_one (t := T_FILE) (by decide)).1.superblock
  log := rfl
  sound := (ok_one (by decide)).1.sound
  file := rfl
  type := rfl
  ip := rfl
  inum := rfl
  ref := Int.one_pos
  copy := fun _ => rfl
  node := (ok_one (by decide)).2
  regular := rfl
  off := le_rfl
  free := rfl

/-- Process 3 has called `filewrite`. -/
def oneFileCalled : World where
  cfg := oneFileOpen
  left := update (fun _ => none) 3 (some [7])
  asked := update (fun _ => []) 3 [7]
  hist := []

/-- Process 3 writes a byte. -/
theorem shared_file_tally_one : ∃ w n, Machine.Reach (step 0 0) (Within 0) (World.init oneFileOpen) w ∧
    w.hist = [⟨3,true,[7]⟩] ∧ files w.cfg.st.content 1 = some n ∧ n.size = 1 ∧ n.data 0 = 7 ∧
    (w.cfg.st.view.file 0).off = 1 := by
  have hreach : Machine.Reach (step 0 0) (Within 0) (World.init oneFileOpen) oneFileCalled :=
    .step (m := (3,.write [7])) .init trivial rfl
  have hwithin : Within 0 oneFileCalled (3,.round) := fun src hsrc => by
    obtain rfl : [7] = src := Option.some.inj hsrc
    decide
  obtain ⟨-,-,-,-,-,-,-,-,-,-,-,hround⟩ := shared_file_tally shared_oneFileOpen hreach
  obtain ⟨c',hstep⟩ := hround 3 [7] rfl (by decide) hwithin ((needs_one _ _).trans freeCount_one)
  have hreach' := hreach.step hwithin hstep
  obtain ⟨n,hn,hoff,hholds,-,-,-,-,hsize,-⟩ := shared_file_tally shared_oneFileOpen hreach'
  have hoff' : (c'.st.view.file 0).off = 1 := hoff
  exact ⟨_,n,hreach',rfl,hn,by rw [hsize,hoff']; rfl,hholds 0 _ rfl 0 (by decide),hoff'⟩

end SharedFile
end Xv6
