import Xv6.Fs.Contents
import Xv6.Fs.Inode
import Xv6.Log.Writes

/-! # What the block layer of `fs.c` does

Each function with the exact change it makes to the contents of the blocks, the
blocks that it logs, and the room that it needs in the log and on the disk. -/
namespace Xv6
open Conc Mkfs Log Function List

/-- The log of an `mkfs` image, with a list of blocks that `commit` can handle. -/
structure LogOk (l : Log) : Prop where
  start : l.start = logstart
  size : l.size = nlog
  area : LogArea logstart nlog 0 l.block

/-- The super block in memory and on disk is that of `mkfs`. -/
structure Ready (v : View) : Prop where
  sb : v.sb = Mkfs.sb
  block : Superblock.ofBlock (v.disk 1) = Mkfs.sb
  log : LogOk v.log

section Logs
variable {A B : Finset ℕ} {l l' l'' : Log} {b : ℕ}

/-- `l'` comes from `l` by `log_write` of blocks of `A`. -/
def Logs (A : Finset ℕ) (l l' : Log) : Prop :=
  ∃ bs : List ℕ, (∀ b ∈ bs, b ∈ A) ∧ l' = { l with block := bs.foldl absorb l.block }

/-- The blocks that are logged and those of `A` that would have to be added. -/
def Log.load (l : Log) (A : Finset ℕ) : ℕ := l.n + (A.filter (· ∉ l.block)).card

theorem Logs.refl : Logs A l l := ⟨[],nofun,rfl⟩

theorem Logs.logWrite (hb : b ∈ A) : Logs A l (l.logWriteUpdate b) := ⟨[b],by simpa,rfl⟩

theorem Logs.trans (h : Logs A l l') (h' : Logs A l' l'') : Logs A l l'' := by
  obtain ⟨bs,hbs,rfl⟩ := h
  obtain ⟨cs,hcs,rfl⟩ := h'
  refine ⟨bs ++ cs,fun b hb => ?_,by simp⟩
  exact (mem_append.mp hb).elim (hbs b) (hcs b)

theorem Logs.mono (h : Logs A l l') (hAB : A ⊆ B) : Logs B l l' := by
  obtain ⟨bs,hbs,rfl⟩ := h
  exact ⟨bs,fun b hb => hAB (hbs b hb),rfl⟩

theorem Logs.outstanding (h : Logs A l l') : l'.outstanding = l.outstanding := by
  obtain ⟨bs,-,rfl⟩ := h
  rfl

theorem Logs.committing (h : Logs A l l') : l'.committing = l.committing := by
  obtain ⟨bs,-,rfl⟩ := h
  rfl

theorem Log.load_absorb (hb : b ∈ A) : (l.logWriteUpdate b).load A = l.load A := by
  unfold load n logWriteUpdate
  by_cases hm : b ∈ l.block
  · rw [absorb_of_mem hm]
  · have he : A.filter (· ∉ absorb l.block b) = (A.filter (· ∉ l.block)).erase b := by
      ext c
      by_cases hc : c = b <;> simp [hc]
    rw [absorb_of_notMem hm] at he ⊢
    rw [he,Finset.card_erase_of_mem (by simp [hb,hm])]
    have : 0 < (A.filter (· ∉ l.block)).card := Finset.card_pos.mpr ⟨b,by simp [hb,hm]⟩
    simp only [length_append,length_singleton]
    omega

/-- Logging blocks of `A` does not change what there is to be logged in all. -/
theorem Logs.load (h : Logs A l l') (hAB : A ⊆ B) : l'.load B = l.load B := by
  obtain ⟨bs,hbs,rfl⟩ := h
  induction bs generalizing l with
  | nil => rfl
  | cons c bs ih =>
    have := ih (l := l.logWriteUpdate c) fun b hb => hbs b (mem_cons_of_mem _ hb)
    rw [load_absorb (hAB (hbs c mem_cons_self))] at this
    exact this

theorem Log.load_insert (A : Finset ℕ) : l.load (insert b A) ≤ l.load A + 1 := by
  unfold load
  rw [Finset.filter_insert]
  split
  · have := Finset.card_insert_le b (A.filter (· ∉ l.block))
    omega
  · omega

theorem Log.load_mono (hAB : A ⊆ B) : l.load A ≤ l.load B :=
  Nat.add_le_add_left (Finset.card_le_card (Finset.filter_subset_filter _ hAB)) _

end Logs

def freeCount (d : Disk) : ℕ := ((Finset.range FSSIZE).filter fun b => bitAt d b = false).card

/-- There is room in the log for the blocks of `A` and for `n` blocks that are free now,
and there are `n` such blocks; or `E` allows for a lack of room. -/
structure Room (E : Stop Lock Panic → Prop) (A : Finset ℕ) (n : ℕ) (v : View) : Prop where
  log : (∀ e, E (.fail (.log e))) ∨ 1 ≤ v.log.outstanding ∧ v.log.load A + n + 1 < LOGSIZE
  blocks : E (.fail .ballocOutOfBlocks) ∨ n ≤ freeCount v.disk

/-- Everything but the disk and the inode cache is the same, but for blocks of `A` that
are logged. -/
structure Frame (A : Finset ℕ) (v v' : View) : Prop where
  sb : v'.sb = v.sb
  logs : Logs A v.log v'.log
  log : LogOk v'.log
  file : v'.file = v.file
  proc : v'.proc = v.proc
  input : v'.input = v.input

namespace Frame
variable {A B : Finset ℕ} {v v' v'' : View}

theorem refl (h : LogOk v.log) : Frame A v v := ⟨rfl,.refl,h,rfl,rfl,rfl⟩

theorem trans (h : Frame A v v') (h' : Frame A v' v'') : Frame A v v'' where
  sb := h'.sb.trans h.sb
  logs := h.logs.trans h'.logs
  log := h'.log
  file := h'.file.trans h.file
  proc := h'.proc.trans h.proc
  input := h'.input.trans h.input

theorem mono (h : Frame A v v') (hAB : A ⊆ B) : Frame B v v' :=
  ⟨h.sb,h.logs.mono hAB,h.log,h.file,h.proc,h.input⟩

theorem disk (h : LogOk v.log) (d : Disk) : Frame A v { v with disk := d } :=
  ⟨rfl,.refl,h,rfl,rfl,rfl⟩

theorem inode (h : LogOk v.log) (t : ℕ → Inode) : Frame A v { v with inode := t } :=
  ⟨rfl,.refl,h,rfl,rfl,rfl⟩

theorem ready (h : Frame A v v') (hr : Ready v) (hd : v'.disk 1 = v.disk 1) : Ready v' where
  sb := h.sb.trans hr.sb
  block := by rw [hd,hr.block]
  log := h.log

end Frame

namespace Room
variable {E : Stops} {A B : Finset ℕ} {n m : ℕ} {v v' : View}

theorem of_stops (hl : ∀ e, E (.fail (.log e))) (hb : E (.fail .ballocOutOfBlocks)) :
    Room E A n v := ⟨.inl hl,.inl hb⟩

theorem mono (h : Room E B n v) (hAB : A ⊆ B) (hm : m ≤ n) : Room E A m v := by
  refine ⟨h.log.imp_right fun hl => ⟨hl.1,?_⟩,h.blocks.imp_right fun hb => hm.trans hb⟩
  have := v.log.load_mono hAB
  omega

theorem frame (h : Room E A n v) (hf : Frame A v v') (hd : freeCount v.disk ≤ freeCount v'.disk) :
    Room E A n v' := by
  refine ⟨h.log.imp_right fun hl => ?_,h.blocks.imp_right fun hb => hb.trans hd⟩
  rw [hf.logs.outstanding,hf.logs.load subset_rfl]
  exact hl

theorem cut (h : Room E A 0 v) (hf : Frame A v v') : Room E A 0 v' := by
  refine ⟨h.log.imp_right fun hl => ?_,.inr (Nat.zero_le _)⟩
  rw [hf.logs.outstanding,hf.logs.load subset_rfl]
  exact hl

theorem take {b : ℕ} (h : Room E A (n + 1) v) (hl : v'.log = v.log)
    (hd : freeCount v'.disk + 1 = freeCount v.disk) : Room E (insert b A) n v' := by
  refine ⟨h.log.imp_right fun hr => ?_,h.blocks.imp_right fun hb => by omega⟩
  have := v.log.load_insert (b := b) A
  rw [hl]
  exact ⟨hr.1,by omega⟩

/-- `log_write` does not panic for lack of room. -/
theorem test (h : Room E A n v) (hl : LogOk v.log) :
    (∀ e, E (.fail (.log e))) ∨ v.log.logWriteTest = .ok () := by
  refine h.log.imp_right fun ⟨ho,hn⟩ => ?_
  have hs : v.log.size = 30 := hl.size
  have hL : LOGSIZE = 30 := rfl
  have hle : v.log.n ≤ v.log.load A := Nat.le_add_right _ _
  unfold logWriteTest
  rw [if_neg (by omega),if_neg (by omega)]

end Room

def Home (b : ℕ) : Prop := (b < 2 ∨ 32 ≤ b) ∧ b < FSSIZE

theorem LogOk.logWrite {l : Log} {b : ℕ} (h : LogOk l) (hb : Home b)
    (ht : l.logWriteTest = .ok ()) : LogOk (l.logWriteUpdate b) := by
  obtain ⟨-,hn,-⟩ := logWriteTest_ok ht
  have hl := h.area
  have hsz : nlog = 30 := rfl
  have hst : logstart = 2 := rfl
  have hlen : (absorb l.block b).length < 30 := by
    by_cases hm : b ∈ l.block
    · rw [absorb_of_mem hm]
      exact hsz ▸ (Nat.zero_add l.block.length ▸ hl.len)
    · rw [absorb_of_notMem hm,length_append,length_singleton]
      have := h.size
      simp only [n] at hn
      omega
  refine ⟨h.start,h.size,hl.area,?_,?_,?_⟩
  · change 0 + (absorb l.block b).length < nlog
    omega
  · intro c hc
    rcases mem_absorb.mp hc with hc | rfl
    · exact hl.home c hc
    · have := hb.1
      omega
  · intro c hc
    rcases mem_absorb.mp hc with hc | rfl
    · exact hl.onDisk c hc
    · exact hb.2

section Free
variable {ino : ℕ → Dinode} {d : Disk} {b : ℕ}

theorem freeCount_allocated (hb : bitAt d b = false) (hlt : b < FSSIZE) (h58 : b ≠ 58) :
    freeCount (allocated d b) + 1 = freeCount d := by
  have he : (Finset.range FSSIZE).filter (fun c => bitAt (allocated d b) c = false)
      = ((Finset.range FSSIZE).filter fun c => bitAt d c = false).erase b := by
    ext c
    simp only [Finset.mem_filter,Finset.mem_range,Finset.mem_erase]
    by_cases hc : c < FSSIZE
    · rw [bitAt_allocated h58 hc]
      by_cases hcb : c = b <;> simp [hcb,hc]
    · simp [hc]
  unfold freeCount
  rw [he,Finset.card_erase_of_mem (by simp [hb,hlt])]
  have : 0 < ((Finset.range FSSIZE).filter fun c => bitAt d c = false).card :=
    Finset.card_pos.mpr ⟨b,by simp [hb,hlt]⟩
  omega

theorem freeCount_congr {d' : Disk} (h : d' 58 = d 58) : freeCount d' = freeCount d := by
  unfold freeCount bitAt
  rw [bmapstart_eq,h]

theorem freeCount_pos {x : Block} (h : 0 < freeCount d) (hx : x = d sb.bmapstart) :
    ∃ b, b < FSSIZE ∧ x.bit b = false := by
  obtain ⟨b,hb⟩ := Finset.card_pos.mp h
  rw [Finset.mem_filter,Finset.mem_range] at hb
  exact ⟨b,hb.1,by rw [hx]; exact hb.2⟩

end Free

namespace Fs
section Block
variable {p : ℕ} {E : Stops} {A : Finset ℕ} {n : ℕ} {v : View}
  {o : Owners} {b : ℕ}

theorem Safe.logWrite {Q : Post Unit} (hroom : Room E A n v)
    (hl : LogOk v.log) (hb : Home b) (hA : b ∈ A)
    (h : ∀ v', Frame A v v' → v'.disk = v.disk → v'.inode = v.inode → Q () v' o) :
    Safe p E (Fs.logWrite b) Q v o := by
  refine view_seq ?_
  cases ht : v.log.logWriteTest with
  | error e =>
    refine panic ((hroom.test hl).elim (fun he => he e) fun hok => ?_)
    rw [hok] at ht
    cases ht
  | ok u =>
    refine logSection (h _ ⟨rfl,.logWrite hA,?_,rfl,rfl,rfl⟩ rfl rfl)
    exact hl.logWrite hb ht

theorem Safe.readsb {Q : Post Superblock} (hr : Ready v)
    (ho : o (.buf 1) = none) (h : Q Mkfs.sb v o) : Safe p E Fs.readsb Q v o := by
  refine bind (bread (by simp only [FSSIZE]; omega) ho ?_)
  refine data_seq ?_
  refine bind (brelse (update_self ..) ?_)
  refine pure ?_
  rw [hr.block,Cfg.update_owner_none p ho]
  exact h

theorem Safe.bzero {Q : Post Unit} (hroom : Room E A n v)
    (hl : LogOk v.log) (hb : Home b) (hA : b ∈ A) (hf : freeCount v.disk
      ≤ freeCount (update v.disk b Bytes.zero)) (ho : o (.buf b) = none)
    (h : ∀ v', Frame A v v' → v'.disk = update v.disk b Bytes.zero →
      v'.inode = v.inode → Q () v' o) : Safe p E (Fs.bzero b) Q v o := by
  refine bind (bread hb.2 ho ?_)
  refine bind (setData ?_)
  refine bind (logWrite (hroom.frame (Frame.disk hl _) hf) hl hb hA fun v' hf' hd hi => ?_)
  refine release ho ?_
  exact h v' ((Frame.disk hl _).trans hf') hd hi

theorem freeBit_some {x : Block} {n bi : ℕ} (h : freeBit x n = some bi) :
    bi < n ∧ x.bit bi = false := by
  refine ⟨mem_range.mp (mem_of_find?_eq_some h),?_⟩
  simpa using List.find?_some h

theorem freeBit_none {x : Block} {n bi : ℕ} (h : freeBit x n = none) (hbi : bi < n) :
    x.bit bi = true := by
  have := List.find?_eq_none.mp h bi (mem_range.mpr hbi)
  simpa using this

/-- `balloc` returns a free block, marked and zeroed. -/
theorem Safe.balloc {Q : Post ℕ} {ino : ℕ → Dinode}
    (hroom : Room E A (n + 1) v) (h58 : 58 ∈ A) (hr : Ready v) (hs : Owned ino v.disk)
    (hom : o (.buf Mkfs.sb.bmapstart) = none)
    (hof : ∀ b, b < FSSIZE → bitAt v.disk b = false → o (.buf b) = none)
    (h : ∀ b v', b < FSSIZE → bitAt v.disk b = false → Frame (insert b A) v v' →
      Room E (insert b A) n v' → v'.disk = allocated v.disk b → v'.inode = v.inode → Q b v' o) :
    Safe p E Fs.balloc Q v o := by
  have hsz : Mkfs.sb.size = 1000 := rfl
  have hF : FSSIZE = 1000 := rfl
  have hmin : min BPB (sb.size - 0) = FSSIZE := rfl
  refine view_seq ?_
  rw [hr.sb,show sb.size / BPB + 1 = 0 + 1 from rfl,ballocFrom]
  refine view_seq ?_
  rw [hr.sb,if_pos (by rw [hsz]; omega),show BBLOCK 0 sb = sb.bmapstart from rfl]
  refine bind (bread (by rw [bmapstart_eq]; omega) hom ?_)
  refine data_seq ?_
  rw [hmin]
  cases hfb : freeBit (v.disk sb.bmapstart) FSSIZE with
  | none =>
    refine bind (brelse (update_self ..) ?_)
    refine panic (hroom.blocks.elim id fun hpos => ?_)
    obtain ⟨b,hlt,hbit⟩ := freeCount_pos (Nat.lt_of_lt_of_le (Nat.succ_pos n) hpos) rfl
    rw [freeBit_none hfb hlt] at hbit
    cases hbit
  | some bi =>
    obtain ⟨hlt,hbit⟩ := freeBit_some hfb
    have hge := hs.free_ge hbit hlt
    -- the bit is set before the block is zeroed
    have hfree : freeCount (update v.disk sb.bmapstart
        ((v.disk sb.bmapstart).setBit bi)) + 1 = freeCount v.disk := by
      have h58' : allocated v.disk bi 58 = update v.disk sb.bmapstart
          ((v.disk sb.bmapstart).setBit bi) 58 := update_of_ne (by omega) ..
      rw [← freeCount_allocated hbit hlt (by omega),freeCount_congr h58']
    refine data_seq (bind (setData ?_))
    have hroom1 : Room E (insert bi A) n (View.mk (update v.disk sb.bmapstart
        ((v.disk sb.bmapstart).setBit bi)) v.sb v.log v.inode v.file v.proc v.input) :=
      hroom.take rfl hfree
    refine bind (logWrite hroom1 hr.log ⟨.inr (by rw [bmapstart_eq]; omega),
      by rw [bmapstart_eq]; omega⟩ (Finset.mem_insert_of_mem h58) fun v1 hf1 hd1 hi1 => ?_)
    refine bind (release hom ?_)
    rw [Nat.zero_add]
    have hroom2 := hroom1.frame hf1 (by rw [hd1])
    have hd2 : freeCount v1.disk ≤ freeCount (update v1.disk bi Bytes.zero) := by
      refine le_of_eq (freeCount_congr ?_).symm
      rw [update_of_ne (by omega)]
    refine bind (bzero hroom2 hf1.log ⟨.inr (by omega),by omega⟩
      (Finset.mem_insert_self bi A) hd2 (hof _ hlt hbit) fun v2 hf2 hd3 hi2 => ?_)
    have hdisk : v2.disk = allocated v.disk bi := by
      rw [hd3,hd1]
      rfl
    refine pure (h bi v2 hlt hbit (((Frame.disk hr.log _).trans hf1).trans hf2) ?_ hdisk
      (hi2.trans hi1))
    exact hroom2.frame hf2 (by rw [hd3]; exact hd2)

/-- `bfree` clears the bit of a block in use. -/
theorem Safe.bfree {Q : Post Unit} (hroom : Room E A 0 v)
    (h58 : 58 ∈ A) (hr : Ready v) (hb : b < FSSIZE) (hbit : bitAt v.disk b = true)
    (ho1 : o (.buf 1) = none) (hom : o (.buf Mkfs.sb.bmapstart) = none)
    (h : ∀ v', Frame A v v' → v'.disk = freed v.disk b → v'.inode = v.inode → Q () v' o) :
    Safe p E (Fs.bfree b) Q v o := by
  have hb' : b / BPB = 0 ∧ b % BPB = b := by
    have := lt_BPB hb
    exact ⟨Nat.div_eq_of_lt this,Nat.mod_eq_of_lt this⟩
  have hm : Home sb.bmapstart :=
    ⟨.inr (by rw [bmapstart_eq]; omega),by rw [bmapstart_eq]; simp only [FSSIZE]; omega⟩
  unfold Fs.bfree
  refine bind (readsb hr ho1 ?_)
  refine bind (setSb ?_)
  refine view_seq ?_
  dsimp only
  rw [show BBLOCK b sb = sb.bmapstart by rw [BBLOCK,hb'.1,Nat.zero_add],hb'.2]
  refine bind (bread hm.2 hom ?_)
  refine data_seq ?_
  refine bind (panicIf (fun hc => ?_) fun _ => ?_)
  · rw [bitAt] at hbit
    rw [hbit] at hc
    cases hc
  refine data_seq (bind (setData ?_))
  refine bind (logWrite ⟨hroom.log,hroom.blocks.imp_right fun _ => Nat.zero_le _⟩
    hr.log hm h58 fun v1 hf1 hd1 hi1 => ?_)
  refine release hom ?_
  refine h v1 ⟨?_,hf1.logs,hf1.log,hf1.file,hf1.proc,hf1.input⟩ hd1 hi1
  rw [hf1.sb,hr.sb]

/-- `iupdate` writes the inode in memory to its place on disk. -/
theorem Safe.iupdate {Q : Post Unit} {k : ℕ} (hroom : Room E A n v)
    (hA : IBLOCK (v.inode k).inum Mkfs.sb ∈ A) (hr : Ready v)
    (hi : (v.inode k).inum < Mkfs.NINODES) (ho : ∀ b, b < 58 → o (.buf b) = none)
    (h : ∀ v', Frame A v v' → v'.disk = writeInode v.disk (v.inode k).inum (v.inode k).d →
      v'.inode = v.inode → Q () v' o) : Safe p E (Fs.iupdate k) Q v o := by
  have hlt := IBLOCK_lt hi
  have hown := ho _ hlt
  have hm : Home (IBLOCK (v.inode k).inum sb) := by
    refine ⟨.inr ?_,by simp only [FSSIZE]; omega⟩
    rw [IBLOCK_eq]
    omega
  refine view_seq (inode_seq ?_)
  rw [hr.sb]
  refine bind (bread hm.2 hown ?_)
  refine data_seq (bind (setData ?_))
  refine bind (logWrite (hroom.frame (Frame.disk hr.log _) ?_) hr.log hm hA
    fun v1 hf1 hd1 hi1 => ?_)
  · refine le_of_eq (freeCount_congr ?_).symm
    exact update_of_ne (by omega) ..
  refine release hown ?_
  exact h v1 ((Frame.disk hr.log _).trans hf1) hd1 hi1

end Block
end Fs
end Xv6
