import Xv6.Mkfs.Spec

/-! # Files are byte strings

`writei` and `readi` on an inode that a process has locked, seen as operations on the
list of bytes of the file. -/
namespace Xv6
open Conc Mkfs Finset Function List

namespace Node
variable {n : Node} {off : ℕ} {src : List UInt8}

def bytes (n : Node) : List UInt8 := (List.range n.size).map n.data

@[simp] theorem length_bytes : n.bytes.length = n.size := by simp [bytes]

theorem getElem_bytes {x : ℕ} (h : x < n.bytes.length) : n.bytes[x] = n.data x := by
  simp [bytes]

theorem bytes_write (h : off ≤ n.size) :
    (n.write off src).bytes = n.bytes.take off ++ src ++ n.bytes.drop (off + src.length) := by
  refine ext_getElem ?_ fun x h1 h2 => ?_
  · simp only [length_bytes,write,length_append,length_take,length_drop]
    omega
  rw [getElem_bytes]
  have htake : (n.bytes.take off).length = off := by
    rw [length_take,length_bytes]
    omega
  have hlen : (n.bytes.take off ++ src).length = off + src.length := by
    rw [length_append,htake]
  simp only [write]
  by_cases hin : off ≤ x ∧ x < off + src.length
  · rw [if_pos hin,getElem_append_left (by omega),getElem_append_right (by omega),
      getD_eq_getElem _ _ (by omega)]
    simp only [htake]
  · rw [if_neg hin]
    by_cases hlt : x < off
    · rw [getElem_append_left (by omega),getElem_append_left (by omega),
        getElem_take,getElem_bytes]
    · rw [getElem_append_right (by omega),getElem_drop,getElem_bytes]
      congr 1
      omega

end Node

/-- Process `p` has inode `i` in slot `k` locked and read, and no buffer. -/
structure Locked (p i k : ℕ) (v : View) (o : Lock → Option ℕ) : Prop where
  inum : (v.inode k).inum = i
  ref : 0 < (v.inode k).ref
  valid : (v.inode k).valid = true
  copy : (v.inode k).d = inodeAt v.disk i
  lock : o (.inode k) = some p
  bufs : ∀ b, o (.buf b) = none

def WriteRefused (n : Node) (off len : ℕ) : Prop :=
  off > n.size ∨ off + len ≥ 2 ^ 32 ∨ off + len > MAXFILE * BSIZE

def ReadRefused (n : Node) (off len : ℕ) : Prop := off > n.size ∨ off + len ≥ 2 ^ 32

def touched (off len : ℕ) : ℕ := Fs.endBlock off len - off / BSIZE

/-- The log has room for the blocks that a write of `len` bytes at `off` logs: those that
it touches, the indirect block, the free map and the inode. -/
def LogHasRoom (l : Log) (off len : ℕ) : Prop :=
  1 ≤ l.outstanding ∧ l.n + touched off len + 4 < LOGSIZE

namespace Fs
section ByteString
variable {p i k : ℕ} {v : View} {o : Owners} {n : Node}

/-- A program that stops for no reason returns. -/
theorem Safe.returns {α : Type} {x : Fs α} {Q : Post α} {c : KCfg}
    (h : Safe p (fun _ => False) x Q c.st.view c.owner) :
    ∃ a c', run p x c = .ok (a,c') ∧ Q a c'.st.view c'.owner := by
  have := h c rfl rfl
  unfold Conc.Safe at this
  cases hr : run p x c with
  | error e => rw [hr] at this; exact this.elim
  | ok ac => rw [hr] at this; exact ⟨ac.1,ac.2,rfl,this⟩

theorem Safe.ilock_locked {E : Stops} {Q : Post Unit}
    (hr : Ready v) (hi : i < NINODES) (hn : (v.inode k).inum = i)
    (href : 0 < (v.inode k).ref) (ht : (inodeAt v.disk i).type ≠ 0)
    (hc : (v.inode k).valid = true → (v.inode k).d = inodeAt v.disk i)
    (ho : o (.inode k) = none) (hb : ∀ b, o (.buf b) = none)
    (h : ∀ x, Locked p i k { v with inode := update v.inode k x } (update o (.inode k) (some p)) →
      Q () { v with inode := update v.inode k x } (update o (.inode k) (some p))) :
    Safe p E (Fs.ilock k) Q v o := by
  have hb' : ∀ b, update o (.inode k) (some p) (.buf b) = none := fun b => by
    rw [update_of_ne (by simp)]
    exact hb b
  refine ilock hr (by rw [hn]; exact hi) href ho (fun b _ => hb b) (fun _ h0 => ?_)
    (fun hv => ?_) fun _ _ => h _ ?_
  · rw [hn] at h0
    exact absurd h0 ht
  · have := h (v.inode k)
    rw [Function.update_eq_self] at this
    exact this ⟨hn,href,hv,hc hv,update_self ..,hb'⟩
  · have hself : update v.inode k ((v.inode k).loaded (inodeAt v.disk (v.inode k).inum)) k
        = (v.inode k).loaded (inodeAt v.disk i) := by rw [update_self,hn]
    refine ⟨?_,?_,?_,?_,update_self ..,hb'⟩
    all_goals
      dsimp only
      rw [hself]
    · exact hn
    · exact href
    · rfl
    · rfl

def indirectSet (di : Dinode) : Finset ℕ :=
  if di.addr NDIRECT = 0 then ∅ else {(di.addr NDIRECT).toNat}

/-- The blocks that are there between block `lo` and block `hi` of the contents. -/
def presentSet (di : Dinode) (d : Disk) (lo hi : ℕ) : Finset ℕ :=
  ((Finset.Ico lo hi).filter fun m => ¬ di.blk d m = 0).image fun m => di.blk d m

def logSet (d : Disk) (i off len : ℕ) : Finset ℕ :=
  {58, IBLOCK i sb} ∪ (indirectSet (inodeAt d i) ∪
    presentSet (inodeAt d i) d (off / BSIZE) (endBlock off len))

theorem logSet_spec (d : Disk) (i off len : ℕ) : LogSet (logSet d i off len) d i off len := by
  refine ⟨by simp [logSet],by simp [logSet],fun ha => ?_,fun m h1 h2 hb => ?_⟩
  · simp [logSet,indirectSet,ha]
  · have hm : m < endBlock off len := by
      unfold endBlock
      have hB : BSIZE = 512 := rfl
      rw [hB] at h2 ⊢
      omega
    refine mem_union_right _ (mem_union_right _ ?_)
    exact mem_image_of_mem _ (by simp [h1,hm,hb])

/-- The blocks of the contents and the indirect block, those that are missing included. -/
theorem card_needs (di : Dinode) (d : Disk) (lo hi : ℕ) :
    (indirectSet di).card + (presentSet di d lo hi).card + needs di d lo hi ≤ hi - lo + 1 := by
  have h1 : (presentSet di d lo hi).card
      ≤ ((Finset.Ico lo hi).filter fun m => ¬ di.blk d m = 0).card := card_image_le
  have h2 := card_filter_add_card_filter_not (s := Finset.Ico lo hi)
    fun m => di.blk d m = 0
  rw [Nat.card_Ico] at h2
  unfold needs indirectSet
  by_cases ha : di.addr NDIRECT = 0
  · rw [if_pos ha,card_empty]
    split <;> omega
  · rw [if_neg ha,if_neg (fun hc => ha hc.1),card_singleton]
    omega

/-- All blocks that a write logs, those that are missing included. -/
theorem card_logSet (d : Disk) (i off len : ℕ) :
    (logSet d i off len).card + needs (inodeAt d i) d (off / BSIZE) (endBlock off len)
      ≤ touched off len + 3 := by
  have h1 := card_needs (inodeAt d i) d (off / BSIZE) (endBlock off len)
  have h2 := card_union_le {58, IBLOCK i sb} (indirectSet (inodeAt d i) ∪
    presentSet (inodeAt d i) d (off / BSIZE) (endBlock off len))
  have h3 := card_union_le (indirectSet (inodeAt d i))
    (presentSet (inodeAt d i) d (off / BSIZE) (endBlock off len))
  have h4 : ({58, IBLOCK i sb} : Finset ℕ).card ≤ 2 := card_le_two
  unfold logSet touched
  omega

theorem room_of_logHasRoom {off len : ℕ} (hl : LogHasRoom v.log off len)
    (hf : needs (inodeAt v.disk i) v.disk (off / BSIZE) (endBlock off len) ≤ freeCount v.disk) :
    Room (fun _ => False) (logSet v.disk i off len)
      (0 + needs (inodeAt v.disk i) v.disk (off / BSIZE) (endBlock off len)) v := by
  refine ⟨.inr ⟨hl.1,?_⟩,.inr (by omega)⟩
  have h1 := card_logSet v.disk i off len
  have h2 := card_filter_le (logSet v.disk i off len) (· ∉ v.log.block)
  have h3 := hl.2
  unfold Log.load
  omega

theorem writeBad_iff {off len : ℕ} (hoff : off < 2 ^ 32) (hn : files v.disk i = some n) :
    WriteBad (inodeAt v.disk i) off len ↔ WriteRefused n off len := by
  obtain ⟨-,-,rfl⟩ := files_eq_some hn
  have hM : MAXFILE * BSIZE = 71680 := rfl
  unfold WriteBad WriteRefused
  simp only [nodeOf]
  rw [hM]
  omega

theorem readResult_eq {off len : ℕ} (hoff : off < 2 ^ 32) (hlen : len < 2 ^ 32)
    (hn : files v.disk i = some n) (h : ¬ ReadRefused n off len) :
    readResult (inodeAt v.disk i) v.disk off len
      = ((((n.bytes.drop off).take len).length : ℤ),(n.bytes.drop off).take len) := by
  obtain ⟨-,-,rfl⟩ := files_eq_some hn
  unfold ReadRefused at h
  simp only [nodeOf] at h
  have hlist : contentAt (inodeAt v.disk i) v.disk off
      (if off + len > (inodeAt v.disk i).size.toNat then (inodeAt v.disk i).size.toNat - off
        else len) = ((nodeOf (inodeAt v.disk i) v.disk).bytes.drop off).take len := by
    refine ext_getElem ?_ fun x h1 h2 => ?_
    · simp only [contentAt,length_map,length_range,length_take,length_drop,
        Node.length_bytes,nodeOf]
      split <;> omega
    · have hx : off + x < (inodeAt v.disk i).size.toNat := by
        simp only [length_take,length_drop,Node.length_bytes,nodeOf] at h2
        omega
      rw [getElem_take,getElem_drop,Node.getElem_bytes]
      simp [contentAt,nodeOf,hx]
  unfold readResult
  rw [if_neg (by omega)]
  simp only [hlist]
  refine Prod.ext ?_ rfl
  simp only [length_take,length_drop,Node.length_bytes,nodeOf]
  split <;> omega

theorem readi_locked {c : KCfg} (hk : Locked p i k c.st.view c.owner) (hr : Ready c.st.view)
    (hs : Owned (inodeAt c.st.content) c.st.content) (hi : i < NINODES)
    (ht : (inodeAt c.st.content i).type ≠ 0) (hm : Mapped (inodeAt c.st.content i) c.st.content)
    (htd : (inodeAt c.st.content i).type ≠ T_DEV) (off len : ℕ) :
    ∃ c', run p (Fs.readi p k off len) c =
        .ok (readResult (inodeAt c.st.content i) c.st.content off len,c') ∧
      c'.st.view = c.st.view ∧ c'.owner = c.owner := by
  obtain ⟨a,c',hrun,rfl,hv,ho⟩ := Safe.returns (c := c) (Safe.readi (p := p)
    (Q := fun a v' o' => a = readResult (inodeAt c.st.content i) c.st.content off len ∧
      v' = c.st.view ∧ o' = c.owner) hr hs hi hk.copy.symm ht hk.bufs (fun hd => absurd hd htd)
    hk.inum hk.valid hk.ref hk.lock hm fun r inp h => by
      obtain ⟨rfl,rfl⟩ := h htd
      exact ⟨rfl,rfl,rfl⟩)
  exact ⟨c',hrun,hv,ho⟩

/-- `writei` and `readi` on a locked inode that is no device, in a sound state: a write
that is refused changes nothing, any other one replaces its window if there are enough
free blocks and room in the log, and a read returns the window. -/
theorem contents_byteString {c : KCfg} (hr : Ready c.st.view)
    (hs : Sound (inodeAt c.st.content) c.st.content) (hk : Locked p i k c.st.view c.owner)
    (hn : files c.st.content i = some n) (hreg : n.type ≠ T_DEV) (off len : UInt32)
    (src : List UInt8) :
    (WriteRefused n off.toNat src.length → ∃ c', run p (Fs.writei k off.toNat src) c = .ok (-1,c') ∧
      c'.st.view = c.st.view ∧ c'.owner = c.owner) ∧
    (¬ WriteRefused n off.toNat src.length → LogHasRoom c.st.log off.toNat src.length →
      needs (inodeAt c.st.content i) c.st.content (off.toNat / BSIZE)
        (endBlock off.toNat src.length) ≤ freeCount c.st.content →
      ∃ c' n', run p (Fs.writei k off.toNat src) c = .ok (src.length,c') ∧ c'.owner = c.owner ∧
        files c'.st.content i = some n' ∧ n'.size = max n.size (off.toNat + src.length) ∧
        n'.bytes = n.bytes.take off.toNat ++ src ++ n.bytes.drop (off.toNat + src.length) ∧
        (∀ j, j ≠ i → files c'.st.content j = files c.st.content j) ∧
        Sound (inodeAt c'.st.content) c'.st.content) ∧ (ReadRefused n off.toNat len.toNat →
      ∃ c', run p (Fs.readi p k off.toNat len.toNat) c = .ok ((-1,[]),c') ∧
        c'.st.view = c.st.view ∧ c'.owner = c.owner) ∧ (¬ ReadRefused n off.toNat len.toNat →
      ∃ c' bs, run p (Fs.readi p k off.toNat len.toNat) c = .ok ((bs.length,bs),c') ∧
        bs = (n.bytes.drop off.toNat).take len.toNat ∧
        c'.st.view = c.st.view ∧ c'.owner = c.owner) := by
  have hoff := off.toNat_lt
  have hlen := len.toNat_lt
  obtain ⟨hi,ht,hnode⟩ := files_eq_some hn
  have htd : (inodeAt c.st.view.disk i).type ≠ T_DEV := by
    rw [hnode] at hreg
    exact hreg
  have hbad : WriteBad _ _ src.length ↔ _ := writeBad_iff (v := c.st.view) hoff hn
  have hread := readi_locked hk hr hs.owned hi ht (hs.mapped i hi ht) htd off.toNat len.toNat
  refine ⟨fun href => ?_,fun href hl hf => ?_,fun href => ?_,fun href => ?_⟩
  · obtain ⟨a,c',hrun,rfl,hv,ho⟩ := Safe.returns (c := c) (Safe.writei (p := p) (c := 0)
      (Q := fun a v' o' => a = -1 ∧ v' = c.st.view ∧ o' = c.owner) hr hs hi hk.inum hk.copy ht
      hk.valid hk.ref hk.bufs hk.lock
      (fun _ hc => (absurd (hbad.mpr href) hc : LogSet ∅ _ _ _ _ ∧ Room _ ∅ _ _))
      (fun hd => absurd hd htd) (fun _ _ => ⟨rfl,rfl,rfl⟩) fun _ hc => absurd (hbad.mpr href) hc)
    exact ⟨c',hrun,hv,ho⟩
  · obtain ⟨a,c',hrun,rfl,⟨A,hw⟩,ho⟩ := Safe.returns (c := c) (Safe.writei (p := p) (c := 0)
      (Q := fun a v' o' => a = src.length ∧
        (∃ A, Written (logSet c.st.view.disk i off.toNat src.length) A c.st.view i k off.toNat
          src v') ∧ o' = c.owner) hr hs hi hk.inum hk.copy ht hk.valid hk.ref hk.bufs hk.lock
      (fun _ _ => ⟨logSet_spec ..,room_of_logHasRoom hl hf⟩) (fun hd => absurd hd htd)
      (fun _ hc => absurd (hbad.mp hc) href) fun _ _ A v' hw _ => ⟨rfl,⟨A,hw⟩,rfl⟩)
    have hsize : off.toNat ≤ n.size := by
      unfold WriteRefused at href
      omega
    refine ⟨c',n.write off.toNat src,hrun,ho,?_,rfl,Node.bytes_write hsize,?_,hw.sound⟩
    · have := congrFun hw.files i
      rw [update_self] at this
      rw [hnode]
      exact this
    · intro j hj
      have := congrFun hw.files j
      rw [update_of_ne hj] at this
      exact this
  · obtain ⟨c',hrun,hv,ho⟩ := hread
    refine ⟨c',?_,hv,ho⟩
    rw [hrun,readResult,if_pos]
    unfold ReadRefused at href
    rw [hnode] at href
    simp only [nodeOf] at href
    omega
  · obtain ⟨c',hrun,hv,ho⟩ := hread
    refine ⟨c',_,?_,rfl,hv,ho⟩
    rw [hrun]
    exact congrArg (fun r => Except.ok (r,c')) (readResult_eq (v := c.st.view) hoff hlen hn href)

end ByteString

def oneFile : Mkfs.Image := (Mkfs.ialloc T_FILE Mkfs.blank).2

/-- Process 0 has the file locked, in a transaction in which the blocks `bs` have been
logged. -/
def oneFileLocked (bs : List ℕ) : KCfg where
  st :=
    { disk := .ofFun oneFile.full
      cache := .ofFun fun _ => none
      writes := []
      sb := sb
      log := ⟨logstart,nlog,1,false,bs⟩
      inode := .ofFun fun k => if k = 0 then ⟨1,1,true,inodeAt oneFile.full 1⟩ else default
      file := .ofFun fun _ => default
      proc := .ofFun fun _ => default
      input := [] }
  held := [(.inode 0,0)]

section One
variable {t : Int16}

theorem ok_one (ht : t ≠ 0) : (Mkfs.ialloc t Mkfs.blank).2.Ok ∧
    files (Mkfs.ialloc t Mkfs.blank).2.full 1 = some (Mkfs.newNode t) := by
  obtain ⟨hok,hfiles⟩ := Mkfs.ok_blank.ialloc t ht (by decide)
  refine ⟨hok,?_⟩
  rw [hfiles]
  exact update_self ..

theorem freeCount_one : 1 ≤ freeCount (Mkfs.ialloc t Mkfs.blank).2.full := by
  refine Finset.card_pos.mpr ⟨59,Finset.mem_filter.mpr ⟨Finset.mem_range.mpr (by decide),?_⟩⟩
  rw [bitAt_full (by decide)]
  rfl

theorem needs_one (d : Disk) (i : ℕ) : needs (inodeAt d i) d 0 1 ≤ 1 := by
  have hcard := card_filter_le (Ico 0 1) fun n => (inodeAt d i).blk d n = 0
  rw [Nat.card_Ico] at hcard
  unfold needs
  rw [if_neg (fun hc => absurd hc.2.1 (by decide))]
  omega

end One

theorem content_oneFileLocked (bs : List ℕ) : (oneFileLocked bs).st.content = oneFile.full := rfl

/-- Where 27 blocks have been logged the write of a single byte stops the machine, with
all data blocks free. -/
theorem writei_logFull : Sound (inodeAt (oneFileLocked (List.range' 100 27)).st.content)
      (oneFileLocked (List.range' 100 27)).st.content ∧
    files (oneFileLocked (List.range' 100 27)).st.content 1 = some (Mkfs.newNode T_FILE) ∧
    ¬ WriteRefused (Mkfs.newNode T_FILE) 0 1 ∧
    needs (inodeAt (oneFileLocked (List.range' 100 27)).st.content 1)
      (oneFileLocked (List.range' 100 27)).st.content (0 / BSIZE) (endBlock 0 1)
      ≤ freeCount (oneFileLocked (List.range' 100 27)).st.content ∧
    run 0 (Fs.writei 0 0 [7]) (oneFileLocked (List.range' 100 27))
      = .error (.fail (.log .tooBigATransaction)) := by
  rw [content_oneFileLocked]
  refine ⟨(ok_one (by decide)).1.sound,(ok_one (by decide)).2,
    by rintro (h | h | h) <;> revert h <;> decide,(needs_one _ _).trans freeCount_one,
    eq_error_of_stop? ?_⟩
  decide +kernel

/-- The byte is written where the log is empty. -/
theorem contents_byteString_oneFile : ∃ c' n',
    run 0 (Fs.writei 0 0 [7]) (oneFileLocked []) = .ok (1,c') ∧
      files c'.st.content 1 = some n' ∧ n'.bytes = [7] := by
  have hr : Ready (oneFileLocked []).st.view :=
    ⟨rfl,(ok_one (t := T_FILE) (by decide)).1.superblock,rfl,rfl,by decide,
      show 0 + 0 < nlog by decide,nofun,nofun⟩
  have hk : Locked 0 1 0 (oneFileLocked []).st.view (oneFileLocked []).owner :=
    ⟨rfl,Int.one_pos,rfl,rfl,rfl,fun _ => rfl⟩
  obtain ⟨-,hw,-,-⟩ := contents_byteString (c := oneFileLocked []) hr
    (ok_one (by decide)).1.sound hk (ok_one (by decide)).2 (by decide) 0 0 [7]
  obtain ⟨c',n',hrun,-,hn,-,hbytes,-⟩ := hw (by rintro (h | h | h) <;> revert h <;> decide)
    (by unfold LogHasRoom; decide) ((needs_one _ _).trans freeCount_one)
  exact ⟨c',n',hrun,hn,hbytes⟩

end Fs
end Xv6
