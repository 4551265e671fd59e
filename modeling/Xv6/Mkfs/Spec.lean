import Xv6.Fs.RwSpec
import Xv6.Mkfs.Image

/-! # The image of `mkfs.c` is in order

`iappend` does to the image what `writei` does to the disk, with the counter
`freeblock` in place of the free map.  The free map is written at the end; the proofs
keep it up to date from the start. -/
namespace Xv6.Mkfs
open Function Image Fs List

section Bitmap

theorem bit_bitmap (used : ℕ) {b : ℕ} (hb : b < BPB) :
    (bitmap used Bytes.zero).bit b = decide (b < used) := by
  induction used with
  | zero =>
    rw [bitmap,Block.bit_eq_testBit,Bytes.byte_zero]
    simp
  | succ used ih =>
    rw [bitmap,Block.bit_setBit _ hb,ih,← Bool.decide_or,decide_eq_decide]
    omega

/-- The image with the free map that `balloc` writes at the end. -/
def Image.full (m : Image) : Disk := update m.disk sb.bmapstart (bitmap m.freeblock Bytes.zero)

variable {m : Image} {b : ℕ}

theorem Image.full_ne (h : b ≠ 58) : m.full b = m.disk b := update_of_ne h ..

theorem bitAt_full (hb : b < FSSIZE) : bitAt m.full b = decide (b < m.freeblock) := by
  rw [bitAt,full,update_self,bit_bitmap _ (lt_BPB hb)]

/-- `freeblock++` gives out a block that is zero. -/
theorem full_alloc (hz : m.disk m.freeblock = Bytes.zero) (hlo : 59 ≤ m.freeblock) :
    full { m with freeblock := m.freeblock + 1 } = allocated m.full m.freeblock := by
  funext c
  by_cases hb : c = m.freeblock
  · subst hb
    rw [allocated_self,full_ne (by omega),hz]
  · by_cases h58 : c = 58
    · subst h58
      rw [allocated,update_of_ne hb,bmapstart_eq,update_self]
      have h1 : m.full 58 = bitmap m.freeblock Bytes.zero := update_self ..
      rw [h1]
      exact update_self ..
    · rw [allocated_ne hb h58,full_ne h58,full_ne h58]

end Bitmap

section Append
variable {m m' : Image} {i fbn x : ℕ} {din din' : Dinode} {ino : ℕ → Dinode}

/-- A step of `mkfs` gives inode `i` more blocks. -/
structure Grows (i : ℕ) (ino : ℕ → Dinode) (m : Image) (din' : Dinode) (m' : Image) : Prop where
  extends_ : Extends i ino m.full (update ino i din') m'.full
  freeblock : m.freeblock ≤ m'.freeblock
  freeinode : m'.freeinode = m.freeinode
  zero : ∀ b, m'.freeblock ≤ b → m'.disk b = Bytes.zero

theorem Grows.refl (hs : Owned ino m.full) (hdi : ino i = din)
    (hz : ∀ b, m.freeblock ≤ b → m.disk b = Bytes.zero) : Grows i ino m din m := by
  refine ⟨?_,le_rfl,rfl,hz⟩
  rw [← hdi,update_eq_self]
  exact Extends.refl hs

section
variable (hs : Owned ino m.full) (hi : i < NINODES) (hdi : ino i = din) (ht : din.type ≠ 0)
  (hz : ∀ b, m.freeblock ≤ b → m.disk b = Bytes.zero)
include hs hi hdi ht hz

theorem Grows.addr (hlo : 59 ≤ m.freeblock) (hhi : m.freeblock < FSSIZE) {a : ℕ} (ha : a ≤ NDIRECT)
    (h0 : din.addr a = 0) : Grows i ino m (din.setAddr a (UInt32.ofNat m.freeblock))
      { m with freeblock := m.freeblock + 1 } := by
  subst hdi
  refine ⟨?_,Nat.le_succ _,rfl,fun b hb => hz b (Nat.le_of_succ_le hb)⟩
  rw [full_alloc (hz _ le_rfl) hlo]
  exact Extends.addr hs hi ht ha h0 (by rw [bitAt_full hhi]; simp) hhi

theorem Grows.indirect (hlo : 59 ≤ m.freeblock) (hhi : m.freeblock < FSSIZE) {w : ℕ} (hw : w < NINDIRECT)
    (ha : din.addr NDIRECT ≠ 0) (h0 : (m.disk (din.addr NDIRECT).toNat).word w = 0) :
    Grows i ino m din { m with
      disk := update m.disk (din.addr NDIRECT).toNat
        ((m.disk (din.addr NDIRECT).toNat).setWord w (UInt32.ofNat m.freeblock))
      freeblock := m.freeblock + 1 } := by
  subst hdi
  have hbit : bitAt m.full m.freeblock = false := by rw [bitAt_full hhi]; simp
  obtain ⟨hst,hne0,harea⟩ := indirect_area hs hi ht ha
  have hlt : ((ino i).addr NDIRECT).toNat < m.freeblock := by
    have hheld := hs.bit_of_held hne0
    rw [hst,bitAt_full harea.2] at hheld
    exact of_decide_eq_true hheld
  refine ⟨?_,Nat.le_succ _,rfl,fun b hb => ?_⟩
  · have hx := Extends.indirect hs hi ht hw ha (by rw [full_ne (by omega)]; exact h0) hbit hhi
    rw [update_eq_self]
    have hfull : full { m with
        disk := update m.disk ((ino i).addr NDIRECT).toNat
          ((m.disk ((ino i).addr NDIRECT).toNat).setWord w (UInt32.ofNat m.freeblock))
        freeblock := m.freeblock + 1 }
        = update (allocated m.full m.freeblock) ((ino i).addr NDIRECT).toNat
          ((allocated m.full m.freeblock ((ino i).addr NDIRECT).toNat).setWord w
            (UInt32.ofNat m.freeblock)) := by
      rw [← full_alloc (hz _ le_rfl) hlo,full_ne (by omega)]
      unfold full
      rw [update_comm (by rw [bmapstart_eq]; omega)]
    rw [hfull]
    exact hx
  · change m.freeblock + 1 ≤ b at hb
    change update m.disk _ _ b = _
    rw [update_of_ne (by omega)]
    exact hz b (by omega)

/-- `iappend` finds the block of index `fbn`, or gives the file a new one. -/
theorem fileBlock_spec (hlo : 59 ≤ m.freeblock) (hfbn : fbn < MAXFILE) (h : fileBlock fbn din m = (x,din',m'))
    (hhi : m'.freeblock ≤ FSSIZE) : Grows i ino m din' m' ∧ x = din'.blk m'.full fbn ∧ x ≠ 0 ∧
      (din.blk m.full fbn ≠ 0 → din' = din) := by
  have hnd : NDIRECT = 12 := rfl
  have hni : NINDIRECT = 128 := rfl
  have hmf : MAXFILE = 140 := rfl
  unfold fileBlock at h
  by_cases hn : fbn < NDIRECT
  · rw [if_pos hn] at h
    by_cases ha : din.addr fbn = 0
    · rw [if_pos ha] at h
      cases h
      have hlt : m.freeblock < FSSIZE := hhi
      refine ⟨Grows.addr hs hi hdi ht hz hlo hlt (by omega) ha,?_,by omega,fun hc => ?_⟩
      · rw [blk_direct hn,Dinode.addr_setAddr_self _ _ (by omega),toNat_ofNat_block hlt]
      · rw [blk_direct hn,ha] at hc
        exact absurd rfl hc
    · rw [if_neg ha] at h
      cases h
      exact ⟨Grows.refl hs hdi hz,(blk_direct hn).symm,toNat_ne_zero ha,fun _ => rfl⟩
  · rw [if_neg hn] at h
    -- the part after the indirect block is there
    have tail : ∀ (di : Dinode) (m1 : Image), di.addr NDIRECT ≠ 0 → Grows i ino m di m1 →
        (din.blk m.full fbn ≠ 0 → di = din) →
        (let ind := (di.addr NDIRECT).toNat
          let x := (m1.disk ind).word (fbn - NDIRECT)
          if x = 0 then
            (m1.freeblock,di, { m1 with
                disk := upd m1.disk ind
                  ((m1.disk ind).setWord (fbn - NDIRECT) (UInt32.ofNat m1.freeblock))
                freeblock := m1.freeblock + 1 })
          else (x.toNat,di,m1)) = (x,din',m') →
        Grows i ino m din' m' ∧ x = din'.blk m'.full fbn ∧ x ≠ 0 ∧
          (din.blk m.full fbn ≠ 0 → din' = din) := by
      intro di m1 ha hg hold h
      have hdi1 : update ino i di i = di := update_self ..
      have ht1 : di.type ≠ 0 := by
        have := hg.extends_.type_eq i
        rw [hdi1,hdi] at this
        rw [this]
        exact ht
      have hown := hg.extends_.owned
      obtain ⟨-,-,harea⟩ := indirect_area hown hi (by rwa [hdi1]) (by rwa [hdi1])
      rw [hdi1] at harea
      by_cases hx : (m1.disk (di.addr NDIRECT).toNat).word (fbn - NDIRECT) = 0
      · rw [if_pos hx,upd_eq_update] at h
        cases h
        have hlt : m1.freeblock < FSSIZE := hhi
        have hlo1 := hg.freeblock
        have hg2 := Grows.indirect hown hi hdi1 ht1 hg.zero (by omega) hlt (w := fbn - NDIRECT)
          (by omega) ha hx
        refine ⟨⟨?_,?_,hg.freeinode,hg2.zero⟩,?_,by omega,hold⟩
        · have := hg.extends_.trans hg2.extends_
          rwa [update_idem] at this
        · exact hg.freeblock.trans hg2.freeblock
        · rw [blk_indirect hn ha,full_ne (by omega)]
          dsimp only
          rw [update_self,Bytes.word_setWord_self _ _ (by simp only [BSIZE]; omega),
            toNat_ofNat_block hlt]
      · rw [if_neg hx] at h
        cases h
        refine ⟨hg,?_,toNat_ne_zero hx,hold⟩
        rw [blk_indirect hn ha,full_ne (by omega)]
    by_cases ha : din.addr NDIRECT = 0
    · rw [if_pos ha] at h
      have hlt : m.freeblock < FSSIZE := by
        have : m.freeblock + 1 ≤ m'.freeblock := by
          dsimp only at h
          split at h <;> cases h
          · exact Nat.le_succ _
          · exact le_rfl
        omega
      have hb : (UInt32.ofNat m.freeblock).toNat = m.freeblock := toNat_ofNat_block hlt
      have haddr : (din.setAddr NDIRECT (UInt32.ofNat m.freeblock)).addr NDIRECT
          = UInt32.ofNat m.freeblock := Dinode.addr_setAddr_self _ _ (by omega)
      refine tail _ _ ?_ (Grows.addr hs hi hdi ht hz hlo hlt le_rfl ha) (fun hc => ?_) h
      · rw [haddr]
        intro hc
        rw [hc] at hb
        simp at hb
        omega
      · exact absurd (blk_eq_zero hn ha) hc
    · rw [if_neg ha] at h
      exact tail din m ha (Grows.refl hs hdi hz) (fun _ => rfl) h

/-- The blocks that `iappend` takes for the block of index `fbn`. -/
theorem fileBlock_need (hle : m.freeblock ≤ FSSIZE) (h : fileBlock fbn din m = (x,din',m')) :
    m'.freeblock = m.freeblock + din.need m.full fbn ∧ (x < FSSIZE → m'.freeblock ≤ FSSIZE) := by
  have hnd : NDIRECT = 12 := rfl
  unfold fileBlock at h
  unfold Dinode.need
  by_cases hn : fbn < NDIRECT
  · rw [if_pos hn] at h
    rw [blk_direct hn]
    by_cases ha : din.addr fbn = 0
    · rw [if_pos ha] at h
      cases h
      rw [ha,if_neg (by simp),if_pos (.inl hn)]
      exact ⟨rfl,id⟩
    · rw [if_neg ha] at h
      cases h
      rw [if_pos (toNat_ne_zero ha)]
      exact ⟨rfl,fun _ => hle⟩
  · rw [if_neg hn] at h
    by_cases ha : din.addr NDIRECT = 0
    · -- the new indirect block is zero, so that the block is new as well
      have hb : (UInt32.ofNat m.freeblock).toNat = m.freeblock := by
        simp only [FSSIZE] at hle
        exact UInt32.toNat_ofNat_of_lt' (by simp only [UInt32.size]; omega)
      have hword : (Bytes.zero : Block).word (fbn - NDIRECT) = 0 := by
        simp [Bytes.word]
      rw [if_pos ha] at h
      dsimp only at h
      rw [Dinode.addr_setAddr_self _ _ (by omega),hb,hz _ le_rfl,if_pos hword] at h
      cases h
      rw [if_neg (not_not.mpr (blk_eq_zero hn ha)),if_neg (by simp [hn,ha])]
      exact ⟨rfl,id⟩
    · rw [if_neg ha] at h
      obtain ⟨-,-,harea⟩ := indirect_area hs hi (by rwa [hdi]) (by rwa [hdi])
      rw [hdi] at harea
      rw [blk_indirect hn ha,full_ne (by omega)]
      dsimp only at h
      by_cases hx : (m.disk (din.addr NDIRECT).toNat).word (fbn - NDIRECT) = 0
      · rw [if_pos hx] at h
        cases h
        rw [hx,if_neg (by simp),if_pos (.inr ha)]
        exact ⟨rfl,id⟩
      · rw [if_neg hx] at h
        cases h
        rw [if_pos (toNat_ne_zero hx)]
        exact ⟨rfl,fun _ => hle⟩

end

def Image.le (m m' : Image) : Prop := m.freeblock ≤ m'.freeblock ∧ m.freeinode ≤ m'.freeinode

theorem Image.le.trans {m'' : Image} (h : m.le m') (h' : m'.le m'') : m.le m'' :=
  ⟨h.1.trans h'.1,h.2.trans h'.2⟩

theorem fileBlock_le (h : fileBlock fbn din m = (x,din',m')) : m.le m' := by
  unfold fileBlock at h
  dsimp only at h
  split at h
  · split at h <;> cases h
    · exact ⟨Nat.le_succ _,le_rfl⟩
    · exact ⟨le_rfl,le_rfl⟩
  · split at h <;> split at h <;> cases h <;> constructor <;> dsimp only <;> omega

theorem iappendFrom_le {fuel off off' : ℕ} {p : List UInt8}
    (h : iappendFrom fuel off p din m = some (off',din',m')) : m.le m' := by
  induction fuel generalizing off p din m with
  | zero => cases h; exact ⟨le_rfl,le_rfl⟩
  | succ fuel ih =>
    unfold iappendFrom at h
    split at h
    · cases h; exact ⟨le_rfl,le_rfl⟩
    · dsimp only at h
      split at h
      · split at h
        · have hle := ih h
          exact (fileBlock_le rfl).trans hle
        · cases h
      · cases h

/-- The state of a kernel that has the inode in memory. -/
def viewOf (d : Disk) (i : ℕ) (di : Dinode) : View where
  disk := d
  sb := sb
  log := ⟨logstart,nlog,0,false,[]⟩
  inode := update (fun _ => default) 0 ⟨i,1,true,di⟩
  file := fun _ => default
  proc := fun _ => default
  input := []

def allBlocks : Finset ℕ := Finset.range FSSIZE

theorem logOk_viewOf (d : Disk) (di : Dinode) : LogOk (viewOf d i di).log :=
  ⟨rfl,rfl,by decide,show 0 + 0 < nlog by decide,nofun,nofun⟩

theorem frame_viewOf (d d' : Disk) (di di' : Dinode) :
    Frame allBlocks (viewOf d i di) (viewOf d' i di') :=
  ⟨rfl,.refl,logOk_viewOf d' di',rfl,rfl,rfl⟩

theorem inode_viewOf (d d' : Disk) (di di' : Dinode) : (viewOf d' i di').inode
    = update (viewOf d i di).inode 0 (((viewOf d i di).inode 0).withD di') := by
  simp only [viewOf,update_self,update_idem]
  rfl

/-- The image when `n` bytes of block `x` have been written. -/
def Image.put (m : Image) (x pos n : ℕ) (f : ℕ → UInt8) : Image :=
  { m with disk := update m.disk x ((m.disk x).splice pos n f) }

section Loop
variable {v : View} {off off' t fuel : ℕ} {src : List UInt8} {di₂ : Dinode} {m₂ : Image}

/-- The bytes that one turn of the loop of `iappend` writes. -/
def turn (off t : ℕ) (src : List UInt8) : ℕ := min (src.length - t) (BSIZE - (off + t) % BSIZE)

theorem turn_pos (off : ℕ) (hlt : t < src.length) : 0 < turn off t src := by
  have : (off + t) % BSIZE < BSIZE := Nat.mod_lt _ (by decide)
  unfold turn
  omega

theorem turn_le (off t : ℕ) (src : List UInt8) : t + turn off t src ≤ max t src.length := by
  unfold turn
  omega

/-- One turn of the loop of `iappend`. -/
theorem iappendFrom_turn (hlt : t < src.length) (hfb : fileBlock ((off + t) / BSIZE) din m = (x,di₂,m₂)) :
    iappendFrom (fuel + 1) (off + t) (src.drop t) din m =
      if (off + t) / BSIZE < MAXFILE ∧ x < FSSIZE then
        iappendFrom fuel (off + (t + turn off t src)) (src.drop (t + turn off t src)) di₂
          (m₂.put x ((off + t) % BSIZE) (turn off t src) fun j => (src.drop t).getD j 0)
      else none := by
  have hnil : src.drop t ≠ [] := fun hc => by
    have := drop_eq_nil_iff.mp hc
    omega
  have hmod : (off + t) - (off + t) / BSIZE * BSIZE = (off + t) % BSIZE := by
    have := Nat.div_add_mod' (off + t) BSIZE
    omega
  have hrem : ((off + t) / BSIZE + 1) * BSIZE - (off + t) = BSIZE - (off + t) % BSIZE := by
    have := Nat.div_add_mod' (off + t) BSIZE
    rw [Nat.add_mul,Nat.one_mul]
    omega
  rw [iappendFrom,if_neg hnil]
  dsimp only
  rw [hfb]
  rw [hmod,hrem,drop_drop,Nat.add_assoc,length_drop,upd_eq_update]
  by_cases hfbn : (off + t) / BSIZE < MAXFILE
  · by_cases hx : x < FSSIZE
    · rw [if_pos hfbn,if_pos hx,if_pos ⟨hfbn,hx⟩]
      rfl
    · rw [if_pos hfbn,if_neg hx,if_neg fun hc => hx hc.2]
  · rw [if_neg hfbn,if_neg fun hc => hfbn hc.1]

variable (hi : i < NINODES) (ht : (ino i).type ≠ 0)
  (hw : Writing allBlocks v ino i 0 off src t din allBlocks (viewOf m.full i din))
  (hz : ∀ b, m.freeblock ≤ b → m.disk b = Bytes.zero) (hlo : 59 ≤ m.freeblock)
include hi ht hw hz hlo

/-- What one turn does: it writes as one turn of the loop of `writei` does. -/
theorem Writing.append (hlt : t < src.length) (hfbn : (off + t) / BSIZE < MAXFILE)
    (hfb : fileBlock ((off + t) / BSIZE) din m = (x,di₂,m₂)) (hhi : m₂.freeblock ≤ FSSIZE)
    {m3 : Image} (hm3 : m3 = m₂.put x ((off + t) % BSIZE) (turn off t src)
      fun j => (src.drop t).getD j 0) :
    Writing allBlocks v ino i 0 off src (t + turn off t src) di₂ allBlocks (viewOf m3.full i di₂) ∧
      (∀ b, m3.freeblock ≤ b → m3.disk b = Bytes.zero) ∧ Grows i (update ino i din) m di₂ m₂ ∧
      x < FSSIZE ∧ di₂.blk m₂.full ((off + t) / BSIZE) ≠ 0 ∧
      ∀ k, di₂.blk m3.full k = di₂.blk m₂.full k := by
  have hB : BSIZE = 512 := rfl
  have hdi : update ino i din i = din := update_self ..
  have ht1 : din.type ≠ 0 := by rw [hw.type]; exact ht
  obtain ⟨hg,hxb,hx0,hsame⟩ := fileBlock_spec hw.owned hi hdi ht1 hz hlo hfbn hfb hhi
  have hx := hg.extends_
  rw [update_idem] at hx
  have hself : update ino i di₂ i = di₂ := update_self ..
  have ht2 : (update ino i di₂ i).type ≠ 0 := by
    rw [hx.type_eq,hdi]
    exact ht1
  have hblk : (update ino i di₂ i).blk m₂.full ((off + t) / BSIZE) ≠ 0 := by
    rwa [hself,← hxb]
  have harea := blk_area hx.owned hi ht2 hblk
  rw [hself,← hxb] at harea
  have hheld : x < m₂.freeblock := by
    have hb := hx.owned.bit_of_held (s := (i,Dinode.place ((off + t) / BSIZE)))
      (by rwa [stored_eq hi ht2])
    rw [stored_eq hi ht2,hself] at hb
    change bitAt m₂.full (di₂.blk m₂.full ((off + t) / BSIZE)) = true at hb
    rw [← hxb,bitAt_full harea.2] at hb
    exact of_decide_eq_true hb
  have hmodlt : (off + t) % BSIZE < BSIZE := Nat.mod_lt _ (by decide)
  have hfull : m3.full = update m₂.full x (Bytes.splice (m₂.full x) ((off + t) % BSIZE)
      (turn off t src) fun j => (src.drop t).getD j 0) := by
    rw [full_ne (m := m₂) (by omega),hm3]
    exact update_comm (by rw [bmapstart_eq]; omega) ..
  have hind : di₂.addr NDIRECT ≠ 0 → (di₂.addr NDIRECT).toNat ∈ allBlocks := by
    intro ha
    have := (indirect_area hx.owned hi ht2 (by rwa [hself])).2.2.2
    rw [hself] at this
    exact Finset.mem_range.mpr this
  have hgrown : Grown allBlocks m.full di₂ m₂.full ((off + t) / BSIZE) allBlocks :=
    ⟨subset_rfl,Finset.mem_range.mpr (hxb ▸ harea.2),hind,fun b hb => .inl hb,
      fun b hb _ _ => Finset.mem_range.mpr hb⟩
  have hpos := turn_pos off hlt
  have hend : (off + t) % BSIZE + turn off t src ≤ BSIZE := by
    unfold turn
    omega
  refine ⟨hw.step (w := viewOf m₂.full i di₂) hi ht hpos hend hx hgrown (frame_viewOf ..)
    (inode_viewOf ..) hxb.symm hx0 hsame (frame_viewOf ..) rfl rfl hfull,fun b hb => ?_,hg,harea.2,
    hxb ▸ hx0,fun k => ?_⟩
  · subst hm3
    change m₂.freeblock ≤ b at hb
    change update m₂.disk _ _ b = _
    rw [update_of_ne (by omega)]
    exact hg.zero b hb
  · have hkept := fun y => blk_writeBlock hx.owned hi ht2 hblk y hi ht2 k
    simp only [hself,← hxb] at hkept
    rw [hfull]
    exact hkept _

/-- The loop of `iappend` writes as the loop of `writei` does. -/
theorem iappendFrom_spec (hroom : m.freeblock ≤ FSSIZE)
    (h : iappendFrom fuel (off + t) (src.drop t) din m = some (off',din',m'))
    (hfuel : src.length ≤ t + fuel) (hle : t ≤ src.length) (hmax : off + t ≤ MAXFILE * BSIZE) :
    off' = off + src.length ∧ off + src.length ≤ MAXFILE * BSIZE ∧
      Writing allBlocks v ino i 0 off src src.length din' allBlocks (viewOf m'.full i din') ∧
      m'.freeinode = m.freeinode ∧ (∀ b, m'.freeblock ≤ b → m'.disk b = Bytes.zero) ∧
      m'.freeblock ≤ FSSIZE := by
  have hB : BSIZE = 512 := rfl
  induction fuel generalizing t din m with
  | zero =>
    cases h
    obtain rfl : t = src.length := by omega
    exact ⟨rfl,hmax,hw,rfl,hz,hroom⟩
  | succ fuel ih =>
    by_cases hlt : t < src.length
    swap
    · obtain rfl : t = src.length := by omega
      rw [drop_length,iappendFrom,if_pos rfl] at h
      cases h
      exact ⟨rfl,hmax,hw,rfl,hz,hroom⟩
    obtain ⟨x,di₂,m₂,hfb⟩ : ∃ x di₂ m₂, fileBlock ((off + t) / BSIZE) din m = (x,di₂,m₂) :=
      ⟨_,_,_,rfl⟩
    rw [iappendFrom_turn hlt hfb] at h
    split at h
    swap
    · cases h
    rename_i hok
    have ht1 : din.type ≠ 0 := by rw [hw.type]; exact ht
    have hroom2 := (fileBlock_need hw.owned hi (update_self ..) ht1 hz hroom hfb).2 hok.2
    obtain ⟨hw3,hz3,hg,-⟩ := Writing.append hi ht hw hz hlo hlt hok.1 hfb hroom2 rfl
    have hpos := turn_pos off hlt
    have hmax3 : off + (t + turn off t src) ≤ MAXFILE * BSIZE := by
      have hfbn := hok.1
      unfold turn
      rw [hB] at hfbn ⊢
      omega
    obtain ⟨h1,h2,h3,h4,h5,h6⟩ := ih hw3 hz3 (hlo.trans hg.freeblock) hroom2 h (by omega)
      (by have := turn_le off t src; omega) hmax3
    exact ⟨h1,h2,h3,h4.trans hg.freeinode,h5,h6⟩

/-- The loop succeeds if there is room for the blocks that are missing. -/
theorem iappendFrom_total (fuel : ℕ) (hle : t ≤ src.length) (hmax : off + src.length ≤ MAXFILE * BSIZE)
    (hroom : m.freeblock + needs din m.full ((off + t) / BSIZE) (endBlock off src.length) ≤ FSSIZE) :
    ∃ off' din' m', iappendFrom fuel (off + t) (src.drop t) din m = some (off',din',m') ∧
      m'.freeblock ≤ m.freeblock +
        needs din m.full ((off + t) / BSIZE) (endBlock off src.length) := by
  have hB : BSIZE = 512 := rfl
  induction fuel generalizing t din m with
  | zero => exact ⟨_,_,_,rfl,by omega⟩
  | succ fuel ih =>
    by_cases hlt : t < src.length
    swap
    · obtain rfl : t = src.length := by omega
      rw [drop_length,iappendFrom,if_pos rfl]
      exact ⟨_,_,_,rfl,by omega⟩
    obtain ⟨x,di₂,m₂,hfb⟩ : ∃ x di₂ m₂, fileBlock ((off + t) / BSIZE) din m = (x,di₂,m₂) :=
      ⟨_,_,_,rfl⟩
    have hfbn : (off + t) / BSIZE < MAXFILE := by
      rw [hB] at hmax ⊢
      omega
    have hend : (off + t) / BSIZE < endBlock off src.length := by
      unfold endBlock
      rw [hB]
      omega
    have ht1 : din.type ≠ 0 := by rw [hw.type]; exact ht
    have hneed := (fileBlock_need hw.owned hi (update_self ..) ht1 hz (by omega) hfb).1
    have hle2 : din.need m.full _ ≤ needs din m.full _ _ := need_le_needs hend
    obtain ⟨hw3,hz3,hg,hx,hx0,hblk⟩ := Writing.append hi ht hw hz hlo hlt hfbn hfb
      (by omega) rfl
    have hdi : update ino i din i = din := update_self ..
    have hdi2 : update (update ino i din) i di₂ i = di₂ := update_self ..
    set m3 := m₂.put x ((off + t) % BSIZE) (turn off t src) fun j => (src.drop t).getD j 0
    have hstep : needs di₂ m3.full ((off + (t + turn off t src)) / BSIZE) (endBlock off src.length)
        + din.need m.full ((off + t) / BSIZE)
        ≤ needs din m.full ((off + t) / BSIZE) (endBlock off src.length) := by
      have hmono : (off + t) / BSIZE ≤ (off + (t + turn off t src)) / BSIZE :=
        Nat.div_le_div_right (by omega)
      refine needs_step hend hmono ?_ (fun k hk => ?_) fun ha => ?_
      · rw [hblk]
        exact hx0
      · have := hg.extends_.blk_keep hi (by rw [hdi]; exact ht1) (by rw [hdi]; exact hk)
        rw [hdi,hdi2] at this
        rw [hblk,this]
        exact hk
      · have := hg.extends_.indirect_keep hi (by rw [hdi]; exact ht1) (by rw [hdi]; exact ha)
        rw [hdi,hdi2] at this
        rw [this]
        exact ha
    have hfb3 : m3.freeblock = m₂.freeblock := rfl
    obtain ⟨off',din',m',hrun,hcount⟩ := ih hw3 hz3 (hlo.trans hg.freeblock)
      (by have := turn_le off t src; omega) (by omega)
    refine ⟨off',din',m',?_,by omega⟩
    rw [iappendFrom_turn hlt hfb,if_pos ⟨hfbn,hx⟩]
    exact hrun

end Loop
end Append

structure Image.Ok (m : Image) : Prop where
  sound : Sound (inodeAt m.full) m.full
  freeblock : 59 ≤ m.freeblock
  room : m.freeblock ≤ FSSIZE
  zero : ∀ b, m.freeblock ≤ b → m.disk b = Bytes.zero
  superblock : Superblock.ofBlock (m.disk 1) = sb
  /-- the inodes that have not been given out are free -/
  free : ∀ i, m.freeinode ≤ i → (inodeAt m.full i).type = 0
  /-- the blocks are zero past the end of the contents -/
  past : ∀ i, i < NINODES → (inodeAt m.full i).type ≠ 0 → ∀ x, (inodeAt m.full i).size.toNat ≤ x →
    (inodeAt m.full i).byteAt m.full x = 0

section Build
variable {m m' : Image} {i : ℕ}

theorem full_winode (hi : i < NINODES) (di : Dinode) (n b : ℕ) :
    full ⟨winode i di m.disk,n,b⟩ = writeInode (full ⟨m.disk,n,b⟩) i di := by
  have hne : IBLOCK i sb ≠ sb.bmapstart := by
    have := IBLOCK_lt hi
    rw [bmapstart_eq]
    omega
  unfold full winode writeInode
  rw [upd_eq_update,update_of_ne hne,update_comm hne]

theorem rinode_eq (hi : i < NINODES) : rinode i m.disk = inodeAt m.full i := by
  have := IBLOCK_lt hi
  rw [inodeAt,if_pos hi,full_ne (by omega)]
  rfl

theorem blank_disk {b : ℕ} (h : b ≠ 1) : blank.disk b = Bytes.zero := by
  unfold blank
  dsimp only
  rw [upd_eq_update,update_of_ne h]

theorem blank_inode (i : ℕ) : (inodeAt blank.full i).type = 0 := by
  unfold inodeAt
  split
  · rename_i hi
    have hlt := IBLOCK_lt hi
    have hge : 32 ≤ IBLOCK i sb := by rw [IBLOCK_eq]; omega
    rw [full_ne (by omega),blank_disk (by omega)]
    simp [Block.dinode,Dinode.ofBytes,LittleEndian.read16]
  · rfl

/-- The image is in order before anything has been written. -/
theorem ok_blank : blank.Ok := by
  have hst : ∀ s, stored (inodeAt blank.full) blank.full s = 0 := by
    intro s
    rw [stored,if_neg fun h => h.2 (blank_inode s.1)]
  refine ⟨⟨⟨fun s h => absurd (hst s) h,fun s _ h => absurd (hst s) h,fun b hb => ?_,
    fun b hlo hhi => ?_⟩,fun i _ h => absurd (blank_inode i) h⟩,le_rfl,by decide,fun b hb => ?_,?_,
    fun i _ => blank_inode i,fun i _ h => absurd (blank_inode i) h⟩
  · rw [bitAt_full (by rw [nmeta_eq] at hb; simp only [FSSIZE]; omega)]
    exact decide_eq_true hb
  · rw [bitAt_full hhi]
    refine iff_of_false (by rw [decide_eq_true_eq]; exact Nat.not_lt.mpr hlo) ?_
    rintro ⟨s,hs⟩
    rw [hst s] at hs
    rw [nmeta_eq] at hlo
    omega
  · change 59 ≤ b at hb
    exact blank_disk (by omega)
  · rfl

def newNode (type : Int16) : Node := ⟨type,0,0,1,0,fun _ => 0⟩

theorem Image.Ok.ialloc (h : m.Ok) (type : Int16) (ht : type ≠ 0) (hi : m.freeinode < NINODES) :
    (Mkfs.ialloc type m).2.Ok ∧
      files (Mkfs.ialloc type m).2.full = update (files m.full) m.freeinode (some (newNode type)) := by
  have h0 := h.free _ le_rfl
  have hst : ∀ a, stored (update (inodeAt m.full) m.freeinode
      { Dinode.zero with type := type, nlink := 1 }) m.full (m.freeinode,a) = _ :=
    stored_fresh h0 fun k => by simp [Dinode.addr,Dinode.zero]
  have hfull : (Mkfs.ialloc type m).2.full = writeInode m.full m.freeinode
      { Dinode.zero with type := type, nlink := 1 } := full_winode hi _ _ _
  have hlt := IBLOCK_lt hi
  have hge : 32 ≤ IBLOCK m.freeinode sb := by rw [IBLOCK_eq]; omega
  have hdisk : ∀ b, b ≠ IBLOCK m.freeinode sb → (Mkfs.ialloc type m).2.disk b = m.disk b := by
    intro b hb
    change upd _ _ _ b = _
    rw [upd_eq_update,update_of_ne hb]
  refine ⟨⟨?_,h.freeblock,h.room,fun b hb => ?_,?_,fun i hi' => ?_, fun i hi' ht' x hx => ?_⟩,?_⟩
  · rw [hfull]
    exact h.sound.writeInode hi hst fun _ n hn => absurd hn (Nat.not_lt_zero _)
  · have := h.freeblock
    change m.freeblock ≤ b at hb
    rw [hdisk b (by omega)]
    exact h.zero b hb
  · rw [hdisk 1 (by omega)]
    exact h.superblock
  · change m.freeinode + 1 ≤ i at hi'
    rw [hfull,inodeAt_writeInode hi,update_of_ne (by omega)]
    exact h.free i (by omega)
  · have hown := h.sound.owned.other_fields hst
    rw [hfull,inodeAt_writeInode hi] at ht' hx ⊢
    rw [byteAt_writeInode hown hi hi' ht']
    by_cases hj : i = m.freeinode
    · subst hj
      rw [update_self] at ht' ⊢
      refine if_pos ?_
      unfold Dinode.blk Dinode.ptr
      simp [Dinode.addr,Dinode.zero]
    · rw [update_of_ne hj] at ht' hx ⊢
      exact h.past i hi' ht' x hx
  · rw [hfull,files_writeInode h.sound.owned hi hst,if_neg ht]
    congr 2

theorem Image.Ok.size_le (h : m.Ok) (hi : i < NINODES) (ht : (inodeAt m.full i).type ≠ 0) :
    (inodeAt m.full i).size.toNat ≤ MAXFILE * BSIZE := by
  by_contra hc
  have hB : BSIZE = 512 := rfl
  have hM : MAXFILE = 140 := rfl
  have := h.sound.mapped i hi ht 140 (by rw [hB] at hc ⊢; omega)
  exact absurd (lt_MAXFILE_of_blk this) (by omega)

theorem Image.Ok.writing (h : m.Ok) (hi : i < NINODES) (ht : (inodeAt m.full i).type ≠ 0)
    (p : List UInt8) : Writing allBlocks (viewOf m.full i (inodeAt m.full i)) (inodeAt m.full) i 0
      (inodeAt m.full i).size.toNat p 0 (inodeAt m.full i) allBlocks
      (viewOf m.full i (inodeAt m.full i)) := by
  refine ⟨frame_viewOf ..,subset_rfl,fun h0 => ?_,fun b hb => .inl hb,
    fun b hb _ _ => Finset.mem_range.mpr hb,?_,fun _ _ => rfl,?_,rfl,fun s _ => ?_,
    fun _ _ _ _ _ => rfl,fun x => ?_,fun k hk => h.sound.mapped i hi ht k (by omega), fun _ => rfl⟩
  · exact Finset.mem_range.mpr (indirect_area h.sound.owned hi ht h0).2.2.2
  · exact inode_viewOf ..
  · rw [update_eq_self]
    exact h.sound.owned
  · rw [update_eq_self]
  · rw [overwritten,if_neg (by omega)]

/-- `iappend` writes at the end of the file. -/
theorem Image.Ok.iappend (h : m.Ok) {n : Node} {p : List UInt8} (hn : files m.full i = some n)
    (hp : p ≠ []) (ha : Mkfs.iappend i p m = some m') :
    m'.Ok ∧ m'.freeinode = m.freeinode ∧ n.size + p.length ≤ MAXFILE * BSIZE ∧
      files m'.full = update (files m.full) i (some (n.write n.size p)) := by
  obtain ⟨hi,ht,rfl⟩ := files_eq_some hn
  have hlt := IBLOCK_lt hi
  have hge : 32 ≤ IBLOCK i sb := by rw [IBLOCK_eq]; omega
  unfold Mkfs.iappend at ha
  rw [rinode_eq hi] at ha
  obtain ⟨⟨off,din,m1⟩,hfrom,hend⟩ := Option.bind_eq_some_iff.mp ha
  obtain rfl := Option.some.inj hend
  obtain ⟨rfl,hmax,hw,hfi,hz,hroom⟩ := iappendFrom_spec hi ht (h.writing hi ht p) h.zero
    h.freeblock h.room hfrom (by omega) (Nat.zero_le _) (h.size_le hi ht)
  have hmono := (iappendFrom_le hfrom).1
  have hfb := h.freeblock
  have hpos : 0 < p.length := length_pos_of_ne_nil hp
  obtain ⟨di',hdi'⟩ : ∃ di', di' = { din with
    size := UInt32.ofNat ((inodeAt m.full i).size.toNat + p.length) } := ⟨_,rfl⟩
  rw [← hdi']
  obtain ⟨d',hd'⟩ : ∃ d', d' = full ⟨winode i di' m1.disk,m1.freeinode,m1.freeblock⟩ :=
    ⟨_,rfl⟩
  have hfull : d' = writeInode m1.full i di' := hd'.trans (full_winode hi di' _ _)
  have hwr : Written allBlocks allBlocks (viewOf m.full i (inodeAt m.full i)) i 0
      (inodeAt m.full i).size.toNat p (viewOf d' i di') := by
    subst hdi'
    exact hw.written_grow h.sound hi ht le_rfl
      (show (inodeAt m.full i).size.toNat < (inodeAt m.full i).size.toNat + p.length by omega)
      hmax (frame_viewOf ..) (inode_viewOf ..) hfull
  have hother : ∀ j, j ≠ i → inodeAt d' j = inodeAt m.full j := hwr.other
  have hself : inodeAt d' i = di' := by
    rw [hfull,inodeAt_writeInode hi,update_self]
  have hdisk : ∀ b, b ≠ IBLOCK i sb → winode i di' m1.disk b = m1.disk b := by
    intro b hb
    rw [winode,upd_eq_update,update_of_ne hb]
  -- the bytes of the blocks, also past the end
  have hby : ∀ j, j < NINODES → (inodeAt d' j).type ≠ 0 → ∀ x, (inodeAt d' j).byteAt d' x
      = (update (inodeAt m.full) i din j).byteAt m1.full x := by
    intro j hj htj x
    have hsame : ∀ d : Disk, (inodeAt d' j).byteAt d x
        = (update (inodeAt m.full) i din j).byteAt d x := by
      intro d
      by_cases hji : j = i
      · subst hji
        rw [update_self,hself,hdi']
        rfl
      · rw [update_of_ne hji,hother j hji]
    rw [hsame,hfull]
    refine byteAt_writeInode hw.owned hi hj ?_ x
    by_cases hji : j = i
    · subst hji
      rw [update_self,hw.type]
      exact ht
    · rw [update_of_ne hji,← hother j hji]
      exact htj
  have hok : Ok ⟨winode i di' m1.disk,m1.freeinode,m1.freeblock⟩ := by
    refine ⟨hd' ▸ hwr.sound,hfb.trans hmono,hroom,fun b hb => ?_,?_,fun j hj => ?_,
      fun j hj htj x hx => ?_⟩
    · change m1.freeblock ≤ b at hb
      change winode i di' m1.disk b = _
      rw [hdisk b (by omega)]
      exact hz b hb
    · change Superblock.ofBlock (winode i di' m1.disk 1) = _
      rw [hdisk 1 (by omega)]
      have h1 : m1.full 1 = m.full 1 := hw.metaBlocks 1 (by omega)
      rw [full_ne (by omega),full_ne (by omega)] at h1
      rw [h1]
      exact h.superblock
    · rw [hfi] at hj
      have hji : j ≠ i := by
        rintro rfl
        exact ht (h.free j hj)
      rw [← hd',hother j hji]
      exact h.free j hj
    · rw [← hd'] at htj hx ⊢
      rw [hby j hj htj]
      by_cases hji : j = i
      · subst hji
        rw [hself,hdi'] at hx
        have hx' : (inodeAt m.full j).size.toNat + p.length ≤ x := by
          have hlen : (UInt32.ofNat ((inodeAt m.full j).size.toNat + p.length)).toNat
              = (inodeAt m.full j).size.toNat + p.length := by
            have : MAXFILE * BSIZE = 71680 := rfl
            exact UInt32.toNat_ofNat_of_lt' (by simp only [UInt32.size]; omega)
          rw [← hlen]
          exact hx
        have := hw.bytes x
        rw [overwritten,if_neg (by omega)] at this
        rw [update_self]
        exact this.trans (h.past j hj ht x (by omega))
      · rw [update_of_ne hji]
        rw [hother j hji] at htj hx
        exact (hw.other j hj hji htj x).trans (h.past j hj htj x hx)
  refine ⟨hok,hfi,hmax,?_⟩
  rw [← hd']
  exact hwr.files

/-- The number of blocks of a file of `s` bytes, with the indirect block. -/
def blocksFor (s : ℕ) : ℕ := (s + (BSIZE - 1)) / BSIZE + if NDIRECT * BSIZE < s then 1 else 0

/-- A file whose blocks are all there needs no more blocks than its new size asks for. -/
theorem needs_le_blocksFor {di : Dinode} {d : Disk} {s len : ℕ} (hpos : 0 < len)
    (hm : ∀ k, k * BSIZE < s → di.blk d k ≠ 0) :
    needs di d (s / BSIZE) (endBlock s len) + blocksFor s ≤ blocksFor (s + len) := by
  have hB : BSIZE = 512 := rfl
  have hN : NDIRECT = 12 := rfl
  have hsub : (Finset.Ico (s / BSIZE) (endBlock s len)).filter (fun k => di.blk d k = 0)
      ⊆ Finset.Ico ((s + (BSIZE - 1)) / BSIZE) (endBlock s len) := by
    intro k hk
    rw [Finset.mem_filter,Finset.mem_Ico] at hk
    rw [Finset.mem_Ico]
    refine ⟨?_,hk.1.2⟩
    by_contra hc
    refine hm k ?_ hk.2
    rw [hB] at hc ⊢
    omega
  have hcard := Finset.card_le_card hsub
  rw [Nat.card_Ico] at hcard
  have hind : di.addr NDIRECT = 0 → s ≤ NDIRECT * BSIZE := by
    intro h0
    by_contra hc
    exact indirect_of_blk le_rfl (hm NDIRECT (by omega)) h0
  unfold needs blocksFor
  unfold endBlock at hcard ⊢
  rw [hB] at hcard hind ⊢
  by_cases h0 : di.addr NDIRECT = 0
  · rw [if_neg (Nat.not_lt.mpr (hind h0))]
    split <;> split <;> omega
  · rw [if_neg fun hc => h0 hc.1]
    split <;> split <;> omega

/-- `iappend` succeeds if there is room. -/
theorem Image.Ok.iappend_total (h : m.Ok) {n : Node} {p : List UInt8}
    (hn : files m.full i = some n) (hp : p ≠ []) (hmax : n.size + p.length ≤ MAXFILE * BSIZE)
    (hroom : m.freeblock + blocksFor (n.size + p.length) ≤ FSSIZE + blocksFor n.size) :
    ∃ m', Mkfs.iappend i p m = some m' ∧
      m'.freeblock + blocksFor n.size ≤ m.freeblock + blocksFor (n.size + p.length) := by
  obtain ⟨hi,ht,rfl⟩ := files_eq_some hn
  have hsize : (nodeOf (inodeAt m.full i) m.full).size = (inodeAt m.full i).size.toNat := rfl
  rw [hsize] at hmax hroom ⊢
  have hneeds := needs_le_blocksFor (length_pos_of_ne_nil hp) (h.sound.mapped i hi ht)
  have htotal := iappendFrom_total hi ht (h.writing hi ht p) h.zero h.freeblock p.length
    (Nat.zero_le _) hmax
  simp only [Nat.add_zero,drop_zero] at htotal
  obtain ⟨off,din,m1,hrun,hcount⟩ := htotal (by omega)
  refine ⟨⟨winode i { din with size := UInt32.ofNat off } m1.disk,m1.freeinode,m1.freeblock⟩,
    ?_,show m1.freeblock + _ ≤ _ by omega⟩
  unfold Mkfs.iappend
  rw [rinode_eq hi]
  exact Option.bind_eq_some_iff.mpr ⟨_,hrun,rfl⟩

end Build
end Xv6.Mkfs
