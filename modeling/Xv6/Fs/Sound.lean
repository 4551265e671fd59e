import Xv6.Lib.Ownership
import Xv6.Mkfs.Layout

/-! # Which block belongs to which file

The block numbers that the inodes store, the contents of a file as a function of
the byte offset, and the invariant that every stored block number lies in the data
area, is stored once, and is marked in the free map.

The inodes are given by a function of their own, because an inode in memory can be
ahead of its copy on disk. -/
namespace Xv6
open Function Mkfs Dinode
open Mkfs (NINODES)

def inodeAt (d : Disk) (i : ℕ) : Dinode :=
  if i < NINODES then (d (IBLOCK i sb)).dinode (i % IPB) else zero

def bitAt (d : Disk) (b : ℕ) : Bool := (d sb.bmapstart).bit b

namespace Dinode

/-- The `k`-th block number that an inode stores: the direct blocks, the indirect
block, the contents of the indirect block. -/
def ptr (di : Dinode) (d : Disk) (k : ℕ) : ℕ :=
  if k ≤ NDIRECT then (di.addr k).toNat
  else if di.addr NDIRECT = 0 then 0
  else ((d (di.addr NDIRECT).toNat).word (k - (NDIRECT + 1))).toNat

/-- Where the block number of the `n`-th block of the contents is stored. -/
def place (n : ℕ) : ℕ := if n < NDIRECT then n else n + 1

/-- The block number of the `n`-th block of the contents, 0 if there is none. -/
def blk (di : Dinode) (d : Disk) (n : ℕ) : ℕ := di.ptr d (place n)

def byteAt (di : Dinode) (d : Disk) (x : ℕ) : UInt8 :=
  if di.blk d (x / BSIZE) = 0 then 0 else (d (di.blk d (x / BSIZE))).byte (x % BSIZE)

end Dinode

/-- The block number in a place of an allocated inode. -/
def stored (ino : ℕ → Dinode) (d : Disk) (s : ℕ × ℕ) : ℕ :=
  if s.1 < NINODES ∧ (ino s.1).type ≠ 0 then (ino s.1).ptr d s.2 else 0

/-- No holes: every block below the size is there. -/
def Mapped (di : Dinode) (d : Disk) : Prop := ∀ n, n * BSIZE < di.size.toNat → di.blk d n ≠ 0

/-- The blocks are in order, without regard to the sizes. -/
abbrev Owned (ino : ℕ → Dinode) (d : Disk) : Prop :=
  Owns (stored ino d) (bitAt d) nmeta FSSIZE

structure Sound (ino : ℕ → Dinode) (d : Disk) : Prop where
  owned : Owned ino d
  mapped : ∀ i, i < NINODES → (ino i).type ≠ 0 → Mapped (ino i) d

theorem nmeta_eq : nmeta = 59 := rfl

theorem bmapstart_eq : sb.bmapstart = 58 := rfl

theorem IBLOCK_eq (i : ℕ) : IBLOCK i sb = i / 8 + 32 := rfl

theorem IBLOCK_lt {i : ℕ} (h : i < NINODES) : IBLOCK i sb < 58 := by
  simp only [NINODES] at h
  rw [IBLOCK_eq]
  omega

theorem inodeAt_congr {d d' : Disk} (h : ∀ b, 32 ≤ b → b < 58 → d' b = d b) :
    inodeAt d' = inodeAt d := by
  funext i
  unfold inodeAt
  by_cases hi : i < NINODES
  · rw [if_pos hi,if_pos hi,h _ (by rw [IBLOCK_eq]; omega) (IBLOCK_lt hi)]
  · rw [if_neg hi,if_neg hi]

theorem inodeAt_eq {d : Disk} {i : ℕ} (h : i < NINODES) :
    (d (IBLOCK i sb)).dinode (i % IPB) = inodeAt d i := (if_pos h).symm

theorem lt_NINODES_of_type {d : Disk} {i : ℕ} (h : (inodeAt d i).type ≠ 0) : i < NINODES := by
  by_contra hc
  exact h (by rw [inodeAt,if_neg hc]; rfl)

theorem place_ne (n : ℕ) : place n ≠ NDIRECT := by
  have hm : NDIRECT = 12 := rfl
  unfold place
  split <;> omega

theorem place_inj {n m : ℕ} (h : place n = place m) : n = m := by
  have hm : NDIRECT = 12 := rfl
  unfold place at h
  split at h <;> split at h <;> omega

section Ptr
variable {di : Dinode} {d d' : Disk} {k : ℕ}

theorem ptr_direct (h : k ≤ NDIRECT) : di.ptr d k = (di.addr k).toNat := if_pos h

theorem ptr_indirect (h : NDIRECT < k) (ha : di.addr NDIRECT ≠ 0) :
    di.ptr d k = ((d (di.addr NDIRECT).toNat).word (k - (NDIRECT + 1))).toNat := by
  rw [ptr,if_neg (by omega),if_neg ha]

theorem ptr_congr (h : di.addr NDIRECT ≠ 0 →
    d' (di.addr NDIRECT).toNat = d (di.addr NDIRECT).toNat) : di.ptr d' k = di.ptr d k := by
  unfold ptr
  by_cases ha : di.addr NDIRECT = 0
  · simp only [ha,if_true]
  · rw [h ha]

theorem toNat_ne_zero {a : UInt32} (h : a ≠ 0) : a.toNat ≠ 0 := by
  intro h0
  exact h (UInt32.toNat_inj.mp h0)

theorem ptr_eq_zero (h : NDIRECT + NINDIRECT < k) : di.ptr d k = 0 := by
  have hn : NDIRECT + NINDIRECT = 140 := rfl
  have hd : NDIRECT = 12 := rfl
  by_cases ha : di.addr NDIRECT = 0
  · rw [ptr,if_neg (by omega),if_pos ha]
  · rw [ptr_indirect (by omega) ha]
    have hw : (d (di.addr NDIRECT).toNat).word (k - (NDIRECT + 1)) = 0 := by
      rw [Bytes.word]
      have hz : (fun i => (d (di.addr NDIRECT).toNat).byte (4 * (k - (NDIRECT + 1)) + i))
          = fun _ => 0 := by
        funext i
        exact dif_neg (by simp only [BSIZE]; omega)
      rw [hz,LittleEndian.read32_zero]
    rw [hw]
    rfl

theorem lt_MAXFILE_of_blk {n : ℕ} (h : di.blk d n ≠ 0) : n < MAXFILE := by
  by_contra hn
  apply h
  apply ptr_eq_zero
  have hm : MAXFILE = 140 := rfl
  have h1 : NDIRECT + NINDIRECT = 140 := rfl
  have h2 : NDIRECT = 12 := rfl
  unfold place
  rw [if_neg (by omega)]
  omega

end Ptr

section Stored
variable {ino : ℕ → Dinode} {d : Disk} {i : ℕ}

theorem stored_eq {k : ℕ} (hi : i < NINODES) (ht : (ino i).type ≠ 0) :
    stored ino d (i,k) = (ino i).ptr d k := if_pos ⟨hi,ht⟩

theorem stored_ne_zero {s : ℕ × ℕ} (h : stored ino d s ≠ 0) :
    s.1 < NINODES ∧ (ino s.1).type ≠ 0 := by
  by_contra hc
  exact h (if_neg hc)

/-- What an update of one block leaves: every place, if the block is no indirect block. -/
theorem stored_update {b : ℕ} {x : Block} (h : ∀ j, stored ino d (j,NDIRECT) = b → b = 0) :
    stored ino (update d b x) = stored ino d := by
  funext s
  unfold stored
  by_cases hs : s.1 < NINODES ∧ (ino s.1).type ≠ 0
  · rw [if_pos hs,if_pos hs]
    apply ptr_congr
    intro ha
    apply update_of_ne
    rintro rfl
    refine toNat_ne_zero ha (h s.1 ?_)
    rw [stored_eq hs.1 hs.2,ptr_direct le_rfl]
  · rw [if_neg hs,if_neg hs]

namespace Owned

theorem ptr_area (h : Owned ino d) (hi : i < NINODES) (ht : (ino i).type ≠ 0) {k : ℕ}
    (hk : (ino i).ptr d k ≠ 0) : 59 ≤ (ino i).ptr d k ∧ (ino i).ptr d k < FSSIZE := by
  rw [← stored_eq hi ht] at hk ⊢
  exact h.area _ hk

theorem stored_meta (h : Owned ino d) {b : ℕ} (x : Block) (hb : b < 59) :
    stored ino (update d b x) = stored ino d := by
  apply stored_update
  intro j hj
  by_contra h0
  have := (h.area (j,NDIRECT) (by rw [hj]; exact h0)).1
  rw [nmeta_eq,hj] at this
  omega

/-- So does an update of a block of the contents of a file. -/
theorem stored_data (h : Owned ino d) {s : ℕ × ℕ} (x : Block) (hs : s.2 ≠ NDIRECT)
    (h0 : stored ino d s ≠ 0) : stored ino (update d (stored ino d s) x) = stored ino d := by
  apply stored_update
  intro j hj
  have he := h.inj s (j,NDIRECT) h0 hj.symm
  rw [he] at hs
  exact absurd rfl hs

end Owned
end Stored

def allocated (d : Disk) (b : ℕ) : Disk :=
  update (update d sb.bmapstart ((d sb.bmapstart).setBit b)) b Bytes.zero

def freed (d : Disk) (b : ℕ) : Disk :=
  update d sb.bmapstart ((d sb.bmapstart).clearBit b)

section Bitmap
variable {ino : ℕ → Dinode} {d : Disk} {b c : ℕ}

theorem lt_BPB (h : c < FSSIZE) : c < BPB := by
  simp only [FSSIZE] at h
  simp only [BPB,BSIZE]
  omega

theorem bitAt_update_ne {x : Block} (h : b ≠ 58) : bitAt (update d b x) = bitAt d := by
  funext c
  unfold bitAt
  rw [bmapstart_eq,update_of_ne (Ne.symm h)]

theorem bitAt_allocated (hb : b ≠ 58) (hc : c < FSSIZE) :
    bitAt (allocated d b) c = update (bitAt d) b true c := by
  rw [allocated,bitAt_update_ne hb,bitAt,update_self,Block.bit_setBit _ (lt_BPB hc)]
  by_cases h : c = b
  · subst h
    simp
  · rw [update_of_ne h,decide_eq_false (Ne.symm h),Bool.or_false]
    rfl

theorem bitAt_freed (hc : c < FSSIZE) : bitAt (freed d b) c = update (bitAt d) b false c := by
  rw [freed,bitAt,update_self,Block.bit_clearBit _ (lt_BPB hc)]
  by_cases h : c = b
  · subst h
    simp
  · rw [update_of_ne h,decide_eq_false (Ne.symm h),Bool.not_false,Bool.and_true]
    rfl

theorem eq_of_marked (hb : b ≠ 58) (hc : c < FSSIZE) (h : bitAt d c = false)
    (h' : bitAt (allocated d b) c = true) : c = b := by
  rw [bitAt_allocated hb hc] at h'
  by_contra hne
  rw [update_of_ne hne,h] at h'
  cases h'

theorem allocated_self : allocated d b b = Bytes.zero := update_self ..

theorem allocated_ne (hb : c ≠ b) (hm : c ≠ 58) : allocated d b c = d c := by
  rw [allocated,update_of_ne hb,bmapstart_eq,update_of_ne hm]

theorem freed_ne (hm : c ≠ 58) : freed d b c = d c := by
  rw [freed,bmapstart_eq,update_of_ne hm]

theorem Owned.free_ge (h : Owned ino d) (hb : bitAt d b = false) (hlt : b < FSSIZE) : 59 ≤ b :=
  (h.free_block hb hlt).1

theorem Owned.stored_allocated (h : Owned ino d) (hb : bitAt d b = false) (hlt : b < FSSIZE) :
    stored ino (allocated d b) = stored ino d := by
  have hm : sb.bmapstart < 59 := by rw [bmapstart_eq]; omega
  have hge := h.free_ge hb hlt
  have h1 := h.stored_meta ((d sb.bmapstart).setBit b) hm
  rw [allocated,stored_update,h1]
  intro j hj
  rw [h1] at hj
  exact absurd hj ((h.free_block hb hlt).2 (j,NDIRECT))

end Bitmap

/-- `(ino', d')` comes from `(ino, d)` by giving inode `i` more blocks, zeroed. -/
structure Extends (i : ℕ) (ino : ℕ → Dinode) (d : Disk) (ino' : ℕ → Dinode) (d' : Disk) :
    Prop where
  owned : Owned ino' d'
  other : ∀ j, j ≠ i → ino' j = ino j
  fields : ino' i = { ino i with addrs := (ino' i).addrs }
  keep : ∀ s, stored ino d s ≠ 0 → stored ino' d' s = stored ino d s
  bytes : ∀ j, j < NINODES → (ino j).type ≠ 0 → ∀ x,
    (ino' j).byteAt d' x = (ino j).byteAt d x
  /-- the meta blocks other than the free map are left alone -/
  metaBlocks : ∀ b, b < 58 → d' b = d b

namespace Extends
variable {i : ℕ} {ino ino' ino'' : ℕ → Dinode} {d d' d'' : Disk}

theorem refl (h : Owned ino d) : Extends i ino d ino d :=
  ⟨h,fun _ _ => rfl,rfl,fun _ _ => rfl,fun _ _ _ _ => rfl,fun _ _ => rfl⟩

section
variable (h : Extends i ino d ino' d')
include h

theorem type_eq (j : ℕ) : (ino' j).type = (ino j).type := by
  by_cases hj : j = i
  · subst hj
    rw [h.fields]
  · rw [h.other j hj]

theorem trans (h' : Extends i ino' d' ino'' d'') : Extends i ino d ino'' d'' where
  owned := h'.owned
  other := fun j hj => (h'.other j hj).trans (h.other j hj)
  fields := by rw [h'.fields,h.fields]
  keep := by
    intro s hs
    have h1 := h.keep s hs
    rw [h'.keep s (by rw [h1]; exact hs),h1]
  bytes := by
    intro j hj ht x
    rw [h'.bytes j hj (by rw [h.type_eq]; exact ht),h.bytes j hj ht]
  metaBlocks := fun b hb => (h'.metaBlocks b hb).trans (h.metaBlocks b hb)

theorem blk_keep {j n : ℕ} (hj : j < NINODES)
    (ht : (ino j).type ≠ 0) (hn : (ino j).blk d n ≠ 0) : (ino' j).blk d' n = (ino j).blk d n := by
  have hk := h.keep (j,place n) (by rw [stored_eq hj ht]; exact hn)
  rw [stored_eq hj ht,stored_eq hj (by rw [h.type_eq]; exact ht)] at hk
  exact hk

theorem indirect_keep {j : ℕ} (hj : j < NINODES)
    (ht : (ino j).type ≠ 0) (ha : (ino j).addr NDIRECT ≠ 0) :
    (ino' j).addr NDIRECT = (ino j).addr NDIRECT := by
  have hk := h.keep (j,NDIRECT) (by
    rw [stored_eq hj ht,ptr_direct le_rfl]
    exact toNat_ne_zero ha)
  rw [stored_eq hj ht,stored_eq hj (by rw [h.type_eq]; exact ht),ptr_direct le_rfl,
    ptr_direct le_rfl] at hk
  exact UInt32.toNat_inj.mp hk

end

theorem of_stored (h : Owned ino d) {k b : ℕ} (h0 : stored ino d (i,k) = 0)
    (hb : bitAt d b = false) (hlt : b < FSSIZE) (hother : ∀ j, j ≠ i → ino' j = ino j)
    (hfields : ino' i = { ino i with addrs := (ino' i).addrs })
    (hst : stored ino' d' = update (stored ino d) (i,k) b)
    (hbits : ∀ c, c < FSSIZE → bitAt d' c = update (bitAt d) b true c) (hz : d' b = Bytes.zero)
    (hd : ∀ s, s.2 ≠ NDIRECT → stored ino d s ≠ 0 → d' (stored ino d s) = d (stored ino d s))
    (hmeta : ∀ c, c < 58 → d' c = d c) : Extends i ino d ino' d' := by
  have hpos : 0 < nmeta := by rw [nmeta_eq]; omega
  have hle : nmeta ≤ FSSIZE := by simp only [nmeta_eq,FSSIZE]; omega
  have htype : ∀ j, (ino' j).type = (ino j).type := by
    intro j
    by_cases hj : j = i
    · subst hj
      rw [hfields]
    · rw [hother j hj]
  refine ⟨(h.alloc hpos h0 hlt hb).congr hle (fun s => by rw [hst]) hbits,hother,hfields,
    ?_,?_,hmeta⟩
  · intro s hs
    have hne : s ≠ (i,k) := by
      rintro rfl
      exact hs h0
    rw [hst,update_of_ne hne]
  · intro j hj ht x
    have hblk : (ino j).blk d (x / BSIZE) = stored ino d (j,place (x / BSIZE)) :=
      (stored_eq hj ht).symm
    have hblk' : (ino' j).blk d' (x / BSIZE) = stored ino' d' (j,place (x / BSIZE)) :=
      (stored_eq hj (by rw [htype]; exact ht)).symm
    unfold byteAt
    rw [hblk,hblk',hst]
    by_cases hs : (j,place (x / BSIZE)) = (i,k)
    · -- the new block is zero, as the hole was
      rw [hs,update_self,h0,if_pos rfl,hz,Bytes.byte_zero]
      simp
    · rw [update_of_ne hs]
      by_cases hn : stored ino d (j,place (x / BSIZE)) = 0
      · rw [if_pos hn,if_pos hn]
      · rw [if_neg hn,if_neg hn,hd _ (place_ne _) hn]

end Extends

section Alloc
variable {ino : ℕ → Dinode} {d : Disk} {i b : ℕ}

/-- `addrs[k] = balloc()` for the direct blocks and the indirect block. -/
theorem Extends.addr (h : Owned ino d) (hi : i < NINODES) (ht : (ino i).type ≠ 0) {k : ℕ}
    (hk : k ≤ NDIRECT) (h0 : (ino i).addr k = 0) (hb : bitAt d b = false) (hlt : b < FSSIZE) :
    Extends i ino d (update ino i ((ino i).setAddr k (UInt32.ofNat b))) (allocated d b) := by
  have hge := h.free_ge hb hlt
  have hbn : (UInt32.ofNat b).toNat = b := by
    simp only [FSSIZE] at hlt
    exact UInt32.toNat_ofNat_of_lt' (by simp only [UInt32.size]; omega)
  have hk' : k < NDIRECT + 1 := by omega
  have hs0 : stored ino d (i,k) = 0 := by
    rw [stored_eq hi ht,ptr_direct hk,h0]
    rfl
  refine Extends.of_stored h hs0 hb hlt ?_ ?_ ?_ (fun c hc => bitAt_allocated (by omega) hc)
    allocated_self ?_ ?_
  · intro j hj
    exact update_of_ne hj _ _
  · rw [update_self]
    rfl
  · rw [← h.stored_allocated hb hlt]
    funext s
    obtain ⟨j,l⟩ := s
    by_cases hj : j = i
    · subst hj
      rw [stored_eq hi (by rw [update_self]; exact ht),update_self]
      by_cases hl : l = k
      · subst hl
        rw [ptr_direct hk,addr_setAddr_self _ _ hk',update_self,hbn]
      · rw [update_of_ne (by simpa using hl),stored_eq hi ht]
        by_cases hle : l ≤ NDIRECT
        · rw [ptr_direct hle,ptr_direct hle,addr_setAddr_ne _ _ hl]
        · by_cases hkd : k = NDIRECT
          · -- the new indirect block is zero
            subst hkd
            have ha : ((ino j).setAddr NDIRECT (UInt32.ofNat b)).addr NDIRECT = UInt32.ofNat b :=
              addr_setAddr_self _ _ hk'
            have hb0 : UInt32.ofNat b ≠ 0 := by
              intro hc
              rw [hc] at hbn
              simp at hbn
              omega
            rw [ptr_indirect (by omega) (by rw [ha]; exact hb0),ha,hbn,allocated_self,
              Bytes.word_zero,ptr,if_neg hle,if_pos h0]
            rfl
          · have ha : ((ino j).setAddr k (UInt32.ofNat b)).addr NDIRECT = (ino j).addr NDIRECT :=
              addr_setAddr_ne _ _ (Ne.symm hkd)
            unfold ptr
            rw [if_neg hle,if_neg hle,ha]
    · rw [update_of_ne (by simp [hj])]
      unfold stored
      simp only [update_of_ne hj]
  · intro s _ hs
    have harea := h.area s hs
    rw [nmeta_eq] at harea
    exact allocated_ne ((h.free_block hb hlt).2 s) (by omega)
  · intro c hc
    exact allocated_ne (by omega) (by omega)

/-- `a[m] = balloc()` in the indirect block. -/
theorem Extends.indirect (h : Owned ino d) (hi : i < NINODES) (ht : (ino i).type ≠ 0)
    {m : ℕ} (hm : m < NINDIRECT) (ha : (ino i).addr NDIRECT ≠ 0)
    (h0 : (d ((ino i).addr NDIRECT).toNat).word m = 0) (hb : bitAt d b = false) (hlt : b < FSSIZE) :
    Extends i ino d ino (update (allocated d b) ((ino i).addr NDIRECT).toNat
      ((allocated d b ((ino i).addr NDIRECT).toNat).setWord m (UInt32.ofNat b))) := by
  have hge := h.free_ge hb hlt
  have hbn : (UInt32.ofNat b).toNat = b := by
    simp only [FSSIZE] at hlt
    exact UInt32.toNat_ofNat_of_lt' (by simp only [UInt32.size]; omega)
  have hnd : NDIRECT = 12 := rfl
  have hni : NINDIRECT = 128 := rfl
  have hplace : stored ino d (i,NDIRECT) = ((ino i).addr NDIRECT).toNat := by
    rw [stored_eq hi ht,ptr_direct le_rfl]
  have hind : stored ino d (i,NDIRECT) ≠ 0 := by
    rw [hplace]
    exact toNat_ne_zero ha
  have harea := h.area _ hind
  rw [hplace,nmeta_eq] at harea
  have hneb : ((ino i).addr NDIRECT).toNat ≠ b := by
    rw [← hplace]
    exact (h.free_block hb hlt).2 _
  have hs0 : stored ino d (i,NDIRECT + 1 + m) = 0 := by
    rw [stored_eq hi ht,ptr_indirect (by omega) ha,Nat.add_sub_cancel_left,h0]
    rfl
  refine Extends.of_stored h hs0 hb hlt (fun _ _ => rfl) rfl ?_ ?_ ?_ ?_ ?_
  · rw [← h.stored_allocated hb hlt]
    funext s
    obtain ⟨j,l⟩ := s
    by_cases hs : j < NINODES ∧ (ino j).type ≠ 0
    · rw [stored_eq hs.1 hs.2]
      by_cases hji : j = i
      · subst hji
        by_cases hle : l ≤ NDIRECT
        · rw [update_of_ne (by simp; omega),stored_eq hi ht,ptr_direct hle, ptr_direct hle]
        · rw [ptr_indirect (by omega) ha,update_self]
          by_cases hlm : l = NDIRECT + 1 + m
          · subst hlm
            rw [update_self,Nat.add_sub_cancel_left,
              Bytes.word_setWord_self _ _ (by simp only [BSIZE]; omega),hbn]
          · rw [update_of_ne (by simpa using hlm),stored_eq hi ht,
              ptr_indirect (by omega) ha,Bytes.word_setWord_ne _ _ (by omega)]
      · rw [update_of_ne (by simp [hji]),stored_eq hs.1 hs.2]
        apply ptr_congr
        intro haj
        apply update_of_ne
        intro he
        -- two inodes do not share an indirect block
        have hpj : stored ino d (j,NDIRECT) = ((ino j).addr NDIRECT).toNat := by
          rw [stored_eq hs.1 hs.2,ptr_direct le_rfl]
        have := h.inj (j,NDIRECT) (i,NDIRECT) (by rw [hpj]; exact toNat_ne_zero haj)
          (by rw [hpj,hplace,he])
        exact hji (congrArg Prod.fst this)
    · have hji : j ≠ i := by
        rintro rfl
        exact hs ⟨hi,ht⟩
      rw [update_of_ne (by simp [hji])]
      simp only [stored,if_neg hs]
  · intro c hc
    rw [bitAt_update_ne (by omega),bitAt_allocated (by omega) hc]
  · rw [update_of_ne (Ne.symm hneb),allocated_self]
  · intro s hs2 hs
    have hsarea := h.area s hs
    rw [nmeta_eq] at hsarea
    have hne : stored ino d s ≠ ((ino i).addr NDIRECT).toNat := by
      rw [← hplace]
      intro he
      have := h.inj s (i,NDIRECT) hs he
      rw [this] at hs2
      exact hs2 rfl
    rw [update_of_ne hne,allocated_ne ((h.free_block hb hlt).2 s) (by omega)]
  · intro c hc
    rw [update_of_ne (by omega),allocated_ne (by omega) (by omega)]

end Alloc
end Xv6
