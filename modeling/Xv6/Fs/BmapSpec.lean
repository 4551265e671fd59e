import Xv6.Fs.BlockSpec

/-! # `bmap` and `itrunc`

The inode `i` is cached in slot `k`; `ino` gives the inodes, with the copy in
memory for inode `i`. -/
namespace Xv6
open Conc Dinode Inode Function
open Mkfs (NINODES)
open Finset

def Inode.withD (ip : Inode) (di : Dinode) : Inode := { ip with d := di }

@[simp] theorem Inode.withD_d (ip : Inode) (di : Dinode) : (ip.withD di).d = di := rfl

@[simp] theorem Inode.withD_inum (ip : Inode) (di : Dinode) : (ip.withD di).inum = ip.inum := rfl

@[simp] theorem Inode.withD_self (ip : Inode) : ip.withD ip.d = ip := rfl

@[simp] theorem Inode.withD_withD (ip : Inode) (a b : Dinode) :
    (ip.withD a).withD b = ip.withD b := rfl

theorem Extends.ready {A : Finset ℕ} {i : ℕ} {ino ino' : ℕ → Dinode} {v v' : View}
    (h : Extends i ino v.disk ino' v'.disk) (hf : Frame A v v') (hr : Ready v) : Ready v' :=
  hf.ready hr (h.metaBlocks 1 (by omega))

/-- The number of blocks that `bmap` allocates for block `n` of the contents. -/
def Dinode.need (di : Dinode) (d : Disk) (n : ℕ) : ℕ :=
  if di.blk d n ≠ 0 then 0 else if n < NDIRECT ∨ di.addr NDIRECT ≠ 0 then 1 else 2

namespace Fs
section Bmap
variable {p : ℕ} {E : Stops} {A : Finset ℕ} {c : ℕ} {v : View}
  {o : Owners} {Q : Post ℕ} {ino : ℕ → Dinode} {i k : ℕ}

theorem toNat_ofNat_block {b : ℕ} (h : b < FSSIZE) : (UInt32.ofNat b).toNat = b := by
  simp only [FSSIZE] at h
  exact UInt32.toNat_ofNat_of_lt' (by simp only [UInt32.size]; omega)

theorem Safe.bmapAddr (h58 : 58 ∈ A) (hr : Ready v) (hs : Owned ino v.disk)
    (hi : i < NINODES) (hk : ino i = (v.inode k).d) (ht : (ino i).type ≠ 0)
    (ho : ∀ b, o (.buf b) = none) {a : ℕ} (ha : a ≤ NDIRECT)
    (hroom : (ino i).addr a = 0 → Room E A (c + 1) v)
    (hsame : (ino i).addr a ≠ 0 → Q ((ino i).addr a).toNat v o)
    (hnew : (ino i).addr a = 0 → ∀ b v', b < FSSIZE → bitAt v.disk b = false →
      Frame (insert b A) v v' → Room E (insert b A) c v' → v'.disk = allocated v.disk b →
      v'.inode = update v.inode k ((v.inode k).withD ((ino i).setAddr a (UInt32.ofNat b))) →
      Extends i ino v.disk (update ino i ((ino i).setAddr a (UInt32.ofNat b))) v'.disk →
      Q b v' o) :
    Safe p E (Fs.bmapAddr k a) Q v o := by
  refine inode_seq ?_
  rw [← hk]
  refine ite (fun h0 => ?_) fun h0 => ?_
  · have h0' : (ino i).addr a = 0 := UInt32.toNat_inj.mp h0
    refine bind (balloc (hroom h0') h58 hr hs (ho _) (fun b _ _ => ho b) ?_)
    intro b v' hlt hbit hf hroom' hd hi'
    refine bind (modifyInode (pure ?_))
    have hx := Extends.addr hs hi ht ha h0' hbit hlt
    rw [← hd] at hx
    refine hnew h0' b _ hlt hbit ?_ ⟨hroom'.log,hroom'.blocks⟩ hd ?_ hx
    · exact hf.trans (Frame.inode hf.log _)
    · rw [hi',hk]
      rfl
  · exact pure (hsame fun hc => h0 (by rw [hc]; rfl))

/-- Where the indirect block is. -/
theorem indirect_area {d : Disk} (hs : Owned ino d) (hi : i < NINODES) (ht : (ino i).type ≠ 0)
    (ha : (ino i).addr NDIRECT ≠ 0) :
    stored ino d (i,NDIRECT) = ((ino i).addr NDIRECT).toNat ∧ stored ino d (i,NDIRECT) ≠ 0 ∧
      59 ≤ ((ino i).addr NDIRECT).toNat ∧ ((ino i).addr NDIRECT).toNat < FSSIZE := by
  have hplace : stored ino d (i,NDIRECT) = ((ino i).addr NDIRECT).toNat := by
    rw [stored_eq hi ht,ptr_direct le_rfl]
  have hne0 : stored ino d (i,NDIRECT) ≠ 0 := hplace ▸ toNat_ne_zero ha
  exact ⟨hplace,hne0,hplace ▸ hs.area _ hne0⟩

/-- `bmap` in the indirect block: a block that is there is returned, and a missing one
is allocated. -/
theorem Safe.bmapIndirect (h58 : 58 ∈ A) (hr : Ready v) (hs : Owned ino v.disk)
    (hi : i < NINODES) (ht : (ino i).type ≠ 0) (ha : (ino i).addr NDIRECT ≠ 0)
    (hA : ((ino i).addr NDIRECT).toNat ∈ A)
    (ho : ∀ b, b ≠ ((ino i).addr NDIRECT).toNat → o (.buf b) = none) {m : ℕ} (hm : m < NINDIRECT)
    (hroom : (v.disk ((ino i).addr NDIRECT).toNat).word m = 0 → Room E A (c + 1) v)
    (hsame : (v.disk ((ino i).addr NDIRECT).toNat).word m ≠ 0 →
      Q ((v.disk ((ino i).addr NDIRECT).toNat).word m).toNat v o)
    (hnew : (v.disk ((ino i).addr NDIRECT).toNat).word m = 0 → ∀ b v', b < FSSIZE →
      bitAt v.disk b = false → Frame (insert b A) v v' → Room E (insert b A) c v' →
      (∀ x, x < FSSIZE → bitAt v.disk x = false → bitAt v'.disk x = true → x = b) →
      v'.inode = v.inode → Extends i ino v.disk ino v'.disk →
      (v'.disk ((ino i).addr NDIRECT).toNat).word m = UInt32.ofNat b → Q b v' o) :
    Safe p E (Fs.bmapIndirect ((ino i).addr NDIRECT).toNat m) Q v o := by
  obtain ⟨hplace,-,harea⟩ := indirect_area hs hi ht ha
  refine data_seq ?_
  refine ite (fun h0 => ?_) fun h0 => ?_
  · have h0' : (v.disk ((ino i).addr NDIRECT).toNat).word m = 0 := UInt32.toNat_inj.mp h0
    have hfree : ∀ b, b < FSSIZE → bitAt v.disk b = false → o (.buf b) = none := by
      intro b hlt hbit
      refine ho b fun hc => (hs.free_block hbit hlt).2 (i,NDIRECT) ?_
      rw [hplace,hc]
    refine bind (balloc (hroom h0') h58 hr hs (ho _ (by rw [bmapstart_eq]; omega))
      hfree ?_)
    intro b v1 hlt hbit hf1 hroom1 hd1 hi1
    have hkeep : ∀ x, freeCount (update v1.disk ((ino i).addr NDIRECT).toNat x)
        = freeCount v1.disk := by
      intro x
      refine freeCount_congr ?_
      rw [update_of_ne (by omega)]
    refine data_seq (bind (setData ?_))
    refine bind (logWrite (hroom1.frame (Frame.disk hf1.log _) (hkeep _).ge) hf1.log
      ⟨.inr (by omega),harea.2⟩ (mem_insert_of_mem hA) fun v2 hf2 hd2 hi2 => ?_)
    refine pure ?_
    have hx := Extends.indirect hs hi ht hm ha h0' hbit hlt
    have hd : v2.disk = update (allocated v.disk b) ((ino i).addr NDIRECT).toNat
        ((allocated v.disk b ((ino i).addr NDIRECT).toNat).setWord m (UInt32.ofNat b)) := by
      rw [hd2,hd1]
    rw [← hd] at hx
    have hf : Frame (insert b A) v1 v2 := (Frame.disk hf1.log _).trans hf2
    refine hnew h0' b v2 hlt hbit (hf1.trans hf) (hroom1.frame hf ?_) (fun x hxl hx0 hx1 => ?_)
      (hi2.trans hi1) hx ?_
    · rw [hd2]
      exact (hkeep _).ge
    · rw [hd,bitAt_update_ne (by omega)] at hx1
      have hge := hs.free_ge hbit hlt
      exact eq_of_marked (by omega) hxl hx0 hx1
    · rw [hd,update_self,Bytes.word_setWord_self]
      have hni : NINDIRECT = 128 := rfl
      simp only [BSIZE]
      omega
  · exact pure (hsame fun hc => h0 (by rw [hc]; rfl))

theorem blk_direct {di : Dinode} {d : Disk} {n : ℕ} (hn : n < NDIRECT) :
    di.blk d n = (di.addr n).toNat := by
  rw [blk,place,if_pos hn,ptr_direct (by omega)]

theorem blk_indirect {di : Dinode} {d : Disk} {n : ℕ} (hn : ¬ n < NDIRECT)
    (ha : di.addr NDIRECT ≠ 0) :
    di.blk d n = ((d (di.addr NDIRECT).toNat).word (n - NDIRECT)).toNat := by
  rw [blk,place,if_neg hn,ptr_indirect (by omega) ha,Nat.add_sub_add_right]

theorem blk_eq_zero {di : Dinode} {d : Disk} {n : ℕ} (hn : ¬ n < NDIRECT)
    (ha : di.addr NDIRECT = 0) : di.blk d n = 0 := by
  have hnd : NDIRECT = 12 := rfl
  rw [blk,place,if_neg hn,ptr,if_neg (by omega),if_pos ha]

/-- The blocks `A` with those that `bmap` has allocated for block `n`; `d₀` is the disk
before. -/
structure Grown (A : Finset ℕ) (d₀ : Disk) (di : Dinode) (d : Disk) (n : ℕ) (A' : Finset ℕ) :
    Prop where
  base : A ⊆ A'
  blk : di.blk d n ∈ A'
  indirect : di.addr NDIRECT ≠ 0 → (di.addr NDIRECT).toNat ∈ A'
  only : ∀ b ∈ A', b ∈ A ∨ (di.addr NDIRECT ≠ 0 ∧ b = (di.addr NDIRECT).toNat) ∨ b = di.blk d n
  marked : ∀ b, b < FSSIZE → bitAt d₀ b = false → bitAt d b = true → b ∈ A'

theorem Grown.refl {d : Disk} {di : Dinode} {n : ℕ} (hb : di.blk d n ∈ A)
    (hind : di.addr NDIRECT ≠ 0 → (di.addr NDIRECT).toNat ∈ A) : Grown A d di d n A :=
  ⟨subset_rfl,hb,hind,fun _ hx => .inl hx,fun _ _ h0 h1 => absurd (h0.symm.trans h1) nofun⟩

/-- Block `b` has been allocated, after the blocks `A₁`. -/
theorem Grown.insert {A₁ : Finset ℕ} {d₀ d : Disk} {di : Dinode} {n b : ℕ} (hb : di.blk d n = b)
    (hA : A ⊆ A₁) (hind : di.addr NDIRECT ≠ 0 → (di.addr NDIRECT).toNat ∈ A₁)
    (honly : ∀ x ∈ A₁, x ∈ A ∨ (di.addr NDIRECT ≠ 0 ∧ x = (di.addr NDIRECT).toNat))
    (hmark : ∀ x, x < FSSIZE → bitAt d₀ x = false → bitAt d x = true → x = b ∨ x ∈ A₁) :
    Grown A d₀ di d n (insert b A₁) where
  base := hA.trans (subset_insert b A₁)
  blk := hb ▸ mem_insert_self b A₁
  indirect ha := mem_insert_of_mem (hind ha)
  only x hx := by
    rcases mem_insert.1 hx with rfl | hx
    · exact .inr (.inr hb.symm)
    · exact (honly x hx).imp_right .inl
  marked x hlt h0 h1 := mem_insert.2 (hmark x hlt h0 h1)

/-- `bmap` returns a block that is there and changes nothing, and allocates a missing
one. -/
theorem Safe.bmap (h58 : 58 ∈ A) (hr : Ready v) (hs : Owned ino v.disk)
    (hi : i < NINODES) (hk : ino i = (v.inode k).d) (ht : (ino i).type ≠ 0)
    (ho : ∀ b, o (.buf b) = none) {n : ℕ} (hlt : n < MAXFILE)
    (hind : (ino i).addr NDIRECT ≠ 0 → ((ino i).addr NDIRECT).toNat ∈ A)
    (hroom : (ino i).blk v.disk n = 0 → Room E A (c + (ino i).need v.disk n) v)
    (hsame : (ino i).blk v.disk n ≠ 0 → Q ((ino i).blk v.disk n) v o)
    (hnew : (ino i).blk v.disk n = 0 → ∀ di' v' A', Grown A v.disk di' v'.disk n A' → Frame A' v v' →
      Room E A' c v' → v'.inode = update v.inode k ((v.inode k).withD di') →
      Extends i ino v.disk (update ino i di') v'.disk → di'.blk v'.disk n ≠ 0 →
      Q (di'.blk v'.disk n) v' o) :
    Safe p E (Fs.bmap k n) Q v o := by
  have hnd : NDIRECT = 12 := rfl
  have hni : NINDIRECT = 128 := rfl
  have hmf : MAXFILE = 140 := rfl
  refine ite (fun hn => ?_) fun hn => ?_
  · have hblk : (ino i).blk v.disk n = ((ino i).addr n).toNat := blk_direct hn
    have hz : (ino i).addr n = 0 → (ino i).blk v.disk n = 0 := fun h0 => by rw [hblk,h0]; rfl
    refine bmapAddr (c := c) h58 hr hs hi hk ht ho (by omega) (fun h0 => ?_) ?_ ?_
    · have := hroom (hz h0)
      rwa [need,if_neg (by simp [hz h0]),if_pos (.inl hn)] at this
    · intro h0
      rw [← hblk]
      exact hsame (by rw [hblk]; exact toNat_ne_zero h0)
    · intro h0 b v' hlt hbit hf hroom' hd hin hx
      have hge := hs.free_ge hbit hlt
      have hb : ((ino i).setAddr n (UInt32.ofNat b)).blk v'.disk n = b := by
        rw [blk_direct hn,addr_setAddr_self _ _ (by omega),toNat_ofNat_block hlt]
      have hsa : ((ino i).setAddr n (UInt32.ofNat b)).addr NDIRECT = (ino i).addr NDIRECT :=
        addr_setAddr_ne _ _ (by omega)
      have hgr : Grown A v.disk ((ino i).setAddr n (UInt32.ofNat b)) v'.disk n (insert b A) :=
        .insert hb subset_rfl (by rwa [hsa]) (fun x hx => .inl hx)
          fun x hxl hx0 hx1 => .inl (eq_of_marked (by omega) hxl hx0 (hd ▸ hx1))
      have := hnew (hz h0) _ v' _ hgr hf hroom' hin hx (by rw [hb]; omega)
      rwa [hb] at this
  refine ite (fun hm => ?_) fun hc => absurd (by omega) hc
  -- what the second half does once the indirect block is there
  have tail : ∀ (di : Dinode) (v1 : View) (A1 : Finset ℕ), di.addr NDIRECT ≠ 0 → A ⊆ A1 →
      (di.addr NDIRECT).toNat ∈ A1 → (∀ b ∈ A1, b ∈ A ∨ b = (di.addr NDIRECT).toNat) →
      (∀ b, b < FSSIZE → bitAt v.disk b = false → bitAt v1.disk b = true → b ∈ A1) →
      Frame A1 v v1 → ((ino i).blk v.disk n = 0 → Room E A1 (c + 1) v1) →
      v1.inode = update v.inode k ((v.inode k).withD di) →
      Extends i ino v.disk (update ino i di) v1.disk →
      ((ino i).blk v.disk n = 0 → di.blk v1.disk n = 0) →
      ((ino i).blk v.disk n ≠ 0 → v1 = v ∧ di = ino i) →
      Safe p E (do
        Fs.bread (di.addr NDIRECT).toNat
        let a ← Fs.bmapIndirect (di.addr NDIRECT).toNat (n - NDIRECT)
        Fs.brelse (di.addr NDIRECT).toNat
        return a) Q v1 o := by
    intro di v1 A1 ha hA1 hmem honly hmark hf1 hroom1 hin1 hx₁ hzero hold
    have hdi : update ino i di i = di := update_self ..
    have ht1 : (update ino i di i).type ≠ 0 := by
      rw [hx₁.type_eq]
      exact ht
    obtain ⟨-,-,harea⟩ := indirect_area hx₁.owned hi ht1 (by rwa [hdi])
    rw [hdi] at harea
    have hbi := blk_indirect (d := v1.disk) hn ha
    have hword : (v1.disk (di.addr NDIRECT).toNat).word (n - NDIRECT) = 0 ↔
        (ino i).blk v.disk n = 0 := by
      constructor
      · intro hw
        by_contra hno
        obtain ⟨rfl,rfl⟩ := hold hno
        rw [hbi,hw] at hno
        exact hno rfl
      · intro h0
        exact UInt32.toNat_inj.mp (hbi.symm.trans (hzero h0))
    refine bind (bread harea.2 (ho _) ?_)
    refine bind ?_
    have ho1 : ∀ b, b ≠ (di.addr NDIRECT).toNat →
        update o (.buf (di.addr NDIRECT).toNat) (some p) (.buf b) = none := by
      intro b hb
      rw [update_of_ne (by simpa using hb),ho]
    have hfin : ∀ r v', Q r v' o → Safe p E (do
        Fs.brelse (di.addr NDIRECT).toNat
        return r) Q v' (update o (.buf (di.addr NDIRECT).toNat) (some p)) := by
      intro r v' hq
      refine bind (release (ho _) (pure ?_))
      exact hq
    have key := bmapIndirect (p := p) (E := E) (A := A1) (c := c)
        (Q := fun r v' o' => Safe p E (do
        Fs.brelse (di.addr NDIRECT).toNat
        return r) Q v' o') (hA1 h58) (hx₁.ready hf1 hr) hx₁.owned hi ht1 (by rw [hdi]; exact ha)
        (by rw [hdi]; exact hmem) (by rw [hdi]; exact ho1) hm
    rw [hdi] at key
    refine key (fun hw => hroom1 (hword.mp hw)) ?_ ?_
    · intro hw
      have hno : (ino i).blk v.disk n ≠ 0 := fun h0 => hw (hword.mpr h0)
      rw [← hbi]
      apply hfin
      obtain ⟨rfl,rfl⟩ := hold hno
      exact hsame hno
    · intro hw b v2 hlt hbit hf2 hroom2 hmark2 hin2 hx₂ hword'
      apply hfin
      have hge := hx₁.owned.free_ge hbit hlt
      have hb : di.blk v2.disk n = b := by
        rw [blk_indirect hn ha,hword',toNat_ofNat_block hlt]
      have hgr : Grown A v.disk di v2.disk n (insert b A1) := by
        refine .insert hb hA1 (fun _ => hmem) (fun x hx => (honly x hx).imp_right fun h => ⟨ha,h⟩) ?_
        intro x hxl hx0 hx2
        cases hx1 : bitAt v1.disk x with
        | true => exact .inr (hmark x hxl hx0 hx1)
        | false => exact .inl (hmark2 x hxl hx1 hx2)
      have := hnew (hword.mp hw) di v2 _ hgr ((hf1.mono (subset_insert b A1)).trans hf2) hroom2
        (hin2.trans hin1) (hx₁.trans hx₂) (by rw [hb]; omega)
      rwa [hb] at this
  refine bind (bmapAddr (c := c + 1) h58 hr hs hi hk ht ho le_rfl (fun ha => ?_) ?_ ?_)
  · have hz := blk_eq_zero (d := v.disk) hn ha
    have := hroom hz
    rwa [need,if_neg (by simp [hz]),if_neg (by simp [hn,ha])] at this
  · intro ha
    refine tail (ino i) v A ha subset_rfl (hind ha) (fun b hb => .inl hb)
      (fun b _ h0 h1 => absurd (h0.symm.trans h1) nofun) (Frame.refl hr.log) (fun h0 => ?_) ?_ ?_ id fun _ => ⟨rfl,rfl⟩
    · have := hroom h0
      rwa [need,if_neg (by simp [h0]),if_pos (.inr ha)] at this
    · rw [hk,withD_self,update_eq_self]
    · rw [update_eq_self]
      exact Extends.refl hs
  · intro h0 b v1 hlt hbit hf1 hroom1 hd1 hin1 hx₁
    have hge := hs.free_ge hbit hlt
    have haddr : ((ino i).setAddr NDIRECT (UInt32.ofNat b)).addr NDIRECT = UInt32.ofNat b :=
      addr_setAddr_self _ _ (by omega)
    have hb : (UInt32.ofNat b).toNat = b := toNat_ofNat_block hlt
    have ha : UInt32.ofNat b ≠ 0 := by
      intro hc
      rw [hc] at hb
      simp at hb
      omega
    have := tail _ v1 (insert b A) (by rw [haddr]; exact ha) (subset_insert b A)
      (by rw [haddr,hb]; exact mem_insert_self b A)
      (fun x hx => by
        rw [haddr,hb]
        exact (mem_insert.mp hx).symm)
      (fun x hxl hx0 hx1 => by
        rw [hd1] at hx1
        rw [eq_of_marked (by omega) hxl hx0 hx1]
        exact mem_insert_self b A) hf1 (fun _ => hroom1) hin1 hx₁
      (fun _ => by
        -- the new indirect block is zero
        rw [blk_indirect hn (by rw [haddr]; exact ha),haddr,hb,hd1,allocated_self,
          Bytes.word_zero]
        rfl)
      (fun hc => absurd (blk_eq_zero hn h0) hc)
    rw [haddr,hb] at this
    exact this

end Bmap

section Itrunc
variable {p : ℕ} {E : Stops} {A : Finset ℕ} {v : View} {o : Owners}
  {ino : ℕ → Dinode} {i k : ℕ}

/-- How far `itrunc` has come: the places `z` are empty, the free map has changed and
the inode in memory is `di`. -/
structure Truncating (A : Finset ℕ) (v : View) (ino : ℕ → Dinode) (i k : ℕ) (z : ℕ → Bool) (di : Dinode)
    (v' : View) : Prop where
  frame : Frame A v v'
  disk : ∀ c, c ≠ 58 → v'.disk c = v.disk c
  inode : v'.inode = update v.inode k ((v.inode k).withD di)
  owns : Owns (emptied (stored ino v.disk) i z) (bitAt v'.disk) Mkfs.nmeta FSSIZE

theorem Truncating.ready {z : ℕ → Bool} {di : Dinode} {v' : View}
    (h : Truncating A v ino i k z di v') (hr : Ready v) : Ready v' :=
  h.frame.ready hr (h.disk 1 (by omega))

theorem Truncating.room {z : ℕ → Bool} {di : Dinode} {v' : View}
    (h : Truncating A v ino i k z di v') (hroom : Room E A 0 v) : Room E A 0 v' :=
  hroom.cut h.frame

theorem Truncating.bfree {z : ℕ → Bool} {di : Dinode} {v' : View} {a : ℕ}
    {Q : Post Unit} (hroom : Room E A 0 v) (h58 : 58 ∈ A) (hr : Ready v)
    (hs : Owned ino v.disk) (h : Truncating A v ino i k z di v') (hz : z a = false)
    (h0 : stored ino v.disk (i,a) ≠ 0) (ho1 : o (.buf 1) = none)
    (hom : o (.buf Mkfs.sb.bmapstart) = none)
    (hq : ∀ v'', Truncating A v ino i k (update z a true) di v'' → Q () v'' o) :
    Safe p E (Fs.bfree (stored ino v.disk (i,a))) Q v' o := by
  have harea := hs.area _ h0
  have hheld : emptied (stored ino v.disk) i z (i,a) = stored ino v.disk (i,a) := by
    simp [emptied,hz]
  have hbit : bitAt v'.disk (stored ino v.disk (i,a)) = true := by
    rw [← hheld]
    exact h.owns.bit_of_held (by rw [hheld]; exact h0)
  refine Safe.bfree (h.room hroom) h58 (h.ready hr) harea.2 hbit ho1 hom ?_
  intro v'' hf hd hi
  refine hq v'' ⟨h.frame.trans hf,?_,hi.trans h.inode,?_⟩
  · intro c hc
    rw [hd,freed_ne hc,h.disk c hc]
  · refine (Owns.empty_free h.owns hz h0).congr (by simp only [nmeta_eq,FSSIZE]; omega)
      (fun _ => rfl) ?_
    intro c hc
    rw [hd,bitAt_freed hc]

def directDone (j a : ℕ) : Bool := decide (a < j)

def indirectDone (j a : ℕ) : Bool :=
  decide (a < NDIRECT ∨ (NDIRECT + 1 ≤ a ∧ a < NDIRECT + 1 + j))

theorem update_decide {P P' : ℕ → Prop} [DecidablePred P] [DecidablePred P'] {j : ℕ}
    (h : ∀ a, P' a ↔ a = j ∨ P a) :
    update (fun a => decide (P a)) j true = fun a => decide (P' a) := by
  funext a
  by_cases ha : a = j
  · simp [ha,h]
  · simp [ha,h]

theorem directDone_succ (j : ℕ) : update (directDone j) j true = directDone (j + 1) :=
  update_decide fun a => by omega

theorem indirectDone_succ (j : ℕ) :
    update (indirectDone j) (NDIRECT + 1 + j) true = indirectDone (j + 1) :=
  update_decide fun a => by omega

theorem Safe.itruncDirect {j : ℕ} {v' : View} (hroom : Room E A 0 v) (h58 : 58 ∈ A) (hr : Ready v)
    (hs : Owned ino v.disk) (hi : i < NINODES) (ht : (ino i).type ≠ 0)
    (ho : ∀ b, o (.buf b) = none) (hj : j < NDIRECT)
    (h : Truncating A v ino i k (directDone j) ((ino i).cut j) v') :
    Safe p E (Fs.itruncDirect k j) (fun _ v'' o' =>
      Truncating A v ino i k (directDone (j + 1)) ((ino i).cut (j + 1)) v'' ∧ o' = o) v' o := by
  have hst : stored ino v.disk (i,j) = ((ino i).addr j).toNat := by
    rw [stored_eq hi ht,ptr_direct (by omega)]
  have hmem : (v'.inode k).d.addr j = (ino i).addr j := by
    rw [h.inode,update_self,withD_d,addr_cut_ge (by omega)]
  refine inode_seq ?_
  rw [hmem,← hst]
  refine whenever (fun h0 => ?_) fun h0 => ?_
  · have h0' : stored ino v.disk (i,j) ≠ 0 := by simpa using h0
    refine bind (Truncating.bfree hroom h58 hr hs h (by simp [directDone]) h0' (ho _) (ho _) ?_)
    intro v'' hv''
    refine modifyInode ⟨?_,rfl⟩
    rw [directDone_succ] at hv''
    refine ⟨hv''.frame.trans (Frame.inode hv''.frame.log _),hv''.disk,?_,hv''.owns⟩
    rw [hv''.inode,update_self,update_idem,← cut_setAddr]
    rfl
  · have h0' : stored ino v.disk (i,j) = 0 := by simpa using h0
    have ha : (ino i).addr j = 0 := UInt32.toNat_inj.mp (hst.symm.trans h0')
    refine ⟨⟨h.frame,h.disk,?_,?_⟩,rfl⟩
    · rw [h.inode,cut_succ ha]
    · rw [← directDone_succ]
      exact Owns.empty_skip h.owns h0'

theorem Safe.itruncIndirect {j : ℕ} {v' : View} (hroom : Room E A 0 v) (h58 : 58 ∈ A) (hr : Ready v)
    (hs : Owned ino v.disk) (hi : i < NINODES) (ht : (ino i).type ≠ 0)
    (ha : (ino i).addr NDIRECT ≠ 0) (ho1 : o (.buf 1) = none)
    (hom : o (.buf Mkfs.sb.bmapstart) = none) {di : Dinode}
    (h : Truncating A v ino i k (indirectDone j) di v') :
    Safe p E (Fs.itruncIndirect ((ino i).addr NDIRECT).toNat j) (fun _ v'' o' =>
      Truncating A v ino i k (indirectDone (j + 1)) di v'' ∧ o' = o) v' o := by
  have hst : stored ino v.disk (i,NDIRECT + 1 + j)
      = ((v.disk ((ino i).addr NDIRECT).toNat).word j).toNat := by
    rw [stored_eq hi ht,ptr_indirect (by omega) ha,Nat.add_sub_cancel_left]
  obtain ⟨-,-,harea⟩ := indirect_area hs hi ht ha
  refine data_seq ?_
  rw [h.disk _ (by omega),← hst]
  refine whenever (fun h0 => ?_) fun h0 => ?_
  · have h0' : stored ino v.disk (i,NDIRECT + 1 + j) ≠ 0 := by simpa using h0
    refine Truncating.bfree hroom h58 hr hs h (by simp [indirectDone]; omega) h0' ho1 hom ?_
    intro v'' hv''
    rw [indirectDone_succ] at hv''
    exact ⟨hv'',rfl⟩
  · have h0' : stored ino v.disk (i,NDIRECT + 1 + j) = 0 := by simpa using h0
    refine ⟨⟨h.frame,h.disk,h.inode,?_⟩,rfl⟩
    rw [← indirectDone_succ]
    exact Owns.empty_skip h.owns h0'

/-- `itrunc` frees every block of the inode and writes it back without addresses. -/
theorem Safe.itrunc {Q : Post Unit} (hroom : Room E A 0 v)
    (h58 : 58 ∈ A) (hA : IBLOCK i Mkfs.sb ∈ A) (hr : Ready v) (hs : Owned ino v.disk) (hi : i < NINODES) (hn : (v.inode k).inum = i)
    (hk : ino i = (v.inode k).d) (ht : (ino i).type ≠ 0) (ho : ∀ b, o (.buf b) = none)
    (h : ∀ v', Frame A v v' → v'.inode = update v.inode k ((v.inode k).withD (ino i).truncated) →
      Owned (update ino i (ino i).truncated) v'.disk →
      inodeAt v'.disk = update (inodeAt v.disk) i (ino i).truncated →
      (∀ c, c ≠ 58 → c ≠ IBLOCK i Mkfs.sb → v'.disk c = v.disk c) → Q () v' o) :
    Safe p E (Fs.itrunc k) Q v o := by
  have hnd : NDIRECT = 12 := rfl
  have hni : NINDIRECT = 128 := rfl
  have start : Truncating A v ino i k (directDone 0) ((ino i).cut 0) v := by
    refine ⟨Frame.refl hr.log,fun _ _ => rfl,?_,?_⟩
    · rw [cut_zero,hk,withD_self,update_eq_self]
    · refine hs.congr (by simp only [nmeta_eq,FSSIZE]; omega) (fun s => ?_) fun _ _ => rfl
      simp [emptied,directDone]
  -- the end of `itrunc`, once every place is empty
  have finish : ∀ v1 z, (∀ a, a ≤ NDIRECT + NINDIRECT → z a = true) →
      Truncating A v ino i k z ((ino i).cut (NDIRECT + 1)) v1 →
      Safe p E (do
        Fs.modifyInode k fun ip => { ip with d := { ip.d with size := 0 } }
        Fs.iupdate k) Q v1 o := by
    intro v1 z hz h1
    have hin : update v1.inode k ((v1.inode k).withD { (v1.inode k).d with size := 0 })
        = update v.inode k ((v.inode k).withD (ino i).truncated) := by
      rw [h1.inode,update_self,update_idem,← cut_all]
      rfl
    refine bind (modifyInode ?_)
    change Safe p E _ Q { v1 with
      inode := update v1.inode k ((v1.inode k).withD { (v1.inode k).d with size := 0 }) } o
    rw [hin]
    have hf1 := h1.frame.trans (Frame.inode h1.frame.log
      (update v.inode k ((v.inode k).withD (ino i).truncated)))
    have hslot : update v.inode k ((v.inode k).withD (ino i).truncated) k
        = (v.inode k).withD (ino i).truncated := update_self ..
    refine iupdate (hroom.cut hf1) ?_ (hf1.ready hr (h1.disk 1 (by omega))) ?_ (fun b _ => ho b) ?_
    · change IBLOCK (update v.inode k _ k).inum Mkfs.sb ∈ A
      rw [hslot,withD_inum,hn]
      exact hA
    · change (update v.inode k _ k).inum < _
      rw [hslot,withD_inum,hn]
      exact hi
    intro v' hf' hd' hi'
    change v'.disk = writeInode v1.disk (update v.inode k _ k).inum
      (update v.inode k _ k).d at hd'
    rw [hslot,withD_inum,hn,withD_d] at hd'
    have how := hs.truncated h1.disk hz h1.owns
    have hlt := IBLOCK_lt hi
    refine h v' (hf1.trans hf') hi' ?_ ?_ ?_
    · rw [hd']
      exact how.writeInode hi
    · rw [hd',inodeAt_writeInode hi,inodeAt_congr fun c _ hc => h1.disk c (by omega)]
    · intro c hc hc'
      rw [hd',writeInode_ne hc',h1.disk c hc]
  unfold Fs.itrunc
  refine bind (forM_range
    (fun j v' => Truncating A v ino i k (directDone j) ((ino i).cut j) v')
    (fun j v' hj hv' => itruncDirect hroom h58 hr hs hi ht ho hj hv') start ?_)
  intro v1 h1
  have haddr : (v1.inode k).d.addr NDIRECT = (ino i).addr NDIRECT := by
    rw [h1.inode,update_self,withD_d,addr_cut_ge (by omega)]
  refine inode_seq ?_
  rw [haddr]
  by_cases ha : (ino i).addr NDIRECT = 0
  · refine bind (whenever (fun hc => ?_) fun _ => ?_)
    · rw [ha] at hc
      cases hc
    -- without an indirect block the other places are empty
    have hempty : ∀ a, NDIRECT ≤ a → stored ino v.disk (i,a) = 0 := by
      intro a hle
      rw [stored_eq hi ht,ptr]
      by_cases he : a ≤ NDIRECT
      · obtain rfl : a = NDIRECT := by omega
        rw [if_pos he,ha]
        rfl
      · rw [if_neg he,if_pos ha]
    refine finish v1 (fun _ => true) (fun _ _ => rfl) ⟨h1.frame,h1.disk,?_,?_⟩
    · rw [h1.inode,cut_succ ha]
    · refine h1.owns.congr (by simp only [nmeta_eq,FSSIZE]; omega) ?_ fun _ _ => rfl
      rintro ⟨j,a⟩
      unfold emptied
      by_cases hj : j = i
      · subst hj
        rw [if_pos ⟨rfl,rfl⟩]
        by_cases hlt : a < NDIRECT
        · rw [if_pos ⟨rfl,by simpa [directDone] using hlt⟩]
        · rw [hempty a (by omega),ite_self]
      · rw [if_neg (fun hc => hj hc.1),if_neg (fun hc => hj hc.1)]
  · obtain ⟨hplace,hne0,harea⟩ := indirect_area hs hi ht ha
    have hob : ∀ b, b < 59 → update o (.buf ((ino i).addr NDIRECT).toNat) (some p) (.buf b)
        = none := by
      intro b hb
      rw [update_of_ne (by simp; omega),ho]
    refine bind (whenever (fun _ => ?_) fun hc => ?_)
    rotate_left
    · exact absurd (by simpa using hc) (toNat_ne_zero ha)
    refine bind (bread harea.2 (ho _) ?_)
    have h1' : Truncating A v ino i k (indirectDone 0) ((ino i).cut NDIRECT) v1 := by
      refine ⟨h1.frame,h1.disk,h1.inode,?_⟩
      have he : directDone NDIRECT = indirectDone 0 := by
        funext a
        simp only [directDone,indirectDone]
        congr 1
        rw [eq_iff_iff]
        omega
      rw [← he]
      exact h1.owns
    refine bind (forM_range
      (fun j v' => Truncating A v ino i k (indirectDone j) ((ino i).cut NDIRECT) v')
      (fun j v' _ hv' => itruncIndirect hroom h58 hr hs hi ht ha (hob 1 (by omega))
        (hob _ (by rw [bmapstart_eq]; omega)) hv') h1' ?_)
    intro v2 h2
    refine bind (release (ho _) ?_)
    refine inode_seq ?_
    have haddr2 : (v2.inode k).d.addr NDIRECT = (ino i).addr NDIRECT := by
      rw [h2.inode,update_self,withD_d,addr_cut_ge (by omega)]
    rw [haddr2,← hplace]
    refine bind (Truncating.bfree hroom h58 hr hs h2 (by simp [indirectDone]) hne0 (ho _) (ho _) ?_)
    intro v3 h3
    refine modifyInode ?_
    refine finish _ (update (indirectDone NINDIRECT) NDIRECT true) ?_
      ⟨h3.frame.trans (Frame.inode h3.frame.log _),h3.disk,?_,h3.owns⟩
    · intro a hle
      by_cases he : a = NDIRECT
      · rw [he,update_self]
      · rw [update_of_ne he]
        simp only [indirectDone,decide_eq_true_eq]
        omega
    · rw [h3.inode,update_self,update_idem,← cut_setAddr]
      rfl

end Itrunc
end Fs
end Xv6
