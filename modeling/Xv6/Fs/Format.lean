import Xv6.Lib.Bytes
import Xv6.Param

/-! # The on-disk format of `fs.h`

Blocks are arrays of bytes.  The super block, the on-disk inodes, the directory
entries, the free map and the indirect blocks are read from and written to
them at the offsets that the C structures have. -/
namespace Xv6
open LittleEndian

abbrev Block := Bytes BSIZE

abbrev Disk := ℕ → Block

structure Superblock where
  /-- size of file system image (blocks) -/
  size : ℕ
  /-- number of data blocks -/
  nblocks : ℕ
  ninodes : ℕ
  nlog : ℕ
  logstart : ℕ
  inodestart : ℕ
  bmapstart : ℕ
  deriving DecidableEq, Repr

namespace Superblock

def ofBlock (b : Block) : Superblock where
  size := (b.word 0).toNat
  nblocks := (b.word 1).toNat
  ninodes := (b.word 2).toNat
  nlog := (b.word 3).toNat
  logstart := (b.word 4).toNat
  inodestart := (b.word 5).toNat
  bmapstart := (b.word 6).toNat

/-- `memmove(buf, &sb, sizeof(sb))` into a zeroed block. -/
def toBlock (sb : Superblock) : Block :=
  ((((((Bytes.zero.setWord 0 (.ofNat sb.size)).setWord 1 (.ofNat sb.nblocks)).setWord 2
    (.ofNat sb.ninodes)).setWord 3 (.ofNat sb.nlog)).setWord 4 (.ofNat sb.logstart)).setWord 5
    (.ofNat sb.inodestart)).setWord 6 (.ofNat sb.bmapstart)

end Superblock

def ROOTINO : ℕ := 1

def NDIRECT : ℕ := 12

def NINDIRECT : ℕ := BSIZE / 4

def MAXFILE : ℕ := NDIRECT + NINDIRECT

def T_DIR : Int16 := 1

def T_FILE : Int16 := 2

def T_DEV : Int16 := 3

/-- `struct dinode`; type 0 is a free inode. -/
@[ext] structure Dinode where
  type : Int16
  major : Int16
  minor : Int16
  nlink : Int16
  size : UInt32
  addrs : Fin (NDIRECT + 1) → UInt32
  deriving DecidableEq

namespace Dinode

def sizeof : ℕ := 64

/-- `memset(dip, 0, sizeof(*dip))`. -/
def zero : Dinode := ⟨0,0,0,0,0,fun _ => 0⟩

instance : Inhabited Dinode := ⟨zero⟩

def addr (d : Dinode) (k : ℕ) : UInt32 :=
  if h : k < NDIRECT + 1 then d.addrs ⟨k,h⟩ else 0

def setAddr (d : Dinode) (k : ℕ) (a : UInt32) : Dinode :=
  { d with addrs := fun j => if j.val = k then a else d.addrs j }

/-- Byte `i` of the structure in memory. -/
def toBytes (d : Dinode) (i : ℕ) : UInt8 :=
  if i < 2 then write16 d.type.toUInt16 i
  else if i < 4 then write16 d.major.toUInt16 (i - 2)
  else if i < 6 then write16 d.minor.toUInt16 (i - 4)
  else if i < 8 then write16 d.nlink.toUInt16 (i - 6)
  else if i < 12 then write32 d.size (i - 8)
  else write32 (d.addr ((i - 12) / 4)) ((i - 12) % 4)

def ofBytes (f : ℕ → UInt8) : Dinode where
  type := (read16 f).toInt16
  major := (read16 fun i => f (2 + i)).toInt16
  minor := (read16 fun i => f (4 + i)).toInt16
  nlink := (read16 fun i => f (6 + i)).toInt16
  size := read32 fun i => f (8 + i)
  addrs := fun k => read32 fun i => f (12 + 4 * k.val + i)

theorem ofBytes_congr {f g : ℕ → UInt8} (h : ∀ i, i < sizeof → f i = g i) :
    ofBytes f = ofBytes g := by
  unfold sizeof at h
  ext1
  · exact congrArg UInt16.toInt16 (read16_congr fun i hi => h _ (by omega))
  · exact congrArg UInt16.toInt16 (read16_congr fun i hi => h _ (by omega))
  · exact congrArg UInt16.toInt16 (read16_congr fun i hi => h _ (by omega))
  · exact congrArg UInt16.toInt16 (read16_congr fun i hi => h _ (by omega))
  · exact read32_congr fun i hi => h _ (by omega)
  · funext k
    have hk : k.val < 13 := k.isLt
    exact read32_congr fun i hi => h _ (by omega)

theorem ofBytes_toBytes (d : Dinode) : ofBytes d.toBytes = d := by
  have half : ∀ (f : ℕ → UInt8) (x : Int16), (∀ i, i < 2 → f i = write16 x.toUInt16 i) →
      (read16 f).toInt16 = x := by
    intro f x h
    rw [read16_eq h,Int16.toInt16_toUInt16]
  ext1
  · apply half
    intro i hi
    simp [toBytes,hi]
  · apply half
    intro i hi
    simp [toBytes,show ¬ 2 + i < 2 by omega,show 2 + i < 4 by omega]
  · apply half
    intro i hi
    simp [toBytes,show ¬ 4 + i < 2 by omega,show ¬ 4 + i < 4 by omega,show 4 + i < 6 by omega]
  · apply half
    intro i hi
    simp [toBytes,show ¬ 6 + i < 2 by omega,show ¬ 6 + i < 4 by omega,
      show ¬ 6 + i < 6 by omega,show 6 + i < 8 by omega]
  · change read32 (fun i => d.toBytes (8 + i)) = d.size
    apply read32_eq
    intro i hi
    simp [toBytes,show ¬ 8 + i < 2 by omega,show ¬ 8 + i < 4 by omega,
      show ¬ 8 + i < 6 by omega,show ¬ 8 + i < 8 by omega,show 8 + i < 12 by omega]
  · funext k
    change read32 (fun i => d.toBytes (12 + 4 * k.val + i)) = d.addrs k
    apply read32_eq
    intro i hi
    have h1 : (12 + 4 * k.val + i - 12) / 4 = k.val := by omega
    have h2 : (12 + 4 * k.val + i - 12) % 4 = i := by omega
    simp only [toBytes,show ¬ 12 + 4 * k.val + i < 2 by omega,
      show ¬ 12 + 4 * k.val + i < 4 by omega,show ¬ 12 + 4 * k.val + i < 6 by omega,
      show ¬ 12 + 4 * k.val + i < 8 by omega,show ¬ 12 + 4 * k.val + i < 12 by omega,
      if_false,h1,h2,addr,dif_pos k.isLt]

theorem addr_setAddr_self (d : Dinode) {k : ℕ} (a : UInt32) (h : k < NDIRECT + 1) :
    (d.setAddr k a).addr k = a := by
  simp [addr,setAddr,h]

theorem addr_setAddr_ne (d : Dinode) {k j : ℕ} (a : UInt32) (h : j ≠ k) :
    (d.setAddr k a).addr j = d.addr j := by
  simp [addr,setAddr,h]

end Dinode

/-- Inodes per block. -/
def IPB : ℕ := BSIZE / Dinode.sizeof

/-- Block containing inode `i`. -/
def IBLOCK (i : ℕ) (sb : Superblock) : ℕ := i / IPB + sb.inodestart

/-- Bitmap bits per block. -/
def BPB : ℕ := BSIZE * 8

/-- Block of free map containing bit for block `b`. -/
def BBLOCK (b : ℕ) (sb : Superblock) : ℕ := b / BPB + sb.bmapstart

/-- `(struct dinode*)bp->data + k`. -/
def Block.dinode (b : Block) (k : ℕ) : Dinode :=
  Dinode.ofBytes fun i => b.byte (Dinode.sizeof * k + i)

def Block.setDinode (b : Block) (k : ℕ) (d : Dinode) : Block :=
  b.splice (Dinode.sizeof * k) Dinode.sizeof d.toBytes

theorem Block.dinode_setDinode_self (b : Block) {k : ℕ} (d : Dinode) (h : k < IPB) :
    (b.setDinode k d).dinode k = d := by
  conv_rhs => rw [← d.ofBytes_toBytes]
  apply Dinode.ofBytes_congr
  intro i hi
  simp only [IPB,BSIZE,Dinode.sizeof] at h hi
  rw [setDinode,Bytes.byte_splice_in]
  · congr 1
    simp only [Dinode.sizeof]
    omega
  · simp only [BSIZE,Dinode.sizeof]
    omega
  · omega
  · simp only [Dinode.sizeof]
    omega

theorem Block.dinode_setDinode_ne (b : Block) {k j : ℕ} (d : Dinode) (h : j ≠ k) :
    (b.setDinode k d).dinode j = b.dinode j := by
  apply Dinode.ofBytes_congr
  intro i hi
  simp only [Dinode.sizeof] at hi
  rw [setDinode,Bytes.byte_splice_out]
  simp only [Dinode.sizeof]
  omega

def DIRSIZ : ℕ := 14

@[ext] structure Dirent where
  inum : UInt16
  name : Bytes DIRSIZ
  deriving DecidableEq

namespace Dirent

def sizeof : ℕ := 16

def zero : Dirent := ⟨0,Bytes.zero⟩

def toBytes (e : Dirent) (i : ℕ) : UInt8 :=
  if i < 2 then write16 e.inum i else e.name.byte (i - 2)

def ofBytes (f : ℕ → UInt8) : Dirent where
  inum := read16 f
  name := Bytes.tabulate fun i => f (2 + i)

theorem ofBytes_congr {f g : ℕ → UInt8} (h : ∀ i, i < sizeof → f i = g i) :
    ofBytes f = ofBytes g := by
  unfold sizeof at h
  ext1
  · exact read16_congr fun i hi => h _ (by omega)
  · apply Bytes.ext
    intro i hi
    have hi' : i < 14 := hi
    simp only [ofBytes,Bytes.byte_tabulate _ hi]
    exact h _ (by omega)

theorem ofBytes_toBytes (e : Dirent) : ofBytes e.toBytes = e := by
  ext1
  · apply read16_eq
    intro i hi
    simp [toBytes,hi]
  · apply Bytes.ext
    intro i hi
    have h2 : ¬ 2 + i < 2 := by omega
    simp only [ofBytes,Bytes.byte_tabulate _ hi,toBytes,if_neg h2,Nat.add_sub_cancel_left]

end Dirent

/-- `1 << (bi % 8)`. -/
def bitMask (bi : ℕ) : UInt8 := 1 <<< UInt8.ofNat (bi % 8)

/-- `(bp->data[bi / 8] & m) != 0`. -/
def Block.bit (b : Block) (bi : ℕ) : Bool := b.byte (bi / 8) &&& bitMask bi != 0

/-- `bp->data[bi / 8] |= m`. -/
def Block.setBit (b : Block) (bi : ℕ) : Block :=
  b.splice (bi / 8) 1 fun _ => b.byte (bi / 8) ||| bitMask bi

/-- `bp->data[bi / 8] &= ~m`. -/
def Block.clearBit (b : Block) (bi : ℕ) : Block :=
  b.splice (bi / 8) 1 fun _ => b.byte (bi / 8) &&& ~~~ bitMask bi

namespace Block
variable (b : Block) {bi bj : ℕ}

theorem bit_eq_testBit : b.bit bi = (b.byte (bi / 8)).toNat.testBit (bi % 8) :=
  ByteBit.and_mask _ (Nat.mod_lt _ (by omega))

theorem bit_setBit (hj : bj < BPB) : (b.setBit bi).bit bj = (b.bit bj || decide (bi = bj)) := by
  simp only [BPB,BSIZE] at hj
  rw [bit_eq_testBit,bit_eq_testBit,setBit]
  by_cases h : bj / 8 = bi / 8
  · rw [Bytes.byte_splice_in _ _ (by simp only [BSIZE]; omega) (by omega) (by omega),h,
      bitMask,ByteBit.testBit_or_mask _ (Nat.mod_lt _ (by omega))]
    congr 2
    rw [eq_iff_iff]
    omega
  · rw [Bytes.byte_splice_out _ _ (by omega),decide_eq_false (by omega),Bool.or_false]

theorem bit_clearBit (hj : bj < BPB) :
    (b.clearBit bi).bit bj = (b.bit bj && !decide (bi = bj)) := by
  simp only [BPB,BSIZE] at hj
  rw [bit_eq_testBit,bit_eq_testBit,clearBit]
  by_cases h : bj / 8 = bi / 8
  · rw [Bytes.byte_splice_in _ _ (by simp only [BSIZE]; omega) (by omega) (by omega),h,
      bitMask,ByteBit.testBit_and_not_mask _ (Nat.mod_lt _ (by omega)) (Nat.mod_lt _ (by omega))]
    congr 3
    rw [eq_iff_iff]
    omega
  · rw [Bytes.byte_splice_out _ _ (by omega),decide_eq_false (by omega),Bool.not_false,
      Bool.and_true]

end Block
end Xv6
