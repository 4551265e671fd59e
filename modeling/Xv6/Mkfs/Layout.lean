import Xv6.Fs.Format

/-! # The disk layout that `mkfs.c` chooses

`[ boot block | sb block | log | inode blocks | free bit map | data blocks ]` -/
namespace Xv6.Mkfs

def NINODES : ℕ := 200

def nlog : ℕ := LOGSIZE

def logstart : ℕ := 2

def inodestart : ℕ := 2 + nlog

def nbitmap : ℕ := FSSIZE / (BSIZE * 8) + 1

def ninodeblocks : ℕ := NINODES / IPB + 1

/-- The number of meta blocks (boot, sb, nlog, inode, bitmap). -/
def nmeta : ℕ := 2 + nlog + ninodeblocks + nbitmap

def sb : Superblock where
  size := FSSIZE
  nblocks := FSSIZE - nmeta
  ninodes := NINODES
  nlog := nlog
  logstart := logstart
  inodestart := inodestart
  bmapstart := 2 + nlog + ninodeblocks

end Xv6.Mkfs
