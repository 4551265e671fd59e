import Mathlib.Data.Nat.Basic

/-! # The constants of `param.h`, `fs.h` and `stat.h`

Only the constants that some modelled function reads are listed. -/
namespace Xv6

/-- Maximum number of processes. -/
def NPROC : ℕ := 64

/-- Open files per process. -/
def NOFILE : ℕ := 16

/-- Open files per system. -/
def NFILE : ℕ := 100

/-- Maximum number of active i-nodes. -/
def NINODE : ℕ := 50

/-- Max # of blocks any FS op writes. -/
def MAXOPBLOCKS : ℕ := 10

/-- Max data blocks in on-disk log. -/
def LOGSIZE : ℕ := MAXOPBLOCKS * 3

/-- Size of disk block cache. -/
def NBUF : ℕ := MAXOPBLOCKS * 3

/-- Size of file system in blocks. -/
def FSSIZE : ℕ := 1000

/-- Block size. -/
def BSIZE : ℕ := 512

end Xv6
