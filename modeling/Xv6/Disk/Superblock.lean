import Xv6.Param

/-!
# The superblock and the layout `mkfs` chooses

Boot block, superblock, log, inode blocks, free bit map and data blocks, in this order.
-/

namespace Xv6

abbrev FSMAGIC : Nat := 0x10203040

/-- Inodes per block; `sizeof(struct dinode)` is 64. -/
abbrev IPB : Nat := BSIZE / 64

/-- Bitmap bits per block. -/
abbrev BPB : Nat := BSIZE * 8

structure Superblock where
  magic : Nat
  /-- size of the file system image in blocks -/
  size : Nat
  /-- number of data blocks -/
  nblocks : Nat
  ninodes : Nat
  nlog : Nat
  /-- block number of the first log block -/
  logstart : Nat
  /-- block number of the first inode block -/
  inodestart : Nat
  /-- block number of the first free map block -/
  bmapstart : Nat
  deriving DecidableEq

/-- `IBLOCK(i, sb)`: the block containing inode `i`. -/
def Superblock.iblock (sb : Superblock) (i : Nat) : Nat := i / IPB + sb.inodestart

/-- `BBLOCK(b, sb)`: the block of the free map containing the bit for block `b`. -/
def Superblock.bblock (sb : Superblock) (b : Nat) : Nat := b / BPB + sb.bmapstart

namespace Mkfs

abbrev NINODES : Nat := 200

def nbitmap : Nat := FSSIZE / BPB + 1

def ninodeblocks : Nat := NINODES / IPB + 1

def nlog : Nat := LOGSIZE

/-- Number of meta blocks: boot, superblock, log, inodes, bitmap. -/
def nmeta : Nat := 2 + nlog + ninodeblocks + nbitmap

def nblocks : Nat := FSSIZE - nmeta

/-- The superblock that `mkfs` writes into block 1. -/
def sb : Superblock where
  magic := FSMAGIC
  size := FSSIZE
  nblocks := nblocks
  ninodes := NINODES
  nlog := nlog
  logstart := 2
  inodestart := 2 + nlog
  bmapstart := 2 + nlog + ninodeblocks

end Mkfs

end Xv6
