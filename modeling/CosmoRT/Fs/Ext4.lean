import CosmoRT.Lib.BitScan

/-!
# An ext4 file system: `fs/ext4.c`

The state of a mounted file system and its two allocators.  The disk is a map from block number
and offset to a byte; block numbers are those of the file system.  Bitmaps and inode tables lie
on it where the group descriptors say.

The descriptors are one table: `read_group_desc` and `write_group_desc` use the cache for up to
4096 groups and the table on disk otherwise.  The inode cache holds what the disk holds and is
left out.  Reads of a block succeed (`bcache_get_inst` returns an entry).  Block and inode numbers
are natural numbers; the counters have the widths of the source.
-/

namespace CosmoRT.Fs

open Lib Function

/-- `struct ext4_group_desc`. -/
structure GroupDesc where
  blockBitmap : ℕ
  inodeBitmap : ℕ
  inodeTable : ℕ
  freeBlocks : BitVec 16
  freeInodes : BitVec 16
  usedDirs : BitVec 16
  deriving DecidableEq, Repr

/-- What the superblock says about the layout. -/
structure Geometry where
  blockSize : ℕ
  blocksCount : ℕ
  firstDataBlock : ℕ
  blocksPerGroup : ℕ
  inodesPerGroup : ℕ
  inodeSize : ℕ
  deriving DecidableEq, Repr

/-- `group_count`, as `ext4_mount_inst` computes it; the first data block is not subtracted. -/
def Geometry.groupCount (geo : Geometry) : ℕ :=
  (geo.blocksCount + geo.blocksPerGroup - 1) % 2 ^ 32 / geo.blocksPerGroup

/-- Block number and offset to byte. -/
abbrev Disk := ℕ → ℕ → UInt8

/-- `struct ext4_fs` of a mounted file system. -/
structure Ext4 where
  geo : Geometry
  freeBlocks : BitVec 32
  freeInodes : BitVec 32
  gd : ℕ → GroupDesc
  disk : Disk

/-! ## The disk -/

/-- `n` bytes of a block, set by `kmemcpy` or `kmemset`. -/
def Disk.write (d : Disk) (block off : ℕ) (bytes : List UInt8) : Disk :=
  update d block fun i =>
    if off ≤ i ∧ i < off + bytes.length then bytes.getD (i - off) 0 else d block i

/-- A block of zeros. -/
def Disk.zero (d : Disk) (block size : ℕ) : Disk := d.write block 0 (List.replicate size 0)

section

variable (fs : Ext4)

/-- `write_group_desc`. -/
def Ext4.setGd (g : ℕ) (gd : GroupDesc) : Ext4 :=
  { fs with gd := update fs.gd g gd }

/-! ## Blocks -/

/-- Set or clear bit `idx` of the block bitmap of group `g`. -/
def Ext4.putBlockBit (g idx : ℕ) (v : Bool) : Ext4 :=
  let bits := fs.geo.blockSize * 8
  let bmBlk := (fs.gd g).blockBitmap + idx / bits
  { fs with disk := update fs.disk bmBlk (putBit (fs.disk bmBlk) (idx % bits) v) }

/-- The search in one group: bitmap block by bitmap block. -/
def Ext4.findBlock (g : ℕ) : Option ℕ :=
  let bits := fs.geo.blockSize * 8
  (List.range ((fs.geo.blocksPerGroup + bits - 1) / bits)).findSome? fun k =>
    let maxBit := min (fs.geo.blocksPerGroup - k * bits) bits
    (scan (fs.disk ((fs.gd g).blockBitmap + k)) (k * bits) fs.geo.blocksPerGroup (maxBit / 8)).map
      (k * bits + ·)

/-- `ext4_block_alloc_inst`; 0 is failure. -/
def ext4BlockAlloc : ℕ × Ext4 :=
  if fs.freeBlocks = 0 then (0, fs)
  else
    match findGroup fs.geo.groupCount (fun g => (fs.gd g).freeBlocks) fs.findBlock with
    | none => (0, fs)
    | some (g, idx) =>
      let blockNr := g * fs.geo.blocksPerGroup + fs.geo.firstDataBlock + idx
      let fs := fs.putBlockBit g idx true
      let fs := fs.setGd g { fs.gd g with freeBlocks := (fs.gd g).freeBlocks - 1 }
      (blockNr, { fs with
        freeBlocks := fs.freeBlocks - 1
        disk := fs.disk.zero blockNr fs.geo.blockSize })

/-- `ext4_block_free_inst`. -/
def ext4BlockFree (block : ℕ) : Ext4 :=
  if block = 0 then fs
  else
    let adjBlock := (block + 2 ^ 32 - fs.geo.firstDataBlock) % 2 ^ 32
    let group := adjBlock / fs.geo.blocksPerGroup
    let index := adjBlock % fs.geo.blocksPerGroup
    if group ≥ fs.geo.groupCount then fs
    else
      let fs := fs.putBlockBit group index false
      let fs := fs.setGd group { fs.gd group with freeBlocks := (fs.gd group).freeBlocks + 1 }
      { fs with freeBlocks := fs.freeBlocks + 1 }

/-! ## Inodes -/

/-- Block and offset of an inode. -/
def Ext4.inodePlace (ino : ℕ) : ℕ × ℕ :=
  let group := (ino - 1) / fs.geo.inodesPerGroup
  let index := (ino - 1) % fs.geo.inodesPerGroup
  ((fs.gd group).inodeTable + index * fs.geo.inodeSize / fs.geo.blockSize,
    index * fs.geo.inodeSize % fs.geo.blockSize)

/-- `ext4_inode_write_inst` with the 128 bytes of an inode. -/
def Ext4.writeInode (ino : ℕ) (bytes : List UInt8) : Ext4 :=
  { fs with disk := fs.disk.write (fs.inodePlace ino).1 (fs.inodePlace ino).2 bytes }

/-- `i_mode` of the inode on disk. -/
def Ext4.inodeMode (ino : ℕ) : BitVec 16 :=
  let p := fs.inodePlace ino
  (fs.disk p.1 (p.2 + 1)).toBitVec ++ (fs.disk p.1 p.2).toBitVec

/-- `(i_mode & EXT4_S_IFMT) == EXT4_S_IFDIR`. -/
def Ext4.isDir (ino : ℕ) : Bool := fs.inodeMode ino &&& 0xF000 = 0x4000

/-- Set or clear bit `idx` of the inode bitmap of group `g`. -/
def Ext4.putInodeBit (g idx : ℕ) (v : Bool) : Ext4 :=
  let bmBlk := (fs.gd g).inodeBitmap
  { fs with disk := update fs.disk bmBlk (putBit (fs.disk bmBlk) idx v) }

/-- The search in one group; there is one bitmap block. -/
def Ext4.findInode (g : ℕ) : Option ℕ :=
  scan (fs.disk (fs.gd g).inodeBitmap) 0 fs.geo.inodesPerGroup (fs.geo.inodesPerGroup / 8)

/-- `ext4_inode_alloc_inst`; 0 is failure. -/
def ext4InodeAlloc (isDir : Bool) : ℕ × Ext4 :=
  match findGroup fs.geo.groupCount (fun g => (fs.gd g).freeInodes) fs.findInode with
  | none => (0, fs)
  | some (g, idx) =>
    let ino := g * fs.geo.inodesPerGroup + idx + 1
    let fs := fs.putInodeBit g idx true
    let fs := fs.setGd g { fs.gd g with
      freeInodes := (fs.gd g).freeInodes - 1
      usedDirs := if isDir then (fs.gd g).usedDirs + 1 else (fs.gd g).usedDirs }
    (ino, { fs with freeInodes := fs.freeInodes - 1 }.writeInode ino (List.replicate 128 0))

/-- The inode that `ext4_inode_free_inst` leaves: all zero but for `i_dtime`. -/
def deadInode (now : BitVec 32) : List UInt8 :=
  List.replicate 20 0 ++
    [⟨now.extractLsb' 0 8⟩, ⟨now.extractLsb' 8 8⟩, ⟨now.extractLsb' 16 8⟩,
      ⟨now.extractLsb' 24 8⟩] ++ List.replicate 104 0

/-- `ext4_inode_free_inst` at the time `now`; whether it was a directory is read from the disk. -/
def ext4InodeFree (ino : ℕ) (now : BitVec 32) : Ext4 :=
  if ino = 0 then fs
  else
    let isDir := fs.isDir ino
    let group := (ino - 1) / fs.geo.inodesPerGroup
    let index := (ino - 1) % fs.geo.inodesPerGroup
    let fs := fs.putInodeBit group index false
    let fs := fs.setGd group { fs.gd group with
      freeInodes := (fs.gd group).freeInodes + 1
      usedDirs :=
        if isDir ∧ (fs.gd group).usedDirs ≠ 0 then (fs.gd group).usedDirs - 1
        else (fs.gd group).usedDirs }
    { fs with freeInodes := fs.freeInodes + 1 }.writeInode ino (deadInode now)

end

end CosmoRT.Fs
