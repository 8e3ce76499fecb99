import CosmoRT.Abi
import CosmoRT.Lib.Bytes
import CosmoRT.Fs.Ext4

/-!
# Files of an ext4 file system: `fs/ext4.c`

The block map of an inode (12 direct blocks, one indirect, one double indirect) and the two calls
that read and write the bytes of a file.  An inode is a record; the records stand for the inode
tables on the disk, so `ext4_inode_read_inst` and `ext4_inode_write_inst` read and replace one.
The blocks of a file, those that hold pointers included, lie on the disk of `Ext4`.
`file_readahead` fills a cache only and is left out.
-/

namespace CosmoRT.Fs

open Lib Function

/-- The fields of `struct ext4_inode` that file I/O uses. -/
structure Inode where
  mode : BitVec 16
  size : BitVec 32
  mtime : BitVec 32
  blocks : BitVec 32
  block : ℕ → ℕ
  dirAcl : BitVec 32

/-- A mounted file system with its inodes and `s_rev_level`. -/
structure Ext4Files where
  fs : Ext4
  revLevel : ℕ
  inode : ℕ → Inode

/-! ## The block map -/

/-- `addrs_per_block`. -/
def Geometry.addrsPerBlock (geo : Geometry) : ℕ := geo.blockSize / 4

/-- A block as an array of little-endian 32-bit numbers. -/
def Disk.ptr (d : Disk) (b i : ℕ) : ℕ :=
  (Bytes.ofBytes 32 (Bytes.read (fun x => (d b x).toBitVec) (4 * i) 4)).toNat

/-- `write_indirect_ptr` on the disk. -/
def Disk.setPtr (d : Disk) (b i v : ℕ) : Disk :=
  d.write b (4 * i) ((Bytes.toBytes 4 (BitVec.ofNat 32 v)).map UInt8.ofBitVec)

section

variable (fs : Ext4)

def Ext4.readIndirectPtr (indBlock index : ℕ) : ℕ := fs.disk.ptr indBlock index

def Ext4.writeIndirectPtr (indBlock index val : ℕ) : Ext4 :=
  { fs with disk := fs.disk.setPtr indBlock index val }

/-- `write_block` with zeros. -/
def Ext4.zeroBlock (block : ℕ) : Ext4 :=
  { fs with disk := fs.disk.zero block fs.geo.blockSize }

/-- `i_blocks += fs->block_size / 512`. -/
def Inode.countBlock (ip : Inode) (geo : Geometry) : Inode :=
  { ip with blocks := ip.blocks + BitVec.ofNat 32 (geo.blockSize / 512) }

/-- `i_block[slot]`, allocated if it is 0; a block that will hold pointers is cleared once more. -/
def slotBlock (ip : Inode) (slot : ℕ) (alloc clear : Bool) : ℕ × Ext4 × Inode :=
  if ip.block slot = 0 ∧ alloc = true then
    let r := ext4BlockAlloc fs
    if r.1 = 0 then (0, r.2, ip)
    else
      (r.1, if clear then r.2.zeroBlock r.1 else r.2,
        { ip with block := update ip.block slot r.1 }.countBlock fs.geo)
  else (ip.block slot, fs, ip)

/-- Pointer `index` of a block, allocated if it is 0. -/
def ptrBlock (ip : Inode) (indBlock index : ℕ) (alloc clear : Bool) : ℕ × Ext4 × Inode :=
  let ptr := fs.readIndirectPtr indBlock index
  if ptr = 0 ∧ alloc = true then
    let r := ext4BlockAlloc fs
    if r.1 = 0 then (0, r.2, ip)
    else
      let fs' := r.2.writeIndirectPtr indBlock index r.1
      (r.1, if clear then fs'.zeroBlock r.1 else fs', ip.countBlock fs.geo)
  else (ptr, fs, ip)

/-- `resolve_block`; 0 is a hole, a failed allocation, or a block number past the map. -/
def resolveBlock (ip : Inode) (fileBlock : ℕ) (alloc : Bool) : ℕ × Ext4 × Inode :=
  let addrs := fs.geo.addrsPerBlock
  if fileBlock < 12 then slotBlock fs ip fileBlock alloc false
  else if fileBlock - 12 < addrs then
    let r := slotBlock fs ip 12 alloc true
    if r.1 = 0 then (0, r.2)
    else ptrBlock r.2.1 r.2.2 r.1 (fileBlock - 12) alloc false
  else if fileBlock - 12 - addrs < addrs * addrs then
    let r := slotBlock fs ip 13 alloc true
    if r.1 = 0 then (0, r.2)
    else
      let r₂ := ptrBlock r.2.1 r.2.2 r.1 ((fileBlock - 12 - addrs) / addrs) alloc true
      if r₂.1 = 0 then (0, r₂.2)
      else ptrBlock r₂.2.1 r₂.2.2 r₂.1 ((fileBlock - 12 - addrs) % addrs) alloc false
  else (0, fs, ip)

/-! ## Reading and writing -/

/-- Whether the upper half of the size is kept, in `i_dir_acl`. -/
def Ext4Files.wide (s : Ext4Files) (ip : Inode) : Bool :=
  ip.mode &&& 0xF000 = 0x8000 ∧ 1 ≤ s.revLevel

/-- The size of a file. -/
def Ext4Files.fileSize (s : Ext4Files) (ip : Inode) : ℕ :=
  if s.wide ip then ip.size.toNat + ip.dirAcl.toNat * 2 ^ 32 else ip.size.toNat

/-- The loop of `ext4_read_inst`; each turn takes at least one byte, so `remaining` turns are
enough. -/
def readLoop (fs : Ext4) (ip : Inode) : ℕ → ℕ → ℕ → List UInt8
  | 0, _, _ => []
  | turns + 1, pos, remaining =>
    if remaining = 0 then []
    else
      let fileBlock := pos / fs.geo.blockSize % 2 ^ 32
      let blockOff := pos % fs.geo.blockSize
      let chunk := min (fs.geo.blockSize - blockOff) remaining
      let diskBlock := (resolveBlock fs ip fileBlock false).1
      let bytes :=
        if diskBlock = 0 then List.replicate chunk 0
        else (List.range chunk).map fun k => fs.disk diskBlock (blockOff + k)
      bytes ++ readLoop fs ip turns ((pos + chunk) % 2 ^ 64) (remaining - chunk)

end

/-- `ext4_read_inst`: the value returned and the bytes stored in the buffer. -/
def ext4Read (s : Ext4Files) (ino offset len : ℕ) : Except Errno ℤ × List UInt8 :=
  if ino = 0 then (.error .EINVAL, [])
  else
    let ip := s.inode ino
    let fileSize := s.fileSize ip
    if offset ≥ fileSize then (.ok 0, [])
    else
      let len := if (offset + len) % 2 ^ 64 > fileSize then fileSize - offset else len
      (.ok (int32 len), readLoop s.fs ip len offset len)

/-- The loop of `ext4_write_inst`; `false` is the return with `-ENOSPC`. -/
def writeLoop : ℕ → Ext4 → Inode → List UInt8 → ℕ → Bool × Ext4 × Inode
  | 0, fs, ip, _, _ => (true, fs, ip)
  | turns + 1, fs, ip, src, pos =>
    if src = [] then (true, fs, ip)
    else
      let fileBlock := pos / fs.geo.blockSize % 2 ^ 32
      let blockOff := pos % fs.geo.blockSize
      let chunk := min (fs.geo.blockSize - blockOff) src.length
      let r := resolveBlock fs ip fileBlock true
      if r.1 = 0 then (false, r.2)
      else
        let fs := { r.2.1 with disk := r.2.1.disk.write r.1 blockOff (src.take chunk) }
        writeLoop turns fs r.2.2 (src.drop chunk) ((pos + chunk) % 2 ^ 64)

/-- The inode that `ext4_write_inst` writes back. -/
def Ext4Files.extend (s : Ext4Files) (ip : Inode) (newEnd : ℕ) (now : BitVec 32) : Inode :=
  if newEnd > s.fileSize ip then
    { ip with
      size := BitVec.ofNat 32 newEnd
      dirAcl := if s.wide ip then BitVec.ofNat 32 (newEnd / 2 ^ 32) else ip.dirAcl
      mtime := now }
  else { ip with mtime := now }

/-- `ext4_write_inst` of the bytes `src` at the time `now`.  The inode is written back only at
the end. -/
def ext4Write (s : Ext4Files) (ino offset : ℕ) (src : List UInt8) (now : BitVec 32) :
    Except Errno ℤ × Ext4Files :=
  if ino = 0 then (.error .EINVAL, s)
  else
    let r := writeLoop src.length s.fs (s.inode ino) src offset
    if r.1 = false then (.error .ENOSPC, { s with fs := r.2.1 })
    else
      let newEnd := (offset + src.length) % 2 ^ 64
      (.ok (int32 src.length),
        { s with fs := r.2.1, inode := update s.inode ino (s.extend r.2.2 newEnd now) })

end CosmoRT.Fs
