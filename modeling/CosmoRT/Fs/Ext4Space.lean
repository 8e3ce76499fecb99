import CosmoRT.Lib.Run
import CosmoRT.Fs.Ext4

/-!
# The free space of an ext4 file system

The block and inode bitmaps, the counters of the group descriptors and the totals of the
superblock are three records of one thing.  `Consistent` says that they agree and that the
metadata lies where it can be read; each of the four calls flips one bit and moves the counters
with it (`Flip`), and that keeps `Consistent` (`Consistent.take`, `Consistent.give`).

* `space_accounting` — the accounts after any run.

What the calls do not get right: the count of directories in a descriptor is raised by
`ext4_inode_alloc_inst` and lowered by `ext4_inode_free_inst` only if the inode on disk already
says that it is a directory; the group count of the mount can exceed the number of groups, and the
searches skip the bits after the last whole byte (`Searchable`); a metadata block can be freed.
-/

namespace CosmoRT.Fs

open Function Lib Finset

/-! ## Groups -/

namespace Geometry

variable (geo : Geometry)

/-- The number of block groups; the last may be short. -/
def groups : ℕ :=
  (geo.blocksCount - geo.firstDataBlock + geo.blocksPerGroup - 1) / geo.blocksPerGroup

/-- The number of blocks of a group. -/
def groupBlocks (g : ℕ) : ℕ :=
  min geo.blocksPerGroup (geo.blocksCount - geo.firstDataBlock - g * geo.blocksPerGroup)

/-- The blocks an inode table takes. -/
def tableBlocks : ℕ := (geo.inodesPerGroup * geo.inodeSize + geo.blockSize - 1) / geo.blockSize

/-- The group of a block. -/
def groupOf (b : ℕ) : ℕ := (b - geo.firstDataBlock) / geo.blocksPerGroup

/-- Its bit in the bitmap of the group. -/
def indexOf (b : ℕ) : ℕ := (b - geo.firstDataBlock) % geo.blocksPerGroup

/-- The block with a bit of a group. -/
def blockAt (g i : ℕ) : ℕ := g * geo.blocksPerGroup + geo.firstDataBlock + i

/-- A block number inside the file system. -/
def Inside (b : ℕ) : Prop := geo.firstDataBlock ≤ b ∧ b < geo.blocksCount

variable {geo}

variable {b g i : ℕ}

theorem div_lt_parts {a n d : ℕ} (hd : 0 < d) (h : a < n) : a / d < (n + d - 1) / d := by
  rw [Nat.div_lt_iff_lt_mul hd]
  have hceil := Nat.div_add_mod' (n + d - 1) d
  have hmod := Nat.mod_lt (n + d - 1) hd
  omega

theorem groupOf_lt (h : geo.Inside b) (hpos : 0 < geo.blocksPerGroup) :
    geo.groupOf b < geo.groups := by
  obtain ⟨hlo, hhi⟩ := h
  exact div_lt_parts hpos (by omega)

theorem indexOf_lt (h : geo.Inside b) (hpos : 0 < geo.blocksPerGroup) :
    geo.indexOf b < geo.groupBlocks (geo.groupOf b) := by
  obtain ⟨hlo, hhi⟩ := h
  rw [indexOf, groupBlocks, groupOf]
  have hdiv := Nat.div_add_mod' (b - geo.firstDataBlock) geo.blocksPerGroup
  have hmod := Nat.mod_lt (b - geo.firstDataBlock) hpos
  omega

theorem blockAt_groupOf_indexOf (h : geo.firstDataBlock ≤ b) :
    geo.blockAt (geo.groupOf b) (geo.indexOf b) = b := by
  have hdiv := Nat.div_add_mod' (b - geo.firstDataBlock) geo.blocksPerGroup
  rw [blockAt, groupOf, indexOf]
  omega

theorem place_blockAt (hi : i < geo.blocksPerGroup) :
    geo.groupOf (geo.blockAt g i) = g ∧ geo.indexOf (geo.blockAt g i) = i := by
  refine (Nat.div_mod_unique (by omega)).2 ⟨?_, hi⟩
  rw [blockAt, Nat.mul_comm]
  omega

theorem groupBlocks_le (g : ℕ) : geo.groupBlocks g ≤ geo.blocksPerGroup := Nat.min_le_left _ _

theorem inside_blockAt (hi : i < geo.groupBlocks g) : geo.Inside (geo.blockAt g i) := by
  rw [groupBlocks] at hi
  rw [Inside, blockAt]
  omega

theorem sum_groupBlocks_le (n : ℕ) : ∑ g ∈ range n, geo.groupBlocks g ≤ geo.blocksCount := by
  have hsum : ∑ g ∈ range n, geo.groupBlocks g ≤
      min (n * geo.blocksPerGroup) (geo.blocksCount - geo.firstDataBlock) := by
    induction n with
    | zero => simp
    | succ n ih =>
      rw [sum_range_succ, groupBlocks, Nat.succ_mul]
      omega
  omega

end Geometry

/-! ## The three records -/

/-- What the two pairs of calls hand out. -/
inductive Kind
  | block
  | inode
  deriving DecidableEq, Repr

/-- How many a group has. -/
def Geometry.size (geo : Geometry) : Kind → ℕ → ℕ
  | .block, g => geo.groupBlocks g
  | .inode, _ => geo.inodesPerGroup

/-- The counter of a group. -/
def GroupDesc.free (gd : GroupDesc) : Kind → BitVec 16
  | .block => gd.freeBlocks
  | .inode => gd.freeInodes

namespace Ext4

variable (fs : Ext4)

/-- The total of the superblock. -/
def total : Kind → BitVec 32
  | .block => fs.freeBlocks
  | .inode => fs.freeInodes

/-- The bitmap block of a group. -/
def bitmapOf : Kind → ℕ → ℕ
  | .block, g => (fs.gd g).blockBitmap
  | .inode, g => (fs.gd g).inodeBitmap

/-- The bytes of the bitmap. -/
def bits (k : Kind) (g : ℕ) : ℕ → UInt8 := fs.disk (fs.bitmapOf k g)

/-- The bit of the block is set. -/
def BlockInUse (b : ℕ) : Prop :=
  fs.geo.Inside b ∧ bitAt (fs.bits .block (fs.geo.groupOf b)) (fs.geo.indexOf b) = true

/-- The bit of the inode is set. -/
def InodeInUse (ino : ℕ) : Prop :=
  1 ≤ ino ∧ ino ≤ fs.geo.groups * fs.geo.inodesPerGroup ∧
    bitAt (fs.bits .inode ((ino - 1) / fs.geo.inodesPerGroup))
      ((ino - 1) % fs.geo.inodesPerGroup) = true

/-- The blocks that hold bitmaps, inode tables and group descriptors. -/
inductive MetaBlock : ℕ → Prop
  | bitmap (k : Kind) {g : ℕ} (h : g < fs.geo.groups) : MetaBlock (fs.bitmapOf k g)
  | table {g j : ℕ} (h : g < fs.geo.groups) (hj : j < fs.geo.tableBlocks) :
      MetaBlock ((fs.gd g).inodeTable + j)
  | descriptors {g : ℕ} (h : g < fs.geo.groups) :
      MetaBlock (fs.geo.firstDataBlock + 1 + g * 32 / fs.geo.blockSize)

/-- A consistent image: the metadata blocks lie apart and are in use, the bits past the end of a
short group are set, and the counters agree with the bitmaps. -/
structure Consistent : Prop where
  blockSize : fs.geo.blockSize = 1024 ∨ fs.geo.blockSize = 2048 ∨ fs.geo.blockSize = 4096
  blocksPerGroup : 0 < fs.geo.blocksPerGroup ∧ fs.geo.blocksPerGroup ≤ fs.geo.blockSize * 8
  inodesPerGroup : 0 < fs.geo.inodesPerGroup ∧ fs.geo.inodesPerGroup ≤ fs.geo.blockSize * 8
  inodeSize : 128 ≤ fs.geo.inodeSize ∧ fs.geo.inodeSize ∣ fs.geo.blockSize
  blocksCount : fs.geo.firstDataBlock < fs.geo.blocksCount ∧ fs.geo.blocksCount < 2 ^ 32
  inodesCount : fs.geo.groups * fs.geo.inodesPerGroup < 2 ^ 32
  apart : ∀ k l g h, g < fs.geo.groups → h < fs.geo.groups →
    fs.bitmapOf k g = fs.bitmapOf l h → k = l ∧ g = h
  tableApart : ∀ g < fs.geo.groups, ∀ j < fs.geo.tableBlocks, ∀ k, ∀ h < fs.geo.groups,
    (fs.gd g).inodeTable + j ≠ fs.bitmapOf k h
  metaInUse : ∀ b, fs.MetaBlock b → fs.BlockInUse b
  padded : ∀ g < fs.geo.groups, ∀ i, fs.geo.groupBlocks g ≤ i → i < fs.geo.blocksPerGroup →
    bitAt (fs.bits .block g) i = true
  boot : fs.geo.firstDataBlock = 0 → bitAt (fs.bits .block 0) 0 = true
  tally : ∀ k, Tally fs.geo.groups (fs.geo.size k) (fs.bits k) (fun g => (fs.gd g).free k)
    (fs.total k)

/-- What the searches need beside: groups of whole bytes, and no group of the mount's count past
the last that claims to have anything free. -/
structure Searchable : Prop where
  wholeBlocks : 8 ∣ fs.geo.blocksPerGroup
  wholeInodes : 8 ∣ fs.geo.inodesPerGroup
  counted : fs.geo.groups ≤ fs.geo.groupCount
  surplus : ∀ g, fs.geo.groups ≤ g → g < fs.geo.groupCount → ∀ k, (fs.gd g).free k = 0

end Ext4

/-! ## One bit flipped -/

/-- Bit `i` of group `g` becomes `v` and the counters follow; the other kind stays. -/
structure Flip (fs fs' : Ext4) (k : Kind) (g i : ℕ) (v : Bool) : Prop where
  geo : fs'.geo = fs.geo
  bitmapOf : ∀ l h, fs'.bitmapOf l h = fs.bitmapOf l h
  inodeTable : ∀ h, (fs'.gd h).inodeTable = (fs.gd h).inodeTable
  bits : ∀ h < fs.geo.groups,
    fs'.bits k h = update (fs.bits k) g (putBit (fs.bits k g) i v) h
  otherBits : ∀ l ≠ k, ∀ h < fs.geo.groups, fs'.bits l h = fs.bits l h
  free : ∀ h, (fs'.gd h).free k = update (fun h => (fs.gd h).free k) g
    (if v then (fs.gd g).free k - 1 else (fs.gd g).free k + 1) h
  otherFree : ∀ l ≠ k, ∀ h, (fs'.gd h).free l = (fs.gd h).free l
  total : fs'.total k = if v then fs.total k - 1 else fs.total k + 1
  otherTotal : ∀ l ≠ k, fs'.total l = fs.total l

section Flip

variable {fs fs' : Ext4} {k : Kind} {g i : ℕ} {v : Bool}

section

variable (hf : Flip fs fs' k g i v)
include hf

/-- **Exactly one bit.** -/
theorem Flip.bitAt_eq {l : Kind} {h : ℕ} (hh : h < fs.geo.groups) (j : ℕ) : bitAt (fs'.bits l h) j =
      if l = k ∧ h = g ∧ j = i then v else bitAt (fs.bits l h) j := by
  by_cases hl : l = k
  · subst hl
    rw [hf.bits h hh]
    by_cases hg : h = g
    · subst hg
      rw [update_self, bitAt_putBit]
      simp
    · simp [hg]
  · rw [hf.otherBits l hl h hh]
    simp [hl]

theorem Flip.metaBlock {b : ℕ} (h : fs'.MetaBlock b) : fs.MetaBlock b := by
  cases h with
  | bitmap l hg =>
    rw [hf.bitmapOf]
    exact .bitmap l (hf.geo ▸ hg)
  | table hg hj =>
    rw [hf.inodeTable]
    exact .table (hf.geo ▸ hg) (hf.geo ▸ hj)
  | descriptors hg =>
    rw [hf.geo]
    exact .descriptors (hf.geo ▸ hg)

theorem Flip.otherTally (hc : fs.Consistent) {l : Kind} (hl : l ≠ k) :
    Tally fs'.geo.groups (fs'.geo.size l) (fs'.bits l) (fun g => (fs'.gd g).free l)
      (fs'.total l) := by
  rw [hf.geo, hf.otherTotal l hl]
  exact (hc.tally l).congr (fun h hh j _ => by rw [hf.otherBits l hl h hh])
    fun h _ => hf.otherFree l hl h

/-- A flip keeps the image consistent when the tally of its kind is right afterwards and no bit
that has to be set is cleared. -/
theorem Flip.consistent (hc : fs.Consistent)
    (htally : Tally fs.geo.groups (fs.geo.size k) (fs'.bits k) (fun g => (fs'.gd g).free k)
      (fs'.total k)) (hkept : ∀ h < fs.geo.groups, ∀ j, bitAt (fs.bits .block h) j = true →
      (¬ fs.geo.Inside (fs.geo.blockAt h j) ∨ fs.geo.blockAt h j = 0 ∨
        fs.MetaBlock (fs.geo.blockAt h j)) →
      bitAt (fs'.bits .block h) j = true) : fs'.Consistent := by
  have hpos := hc.blocksPerGroup.1
  obtain ⟨geo, _, _, _, _⟩ := fs'
  obtain rfl : geo = fs.geo := hf.geo
  refine
    { hc with
      apart := ?_
      tableApart := ?_
      metaInUse := ?_
      padded := ?_
      boot := ?_
      tally := ?_ }
  · intro l m a b
    rw [hf.bitmapOf, hf.bitmapOf]
    exact hc.apart l m a b
  · intro a ha j hj l b
    rw [hf.bitmapOf, hf.inodeTable]
    exact hc.tableApart a ha j hj l b
  · intro b hb
    have hmeta := hf.metaBlock hb
    obtain ⟨hin, hset⟩ := hc.metaInUse b hmeta
    have hat := fs.geo.blockAt_groupOf_indexOf hin.1
    exact ⟨hin, hkept _ (Geometry.groupOf_lt hin hpos) _ hset (.inr (.inr (by rwa [hat])))⟩
  · intro h hh j hlo hhi
    refine hkept h hh j (hc.padded h hh j hlo hhi) (.inl fun hin => ?_)
    have hlt := Geometry.indexOf_lt hin hpos
    rw [(Geometry.place_blockAt hhi).1, (Geometry.place_blockAt hhi).2] at hlt
    exact absurd hlo (not_le.2 hlt)
  · intro hzero
    have hin : fs.geo.Inside 0 := ⟨hzero.le, lt_of_le_of_lt (Nat.zero_le _) hc.blocksCount.1⟩
    have hgroups : 0 < fs.geo.groups :=
      lt_of_le_of_lt (Nat.zero_le _) (Geometry.groupOf_lt hin hpos)
    refine hkept 0 hgroups 0 (hc.boot hzero) (.inr (.inl ?_))
    rw [Geometry.blockAt, hzero, Nat.zero_mul]
  · intro l
    by_cases hl : l = k
    · subst hl
      exact htally
    · exact hf.otherTally hc hl

end

section

variable (hc : fs.Consistent)
include hc

/-- **A clear bit is taken.** -/
theorem Ext4.Consistent.take (hf : Flip fs fs' k g i true)
    (hg : g < fs.geo.groups) (hi : i < fs.geo.size k g) (hclear : bitAt (fs.bits k g) i = false) :
    fs'.Consistent := by
  refine hf.consistent hc ?_ fun h hh j hset _ => ?_
  · rw [hf.total]
    refine ((hc.tally k).take hg hi hclear).congr (fun h hh j _ => ?_) fun h _ => hf.free h
    rw [hf.bits h hh]
  · rw [hf.bitAt_eq hh]
    split
    · rfl
    · exact hset

theorem Ext4.Consistent.size_lt (k : Kind) (g : ℕ) : fs.geo.size k g < 2 ^ 16 := by
  have hbs := hc.blockSize
  cases k with
  | block =>
    have := fs.geo.groupBlocks_le g
    have := hc.blocksPerGroup.2
    simp only [Geometry.size]
    omega
  | inode =>
    have := hc.inodesPerGroup.2
    simp only [Geometry.size]
    omega

theorem Ext4.Consistent.sum_size_lt (k : Kind) :
    ∑ g ∈ range fs.geo.groups, fs.geo.size k g < 2 ^ 32 := by
  cases k with
  | block => exact lt_of_le_of_lt (fs.geo.sum_groupBlocks_le _) hc.blocksCount.2
  | inode =>
    simp only [Geometry.size, sum_const, card_range, smul_eq_mul]
    exact hc.inodesCount

/-- **A set bit is given back**, for a block one that is not metadata. -/
theorem Ext4.Consistent.give (hf : Flip fs fs' k g i false)
    (hg : g < fs.geo.groups) (hi : i < fs.geo.size k g) (hset : bitAt (fs.bits k g) i = true)
    (hfree : k = .block → fs.geo.blockAt g i ≠ 0 ∧ ¬ fs.MetaBlock (fs.geo.blockAt g i)) :
    fs'.Consistent := by
  refine hf.consistent hc ?_ fun h hh j hj hmust => ?_
  · rw [hf.total]
    refine ((hc.tally k).give hg hi hset (hc.size_lt k g) (hc.sum_size_lt k)).congr
      (fun h hh j _ => ?_) fun h _ => hf.free h
    rw [hf.bits h hh]
  · rw [hf.bitAt_eq hh]
    split
    case isFalse => exact hj
    case isTrue heq =>
      obtain ⟨rfl, rfl, rfl⟩ := heq
      obtain ⟨hne, hmeta⟩ := hfree rfl
      rcases hmust with hout | hzero | hm
      · exact absurd (Geometry.inside_blockAt hi) hout
      · exact absurd hzero hne
      · exact absurd hm hmeta

end

theorem Ext4.Searchable.flip (hs : fs.Searchable) (hf : Flip fs fs' k g i v)
    (hg : g < fs.geo.groups) : fs'.Searchable := by
  have hgeo := hf.geo
  refine ⟨hgeo ▸ hs.wholeBlocks, hgeo ▸ hs.wholeInodes, hgeo ▸ hs.counted, ?_⟩
  intro h hlo hhi l
  rw [hgeo] at hlo hhi
  by_cases hl : l = k
  · subst hl
    rw [hf.free, update_of_ne (by omega)]
    exact hs.surplus h hlo hhi l
  · rw [hf.otherFree l hl]
    exact hs.surplus h hlo hhi l

end Flip

/-! ## The calls flip one bit -/

variable {b g i : ℕ} {fs : Ext4} {gd : GroupDesc}

theorem Disk.write_of_ne (d : Disk) {block : ℕ} (h : b ≠ block) (off : ℕ) (bytes : List UInt8) :
    d.write block off bytes b = d b := update_of_ne h _ _

theorem update_keeps {β : Type} (f : GroupDesc → β)
    (hf : f gd = f (fs.gd g)) (h : ℕ) : f (update fs.gd g gd h) = f (fs.gd h) := by
  by_cases hh : h = g
  · rw [hh, update_self, hf]
  · rw [update_of_ne hh]

/-- A call flips one bit when it replaces one descriptor, keeping what it points to, and changes
the bitmap blocks as that bit says. -/
theorem Flip.intro {fs' : Ext4} {k : Kind} {v : Bool}
    (hc : fs.Consistent) (hg : g < fs.geo.groups) (hgeo : fs'.geo = fs.geo)
    (hgd : fs'.gd = update fs.gd g gd)
    (hplaces : gd.blockBitmap = (fs.gd g).blockBitmap ∧ gd.inodeBitmap = (fs.gd g).inodeBitmap ∧
      gd.inodeTable = (fs.gd g).inodeTable)
    (hfree : gd.free k = if v then (fs.gd g).free k - 1 else (fs.gd g).free k + 1)
    (htotal : fs'.total k = if v then fs.total k - 1 else fs.total k + 1)
    (hother : ∀ l ≠ k, gd.free l = (fs.gd g).free l ∧ fs'.total l = fs.total l)
    (hdisk : ∀ l, ∀ h < fs.geo.groups, fs'.disk (fs.bitmapOf l h) =
      update fs.disk (fs.bitmapOf k g) (putBit (fs.bits k g) i v) (fs.bitmapOf l h)) :
    Flip fs fs' k g i v := by
  have hat : ∀ {β : Type} (f : GroupDesc → β), f gd = f (fs.gd g) →
      ∀ h, f (fs'.gd h) = f (fs.gd h) := fun f hf h => hgd ▸ update_keeps f hf h
  have hbitmapOf : ∀ l h, fs'.bitmapOf l h = fs.bitmapOf l h := by
    intro l h
    cases l with
    | block => exact hat GroupDesc.blockBitmap hplaces.1 h
    | inode => exact hat GroupDesc.inodeBitmap hplaces.2.1 h
  refine
    { geo := hgeo
      bitmapOf := hbitmapOf
      inodeTable := hat GroupDesc.inodeTable hplaces.2.2
      bits := fun h hh => ?_
      otherBits := fun l hl h hh => ?_
      free := fun h => ?_
      otherFree := fun l hl => hat (GroupDesc.free · l) (hother l hl).1
      total := htotal
      otherTotal := fun l hl => (hother l hl).2 }
  · rw [Ext4.bits, hbitmapOf, hdisk k h hh]
    by_cases hhg : h = g
    · rw [hhg, update_self, update_self]
    · rw [update_of_ne hhg, update_of_ne fun heq => hhg (hc.apart k k h g hh hg heq).2, Ext4.bits]
  · rw [Ext4.bits, hbitmapOf, hdisk l h hh,
      update_of_ne fun heq => hl (hc.apart l k h g hh hg heq).1, Ext4.bits]
  · rw [hgd]
    by_cases hhg : h = g
    · rw [hhg, update_self, update_self, hfree]
    · rw [update_of_ne hhg, update_of_ne hhg]

theorem Disk.zero_apply (d : Disk) {size x : ℕ} (hx : x < size) : d.zero b size b x = 0 := by
  simp only [Disk.zero, Disk.write, update_self, List.length_replicate]
  rw [if_pos (by omega), List.getD_replicate _ (by omega)]

theorem inode_place {n : ℕ} (hi : i < n) :
    (g * n + i + 1 - 1) / n = g ∧ (g * n + i + 1 - 1) % n = i := by
  refine (Nat.div_mod_unique (by omega)).2 ⟨?_, hi⟩
  rw [Nat.mul_comm]
  omega

section Calls

variable {fs : Ext4} (hc : fs.Consistent)
include hc

variable {g i : ℕ}

theorem putBlockBit_disk (hi : i < fs.geo.blocksPerGroup) (v : Bool) :
    (fs.putBlockBit g i v).disk =
      update fs.disk (fs.bitmapOf .block g) (putBit (fs.bits .block g) i v) := by
  have hlt : i < fs.geo.blockSize * 8 := lt_of_lt_of_le hi hc.blocksPerGroup.2
  simp only [Ext4.putBlockBit, Nat.div_eq_of_lt hlt, Nat.mod_eq_of_lt hlt, Nat.add_zero]
  rfl

theorem findBlock_eq (g : ℕ) :
    fs.findBlock g =
      scan (fs.bits .block g) 0 fs.geo.blocksPerGroup (fs.geo.blocksPerGroup / 8) := by
  obtain ⟨hpos, hle⟩ := hc.blocksPerGroup
  have hone : (fs.geo.blocksPerGroup + fs.geo.blockSize * 8 - 1) / (fs.geo.blockSize * 8) = 1 :=
    Nat.div_eq_of_lt_le (by omega) (by omega)
  simp only [Ext4.findBlock, hone, List.range_one, List.findSome?_cons, List.findSome?_nil,
    Nat.zero_mul, Nat.sub_zero, Nat.min_eq_left hle, Nat.zero_add, Nat.add_zero, Option.map_id']
  rw [show fs.disk (fs.gd g).blockBitmap = fs.bits .block g from rfl]
  cases scan (fs.bits .block g) 0 fs.geo.blocksPerGroup (fs.geo.blocksPerGroup / 8) <;> rfl

theorem blockAt_ne_bitmap (hi : i < fs.geo.blocksPerGroup)
    (hclear : bitAt (fs.bits .block g) i = false) {b : ℕ} (hb : fs.MetaBlock b) :
    b ≠ fs.geo.blockAt g i := by
  intro heq
  have hset := (hc.metaInUse b hb).2
  rw [heq, (Geometry.place_blockAt hi).1, (Geometry.place_blockAt hi).2, hclear] at hset
  exact absurd hset (by decide)

section

variable (hs : fs.Searchable)
include hs

theorem blockAlloc_eq :
    (ext4BlockAlloc fs = (0, fs) ∧
      ∀ g < fs.geo.groups, ∀ i < fs.geo.groupBlocks g, bitAt (fs.bits .block g) i = true) ∨
    ∃ g i, g < fs.geo.groups ∧ i < fs.geo.groupBlocks g ∧ bitAt (fs.bits .block g) i = false ∧
      fs.geo.blockAt g i ≠ 0 ∧
      ext4BlockAlloc fs = (fs.geo.blockAt g i,
        { (fs.putBlockBit g i true).setGd g
            { fs.gd g with freeBlocks := (fs.gd g).freeBlocks - 1 } with
          freeBlocks := fs.freeBlocks - 1
          disk := (fs.putBlockBit g i true).disk.zero (fs.geo.blockAt g i) fs.geo.blockSize }) := by
  unfold ext4BlockAlloc
  split
  case isTrue hzero => exact .inl ⟨rfl, (hc.tally .block).of_total_zero hzero⟩
  case isFalse =>
    split
    case h_1 hnone =>
      refine .inl ⟨rfl, (hc.tally .block).find_none hs.counted (fun g _ hfind i hi => ?_) hnone⟩
      rw [findBlock_eq hc] at hfind
      have hlt : i < fs.geo.blocksPerGroup := lt_of_lt_of_le hi (fs.geo.groupBlocks_le g)
      exact scan_eq_none hfind (by have := hs.wholeBlocks; omega) (by omega)
    case h_2 g i hfound =>
      obtain ⟨hcount, hfree, hfind⟩ := findGroup_eq_some hfound
      rw [findBlock_eq hc] at hfind
      obtain ⟨-, hlim, hclear⟩ := scan_eq_some hfind
      have hlt : i < fs.geo.blocksPerGroup := by omega
      have hg : g < fs.geo.groups := by
        by_contra hge
        exact hfree (hs.surplus g (by omega) hcount .block)
      -- the bits after the end of a short group are set
      have hi : i < fs.geo.groupBlocks g := by
        by_contra hge
        rw [hc.padded g hg i (by omega) hlt] at hclear
        exact absurd hclear (by decide)
      have hne : fs.geo.blockAt g i ≠ 0 := by
        intro heq
        rw [Geometry.blockAt, Nat.add_eq_zero_iff, Nat.add_eq_zero_iff, Nat.mul_eq_zero] at heq
        obtain ⟨⟨hgroup, hfirst⟩, rfl⟩ := heq
        obtain rfl : g = 0 := by omega
        rw [hc.boot hfirst] at hclear
        exact absurd hclear (by decide)
      exact .inr ⟨g, i, hg, hi, hclear, hne, rfl⟩

theorem blockAlloc_cases :
    (ext4BlockAlloc fs = (0, fs) ∧
      ∀ g < fs.geo.groups, ∀ i < fs.geo.groupBlocks g, bitAt (fs.bits .block g) i = true) ∨
    ∃ g i, g < fs.geo.groups ∧ i < fs.geo.groupBlocks g ∧ bitAt (fs.bits .block g) i = false ∧
      (ext4BlockAlloc fs).1 = fs.geo.blockAt g i ∧ fs.geo.blockAt g i ≠ 0 ∧
      Flip fs (ext4BlockAlloc fs).2 .block g i true ∧
      ∀ h, ((ext4BlockAlloc fs).2.gd h).usedDirs = (fs.gd h).usedDirs := by
  rcases blockAlloc_eq hc hs with hnone | ⟨g, i, hg, hi, hclear, hne, hcall⟩
  · exact .inl hnone
  have hlt := lt_of_lt_of_le hi (fs.geo.groupBlocks_le g)
  rw [hcall]
  refine .inr ⟨g, i, hg, hi, hclear, rfl, hne, ?_, ?_⟩
  · refine Flip.intro hc hg rfl rfl ⟨rfl, rfl, rfl⟩ rfl rfl ?_ ?_
    · rintro (_ | _) hl
      · exact absurd rfl hl
      · exact ⟨rfl, rfl⟩
    · intro l h hh
      have hapart := blockAt_ne_bitmap hc hlt hclear (.bitmap l hh)
      exact (Disk.write_of_ne _ hapart _ _).trans (congrFun (putBlockBit_disk hc hlt true) _)
  · exact update_keeps GroupDesc.usedDirs rfl

/-- The block that is returned is zeroed, and of the others only the bitmap changes. -/
theorem blockAlloc_disk (hne : (ext4BlockAlloc fs).1 ≠ 0) :
    (∀ c, c ≠ (ext4BlockAlloc fs).1 → ¬ fs.MetaBlock c →
      (ext4BlockAlloc fs).2.disk c = fs.disk c) ∧
    ∀ x < fs.geo.blockSize, (ext4BlockAlloc fs).2.disk (ext4BlockAlloc fs).1 x = 0 := by
  rcases blockAlloc_eq hc hs with ⟨hnone, -⟩ | ⟨g, i, hg, hi, hclear, -, hcall⟩
  · exact absurd (by rw [hnone]) hne
  have hlt := lt_of_lt_of_le hi (fs.geo.groupBlocks_le g)
  rw [hcall]
  refine ⟨fun c hc' hmeta => ?_, fun x hx => Disk.zero_apply _ hx⟩
  have hbitmap : c ≠ fs.bitmapOf .block g := by
    rintro rfl
    exact hmeta (.bitmap .block hg)
  refine (Disk.write_of_ne _ hc' _ _).trans ?_
  rw [putBlockBit_disk hc hlt, update_of_ne hbitmap]

theorem blockFree_flip {b : ℕ} (hb : fs.BlockInUse b) (hne : b ≠ 0) :
    Flip fs (ext4BlockFree fs b) .block (fs.geo.groupOf b) (fs.geo.indexOf b) false ∧
      ∀ h, ((ext4BlockFree fs b).gd h).usedDirs = (fs.gd h).usedDirs := by
  have hpos := hc.blocksPerGroup.1
  have hg := Geometry.groupOf_lt hb.1 hpos
  have hlt : fs.geo.indexOf b < fs.geo.blocksPerGroup := Nat.mod_lt _ hpos
  have hadj : (b + 2 ^ 32 - fs.geo.firstDataBlock) % 2 ^ 32 = b - fs.geo.firstDataBlock := by
    have := hb.1.1
    have := hb.1.2
    have := hc.blocksCount.2
    omega
  have hcount : ¬ fs.geo.groupOf b ≥ fs.geo.groupCount := by
    have := hs.counted
    omega
  have hcall : ext4BlockFree fs b =
      { (fs.putBlockBit (fs.geo.groupOf b) (fs.geo.indexOf b) false).setGd (fs.geo.groupOf b)
          { fs.gd (fs.geo.groupOf b) with
            freeBlocks := (fs.gd (fs.geo.groupOf b)).freeBlocks + 1 } with
        freeBlocks := fs.freeBlocks + 1 } := by
    simp only [ext4BlockFree, hne, if_false, hadj]
    exact if_neg hcount
  rw [hcall]
  refine ⟨Flip.intro hc hg rfl rfl ⟨rfl, rfl, rfl⟩ rfl rfl ?_ ?_, ?_⟩
  · rintro (_ | _) hl
    · exact absurd rfl hl
    · exact ⟨rfl, rfl⟩
  · intro l h _
    exact congrFun (putBlockBit_disk hc hlt false) _
  · exact update_keeps GroupDesc.usedDirs rfl

end

theorem inodeBlock_lt (hi : i < fs.geo.inodesPerGroup) :
    i * fs.geo.inodeSize / fs.geo.blockSize < fs.geo.tableBlocks := by
  have hsize : 0 < fs.geo.blockSize := by have := hc.blockSize; omega
  have hbytes : i * fs.geo.inodeSize < fs.geo.inodesPerGroup * fs.geo.inodeSize :=
    Nat.mul_lt_mul_of_pos_right hi (by have := hc.inodeSize.1; omega)
  exact Geometry.div_lt_parts hsize hbytes

/-- What both inode calls do: one bit, one descriptor, the total, and a write to the table. -/
theorem inode_flip (hg : g < fs.geo.groups)
    (hi : i < fs.geo.inodesPerGroup) (v : Bool) (dirs : BitVec 16) (bytes : List UInt8)
    {gd : GroupDesc} {total : BitVec 32} (hgd : gd = { fs.gd g with
      freeInodes := if v then (fs.gd g).freeInodes - 1 else (fs.gd g).freeInodes + 1
      usedDirs := dirs })
    (htotal : total = if v then fs.freeInodes - 1 else fs.freeInodes + 1) :
    Flip fs ({ (fs.putInodeBit g i v).setGd g gd with freeInodes := total }.writeInode
      (g * fs.geo.inodesPerGroup + i + 1) bytes) .inode g i v := by
  subst hgd htotal
  refine Flip.intro hc hg rfl rfl ⟨rfl, rfl, rfl⟩ rfl rfl ?_ ?_
  · rintro (_ | _) hl
    · exact ⟨rfl, rfl⟩
    · exact absurd rfl hl
  · intro l h hh
    -- the write goes to the inode table, which holds no bitmap
    refine (Disk.write_of_ne _ (Ne.symm ?_) _ _).trans rfl
    simp only [Ext4.inodePlace, Ext4.setGd, Ext4.putInodeBit, inode_place hi, update_self]
    exact hc.tableApart g hg _ (inodeBlock_lt hc hi) l h hh

theorem inodeAlloc_cases (hs : fs.Searchable) (isDir : Bool) :
    (ext4InodeAlloc fs isDir = (0, fs) ∧
      ∀ g < fs.geo.groups, ∀ i < fs.geo.inodesPerGroup, bitAt (fs.bits .inode g) i = true) ∨
    ∃ g i, g < fs.geo.groups ∧ i < fs.geo.inodesPerGroup ∧ bitAt (fs.bits .inode g) i = false ∧
      (ext4InodeAlloc fs isDir).1 = g * fs.geo.inodesPerGroup + i + 1 ∧
      Flip fs (ext4InodeAlloc fs isDir).2 .inode g i true ∧
      (ext4InodeAlloc fs isDir).2.isDir (g * fs.geo.inodesPerGroup + i + 1) = false ∧
      (isDir = false →
        ∀ h, ((ext4InodeAlloc fs isDir).2.gd h).usedDirs = (fs.gd h).usedDirs) := by
  unfold ext4InodeAlloc
  split
  case h_1 hnone =>
    refine .inl ⟨rfl, (hc.tally .inode).find_none hs.counted (fun g _ hfind i hi => ?_) hnone⟩
    have hi : i < fs.geo.inodesPerGroup := hi
    exact scan_eq_none hfind (by have := hs.wholeInodes; omega) (by omega)
  case h_2 g i hfound =>
    obtain ⟨hcount, hfree, hfind⟩ := findGroup_eq_some hfound
    obtain ⟨-, hlim, hclear⟩ := scan_eq_some hfind
    have hi : i < fs.geo.inodesPerGroup := by omega
    have hg : g < fs.geo.groups := by
      by_contra hge
      exact hfree (hs.surplus g (by omega) hcount .inode)
    refine .inr ⟨g, i, hg, hi, hclear, rfl, inode_flip hc hg hi true _ _ rfl rfl, ?_, ?_⟩
    · -- the inode on disk has just been zeroed
      simp [Ext4.isDir, Ext4.inodeMode, Ext4.writeInode, Ext4.inodePlace, Disk.write, Ext4.setGd,
        Ext4.putInodeBit]
    · rintro rfl
      exact update_keeps GroupDesc.usedDirs rfl

theorem inodeFree_flip {ino : ℕ} (hb : fs.InodeInUse ino) (now : BitVec 32) :
    Flip fs (ext4InodeFree fs ino now) .inode ((ino - 1) / fs.geo.inodesPerGroup)
        ((ino - 1) % fs.geo.inodesPerGroup) false ∧
      (fs.isDir ino = false →
        ∀ h, ((ext4InodeFree fs ino now).gd h).usedDirs = (fs.gd h).usedDirs) := by
  obtain ⟨hlo, hhi, -⟩ := hb
  have hpos := hc.inodesPerGroup.1
  have hg : (ino - 1) / fs.geo.inodesPerGroup < fs.geo.groups := by
    rw [Nat.div_lt_iff_lt_mul hpos]
    omega
  have hi : (ino - 1) % fs.geo.inodesPerGroup < fs.geo.inodesPerGroup := Nat.mod_lt _ hpos
  have hino : (ino - 1) / fs.geo.inodesPerGroup * fs.geo.inodesPerGroup +
      (ino - 1) % fs.geo.inodesPerGroup + 1 = ino := by
    have hdiv := Nat.div_add_mod' (ino - 1) fs.geo.inodesPerGroup
    omega
  have hne : ino ≠ 0 := by omega
  constructor
  · have hflip := inode_flip hc hg hi false
      (if fs.isDir ino ∧ (fs.gd ((ino - 1) / fs.geo.inodesPerGroup)).usedDirs ≠ 0 then
        (fs.gd ((ino - 1) / fs.geo.inodesPerGroup)).usedDirs - 1
      else (fs.gd ((ino - 1) / fs.geo.inodesPerGroup)).usedDirs) (deadInode now) rfl rfl
    rw [hino] at hflip
    unfold ext4InodeFree
    rw [if_neg hne]
    exact hflip
  · intro hdir
    unfold ext4InodeFree
    rw [if_neg hne]
    exact update_keeps GroupDesc.usedDirs (if_neg (by simp [hdir]))

end Calls

/-! ## Runs -/

/-- The calls. -/
inductive SpaceOp
  | blockAlloc
  | blockFree (b : ℕ)
  | inodeAlloc (isDir : Bool)
  | inodeFree (ino : ℕ) (now : BitVec 32)

/-- The file system after a call. -/
def spaceNext (fs : Ext4) : SpaceOp → Ext4
  | .blockAlloc => (ext4BlockAlloc fs).2
  | .blockFree b => ext4BlockFree fs b
  | .inodeAlloc isDir => (ext4InodeAlloc fs isDir).2
  | .inodeFree ino now => ext4InodeFree fs ino now

/-- What is freed is in use, and a block that is freed is not metadata. -/
def SpaceOk (fs : Ext4) : SpaceOp → Prop
  | .blockFree b => fs.BlockInUse b ∧ ¬ fs.MetaBlock b
  | .inodeFree ino _ => fs.InodeInUse ino
  | _ => True

/-- The number a call returns for a bit. -/
def Geometry.number (geo : Geometry) : Kind → ℕ → ℕ → ℕ
  | .block, g, i => geo.blockAt g i
  | .inode, g, i => g * geo.inodesPerGroup + i + 1

/-- A number inside the file system. -/
def Geometry.Valid (geo : Geometry) : Kind → ℕ → Prop
  | .block, n => geo.Inside n
  | .inode, n => 1 ≤ n ∧ n ≤ geo.groups * geo.inodesPerGroup

/-- The result `r` of an allocation in `fs` is right: a number inside the file system whose bit
was clear and is the one bit that changed, or 0 when no bit is clear. -/
def Allocates (k : Kind) (fs : Ext4) (r : ℕ × Ext4) : Prop :=
  (r.1 = 0 → r.2 = fs ∧
    ∀ g < fs.geo.groups, ∀ i < fs.geo.size k g, bitAt (fs.bits k g) i = true) ∧
  (r.1 ≠ 0 → fs.geo.Valid k r.1 ∧ ∃ g < fs.geo.groups, ∃ i < fs.geo.size k g,
    r.1 = fs.geo.number k g i ∧ bitAt (fs.bits k g) i = false ∧
    ∀ l, ∀ h < fs.geo.groups, ∀ j, bitAt (r.2.bits l h) j =
      if l = k ∧ h = g ∧ j = i then true else bitAt (fs.bits l h) j)

/-- The bitmaps, the group descriptors and the totals are again those of `fs`. -/
def Restored (fs fs' : Ext4) : Prop :=
  (∀ k, ∀ g < fs.geo.groups, ∀ i, bitAt (fs'.bits k g) i = bitAt (fs.bits k g) i) ∧
    (∀ g, fs'.gd g = fs.gd g) ∧ ∀ k, fs'.total k = fs.total k

section Runs

variable {fs : Ext4}

theorem GroupDesc.eq_of_free {gd gd' : GroupDesc} (hbb : gd'.blockBitmap = gd.blockBitmap)
    (hib : gd'.inodeBitmap = gd.inodeBitmap) (hit : gd'.inodeTable = gd.inodeTable)
    (hfree : ∀ k, gd'.free k = gd.free k) (hdirs : gd'.usedDirs = gd.usedDirs) : gd' = gd := by
  have hb : gd'.freeBlocks = gd.freeBlocks := hfree .block
  have hi : gd'.freeInodes = gd.freeInodes := hfree .inode
  cases gd
  cases gd'
  simp_all

/-- A bit taken and given back, with the directory counts left alone. -/
theorem restored_of_flips {fs1 fs2 : Ext4} {k : Kind} {g i : ℕ} (h1 : Flip fs fs1 k g i true)
    (h2 : Flip fs1 fs2 k g i false) (hclear : bitAt (fs.bits k g) i = false)
    (hdirs1 : ∀ h, (fs1.gd h).usedDirs = (fs.gd h).usedDirs)
    (hdirs2 : ∀ h, (fs2.gd h).usedDirs = (fs1.gd h).usedDirs) : Restored fs fs2 := by
  refine ⟨fun l h hh j => ?_, fun h => ?_, fun l => ?_⟩
  · rw [h2.bitAt_eq (by rw [h1.geo]; exact hh), h1.bitAt_eq hh]
    split
    case isTrue heq =>
      obtain ⟨rfl, rfl, rfl⟩ := heq
      exact hclear.symm
    case isFalse => rfl
  · have hbitmap : ∀ l, fs2.bitmapOf l h = fs.bitmapOf l h := fun l => by
      rw [h2.bitmapOf, h1.bitmapOf]
    refine GroupDesc.eq_of_free (hbitmap .block) (hbitmap .inode) ?_ (fun l => ?_) ?_
    · rw [h2.inodeTable, h1.inodeTable]
    · by_cases hl : l = k
      · subst hl
        rw [h2.free]
        by_cases hhg : h = g
        · subst hhg
          rw [update_self, h1.free]
          simp
        · rw [update_of_ne hhg, h1.free, update_of_ne hhg]
      · rw [h2.otherFree l hl, h1.otherFree l hl]
    · rw [hdirs2, hdirs1]
  · by_cases hl : l = k
    · subst hl
      rw [h2.total, h1.total]
      simp
    · rw [h2.otherTotal l hl, h1.otherTotal l hl]

theorem inodeNumber_le {g i : ℕ} (hg : g < fs.geo.groups) (hi : i < fs.geo.inodesPerGroup) :
    g * fs.geo.inodesPerGroup + i + 1 ≤ fs.geo.groups * fs.geo.inodesPerGroup := by
  have hmul := Nat.mul_le_mul_right fs.geo.inodesPerGroup (Nat.succ_le_of_lt hg)
  rw [Nat.succ_mul] at hmul
  omega

variable (hc : fs.Consistent) (hs : fs.Searchable)
include hc hs

/-- **A block allocation is right**, and freeing the block undoes it. -/
theorem blockAlloc_right :
    Allocates .block fs (ext4BlockAlloc fs) ∧
      ((ext4BlockAlloc fs).1 ≠ 0 →
        Restored fs (ext4BlockFree (ext4BlockAlloc fs).2 (ext4BlockAlloc fs).1)) := by
  rcases blockAlloc_cases hc hs with ⟨hnone, hfull⟩ | ⟨g, i, hg, hi, hclear, hnr, hne, hf, hdirs⟩
  · rw [hnone]
    exact ⟨⟨fun _ => ⟨rfl, hfull⟩, fun h => absurd rfl h⟩, fun h => absurd rfl h⟩
  have hlt := lt_of_lt_of_le hi (fs.geo.groupBlocks_le g)
  have hinside := Geometry.inside_blockAt hi
  refine ⟨⟨fun h => absurd (hnr ▸ h) hne, fun _ => ⟨hnr ▸ hinside, g, hg, i, hi, hnr, hclear,
    fun l h hh j => hf.bitAt_eq hh j⟩⟩, fun _ => ?_⟩
  have hc' := hc.take hf hg hi hclear
  have huse : (ext4BlockAlloc fs).2.BlockInUse (fs.geo.blockAt g i) := by
    refine ⟨by rw [hf.geo]; exact hinside, ?_⟩
    rw [hf.geo, (Geometry.place_blockAt hlt).1, (Geometry.place_blockAt hlt).2, hf.bitAt_eq hg]
    simp
  obtain ⟨hf', hdirs'⟩ := blockFree_flip hc' (hs.flip hf hg) huse hne
  rw [hf.geo, (Geometry.place_blockAt hlt).1, (Geometry.place_blockAt hlt).2] at hf'
  rw [hnr]
  exact restored_of_flips hf hf' hclear hdirs hdirs'

theorem inodeAlloc_right (isDir : Bool) : Allocates .inode fs (ext4InodeAlloc fs isDir) := by
  rcases inodeAlloc_cases hc hs isDir with ⟨hnone, hfull⟩ | ⟨g, i, hg, hi, hclear, hnr, hf, -, -⟩
  · rw [hnone]
    exact ⟨fun _ => ⟨rfl, hfull⟩, fun h => absurd rfl h⟩
  · refine ⟨fun h => absurd (hnr ▸ h) (Nat.succ_ne_zero _), fun _ => ⟨?_, g, hg, i, hi, hnr, hclear,
      fun l h hh j => hf.bitAt_eq hh j⟩⟩
    rw [hnr]
    exact ⟨by omega, inodeNumber_le hg hi⟩

/-- Freeing an inode that was allocated for something else than a directory undoes it. -/
theorem inodeFree_restores (now : BitVec 32) (hne : (ext4InodeAlloc fs false).1 ≠ 0) :
    Restored fs (ext4InodeFree (ext4InodeAlloc fs false).2 (ext4InodeAlloc fs false).1 now) := by
  rcases inodeAlloc_cases hc hs false with ⟨hnone, -⟩ | ⟨g, i, hg, hi, hclear, hnr, hf, hdir, hdirs⟩
  · exact absurd (by rw [hnone]) hne
  have hc' := hc.take hf hg hi hclear
  have huse : (ext4InodeAlloc fs false).2.InodeInUse (g * fs.geo.inodesPerGroup + i + 1) := by
    refine ⟨by omega, by rw [hf.geo]; exact inodeNumber_le hg hi, ?_⟩
    rw [hf.geo, (inode_place hi).1, (inode_place hi).2, hf.bitAt_eq hg]
    simp
  obtain ⟨hf', hdirs'⟩ := inodeFree_flip hc' huse now
  rw [hf.geo, (inode_place hi).1, (inode_place hi).2] at hf'
  rw [hnr]
  exact restored_of_flips hf hf' hclear (hdirs rfl) (hdirs' hdir)

/-- **One call keeps the accounts.** -/
theorem spaceNext_consistent (op : SpaceOp)
    (hok : SpaceOk fs op) : (spaceNext fs op).Consistent ∧ (spaceNext fs op).Searchable := by
  cases op with
  | blockAlloc =>
    rcases blockAlloc_cases hc hs with ⟨hnone, -⟩ | ⟨g, i, hg, hi, hclear, -, -, hf, -⟩
    · simp only [spaceNext, hnone]
      exact ⟨hc, hs⟩
    · exact ⟨hc.take hf hg hi hclear, hs.flip hf hg⟩
  | blockFree b =>
    obtain ⟨huse, hmeta⟩ := hok
    by_cases hb : b = 0
    · simp only [spaceNext, ext4BlockFree, hb, if_true]
      exact ⟨hc, hs⟩
    · have hpos := hc.blocksPerGroup.1
      have hg := Geometry.groupOf_lt huse.1 hpos
      have hat := fs.geo.blockAt_groupOf_indexOf huse.1.1
      obtain ⟨hf, -⟩ := blockFree_flip hc hs huse hb
      exact ⟨hc.give hf hg (Geometry.indexOf_lt huse.1 hpos) huse.2
        fun _ => ⟨by rw [hat]; exact hb, by rw [hat]; exact hmeta⟩, hs.flip hf hg⟩
  | inodeAlloc isDir =>
    rcases inodeAlloc_cases hc hs isDir with ⟨hnone, -⟩ | ⟨g, i, hg, hi, hclear, -, hf, -, -⟩
    · simp only [spaceNext, hnone]
      exact ⟨hc, hs⟩
    · exact ⟨hc.take hf hg hi hclear, hs.flip hf hg⟩
  | inodeFree ino now =>
    have huse : fs.InodeInUse ino := hok
    have hpos := hc.inodesPerGroup.1
    have hg : (ino - 1) / fs.geo.inodesPerGroup < fs.geo.groups := by
      rw [Nat.div_lt_iff_lt_mul hpos]
      have := huse.1
      have := huse.2.1
      omega
    obtain ⟨hf, -⟩ := inodeFree_flip hc huse now
    exact ⟨hc.give hf hg (Nat.mod_lt _ hpos) huse.2.2 fun h => absurd h (by decide),
      hs.flip hf hg⟩

end Runs

/-- **The free space is accounted for after every run** that frees no metadata. -/
theorem space_accounting {fs : Ext4} {ops : List SpaceOp} (hc : fs.Consistent)
    (hs : fs.Searchable) (hok : Along spaceNext SpaceOk fs ops) :
    (∀ k, Tally (run spaceNext fs ops).geo.groups ((run spaceNext fs ops).geo.size k)
      ((run spaceNext fs ops).bits k) (fun g => ((run spaceNext fs ops).gd g).free k)
      ((run spaceNext fs ops).total k)) ∧
    Allocates .block (run spaceNext fs ops) (ext4BlockAlloc (run spaceNext fs ops)) ∧
    (∀ isDir, Allocates .inode (run spaceNext fs ops)
      (ext4InodeAlloc (run spaceNext fs ops) isDir)) ∧
    ((ext4BlockAlloc (run spaceNext fs ops)).1 ≠ 0 →
      Restored (run spaceNext fs ops) (ext4BlockFree (ext4BlockAlloc (run spaceNext fs ops)).2
        (ext4BlockAlloc (run spaceNext fs ops)).1)) ∧
    (∀ now, (ext4InodeAlloc (run spaceNext fs ops) false).1 ≠ 0 →
      Restored (run spaceNext fs ops)
        (ext4InodeFree (ext4InodeAlloc (run spaceNext fs ops) false).2
          (ext4InodeAlloc (run spaceNext fs ops) false).1 now)) := by
  have hstep : ∀ (s : Ext4) (op : SpaceOp), (s.Consistent ∧ s.Searchable) → SpaceOk s op →
      ((spaceNext s op).Consistent ∧ (spaceNext s op).Searchable) :=
    fun s op h hok => spaceNext_consistent h.1 h.2 op hok
  obtain ⟨hc', hs'⟩ := run_invariant hstep ⟨hc, hs⟩ hok
  exact ⟨hc'.tally, (blockAlloc_right hc' hs').1, inodeAlloc_right hc' hs',
    (blockAlloc_right hc' hs').2, fun now => inodeFree_restores hc' hs' now⟩

/-! ### Small images -/

/-- An image of one group with blocks of 1024 bytes: superblock, descriptors, the two bitmaps, a
table of two blocks, a block in use and nine free ones.  `inodes` and `free` are the first bytes of
the inode bitmap and the number of free inodes, `surplus` is what stands after the descriptor. -/
def smallImage (ipg : ℕ) (inodes : List UInt8) (free : ℕ) (surplus : GroupDesc) : Ext4 where
  geo :=
    { blockSize := 1024, blocksCount := 17, firstDataBlock := 1, blocksPerGroup := 16
      inodesPerGroup := ipg, inodeSize := 128 }
  freeBlocks := 9
  freeInodes := BitVec.ofNat 32 free
  gd := fun g =>
    if g = 0 then
      { blockBitmap := 3, inodeBitmap := 4, inodeTable := 5, freeBlocks := 9
        freeInodes := BitVec.ofNat 16 free, usedDirs := 0 }
    else surplus
  disk := fun b i =>
    if b = 3 ∧ i = 0 then 0x7F else if b = 4 then inodes.getD i 0 else 0

/-- A descriptor of zeros. -/
def noGroup : GroupDesc := ⟨0, 0, 0, 0, 0, 0⟩

section SmallImage

variable {ipg : ℕ} {inodes : List UInt8} {free : ℕ} {surplus : GroupDesc}

theorem smallImage_groups : (smallImage ipg inodes free surplus).geo.groups = 1 := by
  simp [Geometry.groups, smallImage]

theorem smallImage_tableBlocks (hipg : ipg ≤ 16) :
    (smallImage ipg inodes free surplus).geo.tableBlocks ≤ 2 := by
  simp only [Geometry.tableBlocks, smallImage]
  omega

theorem smallImage_metaBlock (hipg : ipg ≤ 16) {b : ℕ}
    (hb : (smallImage ipg inodes free surplus).MetaBlock b) : 1 ≤ b ∧ b ≤ 6 := by
  cases hb with
  | bitmap k hg =>
    obtain rfl := Nat.lt_one_iff.mp (smallImage_groups ▸ hg)
    cases k <;> simp [Ext4.bitmapOf, smallImage]
  | table hg hj =>
    obtain rfl := Nat.lt_one_iff.mp (smallImage_groups ▸ hg)
    have hlt := hj.trans_le (smallImage_tableBlocks hipg)
    simp only [smallImage, if_true]
    omega
  | descriptors hg =>
    obtain rfl := Nat.lt_one_iff.mp (smallImage_groups ▸ hg)
    simp [smallImage]

theorem smallImage_consistent (surplus : GroupDesc)
    (hpos : 0 < ipg) (hipg : ipg ≤ 16) (hfree : free ≤ 16)
    (hcount : clearCount (fun i => inodes.getD i 0) ipg = free) :
    (smallImage ipg inodes free surplus).Consistent := by
  have hgroups : (smallImage ipg inodes free surplus).geo.groups = 1 := smallImage_groups
  have hblocks : (smallImage ipg inodes free surplus).bits .block 0 =
      fun i => if i = 0 then 0x7F else 0 := by
    funext i
    simp [Ext4.bits, Ext4.bitmapOf, smallImage]
  have huse : ∀ b, 1 ≤ b → b ≤ 6 → (smallImage ipg inodes free surplus).BlockInUse b := by
    intro b hlo hhi
    have hgroup : (smallImage ipg inodes free surplus).geo.groupOf b = 0 := by
      simp only [Geometry.groupOf, smallImage]
      omega
    refine ⟨⟨hlo, by show b < 17; omega⟩, ?_⟩
    rw [hgroup, hblocks, Geometry.indexOf]
    simp only [smallImage]
    interval_cases b <;> rfl
  refine
    { blockSize := .inl rfl
      blocksPerGroup := by simp [smallImage]
      inodesPerGroup := by simp only [smallImage]; omega
      inodeSize := by simp only [smallImage]; omega
      blocksCount := by simp [smallImage]
      inodesCount := by rw [hgroups]; simp only [smallImage]; omega
      apart := ?_
      tableApart := ?_
      metaInUse := ?_
      padded := ?_
      boot := fun h => absurd h (by simp [smallImage])
      tally := ?_ }
  · intro k l g h hg hh heq
    cases k <;> cases l <;> simp_all [Ext4.bitmapOf, smallImage]
  · intro g hg j hj k h hh
    obtain rfl : g = 0 := by omega
    obtain rfl : h = 0 := by omega
    cases k <;> simp only [Ext4.bitmapOf, smallImage, if_true] <;> omega
  · intro b hb
    obtain ⟨hlo, hhi⟩ := smallImage_metaBlock hipg hb
    exact huse b hlo hhi
  · intro g hg i hlo hhi
    obtain rfl : g = 0 := by omega
    have : (16 : ℕ) ≤ i := hlo
    have : i < 16 := hhi
    omega
  · intro k
    refine ⟨fun g hg => ?_, ?_⟩
    · obtain rfl : g = 0 := by omega
      cases k with
      | block =>
        rw [hblocks]
        show (9 : BitVec 16).toNat = clearCount (fun i => if i = 0 then 0x7F else 0) 16
        decide
      | inode =>
        refine Eq.trans ?_ hcount.symm
        show (BitVec.ofNat 16 free).toNat = free
        rw [BitVec.toNat_ofNat]
        omega
    · rw [hgroups]
      cases k with
      | block => rfl
      | inode =>
        show (BitVec.ofNat 32 free).toNat = (BitVec.ofNat 16 free).toNat
        rw [BitVec.toNat_ofNat, BitVec.toNat_ofNat]
        omega

theorem smallImage_searchable : (smallImage 8 inodes free noGroup).Searchable where
  wholeBlocks := by simp [smallImage]
  wholeInodes := by simp [smallImage]
  counted := by simp [Geometry.groups, Geometry.groupCount, smallImage]
  surplus := by
    intro g hlo _ k
    have hg : g ≠ 0 := by
      rintro rfl
      simp [smallImage_groups] at hlo
    cases k <;> simp [smallImage, hg, noGroup, GroupDesc.free]

end SmallImage

theorem smallImage_fresh : (smallImage 8 [0x03] 6 noGroup).Consistent :=
  smallImage_consistent noGroup (by decide) (by decide) (by decide) (by decide)

/-- A run with all four calls on the small image. -/
theorem space_accounting_small :
    let s := run spaceNext (smallImage 8 [0x03] 6 noGroup)
      [.blockFree 7, .blockAlloc, .inodeAlloc true, .inodeFree 3 0]
    (∀ k, Tally s.geo.groups (s.geo.size k) (s.bits k) (fun g => (s.gd g).free k) (s.total k)) ∧
      (ext4BlockAlloc s).1 = 8 ∧ (ext4InodeAlloc s false).1 = 3 := by
  have hmeta : ¬ (smallImage 8 [0x03] 6 noGroup).MetaBlock 7 := fun h =>
    absurd (smallImage_metaBlock (by decide) h).2 (by decide)
  refine ⟨(space_accounting smallImage_fresh smallImage_searchable ?_).1, by decide +kernel,
    by decide +kernel⟩
  exact ⟨⟨⟨⟨by decide +kernel, by decide +kernel⟩, by decide +kernel⟩, hmeta⟩, trivial, trivial,
    ⟨by decide +kernel, by decide +kernel, by decide +kernel⟩, trivial⟩

/-- Where the accounts fail: an inode allocated for a directory and freed again leaves the
directory count raised; an inode past the last comes from a group that does not exist; the inodes
after the last whole byte are not found; a bitmap that was freed is handed out and zeroed. -/
theorem space_unaccounted : (let s := smallImage 8 [0x03] 6 noGroup
     s.Consistent ∧ s.Searchable ∧ (ext4InodeAlloc s true).1 ≠ 0 ∧
        ¬ Restored s (ext4InodeFree (ext4InodeAlloc s true).2 (ext4InodeAlloc s true).1 0)) ∧
    (let s := smallImage 8 [0xFF] 0 ⟨0, 0, 0, 0, 1, 0⟩
     s.Consistent ∧ (ext4InodeAlloc s false).1 = 9 ∧ ¬ s.geo.Valid .inode 9) ∧
    (let s := smallImage 12 [0xFF, 0x00] 4 noGroup
     s.Consistent ∧ (ext4InodeAlloc s false).1 = 0 ∧ bitAt (s.bits .inode 0) 8 = false) ∧
    (let s := smallImage 8 [0x03] 6 noGroup
     let s' := run spaceNext s [.blockFree 4, .blockAlloc]
     s.Consistent ∧ s.Searchable ∧ s.BlockInUse 4 ∧
        ¬ Tally s'.geo.groups (s'.geo.size .inode) (s'.bits .inode)
          (fun g => (s'.gd g).free .inode) (s'.total .inode)) := by
  refine ⟨⟨smallImage_fresh, smallImage_searchable, by decide +kernel, fun h => ?_⟩,
    ⟨?_, by decide +kernel, ?_⟩,
    ⟨?_, by decide +kernel, by decide +kernel⟩, smallImage_fresh, smallImage_searchable,
    ⟨⟨by decide +kernel, by decide +kernel⟩, by decide +kernel⟩, fun h => ?_⟩
  · exact absurd (h.2.1 0) (by decide +kernel)
  · exact smallImage_consistent _ (by decide) (by decide) (by decide) (by decide)
  · exact fun h => absurd h.2 (by decide +kernel)
  · exact smallImage_consistent noGroup (by decide) (by decide) (by decide) (by decide)
  · exact absurd (h.group 0 (by decide +kernel)) (by decide +kernel)

end CosmoRT.Fs
