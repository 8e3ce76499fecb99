import CosmoRT.Lib.Forest
import CosmoRT.Fs.Ext4Space
import CosmoRT.Fs.Ext4File

/-!
# The block maps of all files as one forest

Each of the 14 block pointers of an inode that the driver uses is the root of a tree: depth 0 for
a direct block, 1 and 2 for the indirect ones.  `Mapped` says that no block is reached twice, from
one file or from two, and that every block reached is in use and no metadata; `byteAt` is the byte
of a file at a position, 0 in a hole.
-/

namespace CosmoRT.Fs

open Function Lib Lib.Forest Disk List

/-! ## Pointers on the disk -/

variable {d : Disk} {b : ℕ} {fs : Ext4} {inode inode' : ℕ → Inode}

theorem Disk.ptr_congr {d' : Disk} (h : d' b = d b) (i : ℕ) : d'.ptr b i = d.ptr b i := by
  rw [ptr, ptr, h]

theorem Disk.write_self (d : Disk) (b off : ℕ) (bytes : List UInt8) :
    (fun x => (d.write b off bytes b x).toBitVec) =
      Bytes.write (fun x => (d b x).toBitVec) off (bytes.map UInt8.toBitVec) := by
  funext x
  simp only [write, update_self, Bytes.write, length_map]
  split
  · exact (getD_map bytes (0 : UInt8) UInt8.toBitVec).symm
  · rfl

theorem Disk.ptr_setPtr (d : Disk) (b i : ℕ) {v : ℕ} (hv : v < 2 ^ 32) (j : ℕ) :
    (d.setPtr b i v).ptr b j = if j = i then v else d.ptr b j := by
  have hbytes : ((Bytes.toBytes 4 (BitVec.ofNat 32 v)).map UInt8.ofBitVec).map UInt8.toBitVec =
      Bytes.toBytes 4 (BitVec.ofNat 32 v) := by
    rw [map_map]
    exact map_id _
  rw [ptr, setPtr, write_self, hbytes]
  by_cases hj : j = i
  · rw [if_pos hj, hj, Bytes.read_write _ _ (by simp), Bytes.ofBytes_toBytes _ (by decide),
      BitVec.toNat_ofNat, Nat.mod_eq_of_lt hv]
  · rw [if_neg hj, Bytes.read_write_of_disjoint (by rw [Bytes.length_toBytes]; omega), ptr]

theorem Disk.ptr_of_zero {size i : ℕ} (h : ∀ x < size, d b x = 0)
    (hi : i < size / 4) : d.ptr b i = 0 := by
  have hread : Bytes.read (fun x => (d b x).toBitVec) (4 * i) 4 =
      Bytes.read (fun _ => 0#8) (4 * i) 4 := by
    refine Bytes.read_congr fun x _ hx => ?_
    rw [h x (by omega)]
    rfl
  rw [ptr, hread, Bytes.read]
  decide

theorem zeroBlock_eq (h : ∀ x < fs.geo.blockSize, fs.disk b x = 0) : fs.zeroBlock b = fs := by
  have hdisk : fs.disk.zero b fs.geo.blockSize = fs.disk := by
    funext c x
    by_cases hc : c = b
    · subst hc
      by_cases hx : x < fs.geo.blockSize
      · rw [zero_apply _ hx, h x hx]
      · simp only [Disk.zero, write, update_self, length_replicate]
        rw [if_neg (by omega)]
    · rw [Disk.zero, write_of_ne _ hc]
  rw [Ext4.zeroBlock, hdisk]

/-! ## Metadata and allocation -/

section Meta

variable {fs : Ext4} {d : Disk}

theorem metaBlock_disk {c : ℕ} (h : ({ fs with disk := d } : Ext4).MetaBlock c) :
    fs.MetaBlock c := by
  cases h with
  | bitmap k hg => exact .bitmap k hg
  | table hg hj => exact .table hg hj
  | descriptors hg => exact .descriptors hg

theorem bits_disk (h : ∀ c, fs.MetaBlock c → d c = fs.disk c) (k : Kind) {g : ℕ}
    (hg : g < fs.geo.groups) : ({ fs with disk := d } : Ext4).bits k g = fs.bits k g :=
  h _ (.bitmap k hg)

theorem blockInUse_disk (hpos : 0 < fs.geo.blocksPerGroup)
    (h : ∀ c, fs.MetaBlock c → d c = fs.disk c) {b : ℕ} (hb : fs.BlockInUse b) :
    ({ fs with disk := d } : Ext4).BlockInUse b := by
  refine ⟨hb.1, ?_⟩
  rw [bits_disk h .block (Geometry.groupOf_lt hb.1 hpos)]
  exact hb.2

/-- What is written outside of the metadata does not concern the accounts. -/
theorem Ext4.Consistent.disk (hc : fs.Consistent) (h : ∀ c, fs.MetaBlock c → d c = fs.disk c) :
    ({ fs with disk := d } : Ext4).Consistent where
  blockSize := hc.blockSize
  blocksPerGroup := hc.blocksPerGroup
  inodesPerGroup := hc.inodesPerGroup
  inodeSize := hc.inodeSize
  blocksCount := hc.blocksCount
  inodesCount := hc.inodesCount
  apart := hc.apart
  tableApart := hc.tableApart
  metaInUse b hb := blockInUse_disk hc.blocksPerGroup.1 h (hc.metaInUse b (metaBlock_disk hb))
  padded g hg i hlo hhi := by
    rw [bits_disk h .block hg]
    exact hc.padded g hg i hlo hhi
  boot hzero := by
    have hin : fs.geo.Inside 0 := ⟨by rw [hzero], by have := hc.blocksCount.1; omega⟩
    have hg := lt_of_le_of_lt (Nat.zero_le _) (Geometry.groupOf_lt hin hc.blocksPerGroup.1)
    rw [bits_disk h .block hg]
    exact hc.boot hzero
  tally k := (hc.tally k).congr (fun g hg i _ => by rw [bits_disk h k hg]) fun _ _ => rfl

/-- `b` has just been allocated: it was not in use, it is now and is all zeros. -/
structure Fresh (fs fs' : Ext4) (b : ℕ) : Prop where
  consistent : fs'.Consistent
  searchable : fs'.Searchable
  geo : fs'.geo = fs.geo
  clear : ¬ fs.BlockInUse b
  used : fs'.BlockInUse b
  kept : ∀ c, fs.BlockInUse c → fs'.BlockInUse c
  metaBlock : ∀ c, fs'.MetaBlock c → fs.MetaBlock c
  zero : ∀ x < fs.geo.blockSize, fs'.disk b x = 0

theorem blockAlloc_fresh (hc : fs.Consistent) (hs : fs.Searchable)
    (hne : (ext4BlockAlloc fs).1 ≠ 0) : Fresh fs (ext4BlockAlloc fs).2 (ext4BlockAlloc fs).1 := by
  have hzero := (blockAlloc_disk hc hs hne).2
  rcases blockAlloc_cases hc hs with ⟨hnone, -⟩ | ⟨g, i, hg, hi, hclear, hnr, -, hf, -⟩
  · exact absurd (by rw [hnone]) hne
  have hlt := lt_of_lt_of_le hi (fs.geo.groupBlocks_le g)
  have hpos := hc.blocksPerGroup.1
  have hinside := Geometry.inside_blockAt hi
  rw [hnr] at hzero ⊢
  refine
    { consistent := hc.take hf hg hi hclear
      searchable := hs.flip hf hg
      geo := hf.geo
      clear := ?_
      used := ?_
      kept := ?_
      metaBlock := fun c hmeta => hf.metaBlock hmeta
      zero := hzero }
  · rintro ⟨-, hset⟩
    rw [(Geometry.place_blockAt hlt).1, (Geometry.place_blockAt hlt).2, hclear] at hset
    exact absurd hset (by decide)
  · refine ⟨by rw [hf.geo]; exact hinside, ?_⟩
    rw [hf.geo, (Geometry.place_blockAt hlt).1, (Geometry.place_blockAt hlt).2, hf.bitAt_eq hg]
    simp
  · rintro c ⟨hin, hset⟩
    refine ⟨by rw [hf.geo]; exact hin, ?_⟩
    rw [hf.geo, hf.bitAt_eq (Geometry.groupOf_lt hin hpos)]
    split
    · rfl
    · exact hset

theorem Fresh.writeIndirectPtr {fs1 : Ext4} {b ind : ℕ} (hf : Fresh fs fs1 b)
    (hmeta : ¬ fs.MetaBlock ind) (hne : ind ≠ b) (i v : ℕ) :
    Fresh fs (fs1.writeIndirectPtr ind i v) b := by
  have hdisk : ∀ c, fs1.MetaBlock c → fs1.disk.setPtr ind i v c = fs1.disk c := by
    intro c hc
    refine write_of_ne _ ?_ _ _
    rintro rfl
    exact hmeta (hf.metaBlock c hc)
  have hpos := hf.consistent.blocksPerGroup.1
  refine
    { consistent := hf.consistent.disk hdisk
      searchable := ⟨hf.searchable.wholeBlocks, hf.searchable.wholeInodes,
        hf.searchable.counted, hf.searchable.surplus⟩
      geo := hf.geo
      clear := hf.clear
      used := blockInUse_disk hpos hdisk hf.used
      kept := fun c hc => blockInUse_disk hpos hdisk (hf.kept c hc)
      metaBlock := fun c hc => hf.metaBlock c (metaBlock_disk hc)
      zero := fun x hx => ?_ }
  exact (congrFun (write_of_ne _ (Ne.symm hne) _ _) x).trans (hf.zero x hx)

end Meta

/-! ## The forest -/

/-- How many pointers lead from a slot of the inode to a data block. -/
def slotDepth (slot : Fin 14) : ℕ := slot.val - 11

def blockShape (geo : Geometry) : Shape (ℕ × Fin 14) := ⟨fun r => slotDepth r.2, geo.addrsPerBlock⟩

def rootOf (inode : ℕ → Inode) (r : ℕ × Fin 14) : ℕ := (inode r.1).block r.2

def blockNode (fs : Ext4) (inode : ℕ → Inode) : ℕ × Fin 14 → List ℕ → ℕ :=
  node fs.disk.ptr (rootOf inode)

/-- The blocks of the files are in use, hold no metadata, and none belongs to two files or to two
places of one. -/
structure Mapped (fs : Ext4) (inode : ℕ → Inode) : Prop where
  consistent : fs.Consistent
  searchable : fs.Searchable
  separate : Separate (blockShape fs.geo) (blockNode fs inode)
  inUse : ∀ r is, (blockShape fs.geo).Path r is → blockNode fs inode r is ≠ 0 →
    fs.BlockInUse (blockNode fs inode r is) ∧ ¬ fs.MetaBlock (blockNode fs inode r is)

/-- The path to a block of a file. -/
def blockPath (geo : Geometry) (n : ℕ) : Option (Fin 14 × List ℕ) :=
  let addrs := geo.addrsPerBlock
  if h : n < 12 then some (⟨n, by omega⟩, [])
  else if n - 12 < addrs then some (12, [n - 12])
  else if n - 12 - addrs < addrs * addrs then
    some (13, [(n - 12 - addrs) / addrs, (n - 12 - addrs) % addrs])
  else none

/-- The number of blocks a file can have. -/
def Geometry.mapBlocks (geo : Geometry) : ℕ :=
  12 + geo.addrsPerBlock + geo.addrsPerBlock * geo.addrsPerBlock

/-- The byte of a file at a position. -/
def byteAt (fs : Ext4) (inode : ℕ → Inode) (ino p : ℕ) : UInt8 :=
  match blockPath fs.geo (p / fs.geo.blockSize) with
  | none => 0
  | some (slot, is) =>
    if blockNode fs inode (ino, slot) is = 0 then 0
    else fs.disk (blockNode fs inode (ino, slot) is) (p % fs.geo.blockSize)

variable {geo : Geometry} {n : ℕ}

theorem blockPath_leaf {slot : Fin 14} {is : List ℕ}
    (h : blockPath geo n = some (slot, is)) (ino : ℕ) :
    (blockShape geo).Path (ino, slot) is ∧ is.length = slotDepth slot := by
  simp only [blockPath] at h
  split at h
  case isTrue hn =>
    obtain ⟨rfl, rfl⟩ := Prod.mk.inj (Option.some.inj h)
    refine ⟨.nil _ _, ?_⟩
    simp only [slotDepth, length_nil]
    omega
  case isFalse =>
    split at h
    case isTrue hind =>
      obtain ⟨rfl, rfl⟩ := Prod.mk.inj (Option.some.inj h)
      exact ⟨⟨by simp [blockShape, slotDepth], by simpa [blockShape] using hind⟩, rfl⟩
    case isFalse =>
      split at h
      case isTrue hdind =>
        obtain ⟨rfl, rfl⟩ := Prod.mk.inj (Option.some.inj h)
        have hpos : 0 < geo.addrsPerBlock := pos_of_ne_zero fun hz => by simp [hz] at hdind
        refine ⟨⟨by simp [blockShape, slotDepth], ?_⟩, rfl⟩
        have hdiv := Nat.div_lt_of_lt_mul hdind
        have hmod := Nat.mod_lt (n - 12 - geo.addrsPerBlock) hpos
        simpa [blockShape] using ⟨hdiv, hmod⟩
      case isFalse => exact absurd h (by simp)

theorem blockPath_inj {m : ℕ} {x : Fin 14 × List ℕ}
    (hn : blockPath geo n = some x) (hm : blockPath geo m = some x) : n = m := by
  have hval : ∀ k {y : Fin 14 × List ℕ}, blockPath geo k = some y →
      k = if y.1.val < 12 then y.1.val
        else if y.1.val = 12 then y.2.headD 0 + 12
        else geo.addrsPerBlock * y.2.headD 0 + y.2.tail.headD 0 + 12 + geo.addrsPerBlock := by
    intro k y h
    simp only [blockPath] at h
    split at h
    case isTrue hk =>
      obtain rfl := Option.some.inj h
      simp [hk]
    case isFalse hk =>
      split at h
      case isTrue =>
        obtain rfl := Option.some.inj h
        simp
        omega
      case isFalse =>
        split at h
        case isTrue =>
          obtain rfl := Option.some.inj h
          have hdiv := Nat.div_add_mod (k - 12 - geo.addrsPerBlock) geo.addrsPerBlock
          simp
          omega
        case isFalse => exact absurd h (by simp)
  rw [hval n hn, hval m hm]

theorem blockPath_isSome (h : n < geo.mapBlocks) : ∃ x, blockPath geo n = some x := by
  rw [Geometry.mapBlocks] at h
  simp only [blockPath]
  split
  · exact ⟨_, rfl⟩
  · split
    · exact ⟨_, rfl⟩
    · split
      · exact ⟨_, rfl⟩
      · omega

theorem blockNode_congr (fs : Ext4)
    (h : ∀ i, (inode' i).block = (inode i).block) : blockNode fs inode' = blockNode fs inode := by
  have hroot : rootOf inode' = rootOf inode := funext fun r => by rw [rootOf, rootOf, h]
  rw [blockNode, blockNode, hroot]

theorem Mapped.congr (hm : Mapped fs inode)
    (h : ∀ i, (inode' i).block = (inode i).block) : Mapped fs inode' := by
  have hnode := blockNode_congr fs h
  exact ⟨hm.consistent, hm.searchable, by rw [hnode]; exact hm.separate,
    by rw [hnode]; exact hm.inUse⟩

theorem byteAt_congr (fs : Ext4) (h : ∀ i, (inode' i).block = (inode i).block) (ino p : ℕ) :
    byteAt fs inode' ino p = byteAt fs inode ino p := by
  rw [byteAt, byteAt, blockNode_congr fs h]

theorem Mapped.of_empty (hc : fs.Consistent) (hs : fs.Searchable)
    (hempty : ∀ i k, (inode i).block k = 0) : Mapped fs inode := by
  have hnull : ∀ r is, blockNode fs inode r is = 0 := by
    intro r is
    rw [blockNode, node, rootOf, hempty, follow_zero]
  exact ⟨hc, hs, fun r is s js _ _ hne _ => absurd (hnull r is) hne,
    fun r is _ hne => absurd (hnull r is) hne⟩

theorem byteAt_of_empty (hempty : ∀ i k, (inode i).block k = 0)
    (ino p : ℕ) : byteAt fs inode ino p = 0 := by
  rw [byteAt]
  split
  · rfl
  · rw [if_pos]
    rw [blockNode, node, rootOf, hempty, follow_zero]

/-! ## One more block -/

/-- One node `b` was added to the forest, on a path that led nowhere, and the data blocks there
were are as before. -/
structure Grown (fs fs' : Ext4) (inode inode' : ℕ → Inode) (r : ℕ × Fin 14) (is : List ℕ)
    (b : ℕ) : Prop where
  fresh : Fresh fs fs' b
  nodes : ∀ s js, (blockShape fs.geo).Path s js →
    blockNode fs' inode' s js = put (blockNode fs inode) r is b s js
  null : blockNode fs inode r is = 0
  data : ∀ s js, (blockShape fs.geo).Path s js → js.length = slotDepth s.2 →
    blockNode fs inode s js ≠ 0 →
    fs'.disk (blockNode fs inode s js) = fs.disk (blockNode fs inode s js)

section Grow

variable {fs fs' : Ext4} {inode inode' : ℕ → Inode} {b : ℕ}

variable {r : ℕ × Fin 14}

variable {is : List ℕ}

/-- A node of the forest is not the block that was just allocated. -/
theorem Fresh.ne_node (hf : Fresh fs fs' b) (hm : Mapped fs inode)
    (hpath : (blockShape fs.geo).Path r is) (hne : blockNode fs inode r is ≠ 0) :
    blockNode fs inode r is ≠ b := fun h => hf.clear (h ▸ (hm.inUse r is hpath hne).1)

theorem Fresh.not_meta (hf : Fresh fs fs' b) (hc : fs.Consistent) : ¬ fs.MetaBlock b :=
  fun h => hf.clear (hc.metaInUse b h)

theorem Grown.mapped (hg : Grown fs fs' inode inode' r is b)
    (hm : Mapped fs inode) (hb : b ≠ 0) : Mapped fs' inode' := by
  have hgeo := hg.fresh.geo
  have hfresh : ∀ s js, (blockShape fs.geo).Path s js → blockNode fs inode s js ≠ b := by
    intro s js hpath heq
    exact hg.fresh.ne_node hm hpath (heq ▸ hb) heq
  refine ⟨hg.fresh.consistent, hg.fresh.searchable, ?_, ?_⟩
  · rw [hgeo]
    intro s js t ks hs ht hne heq
    rw [hg.nodes s js hs] at hne heq
    rw [hg.nodes t ks ht] at heq
    exact hm.separate.put hfresh s js t ks hs ht hne heq
  · rw [hgeo]
    intro s js hpath hne
    rw [hg.nodes s js hpath] at hne ⊢
    by_cases hnew : s = r ∧ js = is
    · rw [put, if_pos hnew]
      exact ⟨hg.fresh.used, fun h => hg.fresh.not_meta hm.consistent (hg.fresh.metaBlock b h)⟩
    · rw [put, if_neg hnew] at hne ⊢
      obtain ⟨huse, hmeta⟩ := hm.inUse s js hpath hne
      exact ⟨hg.fresh.kept _ huse, fun h => hmeta (hg.fresh.metaBlock _ h)⟩

/-- **A new block changes no byte of any file**: it is all zeros where there was a hole. -/
theorem Grown.byteAt (hg : Grown fs fs' inode inode' r is b)
    (hpos : 0 < fs.geo.blockSize) (ino p : ℕ) :
    byteAt fs' inode' ino p = byteAt fs inode ino p := by
  have hgeo := hg.fresh.geo
  rw [Fs.byteAt, Fs.byteAt, hgeo]
  cases hpath : blockPath fs.geo (p / fs.geo.blockSize) with
  | none => rfl
  | some x =>
    obtain ⟨slot, js⟩ := x
    obtain ⟨hin, hleaf⟩ := blockPath_leaf hpath ino
    simp only [hg.nodes _ _ hin]
    by_cases hnew : (ino, slot) = r ∧ js = is
    · have hnull : blockNode fs inode (ino, slot) js = 0 := by rw [hnew.1, hnew.2, hg.null]
      rw [put, if_pos hnew]
      split
      · rfl
      · exact hg.fresh.zero _ (Nat.mod_lt _ hpos)
    · rw [put, if_neg hnew]
      split
      case isTrue => rfl
      case isFalse hne => rw [hg.data _ _ hin hleaf hne]

/-- What the calls leave of an inode besides its block pointers. -/
def Inode.SameHead (ip ip' : Inode) : Prop :=
  ip'.mode = ip.mode ∧ ip'.size = ip.size ∧ ip'.dirAcl = ip.dirAcl

/-- What is known after a block was found or made: the forest is in order, the path leads to `b`,
and no byte of any file has changed. -/
structure Resolved (fs : Ext4) (inode : ℕ → Inode) (ino : ℕ) (slot : Fin 14) (is : List ℕ)
    (r : ℕ × Ext4 × Inode) : Prop where
  ne_zero : r.1 ≠ 0
  mapped : Mapped r.2.1 (update inode ino r.2.2)
  geo : r.2.1.geo = fs.geo
  node : blockNode r.2.1 (update inode ino r.2.2) (ino, slot) is = r.1
  bytes : ∀ j p, byteAt r.2.1 (update inode ino r.2.2) j p = byteAt fs inode j p
  head : (inode ino).SameHead r.2.2

section

variable (hm : Mapped fs inode)
include hm

theorem Mapped.blockSize_pos : 0 < fs.geo.blockSize := by
  have := hm.consistent.blockSize
  omega

theorem Mapped.ptr_kept (hf : Fresh fs fs' b)
    (hdata : ∀ c, c ≠ b → ¬ fs.MetaBlock c → fs'.disk c = fs.disk c) {s : ℕ × Fin 14}
    {js : List ℕ} (hpath : (blockShape fs.geo).Path s js) (hne : blockNode fs inode s js ≠ 0) :
    fs'.disk (blockNode fs inode s js) = fs.disk (blockNode fs inode s js) :=
  hdata _ (hf.ne_node hm hpath hne) (hm.inUse s js hpath hne).2

theorem slotBlock_spec (ino : ℕ) (slot : Fin 14) (clear : Bool)
    (hgrant : (inode ino).block slot = 0 → (ext4BlockAlloc fs).1 ≠ 0) :
    Resolved fs inode ino slot [] (slotBlock fs (inode ino) slot true clear) := by
  by_cases hnull : (inode ino).block slot = 0
  · have hne := hgrant hnull
    have hf := blockAlloc_fresh hm.consistent hm.searchable hne
    have hdata := (blockAlloc_disk hm.consistent hm.searchable hne).1
    generalize hr : ext4BlockAlloc fs = r at hne hf hdata
    have hcall : slotBlock fs (inode ino) slot true clear =
        (r.1, r.2, { inode ino with
          block := update (inode ino).block slot r.1 }.countBlock fs.geo) := by
      have hzero : r.2.zeroBlock r.1 = r.2 := zeroBlock_eq fun x hx => hf.zero x (hf.geo ▸ hx)
      simp [slotBlock, hnull, hr, hne, hzero]
    rw [hcall]
    generalize hip : ({ inode ino with
      block := update (inode ino).block slot r.1 } : Inode).countBlock fs.geo = ip
    have hroot : rootOf (update inode ino ip) =
        update (rootOf inode) (ino, slot) r.1 := by
      funext x
      obtain ⟨j, sl⟩ := x
      subst hip
      by_cases hj : j = ino
      · subst hj
        by_cases hsl : sl = slot
        · subst hsl
          simp [rootOf, Inode.countBlock]
        · have hval : sl.val ≠ slot.val := fun h => hsl (Fin.ext h)
          simp [rootOf, Inode.countBlock, hsl, hval]
      · simp [rootOf, hj]
    have hg : Grown fs r.2 inode (update inode ino ip) (ino, slot) [] r.1 := by
      refine ⟨hf, fun s js hpath => ?_, hnull, fun s js hpath _ h => hm.ptr_kept hf hdata hpath h⟩
      have hroot0 : rootOf inode (ino, slot) = 0 := hnull
      rw [blockNode, hroot]
      refine node_plant hroot0 (fun s js j hpath hne' => ?_) (fun i hi => ?_) hpath
      · exact ptr_congr (hm.ptr_kept hf hdata hpath.init.1 hne') j
      · exact ptr_of_zero hf.zero hi
    refine ⟨hne, hg.mapped hm hne, hf.geo, ?_, hg.byteAt hm.blockSize_pos, ?_⟩
    · rw [hg.nodes _ _ (.nil _ _), put, if_pos ⟨rfl, rfl⟩]
    · subst hip
      exact ⟨rfl, rfl, rfl⟩
  · have hcall : slotBlock fs (inode ino) slot true clear =
        ((inode ino).block slot, fs, inode ino) := by
      simp [slotBlock, hnull]
    rw [hcall]
    have hself : update inode ino (inode ino) = inode := update_eq_self _ _
    exact ⟨hnull, by rw [hself]; exact hm, rfl, by rw [hself]; rfl,
      by rw [hself]; exact fun _ _ => rfl,
      rfl, rfl, rfl⟩

theorem ptrBlock_spec {ino : ℕ} {slot : Fin 14} {is : List ℕ} {i ind : ℕ}
    (hpath : (blockShape fs.geo).Path (ino, slot) (is ++ [i]))
    (hind : blockNode fs inode (ino, slot) is = ind) (hind0 : ind ≠ 0) (clear : Bool)
    (hgrant : fs.readIndirectPtr ind i = 0 → (ext4BlockAlloc fs).1 ≠ 0) :
    Resolved fs inode ino slot (is ++ [i]) (ptrBlock fs (inode ino) ind i true clear) := by
  have hold : blockNode fs inode (ino, slot) (is ++ [i]) = fs.readIndirectPtr ind i := by
    rw [blockNode, node, follow_snoc]
    have hnode : follow fs.disk.ptr (rootOf inode (ino, slot)) is = ind := hind
    rw [hnode, if_neg hind0]
    rfl
  by_cases hnull : fs.readIndirectPtr ind i = 0
  · have hne := hgrant hnull
    have hf := blockAlloc_fresh hm.consistent hm.searchable hne
    have hdata := (blockAlloc_disk hm.consistent hm.searchable hne).1
    generalize hr : ext4BlockAlloc fs = r at hne hf hdata
    obtain ⟨hparent, hlen, hi⟩ := hpath.init
    have hindne : blockNode fs inode (ino, slot) is ≠ 0 := hind ▸ hind0
    have hindmeta : ¬ fs.MetaBlock ind := hind ▸ (hm.inUse _ _ hparent hindne).2
    have hindb : ind ≠ r.1 := hind ▸ hf.ne_node hm hparent hindne
    have hf' := hf.writeIndirectPtr hindmeta hindb i r.1
    have hcall : ptrBlock fs (inode ino) ind i true clear =
        (r.1, r.2.writeIndirectPtr ind i r.1, (inode ino).countBlock fs.geo) := by
      have hzero : (r.2.writeIndirectPtr ind i r.1).zeroBlock r.1 =
          r.2.writeIndirectPtr ind i r.1 := zeroBlock_eq fun x hx => hf'.zero x (hf'.geo ▸ hx)
      simp [ptrBlock, hnull, hr, hne, hzero]
    rw [hcall]
    have hroot : rootOf (update inode ino ((inode ino).countBlock fs.geo)) =
        rootOf inode := by
      funext x
      obtain ⟨j, sl⟩ := x
      by_cases hj : j = ino
      · subst hj
        simp [rootOf, Inode.countBlock]
      · simp [rootOf, hj]
    have hlt : r.1 < 2 ^ 32 := by
      have hin := hf.used.1.2
      have hcount := hf.consistent.blocksCount.2
      omega
    -- only the parent's block differs from what the allocation left
    have hdisk : ∀ c, c ≠ ind → (r.2.writeIndirectPtr ind i r.1).disk c = r.2.disk c :=
      fun c hc => write_of_ne _ hc _ _
    have hg : Grown fs (r.2.writeIndirectPtr ind i r.1) inode
        (update inode ino ((inode ino).countBlock fs.geo)) (ino, slot) (is ++ [i]) r.1 := by
      refine ⟨hf', fun s js hpath' => ?_, hold.trans hnull, fun s js hpath' hleaf h => ?_⟩
      · have hchild : fs.disk.ptr (blockNode fs inode (ino, slot) is) i = 0 := by
          rw [hind]
          exact hnull
        rw [blockNode, hroot]
        refine node_graft hm.separate hpath hindne hchild
          (fun s js j hpath' hne' => ?_) (fun j hj => ptr_of_zero hf'.zero hj) hpath'
        have hkept := hm.ptr_kept hf hdata hpath'.init.1 hne'
        change (r.2.writeIndirectPtr ind i r.1).disk.ptr (blockNode fs inode s js) j =
          if blockNode fs inode s js = blockNode fs inode (ino, slot) is ∧ j = i then r.1
          else fs.disk.ptr (blockNode fs inode s js) j
        rw [hind]
        by_cases hc : blockNode fs inode s js = ind
        · rw [hc] at hkept ⊢
          change (r.2.disk.setPtr ind i r.1).ptr ind j = _
          rw [ptr_setPtr _ _ _ hlt, ptr_congr hkept]
          simp
        · rw [ptr_congr ((hdisk _ hc).trans hkept)]
          simp [hc]
      · -- a data block is not the parent, which holds pointers
        have hapart : blockNode fs inode s js ≠ ind := by
          intro heq
          obtain ⟨hs, hjs⟩ := hm.separate s js (ino, slot) is hpath' hparent h (heq.trans hind.symm)
          subst hs hjs
          have : js.length < slotDepth slot := hlen
          simp only at hleaf
          omega
        exact (hdisk _ hapart).trans (hm.ptr_kept hf hdata hpath' h)
    refine ⟨hne, hg.mapped hm hne, hf'.geo, ?_, hg.byteAt hm.blockSize_pos, rfl, rfl, rfl⟩
    rw [hg.nodes _ _ hpath, put, if_pos ⟨rfl, rfl⟩]
  · have hcall : ptrBlock fs (inode ino) ind i true clear =
        (fs.readIndirectPtr ind i, fs, inode ino) := by
      simp [ptrBlock, hnull]
    rw [hcall]
    have hself : update inode ino (inode ino) = inode := update_eq_self _ _
    exact ⟨hnull, by rw [hself]; exact hm, rfl, by rw [hself]; exact hold,
      by rw [hself]; exact fun _ _ => rfl, rfl, rfl, rfl⟩

end

theorem Resolved.trans {ino : ℕ} {slot : Fin 14} {js : List ℕ} {r r' : ℕ × Ext4 × Inode}
    (h : Resolved fs inode ino slot is r)
    (h' : Resolved r.2.1 (update inode ino r.2.2) ino slot js r') :
    Resolved fs inode ino slot js r' := by
  have hmapped := h'.mapped
  have hnode := h'.node
  have hbytes := h'.bytes
  have hhead := h'.head
  rw [update_idem] at hmapped hnode hbytes
  rw [update_self] at hhead
  exact ⟨h'.ne_zero, hmapped, h'.geo.trans h.geo, hnode,
    fun j p => (hbytes j p).trans (h.bytes j p),
    hhead.1.trans h.head.1, hhead.2.1.trans h.head.2.1, hhead.2.2.trans h.head.2.2⟩

end Grow

/-! ## `resolve_block` -/

/-- Every call of `ext4_block_alloc_inst` that `resolve_block` makes returns a block. -/
def ResolveGranted (fs : Ext4) (ip : Inode) (n : ℕ) : Prop :=
  let addrs := fs.geo.addrsPerBlock
  if n < 12 then ip.block n = 0 → (ext4BlockAlloc fs).1 ≠ 0
  else if n - 12 < addrs then
    (ip.block 12 = 0 → (ext4BlockAlloc fs).1 ≠ 0) ∧
    let r := slotBlock fs ip 12 true true
    (r.2.1.readIndirectPtr r.1 (n - 12) = 0 → (ext4BlockAlloc r.2.1).1 ≠ 0)
  else if n - 12 - addrs < addrs * addrs then
    (ip.block 13 = 0 → (ext4BlockAlloc fs).1 ≠ 0) ∧
    let r := slotBlock fs ip 13 true true
    (r.2.1.readIndirectPtr r.1 ((n - 12 - addrs) / addrs) = 0 → (ext4BlockAlloc r.2.1).1 ≠ 0) ∧
    let r₂ := ptrBlock r.2.1 r.2.2 r.1 ((n - 12 - addrs) / addrs) true true
    (r₂.2.1.readIndirectPtr r₂.1 ((n - 12 - addrs) % addrs) = 0 → (ext4BlockAlloc r₂.2.1).1 ≠ 0)
  else True

section Resolve

variable {fs : Ext4} {inode : ℕ → Inode}

variable {ino : ℕ} {slot : Fin 14} {is : List ℕ}

theorem Resolved.ptrBlock {r : ℕ × Ext4 × Inode} {i : ℕ} (h : Resolved fs inode ino slot is r)
    (hpath : (blockShape fs.geo).Path (ino, slot) (is ++ [i])) (clear : Bool)
    (hgrant : r.2.1.readIndirectPtr r.1 i = 0 → (ext4BlockAlloc r.2.1).1 ≠ 0) :
    Resolved fs inode ino slot (is ++ [i]) (ptrBlock r.2.1 r.2.2 r.1 i true clear) := by
  have hspec := ptrBlock_spec h.mapped (h.geo ▸ hpath) h.node h.ne_zero clear hgrant
  rw [update_self] at hspec
  exact h.trans hspec

variable {n : ℕ}

/-- **`resolve_block` with allocation finds or makes the data block.** -/
theorem resolveBlock_spec (hm : Mapped fs inode) (ino : ℕ)
    (hpath : blockPath fs.geo n = some (slot, is)) (hgrant : ResolveGranted fs (inode ino) n) :
    Resolved fs inode ino slot is (resolveBlock fs (inode ino) n true) := by
  have hin := (blockPath_leaf hpath ino).1
  simp only [blockPath] at hpath
  simp only [ResolveGranted] at hgrant
  simp only [resolveBlock]
  by_cases h0 : n < 12
  · rw [dif_pos h0] at hpath
    rw [if_pos h0] at hgrant ⊢
    obtain ⟨rfl, rfl⟩ := Prod.mk.inj (Option.some.inj hpath)
    exact slotBlock_spec hm ino ⟨n, by omega⟩ false hgrant
  · rw [dif_neg h0] at hpath
    rw [if_neg h0] at hgrant ⊢
    by_cases h1 : n - 12 < fs.geo.addrsPerBlock
    · rw [if_pos h1] at hpath hgrant ⊢
      obtain ⟨rfl, rfl⟩ := Prod.mk.inj (Option.some.inj hpath)
      have hslot : Resolved fs inode ino 12 [] (slotBlock fs (inode ino) 12 true true) :=
        slotBlock_spec hm ino 12 true hgrant.1
      rw [if_neg hslot.ne_zero]
      exact hslot.ptrBlock hin false hgrant.2
    · rw [if_neg h1] at hpath hgrant ⊢
      by_cases h2 : n - 12 - fs.geo.addrsPerBlock < fs.geo.addrsPerBlock * fs.geo.addrsPerBlock
      · rw [if_pos h2] at hpath hgrant ⊢
        obtain ⟨rfl, rfl⟩ := Prod.mk.inj (Option.some.inj hpath)
        have hslot : Resolved fs inode ino 13 [] (slotBlock fs (inode ino) 13 true true) :=
          slotBlock_spec hm ino 13 true hgrant.1
        have hmid := hslot.ptrBlock (Shape.Path.init hin).1 true hgrant.2.1
        rw [if_neg hslot.ne_zero, if_neg hmid.ne_zero]
        exact hmid.ptrBlock hin false hgrant.2.2
      · rw [if_neg h2] at hpath
        exact absurd hpath (by simp)

theorem resolveBlock_false (inode : ℕ → Inode) (ino n : ℕ) :
    (resolveBlock fs (inode ino) n false).1 =
      match blockPath fs.geo n with
      | none => 0
      | some (slot, is) => blockNode fs inode (ino, slot) is := by
  have hslot : ∀ sl : Fin 14, ∀ clear, (slotBlock fs (inode ino) sl false clear) =
      (blockNode fs inode (ino, sl) [], fs, inode ino) := by
    intro sl clear
    simp [slotBlock, blockNode, node, rootOf]
  have hptr : ∀ b i clear, ptrBlock fs (inode ino) b i false clear =
      (fs.disk.ptr b i, fs, inode ino) := by
    intro b i clear
    simp [ptrBlock, Ext4.readIndirectPtr]
  simp only [resolveBlock, blockPath]
  by_cases h0 : n < 12
  · rw [if_pos h0, dif_pos h0]
    exact congrArg Prod.fst (hslot ⟨n, by omega⟩ false)
  rw [if_neg h0, dif_neg h0]
  by_cases h1 : n - 12 < fs.geo.addrsPerBlock
  · rw [if_pos h1, if_pos h1]
    have hs := hslot 12 true
    simp only [show ((12 : Fin 14) : ℕ) = 12 from rfl] at hs
    rw [hs]
    simp only [hptr, blockNode, node, follow]
    split <;> rfl
  · rw [if_neg h1, if_neg h1]
    by_cases h2 : n - 12 - fs.geo.addrsPerBlock < fs.geo.addrsPerBlock * fs.geo.addrsPerBlock
    · rw [if_pos h2, if_pos h2]
      have hs := hslot 13 true
      simp only [show ((13 : Fin 14) : ℕ) = 13 from rfl] at hs
      rw [hs]
      simp only [hptr, blockNode, node, follow]
      split
      · rfl
      · split <;> rfl
    · rw [if_neg h2, if_neg h2]

theorem resolveBlock_past (ip : Inode) (h : fs.geo.mapBlocks ≤ n) (alloc : Bool) :
    resolveBlock fs ip n alloc = (0, fs, ip) := by
  rw [Geometry.mapBlocks] at h
  simp only [resolveBlock]
  rw [if_neg (by omega), if_neg (by omega), if_neg (by omega)]

/-- **Bytes stored in a data block are bytes of that file and of no other.** -/
theorem writeData_spec (hm : Mapped fs inode) {off : ℕ}
    (hpath : blockPath fs.geo n = some (slot, is)) {b : ℕ}
    (hb : blockNode fs inode (ino, slot) is = b) (hb0 : b ≠ 0) {bytes : List UInt8}
    (hfit : off + bytes.length ≤ fs.geo.blockSize) :
    Mapped { fs with disk := fs.disk.write b off bytes } inode ∧
      ∀ j p, byteAt { fs with disk := fs.disk.write b off bytes } inode j p =
        if j = ino ∧ n * fs.geo.blockSize + off ≤ p ∧
            p < n * fs.geo.blockSize + off + bytes.length then
          bytes.getD (p - (n * fs.geo.blockSize + off)) 0
        else byteAt fs inode j p := by
  obtain ⟨hin, hleaf⟩ := blockPath_leaf hpath ino
  have hbne : blockNode fs inode (ino, slot) is ≠ 0 := hb ▸ hb0
  obtain ⟨huse, hmeta⟩ := hm.inUse _ _ hin hbne
  rw [hb] at huse hmeta
  have hother : ∀ c, c ≠ b → fs.disk.write b off bytes c = fs.disk c :=
    fun c hc => write_of_ne _ hc _ _
  have hmetaDisk : ∀ c, fs.MetaBlock c → fs.disk.write b off bytes c = fs.disk c := by
    intro c hc
    exact hother c fun h => hmeta (h ▸ hc)
  have hnodes : ∀ s js, (blockShape fs.geo).Path s js →
      blockNode { fs with disk := fs.disk.write b off bytes } inode s js =
        blockNode fs inode s js := by
    intro s js hs
    refine node_congr (fun t ks j ht hne => ptr_congr (hother _ fun heq => ?_) j) hs
    -- an inner node is not the data block
    obtain ⟨hks, hlen, -⟩ := ht.init
    obtain ⟨rfl, rfl⟩ := hm.separate t ks (ino, slot) is hks hin hne (heq.trans hb.symm)
    have : ks.length < slotDepth slot := hlen
    omega
  refine ⟨⟨hm.consistent.disk hmetaDisk, ⟨hm.searchable.wholeBlocks, hm.searchable.wholeInodes,
    hm.searchable.counted, hm.searchable.surplus⟩, ?_, ?_⟩, ?_⟩
  · intro s js t ks hs ht hne heq
    rw [hnodes s js hs] at hne heq
    rw [hnodes t ks ht] at heq
    exact hm.separate s js t ks hs ht hne heq
  · intro s js hs hne
    rw [hnodes s js hs] at hne ⊢
    obtain ⟨huse', hmeta'⟩ := hm.inUse s js hs hne
    exact ⟨blockInUse_disk hm.consistent.blocksPerGroup.1 hmetaDisk huse',
      fun h => hmeta' (metaBlock_disk h)⟩
  · intro j p
    have hdiv := Nat.div_add_mod p fs.geo.blockSize
    have hrange : (n * fs.geo.blockSize + off ≤ p ∧ p < n * fs.geo.blockSize + off + bytes.length) ↔
        p / fs.geo.blockSize = n ∧ off ≤ p % fs.geo.blockSize ∧
          p % fs.geo.blockSize < off + bytes.length := by
      constructor
      · rintro ⟨hlo, hhi⟩
        have hn : p / fs.geo.blockSize = n := by
          refine Nat.div_eq_of_lt_le (by omega) ?_
          rw [Nat.succ_mul]
          omega
        rw [hn, Nat.mul_comm] at hdiv
        exact ⟨hn, by omega, by omega⟩
      · rintro ⟨rfl, hlo, hhi⟩
        rw [mul_comm] at hdiv
        omega
    rw [byteAt, byteAt]
    cases hp : blockPath fs.geo (p / fs.geo.blockSize) with
    | none =>
      rw [if_neg]
      rintro ⟨-, hlo, hhi⟩
      rw [(hrange.mp ⟨hlo, hhi⟩).1, hpath] at hp
      exact absurd hp (by simp)
    | some x =>
      have hjs := (blockPath_leaf hp j).1
      simp only [hnodes _ _ hjs]
      by_cases hat : j = ino ∧ p / fs.geo.blockSize = n
      · obtain ⟨rfl, rfl⟩ := hat
        obtain ⟨rfl, rfl⟩ := Prod.mk.inj (Option.mem_unique hp hpath)
        rw [if_neg hbne, if_neg hbne, hb]
        simp only [write, update_self, true_and]
        by_cases hoff : off ≤ p % fs.geo.blockSize ∧ p % fs.geo.blockSize < off + bytes.length
        · rw [if_pos hoff, if_pos (hrange.mpr ⟨rfl, hoff⟩)]
          congr 1
          rw [mul_comm] at hdiv
          omega
        · rw [if_neg hoff, if_neg fun h => hoff (hrange.mp h).2]
      · have hout : ¬ (j = ino ∧ n * fs.geo.blockSize + off ≤ p ∧
            p < n * fs.geo.blockSize + off + bytes.length) :=
          fun h => hat ⟨h.1, (hrange.mp h.2).1⟩
        split
        case isTrue => rfl
        case isFalse hne =>
          rw [hother]
          intro heq
          obtain ⟨hslot, hidx⟩ := hm.separate _ _ _ _ hjs hin hne (heq.trans hb.symm)
          obtain ⟨rfl, rfl⟩ := Prod.mk.inj hslot
          subst hidx
          exact hat ⟨rfl, blockPath_inj hp hpath⟩

end Resolve

end CosmoRT.Fs
