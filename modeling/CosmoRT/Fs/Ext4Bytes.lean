import CosmoRT.Fs.ByteFile
import CosmoRT.Fs.Ext4BlockMap
import CosmoRT.Lib.Pages

/-!
# ext4 files as byte arrays

`ext4_read_inst` and `ext4_write_inst` on any number of files refine `ByteFile` as long as
positions are small enough for the block map and for the integer types of the source.

Where the source narrows a position the refinement ends: the block number of a position is cut to
32 bits, `offset + len` wraps at 64, and the length returned is an `int`.
-/

namespace CosmoRT.Fs

open Function Lib List

/-! ## Reading -/

section Read

variable {fs : Ext4} {inode : ℕ → Inode}

theorem chunk_eq (inode : ℕ → Inode) (ino : ℕ) {pos chunk : ℕ}
    (hchunk : pos % fs.geo.blockSize + chunk ≤ fs.geo.blockSize) :
    (if (resolveBlock fs (inode ino) (pos / fs.geo.blockSize) false).1 = 0 then
      replicate chunk 0
    else (range chunk).map fun k =>
      fs.disk (resolveBlock fs (inode ino) (pos / fs.geo.blockSize) false).1
        (pos % fs.geo.blockSize + k)) =
      (range chunk).map fun k => byteAt fs inode ino (pos + k) := by
  have hbyte : ∀ k < chunk, byteAt fs inode ino (pos + k) =
      if (resolveBlock fs (inode ino) (pos / fs.geo.blockSize) false).1 = 0 then 0
      else fs.disk (resolveBlock fs (inode ino) (pos / fs.geo.blockSize) false).1
        (pos % fs.geo.blockSize + k) := by
    intro k hk
    obtain ⟨hdiv, hmod⟩ := div_mod_of_chunk (show pos % fs.geo.blockSize + k < _ by omega)
    rw [byteAt, hdiv, hmod, resolveBlock_false]
    cases blockPath fs.geo (pos / fs.geo.blockSize) with
    | none => rfl
    | some x => rfl
  rw [map_congr_left fun k hk => hbyte k (mem_range.mp hk)]
  split
  · simp
  · rfl

/-- **The bytes of a read are those of the file.** -/
theorem readLoop_eq (hpos : 0 < fs.geo.blockSize) (hsize : fs.geo.blockSize ≤ 4096) (ino : ℕ)
    (turns : ℕ) {pos remaining : ℕ} (hturns : remaining ≤ turns)
    (hend : pos + remaining ≤ 2 ^ 32 * fs.geo.blockSize) :
    readLoop fs (inode ino) turns pos remaining =
      (range remaining).map fun k => byteAt fs inode ino (pos + k) := by
  induction turns generalizing pos remaining with
  | zero =>
    obtain rfl : remaining = 0 := by omega
    rfl
  | succ turns ih =>
    rw [readLoop]
    by_cases hrem : remaining = 0
    · simp [hrem]
    rw [if_neg hrem]
    have hmod := Nat.mod_lt pos hpos
    have hblock : pos / fs.geo.blockSize < 2 ^ 32 := by
      rw [Nat.div_lt_iff_lt_mul hpos]
      omega
    simp only [Nat.mod_eq_of_lt hblock]
    obtain ⟨chunk, hchunk⟩ :
        ∃ c, c = min (fs.geo.blockSize - pos % fs.geo.blockSize) remaining := ⟨_, rfl⟩
    rw [← hchunk, chunk_eq inode ino (by omega), Nat.mod_eq_of_lt (by omega),
      ih (by omega) (by omega)]
    obtain ⟨rest, hrest⟩ : ∃ n, remaining = chunk + n := ⟨remaining - chunk, by omega⟩
    rw [hrest, Nat.add_sub_cancel_left, range_add, map_append, map_map]
    congr 1
    exact map_congr_left fun k _ => by simp [add_assoc]

end Read

/-! ## Writing -/

/-- Every call of `ext4_block_alloc_inst` that the loop makes returns a block. -/
def WriteGranted : ℕ → Ext4 → Inode → List UInt8 → ℕ → Prop
  | 0, _, _, _, _ => True
  | turns + 1, fs, ip, src, pos =>
    src ≠ [] →
      let fileBlock := pos / fs.geo.blockSize % 2 ^ 32
      let blockOff := pos % fs.geo.blockSize
      let chunk := min (fs.geo.blockSize - blockOff) src.length
      let r := resolveBlock fs ip fileBlock true
      ResolveGranted fs ip fileBlock ∧
        WriteGranted turns { r.2.1 with disk := r.2.1.disk.write r.1 blockOff (src.take chunk) }
          r.2.2 (src.drop chunk) ((pos + chunk) % 2 ^ 64)

/-- What is known after the bytes `src` were stored from `pos` on. -/
structure Written (fs : Ext4) (inode : ℕ → Inode) (ino pos : ℕ) (src : List UInt8)
    (r : Bool × Ext4 × Inode) : Prop where
  done : r.1 = true
  mapped : Mapped r.2.1 (update inode ino r.2.2)
  geo : r.2.1.geo = fs.geo
  bytes : ∀ j p, byteAt r.2.1 (update inode ino r.2.2) j p =
    if j = ino ∧ pos ≤ p ∧ p < pos + src.length then src.getD (p - pos) 0
    else byteAt fs inode j p
  head : (inode ino).SameHead r.2.2

section Write

variable {fs : Ext4} {inode : ℕ → Inode}

theorem Mapped.mapBlocks_lt (hm : Mapped fs inode) : fs.geo.mapBlocks < 2 ^ 32 := by
  have hbs := hm.consistent.blockSize
  rw [Geometry.mapBlocks, Geometry.addrsPerBlock]
  rcases hbs with h | h | h <;> simp [h]

theorem Mapped.blockSize_le (hm : Mapped fs inode) : fs.geo.blockSize ≤ 4096 := by
  have := hm.consistent.blockSize
  omega

theorem written_nil (hm : Mapped fs inode) (ino pos : ℕ) :
    Written fs inode ino pos [] (true, fs, inode ino) := by
  have hself : update inode ino (inode ino) = inode := update_eq_self _ _
  refine ⟨rfl, by rw [hself]; exact hm, rfl, fun j p => ?_, rfl, rfl, rfl⟩
  rw [hself, if_neg]
  simp only [length_nil]
  omega

/-- **A write stores its bytes**, block by block. -/
theorem writeLoop_spec (ino turns : ℕ) {src : List UInt8} {pos : ℕ} (hm : Mapped fs inode)
    (hturns : src.length ≤ turns) (hfit : pos + src.length ≤ fs.geo.mapBlocks * fs.geo.blockSize)
    (hgrant : WriteGranted turns fs (inode ino) src pos) :
    Written fs inode ino pos src (writeLoop turns fs (inode ino) src pos) := by
  induction turns generalizing fs inode src pos with
  | zero =>
    obtain rfl := length_eq_zero_iff.mp (Nat.le_zero.mp hturns)
    exact written_nil hm ino pos
  | succ turns ih =>
    rw [writeLoop]
    by_cases hsrc : src = []
    · rw [hsrc]
      exact written_nil hm ino pos
    obtain ⟨hresolve, hrest⟩ := hgrant hsrc
    have hlen : 0 < src.length := length_pos_iff.mpr hsrc
    have hpos := hm.blockSize_pos
    have hsize := hm.blockSize_le
    have hmap := hm.mapBlocks_lt
    have hmod := Nat.mod_lt pos hpos
    have hdiv := Nat.div_add_mod pos fs.geo.blockSize
    have hblock : pos / fs.geo.blockSize < fs.geo.mapBlocks := by
      rw [Nat.div_lt_iff_lt_mul hpos]
      omega
    have hcap : fs.geo.mapBlocks * fs.geo.blockSize < 2 ^ 64 := by
      calc fs.geo.mapBlocks * fs.geo.blockSize
          ≤ fs.geo.mapBlocks * 4096 := Nat.mul_le_mul_left _ hsize
        _ < 2 ^ 64 := by omega
    rw [if_neg hsrc]
    simp only [Nat.mod_eq_of_lt (hblock.trans hmap)] at hresolve hrest ⊢
    obtain ⟨chunk, hchunk⟩ :
        ∃ c, c = min (fs.geo.blockSize - pos % fs.geo.blockSize) src.length := ⟨_, rfl⟩
    rw [← hchunk] at hrest ⊢
    rw [Nat.mod_eq_of_lt (show pos + chunk < 2 ^ 64 by omega)] at hrest ⊢
    -- the block of the position, then the bytes in it
    obtain ⟨⟨slot, is⟩, hpath⟩ := blockPath_isSome hblock
    have hr := resolveBlock_spec hm ino hpath hresolve
    generalize resolveBlock fs (inode ino) (pos / fs.geo.blockSize) true = r at hr hrest ⊢
    rw [if_neg hr.ne_zero]
    have htake : (src.take chunk).length = chunk := by
      rw [length_take]
      omega
    have hbound : pos % fs.geo.blockSize + (src.take chunk).length ≤ r.2.1.geo.blockSize := by
      rw [hr.geo]
      omega
    have hpath' : blockPath r.2.1.geo (pos / fs.geo.blockSize) = some (slot, is) := by
      rw [hr.geo]
      exact hpath
    obtain ⟨hm', hstored⟩ := writeData_spec hr.mapped hpath' hr.node hr.ne_zero hbound
    have hat : pos / fs.geo.blockSize * r.2.1.geo.blockSize + pos % fs.geo.blockSize = pos := by
      rw [hr.geo, mul_comm]
      exact hdiv
    rw [hat, htake] at hstored
    have hdrop : (src.drop chunk).length = src.length - chunk := length_drop
    have hturns' : (src.drop chunk).length ≤ turns := by omega
    have hfit' : pos + chunk + (src.drop chunk).length ≤
        r.2.1.geo.mapBlocks * r.2.1.geo.blockSize := by
      rw [hr.geo]
      omega
    have hlast := ih hm' hturns' hfit' (by rw [update_self]; exact hrest)
    rw [update_self] at hlast
    have hmapped := hlast.mapped
    have hbytes := hlast.bytes
    have hhead := hlast.head
    rw [update_idem] at hmapped hbytes
    rw [update_self] at hhead
    refine ⟨hlast.done, hmapped, hlast.geo.trans hr.geo, fun j p => ?_,
      hhead.1.trans hr.head.1, hhead.2.1.trans hr.head.2.1, hhead.2.2.trans hr.head.2.2⟩
    rw [hbytes, hstored, hr.bytes, hdrop]
    by_cases hj : j = ino
    · by_cases hfirst : pos ≤ p ∧ p < pos + chunk
      · rw [if_neg (by omega), if_pos ⟨hj, hfirst⟩, if_pos (by omega)]
        simp only [getD_eq_getElem?_getD]
        rw [getElem?_take_of_lt (by omega)]
      · by_cases hlater : pos + chunk ≤ p ∧ p < pos + chunk + (src.length - chunk)
        · rw [if_pos ⟨hj, hlater⟩, if_pos (by omega)]
          simp only [getD_eq_getElem?_getD, getElem?_drop]
          congr 2
          omega
        · rw [if_neg (by omega), if_neg (by omega), if_neg (by omega)]
    · rw [if_neg fun h => hj h.1, if_neg fun h => hj h.1, if_neg fun h => hj h.1]

end Write

/-! ## Runs -/

inductive FileOp
  | write (ino offset : ℕ) (src : List UInt8) (now : BitVec 32)
  | read (ino offset len : ℕ)

def fileNext (s : Ext4Files) : FileOp → Ext4Files
  | .write ino offset src now => (ext4Write s ino offset src now).2
  | .read _ _ _ => s

/-- The block map has room for the bytes. -/
def Geometry.Mappable (geo : Geometry) (offset len : ℕ) : Prop :=
  len = 0 ∨ offset + len ≤ geo.mapBlocks * geo.blockSize

instance (geo : Geometry) (offset len : ℕ) : Decidable (geo.Mappable offset len) :=
  inferInstanceAs (Decidable (_ ∨ _))

/-- What the calls mean for the abstract files: a write that cannot be mapped does nothing. -/
def bytesNext (geo : Geometry) (t : ℕ → ByteFile) : FileOp → ℕ → ByteFile
  | .write ino offset src _ =>
    if geo.Mappable offset src.length then update t ino ((t ino).write offset src) else t
  | .read _ _ _ => t

/-- What a call has to return. -/
def Answers (t : ℕ → ByteFile) (s : Ext4Files) : FileOp → Prop
  | .write ino offset src now =>
    if s.fs.geo.Mappable offset src.length then
      (ext4Write s ino offset src now).1 = .ok (src.length : ℤ)
    else ∃ e, (ext4Write s ino offset src now).1 = .error e
  | .read ino offset len =>
    ext4Read s ino offset len =
      (.ok (((t ino).read offset len).length : ℤ), (t ino).read offset len)

/-- The files of the driver are the abstract ones. -/
def Refines (s : Ext4Files) (t : ℕ → ByteFile) : Prop :=
  ∀ ino, s.fileSize (s.inode ino) = (t ino).size ∧
    ∀ p, byteAt s.fs s.inode ino p = (t ino).byte p

/-- Positions and lengths that the source's integer types hold: a write fits the block map, or its
first block number, cut to 32 bits, lies past the map; a read ends where block numbers have 32
bits.  Allocations return a block. -/
def FileOk (s : Ext4Files) : FileOp → Prop
  | .write ino offset src _ =>
    ino ≠ 0 ∧ offset < 2 ^ 64 ∧
      (s.fs.geo.Mappable offset src.length ∧ src.length < 2 ^ 31 ∧
          (s.wide (s.inode ino) = false → offset + src.length < 2 ^ 32) ∧
          WriteGranted src.length s.fs (s.inode ino) src offset ∨
        src ≠ [] ∧ s.fs.geo.mapBlocks ≤ offset / s.fs.geo.blockSize % 2 ^ 32)
  | .read ino offset len =>
    ino ≠ 0 ∧ (offset < s.fileSize (s.inode ino) →
      offset + len < 2 ^ 64 ∧ min len (s.fileSize (s.inode ino) - offset) < 2 ^ 31 ∧
        min (offset + len) (s.fileSize (s.inode ino)) ≤ 2 ^ 32 * s.fs.geo.blockSize)

section Runs

variable {s : Ext4Files} {t : ℕ → ByteFile}

theorem fileSize_extend {ip ip' : Inode} (hhead : ip.SameHead ip') {newEnd : ℕ}
    (hend : newEnd < 2 ^ 64) (hnarrow : s.wide ip = false → newEnd < 2 ^ 32) (now : BitVec 32) :
    s.fileSize (s.extend ip' newEnd now) = max (s.fileSize ip) newEnd := by
  obtain ⟨hmode, hsize, hacl⟩ := hhead
  have hwide : s.wide ip' = s.wide ip := by simp [Ext4Files.wide, hmode]
  have hwide' : s.wide (s.extend ip' newEnd now) = s.wide ip := by
    rw [← hwide, Ext4Files.extend]
    split <;> rfl
  have hold : s.fileSize ip' = s.fileSize ip := by simp [Ext4Files.fileSize, hwide, hsize, hacl]
  rw [Ext4Files.fileSize, hwide', Ext4Files.extend, hold, hwide]
  by_cases hgrow : newEnd > s.fileSize ip
  · rw [if_pos hgrow]
    cases hw : s.wide ip with
    | true =>
      simp only [if_true, BitVec.toNat_ofNat]
      omega
    | false =>
      have := hnarrow hw
      simp only [Bool.false_eq_true, if_false, BitVec.toNat_ofNat]
      omega
  · rw [if_neg hgrow, max_eq_left (by omega), ← hold, ← hwide]
    rfl

theorem block_extend (ip : Inode) (newEnd : ℕ) (now : BitVec 32) :
    (s.extend ip newEnd now).block = ip.block := by
  rw [Ext4Files.extend]
  split <;> rfl

variable {ino offset : ℕ} {src : List UInt8}

/-- **A write that fits is the abstract write.** -/
theorem ext4Write_mappable (hm : Mapped s.fs s.inode) (hr : Refines s t)
    (hino : ino ≠ 0) (hoff : offset < 2 ^ 64)
    (hfit : s.fs.geo.Mappable offset src.length) (hlen : src.length < 2 ^ 31)
    (hnarrow : s.wide (s.inode ino) = false → offset + src.length < 2 ^ 32)
    (hgrant : WriteGranted src.length s.fs (s.inode ino) src offset) (now : BitVec 32) :
    (ext4Write s ino offset src now).1 = .ok (src.length : ℤ) ∧
      Mapped (ext4Write s ino offset src now).2.fs (ext4Write s ino offset src now).2.inode ∧
      (ext4Write s ino offset src now).2.fs.geo = s.fs.geo ∧
      Refines (ext4Write s ino offset src now).2
        (update t ino ((t ino).write offset src)) := by
  have hmap := hm.mapBlocks_lt
  have hcap : s.fs.geo.mapBlocks * s.fs.geo.blockSize < 2 ^ 64 := by
    calc s.fs.geo.mapBlocks * s.fs.geo.blockSize
        ≤ s.fs.geo.mapBlocks * 4096 := Nat.mul_le_mul_left _ hm.blockSize_le
      _ < 2 ^ 64 := by omega
  have hend : offset + src.length < 2 ^ 64 := by
    rcases hfit with h | h <;> omega
  have hw : Written s.fs s.inode ino offset src
      (writeLoop src.length s.fs (s.inode ino) src offset) := by
    rcases hfit with h | h
    · obtain rfl := length_eq_zero_iff.mp h
      exact written_nil hm ino offset
    · exact writeLoop_spec ino src.length hm le_rfl h hgrant
  rw [ext4Write, if_neg hino]
  generalize writeLoop src.length s.fs (s.inode ino) src offset = r at hw
  simp only [hw.done, Bool.true_eq_false, if_false, Nat.mod_eq_of_lt hend]
  have hsame : ∀ i,
      (update s.inode ino (s.extend r.2.2 (offset + src.length) now) i).block =
        (update s.inode ino r.2.2 i).block := by
    intro i
    by_cases hi : i = ino
    · subst hi
      rw [update_self, update_self, block_extend]
    · rw [update_of_ne hi, update_of_ne hi]
  refine ⟨by rw [int32_of_range (by omega) (by omega)], hw.mapped.congr hsame, hw.geo,
    fun i => ⟨?_, fun p => ?_⟩⟩
  · by_cases hi : i = ino
    · subst hi
      simp only [update_self, ByteFile.write]
      rw [← (hr i).1]
      exact fileSize_extend hw.head hend hnarrow now
    · simp only [update_of_ne hi]
      exact (hr i).1
  · rw [byteAt_congr _ hsame, hw.bytes]
    by_cases hi : i = ino
    · subst hi
      simp only [update_self, ByteFile.write, true_and]
      rw [(hr i).2 p]
    · rw [if_neg fun h => hi h.1, update_of_ne hi]
      exact (hr i).2 p

theorem ext4Write_past (hino : ino ≠ 0) (hsrc : src ≠ [])
    (hpast : s.fs.geo.mapBlocks ≤ offset / s.fs.geo.blockSize % 2 ^ 32) (now : BitVec 32) :
    ext4Write s ino offset src now = (.error .ENOSPC, s) := by
  obtain ⟨b, bs, rfl⟩ := exists_cons_of_ne_nil hsrc
  have hloop : writeLoop (b :: bs).length s.fs (s.inode ino) (b :: bs) offset =
      (false, s.fs, s.inode ino) := by
    rw [length_cons, writeLoop, if_neg hsrc]
    simp only [resolveBlock_past _ hpast, if_true]
  rw [ext4Write, if_neg hino, hloop]
  rfl

theorem not_mappable_of_past {geo : Geometry} (hpos : 0 < geo.blockSize)
    (hmap : geo.mapBlocks < 2 ^ 32) (hsrc : src ≠ [])
    (hpast : geo.mapBlocks ≤ offset / geo.blockSize % 2 ^ 32) :
    ¬ geo.Mappable offset src.length := by
  have hlen : 0 < src.length := length_pos_iff.mpr hsrc
  rintro (h | h)
  · omega
  · have hblock : offset / geo.blockSize < geo.mapBlocks := by
      rw [Nat.div_lt_iff_lt_mul hpos]
      omega
    rw [Nat.mod_eq_of_lt (hblock.trans hmap)] at hpast
    omega

/-- **A read returns the bytes of the abstract file.** -/
theorem ext4Read_eq (hm : Mapped s.fs s.inode) (hr : Refines s t) {len : ℕ}
    (hok : FileOk s (.read ino offset len)) :
    ext4Read s ino offset len =
      (.ok (((t ino).read offset len).length : ℤ), (t ino).read offset len) := by
  obtain ⟨hino, hrange⟩ := hok
  obtain ⟨hsize, hbyte⟩ := hr ino
  rw [ext4Read, if_neg hino]
  by_cases hoff : offset ≥ s.fileSize (s.inode ino)
  · rw [if_pos hoff]
    have hnone : min len ((t ino).size - offset) = 0 := by omega
    simp [ByteFile.read, hnone]
  · obtain ⟨hwrap, hint, hend⟩ := hrange (by omega)
    rw [if_neg hoff, Nat.mod_eq_of_lt hwrap]
    have hclip : (if offset + len > s.fileSize (s.inode ino) then
        s.fileSize (s.inode ino) - offset else len) = min len ((t ino).size - offset) := by
      split <;> omega
    simp only [hclip]
    rw [readLoop_eq hm.blockSize_pos hm.blockSize_le ino _ le_rfl (by omega),
      int32_of_range (by omega) (by omega)]
    simp [ByteFile.read, hbyte]

/-- **One call**: the driver stays in step with the abstract files and answers as they do. -/
theorem fileNext_refines (hm : Mapped s.fs s.inode) (hr : Refines s t) (op : FileOp)
    (hok : FileOk s op) :
    (Mapped (fileNext s op).fs (fileNext s op).inode ∧ (fileNext s op).fs.geo = s.fs.geo ∧
      Refines (fileNext s op) (bytesNext s.fs.geo t op)) ∧ Answers t s op := by
  cases op with
  | write ino offset src now =>
    obtain ⟨hino, hoff, ⟨hfit, hlen, hnarrow, hgrant⟩ | ⟨hsrc, hpast⟩⟩ := hok
    · obtain ⟨hret, hm', hgeo, hr'⟩ :=
        ext4Write_mappable hm hr hino hoff hfit hlen hnarrow hgrant now
      simp only [fileNext, bytesNext, Answers, if_pos hfit]
      exact ⟨⟨hm', hgeo, hr'⟩, hret⟩
    · have hfit := not_mappable_of_past hm.blockSize_pos hm.mapBlocks_lt hsrc hpast
      simp only [fileNext, bytesNext, Answers, if_neg hfit, ext4Write_past hino hsrc hpast now]
      exact ⟨⟨hm, trivial, hr⟩, _, rfl⟩
  | read ino offset len => exact ⟨⟨hm, rfl, hr⟩, ext4Read_eq hm hr hok⟩

end Runs

/-- **Files refine byte arrays**: from empty files on, after any reads and writes whose positions
the source's types hold, every file is the abstract one and the next call answers as it does. -/
theorem files_refine_bytes {s : Ext4Files} {ops : List FileOp} (hc : s.fs.Consistent)
    (hs : s.fs.Searchable)
    (hempty : ∀ ino, (∀ k, (s.inode ino).block k = 0) ∧ s.fileSize (s.inode ino) = 0)
    (hok : Along fileNext FileOk s ops) :
    Refines (run fileNext s ops) (run (bytesNext s.fs.geo) (fun _ => .empty) ops) ∧
      ∀ op, FileOk (run fileNext s ops) op →
        Answers (run (bytesNext s.fs.geo) (fun _ => .empty) ops) (run fileNext s ops) op := by
  have hstep : ∀ (a : Ext4Files) (t : ℕ → ByteFile) (op : FileOp),
      (Mapped a.fs a.inode ∧ a.fs.geo = s.fs.geo ∧ Refines a t) → FileOk a op →
      (Mapped (fileNext a op).fs (fileNext a op).inode ∧ (fileNext a op).fs.geo = s.fs.geo ∧
        Refines (fileNext a op) (bytesNext s.fs.geo t op)) := by
    rintro a t op ⟨hm, hgeo, hr⟩ hok
    obtain ⟨⟨hm', hgeo', hr'⟩, -⟩ := fileNext_refines hm hr op hok
    rw [hgeo] at hgeo' hr'
    exact ⟨hm', hgeo', hr'⟩
  have hstart : Mapped s.fs s.inode ∧ s.fs.geo = s.fs.geo ∧ Refines s fun _ => .empty :=
    ⟨.of_empty hc hs fun i => (hempty i).1, rfl,
      fun i => ⟨(hempty i).2, byteAt_of_empty (fun j => (hempty j).1) i⟩⟩
  obtain ⟨hm, -, hr⟩ := run_simulation_along hstep hstart hok
  exact ⟨hr, fun op hop => (fileNext_refines hm hr op hop).2⟩

/-! ### Small files -/

/-- Empty regular files on the small image; a file has at most 65804 blocks of 1024 bytes. -/
def smallFiles : Ext4Files where
  fs := smallImage 8 [0x03] 6 noGroup
  revLevel := 1
  inode := fun _ => ⟨0x8000, 0, 0, 0, fun _ => 0, 0⟩

theorem smallFiles_empty (ino : ℕ) : (∀ k, (smallFiles.inode ino).block k = 0) ∧
    smallFiles.fileSize (smallFiles.inode ino) = 0 :=
  ⟨fun _ => rfl, by simp [Ext4Files.fileSize, smallFiles]⟩

/-- Two files written, one read. -/
theorem files_refine_bytes_small :
    let s := run fileNext smallFiles [.write 3 2 [7] 0, .write 4 1 [9] 0]
    Refines s (run (bytesNext smallFiles.fs.geo) (fun _ => .empty)
      [.write 3 2 [7] 0, .write 4 1 [9] 0]) ∧
      ext4Read s 3 0 10 = (.ok 3, [0, 0, 7]) := by
  have hok : Along fileNext FileOk smallFiles [.write 3 2 [7] 0, .write 4 1 [9] 0] := by
    refine ⟨⟨by decide, by decide, .inl ⟨.inr (by decide), by decide, fun h => ?_,
        fun _ => ⟨?_, trivial⟩⟩⟩,
      ⟨by decide, by decide, .inl ⟨.inr (by decide +kernel), by decide, fun h => ?_,
        fun _ => ⟨?_, trivial⟩⟩⟩, trivial⟩
    · exact absurd h (by decide)
    · exact fun _ => by decide +kernel
    · exact absurd h (by decide +kernel)
    · exact fun _ => by decide +kernel
  obtain ⟨hr, hans⟩ := files_refine_bytes smallImage_fresh smallImage_searchable
    smallFiles_empty hok
  refine ⟨hr, (hans (.read 3 0 10) ⟨by decide, fun _ => ⟨by decide, ?_, ?_⟩⟩).trans ?_⟩
  all_goals decide +kernel

/-- Where the refinement ends.  A write 4 TiB further on goes to block 0 and succeeds; a write
over the end of the map fails and has changed a byte; a read whose end wraps at 64 bits is not cut
at the end of the file; a read of 2 GiB returns a negative number. -/
theorem files_lose_bytes :
    smallFiles.fs.Consistent ∧ smallFiles.fs.Searchable ∧
    (let s := run fileNext smallFiles [.write 3 0 [7] 0]
     let r := ext4Write s 3 (2 ^ 42) [9] 0
     byteAt s.fs s.inode 3 0 = 7 ∧ r.1 = .ok 1 ∧ byteAt r.2.fs r.2.inode 3 0 = 9) ∧
    (let s := run fileNext smallFiles [.write 3 (65804 * 1024 - 1) [7] 0]
     let r := ext4Write s 3 (65804 * 1024 - 1) [9, 9] 0
     byteAt s.fs s.inode 3 (65804 * 1024 - 1) = 7 ∧ r.1 = .error .ENOSPC ∧
       byteAt r.2.fs r.2.inode 3 (65804 * 1024 - 1) = 9) ∧
    (let s := run fileNext smallFiles [.write 3 9 [7] 0]
     s.fileSize (s.inode 3) = 10 ∧ (ext4Read s 3 1 (2 ^ 64 - 1)).1 = .ok (-1)) ∧
    (let s := run fileNext smallFiles [.write 3 (2 ^ 40) [] 0]
     s.fileSize (s.inode 3) = 2 ^ 40 ∧ (ext4Read s 3 0 (2 ^ 31)).1 = .ok (-2 ^ 31)) := by
  refine ⟨smallImage_fresh, smallImage_searchable, ⟨?_, ?_, ?_⟩, ⟨?_, ?_, ?_⟩, ⟨?_, ?_⟩, ?_, ?_⟩
  all_goals decide +kernel

end CosmoRT.Fs
