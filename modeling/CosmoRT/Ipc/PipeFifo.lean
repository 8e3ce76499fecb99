import CosmoRT.Ipc.Pipe

/-!
# A pipe is a FIFO, except after a resize to exactly its fill

The ring of `sys_ipc.c` keeps `write_pos` in step with `read_pos + count`
through every read and write.  `pipe_resize` is the one exception: it rebases
the ring with `write_pos = count`, without the reduction modulo the new size,
so a resize to exactly the number of buffered bytes leaves `write_pos` one past
the last cell, and the next byte written is stored outside the ring.

* `Ring` — the invariant that ties the indices to the cells; `contents` is the
  queue it represents.
* `pipe_fifo_iff` — a run is a FIFO all along *exactly* when no resize in it hits
  the fill.
-/

namespace CosmoRT.Ipc

open Lib List

/-! ## The invariant of the ring -/

/-- The indices of a pipe as the code means them, and cells for all of the ring. -/
structure Ring (pp : Pipe) : Prop where
  cells : (pp.buf.length : ℤ) = pp.bufSize
  pos : 0 < pp.bufSize
  small : pp.bufSize ≤ 512 * 4096
  count_nonneg : 0 ≤ pp.count
  count_le : pp.count ≤ pp.bufSize
  read_nonneg : 0 ≤ pp.readPos
  read_lt : pp.readPos < pp.bufSize
  write_eq : pp.writePos = (pp.readPos + pp.count) % pp.bufSize

/-- The bytes waiting in the ring, oldest first. -/
def contents (pp : Pipe) : List UInt8 := window pp.buf pp.readPos.toNat pp.count.toNat

variable {pp : Pipe}

theorem length_contents (h : Ring pp) : ((contents pp).length : ℤ) = pp.count := by
  rw [contents, length_window, Int.toNat_of_nonneg h.count_nonneg]

theorem ring_newPipe {pages : ℕ} (h0 : 0 < pages) (h : pages ≤ 512) : Ring (newPipe pages) where
  cells := by simp [newPipe]
  pos := by simp only [newPipe]; omega
  small := by simp only [newPipe]; omega
  count_nonneg := le_refl _
  count_le := by simp only [newPipe]; omega
  read_nonneg := le_refl _
  read_lt := by simp only [newPipe]; omega
  write_eq := by simp [newPipe]

/-! ## The copy loops -/

theorem copyOut_spec (n k : ℕ) (pp : Pipe) (hcells : (pp.buf.length : ℤ) = pp.bufSize)
    (h0 : 0 ≤ pp.readPos) (hlt : pp.readPos < pp.bufSize) :
    (copyOut n pp).2 = { pp with readPos := (pp.readPos + n) % pp.bufSize } ∧
      window pp.buf pp.readPos.toNat (n + k)
        = (copyOut n pp).1 ++ window pp.buf ((pp.readPos + n) % pp.bufSize).toNat k := by
  induction n generalizing pp with
  | zero =>
    have hmod : pp.readPos % pp.bufSize = pp.readPos := Int.emod_eq_of_lt h0 hlt
    simp [copyOut, hmod]
  | succ n ih =>
    have hpos : 0 < pp.bufSize := by omega
    obtain ⟨hstate, hwin⟩ := ih { pp with readPos := (pp.readPos + 1) % pp.bufSize } hcells
      (Int.emod_nonneg _ (by omega)) (Int.emod_lt_of_pos _ hpos)
    have hnext : ((pp.readPos + 1) % pp.bufSize + (n : ℤ)) % pp.bufSize
        = (pp.readPos + ((n + 1 : ℕ) : ℤ)) % pp.bufSize := by
      rw [Int.emod_add_emod]
      congr 1
      omega
    have hidx : ((pp.readPos + 1) % pp.bufSize).toNat = (pp.readPos.toNat + 1) % pp.buf.length := by
      rw [← hcells, ← Int.toNat_of_nonneg h0]
      norm_cast
    refine ⟨by rw [copyOut, hstate]; simp only [hnext], ?_⟩
    have hself : pp.readPos.toNat % pp.buf.length = pp.readPos.toNat := Nat.mod_eq_of_lt (by omega)
    rw [Nat.add_right_comm, window_pop, hself, ← hidx, hwin, hnext]
    rfl

/-- The write loop appends its bytes behind a window of `k` that they fit. -/
theorem copyIn_spec (data : List UInt8) (k : ℕ) (pp : Pipe)
    (hcells : (pp.buf.length : ℤ) = pp.bufSize) (h0 : 0 ≤ pp.readPos)
    (hw : pp.writePos = (pp.readPos + k) % pp.bufSize) (hfit : k + data.length ≤ pp.buf.length) :
    ∃ cells : List UInt8, cells.length = pp.buf.length ∧
      copyIn data pp = { pp with
        buf := cells, writePos := (pp.readPos + (k + data.length : ℕ)) % pp.bufSize } ∧
      window cells pp.readPos.toNat (k + data.length) =
        window pp.buf pp.readPos.toNat k ++ data := by
  induction data generalizing pp k with
  | nil => exact ⟨pp.buf, rfl, by simp [copyIn, ← hw], by simp⟩
  | cons b bs ih =>
    simp only [length_cons] at hfit
    have hidx : pp.writePos.toNat = (pp.readPos.toNat + k) % pp.buf.length := by
      rw [hw, ← hcells, ← Int.toNat_of_nonneg h0]
      norm_cast
    have hnext : (pp.writePos + 1) % pp.bufSize
        = (pp.readPos + ((k + 1 : ℕ) : ℤ)) % pp.bufSize := by
      rw [hw, Int.emod_add_emod]
      congr 1
      omega
    obtain ⟨cells, hlen, hstate, hwin⟩ := ih (k + 1)
      { pp with buf := pp.buf.set pp.writePos.toNat b, writePos := (pp.writePos + 1) % pp.bufSize }
      (by simpa using hcells) h0 hnext (by simp only [length_set]; omega)
    refine ⟨cells, by simpa using hlen, ?_, ?_⟩
    · rw [copyIn, hstate]
      simp [add_right_comm k 1, ← add_assoc]
    · simp only [length_cons]
      rw [← add_assoc, add_right_comm, hwin, hidx, window_push (by omega)]
      simp

/-! ## What the two transfers do to the queue -/

theorem takeBytes_spec (h : Ring pp) (count : ℕ) :
    Ring (takeBytes pp count).2 ∧
      contents pp = (takeBytes pp count).1 ++ contents (takeBytes pp count).2 := by
  have hsize : sizeT pp.count = pp.count.toNat :=
    sizeT_of_nonneg h.count_nonneg (by have := h.count_le; have := h.small; omega)
  set n := if count > sizeT pp.count then sizeT pp.count else count with hn
  have hle : n ≤ pp.count.toNat := by
    rw [hn]
    split <;> omega
  obtain ⟨hstate, hwin⟩ := copyOut_spec n (pp.count.toNat - n) pp h.cells h.read_nonneg h.read_lt
  have hc := h.count_nonneg
  have hleft : (pp.count - n).toNat = pp.count.toNat - n := by omega
  have hcount := h.count_le
  simp only [takeBytes, ← hn, hstate]
  refine ⟨?_, ?_⟩
  · refine ⟨h.cells, h.pos, h.small, ?_, ?_, Int.emod_nonneg _ (by have := h.pos; omega),
      Int.emod_lt_of_pos _ h.pos, ?_⟩
    · show (0 : ℤ) ≤ pp.count - n
      omega
    · show pp.count - n ≤ pp.bufSize
      omega
    · show pp.writePos = ((pp.readPos + n) % pp.bufSize + (pp.count - n)) % pp.bufSize
      rw [Int.emod_add_emod, h.write_eq]
      congr 1
      omega
  · rw [contents, contents, hleft, ← hwin, Nat.add_sub_cancel' hle]

theorem putBytes_spec (h : Ring pp) (data : List UInt8) {n : ℕ}
    (hn : n ≤ data.length) (hfit : pp.count + n ≤ pp.bufSize) :
    Ring (putBytes pp data n) ∧ contents (putBytes pp data n) = contents pp ++ data.take n := by
  have hc := h.count_nonneg
  have hcells := h.cells
  have hlen : (data.take n).length = n := by simp [hn]
  obtain ⟨cells, hclen, hstate, hwin⟩ := copyIn_spec (data.take n) pp.count.toNat pp h.cells
    h.read_nonneg (by rw [Int.toNat_of_nonneg hc]; exact h.write_eq) (by omega)
  rw [hlen] at hstate hwin
  have hsum : ((pp.count.toNat + n : ℕ) : ℤ) = pp.count + n := by omega
  have hnat : (pp.count + n).toNat = pp.count.toNat + n := by omega
  simp only [putBytes, hstate]
  refine ⟨?_, ?_⟩
  · refine ⟨by simpa [hclen] using h.cells, h.pos, h.small, ?_, hfit, h.read_nonneg, h.read_lt, ?_⟩
    · show (0 : ℤ) ≤ pp.count + n
      omega
    · rw [hsum]
  · rw [contents, contents, hnat, hwin]

theorem fits_le (h : Ring pp) (count : ℕ) :
    fits pp count ≤ count ∧ pp.count + fits pp count ≤ pp.bufSize := by
  have hc := h.count_nonneg
  have hle := h.count_le
  have hsmall := h.small
  have hsize : sizeT (pp.bufSize - pp.count) = (pp.bufSize - pp.count).toNat :=
    sizeT_of_nonneg (by omega) (by omega)
  simp only [fits, hsize]
  split <;> omega

/-! ## Resizing -/

/-- The resize that goes wrong: it is carried out, and its new size is exactly
the number of buffered bytes. -/
def ResizeHitsFill (pp : Pipe) (newSize : ℤ) (mem : Bool) : Prop :=
  pagesAllocOk (pipePageCount newSize) mem = true ∧ roundedSize newSize = pp.count ∧
    roundedSize newSize ≠ pp.bufSize

instance (pp : Pipe) (newSize : ℤ) (mem : Bool) : Decidable (ResizeHitsFill pp newSize mem) :=
  inferInstanceAs (Decidable (_ ∧ _ ∧ _))

variable {newSize : ℤ} {mem : Bool}

/-- The pages the allocator grants make a ring of at most 2 MiB. -/
theorem roundedSize_bounds (h : pagesAllocOk (pipePageCount newSize) mem = true) :
    0 < roundedSize newSize ∧ roundedSize newSize ≤ 512 * 4096 := by
  simp only [pagesAllocOk, Bool.and_eq_true, decide_eq_true_eq] at h
  rw [roundedSize]
  omega

theorem moved_eq_contents (h : Ring pp) :
    ((range pp.count.toNat).map fun (i : ℕ) =>
      pp.buf.getD ((pp.readPos + i) % pp.bufSize).toNat default) = contents pp := by
  refine map_congr_left fun i _ => ?_
  have hidx : ((pp.readPos + (i : ℤ)) % pp.bufSize).toNat
      = (pp.readPos.toNat + i) % pp.buf.length := by
    rw [← h.cells, ← Int.toNat_of_nonneg h.read_nonneg]
    norm_cast
  rw [hidx]

theorem rebase_spec (h : Ring pp) {rounded : ℤ} (hlt : pp.count < rounded)
    (hsmall : rounded ≤ 512 * 4096) :
    Ring (rebase pp rounded) ∧ contents (rebase pp rounded) = contents pp := by
  have hc := h.count_nonneg
  have hlen := length_contents h
  have hn : pp.count.toNat = (contents pp).length := by omega
  simp only [rebase, moved_eq_contents h]
  refine ⟨⟨?_, ?_, hsmall, hc, hlt.le, le_refl _, ?_, ?_⟩, ?_⟩
  · simp only [length_append, length_replicate]
    omega
  · show 0 < rounded
    omega
  · show 0 < rounded
    omega
  · rw [zero_add, Int.emod_eq_of_lt hc hlt]
  · rw [contents]
    simp only [Int.toNat_zero, hn]
    exact window_rebase _ _

theorem pipeResize_spec (h : Ring pp) (hmiss : ¬ ResizeHitsFill pp newSize mem) :
    Ring (pipeResize pp newSize mem).2 ∧ contents (pipeResize pp newSize mem).2 = contents pp := by
  unfold pipeResize
  simp only []
  split_ifs with hbusy hsame hmem
  · exact ⟨h, rfl⟩
  · exact ⟨h, rfl⟩
  · exact ⟨h, rfl⟩
  · have hgrant : pagesAllocOk (pipePageCount newSize) mem = true := by simpa using hmem
    have hne : roundedSize newSize ≠ pp.count := fun heq => hmiss ⟨hgrant, heq, hsame⟩
    exact rebase_spec h (by omega) (roundedSize_bounds hgrant).2

theorem writePos_of_hitsFill (hhit : ResizeHitsFill pp newSize mem) :
    (pipeResize pp newSize mem).2.writePos = (pipeResize pp newSize mem).2.bufSize := by
  obtain ⟨hgrant, heq, hne⟩ := hhit
  have hbusy : ¬ roundedSize newSize < pp.count := by omega
  rw [pipeResize, if_neg hbusy, if_neg hne, if_neg (by simp [hgrant]), if_neg hbusy]
  exact heq.symm

/-! ## The stream law over whole runs -/

/-- The log is in order and complete: what was returned, then what waits. -/
def Queue (s : PipeLog) : Prop := Ring s.pipe ∧ s.accepted = s.returned ++ contents s.pipe

/-- A step is fine unless it is a resize that hits the fill. -/
def StepMissesFill (s : PipeLog) : PipeOp → Prop
  | .resize newSize mem => ¬ ResizeHitsFill s.pipe newSize mem
  | _ => True

theorem step_queue (s : PipeLog) (op : PipeOp) (h : Queue s) (hok : StepMissesFill s op) :
    Queue (pipeStep s op) := by
  obtain ⟨hring, hlog⟩ := h
  have hput : ∀ data : List UInt8,
      Queue { s with pipe := putBytes s.pipe data (fits s.pipe data.length),
                     accepted := s.accepted ++ data.take (fits s.pipe data.length) } := by
    intro data
    obtain ⟨hle, hfit⟩ := fits_le hring data.length
    obtain ⟨hr, hc⟩ := putBytes_spec hring data hle hfit
    exact ⟨hr, by rw [hlog, hc, append_assoc]⟩
  have htake : ∀ count : ℕ,
      Queue { s with pipe := (takeBytes s.pipe count).2,
                     returned := s.returned ++ (takeBytes s.pipe count).1 } := by
    intro count
    obtain ⟨hr, hc⟩ := takeBytes_spec hring count
    exact ⟨hr, by rw [hlog, hc, append_assoc]⟩
  have hwrite : Queue { s with accepted := s.accepted ++ [] } := ⟨hring, by simpa using hlog⟩
  have hread : Queue { s with returned := s.returned ++ [] } := ⟨hring, by simpa using hlog⟩
  cases op with
  | write data =>
    simp only [pipeStep, pipeWrite]
    split_ifs
    · exact hwrite
    · exact hwrite
    · exact hput data
  | writeBlocking data sig =>
    simp only [pipeStep, pipeWriteBlocking]
    split_ifs
    · exact hwrite
    · exact hput data
    · exact hwrite
    · exact ⟨hring, by simpa using hlog⟩
  | read count =>
    simp only [pipeStep, pipeRead]
    split_ifs
    · exact hread
    · exact hread
    · exact htake count
  | readBlocking count sig =>
    simp only [pipeStep, pipeReadBlocking]
    split_ifs
    · exact htake count
    · exact hread
    · exact hread
    · exact ⟨hring, by simpa using hlog⟩
  | resize newSize mem =>
    obtain ⟨hr, hc⟩ := pipeResize_spec hring hok
    exact ⟨hr, by simpa [pipeStep, hc] using hlog⟩
  | close isWrite =>
    have hsame : Ring (pipeClose s.pipe isWrite) ∧
        contents (pipeClose s.pipe isWrite) = contents s.pipe := by
      unfold pipeClose
      split_ifs <;> exact ⟨⟨hring.cells, hring.pos, hring.small, hring.count_nonneg,
        hring.count_le, hring.read_nonneg, hring.read_lt, hring.write_eq⟩, rfl⟩
    exact ⟨hsame.1, by simpa [pipeStep, hsame.2] using hlog⟩

/-- The pipe of a fresh `pipe2`, with an empty log. -/
def pipeStart (pages : ℕ) : PipeLog where
  pipe := newPipe pages
  accepted := []
  returned := []

theorem queue_start {pages : ℕ} (h0 : 0 < pages) (h : pages ≤ 512) : Queue (pipeStart pages) :=
  ⟨ring_newPipe h0 h, by simp [pipeStart, contents, newPipe]⟩

/-- What a pipe promises in every state: indices in range and in step, and a
stream whose returned part is a prefix of the accepted part, `count` bytes
short of it. -/
def Fifo (s : PipeLog) : Prop :=
  (0 ≤ s.pipe.count ∧ s.pipe.count ≤ s.pipe.bufSize) ∧
  (0 ≤ s.pipe.readPos ∧ s.pipe.readPos < s.pipe.bufSize) ∧
  (0 ≤ s.pipe.writePos ∧ s.pipe.writePos < s.pipe.bufSize) ∧
  s.pipe.writePos = (s.pipe.readPos + s.pipe.count) % s.pipe.bufSize ∧
  s.returned <+: s.accepted ∧
  (s.accepted.length : ℤ) = s.returned.length + s.pipe.count

theorem Queue.fifo {s : PipeLog} (h : Queue s) : Fifo s := by
  obtain ⟨hring, hlog⟩ := h
  have hpos := hring.pos
  have hw0 : 0 ≤ s.pipe.writePos := by
    rw [hring.write_eq]
    exact Int.emod_nonneg _ (by omega)
  have hwlt : s.pipe.writePos < s.pipe.bufSize := by
    rw [hring.write_eq]
    exact Int.emod_lt_of_pos _ hpos
  refine ⟨⟨hring.count_nonneg, hring.count_le⟩, ⟨hring.read_nonneg, hring.read_lt⟩, ⟨hw0, hwlt⟩,
    hring.write_eq, ⟨contents s.pipe, hlog.symm⟩, ?_⟩
  rw [hlog, length_append]
  push_cast
  rw [length_contents hring]

theorem not_fifo_of_hitsFill {s : PipeLog}
    (hhit : ResizeHitsFill s.pipe newSize mem) : ¬ Fifo (pipeStep s (.resize newSize mem)) := by
  intro hf
  have hlt := hf.2.2.1.2
  have heq := writePos_of_hitsFill hhit
  simp only [pipeStep] at hlt
  omega

/-- From a state that is in order, a run stays a FIFO exactly when none of its
resizes hits the fill.  The induction is on the calls; the first resize that
hits the fill already leaves a state that is no FIFO. -/
theorem fifo_iff_misses_fill (ops : List PipeOp) (s : PipeLog) (h : Queue s) :
    (∀ pre, pre <+: ops → Fifo (run pipeStep s pre)) ↔ Along pipeStep StepMissesFill s ops := by
  induction ops generalizing s with
  | nil =>
    refine ⟨fun _ => trivial, fun _ pre hpre => ?_⟩
    rw [prefix_nil.1 hpre]
    exact h.fifo
  | cons op ops ih =>
    constructor
    · intro hall
      have hok : StepMissesFill s op := by
        cases op with
        | resize newSize mem =>
          intro hhit
          exact not_fifo_of_hitsFill hhit (hall [.resize newSize mem] ⟨ops, rfl⟩)
        | _ => trivial
      refine ⟨hok, (ih _ (step_queue s op h hok)).1 fun pre hpre => ?_⟩
      exact hall (op :: pre) (cons_prefix_cons.2 ⟨rfl, hpre⟩)
    · intro hal pre hpre
      cases pre with
      | nil => exact h.fifo
      | cons op' pre =>
        obtain ⟨rfl, hpre'⟩ := cons_prefix_cons.1 hpre
        exact (ih _ (step_queue s op' h hal.1)).2 hal.2 pre hpre'

/-- **A pipe is a FIFO exactly as long as no resize hits its fill.**  Over every
sequence of reads, writes, resizes and closes from a fresh pipe, the index
bounds and the stream law hold in every state reached if and only if no resize
that is carried out asks for exactly the number of bytes in the ring. -/
theorem pipe_fifo_iff (pages : ℕ) (h0 : 0 < pages) (h : pages ≤ 512) (ops : List PipeOp) :
    (∀ pre, pre <+: ops → Fifo (run pipeStep (pipeStart pages) pre)) ↔
      Along pipeStep StepMissesFill (pipeStart pages) ops :=
  fifo_iff_misses_fill ops _ (queue_start h0 h)

/-- The default pipe, filled with one page and drained again. -/
theorem pipe_fifo_iff_default :
    Fifo (run pipeStep (pipeStart 16) [.write (List.replicate 4096 7), .read 4096]) :=
  (pipe_fifo_iff 16 (by decide) (by decide) [.write (replicate 4096 7), .read 4096]).2
    ⟨trivial, trivial, trivial⟩ _ (prefix_refl _)

/-- One page in the default pipe, then a resize to one page: `write_pos` is left
at `buf_size`, and the promise is broken. -/
theorem pipe_resize_to_fill_breaks :
    ¬ Fifo (run pipeStep (pipeStart 16) [.write (List.replicate 4096 7), .resize 4096 true]) :=
  not_fifo_of_hitsFill (by decide +kernel)

end CosmoRT.Ipc
