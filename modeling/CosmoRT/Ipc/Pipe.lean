import CosmoRT.Abi
import CosmoRT.Lib.Ring
import CosmoRT.Lib.Run

/-!
# Pipes: the ring buffer of `sys_ipc.c`

`struct pipe` with the calls that move bytes through it — `pipe_read`,
`pipe_write`, their blocking forms, `pipe_resize` and `pipe_close` — each as one
step under the pipe's lock.  Wait queues and the SIGIO owners are left out: no
call below reads them to decide what happens to the ring.
-/

namespace CosmoRT.Ipc

/-! ## The ring -/

/-- `struct pipe`: the ring, its indices and the open counts of its two ends. -/
structure Pipe where
  /-- The allocated cells; `bufSize` of them. -/
  buf : List UInt8
  bufSize : ℤ
  readPos : ℤ
  writePos : ℤ
  count : ℤ
  readOpen : ℤ
  writeOpen : ℤ
  wasFull : Bool
  deriving DecidableEq, Repr

/-- Whole pages for a byte count, as `pipe_page_count` rounds it.  The sum is an
`int` and wraps for sizes in the last page below `2^31`. -/
def pipePageCount (bytes : ℤ) : ℤ :=
  if bytes ≤ 0 then 1 else (int32 (bytes + 4095)).tdiv 4096

/-- The pipe `do_pipe2` makes over `pages` freshly allocated pages. -/
def newPipe (pages : ℕ) : Pipe where
  buf := List.replicate (pages * 4096) 0
  bufSize := pages * 4096
  readPos := 0
  writePos := 0
  count := 0
  readOpen := 1
  writeOpen := 1
  wasFull := false

/-- The copy loop of a read: `n` cells from `read_pos` on. -/
def copyOut : ℕ → Pipe → List UInt8 × Pipe
  | 0, pp => ([], pp)
  | n + 1, pp =>
    let b := pp.buf.getD pp.readPos.toNat default
    let r := copyOut n { pp with readPos := (pp.readPos + 1) % pp.bufSize }
    (b :: r.1, r.2)

/-- The copy loop of a write.  A store at an index past the last cell is outside
the ring; `List.set` drops it. -/
def copyIn : List UInt8 → Pipe → Pipe
  | [], pp => pp
  | b :: bs, pp =>
    copyIn bs { pp with
      buf := pp.buf.set pp.writePos.toNat b
      writePos := (pp.writePos + 1) % pp.bufSize }

section

variable (pp : Pipe)

/-- The read under the lock that `pipe_read` and `pipe_read_blocking` share, for a
ring that is not empty. -/
def takeBytes (count : ℕ) : List UInt8 × Pipe :=
  let n := if count > sizeT pp.count then sizeT pp.count else count
  let r := copyOut n pp
  let left := r.2.count - n
  (r.1, { r.2 with count := left, wasFull := if left = 0 then false else r.2.wasFull })

/-- The write under the lock that `pipe_write` and `pipe_write_blocking` share:
the first `n` bytes of the buffer, where `n` is what fits. -/
def putBytes (data : List UInt8) (n : ℕ) : Pipe :=
  let q := copyIn (data.take n) pp
  let filled := q.count + n
  { q with count := filled, wasFull := if filled ≥ q.bufSize then true else q.wasFull }

/-- How many of `count` bytes fit: `space = buf_size - count`, as a `size_t`. -/
def fits (count : ℕ) : ℕ :=
  let space := sizeT (pp.bufSize - pp.count)
  if count > space then space else count

/-! ## The calls -/

/-- `pipe_read`: the bytes returned, or the error. -/
def pipeRead (count : ℕ) : Except Errno (List UInt8) × Pipe :=
  if pp.count = 0 then
    (if pp.writeOpen ≠ 0 then .error .EAGAIN else .ok [], pp)
  else
    let r := takeBytes pp count
    (.ok r.1, r.2)

/-- `pipe_write`: how many bytes were accepted, or the error. -/
def pipeWrite (data : List UInt8) : Except Errno ℕ × Pipe :=
  if pp.readOpen = 0 then (.error .EPIPE, pp)
  else
    let n := fits pp data.length
    if n = 0 then (.error .EAGAIN, pp) else (.ok n, putBytes pp data n)

/-- One turn of the loop of `pipe_read_blocking`; `none` when the reader goes to
sleep.  `sig` says whether a signal is deliverable. -/
def pipeReadBlocking (count : ℕ) (sig : Bool) : Option (Except Errno (List UInt8)) × Pipe :=
  if pp.count > 0 then
    let r := takeBytes pp count
    (some (.ok r.1), r.2)
  else if pp.writeOpen = 0 then (some (.ok []), pp)
  else if sig then (some (.error .ERESTARTSYS), pp)
  else (none, pp)

/-- One turn of the loop of `pipe_write_blocking`. -/
def pipeWriteBlocking (data : List UInt8) (sig : Bool) : Option (Except Errno ℕ) × Pipe :=
  if pp.readOpen = 0 then (some (.error .EPIPE), pp)
  else if pp.count < pp.bufSize then
    let n := fits pp data.length
    (some (.ok n), putBytes pp data n)
  else if sig then (some (.error .ERESTARTSYS), pp)
  else (none, pp)

/-- The size `pipe_resize` works with: the request in whole pages. -/
def roundedSize (newSize : ℤ) : ℤ := pipePageCount newSize * 4096

/-- The second locked section of `pipe_resize`: the buffered bytes are copied to
the front of the new cells and the ring starts over. -/
def rebase (rounded : ℤ) : Pipe :=
  let moved := (List.range pp.count.toNat).map fun (i : ℕ) =>
    pp.buf.getD ((pp.readPos + i) % pp.bufSize).toNat default
  { pp with
    buf := moved ++ List.replicate (rounded - pp.count).toNat 0
    bufSize := rounded
    readPos := 0
    writePos := pp.count
    wasFull := if pp.count < rounded then false else pp.wasFull }

/-- `pipe_resize`.  `mem` says whether the buddy allocator has the pages. -/
def pipeResize (newSize : ℤ) (mem : Bool) : Except Errno ℤ × Pipe :=
  let rounded := roundedSize newSize
  if rounded < pp.count then (.error .EBUSY, pp)
  else if rounded = pp.bufSize then (.ok rounded, pp)
  else if pagesAllocOk (pipePageCount newSize) mem = false then (.error .ENOMEM, pp)
  -- the re-check after the lock is taken again
  else if rounded < pp.count then (.error .EBUSY, pp)
  else (.ok rounded, rebase pp rounded)

/-- `pipe_close` of one end, up to the wake-ups and the final free. -/
def pipeClose (isWrite : Bool) : Pipe :=
  if isWrite then
    if pp.writeOpen > 0 then { pp with writeOpen := pp.writeOpen - 1 } else pp
  else
    if pp.readOpen > 0 then { pp with readOpen := pp.readOpen - 1 } else pp

end

/-! ## Runs with a log of the bytes that went in and out -/

/-- The calls on a pipe. -/
inductive PipeOp where
  | write (data : List UInt8)
  | writeBlocking (data : List UInt8) (sig : Bool)
  | read (count : ℕ)
  | readBlocking (count : ℕ) (sig : Bool)
  | resize (newSize : ℤ) (mem : Bool)
  | close (isWrite : Bool)
  deriving DecidableEq, Repr

/-- A pipe with everything its writes accepted and its reads returned. -/
structure PipeLog where
  pipe : Pipe
  accepted : List UInt8
  returned : List UInt8
  deriving DecidableEq, Repr

/-- The bytes a write took, from its result. -/
def acceptedBytes (data : List UInt8) : Except Errno ℕ → List UInt8
  | .ok n => data.take n
  | .error _ => []

/-- The bytes a read gave, from its result. -/
def returnedBytes : Except Errno (List UInt8) → List UInt8
  | .ok out => out
  | .error _ => []

/-- One call on a pipe, with the log of its bytes. -/
def pipeStep (s : PipeLog) : PipeOp → PipeLog
  | .write data =>
    let r := pipeWrite s.pipe data
    { s with pipe := r.2, accepted := s.accepted ++ acceptedBytes data r.1 }
  | .writeBlocking data sig =>
    let r := pipeWriteBlocking s.pipe data sig
    { s with pipe := r.2, accepted := s.accepted ++ (r.1.map (acceptedBytes data)).getD [] }
  | .read count =>
    let r := pipeRead s.pipe count
    { s with pipe := r.2, returned := s.returned ++ returnedBytes r.1 }
  | .readBlocking count sig =>
    let r := pipeReadBlocking s.pipe count sig
    { s with pipe := r.2, returned := s.returned ++ (r.1.map returnedBytes).getD [] }
  | .resize newSize mem => { s with pipe := (pipeResize s.pipe newSize mem).2 }
  | .close isWrite => { s with pipe := pipeClose s.pipe isWrite }

end CosmoRT.Ipc
