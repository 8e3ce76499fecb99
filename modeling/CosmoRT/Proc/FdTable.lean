import CosmoRT.Abi
import CosmoRT.Lib.Bitmap
import CosmoRT.Lib.Doubling

/-!
# The descriptor table of `process.c` and `fd.h`

`fd_table_t` as the code lays it out — a directory of leaf pages with 170
entries each, and a flat bitmap with one bit per slot, set when the slot is free
— and the calls that allocate, duplicate, install, close and look up
descriptors.  The table's own reference count is left out: no call below reads
it.
-/

namespace CosmoRT.Proc

open Lib

/-! ## The table -/

/-- The `FD_*` kinds of an entry. -/
inductive FdType where
  | NONE | SERIAL | PIPE | SOCKET | DEVICE | FILE | PROCFS | EPOLL | EVENTFD | TIMERFD
  | INOTIFY | PTY_MASTER | PTY_SLAVE | UNIX_SOCK | NSFS
  deriving DecidableEq, Repr

/-- `fd_entry_t`; the object pointer is its address. -/
structure FdEntry where
  type : FdType
  obj : ℕ
  flags : ℤ
  deriving DecidableEq, Repr

/-- An entry of a zeroed page. -/
def FdEntry.unused : FdEntry := ⟨.NONE, 0, 0⟩

/-- `FD_INIT_SLOTS`. -/
abbrev fdInitSlots : ℕ := 64

/-- `FD_LEAF_PER_PAGE`. -/
abbrev fdLeafPerPage : ℕ := 170

/-- `FD_CEILING`. -/
abbrev fdCeiling : ℕ := 2 ^ 20

/-- `FD_DEFAULT_NOFILE`. -/
abbrev fdDefaultNofile : ℕ := 1024

/-- A leaf page of entries. -/
abbrev FdLeaf := Vector FdEntry 170

/-- `fd_table_t`. -/
structure FdTable where
  /-- The leaf pointers; a leaf that was never touched is `none`. -/
  entriesDir : List (Option FdLeaf)
  leafCount : ℕ
  freeBitmap : List (BitVec 64)
  maxSlots : ℕ
  maxFd : ℕ
  deriving DecidableEq

/-- `dir_capacity`: the number of leaf-pointer slots. -/
abbrev FdTable.dirCapacity (fdt : FdTable) : ℕ := fdt.entriesDir.length

/-- A table before its first growth. -/
def FdTable.empty : FdTable := ⟨[], 0, [], 0, 0⟩

/-- Whether the buddy allocator has the pages of each of the allocations a call
can make. -/
structure FdMem where
  dir : Bool
  bitmap : Bool
  leaf : Bool
  deriving DecidableEq, Repr

/-- Memory for everything. -/
def FdMem.ample : FdMem := ⟨true, true, true⟩

section

variable (fdt : FdTable) (fd : ℕ)

/-- `fd_leaf`. -/
def fdLeaf : Option FdLeaf :=
  let leaf := fd / fdLeafPerPage
  if leaf ≥ fdt.dirCapacity then none else fdt.entriesDir.getD leaf none

/-- `page[fd % FD_LEAF_PER_PAGE]`. -/
def leafEntry (page : FdLeaf) (fd : ℕ) : FdEntry := page[fd % 170]

/-- `fd_entry_at`, read through. -/
def fdEntryAt : Option FdEntry :=
  (fdLeaf fdt fd).map fun page => leafEntry page fd

/-- `*fd_entry_at(fdt, fd) = e`, for an `fd` whose leaf is there. -/
def setEntry (e : FdEntry) : FdTable :=
  { fdt with
    entriesDir := fdt.entriesDir.modify (fd / fdLeafPerPage) fun page =>
      page.map fun p => p.set (fd % 170) e }

/-- `fd_mark_used`. -/
def fdMarkUsed : FdTable :=
  { fdt with freeBitmap := clearBit fdt.freeBitmap fd }

/-- `fd_mark_free`. -/
def fdMarkFree : FdTable :=
  { fdt with freeBitmap := setBit fdt.freeBitmap fd }

end

/-- `fd_bitmap_alloc_slots`: whole words of slots. -/
def fdBitmapAllocSlots (slots : ℕ) : ℕ := (slots + 63) / 64 * 64

section

variable (fdt : FdTable)

/-- `fd_find_free`: the lowest free descriptor from `minfd` on within the current
capacity. -/
def fdFindFree (minfd : ℕ) : Option ℕ :=
  if minfd ≥ fdt.maxSlots then none
  else
    let nwords := fdBitmapAllocSlots fdt.maxSlots / 64
    let word := minfd / 64
    let w := fdt.freeBitmap.getD word 0 &&& (BitVec.allOnes 64 <<< (minfd % 64))
    match scanWords fdt.freeBitmap (nwords - word) word w with
    | some fd => if fd < fdt.maxSlots then some fd else none
    | none => none

/-! ## Growth -/

/-- `fd_bitmap_pages`. -/
def fdBitmapPages (slots : ℕ) : ℕ :=
  let words := if slots / 64 = 0 then 1 else slots / 64
  (words * 8 + 4095) / 4096

/-- `fd_dir_pages`: a power of two of pages that holds the leaf pointers. -/
def fdDirPages (leafSlots : ℕ) : ℕ :=
  let n := (leafSlots * 8 + 4095) / 4096
  doubleUntil (if n < 1 then 1 else n) 32 1

/-- `fd_round_slots`. -/
def fdRoundSlots (s : ℕ) : ℕ := (s + fdLeafPerPage - 1) / fdLeafPerPage * fdLeafPerPage

/-- `fd_dir_grow`. -/
def fdDirGrow (needLeaves : ℕ) (mem : FdMem) : Except Errno Unit × FdTable :=
  if needLeaves ≤ fdt.dirCapacity then (.ok (), fdt)
  else
    let newCap := doubleUntil needLeaves 32 (if fdt.dirCapacity ≠ 0 then fdt.dirCapacity else 1)
    if pagesAllocOk (fdDirPages newCap) mem.dir = false then (.error .ENOMEM, fdt)
    else
      -- the new pages are zeroed: every pointer past the copied ones is null
      (.ok (), { fdt with
        entriesDir := fdt.entriesDir ++ List.replicate (newCap - fdt.dirCapacity) none })

/-- `fd_bitmap_grow`: all bits free, then those of the old range that were used,
then the slack behind the last slot marked used. -/
def fdBitmapGrow (newSlots : ℕ) (mem : FdMem) : Except Errno Unit × FdTable :=
  if newSlots ≤ fdt.maxSlots then (.ok (), fdt)
  else
    let allocSlots := fdBitmapAllocSlots newSlots
    if pagesAllocOk (fdBitmapPages allocSlots) mem.bitmap = false then (.error .ENOMEM, fdt)
    else
      let nb := List.replicate (allocSlots / 64) (BitVec.allOnes 64)
      let carried := clearUnless (bit fdt.freeBitmap) (List.range fdt.maxSlots) nb
      (.ok (), { fdt with
        freeBitmap := clearUnless (fun _ => false)
          (List.range' newSlots (allocSlots - newSlots)) carried
        maxSlots := newSlots })

/-- `fd_leaf_alloc`. -/
def fdLeafAlloc (fd : ℕ) (mem : FdMem) : Except Errno Unit × FdTable :=
  let li := fd / fdLeafPerPage
  if (fdt.entriesDir.getD li none).isSome then (.ok (), fdt)
  else if pagesAllocOk 1 mem.leaf = false then (.error .ENOMEM, fdt)
  else
    (.ok (), { fdt with
      entriesDir := fdt.entriesDir.set li (some (Vector.replicate 170 FdEntry.unused))
      leafCount := fdt.leafCount + 1 })

/-- `fd_table_grow`. -/
def fdTableGrow (minSlots : ℕ) (mem : FdMem) : Except Errno Unit × FdTable :=
  if minSlots > fdCeiling then (.error .EMFILE, fdt)
  else
    let doubled := doubleUntil minSlots 32 (if fdt.maxSlots ≠ 0 then fdt.maxSlots else fdInitSlots)
    let clamped := min doubled fdCeiling
    if clamped < minSlots then (.error .EMFILE, fdt)
    else
      let newSlots := min (fdRoundSlots clamped) fdCeiling
      let needLeaves := (newSlots + fdLeafPerPage - 1) / fdLeafPerPage
      match fdDirGrow fdt needLeaves mem with
      | (.error e, fdt) => (.error e, fdt)
      | (.ok _, fdt) => fdBitmapGrow fdt newSlots mem

end

/-- An entry of stdio: on `fd_default_pty`, or on the serial port while there is
none. -/
def stdioEntry (defaultPty flags : ℤ) : FdEntry :=
  if defaultPty ≥ 0 then ⟨.PTY_SLAVE, defaultPty.toNat, flags⟩ else ⟨.SERIAL, 0, flags⟩

/-- `fd_table_init`: a grown empty table with stdio at 0 (`O_RDONLY`), 1 and 2
(`O_WRONLY`). -/
def fdTableInit (defaultPty : ℤ) (mem : FdMem) : Except Errno Unit × FdTable :=
  match fdTableGrow FdTable.empty fdInitSlots mem with
  | (.error _, fdt) => (.error .ENOMEM, fdt)
  | (.ok _, fdt) =>
    match fdLeafAlloc fdt 0 mem with
    | (.error _, fdt) => (.error .ENOMEM, fdt)
    | (.ok _, fdt) =>
      let fdt := setEntry fdt 0 (stdioEntry defaultPty 0)
      let fdt := setEntry fdt 1 (stdioEntry defaultPty 1)
      let fdt := setEntry fdt 2 (stdioEntry defaultPty 1)
      (.ok (), { fdMarkUsed (fdMarkUsed (fdMarkUsed fdt 0) 1) 2 with maxFd := 3 })

/-! ## The calls -/

/-- `fd_effective_nofile`: an unset limit is the default one. -/
def fdEffectiveNofile (rlimNofile : ℕ) : ℕ :=
  if rlimNofile ≠ 0 then rlimNofile else fdDefaultNofile

section

variable (fdt : FdTable)

/-- `fd_ensure_capacity`. -/
def fdEnsureCapacity (minSlots nofile : ℕ) (mem : FdMem) : Except Errno Unit × FdTable :=
  if minSlots ≤ fdt.maxSlots then (.ok (), fdt)
  else
    let minSlots := min minSlots (min nofile fdCeiling)
    if minSlots ≤ fdt.maxSlots then (.error .EMFILE, fdt)
    else fdTableGrow fdt minSlots mem

/-- The end of `fd_alloc`, `fd_dup_at` and `fd_install_at`: the entry is stored at
`fd` and the slot taken. -/
def fdStore (fd : ℕ) (e : FdEntry) (mem : FdMem) : Except Errno Unit × FdTable :=
  match fdLeafAlloc fdt fd mem with
  | (.error _, fdt) => (.error .ENOMEM, fdt)
  | (.ok _, fdt) =>
    let fdt := fdMarkUsed (setEntry fdt fd e) fd
    (.ok (), if fd ≥ fdt.maxFd then { fdt with maxFd := fd + 1 } else fdt)

/-- The search `fd_alloc` and `fd_dup_at` share: a free descriptor below the limit
from `minfd` on, growing the table once to at least `want` slots when the first
try finds none. -/
def fdSearch (minfd want nofile : ℕ) (mem : FdMem) : Except Errno ℕ × FdTable :=
  match (fdFindFree fdt minfd).filter (· < nofile) with
  | some fd => (.ok fd, fdt)
  | none =>
    match fdEnsureCapacity fdt want nofile mem with
    | (.error e, fdt) => (.error e, fdt)
    | (.ok _, fdt) =>
      match (fdFindFree fdt minfd).filter (· < nofile) with
      | some fd => (.ok fd, fdt)
      | none => (.error .EMFILE, fdt)

/-- The search followed by the store. -/
def fdPlace (minfd want nofile : ℕ) (e : FdEntry) (mem : FdMem) : Except Errno ℕ × FdTable :=
  match fdSearch fdt minfd want nofile mem with
  | (.error err, fdt) => (.error err, fdt)
  | (.ok fd, fdt) =>
    match fdStore fdt fd e mem with
    | (.error err, fdt) => (.error err, fdt)
    | (.ok _, fdt) => (.ok fd, fdt)

/-- `fd_alloc`. -/
def fdAlloc (rlimNofile : ℕ) (type : FdType) (obj : ℕ) (flags : ℤ) (mem : FdMem) :
    Except Errno ℕ × FdTable :=
  let want := if fdt.maxSlots ≠ 0 then fdt.maxSlots + 1 else fdInitSlots
  fdPlace fdt 0 want (fdEffectiveNofile rlimNofile) ⟨type, obj, flags⟩ mem

/-- `fd_dup_at`. -/
def fdDupAt (rlimNofile : ℕ) (minfd : ℤ) (src : FdEntry) (newFlags : ℤ)
    (mem : FdMem) : Except Errno ℕ × FdTable :=
  let nofile := fdEffectiveNofile rlimNofile
  if minfd < 0 then (.error .EINVAL, fdt)
  else if minfd ≥ nofile then (.error .EMFILE, fdt)
  else
    let want := if fdt.maxSlots * 2 ≤ minfd.toNat then minfd.toNat + 1 else fdt.maxSlots * 2
    fdPlace fdt minfd.toNat want nofile { src with flags := newFlags } mem

/-- `fd_install_at`. -/
def fdInstallAt (rlimNofile : ℕ) (newfd : ℤ) (src : FdEntry) (mem : FdMem) :
    Except Errno Unit × FdTable :=
  let nofile := fdEffectiveNofile rlimNofile
  if newfd < 0 then (.error .EBADF, fdt)
  else if newfd ≥ nofile then (.error .EMFILE, fdt)
  else
    let grown := if newfd ≥ fdt.maxSlots then fdEnsureCapacity fdt (newfd.toNat + 1) nofile mem
      else (.ok (), fdt)
    match grown with
    | (.error err, fdt) => (.error err, fdt)
    | (.ok _, fdt) => fdStore fdt newfd.toNat src mem

/-- `fd_get`. -/
def fdGet (fd : ℤ) : Option FdEntry :=
  if fd < 0 ∨ fd ≥ fdt.maxSlots then none
  else (fdEntryAt fdt fd.toNat).filter (·.type ≠ .NONE)

/-- `fd_close`; `false` is its `-1`. -/
def fdClose (fd : ℤ) : Bool × FdTable :=
  if fd < 0 ∨ fd ≥ fdt.maxSlots then (false, fdt)
  else
    match fdEntryAt fdt fd.toNat with
    | none => (false, fdt)
    | some e =>
      if e.type = .NONE then (false, fdt)
      else
        let closed := setEntry fdt fd.toNat { e with type := .NONE, obj := 0 }
        (true, fdMarkFree closed fd.toNat)

end

end CosmoRT.Proc
