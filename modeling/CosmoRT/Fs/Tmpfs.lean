import CosmoRT.Abi
import CosmoRT.Lib.Pages

/-!
# Contents of tmpfs files: `fs/vfs_rw.c` and the file operations of `fs/tmpfs.c`

A regular file is an array of pages that were allocated one by one, and a size.  `grow_file` adds
zeroed pages, `shrink_file` frees pages behind the end; neither touches the bytes of the pages that
stay, and an open with `O_TRUNC` only sets the size.

Calls are those of the VFS: the limit `RLIMIT_FSIZE` and read-only mounts are looked at first.
What memory is to be had is in `GrowEnv`.  The container of the page pointers appears by its
capacity, which decides whether a file may grow; times are left out.
-/

namespace CosmoRT.Fs

open Lib Function

/-- The content of a tmpfs inode. -/
structure TmpFile where
  pages : ℕ → ℕ → UInt8
  npages : ℕ
  cap : ℕ
  size : ℕ

/-- What the allocators answer while a file grows. -/
structure GrowEnv where
  /-- the container for the pointers is to be had -/
  container : Bool
  /-- pages of all other tmpfs files -/
  others : ℕ
  /-- `ramfs_get_max()` -/
  maxPages : ℕ
  /-- the pages, one after the other, are to be had -/
  page : ℕ → Bool

/-! ## Pages -/

/-- `while (c < need) c *= 2`. -/
def doubleTo : ℕ → ℕ → ℕ → ℕ
  | 0, c, _ => c
  | turns + 1, c, need => if c < need then doubleTo turns (c * 2) need else c

/-- `pages_array_grow`: the new capacity.  The size of the container is an `int`. -/
def pagesArrayGrow (cap need : ℕ) (container : Bool) : Except Errno ℕ :=
  if need ≤ cap then .ok cap
  else
    let newCap := doubleTo 64 (if cap ≠ 0 then cap else 16) need
    let nContainer := int32 ((newCap * 8 + 4095) / 4096 : ℕ)
    if nContainer > 512 then .error .ENOMEM
    else
      let nRound := doubleTo 32 1 nContainer.toNat
      if pagesAllocOk nRound container then .ok (nRound * 4096 / 8) else .error .ENOMEM

section

variable (env : GrowEnv) (f : TmpFile)

/-- `grow_file`. -/
def growFile (needed : ℕ) : Except Errno Unit × TmpFile :=
  let needPages := (needed + 4095) % 2 ^ 64 / 4096
  if needPages ≤ f.npages then (.ok (), f)
  else
    match pagesArrayGrow f.cap needPages env.container with
    | .error e => (.error e, f)
    | .ok cap =>
      let f := { f with cap }
      let add := needPages - f.npages
      -- `ramfs_reserve`
      if env.others + f.npages + add > env.maxPages then (.error .ENOSPC, f)
      else if (List.range add).all env.page then
        (.ok (), { f with
          pages := fun i => if f.npages ≤ i ∧ i < needPages then fun _ => 0 else f.pages i
          npages := needPages })
      -- the pages allocated so far are given back
      else (.error .ENOMEM, f)

section

variable (f : TmpFile)

/-- `shrink_file`. -/
def shrinkFile (newSize : ℕ) : TmpFile :=
  let keepPages := (newSize + 4095) / 4096
  if keepPages ≥ f.npages then f else { f with npages := keepPages }

/-- The page is there. -/
def TmpFile.has (i : ℕ) : Bool := decide (i < f.npages)

/-- `ramfs_read`. -/
def ramfsRead (off len : ℕ) : List UInt8 := readPages 4096 f.pages f.has 0 len off len

/-- `ramfs_write`. -/
def ramfsWrite (src : List UInt8) (off : ℕ) : TmpFile :=
  { f with pages := writePages 4096 f.has 0 src.length f.pages off src }

/-- `ramfs_zero`: the same loop with `kmemset`. -/
def ramfsZero (off len : ℕ) : TmpFile := ramfsWrite f (List.replicate len 0) off

/-- `ramfs_read_locked`. -/
def ramfsReadLocked (off len : ℕ) : List UInt8 :=
  if off < f.size then ramfsRead f off (min len (f.size - off)) else []

end

/-- The common part of `tmpfs_op_write` and `tmpfs_op_pwrite`. -/
def tmpfsStore (src : List UInt8) (off : ℕ) : Except Errno ℕ × TmpFile :=
  let stop := (off + src.length) % 2 ^ 64
  match growFile env f stop with
  | (.error e, f) => (.error e, f)
  | (.ok (), f) =>
    let f := ramfsWrite f src off
    (.ok src.length, { f with size := if stop > f.size then stop else f.size })

/-- `tmpfs_op_truncate` and `tmpfs_op_ftruncate` for a regular file. -/
def tmpfsTruncate (length : ℤ) : Except Errno Unit × TmpFile :=
  if length < 0 then (.error .EINVAL, f)
  else
    let newSize := sizeT length
    if newSize > f.size then
      match growFile env f newSize with
      | (.error e, f) => (.error e, f)
      | (.ok (), f) =>
        let oldPageEnd := (f.size + 4095) / 4096 * 4096
        let f := if oldPageEnd > f.size then
            ramfsZero f f.size (min (oldPageEnd - f.size) (newSize - f.size))
          else f
        (.ok (), { f with size := newSize })
    else
      let f := if newSize < f.size then shrinkFile f newSize else f
      (.ok (), { f with size := newSize })

end

/-! ## Open files -/

/-- A `struct vfs_file` on the inode. -/
structure TmpOpen where
  offset : ℕ
  append : Bool

/-- The file and the open file objects on it. -/
structure TmpSys where
  file : TmpFile
  fds : ℕ → TmpOpen

inductive Whence where
  | set | cur | stop
  deriving DecidableEq

/-- What a call of the VFS looks at besides the file: the limit of the process, the mount. -/
structure CallEnv where
  /-- `rlim_fsize`, unless it is unlimited -/
  limit : Option ℕ
  readOnly : Bool
  grow : GrowEnv

/-- `fsize_clamp_write`: how much may be written. -/
def fsizeClampWrite (limit : Option ℕ) (count offset : ℕ) : Except Errno ℕ :=
  match limit with
  | none => .ok count
  | some lim => if offset ≥ lim then .error .EFBIG else .ok (min count (lim - offset))

/-- `vfs_write` up to the call of the file system: the bytes to be stored; none for nothing. -/
def writeRequest (env : CallEnv) (src : List UInt8) (offset : ℕ) : Except Errno (List UInt8) :=
  if env.readOnly then .error .EROFS
  else
    match fsizeClampWrite env.limit src.length offset with
    | .error e => .error e
    | .ok count => .ok (src.take count)

/-- The position a write goes to: `effective_write_offset` and `tmpfs_op_write` agree. -/
def TmpSys.writeOffset (s : TmpSys) (k : ℕ) : ℕ :=
  if (s.fds k).append then s.file.size else (s.fds k).offset

/-- `vfs_write`. -/
def vfsWrite (env : CallEnv) (s : TmpSys) (k : ℕ) (src : List UInt8) : Except Errno ℕ × TmpSys :=
  let off := s.writeOffset k
  match writeRequest env src off with
  | .error e => (.error e, s)
  | .ok [] => (.ok 0, s)
  | .ok src =>
    -- `O_APPEND` moves the offset before the file grows
    let s := { s with fds := update s.fds k { s.fds k with offset := off } }
    match tmpfsStore env.grow s.file src off with
    | (.error e, f) => (.error e, { s with file := f })
    | (.ok n, f) =>
      (.ok n, {
        file := f
        fds := update s.fds k { s.fds k with offset := (off + src.length) % 2 ^ 64 } })

/-- `vfs_pwrite`. -/
def vfsPwrite (env : CallEnv) (s : TmpSys) (src : List UInt8) (off : ℕ) : Except Errno ℕ × TmpSys :=
  match writeRequest env src off with
  | .error e => (.error e, s)
  | .ok [] => (.ok 0, s)
  | .ok src =>
    let r := tmpfsStore env.grow s.file src off
    (r.1, { s with file := r.2 })

/-- `vfs_read`: the bytes, and the offset moved. -/
def vfsRead (s : TmpSys) (k count : ℕ) : List UInt8 × TmpSys :=
  let got := ramfsReadLocked s.file (s.fds k).offset count
  (got, { s with fds := update s.fds k { s.fds k with
    offset := (s.fds k).offset + got.length } })

/-- `vfs_pread`. -/
def vfsPread (s : TmpSys) (count off : ℕ) : List UInt8 := ramfsReadLocked s.file off count

/-- `vfs_lseek`; the sum is one of `long`. -/
def vfsLseek (s : TmpSys) (k : ℕ) (offset : ℤ) (whence : Whence) : Except Errno ℕ × TmpSys :=
  let newOff :=
    match whence with
    | .set => offset
    | .cur => Int.bmod ((s.fds k).offset + offset) (2 ^ 64)
    | .stop => Int.bmod (s.file.size + offset) (2 ^ 64)
  if newOff < 0 then (.error .EINVAL, s)
  else (.ok newOff.toNat, { s with fds := update s.fds k { s.fds k with
    offset := newOff.toNat } })

/-- `vfs_truncate` and `vfs_ftruncate`. -/
def vfsTruncate (env : CallEnv) (s : TmpSys) (length : ℤ) : Except Errno Unit × TmpSys :=
  if length < 0 then (.error .EINVAL, s)
  else if env.limit.any fun lim => decide (sizeT length > lim) then (.error .EFBIG, s)
  else if env.readOnly then (.error .EROFS, s)
  else
    let r := tmpfsTruncate env.grow s.file length
    (r.1, { s with file := r.2 })

/-- `vfs_open` of the file once an open file object is to be had: with `O_TRUNC` the size is set,
also if there is no descriptor to be had afterwards. -/
def vfsOpen (s : TmpSys) (k : ℕ) (trunc append fdOk : Bool) : Except Errno Unit × TmpSys :=
  let s := if trunc then { s with file := { s.file with size := 0 } } else s
  if fdOk then (.ok (), { s with fds := update s.fds k ⟨0, append⟩ })
  else (.error .EMFILE, s)

end CosmoRT.Fs
