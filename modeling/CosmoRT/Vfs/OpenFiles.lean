import CosmoRT.Abi
import CosmoRT.Lib.CounterTable

/-!
# Open files: `fs/vfs.c` and what refers to open file objects

A `struct vfs_file` is referred to by descriptors of the tables of all processes and by loop
devices.  Two hash tables of counters go with it: `i_writecount` per backend and inode number, for
writers and executables, and the number of opens of an ext4 inode number.

What a path denotes, what the allocators answer and which descriptor number is free are parameters
of a call.  Tables hold descriptors of files only; numbers and capacity of tables are as in
`Proc.FdTable`, here a table is the list of its slots.
-/

namespace CosmoRT.Vfs

open Lib Function Counter

/-! ## The objects -/

/-- `VFS_BACKEND_RAM` and `VFS_BACKEND_EXT4`. -/
inductive Backend where
  | ram
  | ext4
  deriving DecidableEq, Repr

def Backend.code : Backend → ℕ
  | .ram => 0
  | .ext4 => 1

/-- A file.  Inode numbers of tmpfs are given once for all mounts; those of ext4 belong to a file
system, of which the default one has the number 0. -/
structure FileId where
  backend : Backend
  fs : ℕ
  ino : ℕ
  deriving DecidableEq, Repr

/-- `f->type`: symbolic links and the like are `other`. -/
inductive NodeType where
  | file
  | dir
  | other
  deriving DecidableEq, Repr

/-- `struct vfs_file`: the access mode is `flags & O_ACCMODE`. -/
structure VfsFile where
  type : NodeType
  accMode : Fin 4
  id : FileId
  refcount : ℤ
  deriving DecidableEq, Repr

/-- A descriptor: the object it refers to, and `O_CLOEXEC`. -/
structure Desc where
  file : ℕ
  cloexec : Bool
  deriving DecidableEq, Repr

/-- A descriptor table with its reference count. -/
structure DescTable where
  slots : List (Option Desc)
  refcount : ℤ
  deriving DecidableEq, Repr

/-- What a process holds: a table, and the file it executes (`exe_ino` is 0 for none). -/
structure Process where
  fds : Option ℕ
  exeBackend : Backend
  exeIno : ℕ
  zombie : Bool
  deriving DecidableEq, Repr

/-- What a write count is kept for. -/
abbrev WcKey := Backend × ℕ

def FileId.key (f : FileId) : WcKey := (f.backend, f.ino)

def Process.exe (p : Process) : WcKey := (p.exeBackend, p.exeIno)

/-- Processes, tables, open file objects, the two counter tables and the loop devices. -/
structure System where
  procs : ℕ → Option Process
  tables : ℕ → Option DescTable
  files : ℕ → Option VfsFile
  wc : ℕ → List (Counter WcKey)
  opens : ℕ → List (Counter ℕ)
  /-- `backing_file` of the loop devices that are bound -/
  loops : ℕ → Option ℕ

/-! ## Write counts -/

/-- `wc_hash_fn`. -/
def wcHash (k : WcKey) : ℕ := ((k.1.code <<< 56) ^^^ k.2) * 2654435761 % 2 ^ 64 % 128

section

variable (t : ℕ → List (Counter WcKey)) (k : WcKey)

/-- `wc_apply`; `mem` says whether a new entry is to be had. -/
def wcApply (delta : ℤ) (mem : Bool) : ℕ → List (Counter WcKey) :=
  match bucketFind wcHash key t k with
  | some e =>
    if e.count + delta = 0 then bucketErase wcHash key t k
    else counterSet wcHash t k (e.count + delta)
  | none => if mem then bucketPush wcHash key t ⟨k, delta⟩ else t

/-- `wc_peek`. -/
def wcPeek : ℤ := counterOf wcHash t k

/-- `i_writecount_get_write`. -/
def iWritecountGetWrite (mem : Bool) : Except Errno (ℕ → List (Counter WcKey)) :=
  if wcPeek t k < 0 then .error .ETXTBSY else .ok (wcApply t k 1 mem)

/-- `i_writecount_deny_write`. -/
def iWritecountDenyWrite (mem : Bool) : Except Errno (ℕ → List (Counter WcKey)) :=
  if wcPeek t k > 0 then .error .ETXTBSY else .ok (wcApply t k (-1) mem)

end

/-! ## Opens of ext4 inodes -/

/-- `ext4_open_hash_fn`. -/
def ext4OpenHash (ino : ℕ) : ℕ := ino * 2654435761 % 2 ^ 32 % 64

section

variable (t : ℕ → List (Counter ℕ)) (ino : ℕ)

/-- `ext4_open_inc`. -/
def ext4OpenInc (mem : Bool) : ℕ → List (Counter ℕ) :=
  match bucketFind ext4OpenHash key t ino with
  | some e => counterSet ext4OpenHash t ino (e.count + 1)
  | none => if mem then bucketPush ext4OpenHash key t ⟨ino, 1⟩ else t

/-- `ext4_open_dec`. -/
def ext4OpenDec : ℕ → List (Counter ℕ) :=
  match bucketFind ext4OpenHash key t ino with
  | some e =>
    if e.count - 1 ≤ 0 then bucketErase ext4OpenHash key t ino
    else counterSet ext4OpenHash t ino (e.count - 1)
  | none => t

end

/-! ## References to file objects -/

/-- The objects that `vfs_file_release` takes off the write count. -/
def VfsFile.countsWrite (f : VfsFile) : Bool :=
  f.type = .file && (f.accMode = 1 || f.accMode = 2) && f.id.ino ≠ 0

section

variable (s : System)

/-- `vfs_file_incref`. -/
def System.incref (a : ℕ) : System :=
  { s with files := update s.files a ((s.files a).map fun f =>
      { f with refcount := f.refcount + 1 }) }

/-- `vfs_file_release` and `file_free`. -/
def System.release (a : ℕ) (f : VfsFile) (mem : Bool) : System :=
  { s with
    files := update s.files a none
    wc := if f.countsWrite then wcApply s.wc f.id.key (-1) mem else s.wc
    -- `ext4_vfs_close`
    opens := if f.id.backend = .ext4 ∧ f.id.ino ≠ 0 then ext4OpenDec s.opens f.id.ino else s.opens }

/-- `vfs_file_free_obj`. -/
def System.drop (a : ℕ) (mem : Bool) : System :=
  match s.files a with
  | none => s
  | some f =>
    if f.refcount - 1 ≤ 0 then s.release a f mem
    else { s with files := update s.files a (some { f with refcount := f.refcount - 1 }) }

/-- The references of a list of slots, dropped one after the other. -/
def System.dropAll (mem : Bool) (slots : List (Option Desc)) : System :=
  slots.foldl (fun s d => match d with
    | none => s
    | some d => s.drop d.file mem) s

/-- The references of a list of slots, taken once more. -/
def System.increfAll (slots : List (Option Desc)) : System :=
  slots.foldl (fun s d => match d with
    | none => s
    | some d => s.incref d.file) s

/-! ## Tables -/

/-- `fd_get`. -/
def DescTable.get (t : DescTable) (fd : ℕ) : Option Desc := t.slots.getD fd none

/-- The entry of a descriptor, set; a table has room as it is needed. -/
def DescTable.set (t : DescTable) (fd : ℕ) (d : Option Desc) : DescTable :=
  { t with slots := (t.slots ++ List.replicate (fd + 1 - t.slots.length) none).set fd d }

/-- An address the allocator gives: nothing is there. -/
def freshAt {α : Type} (at? : ℕ → Option α) (slab : Option ℕ) : Option ℕ :=
  slab.filter fun a => (at? a).isNone

/-- The number a free descriptor is found under, if there is one. -/
def DescTable.free (t : DescTable) (fd : Option ℕ) : Option ℕ :=
  fd.filter fun fd => (t.get fd).isNone

/-- The table at an address, replaced. -/
def System.setTable (a : ℕ) (t : Option DescTable) : System :=
  { s with tables := update s.tables a t }

/-- The entry of a process, replaced. -/
def System.setProc (pid : ℕ) (p : Option Process) : System :=
  { s with procs := update s.procs pid p }

/-- The process with its table, if it runs. -/
def System.running (pid : ℕ) : Option (Process × ℕ × DescTable) :=
  match s.procs pid with
  | none => none
  | some p =>
    match p.fds with
    | none => none
    | some ta =>
      match s.tables ta with
      | none => none
      | some t => if p.zombie then none else some (p, ta, t)

/-- `fd_table_put` with `fd_table_drain`. -/
def fdTablePut (a : ℕ) (mem : Bool) : System :=
  match s.tables a with
  | none => s
  | some t =>
    if t.refcount = 1 then (s.setTable a none).dropAll mem t.slots
    else s.setTable a (some { t with refcount := t.refcount - 1 })

/-- `fd_table_put` of what a process holds. -/
def fdsPut (fds : Option ℕ) (mem : Bool) : System :=
  match fds with
  | none => s
  | some a => fdTablePut s a mem

/-- The loop of `dup_fd_table` and of `fd_table_unshare`: a new table with the first `copyEnd`
entries; memory for its leaves lasts for `leaves` of them. -/
def copyTable (t : DescTable) (slab : Option ℕ) (copyEnd leaves : ℕ) : Bool × Option ℕ × System :=
  match freshAt s.tables slab with
  | none => (false, none, s)
  | some a =>
    let copied := t.slots.take (min copyEnd leaves)
    (decide (copyEnd ≤ leaves), some a, (s.increfAll copied).setTable a (some ⟨copied, 1⟩))

end

/-! ## Opening and closing -/

/-- What the path of an open denotes, after `O_CREAT` has made it. -/
structure OpenTarget where
  type : NodeType
  id : FileId
  deriving DecidableEq, Repr

/-- The flags of an open. -/
structure OpenFlags where
  accMode : Fin 4
  trunc : Bool
  cloexec : Bool
  directory : Bool
  deriving DecidableEq, Repr

/-- What an open meets: memory for counters, the address of the object, a free number. -/
structure OpenEnv where
  wcMem : Bool
  openMem : Bool
  slab : Option ℕ
  fd : Option ℕ
  deriving DecidableEq, Repr

/-- `writable` and `writable_tm`. -/
def takesWrite (flags : OpenFlags) (tg : OpenTarget) : Bool :=
  tg.type = .file && (flags.accMode = 1 || flags.accMode = 2 || flags.trunc)

section

variable (s : System)

/-- `i_writecount_put_write` on the error paths. -/
def System.putWrite (took : Bool) (k : WcKey) (mem : Bool) : System :=
  if took then { s with wc := wcApply s.wc k (-1) mem } else s

section

variable (pid : ℕ)

/-- `vfs_open` from where the inode is known and `i_writecount` taken. -/
def openCounted (flags : OpenFlags) (tg : OpenTarget) (env : OpenEnv) : Except Errno ℕ × System :=
  let took := takesWrite flags tg
  match freshAt s.files env.slab with
  | none => (.error .ENOMEM, s.putWrite took tg.id.key env.wcMem)
  | some a =>
    match s.running pid with
    | none => (.error .EFAULT, s.putWrite took tg.id.key env.wcMem)
    | some (_, ta, t) =>
      match t.free env.fd with
      | none => (.error .EMFILE, s.putWrite took tg.id.key env.wcMem)
      | some fd =>
        (.ok fd, { s with
          files := update s.files a (some ⟨tg.type, flags.accMode, tg.id, 1⟩)
          tables := update s.tables ta (some (t.set fd (some ⟨a, flags.cloexec⟩)))
          opens :=
            if tg.id.backend = .ext4 then ext4OpenInc s.opens tg.id.ino env.openMem
            else s.opens })

/-- `vfs_open`, for ext4 and for tmpfs. -/
def vfsOpen (flags : OpenFlags) (target : Except Errno OpenTarget)
    (env : OpenEnv) : Except Errno ℕ × System :=
  match target with
  | .error e => (.error e, s)
  | .ok tg =>
    if flags.directory ∧ tg.type ≠ .dir then (.error .ENOTDIR, s)
    else if tg.type = .dir ∧ flags.accMode ≠ 0 then (.error .EISDIR, s)
    else if takesWrite flags tg then
      match iWritecountGetWrite s.wc tg.id.key env.wcMem with
      | .error e => (.error e, s)
      | .ok wc => openCounted { s with wc } pid flags tg env
    else openCounted s pid flags tg env

/-- `vfs_close`. -/
def vfsClose (pid fd : ℕ) (mem : Bool) : Except Errno Unit × System :=
  match s.running pid with
  | none => (.error .EFAULT, s)
  | some (_, ta, t) =>
    match t.get fd with
    | none => (.error .EBADF, s)
    | some d => (.ok (), (s.drop d.file mem).setTable ta (some (t.set fd none)))

/-- `dup` and `F_DUPFD`: the number comes from `fd_dup_at`. -/
def doDup (pid fd : ℕ) (cloexec : Bool) (newfd : Option ℕ) : Except Errno ℕ × System :=
  match s.running pid with
  | none => (.error .EFAULT, s)
  | some (_, ta, t) =>
    match t.get fd with
    | none => (.error .EBADF, s)
    | some d =>
      match t.free newfd with
      | none => (.error .EMFILE, s)
      | some n =>
        (.ok n, (s.setTable ta (some (t.set n (some ⟨d.file, cloexec⟩)))).incref d.file)

/-- `dup3` and `dup2`: what the new number refers to is closed first; `room` says whether
`fd_install_at` succeeds. -/
def doDup3 (pid oldfd newfd : ℕ) (cloexec room mem : Bool) : Except Errno ℕ × System :=
  if oldfd = newfd then (.error .EINVAL, s)
  else
    match s.running pid with
    | none => (.error .EFAULT, s)
    | some (_, ta, t) =>
      match t.get oldfd with
      | none => (.error .EBADF, s)
      | some d =>
        let s := (vfsClose s pid newfd mem).2
        if room then
          (.ok newfd, (s.setTable ta (some (t.set newfd (some ⟨d.file, cloexec⟩)))).incref d.file)
        else (.error .EMFILE, s)

/-! ## Processes -/

/-- How `kernel_clone` goes on once the child has its descriptors. -/
inductive ThreadEnd where
  | made
  | noThread
  | badTls
  | noStack
  deriving DecidableEq, Repr

/-- What a `fork` meets. -/
structure ForkEnv where
  /-- an error before the child inherits the executable -/
  early : Option Errno
  wcMem : Bool
  /-- `CLONE_FILES` -/
  shareFiles : Bool
  slab : Option ℕ
  nofile : ℕ
  leaves : ℕ
  thread : ThreadEnd
  deriving DecidableEq, Repr

/-- The write count of the executable of a process, changed. -/
def System.countExe (p : Process) (delta : ℤ) (mem : Bool) : System :=
  if p.exeIno ≠ 0 then { s with wc := wcApply s.wc p.exe delta mem } else s

/-- The descriptors of the child. -/
def forkFiles (ta : ℕ) (t : DescTable) (env : ForkEnv) : Bool × Option ℕ × System :=
  if env.shareFiles then
    (true, some ta, s.setTable ta (some { t with refcount := t.refcount + 1 }))
  else copyTable s t env.slab (min t.slots.length env.nofile) env.leaves

/-- `kernel_clone` for a new process.  `free_child_proc` puts the table back, `proc_cleanup` also
the executable. -/
def doFork (pid child : ℕ) (env : ForkEnv) : Except Errno ℕ × System :=
  match s.running pid with
  | none => (.error .EFAULT, s)
  | some (p, ta, t) =>
    if (s.procs child).isSome then (.error .EAGAIN, s)
    else
      match env.early with
      | some e => (.error e, s)
      | none =>
        match forkFiles (s.countExe p (-1) env.wcMem) ta t env with
        | (false, fds, s) => (.error .ENOMEM, fdsPut s fds env.wcMem)
        | (true, fds, s) =>
          match env.thread with
          | .made => (.ok child, s.setProc child (some { p with fds }))
          | .badTls => (.error .EINVAL, fdsPut (s.countExe p 1 env.wcMem) fds env.wcMem)
          | .noThread => (.error .ENOMEM, fdsPut s fds env.wcMem)
          | .noStack => (.error .ENOMEM, fdsPut s fds env.wcMem)

/-- `exit_kill_process`. -/
def exitKillProcess (mem : Bool) : System :=
  match s.procs pid with
  | none => s
  | some p =>
    if p.zombie then s
    else fdsPut (s.setProc pid (some { p with fds := none, zombie := true })) p.fds mem

/-- `proc_cleanup`, from `wait4` on a zombie. -/
def procCleanup (mem : Bool) : System :=
  match s.procs pid with
  | none => s
  | some p =>
    if p.zombie then fdsPut ((s.countExe p 1 mem).setProc pid none) p.fds mem else s

/-- What an `execve` meets. -/
structure ExecEnv where
  /-- the file the path names -/
  found : Except Errno WcKey
  /-- the file to be executed, after `#!` lines and all checks of its headers -/
  image : Except Errno WcKey
  wcMem : Bool
  /-- address space and stack are to be had -/
  mm : Bool
  slab : Option ℕ
  leaves : ℕ

/-- `fd_table_unshare`. -/
def fdTableUnshare (p : Process) (ta : ℕ) (t : DescTable) (env : ExecEnv) :
    Except Errno ℕ × System :=
  if t.refcount ≤ 1 then (.ok ta, s)
  else
    match copyTable s t env.slab t.slots.length env.leaves with
    | (false, fds, s) => (.error .ENOMEM, fdsPut s fds env.wcMem)
    | (true, none, s) => (.error .ENOMEM, s)
    | (true, some a, s) =>
      (.ok a, fdTablePut (s.setProc pid (some { p with fds := some a })) ta env.wcMem)

/-- One turn of the `O_CLOEXEC` loop. -/
def closeOnExec (ta : ℕ) (mem : Bool) (s : System) (i : ℕ) : System :=
  match s.tables ta with
  | none => s
  | some t =>
    match (t.get i).filter (·.cloexec) with
    | none => s
    | some d => (s.drop d.file mem).setTable ta (some (t.set i none))

/-- `do_execve_kpath` from the point of no return on: the process has the new executable. -/
def execCommitted (p : Process) (ta : ℕ) (t : DescTable) (env : ExecEnv) : System :=
  let s := s.setProc pid (some p)
  if env.mm = false then s.setProc pid (some { p with zombie := true })
  else
    match fdTableUnshare s pid p ta t env with
    | (.error _, s) => s.setProc pid (some { p with zombie := true })
    | (.ok a, s) => (List.range t.slots.length).foldl (closeOnExec a env.wcMem) s

/-- `do_execve_kpath`. -/
def doExecve (env : ExecEnv) : Except Errno Unit × System :=
  match s.running pid with
  | none => (.error .EFAULT, s)
  | some (p, ta, t) =>
    match env.found with
    | .error e => (.error e, s)
    | .ok first =>
      -- `wc_peek_writers`
      if wcPeek s.wc first > 0 then (.error .ETXTBSY, s)
      else
        match env.image with
        | .error e => (.error e, s)
        | .ok k =>
          if p.exe = k then (.ok (), execCommitted s pid p ta t env)
          else
            match iWritecountDenyWrite s.wc k env.wcMem with
            | .error e => (.error e, s)
            | .ok wc =>
              (.ok (), execCommitted (({ s with wc }).countExe p 1 env.wcMem) pid
                { p with exeBackend := k.1, exeIno := k.2 } ta t env)

end

/-! ## Loop devices -/

/-- `loop_set_fd`. -/
def loopSetFd (pid fd dev : ℕ) (mem : Bool) : Except Errno Unit × System :=
  match s.running pid with
  | none => (.error .EFAULT, s)
  | some (_, _, t) =>
    match t.get fd with
    | none => (.error .EBADF, s)
    | some d =>
      match s.files d.file with
      | none => (.error .EBADF, s)
      | some f =>
        if (s.loops dev).isSome then (.error .EBUSY, s)
        else
          let s := { s with
            loops := update s.loops dev (some d.file)
            opens :=
              if f.id.backend = Backend.ext4 ∧ f.id.ino ≠ 0 then
                ext4OpenInc s.opens f.id.ino mem
              else s.opens }
          (.ok (), s.incref d.file)

/-- `loop_clr_fd`; `mounted` says whether a file system is mounted from the device. -/
def loopClrFd (dev : ℕ) (mounted mem : Bool) : Except Errno Unit × System :=
  match s.loops dev with
  | none => open Errno in (.error ENXIO, s)
  | some a =>
    if mounted then (.error .EBUSY, s)
    else (.ok (), ({ s with loops := update s.loops dev none }).drop a mem)

end

end CosmoRT.Vfs
