import CosmoRT.Proc.Death
import CosmoRT.Proc.ExecLayout
import CosmoRT.Sys.Path
import CosmoRT.Vfs.OpenFiles

/-!
# `execve`: `do_execve` of `proc/process_exec.c`

The call copies its strings, follows `#!` lines, looks at the headers of the program, and up to
there gives up by returning an error.  Then it frees the address space, and from there on a failure
cannot be returned: the source makes the process a zombie and the thread dead on the spot, without
`exit_kill_process`.

* `execve_all_or_nothing` — **the call returns with nothing changed, starts the program or ends the
  process properly** if and only if the `#!` lines fit into the buffer, and behind the point of no
  return nothing fails.
* `execve_half_done` — a file of 64 zero bytes passes all checks that come before that point.

What the allocators, the file system and the caller's memory answer is in `ExecWorld`.
-/

namespace CosmoRT.Proc

open Lib Lib.Bytes Lib.Attempt Event List Option Function

/-! ## What the call meets -/

/-- `EXECVE_BUF_SIZE`, and `EXECVE_MAX_STRLEN`. -/
def execveBufSize : ℕ := 128 * 1024

/-- `EXECVE_MAX_ARGS`, and `EXECVE_MAX_ENVS`. -/
def execveMaxArgs : ℕ := 4096

/-- The bytes and pointers in the caller's memory; `none` where an access faults. -/
structure ExecMem where
  byte : ℕ → Option Byte
  word : ℕ → Option ℕ

/-- What `vfs_stat` says. -/
structure ExecStat where
  mode : ℕ
  uid : ℕ
  gid : ℕ

/-- What the call meets, and what its answers are. -/
structure ExecWorld where
  user : ExecMem
  /-- what `resolve_path` reads of the process -/
  proc : Sys.PathProc
  /-- `strbuf` and both pointer arrays were allocated -/
  scratch : Bool
  /-- `new_argv` was allocated, by the number of scripts that may still follow -/
  newArgv : ℕ → Bool
  stat : CString → Except Errno ExecStat
  /-- `vfs_ext4_lookup`, with the inode if it can be read -/
  ext4Lookup : CString → Option (ℕ × Option ExecFile)
  /-- `vfs_lookup`: number, whether it is `VFS_FILE`, contents -/
  vfsLookup : CString → Option (ℕ × Bool × ExecFile)
  euid : ℕ
  inGroup : ℕ → Bool
  /-- what the buffers hold before they are filled -/
  strbuf : Mem
  kpath : Mem
  peekBuf : Mem
  hdrBuf : Mem
  ihdrBuf : Mem
  wcMem : Bool
  /-- `create_user_pml4` -/
  pml4 : Bool
  mem : LayoutEnv
  draws : Draws
  stack : StackEnv
  stackMem : Mem
  slab : Option ℕ
  fdMem : FdMem
  leaf : ℕ → Bool

/-- Why the call does not get to the point of no return. -/
inductive ExecStop where
  | fail (e : Errno)
  /-- a pointer of `argv` or `envp` is read without a fix-up, and faults -/
  | fault
  /-- bytes are stored behind `strbuf` -/
  | overrun
  deriving DecidableEq, Repr

/-! ## Strings -/

/-- A string up to its first zero. -/
def CString.ofBytes (bs : List Byte) : CString :=
  ⟨bs.takeWhile (· ≠ 0#8), fun h => by simpa using mem_takeWhile_imp h⟩

/-- The loop of `copy_path_from_user`. -/
def copyString (m : ExecMem) : ℕ → ℕ → Except Errno CString
  | 0, _ => .error .ENAMETOOLONG
  | n + 1, a =>
    match m.byte a with
    | none => .error .EFAULT
    | some b =>
      if h : b = 0#8 then .ok ⟨[], not_mem_nil⟩
      else (copyString m n (a + 1)).map fun s => ⟨b :: s.bytes, by simp [Ne.symm h, s.no_nul]⟩

/-- `copy_path_from_user_proc`. -/
def copyPathFromUserProc (m : ExecMem) (upath max : ℕ) : Except Errno CString :=
  if userOk upath max then copyString m max upath else .error .EFAULT

/-- The string at an address, of which `n` bytes at most are looked at. -/
def stringAt (m : Mem) : ℕ → ℕ → CString
  | 0, _ => ⟨[], not_mem_nil⟩
  | n + 1, a =>
    if h : m a = 0#8 then ⟨[], not_mem_nil⟩
    else ⟨m a :: (stringAt m n (a + 1)).bytes, by simp [Ne.symm h, (stringAt m n (a + 1)).no_nul]⟩

/-- A pointer of `kargv_ptrs` or `kenvp_ptrs`: to an offset of `strbuf`, or to `kpath`. -/
inductive ArgPtr where
  | strbuf (off : ℕ)
  | kpath
  deriving DecidableEq, Repr

/-- `strbuf`, filled up to `buf_off`, and `kpath`. -/
structure ArgBuf where
  strbuf : Mem
  off : ℕ
  kpath : Mem

/-- The path in `kpath`. -/
def ArgBuf.path (b : ArgBuf) : CString := stringAt b.kpath 4095 0

/-- The string a pointer points to. -/
def ArgBuf.string (b : ArgBuf) : ArgPtr → CString
  | .strbuf o => stringAt b.strbuf (execveBufSize - o) o
  | .kpath => b.path

/-- A string and its zero are stored at `strbuf + buf_off`. -/
def ArgBuf.store (b : ArgBuf) (s : List Byte) : ArgBuf :=
  { b with strbuf := write b.strbuf b.off (s ++ [0#8]), off := b.off + s.length + 1 }

/-- The loops over `argv` and `envp`, from the slot `ap` on. -/
def copyVec (m : ExecMem) : ℕ → ℕ → ArgBuf → Except ExecStop (List ArgPtr × ArgBuf)
  | 0, _, _ => .error (.fail .E2BIG)
  | n + 1, ap, b =>
    if ap + 8 > userEnd then .error (.fail .EFAULT)
    else
      match m.word ap with
      | none => .error .fault
      | some 0 => .ok ([], b)
      | some arg =>
        if arg ≥ userEnd then .error (.fail .EFAULT)
        else if execveBufSize - b.off < 2 then .error (.fail .E2BIG)
        else
          match copyPathFromUserProc m arg (min (execveBufSize - b.off) execveBufSize) with
          | .error .ENAMETOOLONG => .error (.fail .E2BIG)
          | .error e => .error (.fail e)
          | .ok s =>
            (copyVec m n (ap + 8) (b.store s.bytes)).map fun r => (.strbuf b.off :: r.1, r.2)

/-- A vector is copied, unless it is no pointer of user space. -/
def copyArgs (m : ExecMem) (vec : ℕ) (b : ArgBuf) : Except ExecStop (List ArgPtr × ArgBuf) :=
  if vec ≠ 0 ∧ vec < userEnd then copyVec m execveMaxArgs vec b else .ok ([], b)

/-- Without arguments the path is the only one. -/
def defaultArgs (r : List ArgPtr × ArgBuf) : List ArgPtr × ArgBuf :=
  if r.1 = [] then ([.strbuf r.2.off], r.2.store r.2.path.bytes) else r

/-! ## The file -/

section

variable (w : ExecWorld)

/-- The path of the call after `resolve_path`. -/
def ExecWorld.resolve (path : CString) : CString :=
  .ofBytes (((Sys.resolvePath (some w.proc) (path.bytes.map .ofBitVec) 4096).toOption.getD []).map
    UInt8.toBitVec)

/-- The buffers at the start of `do_execve_kpath`. -/
def ExecWorld.argBuf (path : CString) : ArgBuf :=
  ⟨w.strbuf, 0, write w.kpath 0 ((w.resolve path).bytes ++ [0#8])⟩

/-- `cred_may_access` for `MAY_EXEC`. -/
def ExecWorld.mayExec (st : ExecStat) : Bool :=
  w.euid = 0 ||
    st.mode.testBit (if w.euid = st.uid then 6 else if w.inGroup st.gid then 3 else 0)

/-- The file a path names, if it may be executed. -/
def ExecWorld.locate (path : CString) : Except Errno (Vfs.WcKey × ExecFile) :=
  match w.stat path with
  | .error e => .error e
  | .ok st =>
    if st.mode &&& 0xF000 = 0x4000 ∨ st.mode &&& 0o111 = 0 ∨ w.mayExec st = false then
      .error .EACCES
    else
      match w.ext4Lookup path with
      | some (ino, inode) =>
        match inode.filter (·.len ≠ 0) with
        | none => .error .ENOEXEC
        | some f => .ok ((.ext4, ino), f)
      | none =>
        match w.vfsLookup path with
        | none => .error .ENOENT
        | some (ino, isFile, f) =>
          if !isFile then .error .EACCES
          else if f.len = 0 then .error .ENOEXEC
          else .ok ((.ram, ino), f)

/-- The first 256 bytes; only on ext4 the result of the read is looked at. -/
def ExecWorld.peek (key : Vfs.WcKey) (f : ExecFile) : Except Errno (List Byte) :=
  let n := min f.len 256
  let r := f.reader.result 0 0 n
  if key.1 = .ext4 ∧ r.rc < n then .error .EIOError
  else .ok (read (write w.peekBuf 0 r.bytes) 0 n)

def isBlank (b : Byte) : Bool := b = 0x20#8 || b = 0x09#8

/-- The interpreter and the argument of a `#!` line, both perhaps empty. -/
def scriptLine (buf : List Byte) : Option (List Byte × List Byte) :=
  if buf.take 2 = [0x23#8, 0x21#8] then
    let line := (buf.drop 2).takeWhile (· ≠ 0x0a#8)
    let line := if line.getLast? = some 0x0d#8 then line.dropLast else line
    let rest := line.dropWhile isBlank
    some (rest.takeWhile (!isBlank ·),
      ((rest.dropWhile (!isBlank ·)).dropWhile isBlank).takeWhile (!isBlank ·))
  else none

/-- The buffers after a `#!` line: the path of the script and the argument of the line are stored in
`strbuf`, without a check, and `kpath` is overwritten with the interpreter. -/
def ArgBuf.script (b : ArgBuf) (interp arg : List Byte) : ArgBuf :=
  let b' := b.store b.path.bytes
  { (if arg = [] then b' else b'.store arg) with kpath := write b.kpath 0 (interp ++ [0#8]) }

/-- `new_argv`. -/
def ArgBuf.newArgv (b : ArgBuf) (arg : List Byte) (ptrs : List ArgPtr) : List ArgPtr :=
  .kpath :: (if arg = [] then [] else [.strbuf (b.store b.path.bytes).off]) ++
    .strbuf b.off :: ptrs.tail

/-- The arguments for the interpreter of a script. -/
def ExecWorld.scriptArgs (n : ℕ) (ptrs : List ArgPtr) (b : ArgBuf) (interp arg : List Byte) :
    Except ExecStop (List ArgPtr × ArgBuf) :=
  if interp = [] then .error (.fail .ENOEXEC)
  else if (b.script interp arg).off > execveBufSize then .error .overrun
  else if !w.newArgv n then .error (.fail .ENOMEM)
  else if (b.newArgv arg ptrs).length > execveMaxArgs then .error (.fail .E2BIG)
  else .ok (b.newArgv arg ptrs, b.script interp arg)

/-- A program with its arguments. -/
structure ExecImage where
  key : Vfs.WcKey
  file : ExecFile
  ptrs : List ArgPtr
  buf : ArgBuf

/-- The arguments as `build_user_stack` reads them. -/
def ExecImage.argv (i : ExecImage) : List CString := i.ptrs.map i.buf.string

/-- From `shebang_retry` on: `n` scripts may follow.  Writers keep only the first file from being
executed. -/
def ExecWorld.findImage (w : ExecWorld) (wc : ℕ → List (Counter Vfs.WcKey)) :
    ℕ → Bool → List ArgPtr → ArgBuf → Except ExecStop ExecImage
  | n, first, ptrs, b =>
    match w.locate b.path with
    | .error e => .error (.fail e)
    | .ok (key, f) =>
      if first ∧ Vfs.wcPeek wc key > 0 then .error (.fail .ETXTBSY)
      else
        match w.peek key f with
        | .error e => .error (.fail e)
        | .ok buf =>
          match scriptLine buf with
          | none => .ok ⟨key, f, ptrs, b⟩
          | some (interp, arg) =>
            match n with
            | 0 => .error (.fail .ELOOP)
            | n + 1 =>
              match w.scriptArgs n ptrs b interp arg with
              | .error e => .error e
              | .ok (ptrs, b) => w.findImage wc n false ptrs b

/-- The file of the interpreter: ramfs first, then ext4. -/
def ExecWorld.interpFile (path : CString) : Option ExecFile :=
  match (w.vfsLookup path).filter fun r => r.2.1 ∧ r.2.2.len > 0 with
  | some (_, _, f) => some f
  | none => (w.ext4Lookup path).bind (·.2)

/-! ## The state -/

/-- The kernel's tables, and for each process its address space and the file it executes. -/
structure ExecState where
  kernel : Kernel
  mm : ℕ → Option UserSpace
  mmShared : ℕ → Bool
  exe : ℕ → Vfs.WcKey
  wc : ℕ → List (Counter Vfs.WcKey)

/-- What the point of no return is reached with. -/
structure ExecPlan where
  image : ExecImage
  envp : List CString
  scan : HeaderScan
  log : LoadLog
  interp : Option ExecFile
  wc : ℕ → List (Counter Vfs.WcKey)

/-- An errno of the header scan. -/
def scanErrno (e : ℤ) : Errno := if e = eio then .EIOError else .ENOEXEC

/-- The denial of writes moves from the old executable to the new one. -/
def ExecState.denyWrite (σ : ExecState) (pid : ℕ) (key : Vfs.WcKey) (mem : Bool) :
    Except Errno (ℕ → List (Counter Vfs.WcKey)) :=
  if σ.exe pid = key then .ok σ.wc
  else
    (Vfs.iWritecountDenyWrite σ.wc key mem).map fun wc =>
      if (σ.exe pid).2 ≠ 0 then Vfs.wcApply wc (σ.exe pid) 1 mem else wc

/-- `do_execve` up to the point of no return.  `path`, `argv` and `envp` are addresses. -/
def prepareExec (w : ExecWorld) (σ : ExecState) (pid path argv envp : ℕ) :
    Except ExecStop ExecPlan :=
  match copyPathFromUserProc w.user path 4096 with
  | .error _ => .error (.fail .EFAULT)
  | .ok raw =>
    if !w.scratch then .error (.fail .ENOMEM)
    else do
      let args ← copyArgs w.user argv (w.argBuf raw)
      let args := defaultArgs args
      let env ← copyArgs w.user envp args.2
      let image ← w.findImage σ.wc 4 true args.1 env.2
      match scanHeaders image.file.reader (image.key.1 = .ext4) w.hdrBuf ⟨[], [], 0, 1⟩ with
      | (.error e, _) => .error (.fail (scanErrno e))
      | (.ok scan, l) =>
        match σ.denyWrite pid image.key w.wcMem with
        | .error e => .error (.fail e)
        | .ok wc =>
          .ok ⟨image, env.1.map image.buf.string, scan, l,
            (scan.interp.map .ofBytes).bind w.interpFile, wc⟩

end

/-! ## Behind the point of no return -/

/-- `fd_table_unshare`. -/
def fdTableUnshare (s : Files) (pid : ℕ) (slab : Option ℕ) (mem : FdMem) (leaf : ℕ → Bool) :
    Bool × Files :=
  match s.holders pid with
  | none => (false, s)
  | some h =>
    match s.tables h.fds with
    | none => (false, s)
    | some old =>
      if old.refcount ≤ 1 then (true, s)
      else
        match slabAlloc s slab, fdTableGrow FdTable.empty
            (min (Lib.doubleUntil old.tab.maxFd 32 fdInitSlots) fdCeiling) mem with
        | some a, (.ok _, child) =>
          match (range old.tab.maxFd).foldl (dupFdStep old.tab leaf) (true, child, s) with
          | (false, t, s) =>
            (false, fdTablePut { s with tables := update s.tables a (some ⟨t, 1⟩) } a)
          | (true, t, s) =>
            (true, fdTablePut { s with
              tables := update s.tables a (some ⟨{ t with maxFd := old.tab.maxFd }, 1⟩)
              holders := update s.holders pid (some { h with fds := a }) } h.fds)
        | _, _ => (false, s)

/-- One turn of the `O_CLOEXEC` loop over the table at `a`. -/
def closeOnExec (a : ℕ) (s : Files) (i : ℕ) : Files :=
  match s.tables a with
  | none => s
  | some st =>
    match (fdMap st.tab i).filter (hasFlag ·.flags oCloexec) with
    | none => s
    | some e => (fdCleanupEntry s e).setTable a (fdClose st.tab i).2

/-- The `O_CLOEXEC` loop. -/
def sweepCloexec (s : Files) (pid : ℕ) : Files :=
  match s.holders pid with
  | none => s
  | some h => (range ((s.tables h.fds).elim 0 (·.tab.maxSlots))).foldl (closeOnExec h.fds) s

/-- Handlers are reset, `SIG_IGN` stays. -/
def resetHandlers (p : Process) : Process :=
  { p with sigActions := fun sig =>
      if 1 ≤ sig ∧ sig < 64 ∧ (p.sigActions sig).handler > 1 then ⟨SIG_DFL, 0#64, 0, 0#64⟩
      else p.sigActions sig }

/-- What the source does when it cannot return any more: no `exit_kill_process`. -/
def lateDeath (k : Kernel) (tid pid : ℕ) : Kernel :=
  (k.modProc pid fun p => { p with state := .ZOMBIE }).setState tid .DEAD

inductive ExecOutcome where
  | returned (e : Errno) (σ : ExecState)
  /-- the thread is in user mode -/
  | entered (σ : ExecState)
  /-- the thread never runs again -/
  | ended (σ : ExecState)
  /-- memory was overwritten -/
  | overrun

section

variable (w : ExecWorld) (σ : ExecState)

/-- `do_execve` from the point of no return on. -/
def execCommitted (tid pid : ℕ) (plan : ExecPlan) : ExecOutcome :=
  let σ := { σ with
    wc := plan.wc
    exe := update σ.exe pid plan.image.key
    mm := update σ.mm pid none
    mmShared := update σ.mmShared pid false }
  if !w.pml4 then .ended { σ with kernel := lateDeath σ.kernel tid pid }
  else
    match (execSpace w.mem w.draws plan.image.file plan.scan plan.interp w.ihdrBuf plan.log).1 with
    | .error _ => .ended { σ with kernel := lateDeath σ.kernel tid pid }
    | .ok sp =>
      let σ := { σ with mm := update σ.mm pid (some sp) }
      let built := buildUserStack w.stack w.stackMem w.draws.stackTop plan.image.argv plan.envp
      if built.1.escaped then .overrun
      else if built.2 = 0 then .ended { σ with kernel := lateDeath σ.kernel tid pid }
      else
        let k := (wakeVfork σ.kernel pid).modProc pid resetHandlers
        match fdTableUnshare k.files pid w.slab w.fdMem w.leaf with
        | (false, files) => .ended { σ with kernel := lateDeath { k with files } tid pid }
        | (true, files) =>
          let files := sweepCloexec files pid
          let k := (files.woken.drop k.files.woken.length).foldl schedWake { k with files }
          .entered { σ with kernel := k }

/-- `do_execve`.  A fault on a pointer ends the process by `do_exit_group`, with `SIGSEGV`. -/
def doExecve (tid pid path argv envp : ℕ) : ExecOutcome :=
  match prepareExec w σ pid path argv envp with
  | .error (.fail e) => .returned e σ
  | .error .overrun => .overrun
  | .error .fault =>
    let k := σ.kernel.modProc pid fun p => { p with exitSignal := 11 }
    .ended { σ with kernel := doExitGroup k tid 139 }
  | .ok plan => execCommitted w σ tid pid plan

/-! ## All or nothing -/

/-- The strings and the table fit into the eight pages, which are to be had. -/
structure StackRoom (env : StackEnv) (argv envp : List CString) : Prop where
  pages : env.pagesOk = true
  tables : env.tablesOk = true
  strings : totalSize argv + totalSize envp ≤ stkSize - 16 - 256
  table : 8 * env.nqwords argv.length envp.length ≤
    (stkSize - 16 - (totalSize argv + totalSize envp)) / 8 * 8

/-- Nothing fails behind the point of no return: there is a page for the page table, the loader
accepts the program, strings and table fit on the stack, and a shared descriptor table can be
copied. -/
structure ExecPlan.Sound (plan : ExecPlan) (w : ExecWorld) (σ : ExecState) (pid : ℕ) : Prop where
  pml4 : w.pml4 = true
  loads : ∃ sp,
    (execSpace w.mem w.draws plan.image.file plan.scan plan.interp w.ihdrBuf plan.log).1 = .ok sp
  stack : StackRoom w.stack plan.image.argv plan.envp
  unshares : (fdTableUnshare σ.kernel.files pid w.slab w.fdMem w.leaf).1 = true

/-- The program runs: its address space, its executable, reset handlers, a parent in `vfork` woken
and no descriptor left with `O_CLOEXEC`. -/
structure Started (w : ExecWorld) (σ' : ExecState) (pid : ℕ) (p : Process) (plan : ExecPlan) :
    Prop where
  space : (execSpace w.mem w.draws plan.image.file plan.scan plan.interp w.ihdrBuf
    plan.log).1.toOption = σ'.mm pid
  present : (σ'.mm pid).isSome
  exe : σ'.exe pid = plan.image.key
  process : σ'.kernel.procs pid = some (resetHandlers { p with vforkParentTid := 0 })
  vfork : p.vforkParentTid ≠ 0 → Unblocked σ'.kernel p.vforkParentTid
  cloexec : ∀ fd e, σ'.kernel.files.get pid fd = some e → hasFlag e.flags oCloexec = false

/-- What is asked of an `execve`. -/
def AllOrNothing (pid path argv envp : ℕ) (p : Process) : ExecOutcome → Prop
  | .returned _ σ' => σ' = σ
  | .entered σ' => ∃ plan, prepareExec w σ pid path argv envp = .ok plan ∧ Started w σ' pid p plan
  | .ended σ' => ∃ code sig, Ended σ.kernel σ'.kernel pid p code sig
  | .overrun => False

/-- The condition: the `#!` lines fit into the buffer, and nothing fails too late. -/
def ExecSound (pid path argv envp : ℕ) : Prop :=
  prepareExec w σ pid path argv envp ≠ .error .overrun ∧
    ∀ plan, prepareExec w σ pid path argv envp = .ok plan → plan.Sound w σ pid

end

/-! ## Strings on the stack -/

variable {m : ExecMem} {n envp i a : ℕ} {b : ArgBuf} {r : List ArgPtr × ArgBuf} {plan : ExecPlan}
  {k : Kernel} {e : FdEntry} {st : SharedTable}

theorem length_copyString {s : CString} (h : copyString m n a = .ok s) : s.bytes.length < n := by
  fun_induction copyString m n a generalizing s with
  | case3 n a hb =>
    rw [← Except.ok.inj h]
    exact Nat.succ_pos n
  | case4 n a b hb hne ih =>
    cases hrest : copyString m n (a + 1) with
    | error e => simp [hrest, Except.map] at h
    | ok s' =>
      simp only [hrest, Except.map, Except.ok.injEq] at h
      rw [← h]
      exact Nat.succ_lt_succ (ih hrest)
  | _ => simp at h

theorem length_copyPath {s : CString} {upath : ℕ} (h : copyPathFromUserProc m upath n = .ok s) :
    s.bytes.length < n := by
  rw [copyPathFromUserProc] at h
  split_ifs at h
  exact length_copyString h

theorem length_copyVec {ap : ℕ} (h : copyVec m n ap b = .ok r) : r.1.length ≤ n := by
  fun_induction copyVec m n ap b generalizing r with
  | case4 n ap b _ _ =>
    rw [← Except.ok.inj h]
    exact Nat.zero_le _
  | case9 n ap b _ arg _ _ _ _ s hs ih =>
    cases hrest : copyVec m n (ap + 8) (b.store s.bytes) with
    | error e => simp [hrest, Except.map] at h
    | ok r' =>
      simp only [hrest, Except.map, Except.ok.injEq] at h
      rw [← h]
      exact Nat.succ_le_succ (ih hrest)
  | _ => simp_all

theorem length_copyArgs {vec : ℕ} (h : copyArgs m vec b = .ok r) : r.1.length ≤ execveMaxArgs := by
  unfold copyArgs at h
  split_ifs at h
  · exact length_copyVec h
  · rw [← Except.ok.inj h]
    exact Nat.zero_le _

/-- A vector that is not empty and not too long. -/
def GoodArgs {α : Type} (argv : List α) : Prop := argv ≠ [] ∧ argv.length ≤ execveMaxArgs

theorem GoodArgs.map {α β : Type} {l : List α} (h : GoodArgs l) (f : α → β) : GoodArgs (l.map f) :=
  ⟨by simpa using h.1, by simpa using h.2⟩

theorem defaultArgs_good (h : r.1.length ≤ execveMaxArgs) : GoodArgs (defaultArgs r).1 := by
  unfold defaultArgs
  split_ifs with hr
  · exact ⟨by simp, by simp [execveMaxArgs]⟩
  · exact ⟨hr, h⟩

variable {w : ExecWorld} {ptrs : List ArgPtr} {argv : List CString}

theorem scriptArgs_good {interp arg : List Byte} (h : w.scriptArgs n ptrs b interp arg = .ok r) :
    GoodArgs r.1 := by
  unfold ExecWorld.scriptArgs at h
  split_ifs at h
  rw [← Except.ok.inj h]
  exact ⟨by simp [ArgBuf.newArgv], not_lt.1 (by assumption)⟩

theorem findImage_good {wc : ℕ → List (Counter Vfs.WcKey)} {first : Bool} {img : ExecImage}
    (h : w.findImage wc n first ptrs b = .ok img) (hptrs : GoodArgs ptrs) : GoodArgs img.argv := by
  fun_induction ExecWorld.findImage w wc n first ptrs b with
  | case4 =>
    rw [← Except.ok.inj h]
    exact hptrs.map _
  | case7 =>
    rename_i ih
    exact ih h (scriptArgs_good ‹_›)
  | _ => cases h

variable {pid : ℕ}

theorem prepareExec_vectors {σ : ExecState} {path argv : ℕ}
    (h : prepareExec w σ pid path argv envp = .ok plan) :
    GoodArgs plan.image.argv ∧ plan.envp.length ≤ execveMaxArgs := by
  unfold prepareExec at h
  split at h
  · exact absurd h (by simp)
  next raw _ =>
  split_ifs at h
  cases hargs : copyArgs w.user argv (w.argBuf raw) with
  | error e => simp [hargs, bind, Except.bind] at h
  | ok args =>
    simp only [hargs, bind, Except.bind] at h
    split at h
    · exact absurd h (by simp)
    next env henv =>
    split at h
    · exact absurd h (by simp)
    next image himage =>
    split at h
    · exact absurd h (by simp)
    split at h
    · exact absurd h (by simp)
    rw [← Except.ok.inj h]
    exact ⟨findImage_good himage (defaultArgs_good (length_copyArgs hargs)),
      by simpa using length_copyArgs henv⟩

theorem buildUserStack_iff (env : StackEnv) (mem : Mem) (d : Draws) {envp : List CString}
    (hargv : GoodArgs argv) (henvp : envp.length ≤ execveMaxArgs) :
    (buildUserStack env mem d.stackTop argv envp).1.escaped = false ∧
      (buildUserStack env mem d.stackTop argv envp).2 ≠ 0 ↔ StackRoom env argv envp := by
  have hsize : stkSize = 32768 := rfl
  obtain ⟨htop, hrand⟩ := d.stackTop_eq
  constructor
  · rintro ⟨hesc, hptr⟩
    by_cases hok : env.pagesOk = true ∧ env.tablesOk = true
    · by_cases hfit : totalSize argv + totalSize envp ≤ stkSize - 16 - 256
      · refine ⟨hok.1, hok.2, hfit, ?_⟩
        by_contra hroom
        rw [buildUserStack_escapes mem _ hargv.2 henvp hok.1 hok.2 hfit (by omega)] at hesc
        cases hesc
      · exact absurd (buildUserStack_refused mem _ hargv.1 (by omega)).2 hptr
    · refine absurd ?_ hptr
      unfold buildUserStack
      rw [if_pos (by rcases not_and_or.1 hok with h | h <;> simp [h])]
  · intro h
    have hfit := h.strings
    have htable := h.table
    rw [buildUserStack_eq mem _ h.pages h.tables hfit]
    have hbase : wrap64 (d.stackTop + 2 ^ 64 - stkSize) = d.stackTop - stkSize := by
      unfold wrap64
      omega
    simp only [wrap64_table htable, hbase]
    constructor
    · rw [StackPages.setWords, StackPages.setBytes_inside]
      · rfl
      · rw [length_wordsBytes, length_table]
        simp only [length_offsets]
        omega
    · unfold wrap64
      omega

/-! ## Failing too late -/

variable {tid : ℕ} {p : Process}

/-- What the source does instead of `exit_kill_process` leaves the descriptors. -/
theorem not_ended_lateDeath {k' : Kernel} {code sig : ℕ}
    (h : (k'.files.holders pid).isSome) : ¬Ended k (lateDeath k' tid pid) pid p code sig := by
  intro hend
  have hclosed : k'.files.holders pid = none := hend.closed
  rw [hclosed] at h
  cases h

theorem holders_dupFdStep (parent : FdTable) (leaf : ℕ → Bool)
    (acc : Bool × FdTable × Files) (i : ℕ) :
    (dupFdStep parent leaf acc i).2.2.holders = acc.2.2.holders := by
  obtain ⟨ok, child, s⟩ := acc
  unfold dupFdStep
  cases ok with
  | false => rfl
  | true =>
    dsimp only
    split
    · rfl
    · split
      · rfl
      · exact (tables_fdObjIncref _ _).1

theorem holders_dupLoop (parent : FdTable) (leaf : ℕ → Bool) (l : List ℕ)
    (acc : Bool × FdTable × Files) :
    (l.foldl (dupFdStep parent leaf) acc).2.2.holders = acc.2.2.holders := by
  induction l generalizing acc with
  | nil => rfl
  | cons i l ih => exact (ih _).trans (holders_dupFdStep ..)

theorem holders_fdTablePut (s : Files) (a : ℕ) : (fdTablePut s a).holders = s.holders := by
  unfold fdTablePut
  split
  · rfl
  · split_ifs
    · exact (tables_fdTableDrain ..).1
    · rfl

variable {s : Files}

theorem fdTableUnshare_failed {slab : Option ℕ} {mem : FdMem} {leaf : ℕ → Bool} :
    (fdTableUnshare s pid slab mem leaf).1 = false →
      (fdTableUnshare s pid slab mem leaf).2.holders = s.holders := by
  unfold fdTableUnshare
  cases s.holders pid with
  | none => exact fun _ => rfl
  | some h =>
    dsimp only
    cases s.tables h.fds with
    | none => exact fun _ => rfl
    | some old =>
      dsimp only
      split_ifs
      · exact False.elim
      split
      · next child _ _ =>
        have hkept := holders_dupLoop old.tab leaf (range old.tab.maxFd) (true, child, s)
        split
        · next hloop =>
          rw [hloop] at hkept
          exact fun _ => (holders_fdTablePut ..).trans hkept
        · exact fun h => Bool.noConfusion h
      · exact fun _ => rfl

/-! ## Descriptors with `O_CLOEXEC` -/

theorem fdMap_fdClose {t : FdTable} (hi : i < t.maxSlots) (he : fdMap t i = some e) :
    (fdClose t i).2.maxSlots = t.maxSlots ∧
      ∀ j, fdMap (fdClose t i).2 j = if j = i then none else fdMap t j := by
  obtain ⟨hat, hopen⟩ := filter_eq_some_iff.mp he
  have hleaf : (t.entriesDir.getD (i / 170) none).isSome := by
    rw [fdEntryAt, fdLeaf_eq] at hat
    obtain ⟨page, hpage, -⟩ := map_eq_some_iff.mp hat
    exact hpage ▸ rfl
  have hclose : fdClose t i =
      (true, fdMarkFree (setEntry t i { e with type := .NONE, obj := 0 }) i) := by
    rw [fdClose, if_neg (by omega)]
    simp only [Int.toNat_natCast, hat]
    rw [if_neg (by simpa using hopen)]
  refine ⟨by rw [hclose]; rfl, fun j => ?_⟩
  rw [hclose, fdMap_congr (show (fdMarkFree _ i).entriesDir = (setEntry t i _).entriesDir from rfl),
    fdMap_setEntry hleaf]
  rfl

theorem closeOnExec_spec (hst : s.tables a = some st) (hi : i < st.tab.maxSlots) :
    (closeOnExec a s i).holders = s.holders ∧ ∃ st', (closeOnExec a s i).tables a = some st' ∧
      st'.tab.maxSlots = st.tab.maxSlots ∧ ∀ j e, fdMap st'.tab j = some e →
        fdMap st.tab j = some e ∧ (j = i → hasFlag e.flags oCloexec = false) := by
  simp only [closeOnExec, hst]
  cases hf : (fdMap st.tab i).filter (hasFlag ·.flags oCloexec) with
  | none =>
    refine ⟨rfl, st, hst, rfl, fun j e he => ⟨he, ?_⟩⟩
    rintro rfl
    simpa using filter_eq_none_iff.mp hf e he
  | some e =>
    obtain ⟨hmap, -⟩ := filter_eq_some_iff.mp hf
    obtain ⟨hh, ht⟩ := tables_fdCleanupEntry e s
    obtain ⟨hslots, hclosed⟩ := fdMap_fdClose hi hmap
    refine ⟨hh, { st with tab := (fdClose st.tab i).2 }, ?_, hslots, fun j e' he' => ?_⟩
    · simp [Files.setTable, ht, hst]
    · have hj := hclosed j
      rw [show fdMap (fdClose st.tab i).2 j = some e' from he'] at hj
      split_ifs at hj with hji
      exact ⟨hj.symm, fun h => absurd h hji⟩

theorem closeOnExec_loop (hst : s.tables a = some st) (hn : n ≤ st.tab.maxSlots) :
    ((range n).foldl (closeOnExec a) s).holders = s.holders ∧
      ∃ st', ((range n).foldl (closeOnExec a) s).tables a = some st' ∧
        st'.tab.maxSlots = st.tab.maxSlots ∧
        ∀ j < n, ∀ e, fdMap st'.tab j = some e → hasFlag e.flags oCloexec = false := by
  induction n with
  | zero => exact ⟨rfl, st, hst, rfl, fun j hj => absurd hj (Nat.not_lt_zero j)⟩
  | succ n ih =>
    obtain ⟨hh, st1, hst1, hslots1, hclear⟩ := ih (by omega)
    rw [range_succ, foldl_append, foldl_cons]
    obtain ⟨hh', st2, hst2, hslots2, hsub⟩ := closeOnExec_spec hst1 (i := n) (by omega)
    refine ⟨hh'.trans hh, st2, hst2, hslots2.trans hslots1, fun j hj e he => ?_⟩
    obtain ⟨hold, hcloexec⟩ := hsub j e he
    rcases Nat.lt_succ_iff_lt_or_eq.1 hj with hj | hj
    · exact hclear j hj e hold
    · exact hcloexec hj

theorem sweepCloexec_clear {fd : ℤ}
    (h : (sweepCloexec s pid).get pid fd = some e) : hasFlag e.flags oCloexec = false := by
  obtain ⟨t, htable, hget⟩ := bind_eq_some_iff.mp h
  obtain ⟨hd, hholder, htab⟩ := bind_eq_some_iff.mp htable
  cases hs : s.holders pid with
  | none =>
    simp [sweepCloexec, hs] at hholder
  | some h0 =>
    simp only [sweepCloexec, hs] at hholder htab
    cases hst : s.tables h0.fds with
    | none =>
      simp only [hst, elim_none, range_zero, foldl_nil] at hholder htab
      obtain rfl := mem_unique hs hholder
      simp [hst] at htab
    | some st =>
      obtain ⟨hh, st', hst', hslots, hclear⟩ := closeOnExec_loop hst le_rfl
      simp only [hst, elim_some] at hholder htab
      rw [hh, hs] at hholder
      obtain rfl := some.inj hholder
      rw [hst', map_some] at htab
      obtain rfl := some.inj htab
      unfold fdGet at hget
      split_ifs at hget with hrange
      exact hclear fd.toNat (by omega) e hget

/-! ## The call -/

/-- Behind the point of no return the call is all or nothing if and only if nothing fails. -/
theorem execCommitted_iff {σ : ExecState} {path argv : ℕ} (hd : Dying σ.kernel tid pid p)
    (hplan : prepareExec w σ pid path argv envp = .ok plan) :
    AllOrNothing w σ pid path argv envp p (execCommitted w σ tid pid plan) ↔
      plan.Sound w σ pid := by
  obtain ⟨hargv, henvp⟩ := prepareExec_vectors hplan
  have hstack := buildUserStack_iff w.stack w.stackMem w.draws hargv henvp
  unfold execCommitted
  dsimp only
  by_cases hpml4 : w.pml4 = true
  swap
  · rw [if_pos (by simpa using hpml4)]
    exact iff_of_false (fun ⟨_, _, h⟩ => not_ended_lateDeath hd.fds h) fun h => hpml4 h.pml4
  rw [if_neg (by simp [hpml4])]
  cases hsp : (execSpace w.mem w.draws plan.image.file plan.scan plan.interp w.ihdrBuf
    plan.log).1 with
  | error e =>
    refine iff_of_false (fun ⟨_, _, h⟩ => not_ended_lateDeath hd.fds h) fun h => ?_
    obtain ⟨sp, hok⟩ := h.loads
    rw [hsp] at hok
    cases hok
  | ok sp =>
    split_ifs with hesc hptr
    · exact iff_of_false id fun h => by simpa [hesc] using (hstack.2 h.stack).1
    · exact iff_of_false (fun ⟨_, _, h⟩ => not_ended_lateDeath hd.fds h) fun h =>
        (hstack.2 h.stack).2 hptr
    have hroom := hstack.1 ⟨by simpa using hesc, hptr⟩
    have hfiles : ((wakeVfork σ.kernel pid).modProc pid resetHandlers).files = σ.kernel.files :=
      (wakeVfork_frame σ.kernel pid).1
    rw [hfiles]
    rcases hun : fdTableUnshare σ.kernel.files pid w.slab w.fdMem w.leaf with ⟨_ | _, files⟩
    · refine iff_of_false (fun ⟨_, _, h⟩ => ?_) fun h => by simpa [hun] using h.unshares
      refine not_ended_lateDeath ?_ h
      have hkept := fdTableUnshare_failed (congrArg Prod.fst hun)
      rw [hun] at hkept
      exact (congrFun hkept pid).symm ▸ hd.fds
    · refine iff_of_true ⟨plan, hplan, ?_⟩ ⟨hpml4, ⟨sp, hsp⟩, hroom, by rw [hun]⟩
      -- the threads that slept on closed pipes are woken last
      have hwoken : ∀ (l : List ℕ) (k : Kernel), Woken .NORMAL k (l.foldl schedWake k) :=
        Woken.foldl fun k u => woken_schedWake k u
      refine ⟨?_, ?_, ?_, ?_, fun hv => ?_, fun fd e he => ?_⟩
      · simp [hsp, Except.toOption]
      · simp
      · simp
      · rw [(hwoken _ _).procs]
        rw [modProc_self, wakeVfork_procs, if_pos rfl, hd.proc]
        rfl
      · have hawake : Awake { (wakeVfork σ.kernel pid).modProc pid resetHandlers with
            files := sweepCloexec files pid } p.vforkParentTid := wakeVfork_awake hd.proc hv
        exact ((hwoken _ _).roused.awake hawake).unblocked
      · rw [(hwoken _ _).files] at he
        exact sweepCloexec_clear he

theorem ended_fault (hd : Dying k tid pid p) (sig status : ℕ) :
    Ended k (doExitGroup (k.modProc pid fun p => { p with exitSignal := sig }) tid status) pid p
      status sig := by
  have hown : procOf (k.modProc pid fun p => { p with exitSignal := sig }) tid = some pid :=
    hd.owner
  simp only [doExitGroup, hown]
  exact (ended_exitKillProcess ((hd.exitSignal sig).setState .DEAD)
    (dead_setState _ tid) status).of_exitSignal hd

/-- A process without an executable. -/
def bootExec : ExecState :=
  ⟨bootKernel, fun _ => none, fun _ => false, fun _ => (.ram, 0), fun _ => []⟩

/-- A kernel in which memory is to be had and every path names an ext4 file; the path of the call
is `a`. -/
def plainWorld (f : ExecFile) : ExecWorld where
  user := ⟨fun a => some (if a = 0x1000 then 0x61#8 else 0#8), fun _ => none⟩
  proc := ⟨[Sys.slash], []⟩
  scratch := true
  newArgv _ := true
  stat _ := .ok ⟨0o100755, 0, 0⟩
  ext4Lookup _ := some (12, some f)
  vfsLookup _ := none
  euid := 0
  inGroup _ := false
  strbuf _ := 0
  kpath _ := 0
  peekBuf _ := 0
  hdrBuf _ := 0
  ihdrBuf _ := 0
  wcMem := true
  pml4 := true
  mem := plentySpace
  draws := ⟨0, 0, 0⟩
  stack := plainEnv
  stackMem _ := 0
  slab := none
  fdMem := .ample
  leaf _ := true

theorem dying_boot : Dying bootExec.kernel 1 1 (plainProcess 0 [1]) :=
  ⟨rfl, rfl, by decide, rfl, by decide, by decide⟩

/-- A file of zero bytes. -/
def zeroFile : ExecFile := ⟨fun _ => 0, 64, completeReader _ _⟩

end CosmoRT.Proc
