import CosmoRT.Proc.Signal

/-!
# System calls on masks and dispositions

The calls that write `sig_blocked` or `sig_actions`: `rt_sigaction`,
`rt_sigprocmask`, `rt_sigsuspend` and `rt_sigreturn` of `proc/`, `epoll_pwait` of
`sys/stubs.c`, `wait4` of `process_wait.c` and `clone` of `process_fork.c`.

A call that sleeps is an entry, which is everything up to the first sleep, and a
pass, which is one turn of its loop after it was woken; the state in between is seen
by the rest of the system.
-/

namespace CosmoRT.Proc

open Event Function

/-- `sigsetsize != 8 && sigsetsize != 16` is refused. -/
def sigsetsizeOk (n : ℕ) : Bool := n = 8 ∨ n = 16

/-! ## Dispositions and masks -/

section

variable (k : Kernel) (tid : ℕ)

/-- `do_rt_sigaction`, with the action it hands out through `oldact`. -/
def doRtSigaction (sig : ℤ) (act : UserPtr SigAction)
    (oldact : UserPtr Unit) (sigsetsize : ℕ) : Except Errno (Option SigAction) × Kernel :=
  if !sigsetsizeOk sigsetsize then (.error .EINVAL, k)
  else if sig < 1 ∨ 64 ≤ sig then (.error .EINVAL, k)
  else if sig = SIGKILL then (.error .EINVAL, k)
  else
    match procOf k tid with
    | none => (.error .EFAULT, k)
    | some pid =>
      match oldact, act with
      | .fault, _ | _, .fault => (.error .EFAULT, k)
      | _, .null => (.ok ((k.procs pid).map (·.sigActions sig.toNat)), k)
      | _, .val a =>
        (.ok ((k.procs pid).map (·.sigActions sig.toNat)),
          k.modProc pid fun p => { p with sigActions := update p.sigActions sig.toNat a })

/-- The argument `how` of `rt_sigprocmask`. -/
def sigmaskHow (how : ℤ) (blocked mask : SigSet) : Option SigSet :=
  if how = 0 then some (blocked ||| mask)
  else if how = 1 then some (blocked &&& ~~~mask)
  else if how = 2 then some mask
  else none

/-- `do_rt_sigprocmask`, with the mask it hands out through `oldset`. -/
def doRtSigprocmask (how : ℤ) (set : UserPtr SigSet)
    (oldset : UserPtr Unit) (sigsetsize : ℕ) : Except Errno (Option SigSet) × Kernel :=
  if !sigsetsizeOk sigsetsize then (.error .EINVAL, k)
  else
    match k.threads tid with
    | none => (.error .EFAULT, k)
    | some t =>
      match oldset, set with
      | .fault, _ | _, .fault => (.error .EFAULT, k)
      | _, .null => (.ok (some t.sigBlocked), k)
      | _, .val set =>
        match sigmaskHow how t.sigBlocked (set &&& maskable) with
        | none => (.error .EINVAL, k)
        | some m => (.ok (some t.sigBlocked), k.modThread tid fun t => { t with sigBlocked := m })

/-- `do_rt_sigpending`, with the mask it hands out: of the process's pending signals **those
that the thread does not block**. -/
def doRtSigpending (set : UserPtr Unit) (sigsetsize : ℕ) : Except Errno SigSet :=
  if !sigsetsizeOk sigsetsize then .error .EINVAL
  else
    match k.threads tid, (procOf k tid).bind k.procs, set with
    | some t, some p, .val _ => .ok (p.pending.set &&& ~~~t.sigBlocked)
    | _, _, _ => .error .EFAULT

/-- `do_rt_sigsuspend` up to its first sleep: the temporary mask is in force and the
mask to come back to is saved, unless a signal of the process is deliverable at once. -/
def doRtSigsuspend (mask : UserPtr SigSet) (sigsetsize : ℕ) : Outcome Unit × Kernel :=
  if !sigsetsizeOk sigsetsize then (.returns (.error .EINVAL), k)
  else
    match k.threads tid, (procOf k tid).bind k.procs, mask with
    | some t, some p, .val mask =>
      let newMask := mask &&& maskable
      let oldBlocked := if t.inSigsuspend then t.sigSavedMask else t.sigBlocked
      if p.pending.set &&& ~~~newMask = 0#64 then
        (.sleeps, prepareToWait (k.modThread tid fun t =>
          { t with sigBlocked := newMask, sigSavedMask := oldBlocked, inSigsuspend := true,
                   call := some .sigsuspend }) (.stack tid) tid false)
      else
        (.returns (.error .EINTR), k.modThread tid fun t =>
          { t with sigBlocked := oldBlocked, inSigsuspend := false })
    | _, _, _ => (.returns (.error .EFAULT), k)

/-- One pass of the loop of `do_rt_sigsuspend`; the mask comes back in
`check_pending_signals`. -/
def sigsuspendPass : Outcome Unit × Kernel :=
  match k.threads tid, (procOf k tid).bind k.procs with
  | some t, some p =>
    let k := prepareToWait k (.stack tid) tid false
    if pendingOf p t &&& ~~~t.sigBlocked = 0#64 then (.sleeps, k)
    else (.returns (.error .EINTR), leaveCall (finishWait k (.stack tid) tid) tid)
  | _, _ => (.returns (.error .EFAULT), k)

/-- `do_epoll_pwait` up to the call of `do_epoll_wait`. -/
def doEpollPwait (sigmask : UserPtr SigSet) (sigsetsize : ℕ) : Outcome Unit × Kernel :=
  match k.threads tid with
  | none => (.returns (.error .EFAULT), k)
  | some t =>
    match sigmask with
    | .null => (.sleeps, k.modThread tid fun t => { t with call := some (.epollPwait none) })
    | .fault =>
      (.returns (.error (if sigsetsizeOk sigsetsize then .EFAULT else .EINVAL)), k)
    | .val mask =>
      if !sigsetsizeOk sigsetsize then (.returns (.error .EINVAL), k)
      else
        (.sleeps, k.modThread tid fun t' =>
          { t' with
            sigBlocked := mask &&& maskable, call := some (.epollPwait (some t.sigBlocked)) })

/-- The end of `do_epoll_pwait`: the mask of before is back. -/
def epollPwaitLeave : Kernel :=
  k.modThread tid fun t =>
    match t.call with
    | some (.epollPwait saved) =>
      { t with sigBlocked := saved.getD t.sigBlocked, call := none }
    | _ => t

/-- What `do_rt_sigreturn` does to the mask; `uc` is the first word of `uc_sigmask` of the
frame on the user stack, or `none` if the frame is refused before the mask is read. -/
def sigreturnMask (uc : Option SigSet) : Kernel :=
  match uc with
  | none => k
  | some m => k.modThread tid fun t => { t with sigBlocked := m &&& maskable }

end

/-! ## `wait4` -/

/-- Options of `wait4`. -/
abbrev WNOHANG : BitVec 32 := 1#32
abbrev WUNTRACED : BitVec 32 := 2#32
abbrev WCONTINUED : BitVec 32 := 8#32

/-- `options & bit`. -/
def waitHas (options bit : BitVec 32) : Bool := options &&& bit != 0#32

section

variable (k : Kernel)

/-- The exit signal of one child, added to a mask. -/
def addNotify (parent : ℕ) (m : SigSet) (i : ℕ) : SigSet :=
  match k.procs i with
  | none => m
  | some c =>
    if c.parentPid = parent ∧ 0 < c.notifySignal ∧ c.notifySignal ≤ 63
    then m ||| sigBit c.notifySignal else m

/-- The signals a sleeping `wait4` keeps away: `SIGCHLD` and the exit signals of the
children. -/
def waitBlock (parent : ℕ) : SigSet :=
  (pidRange k).foldl (addNotify k parent) (sigBit SIGCHLD)

/-- What `wait4` has to report of a child. -/
inductive ChildEvent where
  | stopped | continued | exited
  deriving DecidableEq, Repr

/-- The report of one child under `options`. -/
def childEvent (options : BitVec 32) (c : Process) : Option ChildEvent :=
  if waitHas options WUNTRACED ∧ c.stopSignal ≠ 0 then some .stopped
  else if waitHas options WCONTINUED ∧ c.wasContinued then some .continued
  else if c.state = .ZOMBIE then some .exited
  else none

/-- The signals whose default action dumps core. -/
def coreSignals : List ℕ := [6, 3, 11, 7, 8, 4, 5, 25, 24, 31]

/-- The status word of a report. -/
def waitStatus (c : Process) : ChildEvent → ℕ
  | .stopped => c.stopSignal <<< 8 ||| 0x7F
  | .continued => 0xFFFF
  | .exited =>
    if c.exitSignal = 0 then (c.exitCode &&& 0xFF) <<< 8
    else (c.exitSignal &&& 0x7F) ||| (if c.exitSignal ∈ coreSignals then 0x80 else 0)

/-- The report is handed out and not made again. -/
def consumeEvent (i : ℕ) : ChildEvent → Kernel
  | .stopped => k.modProc i fun c => { c with stopSignal := 0 }
  | .continued => k.modProc i fun c => { c with wasContinued := false }
  | .exited => procCleanup k i

/-- The children that a scan of `wait4` visits. -/
def waitedFor (parent : ℕ) (pid : ℤ) : List ℕ :=
  (pidRange k).filter fun i =>
    (k.procs i).any (fun c => c.state ≠ .FREE ∧ c.parentPid = parent) &&
      decide (0 < pid → (i : ℤ) = pid)

/-- One scan of `wait4`: the first child with a report, if it has children at all. -/
def waitScan (parent : ℕ) (pid : ℤ) (options : BitVec 32) :
    Option (Except Errno (ℕ × ℕ)) × Kernel :=
  let children := waitedFor k parent pid
  let hit := children.findSome? fun i =>
    (k.procs i).bind fun c => (childEvent options c).map fun e => (i, c, e)
  match hit with
  | some (i, c, e) => (some (.ok (i, waitStatus c e)), consumeEvent k i e)
  | none =>
    if children = [] then (some (.error .ECHILD), k)
    else if waitHas options WNOHANG then (some (.ok (0, 0)), k)
    else (none, k)

/-- `do_wait4` with `WNOHANG`, or up to its first scan: the mask is in force and the
thread is on the queue. -/
def doWait4 (tid : ℕ) (pid : ℤ) (wstatus : UserPtr Unit) (options : BitVec 32) :
    Outcome (ℕ × ℕ) × Kernel :=
  match k.threads tid, procOf k tid with
  | some t, some parent =>
    match k.procs parent with
    | none => (.returns (.error .EFAULT), k)
    | some p =>
      if saHas (p.sigActions SIGCHLD).flags SA_NOCLDWAIT ∧
          (p.sigActions SIGCHLD).handler = SIG_DFL then
        (.returns (.error .ECHILD), (pidRange k).foldl (fun k i =>
          if (k.procs i).any fun c => c.parentPid = parent ∧ c.state = .ZOMBIE
          then procCleanup k i else k) k)
      else if wstatus = .fault then (.returns (.error .EFAULT), k)
      else if waitHas options WNOHANG then
        match waitScan k parent pid options with
        | (some r, k) => (.returns r, k)
        | (none, k) => (.returns (.ok (0, 0)), k)
      else
        (.sleeps, prepareToWait (k.modThread tid fun t' =>
          { t' with sigBlocked := t.sigBlocked ||| waitBlock k parent,
                    call := some (.wait4 t.sigBlocked pid options) }) (.children parent) tid false)
  | _, _ => (.returns (.error .EFAULT), k)

/-- The way out of a `wait4` that could sleep: off the queue, with the mask of before. -/
def wait4Leave (tid parent : ℕ) (saved : SigSet) : Kernel :=
  (finishWait k (.children parent) tid).modThread tid fun t =>
    { t with sigBlocked := saved, call := none }

/-- One pass of the loop of `do_wait4`. -/
def wait4Pass (tid : ℕ) : Outcome (ℕ × ℕ) × Kernel :=
  match k.threads tid, procOf k tid with
  | some t, some parent =>
    match t.call with
    | some (.wait4 saved pid options) =>
      let k := prepareToWait k (.children parent) tid false
      match waitScan k parent pid options with
      | (some r, k) => (.returns r, wait4Leave k tid parent saved)
      | (none, k) =>
        match k.procs parent with
        | none => (.returns (.error .EFAULT), k)
        | some p =>
          if pendingOf p t &&& ~~~t.sigBlocked = 0#64 then (.sleeps, k)
          else (.returns (.error .ERESTARTSYS), wait4Leave k tid parent saved)
    | _ => (.returns (.error .EFAULT), k)
  | _, _ => (.returns (.error .EFAULT), k)

/-! ## `clone` -/

/-- The flags of `clone` that `kernel_clone` tests. -/
abbrev CLONE_NEWTIME : BitVec 64 := 0x00000080#64
abbrev CLONE_VM : BitVec 64 := 0x00000100#64
abbrev CLONE_FS : BitVec 64 := 0x00000200#64
abbrev CLONE_FILES : BitVec 64 := 0x00000400#64
abbrev CLONE_SIGHAND : BitVec 64 := 0x00000800#64
abbrev CLONE_VFORK : BitVec 64 := 0x00004000#64
abbrev CLONE_PARENT : BitVec 64 := 0x00008000#64
abbrev CLONE_THREAD : BitVec 64 := 0x00010000#64
abbrev CLONE_NEWNS : BitVec 64 := 0x00020000#64
abbrev CLONE_SYSVSEM : BitVec 64 := 0x00040000#64
abbrev CLONE_SETTLS : BitVec 64 := 0x00080000#64
abbrev CLONE_NEWIPC : BitVec 64 := 0x08000000#64
/-- `CLONE_NS_FLAGS`. -/
abbrev CLONE_NS_FLAGS : BitVec 64 := 0x7E020000#64

/-- What `clone` meets outside the tables: the arguments that are only tested, the
limits, and what every allocation on the way gives. -/
structure CloneEnv where
  childStack : Bool
  capSysAdmin : Bool
  nprocOk : Bool
  /-- The new pid, as `alloc_next_id` picks it. -/
  pid : Option ℕ
  netNs : Bool
  addressSpace : Bool
  groups : Bool
  /-- The descriptor table: its address and its pages. -/
  slab : Option ℕ
  fdMem : FdMem
  leaf : ℕ → Bool
  /-- The new tid. -/
  tid : Option ℕ
  tlsOk : Bool
  kstack : Bool

/-- The combinations of flags that are refused. -/
def cloneFlagsOk (flags : BitVec 64) (childStack : Bool) : Bool :=
  !(saHas flags CLONE_FS && saHas flags CLONE_NEWNS) &&
  !(saHas flags CLONE_NEWIPC && saHas flags CLONE_SYSVSEM) &&
  !(saHas flags CLONE_THREAD && !saHas flags CLONE_SIGHAND) &&
  !(saHas flags CLONE_SIGHAND && !saHas flags CLONE_VM) &&
  !(saHas flags CLONE_VM && !childStack)

/-- The process of a child that is not a thread: what it copies and what starts empty. -/
def childProcess (p : Process) (pid exitSig : ℕ) (flags : BitVec 64) : Process where
  state := .ALIVE
  parentPid := if saHas flags CLONE_PARENT then p.parentPid else pid
  threads := []
  exitCode := 0
  exitSignal := 0
  stopSignal := 0
  wasContinued := false
  vforkParentTid := 0
  notifySignal := if saHas flags CLONE_PARENT then p.notifySignal else exitSig
  pending := Pending.empty
  sigActions := p.sigActions
  alarmDeadlineMs := 0
  dnotifyQ := []

/-- The new thread: the mask is the caller's. -/
def childThread (t : Thread) (proc : ℕ) : Thread where
  state := .RUNNABLE
  proc := some proc
  priority := t.priority
  sigBlocked := t.sigBlocked
  pending := Pending.empty
  sigSavedMask := 0#64
  inSigsuspend := false
  call := none

/-- A fresh slot of `pid_table` or `tid_table`. -/
def freshId {α : Type} (table : ℕ → Option α) (id : Option ℕ) : Option ℕ :=
  id.filter fun i => 0 < i ∧ (table i).isNone

/-- `proc_alloc`, then what `kernel_clone` writes: the table grows with the pid. -/
def allocProc (pid : ℕ) (p : Process) : Kernel :=
  { k with
    pidCapacity := max k.pidCapacity (pid + 1)
    procs := update k.procs pid (some p)
    queues := update k.queues (.children pid) [] }

/-- `free_child_proc`. -/
def freeChildProc (pid : ℕ) : Kernel :=
  let k := closeFiles k pid
  { k with procs := update k.procs pid none }

/-- The siblings of the caller are frozen while the address space is copied; afterwards
`sched_add` makes them runnable. -/
def thawSiblings (cur : ℕ) (tids : List ℕ) : Kernel :=
  tids.foldl (fun k u =>
    if u ≠ cur ∧ (threadIn k .RUNNABLE u ∨ threadIn k .RUNNING u) then schedAdd k u else k) k

/-- The child process of `kernel_clone`, without a thread yet. -/
def cloneProcess (cur pid : ℕ) (p : Process) (exitSig : ℕ) (flags : BitVec 64)
    (env : CloneEnv) : Except Errno ℕ × Kernel :=
  if !env.nprocOk then (.error .EAGAIN, k)
  else
    match freshId k.procs env.pid with
    | none => (.error .ENOMEM, k)
    | some child =>
      let k := allocProc k child (childProcess p pid exitSig flags)
      if !env.netNs then (.error .ENOMEM, freeChildProc k child)
      else
        let k := if saHas flags CLONE_VM then k else thawSiblings k cur p.threads
        if !saHas flags CLONE_VM && !env.addressSpace then (.error .ENOMEM, freeChildProc k child)
        else if !env.groups then (.error .ENOMEM, freeChildProc k child)
        else if saHas flags CLONE_FILES then
          (.ok child, { k with files := shareFiles k.files pid child })
        else
          match forkFiles k.files pid child env.slab env.fdMem env.leaf with
          | (.error e, files) => (.error e, freeChildProc { k with files } child)
          | (.ok _, files) => (.ok child, { k with files })

/-- The thread of `kernel_clone` in the process `child`, and its linkage. -/
def cloneThread (cur child : ℕ) (t : Thread) (flags : BitVec 64) (env : CloneEnv) :
    Except Errno ℕ × Kernel :=
  let isThread := saHas flags CLONE_THREAD
  let isVfork := saHas flags CLONE_VFORK && !isThread
  match freshId k.threads env.tid with
  | none => (.error .ENOMEM, if isThread then k else freeChildProc k child)
  | some ct =>
    -- the failure path for a bad TLS address cleans up the process, also the caller's own
    if saHas flags CLONE_SETTLS && !env.tlsOk then (.error .EINVAL, procCleanup k child)
    else if !env.kstack then (.error .ENOMEM, if isThread then k else freeChildProc k child)
    else
      let k := { k with threads := update k.threads ct (some (childThread t child)) }
      let k := k.modProc child fun c => { c with
        threads := if isThread then ct :: c.threads else [ct]
        vforkParentTid := if isVfork then cur else c.vforkParentTid }
      let k := if isVfork then k.setState cur .BLOCKED else k
      (.ok (if isThread then ct else child), schedAdd k ct)

/-- `kernel_clone`, called by the thread `cur`. -/
def kernelClone (cur : ℕ) (flags : BitVec 64) (env : CloneEnv) : Except Errno ℕ × Kernel :=
  let exitSig := (flags &&& 0xFF#64).toNat
  if 64 < exitSig then (.error .EINVAL, k)
  else if !cloneFlagsOk flags env.childStack then (.error .EINVAL, k)
  else
    match k.threads cur, procOf k cur with
    | some t, some pid =>
      match k.procs pid with
      | none => (.error .EFAULT, k)
      | some p =>
        if saHas flags CLONE_NS_FLAGS && !env.capSysAdmin then (.error .EPERM, k)
        else if saHas flags CLONE_NEWTIME then (.error .EINVAL, k)
        else if saHas flags CLONE_THREAD then cloneThread k cur pid t flags env
        else
          match cloneProcess k cur pid p exitSig flags env with
          | (.error e, k) => (.error e, k)
          | (.ok child, k) => cloneThread k cur child t flags env
    | _, _ => (.error .EFAULT, k)

end

end CosmoRT.Proc
