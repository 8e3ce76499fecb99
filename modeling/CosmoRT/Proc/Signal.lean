import CosmoRT.Proc.Exit

/-!
# Sending, delivering and consuming signals

`proc/signal.c`, with the part of `deliver_signal` in `signal_frame.c` that changes
masks, dispositions and pending sets.

Signals are `1 .. 63`.  The frame that `deliver_signal` builds on the user stack is a
subject of its own; here only its success or failure is known.
-/

namespace CosmoRT.Proc

open Event

/-! ## Default actions -/

/-- What `SIG_DFL` means for a signal. -/
inductive DefaultAction where
  | ignore | stop | cont | fatal
  deriving DecidableEq, Repr

/-- The `switch` over the signals with default disposition. -/
def defaultAction (sig : ℕ) : DefaultAction :=
  if sig = SIGCHLD ∨ sig = SIGURG ∨ sig = SIGWINCH ∨ sig = SIGIO then .ignore
  else if sig = SIGSTOP ∨ sig = SIGTSTP ∨ sig = SIGTTIN ∨ sig = SIGTTOU then .stop
  else if sig = SIGCONT then .cont
  else .fatal

/-- A thread has the signal in its mask. -/
def threadBlocks (k : Kernel) (sig u : ℕ) : Bool :=
  (k.threads u).any fun t => hasSig t.sigBlocked sig

/-- A thread is in a state. -/
def threadIn (k : Kernel) (st : ThreadState) (u : ℕ) : Bool :=
  (k.threads u).any fun t => t.state = st

/-- The threads of a list that are in a state of `from` go to `STOPPED`. -/
def stopThreads (k : Kernel) (which : ThreadState → Bool) (tids : List ℕ) : Kernel :=
  tids.foldl (fun k u =>
    k.modThread u fun t => if which t.state then { t with state := .STOPPED } else t) k

/-- The stopped threads of a list become runnable. -/
def resumeThreads (k : Kernel) (tids : List ℕ) : Kernel :=
  tids.foldl (fun k u => if threadIn k .STOPPED u then schedAdd k u else k) k

theorem woken_resumeThreads (k : Kernel) (tids : List ℕ) :
    Woken .NORMAL k (resumeThreads k tids) := by
  refine Woken.foldl (fun k u => ?_) tids k
  split
  · next h =>
    obtain ⟨t, ht, hst⟩ := (Option.any_eq_true _ _).mp h
    have hwake : schedAdd k u = schedWake k u := by
      simp [schedWake, tryToWakeUp, ht, WakeMask.covers, of_decide_eq_true hst]
    exact hwake ▸ woken_schedWake k u
  · exact Woken.refl ..

/-! ## Sending -/

section

variable (k : Kernel)

/-- `kill_one` of a default stop signal: the threads stop at once, blocked or not. -/
def killStop (pid sig : ℕ) (p : Process) : Kernel :=
  let k := stopThreads k (fun st => st = .RUNNING ∨ st = .RUNNABLE ∨ st = .BLOCKED) p.threads
  let k := k.modProc pid fun p => { p with stopSignal := sig, wasContinued := false }
  notifyParent k pid

/-- The stop signals of `sig_pending`, which a default `SIGCONT` clears. -/
def stopBits : SigSet := sigBit SIGSTOP ||| sigBit SIGTSTP ||| sigBit SIGTTIN ||| sigBit SIGTTOU

/-- `kill_one` of a default `SIGCONT`. -/
def killCont (pid : ℕ) (p : Process) : Kernel :=
  let k := k.modPending pid fun q => { q with set := q.set &&& ~~~stopBits }
  if p.threads.any (threadIn k .STOPPED) then
    let k := k.modProc pid fun p => { p with stopSignal := 0, wasContinued := true }
    notifyParent (resumeThreads k p.threads) pid
  else k

/-- `kill_one` of a default signal that is fatal: pending if every thread blocks it, the
end at once if it is the caller's own process, and otherwise left for the target to see. -/
def killFatal (cur pid sig : ℕ) (p : Process) : Kernel :=
  if p.threads.all (threadBlocks k sig) then
    wakeBlocked (k.modPending pid (·.raise sig)) p.threads
  else
    let k := k.modProc pid fun p => { p with exitSignal := sig }
    if procOf k cur = some pid then doExitGroup k cur (128 + sig)
    else p.threads.foldl signalWakeUp (k.modPending pid (·.raise sig))

/-- The wake-ups of `kill_one` for a signal with a handler. -/
def wakeOpen (sig : ℕ) (k : Kernel) (u : ℕ) : Kernel :=
  if threadIn k .BLOCKED u && !threadBlocks k sig u then signalWakeUp k u else k

/-- `kill_one`, called by the thread `cur`. -/
def killOne (cur pid sig : ℕ) : Except Errno Unit × Kernel :=
  match k.procs pid with
  | none => (.error .ESRCH, k)
  | some p =>
    if p.state ≠ .ALIVE then (.error .ESRCH, k)
    else if (p.sigActions sig).handler = SIG_IGN then (.ok (), k)
    else if (p.sigActions sig).handler = SIG_DFL then
      (.ok (), match defaultAction sig with
        | .ignore =>
          if p.threads.any (threadBlocks k sig) then
            wakeBlocked (k.modPending pid (·.raise sig)) p.threads
          else k
        | .stop => killStop k pid sig p
        | .cont => killCont k pid p
        | .fatal => killFatal k cur pid sig p)
    else
      (.ok (), p.threads.foldl (wakeOpen sig) (k.modPending pid (·.queue sig)))

/-- `do_tgkill` after its argument checks. -/
def tgkillThread (cur pid tid sig : ℕ) (p : Process) (t : Thread) : Except Errno Unit × Kernel :=
  if (p.sigActions sig).handler = SIG_IGN then (.ok (), k)
  else if (p.sigActions sig).handler = SIG_DFL then
    match defaultAction sig with
    | .ignore =>
      if hasSig t.sigBlocked sig then
        (.ok (), wakeBlocked (k.modThreadPending tid (·.raise sig)) [tid])
      else (.ok (), k)
    | .stop | .cont => killOne k cur pid sig
    | .fatal =>
      if hasSig t.sigBlocked sig then (.ok (), k.modThreadPending tid (·.raise sig))
      else killOne k cur pid sig
  else
    let k := k.modThreadPending tid (·.queue sig)
    (.ok (), if hasSig t.sigBlocked sig then k else signalWakeUp k tid)

/-- `do_tgkill`. -/
def doTgkill (cur : ℕ) (tgid tid sig : ℤ) : Except Errno Unit × Kernel :=
  if sig < 0 ∨ 64 ≤ sig then (.error .EINVAL, k)
  else if tgid ≤ 0 ∨ tid ≤ 0 then (.error .EINVAL, k)
  else if sig = 0 then (.ok (), k)
  else
    match threadFindByTid k tid.toNat with
    | none => (.error .ESRCH, k)
    | some t =>
      match t.proc with
      | none => (.error .ESRCH, k)
      | some pid =>
        if (pid : ℤ) ≠ tgid then (.error .EINVAL, k)
        else
          match k.procs pid with
          | none => (.error .ESRCH, k)
          | some p => tgkillThread k cur pid tid.toNat sig.toNat p t

/-! ## Taking a pending signal -/

/-- `p->sig_pending | t->sig_thread_pending`. -/
def pendingOf (p : Process) (t : Thread) : SigSet := p.pending.set ||| t.pending.set

/-- A pending signal is taken from the thread's set if it is there, else from the
process's. -/
def takeSignal (pid tid sig : ℕ) (t : Thread) : Kernel :=
  if hasSig t.pending.set sig then k.modThreadPending tid (·.take sig)
  else k.modPending pid (·.take sig)

end

/-- `dnotify_queue_pop_fd`, which takes the first event of the signal, and the mark that
is left if `dnotify_queue_peek_fd` finds another one. -/
def dnotifyRepend (p : Process) (sig : ℕ) : Process :=
  if p.dnotifyQ.any fun e => e.1 = sig then
    let q := p.dnotifyQ.eraseP fun e => e.1 = sig
    { p with
      dnotifyQ := q
      pending := if q.any fun e => e.1 = sig then p.pending.queue sig else p.pending }
  else p

/-! ## Delivery -/

/-- What the delivery meets outside the tables: whether it is the timer interrupt,
the time, and whether the frame could be built on the user stack. -/
structure SigEnv where
  inPreempt : Bool
  nowMs : ℕ
  built : Bool
  deriving DecidableEq, Repr

abbrev SA_NOCLDWAIT : BitVec 64 := 0x00000002#64
abbrev SA_SIGINFO : BitVec 64 := 0x00000004#64
abbrev SA_RESTORER : BitVec 64 := 0x04000000#64
abbrev SA_ONSTACK : BitVec 64 := 0x08000000#64
abbrev SA_RESTART : BitVec 64 := 0x10000000#64
abbrev SA_NODEFER : BitVec 64 := 0x40000000#64
abbrev SA_RESETHAND : BitVec 64 := 0x80000000#64

/-- `flags & bit`. -/
def saHas (flags bit : BitVec 64) : Bool := flags &&& bit != 0#64

/-- The first address outside user space. -/
abbrev userTop : ℕ := 0x800000000000

/-- The mask a handler runs with. -/
def handlerMask (blocked : SigSet) (sa : SigAction) (sig : ℕ) : SigSet :=
  ((if saHas sa.flags SA_NODEFER then blocked else blocked ||| sigBit sig) ||| sa.mask) &&& maskable

section

variable (k : Kernel)

section

variable (pid tid sig : ℕ)

/-- `deliver_signal`: the frame, the mask of the handler and `SA_RESETHAND`. -/
def deliverSignal (built : Bool) : Kernel :=
  match k.procs pid with
  | none => k
  | some p =>
    let sa := p.sigActions sig
    if sa.handler ≤ 1 then k
    else if userTop ≤ sa.handler ∨ built = false then
      doExit (k.modProc pid fun p => { p with exitSignal := sig }) tid (128 + sig)
    else
      let k := if sig = 11 ∨ sig = 7 then k else k.modProc pid (dnotifyRepend · sig)
      let k := k.modThread tid fun t => { t with sigBlocked := handlerMask t.sigBlocked sa sig }
      if saHas sa.flags SA_RESETHAND then
        k.modProc pid fun p => { p with
          sigActions := Function.update p.sigActions sig { sa with handler := SIG_DFL } }
      else k

/-- The end of a process in the timer interrupt, where `do_exit` cannot be called. -/
def preemptDeath : Kernel :=
  let k := k.setState tid .DEAD
  let k := k.modProc pid fun p => { p with state := .ZOMBIE, exitCode := 128 + sig }
  let k := ((k.procs pid).elim [] (·.threads)).foldl (fun k u =>
    if u = tid then k
    else k.modThread u fun t =>
      if t.state = .RUNNING ∨ t.state = .RUNNABLE ∨ t.state = .BLOCKED
      then { t with state := .DEAD } else t) k
  notifyParent k pid

/-- A default stop signal at delivery: the running threads stop, and the caller. -/
def deliverStop : Kernel :=
  let k := stopThreads k (fun st => st = .RUNNING ∨ st = .RUNNABLE)
    ((k.procs pid).elim [] (·.threads))
  let k := k.modProc pid fun p => { p with stopSignal := sig, wasContinued := false }
  (notifyParent k pid).setState tid .STOPPED

/-- A default `SIGCONT` at delivery. -/
def deliverCont (pid : ℕ) : Kernel :=
  let tids := (k.procs pid).elim [] (·.threads)
  if tids.any (threadIn k .STOPPED) then
    let k := (resumeThreads k tids).modProc pid fun p =>
      { p with stopSignal := 0, wasContinued := true }
    notifyParent k pid
  else k

/-- A default fatal signal at delivery. -/
def deliverFatal (inPreempt : Bool) : Kernel :=
  let k := k.modProc pid fun p => { p with exitSignal := sig }
  if inPreempt then preemptDeath k pid tid sig else doExit k tid (128 + sig)

/-- One pending signal, taken out already, is acted on; `true` if the scan goes on. -/
def actOn (env : SigEnv) (sa : SigAction) : Bool × Kernel :=
  if sa.handler = SIG_IGN then (true, k)
  else if sa.handler = SIG_DFL then
    match defaultAction sig with
    | .ignore => (true, k)
    | .stop => (false, deliverStop k pid tid sig)
    | .cont => (true, deliverCont k pid)
    | .fatal => (false, deliverFatal k pid tid sig env.inPreempt)
  else (false, deliverSignal k pid tid sig env.built)

end

/-- The loop of `check_pending_signals` over the signals of `deliverable`; the signals
that were taken out come with the state, each with the set it was taken from (`true` is
the thread's). -/
def checkLoop (pid tid : ℕ) (env : SigEnv) (deliverable : SigSet) :
    List ℕ → Kernel → List (Bool × ℕ) × Kernel
  | [], k => ([], k)
  | sig :: sigs, k =>
    if hasSig deliverable sig then
      match k.procs pid, k.threads tid with
      | some p, some t =>
        let r := actOn (takeSignal k pid tid sig t) pid tid sig env (p.sigActions sig)
        let got := (hasSig t.pending.set sig, sig)
        if r.1 then
          let rest := checkLoop pid tid env deliverable sigs r.2
          (got :: rest.1, rest.2)
        else ([got], r.2)
      | _, _ => ([], k)
    else checkLoop pid tid env deliverable sigs k

/-- `for (int sig = 1; sig < 64; sig++)`. -/
def allSignals : List ℕ := List.range' 1 63

/-- The alarm of a process that is due: `true` if it ended the caller. -/
def checkAlarm (pid tid nowMs : ℕ) (p : Process) : Bool × Kernel :=
  if 0 < p.alarmDeadlineMs ∧ p.alarmDeadlineMs ≤ nowMs then
    let k := k.modProc pid fun p => { p with alarmDeadlineMs := 0 }
    if (p.sigActions SIGALRM).handler = SIG_IGN then (false, k)
    else if (p.sigActions SIGALRM).handler = SIG_DFL then
      (true, doExit (k.modProc pid fun p => { p with exitSignal := SIGALRM }) tid (128 + SIGALRM))
    else (false, k.modPending pid (·.raise SIGALRM))
  else (false, k)

/-- The mask of before `rt_sigsuspend` comes back. -/
def leaveSigsuspend (t : Thread) : Thread :=
  if t.inSigsuspend then { t with sigBlocked := t.sigSavedMask, inSigsuspend := false } else t

/-- `check_pending_signals` for the thread `tid`, with the signals it took out. -/
def checkPendingSignals (tid : ℕ) (env : SigEnv) : List (Bool × ℕ) × Kernel :=
  match procOf k tid with
  | none => ([], k)
  | some pid =>
    match k.procs pid with
    | none => ([], k)
    | some p =>
      let r := checkAlarm k pid tid env.nowMs p
      if r.1 then ([], r.2)
      else
        let k := r.2.modThread tid leaveSigsuspend
        match k.procs pid, k.threads tid with
        | some p, some t =>
          checkLoop pid tid env (pendingOf p t &&& ~~~t.sigBlocked) allSignals k
        | _, _ => ([], k)

/-! ## Waiting for a signal -/

/-- `sigwait_consume`: the lowest signal of the mask that is pending.  A set with
nothing but bit 63 ends the search loop with 64. -/
def sigwaitConsume (pid tid : ℕ) (waitMask : SigSet) : Option ℕ × Kernel :=
  match k.procs pid, k.threads tid with
  | some p, some t =>
    let found := pendingOf p t &&& waitMask
    if found = 0#64 then (none, k)
    else
      let sig := (allSignals.find? (hasSig found)).getD 64
      (some sig, (takeSignal k pid tid sig t).modProc pid (dnotifyRepend · sig))
  | _, _ => (none, k)

/-- The outcome of a call that may sleep. -/
inductive Outcome (α : Type) where
  | sleeps
  | returns (r : Except Errno α)

/-- The calling thread leaves its call. -/
def leaveCall (tid : ℕ) : Kernel := k.modThread tid fun t => { t with call := none }

/-- One pass of the loop of `do_rt_sigtimedwait`. -/
def sigtimedwaitPass (tid : ℕ) (waitMask : SigSet) (timedOut : Bool) : Outcome ℕ × Kernel :=
  match procOf k tid with
  | none => (.returns (.error .EFAULT), k)
  | some pid =>
    let k := prepareToWait k (.stack tid) tid false
    let leave (k : Kernel) := leaveCall (finishWait k (.stack tid) tid) tid
    match sigwaitConsume k pid tid waitMask with
    | (some sig, k) => (.returns (.ok sig), leave k)
    | (none, k) =>
      if timedOut then (.returns (.error .EAGAIN), leave k)
      else
        match k.procs pid, k.threads tid with
        | some p, some t =>
          if pendingOf p t &&& ~~~t.sigBlocked &&& ~~~waitMask = 0#64 then
            (.sleeps, k.modThread tid fun t => { t with call := some (.sigtimedwait waitMask) })
          else (.returns (.error .EINTR), leave k)
        | _, _ => (.returns (.error .EFAULT), leave k)

/-- `do_rt_sigtimedwait` up to its first sleep.  `waitMask` is what could be copied from
the user; `poll` is a timeout of zero. -/
def doRtSigtimedwait (tid : ℕ) (waitMask : Option SigSet) (poll : Bool)
    (sigsetsize : ℕ) : Outcome ℕ × Kernel :=
  if sigsetsize ≠ 8 ∧ sigsetsize ≠ 16 then (.returns (.error .EINVAL), k)
  else
    match procOf k tid with
    | none => (.returns (.error .EFAULT), k)
    | some pid =>
      match waitMask with
      | none => (.returns (.error .EFAULT), k)
      | some waitMask =>
        match sigwaitConsume k pid tid waitMask with
        | (some sig, k) => (.returns (.ok sig), k)
        | (none, k) =>
          if poll then (.returns (.error .EAGAIN), k) else sigtimedwaitPass k tid waitMask false

end

end CosmoRT.Proc
