import CosmoRT.Proc.Thread

/-!
# The ways out of a process

`do_exit`, `do_exit_group` and `exit_kill_process` of `sys/sys_proc.c`, and the
`proc_cleanup` of `process_wait.c` by which a parent reaps a zombie.

The address space, file locks, accounting and the futex words of the dying thread
are not part of this state.
-/

namespace CosmoRT.Proc

open Event Function

/-! ## Teardown -/

section

variable (k : Kernel)

/-- The loop `if (t->state == THREAD_BLOCKED) signal_wake_up(t)` over some threads. -/
def wakeBlocked (tids : List ℕ) : Kernel :=
  tids.foldl (fun k u =>
    if (k.threads u).any fun t => t.state = .BLOCKED then signalWakeUp k u else k) k

/-- A signal for the parent of a zombie, with its sleepers in `wait4` and in
`sigtimedwait` woken. -/
def tellParent (parent sig : ℕ) : Kernel :=
  match procFind k parent with
  | none => k
  | some p =>
    wakeBlocked (wakeUp (k.modPending parent (·.raise sig)) (.children parent)) p.threads

/-- The descriptors go; the threads that sleep on the pipes among them are woken. -/
def closeFiles (pid : ℕ) : Kernel :=
  let files := exitFiles k.files pid
  (files.woken.drop k.files.woken.length).foldl schedWake { k with files }

/-- A thread parked in `vfork` on the process is woken. -/
def wakeVfork (pid : ℕ) : Kernel :=
  match k.procs pid with
  | none => k
  | some p =>
    if p.vforkParentTid = 0 then k
    else
      let k₁ := match threadFindByTid k p.vforkParentTid with
        | none => k
        | some _ => schedWake k p.vforkParentTid
      k₁.modProc pid fun p => { p with vforkParentTid := 0 }

/-- The other threads are dead and belong to no process. -/
def killSiblings (tid : ℕ) (tids : List ℕ) : Kernel :=
  tids.foldl (fun k u =>
    if u = tid then k else k.modThread u fun t => { t with state := .DEAD, proc := none }) k

/-- One turn of the loop over `pid_table`: a child becomes a child of init, which is told
if the child is a zombie. -/
def reparent (pid : ℕ) (k : Kernel) (i : ℕ) : Kernel :=
  match k.procs i with
  | none => k
  | some child =>
    if child.parentPid = pid then
      let k₁ := k.modProc i fun c => { c with parentPid := 1 }
      if child.state = .ZOMBIE then tellParent k₁ 1 SIGCHLD else k₁
    else k

/-- The pids that a loop over `pid_table` visits. -/
def pidRange : List ℕ := List.range' 1 (k.pidCapacity - 1)

/-- The exit signal goes to the parent. -/
def notifyExit (pid : ℕ) : Kernel :=
  match k.procs pid with
  | none => k
  | some p =>
    tellParent k p.parentPid (if p.notifySignal = 0 then SIGCHLD else p.notifySignal)

/-- `exit_kill_process`. -/
def exitKillProcess (tid pid status : ℕ) : Kernel :=
  let k := k.modProc pid fun p => { p with state := .ZOMBIE, exitCode := status }
  let k := closeFiles (wakeVfork k pid) pid
  let k := killSiblings k tid ((k.procs pid).elim [] (·.threads))
  let k := (pidRange k).foldl (reparent pid) k
  notifyExit k pid

/-- The threads of a process, other than `tid`, that are not dead. -/
def liveSiblings (tid pid : ℕ) : List ℕ :=
  ((k.procs pid).elim [] (·.threads)).filter fun u =>
    decide (u ≠ tid) && (k.threads u).any fun t => t.state ≠ .DEAD

/-- `do_exit`: the process ends with its last thread. -/
def doExit (tid status : ℕ) : Kernel :=
  let k₁ := k.setState tid .DEAD
  match procOf k tid with
  | none => k₁
  | some pid => if liveSiblings k₁ tid pid = [] then exitKillProcess k₁ tid pid status else k₁

/-- `do_exit_group`. -/
def doExitGroup (tid status : ℕ) : Kernel :=
  let k₁ := k.setState tid .DEAD
  match procOf k tid with
  | none => k₁
  | some pid => exitKillProcess k₁ tid pid status

/-! ## Reaping -/

/-- `thread_free`. -/
def threadFree (tid : ℕ) : Kernel :=
  match k.threads tid with
  | none => k
  | some t =>
    { k with
      threads := update k.threads tid none
      rq := update k.rq (clampPrio t.priority) ((k.rq (clampPrio t.priority)).erase tid) }

/-- `proc_cleanup`: the threads that still belong to the process are freed, and its pid. -/
def procCleanup (pid : ℕ) : Kernel :=
  match k.procs pid with
  | none => k
  | some p =>
    let k := closeFiles k pid
    let k := p.threads.foldl (fun k u => if procOf k u = some pid then threadFree k u else k) k
    { k with procs := update k.procs pid none }

/-! ## Switching threads -/

/-- The highest priority with a thread on its run queue. -/
def rqTop : Option ℕ := (List.range 32).reverse.find? fun prio => k.rq prio ≠ []

/-- `sched_pick`: the head of the highest run queue that is not empty. -/
def schedPick : Option ℕ × Kernel :=
  match rqTop k with
  | none => (none, k)
  | some prio =>
    ((k.rq prio).head?, { k with rq := update k.rq prio (k.rq prio).tail })

/-- What `schedule` asks of a thread it picked. -/
def eligible (tid : ℕ) : Bool :=
  (k.threads tid).any fun t =>
    decide (t.state ≠ .DEAD ∧ t.state ≠ .FREE ∧ t.state ≠ .STOPPED) &&
      (t.proc.bind k.procs).any fun p => p.state = .ALIVE

/-- The loop of `schedule`: threads that are not eligible fall off the queue, and dead ones
without a process are freed. -/
def pickNext : ℕ → Kernel → Option ℕ × Kernel
  | 0, k => (none, k)
  | n + 1, k =>
    match schedPick k with
    | (none, k) => (none, k)
    | (some tid, k) =>
      if eligible k tid then (some tid, k)
      else pickNext n (if (k.threads tid).any fun t => t.state = .DEAD ∧ t.proc = none
        then threadFree k tid else k)

/-- How many threads wait on the run queues. -/
def rqLength : ℕ := ((List.range 32).map fun prio => (k.rq prio).length).sum

/-- `schedule`: the next thread, if there is one, runs. -/
def schedule : Kernel :=
  match pickNext (rqLength k) k with
  | (none, k) => k
  | (some tid, k) => k.setState tid .RUNNING

/-- `finish_switch`: a thread that was switched away from while it ran is queued again. -/
def finishSwitch (prev : ℕ) : Kernel :=
  if (k.threads prev).any fun t => t.state = .RUNNING then schedAdd k prev else k

end

end CosmoRT.Proc
