import CosmoRT.Event.Files

/-!
# Threads, processes and the scheduler

The records of `include/kernel/proc/thread.h` and `process.h` as far as signals,
job control and exit read them, with the run queues of `core/sched.c` and the
wait queues of `core/waitqueue.c`.

* `schedAdd`, `tryToWakeUp` — the one way in which a sleeping or stopped thread
  becomes runnable, and its callers `signalWakeUp`, `schedWake`, `wakeUp`,
  `wakeUpAll`, `wakeUpNr`, `wakeUpInterruptible`.
* `Woken` — what any number of wake-ups can do: **a thread they change was in one of
  the states of the mask and is runnable afterwards, and nothing else changes.**

A pointer to a process or thread is its number; `NULL` is `none`.  A call that
sleeps leaves its local variables in the field `call` of its thread.
-/

namespace CosmoRT.Proc

open Event BitVec Function

/-! ## Signal sets -/

/-- `uint64_t` signal masks: bit `sig - 1` stands for `sig`. -/
abbrev SigSet := BitVec 64

/-- `SIG_BIT(sig)`. -/
def sigBit (sig : ℕ) : SigSet := 1#64 <<< (sig - 1)

/-- `mask & SIG_BIT(sig)`. -/
def hasSig (m : SigSet) (sig : ℕ) : Bool := m &&& sigBit sig != 0#64

/-- The signals that the source names. -/
abbrev SIGKILL : ℕ := 9
abbrev SIGALRM : ℕ := 14
abbrev SIGCHLD : ℕ := 17
abbrev SIGCONT : ℕ := 18
abbrev SIGSTOP : ℕ := 19
abbrev SIGTSTP : ℕ := 20
abbrev SIGTTIN : ℕ := 21
abbrev SIGTTOU : ℕ := 22
abbrev SIGURG : ℕ := 23
abbrev SIGWINCH : ℕ := 28
abbrev SIGIO : ℕ := 29

/-- `~(SIG_BIT(9) | SIG_BIT(19))`: what may be blocked. -/
def maskable : SigSet := ~~~(sigBit SIGKILL ||| sigBit SIGSTOP)

theorem getLsbD_sigBit (sig i : ℕ) :
    (sigBit sig).getLsbD i = (decide (i < 64) && decide (i = sig - 1)) := by
  rw [sigBit, ← twoPow_eq]
  by_cases h : i = sig - 1
  · subst h; simp
  · simp [h, Ne.symm h]

theorem hasSig_eq (m : SigSet) (sig : ℕ) : hasSig m sig = m.getLsbD (sig - 1) := by
  rw [hasSig, Bool.eq_iff_iff, bne_iff_ne]
  constructor
  · intro h
    by_contra hm
    refine h (eq_of_getLsbD_eq fun i hi => ?_)
    by_cases h' : i = sig - 1
    · simp_all
    · simp [getLsbD_sigBit, h']
  · intro h h0
    have hlt : sig - 1 < 64 := lt_of_getLsbD h
    have hbit : (m &&& sigBit sig).getLsbD (sig - 1) = false := by rw [h0]; exact getLsbD_zero
    simp [getLsbD_and, getLsbD_sigBit, h, -getLsbD_eq_getElem] at hbit
    omega

@[simp] theorem hasSig_or (a b : SigSet) (sig : ℕ) :
    hasSig (a ||| b) sig = (hasSig a sig || hasSig b sig) := by simp [hasSig_eq]

@[simp] theorem hasSig_and (a b : SigSet) (sig : ℕ) :
    hasSig (a &&& b) sig = (hasSig a sig && hasSig b sig) := by simp [hasSig_eq]

@[simp] theorem hasSig_zero (sig : ℕ) : hasSig 0#64 sig = false := by simp [hasSig_eq]

theorem hasSig_not (a : SigSet) {sig : ℕ} (h : sig ≤ 64) : hasSig (~~~a) sig = !hasSig a sig := by
  simp only [hasSig_eq, getLsbD_not, Bool.and_eq_right_iff_imp, decide_eq_true_eq]
  omega

theorem hasSig_sigBit {a b : ℕ} (ha : 1 ≤ a) (hb : 1 ≤ b) (hb' : b ≤ 64) :
    hasSig (sigBit a) b = decide (b = a) := by
  rw [hasSig_eq, getLsbD_sigBit, Bool.eq_iff_iff]
  simp only [Bool.and_eq_true, decide_eq_true_eq]
  omega

theorem and_not_of_and_eq_zero {w : ℕ} {a b : BitVec w} (h : a &&& b = 0#w) : a &&& ~~~b = a := by
  refine eq_of_getLsbD_eq fun i hi => ?_
  have hbit : (a &&& b).getLsbD i = false := by rw [h]; exact getLsbD_zero
  rw [getLsbD_and] at hbit ⊢
  cases ha : a.getLsbD i with
  | false => rfl
  | true =>
    rw [ha, Bool.true_and] at hbit
    simp [hi, hbit, -getLsbD_eq_getElem]

/-- `mask & ~(SIG_BIT(9) | SIG_BIT(19))` blocks neither. -/
@[simp] theorem hasSig_maskable_kill : hasSig maskable SIGKILL = false := by decide

@[simp] theorem hasSig_maskable_stop : hasSig maskable SIGSTOP = false := by decide

/-! ## Records -/

/-- `struct k_sigaction`; handler 0 is `SIG_DFL` and 1 is `SIG_IGN`. -/
structure SigAction where
  handler : ℕ
  flags : BitVec 64
  restorer : ℕ
  mask : SigSet
  deriving DecidableEq, Repr

/-- The two handlers that are none. -/
abbrev SIG_DFL : ℕ := 0
abbrev SIG_IGN : ℕ := 1

/-- `THREAD_FREE`, `THREAD_RUNNABLE` and so on. -/
inductive ThreadState where
  | FREE | RUNNABLE | RUNNING | BLOCKED | DEAD | STOPPED
  deriving DecidableEq, Repr

/-- A sleeping system call, with the local variables it keeps on its kernel stack. -/
inductive Call where
  /-- `do_wait4` with `saved_sig_blocked`, `pid` and `options`. -/
  | wait4 (saved : SigSet) (pid : ℤ) (options : BitVec 32)
  | sigsuspend
  /-- `do_epoll_pwait` with `saved`, if it was given a mask. -/
  | epollPwait (saved : Option SigSet)
  /-- `do_rt_sigtimedwait` with `wait_mask`. -/
  | sigtimedwait (waitMask : SigSet)
  deriving DecidableEq, Repr

/-- Pending signals, kept for each process (`sig_pending`, `sig_rt_count`) and again for
each thread (`sig_thread_pending`, `sig_rt_thread_count`): a mask, and for the real-time
signals the depth of the queue, a `uint16_t` that is found here under the signal's number. -/
structure Pending where
  set : SigSet
  rtCount : ℕ → ℕ

/-- `thread_t`. -/
structure Thread where
  state : ThreadState
  proc : Option ℕ
  priority : ℤ
  sigBlocked : SigSet
  pending : Pending
  sigSavedMask : SigSet
  inSigsuspend : Bool
  call : Option Call

/-- `PROC_FREE`, `PROC_ALIVE`, `PROC_ZOMBIE`. -/
inductive ProcState where
  | FREE | ALIVE | ZOMBIE
  deriving DecidableEq, Repr

/-- `process_t`. -/
structure Process where
  state : ProcState
  parentPid : ℕ
  /-- The list `threads`, linked by `proc_next`. -/
  threads : List ℕ
  exitCode : ℕ
  exitSignal : ℕ
  stopSignal : ℕ
  wasContinued : Bool
  vforkParentTid : ℕ
  notifySignal : ℕ
  pending : Pending
  sigActions : ℕ → SigAction
  alarmDeadlineMs : ℕ
  /-- The ring of pending `F_NOTIFY` events: signal and descriptor. -/
  dnotifyQ : List (ℕ × ℕ)

/-- The wait queues: `children_wq` of a process, the queue on the stack of a
sleeping call, and those of other objects. -/
inductive WqHead where
  | children (pid : ℕ)
  | stack (tid : ℕ)
  | object (addr : ℕ)
  deriving DecidableEq, Repr

/-- `wait_queue_entry_t`. -/
structure WqEntry where
  task : ℕ
  exclusive : Bool
  deriving DecidableEq, Repr

/-- The kernel's tables. -/
structure Kernel where
  pidCapacity : ℕ
  procs : ℕ → Option Process
  threads : ℕ → Option Thread
  /-- The run queue of each priority. -/
  rq : ℕ → List ℕ
  queues : WqHead → List WqEntry
  files : Files

/-- One process replaced in place. -/
def Kernel.modProc (k : Kernel) (pid : ℕ) (f : Process → Process) : Kernel :=
  { k with procs := fun q => if q = pid then (k.procs q).map f else k.procs q }

/-- One thread replaced in place. -/
def Kernel.modThread (k : Kernel) (tid : ℕ) (f : Thread → Thread) : Kernel :=
  { k with threads := fun u => if u = tid then (k.threads u).map f else k.threads u }

/-- A thread put into another scheduler state. -/
def Kernel.setState (k : Kernel) (tid : ℕ) (st : ThreadState) : Kernel :=
  k.modThread tid fun t => { t with state := st }

section Frames

variable (k : Kernel) (a b : ℕ) (f : Process → Process) (g : Thread → Thread) (st : ThreadState)

@[simp] theorem modProc_threads : (k.modProc a f).threads = k.threads := rfl
@[simp] theorem modProc_rq : (k.modProc a f).rq = k.rq := rfl
@[simp] theorem modProc_queues : (k.modProc a f).queues = k.queues := rfl
@[simp] theorem modProc_files : (k.modProc a f).files = k.files := rfl
@[simp] theorem modProc_cap : (k.modProc a f).pidCapacity = k.pidCapacity := rfl
@[simp] theorem modThread_procs : (k.modThread a g).procs = k.procs := rfl
@[simp] theorem modThread_rq : (k.modThread a g).rq = k.rq := rfl
@[simp] theorem modThread_queues : (k.modThread a g).queues = k.queues := rfl
@[simp] theorem modThread_files : (k.modThread a g).files = k.files := rfl
@[simp] theorem modThread_cap : (k.modThread a g).pidCapacity = k.pidCapacity := rfl

theorem modProc_procs :
    (k.modProc a f).procs b = if b = a then (k.procs b).map f else k.procs b := rfl

theorem modThread_threads :
    (k.modThread a g).threads b = if b = a then (k.threads b).map g else k.threads b := rfl

@[simp] theorem modProc_self : (k.modProc a f).procs a = (k.procs a).map f := if_pos rfl

@[simp] theorem modThread_self : (k.modThread a g).threads a = (k.threads a).map g := if_pos rfl

theorem modProc_ne {k : Kernel} {a b : ℕ} {f : Process → Process} (h : b ≠ a) :
    (k.modProc a f).procs b = k.procs b := if_neg h

theorem modThread_ne {k : Kernel} {a b : ℕ} {g : Thread → Thread} (h : b ≠ a) :
    (k.modThread a g).threads b = k.threads b := if_neg h

theorem modThread_some {k : Kernel} {a b : ℕ} {g : Thread → Thread} {t' : Thread}
    (h : (k.modThread a g).threads b = some t') :
    ∃ t, k.threads b = some t ∧ t' = if b = a then g t else t := by
  rw [modThread_threads] at h
  split at h
  · next hb =>
    obtain ⟨t, ht, rfl⟩ := Option.map_eq_some_iff.mp h
    exact ⟨t, ht, (if_pos hb).symm⟩
  · next hb => exact ⟨t', h, (if_neg hb).symm⟩

end Frames

/-! ## Pending signals -/

/-- No signal pending. -/
def Pending.empty : Pending := ⟨0#64, fun _ => 0⟩

/-- `set |= SIG_BIT(sig)` alone. -/
def Pending.raise (q : Pending) (sig : ℕ) : Pending := { q with set := q.set ||| sigBit sig }

/-- The mark left by a signal that has a handler: real-time signals also count, up to
`0xFFFF`. -/
def Pending.queue (q : Pending) (sig : ℕ) : Pending :=
  if 32 ≤ sig then
    { set := q.set ||| sigBit sig
      rtCount := update q.rtCount sig
        (if q.rtCount sig < 0xFFFF then q.rtCount sig + 1 else q.rtCount sig) }
  else q.raise sig

/-- One signal is taken out: the bit of a real-time signal stays while its count is not
used up. -/
def Pending.take (q : Pending) (sig : ℕ) : Pending :=
  if 32 ≤ sig then
    { set := if q.rtCount sig - 1 = 0 then q.set &&& ~~~sigBit sig else q.set
      rtCount := update q.rtCount sig (q.rtCount sig - 1) }
  else { q with set := q.set &&& ~~~sigBit sig }

/-- `sig_pending` of a process, changed. -/
def Kernel.modPending (k : Kernel) (pid : ℕ) (f : Pending → Pending) : Kernel :=
  k.modProc pid fun p => { p with pending := f p.pending }

/-- `sig_thread_pending` of a thread, changed. -/
def Kernel.modThreadPending (k : Kernel) (tid : ℕ) (f : Pending → Pending) : Kernel :=
  k.modThread tid fun t => { t with pending := f t.pending }

/-- A thread that runs with nothing blocked or pending. -/
def plainThread (pid : ℕ) : Thread :=
  ⟨.RUNNING, some pid, 0, 0#64, Pending.empty, 0#64, false, none⟩

/-- A live process with default dispositions. -/
def plainProcess (parentPid : ℕ) (threads : List ℕ) : Process :=
  ⟨.ALIVE, parentPid, threads, 0, 0, 0, false, 0, SIGCHLD, Pending.empty,
    fun _ => ⟨SIG_DFL, 0#64, 0, 0#64⟩, 0, []⟩

/-- Init alone, with one thread. -/
def bootKernel : Kernel where
  pidCapacity := 8
  procs pid := if pid = 1 then some (plainProcess 0 [1]) else none
  threads tid := if tid = 1 then some (plainThread 1) else none
  rq _ := []
  queues _ := []
  files := bootFiles

/-! ## Lookup -/

section

variable (k : Kernel)

/-- `proc_find`. -/
def procFind (pid : ℕ) : Option Process :=
  if pid = 0 ∨ k.pidCapacity ≤ pid then none
  else (k.procs pid).filter fun p => p.state ≠ .FREE

section

variable (tid : ℕ)

/-- `thread_find_by_tid`. -/
def threadFindByTid : Option Thread :=
  if tid = 0 then none
  else (k.threads tid).filter fun t => t.state ≠ .FREE ∧ t.state ≠ .DEAD

/-- The process of a thread, `t->proc`. -/
def procOf : Option ℕ := (k.threads tid).bind (·.proc)

/-! ## The run queues -/

/-- A priority, clamped to `0 .. PRIO_LEVELS - 1`. -/
def clampPrio (p : ℤ) : ℕ := if p < 0 then 0 else min p.toNat 31

/-- `sched_add`: runnable, and on the run queue of its priority once. -/
def schedAdd : Kernel :=
  match k.threads tid with
  | none => k
  | some t =>
    let k₁ := k.setState tid .RUNNABLE
    let prio := clampPrio t.priority
    if tid ∈ k.rq prio then k₁
    else { k₁ with rq := update k.rq prio (k.rq prio ++ [tid]) }

/-- The masks of `try_to_wake_up`: `TASK_INTERRUPTIBLE` and `TASK_NORMAL`. -/
inductive WakeMask where
  | INTERRUPTIBLE | NORMAL
  deriving DecidableEq, Repr

/-- `(1u << st) & mask`. -/
def WakeMask.covers : WakeMask → ThreadState → Bool
  | .INTERRUPTIBLE, st => st = .BLOCKED
  | .NORMAL, st => st = .BLOCKED ∨ st = .STOPPED

/-- `try_to_wake_up`. -/
def tryToWakeUp (mask : WakeMask) : Bool × Kernel :=
  match k.threads tid with
  | none => (false, k)
  | some t => if mask.covers t.state then (true, schedAdd k tid) else (false, k)

/-- `signal_wake_up`. -/
def signalWakeUp : Kernel := (tryToWakeUp k tid .INTERRUPTIBLE).2

/-- `sched_wake`, the wake-up of timers and of `vfork`. -/
def schedWake : Kernel := (tryToWakeUp k tid .NORMAL).2

end

/-- One entry of the scan of `wake_up`: exclusive sleepers are passed over once one of
them has been woken. -/
def wakeEntry (mask : WakeMask) (acc : Bool × Kernel) (e : WqEntry) : Bool × Kernel :=
  if e.exclusive && acc.1 then acc
  else
    let r := tryToWakeUp acc.2 e.task mask
    (acc.1 || (e.exclusive && r.1), r.2)

section

variable (q : WqHead)

/-- `wake_up`: every sleeper that is not exclusive, and the first exclusive one. -/
def wakeUp : Kernel := ((k.queues q).foldl (wakeEntry .NORMAL) (false, k)).2

/-- `wake_up_interruptible`. -/
def wakeUpInterruptible : Kernel :=
  ((k.queues q).foldl (wakeEntry .INTERRUPTIBLE) (false, k)).2

/-- `wake_up_all`. -/
def wakeUpAll : Kernel :=
  (k.queues q).foldl (fun k e => (tryToWakeUp k e.task .NORMAL).2) k

/-- The scan of `wake_up_nr`, with `n` more sleepers to go; it ends with an exclusive
sleeper that makes the number full. -/
def wakeNr (n woken : ℕ) : List WqEntry → Kernel → Kernel
  | [], k => k
  | e :: es, k =>
    let r := tryToWakeUp k e.task .NORMAL
    if r.1 then
      if e.exclusive && decide (n ≤ woken + 1) then r.2 else wakeNr n (woken + 1) es r.2
    else wakeNr n woken es r.2

/-- `wake_up_nr`. -/
def wakeUpNr (n : ℕ) : Kernel :=
  if n = 0 then k else wakeNr n 0 (k.queues q) k

/-- `prepare_to_wait` and `prepare_to_wait_exclusive`: a new entry goes to the front,
an exclusive one to the back; the state is stored whatever it was. -/
def prepareToWait (tid : ℕ) (exclusive : Bool) : Kernel :=
  let es := k.queues q
  let es' := if es.any fun e => e.task = tid then es
    else if exclusive then es ++ [⟨tid, true⟩] else ⟨tid, false⟩ :: es
  { k.setState tid .BLOCKED with queues := update k.queues q es' }

/-- `finish_wait`: the state is stored whatever it was. -/
def finishWait (tid : ℕ) : Kernel :=
  { k.setState tid .RUNNING with
    queues := update k.queues q ((k.queues q).filter fun e => e.task ≠ tid) }

end

/-- The parent of a process is told of a change: `wake_up(&parent->children_wq)`. -/
def notifyParent (pid : ℕ) : Kernel :=
  match k.procs pid with
  | none => k
  | some p =>
    match procFind k p.parentPid with
    | none => k
    | some _ => wakeUp k (.children p.parentPid)

end

/-! ## What wake-ups do -/

/-- `k'` comes from `k` by wake-ups under `mask`: a thread that changed was in a state
of the mask and is runnable now, and besides the run queues nothing else changed. -/
structure Woken (mask : WakeMask) (k k' : Kernel) : Prop where
  procs : k'.procs = k.procs
  cap : k'.pidCapacity = k.pidCapacity
  queues : k'.queues = k.queues
  files : k'.files = k.files
  threads : ∀ tid, k'.threads tid = k.threads tid ∨
    ∃ t, k.threads tid = some t ∧ mask.covers t.state ∧
      k'.threads tid = some { t with state := .RUNNABLE }

variable (k : Kernel) (mask : WakeMask) (tid : ℕ) (q : WqHead)

theorem Woken.refl (k : Kernel) : Woken mask k k :=
  ⟨rfl, rfl, rfl, rfl, fun _ => .inl rfl⟩

theorem not_covers_runnable : mask.covers .RUNNABLE = false := by
  cases mask <;> rfl

theorem Woken.trans {mask : WakeMask} {k k' k'' : Kernel} (h : Woken mask k k')
    (h' : Woken mask k' k'') : Woken mask k k'' where
  procs := h'.procs.trans h.procs
  cap := h'.cap.trans h.cap
  queues := h'.queues.trans h.queues
  files := h'.files.trans h.files
  threads tid := by
    rcases h.threads tid with he | ⟨t, ht, hm, he⟩
    · rw [← he]; exact h'.threads tid
    · refine .inr ⟨t, ht, hm, ?_⟩
      rcases h'.threads tid with he' | ⟨t', ht', hm', -⟩
      · rw [he', he]
      -- a runnable thread is in no state of a mask
      · obtain rfl : { t with state := .RUNNABLE } = t' := Option.mem_unique he ht'
        simp [not_covers_runnable] at hm'

theorem Woken.normal {mask : WakeMask} {k k' : Kernel} (h : Woken mask k k') :
    Woken .NORMAL k k' where
  procs := h.procs
  cap := h.cap
  queues := h.queues
  files := h.files
  threads tid := by
    refine (h.threads tid).imp_right ?_
    rintro ⟨t, ht, hm, he⟩
    refine ⟨t, ht, ?_, he⟩
    cases mask with
    | INTERRUPTIBLE => simp_all [WakeMask.covers]
    | NORMAL => exact hm

theorem schedAdd_threads : (schedAdd k tid).threads = (k.setState tid .RUNNABLE).threads := by
  unfold schedAdd
  cases h : k.threads tid with
  | none =>
    funext u
    simp only [Kernel.setState, modThread_threads]
    split
    · next hu => rw [hu, h]; rfl
    · rfl
  | some t => dsimp only; split <;> rfl

theorem schedAdd_frame :
    (schedAdd k tid).procs = k.procs ∧ (schedAdd k tid).pidCapacity = k.pidCapacity ∧
      (schedAdd k tid).queues = k.queues ∧ (schedAdd k tid).files = k.files := by
  unfold schedAdd
  cases k.threads tid with
  | none => exact ⟨rfl, rfl, rfl, rfl⟩
  | some t => dsimp only; split <;> exact ⟨rfl, rfl, rfl, rfl⟩

theorem woken_tryToWakeUp (mask : WakeMask) : Woken mask k (tryToWakeUp k tid mask).2 := by
  unfold tryToWakeUp
  cases ht : k.threads tid with
  | none => exact Woken.refl ..
  | some t =>
    dsimp only
    split
    case isFalse => exact Woken.refl ..
    case isTrue hm =>
      obtain ⟨hp, hc, hq, hf⟩ := schedAdd_frame k tid
      refine ⟨hp, hc, hq, hf, fun u => ?_⟩
      rw [schedAdd_threads, Kernel.setState, modThread_threads]
      split
      · next hu => subst hu; exact .inr ⟨t, ht, hm, by rw [ht]; rfl⟩
      · exact .inl rfl

theorem woken_signalWakeUp : Woken .INTERRUPTIBLE k (signalWakeUp k tid) :=
  woken_tryToWakeUp ..

theorem woken_schedWake : Woken .NORMAL k (schedWake k tid) :=
  woken_tryToWakeUp ..

theorem Woken.foldl {α : Type} {mask : WakeMask} {f : Kernel → α → Kernel}
    (hf : ∀ k a, Woken mask k (f k a)) (l : List α) (k : Kernel) : Woken mask k (l.foldl f k) := by
  induction l generalizing k with
  | nil => exact Woken.refl ..
  | cons a l ih => exact (hf k a).trans (ih (f k a))

theorem woken_wakeEntry (acc : Bool × Kernel) (e : WqEntry) :
    Woken mask acc.2 (wakeEntry mask acc e).2 := by
  unfold wakeEntry
  split
  · exact Woken.refl ..
  · exact woken_tryToWakeUp ..

theorem woken_wakeEntries (l : List WqEntry) (acc : Bool × Kernel) :
    Woken mask acc.2 (l.foldl (wakeEntry mask) acc).2 := by
  induction l generalizing acc with
  | nil => exact Woken.refl ..
  | cons e l ih => exact (woken_wakeEntry mask acc e).trans (ih _)

theorem woken_wakeUp : Woken .NORMAL k (wakeUp k q) :=
  woken_wakeEntries .NORMAL (k.queues q) (false, k)

theorem woken_wakeUpInterruptible : Woken .INTERRUPTIBLE k (wakeUpInterruptible k q) :=
  woken_wakeEntries .INTERRUPTIBLE (k.queues q) (false, k)

theorem woken_wakeUpAll : Woken .NORMAL k (wakeUpAll k q) :=
  Woken.foldl (fun k (e : WqEntry) => woken_tryToWakeUp k e.task .NORMAL) _ k

theorem woken_wakeNr (n woken : ℕ) (es : List WqEntry) (k : Kernel) :
    Woken .NORMAL k (wakeNr n woken es k) := by
  induction es generalizing woken k with
  | nil => exact Woken.refl ..
  | cons e es ih =>
    have h := woken_tryToWakeUp k e.task .NORMAL
    simp only [wakeNr]
    split
    · split
      · exact h
      · exact h.trans (ih _ _)
    · exact h.trans (ih _ _)

theorem woken_wakeUpNr (n : ℕ) : Woken .NORMAL k (wakeUpNr k q n) := by
  unfold wakeUpNr
  split
  · exact Woken.refl ..
  · exact woken_wakeNr ..

theorem woken_notifyParent (pid : ℕ) : Woken .NORMAL k (notifyParent k pid) := by
  unfold notifyParent
  split
  · exact Woken.refl ..
  · split
    · exact Woken.refl ..
    · exact woken_wakeUp ..

end CosmoRT.Proc
