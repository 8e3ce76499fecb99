import CosmoRT.Core.Sleep

/-!
# Waiting for a condition: `__wait_event_interruptible`

Any number of threads wait on one wait queue, each for its own condition; wakers make a condition
true and call `wake_up` afterwards.  The sections under the lock of the queue, the test of a
condition, the store to it, `schedule` and the two halves of `finish_wait` are one step each, and
the steps of all threads come in any order.  Signals and wake-ups from elsewhere (timers, signals)
come at any time, and conditions may become false again.

* `Fine` — what holds of one thread by where it is in the loop.
* `no_lost_wake_up` — **no thread sleeps while its condition is true**, unless a `wake_up` that
  follows the change is still to come.
* `blocked_while_running` — the state word alone does not say that a thread sleeps: one that
  has just prepared itself is `BLOCKED` and still runs.
-/

namespace CosmoRT.Core

open Lib Function
open Proc (ThreadState WakeMask)

variable {T W : Type} [DecidableEq T]

/-- Where a thread is in `__wait_event_interruptible`, by the step that comes next. -/
inductive WaitPc where
  | outside
  | prepare
  | test
  | signal
  | schedule
  /-- in `schedule`, off the processor -/
  | asleep
  /-- in `finish_wait`, before the store to the state -/
  | finish
  /-- in `finish_wait`, before the section under the lock -/
  | remove
  deriving DecidableEq, Repr

/-- A wait queue with its waiters and wakers. -/
structure Waiting (T W : Type) where
  task : T → Task
  /-- the entries of the queue, by their threads -/
  wq : List T
  cond : T → Bool
  pc : T → WaitPc
  /-- the condition that a waker has made true, until it has called `wake_up` -/
  waker : W → Option T

/-- A thread with its place. -/
def Waiting.set (s : Waiting T W) (t : T) (k : Task) (p : WaitPc) : Waiting T W :=
  { s with task := update s.task t k, pc := update s.pc t p }

/-- `prepare_to_wait`. -/
def prepareToWait (s : Waiting T W) (t : T) : Waiting T W :=
  { s.set t { s.task t with state := .BLOCKED } .test with
    wq := if t ∈ s.wq then s.wq else t :: s.wq }

/-- One step of a thread that runs; `signal` is what `signal_deliverable` says. -/
def waitStep (s : Waiting T W) (t : T) (signal : Bool) : Waiting T W :=
  match s.pc t with
  | .outside => s
  | .prepare => prepareToWait s t
  | .test => s.set t (s.task t) (if s.cond t then .finish else .signal)
  | .signal => s.set t (s.task t) (if signal then .finish else .schedule)
  | .schedule => s.set t (s.task t).switchOut .asleep
  | .asleep => s
  | .finish => s.set t { s.task t with state := .RUNNING } .remove
  | .remove => { s.set t (s.task t) .outside with wq := s.wq.filter (· ≠ t) }

/-- `wake_up`: no entry is exclusive, so all are woken. -/
def wakeUpAll (task : T → Task) (wq : List T) : T → Task :=
  wq.foldl (fun task t => update task t ((task t).tryToWakeUp .NORMAL).2) task

/-- The steps. -/
inductive WaitOp (T W : Type) where
  /-- a thread enters the loop -/
  | call (t : T)
  | step (t : T) (signal : Bool)
  /-- a thread outside the loop is taken off its processor -/
  | preempt (t : T)
  /-- `schedule`, on whatever processor, picks a thread whose process is alive or not -/
  | pick (t : T) (alive : Bool)
  | store (w : W) (t : T)
  | wakeUp (w : W)
  /-- a condition becomes false -/
  | clear (t : T)
  /-- a wake-up that has nothing to do with the queue -/
  | poke (t : T) (mask : WakeMask)

def waitNext [DecidableEq W] (s : Waiting T W) : WaitOp T W → Waiting T W
  | .call t => if s.pc t = .outside ∧ (s.task t).onCpu then s.set t (s.task t) .prepare else s
  | .step t signal => if (s.task t).onCpu then waitStep s t signal else s
  | .preempt t =>
    if s.pc t = .outside ∧ (s.task t).onCpu then s.set t (s.task t).switchOut .outside else s
  | .pick t alive =>
    if (s.task t).onRq ∧ (s.task t).onCpu = false then
      let k := (s.task t).switchIn alive
      s.set t k (if s.pc t = .asleep ∧ k.onCpu then .prepare else s.pc t)
    else s
  | .store w t =>
    if s.waker w = none then
      { s with cond := update s.cond t true, waker := update s.waker w (some t) }
    else s
  | .wakeUp w =>
    if s.waker w = none then s
    else { s with task := wakeUpAll s.task s.wq, waker := update s.waker w none }
  | .clear t => { s with cond := update s.cond t false }
  | .poke t mask => s.set t ((s.task t).tryToWakeUp mask).2 (s.pc t)

/-! ## The invariant -/

/-- The condition was false when it was tested. -/
def WaitPc.tested : WaitPc → Prop
  | .signal | .schedule | .asleep => True
  | _ => False

/-- Between `prepare_to_wait` and `finish_wait` in the same turn. -/
def WaitPc.prepared : WaitPc → Prop
  | .test | .signal | .schedule | .asleep => True
  | _ => False

/-- Not between `prepare_to_wait` and the store of `finish_wait`. -/
def WaitPc.awake : WaitPc → Prop
  | .outside | .prepare | .remove => True
  | _ => False

/-- What holds of a thread: by its place `p`, what the scheduler knows of it, whether it is in the
queue, whether its condition is true and whether a `wake_up` for it is to come. -/
structure Fine (p : WaitPc) (k : Task) (queued cond watched : Prop) : Prop where
  queued : p.prepared → queued
  watched : p.tested → k.state = .BLOCKED → cond → watched
  awake : p.awake → k.state ≠ .BLOCKED
  off : k.onCpu = false → k.state = .BLOCKED → p = .asleep

def Waiting.Sound (s : Waiting T W) : Prop :=
  ∀ t, Fine (s.pc t) (s.task t) (t ∈ s.wq) (s.cond t = true) (∃ w, s.waker w = some t)

variable {p : WaitPc} {k : Task} {queued cond watched : Prop}

theorem Fine.woken (h : Fine p k queued cond watched) (mask : WakeMask) :
    Fine p (k.tryToWakeUp mask).2 queued cond watched := by
  rcases k.tryToWakeUp_cases mask with hk | hk
  · rwa [hk]
  · rw [hk]
    exact ⟨h.queued, fun _ hb => by simp [Task.schedAdd] at hb, fun _ => by simp [Task.schedAdd],
      fun _ hb => by simp [Task.schedAdd] at hb⟩

theorem Fine.of_not_blocked
    (hq : p.prepared → queued) (hk : k.state ≠ .BLOCKED) : Fine p k queued cond watched :=
  ⟨hq, fun _ hb => absurd hb hk, fun _ => hk, fun _ hb => absurd hb hk⟩

/-- `wake_up` tries to wake a thread once for each entry it has. -/
theorem wakeUpAll_apply (task : T → Task) (wq : List T) (t : T) :
    ∃ n : ℕ, wakeUpAll task wq t = (fun k : Task => (k.tryToWakeUp .NORMAL).2)^[n] (task t) ∧
      (t ∈ wq → n ≠ 0) := by
  induction wq generalizing task with
  | nil => exact ⟨0, rfl, fun h => absurd h List.not_mem_nil⟩
  | cons u wq ih =>
    obtain ⟨n, hn, hmem⟩ :=
      ih (update task u ((task u).tryToWakeUp .NORMAL).2)
    by_cases hu : t = u
    · subst hu
      refine ⟨n + 1, ?_, fun _ => Nat.succ_ne_zero n⟩
      rw [update_self] at hn
      exact hn
    · refine ⟨n, ?_, fun h => hmem ((List.mem_cons.1 h).resolve_left hu)⟩
      rw [update_of_ne hu] at hn
      exact hn

namespace Waiting.Sound

variable {s : Waiting T W} {t : T}

section

variable (h : s.Sound)
include h

theorem set {k : Task} {p : WaitPc} {wq : List T} (hwq : ∀ u, u ≠ t → u ∈ s.wq → u ∈ wq)
    (ht : Fine p k (t ∈ wq) (s.cond t = true) (∃ w, s.waker w = some t)) :
    Waiting.Sound { s.set t k p with wq } := by
  intro u
  simp only [Waiting.set, update_apply]
  by_cases hu : u = t
  · rw [if_pos hu, if_pos hu, hu]
    exact ht
  · rw [if_neg hu, if_neg hu]
    have hold := h u
    exact ⟨fun hp => hwq u hu (hold.queued hp), hold.watched, hold.awake, hold.off⟩

theorem move {k : Task} {p : WaitPc}
    (ht : Fine p k (t ∈ s.wq) (s.cond t = true) (∃ w, s.waker w = some t)) : (s.set t k p).Sound :=
  h.set (fun _ _ hu => hu) ht

theorem waitStep (hcpu : (s.task t).onCpu = true) (signal : Bool) :
    (waitStep s t signal).Sound := by
  have ht := h t
  have hoff : ∀ {k : Task}, k.onCpu = (s.task t).onCpu → k.onCpu ≠ false := by
    intro k hk
    rw [hk, hcpu]
    exact Bool.noConfusion
  unfold Core.waitStep
  rcases hp : s.pc t <;> rw [hp] at ht
  case outside => exact h
  case prepare =>
    refine h.set (fun u hu hmem => ?_) ⟨fun _ => ?_, False.elim, False.elim, fun hc => ?_⟩
    · split_ifs
      · exact hmem
      · exact List.mem_cons_of_mem _ hmem
    · split_ifs with hmem
      · exact hmem
      · exact List.mem_cons_self ..
    · exact absurd hc (hoff rfl)
  case test =>
    refine h.move ?_
    have hq := ht.queued trivial
    by_cases hc : s.cond t = true
    · rw [if_pos hc]
      exact ⟨False.elim, False.elim, False.elim, fun hcpu' => absurd hcpu' (hoff rfl)⟩
    · rw [if_neg hc]
      exact ⟨fun _ => hq, fun _ _ hc' => absurd hc' hc, False.elim,
        fun hcpu' => absurd hcpu' (hoff rfl)⟩
  case signal =>
    refine h.move ?_
    cases signal with
    | true => exact ⟨False.elim, False.elim, False.elim, fun hcpu' => absurd hcpu' (hoff rfl)⟩
    | false =>
      exact ⟨fun _ => ht.queued trivial, fun _ => ht.watched trivial, False.elim,
        fun hcpu' => absurd hcpu' (hoff rfl)⟩
  case schedule =>
    exact h.move ⟨fun _ => ht.queued trivial,
      fun _ hb => ht.watched trivial (Task.state_switchOut hb), False.elim, fun _ _ => rfl⟩
  case asleep => exact h
  case finish => exact h.move (.of_not_blocked False.elim (by simp))
  case remove =>
    refine h.set (fun u hu hmem => ?_) (.of_not_blocked False.elim (ht.awake trivial))
    simpa [hu] using hmem

theorem wakeUp [DecidableEq W] (w : W) :
    Waiting.Sound { s with
      task := wakeUpAll s.task s.wq, waker := update s.waker w none } := by
  intro u
  obtain ⟨n, hn, hmem⟩ := wakeUpAll_apply s.task s.wq u
  have hfine : ∀ n, Fine (s.pc u) ((fun k : Task => (k.tryToWakeUp .NORMAL).2)^[n] (s.task u))
      (u ∈ s.wq) (s.cond u = true) (∃ w, s.waker w = some u) := by
    intro n
    induction n with
    | zero => exact h u
    | succ n ih =>
      rw [iterate_succ_apply']
      exact ih.woken .NORMAL
  have hold := hfine n
  rw [← hn] at hold
  by_cases hq : u ∈ s.wq
  · refine .of_not_blocked (fun _ => hq) ?_
    show (wakeUpAll s.task s.wq u).state ≠ .BLOCKED
    obtain ⟨m, rfl⟩ := Nat.exists_eq_succ_of_ne_zero (hmem hq)
    rw [hn, iterate_succ_apply']
    exact Task.state_tryToWakeUp _
  · refine ⟨hold.queued, fun htested hb => ?_, hold.awake, hold.off⟩
    -- a thread that has tested its condition is in the queue
    have hprep : (s.pc u).prepared := by
      rcases hp : s.pc u <;> rw [hp] at htested <;> trivial
    exact absurd (hold.queued hprep) hq

theorem next [DecidableEq W] (op : WaitOp T W) : (waitNext s op).Sound := by
  cases op with
  | call t =>
    rw [waitNext]
    split_ifs with hc
    · have ht := h t
      rw [hc.1] at ht
      exact h.move (.of_not_blocked False.elim (ht.awake trivial))
    · exact h
  | step t signal =>
    rw [waitNext]
    split_ifs with hc
    · exact h.waitStep hc signal
    · exact h
  | preempt t =>
    rw [waitNext]
    split_ifs with hc
    · have ht := h t
      rw [hc.1] at ht
      exact h.move (.of_not_blocked False.elim fun hb => ht.awake trivial (Task.state_switchOut hb))
    · exact h
  | pick t alive =>
    rw [waitNext]
    by_cases hc : (s.task t).onRq ∧ (s.task t).onCpu = false
    · rw [if_pos hc]
      rcases (s.task t).switchIn_cases alive with hk | hk <;> simp only [hk]
      · rw [if_neg (by simp [hc.2])]
        exact h.move ⟨(h t).queued, (h t).watched, (h t).awake, (h t).off⟩
      · refine h.move (.of_not_blocked (fun hp => ?_) (by simp))
        split_ifs at hp
        · exact hp.elim
        · exact (h t).queued hp
    · rwa [if_neg hc]
  | store w t =>
    rw [waitNext]
    split_ifs with hw
    · intro u
      have hold := h u
      by_cases hu : u = t
      · exact ⟨hold.queued, fun _ _ _ => ⟨w, by simp [hu]⟩, hold.awake, hold.off⟩
      · refine ⟨hold.queued, fun hp hb hc => ?_, hold.awake, hold.off⟩
        obtain ⟨w', hw'⟩ := hold.watched hp hb (by simpa [update_of_ne hu] using hc)
        refine ⟨w', ?_⟩
        have hne : w' ≠ w := by
          rintro rfl
          simp [hw] at hw'
        simp only [update_of_ne hne, hw']
    · exact h
  | wakeUp w =>
    rw [waitNext]
    split_ifs
    · exact h
    · exact h.wakeUp w
  | clear t =>
    intro u
    have hold := h u
    refine ⟨hold.queued, fun hp hb hc => hold.watched hp hb ?_, hold.awake, hold.off⟩
    by_cases hu : u = t
    · simp [waitNext, hu] at hc
    · simpa [waitNext, update_of_ne hu] using hc
  | poke t mask => exact h.move ((h t).woken mask)

end

end Waiting.Sound

/-- Nobody is in the loop and no `wake_up` is under way. -/
structure Waiting.Fresh (s : Waiting T W) : Prop where
  outside : ∀ t, s.pc t = .outside
  awake : ∀ t, (s.task t).state ≠ .BLOCKED

/-- A thread that sleeps while its condition is true will be woken. -/
def Waiting.NoneLost (s : Waiting T W) : Prop :=
  ∀ t, (s.task t).state = .BLOCKED → (s.task t).onRq = false → (s.task t).onCpu = false →
    s.cond t = true → ∃ w, s.waker w = some t

/-- **No wake-up is lost**, for any number of waiters and wakers and in every interleaving. -/
theorem no_lost_wake_up [DecidableEq W] {s : Waiting T W} (hs : s.Fresh) (ops : List (WaitOp T W)) :
    (run waitNext s ops).NoneLost := by
  have hstart : s.Sound := fun t =>
    .of_not_blocked (fun hp => by rw [hs.outside t] at hp; exact hp.elim) (hs.awake t)
  have hend : (run waitNext s ops).Sound := run_keeps (fun _ op h => h.next op) hstart ops
  intro t hb _ hcpu hc
  have ht := hend t
  have hp := ht.off hcpu hb
  rw [hp] at ht
  exact ht.watched trivial hb hc

/-- One waiter that runs, and one waker. -/
def oneWaiter : Waiting Unit Unit where
  task _ := ⟨.RUNNING, false, true⟩
  wq := []
  cond _ := false
  pc _ := .outside
  waker _ := none

theorem oneWaiter_fresh : oneWaiter.Fresh := ⟨fun _ => rfl, fun _ => nofun⟩

/-- The condition becomes true and `wake_up` runs between the test and `schedule`. -/
theorem no_lost_wake_up_in_time :
    (run waitNext oneWaiter [.call (), .step () false, .step () false, .store () (), .wakeUp (),
      .step () false, .step () false]).NoneLost :=
  no_lost_wake_up oneWaiter_fresh _

/-- The condition was true and `wake_up` had run before the thread prepared itself: it is `BLOCKED`
and off the run queues, and no `wake_up` is to come.  It still runs and will test its condition. -/
theorem blocked_while_running :
    let s := run waitNext oneWaiter [.store () (), .wakeUp (), .call (), .step () false]
    (s.task ()).state = .BLOCKED ∧ (s.task ()).onRq = false ∧ s.cond () = true ∧
      ¬ ∃ w, s.waker w = some () :=
  ⟨rfl, rfl, rfl, nofun⟩

end CosmoRT.Core
