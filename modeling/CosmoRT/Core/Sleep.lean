import CosmoRT.Proc.Thread

/-!
# Sleeping and waking: `core/sched.c`, `core/waitqueue.c`

What the scheduler knows of a thread, for the calls that sleep in `schedule`.  The state word, the
run queues and the processor are three different things: a thread that is about to sleep is
`BLOCKED` while it still runs, and one that is woken before it has left the processor runs on while
it is on a run queue.

Which of the threads on the run queues comes next is left open here.
-/

namespace CosmoRT.Core

open Proc (ThreadState WakeMask)

/-- What the scheduler knows of a thread. -/
structure Task where
  state : ThreadState
  /-- on a run queue -/
  onRq : Bool
  /-- `current_thread` of a processor -/
  onCpu : Bool
  deriving DecidableEq, Repr

namespace Task

section

variable (k : Task)

/-- `sched_add`. -/
def schedAdd : Task := { k with state := .RUNNABLE, onRq := true }

/-- `try_to_wake_up`. -/
def tryToWakeUp (mask : WakeMask) : Bool × Task :=
  if mask.covers k.state then (true, k.schedAdd) else (false, k)

/-- `schedule` takes a thread off its processor; `finish_switch` puts one that still runs back on
a run queue. -/
def switchOut : Task :=
  let k := { k with onCpu := false }
  if k.state = .RUNNING then k.schedAdd else k

/-- `schedule` picks a thread from a run queue, and drops it if it must not run; `alive` says that
its process is alive. -/
def switchIn (alive : Bool) : Task :=
  if k.state = .DEAD ∨ k.state = .FREE ∨ k.state = .STOPPED ∨ alive = false then
    { k with onRq := false }
  else ⟨.RUNNING, false, true⟩

theorem state_tryToWakeUp : (k.tryToWakeUp .NORMAL).2.state ≠ .BLOCKED := by
  unfold tryToWakeUp
  split_ifs with h
  · simp [schedAdd]
  · intro hb
    have hstate : k.state = .BLOCKED := hb
    exact h (by simp [WakeMask.covers, hstate])

/-- A wake-up does not move a thread to or from a processor, and blocks nobody. -/
theorem tryToWakeUp_cases (mask : WakeMask) :
    (k.tryToWakeUp mask).2 = k ∨ (k.tryToWakeUp mask).2 = k.schedAdd := by
  unfold tryToWakeUp
  split_ifs
  · exact .inr rfl
  · exact .inl rfl

theorem switchIn_cases (alive : Bool) :
    k.switchIn alive = { k with onRq := false } ∨ k.switchIn alive = ⟨.RUNNING, false, true⟩ := by
  unfold switchIn
  split_ifs
  · exact .inl rfl
  · exact .inr rfl

theorem onCpu_tryToWakeUp (mask : WakeMask) : (k.tryToWakeUp mask).2.onCpu = k.onCpu := by
  rcases k.tryToWakeUp_cases mask with hk | hk
  · rw [hk]
  · rw [hk, schedAdd]

theorem state_tryToWakeUp_of_ne {k : Task} (h : k.state ≠ .BLOCKED) (mask : WakeMask) :
    (k.tryToWakeUp mask).2.state ≠ .BLOCKED := by
  rcases k.tryToWakeUp_cases mask with hk | hk <;> rw [hk]
  · exact h
  · simp [schedAdd]

theorem state_switchOut {k : Task} (h : k.switchOut.state = .BLOCKED) : k.state = .BLOCKED := by
  unfold switchOut at h
  dsimp only at h
  split_ifs at h
  · simp [schedAdd] at h
  · exact h

/-- Blocked, running on a processor or runnable on a run queue: a thread that is none of them is
lost. -/
def Settled : Prop :=
  k.state = .BLOCKED ∨ k.state = .RUNNING ∧ k.onCpu = true ∨ k.state = .RUNNABLE ∧ k.onRq = true

theorem Settled.tryToWakeUp {k : Task} (h : k.Settled) (mask : WakeMask) :
    (k.tryToWakeUp mask).2.Settled := by
  rcases k.tryToWakeUp_cases mask with hk | hk <;> rw [hk]
  · exact h
  · exact .inr (.inr ⟨rfl, rfl⟩)

theorem Settled.switchOut {k : Task} (h : k.Settled) : k.switchOut.Settled := by
  unfold Task.switchOut
  dsimp only
  split_ifs with hrun
  · exact .inr (.inr ⟨rfl, rfl⟩)
  · rcases h with hb | ⟨hr, -⟩ | hq
    · exact .inl hb
    · exact absurd hr hrun
    · exact .inr (.inr hq)

theorem Settled.switchIn_eq {k : Task} (h : k.Settled) :
    k.switchIn true = ⟨.RUNNING, false, true⟩ := by
  rcases h with hs | ⟨hs, -⟩ | ⟨hs, -⟩ <;> simp [Task.switchIn, hs]

@[simp] theorem onCpu_switchOut : k.switchOut.onCpu = false := by
  unfold Task.switchOut
  dsimp only
  split_ifs <;> rfl

end

/-- What `Proc.schedAdd` does to the thread it is called for. -/
theorem schedAdd_kernel {k : Proc.Kernel} {tid : ℕ} {t : Proc.Thread}
    (ht : k.threads tid = some t) (x : Task) :
    ((Proc.schedAdd k tid).threads tid).map (·.state) = some x.schedAdd.state ∧
      x.schedAdd.onRq = decide (tid ∈ (Proc.schedAdd k tid).rq (Proc.clampPrio t.priority)) := by
  refine ⟨by simp [Proc.schedAdd_threads, Proc.Kernel.setState, ht, schedAdd], ?_⟩
  rw [Proc.schedAdd, ht]
  by_cases hin : tid ∈ k.rq (Proc.clampPrio t.priority) <;>
    simp [hin, schedAdd, Proc.Kernel.setState]

end Task

end CosmoRT.Core
