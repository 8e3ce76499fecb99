import CosmoRT.Core.Sleep
import CosmoRT.Ipc.RobustList

/-!
# Waiting on a futex: `futex_wait` and `futex_wake`

Any number of threads call `futex_wait` on words whose keys share one bucket, others store to the
words and call `futex_wake`.  Each section under the lock of the bucket, each load and each test is
one step; signals and timeouts come at any time.

A wake-up leaves a trace only in the bucket: the waiter that finds itself dequeued after `schedule`
returns 0.  Where it looks at something else first, a wake-up that has been counted is lost.

* `wakeLoop_spec` — `futex_wake` dequeues the first waiters on the key, **as many as it may**.
* `futex_wake_ups_count` — unless a wake-up meets a waiter at the wrong moment, **every waiter
  that is counted returns 0 or `-EAGAIN`**.
* `wake_up_swallowed` — a waiter that was counted returns `-EINTR`.
-/

namespace CosmoRT.Ipc

open Lib CosmoRT.Core List Function Task
open Proc (ThreadState WakeMask)

/-- What `futex_wait` returns. -/
inductive FutexRc where
  /-- 0 -/
  | woken
  | EAGAIN
  | EINTR
  | ETIMEDOUT
  deriving DecidableEq, Repr

/-- Where a thread is in `futex_wait`, by the step that comes next. -/
inductive FutexPc where
  | outside
  /-- the load before anything is queued -/
  | check
  | prepare
  /-- the load after `futex_prepare_to_wait` -/
  | load
  | signal
  | deadline
  | schedule
  /-- in `schedule`, off the processor -/
  | asleep
  /-- the test of `fw.entry.next` -/
  | linked
  /-- the two tests after it -/
  | deadlineAgain
  | signalAgain
  /-- in `futex_finish_wait`, before the store to the state -/
  | finish (rc : FutexRc)
  /-- in `futex_finish_wait`, before the section under the lock -/
  | remove (rc : FutexRc)
  | returned (rc : FutexRc)
  deriving DecidableEq, Repr

/-- A thread, with the arguments of its last call of `futex_wait`. -/
structure FutexThread (K : Type) where
  task : Task
  pc : FutexPc
  key : K
  val : BitVec 32
  timeoutMs : ℤ
  /-- what the last load gave -/
  loaded : BitVec 32
  /-- it has called `schedule` since it queued itself -/
  slept : Bool
  /-- its word has been stored to since it queued itself -/
  changed : Bool
  /-- a `futex_wake` has dequeued it -/
  counted : Bool

/-- The waiters of one bucket and the words they wait on. -/
structure FutexSys (T K : Type) where
  thread : T → FutexThread K
  bucket : List T
  word : K → BitVec 32

variable {T K : Type} [DecidableEq T] [DecidableEq K]

section

variable (s : FutexSys T K)

def FutexSys.set (t : T) (w : FutexThread K) : FutexSys T K :=
  { s with thread := update s.thread t w }

/-- One step of a thread in `futex_wait`; `signal` is what `signal_deliverable` says, `expired`
whether the deadline has passed. -/
def futexStep (t : T) (signal expired : Bool) : FutexSys T K :=
  let w := s.thread t
  match w.pc with
  | .outside => s
  | .check =>
    let cur := s.word w.key
    s.set t { w with
      loaded := cur
      pc := if cur ≠ w.val then .returned .EAGAIN
        else if w.timeoutMs = 0 then .returned .ETIMEDOUT
        else .prepare }
  | .prepare =>
    { s.set t { w with
        task := { w.task with state := .BLOCKED }, pc := .load, slept := false,
        changed := false } with
      bucket := if t ∈ s.bucket then s.bucket else t :: s.bucket }
  | .load =>
    let cur := s.word w.key
    s.set t { w with loaded := cur, pc := if cur ≠ w.val then .finish .EAGAIN else .signal }
  | .signal => s.set t { w with pc := if signal then .finish .EINTR else .deadline }
  | .deadline =>
    s.set t { w with pc := if 0 < w.timeoutMs ∧ expired then .finish .ETIMEDOUT else .schedule }
  | .schedule => s.set t { w with task := w.task.switchOut, pc := .asleep, slept := true }
  | .asleep => s
  | .linked => s.set t { w with pc := if t ∈ s.bucket then .deadlineAgain else .finish .woken }
  | .deadlineAgain =>
    s.set t
      { w with pc := if 0 < w.timeoutMs ∧ expired then .finish .ETIMEDOUT else .signalAgain }
  | .signalAgain => s.set t { w with pc := if signal then .finish .EINTR else .prepare }
  | .finish rc => s.set t { w with task := { w.task with state := .RUNNING }, pc := .remove rc }
  | .remove rc =>
    { s.set t { w with pc := .returned rc } with bucket := s.bucket.filter (· ≠ t) }
  | .returned _ => s

/-- A waiter that is dequeued is woken. -/
def FutexThread.wake (w : FutexThread K) : FutexThread K :=
  { w with task := (w.task.tryToWakeUp .NORMAL).2, counted := true }

/-- The loop of `futex_wake` from `cur` on: what stays in the bucket, the threads, and `woken`. -/
def wakeLoop (matching : T → Bool) (maxWake : ℕ) :
    List T → (T → FutexThread K) → ℕ → List T × (T → FutexThread K) × ℕ
  | [], thread, woken => ([], thread, woken)
  | cur :: next, thread, woken =>
    if woken < maxWake then
      if matching cur then
        wakeLoop matching maxWake next
          (update thread cur (thread cur).wake) (woken + 1)
      else
        let r := wakeLoop matching maxWake next thread woken
        (cur :: r.1, r.2)
    else (cur :: next, thread, woken)

/-- `futex_wake`, with the number it returns. -/
def FutexSys.futexWake (key : K) (maxWake : BitVec 32) : FutexSys T K × ℕ :=
  let r := wakeLoop (fun t => decide ((s.thread t).key = key)) maxWake.toNat s.bucket s.thread 0
  ({ s with bucket := r.1, thread := r.2.1 }, r.2.2)

omit [DecidableEq K] in
/-- The scan of `RobustList` leaves the same waiters in a bucket. -/
theorem wakeLoop_eq_wakeScan (key : ℕ × ℕ) (ws : List FutexWaiter) (n woken : ℕ) (k : Proc.Kernel)
    (thread : FutexWaiter → FutexThread K) :
    (wakeLoop (fun w => decide ((w.uaddr, w.pid) = key)) (woken + n) ws thread woken).1 =
      (wakeScan key n ws k).1.1 := by
  induction ws generalizing n woken k thread with
  | nil => cases n <;> rfl
  | cons w ws ih =>
    cases n with
    | zero => simp [wakeLoop, wakeScan]
    | succ n =>
      by_cases hkey : (w.uaddr, w.pid) = key
      · have hrest := ih n (woken + 1) (Proc.tryToWakeUp k w.task .NORMAL).2
          (update thread w (thread w).wake)
        rw [Nat.add_assoc, Nat.add_comm 1] at hrest
        simp [wakeLoop, wakeScan, hkey, hrest]
      · simp [wakeLoop, wakeScan, hkey, ih (n + 1) woken k]

/-- The steps. -/
inductive FutexOp (T K : Type) where
  | call (t : T) (key : K) (val : BitVec 32) (timeoutMs : ℤ)
  | step (t : T) (signal expired : Bool)
  /-- a thread outside `futex_wait` is taken off its processor -/
  | preempt (t : T)
  /-- `schedule`, on whatever processor, picks a thread -/
  | pick (t : T)
  /-- a timer, a signal or a wake-up of something else -/
  | poke (t : T) (mask : WakeMask)
  | store (key : K) (val : BitVec 32)
  | wake (key : K) (maxWake : BitVec 32)

/-- Not in `futex_wait`. -/
def FutexPc.idle : FutexPc → Bool
  | .outside | .returned _ => true
  | _ => false

def futexNext : FutexOp T K → FutexSys T K
  | .call t key val timeoutMs =>
    let w := s.thread t
    if w.pc.idle ∧ w.task.onCpu then
      s.set t { w with
        pc := .check, key, val, timeoutMs, slept := false, changed := false, counted := false }
    else s
  | .step t signal expired => if (s.thread t).task.onCpu then futexStep s t signal expired else s
  | .preempt t =>
    let w := s.thread t
    if w.pc.idle ∧ w.task.onCpu then s.set t { w with task := w.task.switchOut } else s
  | .pick t =>
    let w := s.thread t
    if w.task.onRq ∧ w.task.onCpu = false then
      s.set t { w with
        task := w.task.switchIn true, pc := if w.pc = .asleep then .linked else w.pc }
    else s
  | .poke t mask =>
    let w := s.thread t
    s.set t { w with task := (w.task.tryToWakeUp mask).2 }
  | .store key val =>
    { s with
      word := update s.word key val
      thread := fun t =>
        let w := s.thread t
        if w.key = key then { w with changed := true } else w }
  | .wake key maxWake => (s.futexWake key maxWake).1

/-! ## What `futex_wake` does -/

/-- The waiters that a `futex_wake` dequeues: the first ones on the key. -/
def chosen (key : K) (maxWake : BitVec 32) : List T :=
  (s.bucket.filter fun t => decide ((s.thread t).key = key)).take maxWake.toNat

end

omit [DecidableEq K] in
/-- What the loop leaves behind: the first matching entries are gone and woken, the others stay. -/
theorem wakeLoop_spec (matching : T → Bool) (maxWake : ℕ) (l : List T)
    (thread : T → FutexThread K) (woken : ℕ) (hl : l.Nodup) :
    let r := wakeLoop matching maxWake l thread woken
    let gone := (l.filter matching).take (maxWake - woken)
    r.1 = l.filter (· ∉ gone) ∧
      (∀ t, r.2.1 t = if t ∈ gone then (thread t).wake else thread t) ∧
      r.2.2 = woken + gone.length := by
  induction l generalizing thread woken with
  | nil => simp [wakeLoop]
  | cons cur next ih =>
    obtain ⟨hcur, hnext⟩ := nodup_cons.1 hl
    rw [wakeLoop]
    by_cases hlt : woken < maxWake
    · rw [if_pos hlt]
      obtain ⟨left, hleft⟩ : ∃ n, maxWake - woken = n + 1 := ⟨maxWake - woken - 1, by omega⟩
      by_cases hm : matching cur = true
      · rw [if_pos hm]
        obtain ⟨hb, ht, hn⟩ := ih (update thread cur (thread cur).wake) (woken + 1) hnext
        have hrest : maxWake - (woken + 1) = left := by omega
        rw [hrest] at hb ht hn
        have hnot : cur ∉ (next.filter matching).take left := fun h =>
          hcur (mem_of_mem_filter (mem_of_mem_take h))
        rw [hleft, filter_cons_of_pos hm, take_succ_cons]
        refine ⟨?_, fun t => ?_, ?_⟩
        · rw [hb, filter_cons_of_neg (by simp)]
          refine filter_congr fun t htmem => ?_
          have hne : t ≠ cur := fun h => hcur (h ▸ htmem)
          simp [hne]
        · rw [ht t]
          by_cases htc : t = cur
          · subst htc
            simp [hnot]
          · simp [htc]
        · rw [length_cons]
          omega
      · rw [if_neg hm]
        obtain ⟨hb, ht, hn⟩ := ih thread woken hnext
        rw [filter_cons_of_neg hm]
        refine ⟨?_, ht, hn⟩
        have hnot : cur ∉ (next.filter matching).take (maxWake - woken) := fun h =>
          hcur (mem_of_mem_filter (mem_of_mem_take h))
        rw [filter_cons_of_pos (by simpa using hnot), ← hb]
    · rw [if_neg hlt]
      have hzero : maxWake - woken = 0 := by omega
      simp [hzero]

variable {s : FutexSys T K} {p : FutexPc}

theorem FutexSys.futexWake_spec (hs : s.bucket.Nodup) (key : K) (maxWake : BitVec 32) :
    (s.futexWake key maxWake).1.bucket = s.bucket.filter (· ∉ chosen s key maxWake) ∧
      (∀ t, (s.futexWake key maxWake).1.thread t =
        if t ∈ chosen s key maxWake then (s.thread t).wake else s.thread t) ∧
      (s.futexWake key maxWake).2 = (chosen s key maxWake).length := by
  have h := wakeLoop_spec (fun t => decide ((s.thread t).key = key)) maxWake.toNat s.bucket
    s.thread 0 hs
  simp only [Nat.sub_zero, Nat.zero_add] at h
  exact h

omit [DecidableEq T] in
theorem length_chosen (s : FutexSys T K) (key : K) (maxWake : BitVec 32) :
    (chosen s key maxWake).length =
      min maxWake.toNat (s.bucket.countP fun t => decide ((s.thread t).key = key)) := by
  rw [chosen, length_take, ← countP_eq_length_filter]

/-! ## The invariant -/

/-- The word had the expected value, and nothing else has been looked at since `schedule`. -/
def FutexPc.tested : FutexPc → Prop
  | .signal | .deadline | .schedule | .asleep => True
  | _ => False

/-- The places at which an entry may be in the bucket. -/
def FutexPc.listed : FutexPc → Prop
  | .outside | .check | .returned _ => False
  | _ => True

/-- The places of a waiter that has found itself still queued, or a signal, or that its time is
up, and that has neither queued itself again nor left the bucket. -/
def FutexPc.late : FutexPc → Prop
  | .prepare | .deadlineAgain | .signalAgain => True
  | .finish rc | .remove rc => rc = .EINTR ∨ rc = .ETIMEDOUT
  | _ => False

/-- `futex_wait` is about to return, or has returned, the given value. -/
def FutexPc.returns (rc : FutexRc) : FutexPc → Prop
  | .finish rc' | .remove rc' | .returned rc' => rc' = rc
  | _ => False

/-- The places that a waiter passes after it was dequeued, with the steps that are left. -/
def FutexPc.left : FutexPc → Option ℕ
  | .load => some 8
  | .signal => some 7
  | .deadline => some 6
  | .schedule => some 5
  | .asleep => some 4
  | .linked => some 3
  | .finish .woken | .finish .EAGAIN => some 2
  | .remove .woken | .remove .EAGAIN => some 1
  | .returned .woken | .returned .EAGAIN => some 0
  | _ => none

def FutexPc.stepsLeft (p : FutexPc) : ℕ := p.left.getD 0

theorem FutexPc.left_isSome (hlisted : p.listed) (hlate : ¬ p.late) : p.left.isSome = true := by
  cases p with
  | finish rc | remove rc => cases rc <;> simp_all [FutexPc.left, FutexPc.late]
  | outside | check | returned rc => exact hlisted.elim
  | prepare | deadlineAgain | signalAgain => exact absurd trivial hlate
  | load | signal | deadline | schedule | asleep | linked => rfl

theorem FutexPc.not_listed_of_idle (h : p.idle = true) : ¬ p.listed := by
  cases p <;> simp_all [FutexPc.idle, FutexPc.listed]

/-- What holds of a thread; `queued` says that it is in the bucket, `word` is its word. -/
structure FutexFine (w : FutexThread K) (queued : Prop) (word : BitVec 32) : Prop where
  settled : w.task.Settled
  off : w.pc = .asleep → w.task.onCpu = false
  listed : queued → w.pc.listed
  counted : w.counted = true →
    w.pc.left.isSome = true ∧ ¬ queued ∧ w.task.state ≠ .BLOCKED
  tested : w.pc.tested → word = w.val ∨ w.changed = true
  early : w.pc = .check ∨ w.pc = .load → w.slept = false
  again : w.pc.returns .EAGAIN → w.loaded ≠ w.val ∧ w.slept = false

structure FutexSys.Sound (s : FutexSys T K) : Prop where
  nodup : s.bucket.Nodup
  fine : ∀ t, FutexFine (s.thread t) (t ∈ s.bucket) (s.word (s.thread t).key)

/-- The condition on a step.

* A `futex_wake` dequeues no waiter that is late.
* A waiter that was dequeued before its call of `schedule` finds no signal, and its time is not
  up. -/
def FutexOk (s : FutexSys T K) : FutexOp T K → Prop
  | .wake key maxWake => ∀ t ∈ chosen s key maxWake, ¬ (s.thread t).pc.late
  | .step t signal expired =>
    (s.thread t).counted = true →
      ((s.thread t).pc = .signal → signal = false) ∧
      ((s.thread t).pc = .deadline → 0 < (s.thread t).timeoutMs → expired = false)
  | _ => True

omit [DecidableEq K] in
theorem FutexFine.goto {w : FutexThread K} {queued : Prop} {word : BitVec 32}
    (h : FutexFine w queued word) (hasleep : p ≠ .asleep)
    (hlisted : queued → p.listed) (hcounted : w.counted = true → p.left.isSome = true)
    (htested : p.tested → word = w.val ∨ w.changed = true) (hearly : ¬ (p = .check ∨ p = .load))
    (hagain : p.returns .EAGAIN → w.pc.returns .EAGAIN) :
    FutexFine { w with pc := p } queued word where
  settled := h.settled
  off hp := absurd hp hasleep
  listed := hlisted
  counted hc := ⟨hcounted hc, (h.counted hc).2⟩
  tested := htested
  early hp := absurd hp hearly
  again hp := h.again (hagain hp)

namespace FutexSys.Sound

variable {s : FutexSys T K} {t : T}

omit [DecidableEq K] in
theorem set (h : s.Sound) {w : FutexThread K} {bucket : List T} (hnodup : bucket.Nodup)
    (hb : ∀ u, u ≠ t → (u ∈ bucket ↔ u ∈ s.bucket)) (ht : FutexFine w (t ∈ bucket) (s.word w.key)) :
    FutexSys.Sound { s.set t w with bucket } := by
  refine ⟨hnodup, fun u => ?_⟩
  simp only [FutexSys.set, update_apply]
  by_cases hu : u = t
  · rw [if_pos hu, hu]
    exact ht
  · have hold := h.fine u
    rw [if_neg hu, hb u hu]
    exact hold

omit [DecidableEq K] in
theorem move (h : s.Sound) {w : FutexThread K} (ht : FutexFine w (t ∈ s.bucket) (s.word w.key)) :
    (s.set t w).Sound :=
  h.set h.nodup (fun _ _ => Iff.rfl) ht

variable {op : FutexOp T K} {expired signal : Bool}

theorem futexStep (h : s.Sound) (hcpu : (s.thread t).task.onCpu = true)
    (hok : FutexOk s (.step t signal expired)) : (futexStep s t signal expired).Sound := by
  have ht := h.fine t
  have hnc : (s.thread t).pc.left = none → (s.thread t).counted ≠ true := by
    intro hl hc
    have hsome := (ht.counted hc).1
    rw [hl] at hsome
    simp at hsome
  unfold Ipc.futexStep
  dsimp only
  cases hp : (s.thread t).pc with dsimp only
  | outside => exact h
  | check =>
    have hq : t ∉ s.bucket := fun hq => by
      have hl := ht.listed hq
      rw [hp] at hl
      exact hl
    have hc : (s.thread t).counted ≠ true := hnc (by rw [hp]; rfl)
    by_cases hv : s.word (s.thread t).key ≠ (s.thread t).val
    · rw [if_pos hv]
      exact h.move ⟨ht.settled, nofun, fun hmem => absurd hmem hq, fun hc' => absurd hc' hc,
        False.elim, by simp, fun _ => ⟨hv, ht.early (.inl hp)⟩⟩
    · split_ifs
      · exact h.move ⟨ht.settled, nofun, fun hmem => absurd hmem hq, fun hc' => absurd hc' hc,
          False.elim, by simp, nofun⟩
      · exact h.move ⟨ht.settled, nofun, fun hmem => absurd hmem hq, fun hc' => absurd hc' hc,
          False.elim, by simp, nofun⟩
  | prepare =>
    have hc : (s.thread t).counted ≠ true := hnc (by rw [hp]; rfl)
    refine h.set ?_ (fun u hu => ?_) ⟨.inl rfl, nofun, fun _ => trivial, fun hc' => absurd hc' hc,
      False.elim, fun _ => rfl, False.elim⟩
    · split_ifs with hmem
      · exact h.nodup
      · exact nodup_cons.2 ⟨hmem, h.nodup⟩
    · split_ifs
      · exact Iff.rfl
      · simp [hu]
  | load =>
    have hcounted : (s.thread t).counted = true →
        t ∉ s.bucket ∧ (s.thread t).task.state ≠ .BLOCKED := fun hc => (ht.counted hc).2
    by_cases hv : s.word (s.thread t).key ≠ (s.thread t).val
    · rw [if_pos hv]
      exact h.move ⟨ht.settled, nofun, fun _ => trivial, fun hc => ⟨rfl, hcounted hc⟩,
        False.elim, by simp, fun _ => ⟨hv, ht.early (.inr hp)⟩⟩
    · rw [if_neg hv]
      exact h.move ⟨ht.settled, nofun, fun _ => trivial, fun hc => ⟨rfl, hcounted hc⟩,
        fun _ => .inl (not_not.1 hv), by simp, False.elim⟩
  | signal =>
    have htested := ht.tested (by rw [hp]; trivial)
    cases signal with
    | true =>
      have hc : (s.thread t).counted ≠ true := fun hc => by simpa using (hok hc).1 hp
      exact h.move (ht.goto nofun (fun _ => trivial) (fun hc' => absurd hc' hc) False.elim (by simp)
        nofun)
    | false =>
      exact h.move (ht.goto nofun (fun _ => trivial) (fun _ => rfl) (fun _ => htested) (by simp)
        False.elim)
  | deadline =>
    have htested := ht.tested (by rw [hp]; trivial)
    split_ifs with hd
    · have hc : (s.thread t).counted ≠ true := fun hc => by
        have hexp := (hok hc).2 hp hd.1
        rw [hexp] at hd
        simp at hd
      exact h.move (ht.goto nofun (fun _ => trivial) (fun hc' => absurd hc' hc) False.elim (by simp)
        nofun)
    · exact h.move (ht.goto nofun (fun _ => trivial) (fun _ => rfl) (fun _ => htested) (by simp)
        False.elim)
  | schedule =>
    have htested := ht.tested (by rw [hp]; trivial)
    exact h.move ⟨ht.settled.switchOut, fun _ => onCpu_switchOut _, fun _ => trivial,
      fun hc => ⟨rfl, (ht.counted hc).2.1, fun hb => (ht.counted hc).2.2 (state_switchOut hb)⟩,
      fun _ => htested, by simp, False.elim⟩
  | asleep => exact h
  | linked =>
    split_ifs with hq
    · exact h.move (ht.goto nofun (fun _ => trivial) (fun hc => absurd hq (ht.counted hc).2.1)
        False.elim (by simp) False.elim)
    · exact h.move (ht.goto nofun (fun hmem => absurd hmem hq) (fun _ => rfl) False.elim (by simp)
        nofun)
  | deadlineAgain | signalAgain =>
    have hc : (s.thread t).counted ≠ true := hnc (by rw [hp]; rfl)
    split_ifs
    · exact h.move (ht.goto nofun (fun _ => trivial) (fun hc' => absurd hc' hc) False.elim (by simp)
        nofun)
    · exact h.move (ht.goto nofun (fun _ => trivial) (fun hc' => absurd hc' hc) False.elim (by simp)
        False.elim)
  | finish rc =>
    refine h.move ⟨.inr (.inl ⟨rfl, hcpu⟩), nofun, fun _ => trivial,
      fun hc => ⟨?_, (ht.counted hc).2.1, by simp⟩, False.elim, by simp, fun hr => ?_⟩
    · cases rc <;> simp_all [FutexPc.left]
    · exact ht.again (by rw [hp]; exact hr)
  | remove rc =>
    refine h.set (h.nodup.filter _) (fun u hu => by simp [hu]) ⟨ht.settled, nofun,
      fun hmem => by simp at hmem, fun hc => ⟨?_, by simp, (ht.counted hc).2.2⟩, False.elim,
      by simp, fun hr => ?_⟩
    · cases rc <;> simp_all [FutexPc.left]
    · exact ht.again (by rw [hp]; exact hr)
  | returned rc => exact h

theorem wake (h : s.Sound) {key : K} {maxWake : BitVec 32} (hok : FutexOk s (.wake key maxWake)) :
    (s.futexWake key maxWake).1.Sound := by
  obtain ⟨hbucket, hthread, -⟩ := FutexSys.futexWake_spec h.nodup key maxWake
  have hword : (s.futexWake key maxWake).1.word = s.word := rfl
  refine ⟨by rw [hbucket]; exact h.nodup.filter _, fun u => ?_⟩
  rw [hthread u, hbucket]
  have hu := h.fine u
  by_cases hmem : u ∈ chosen s key maxWake
  · rw [if_pos hmem]
    have hin : u ∈ s.bucket := mem_of_mem_filter (mem_of_mem_take hmem)
    have hout : u ∉ s.bucket.filter (· ∉ chosen s key maxWake) := by simp [hmem]
    exact ⟨hu.settled.tryToWakeUp _, fun hp => (onCpu_tryToWakeUp _ _).trans (hu.off hp),
      fun hq => absurd hq hout,
      fun _ => ⟨FutexPc.left_isSome (hu.listed hin) (hok u hmem), hout, state_tryToWakeUp _⟩,
      hu.tested, hu.early, hu.again⟩
  · rw [if_neg hmem]
    have hiff : u ∈ s.bucket.filter (· ∉ chosen s key maxWake) ↔ u ∈ s.bucket := by simp [hmem]
    rw [hiff]
    exact hu

theorem next (h : s.Sound) (hok : FutexOk s op) : (futexNext s op).Sound := by
  cases op with
  | call t key val timeoutMs =>
    rw [futexNext]
    split_ifs with hc
    · have ht := h.fine t
      have hq : t ∉ s.bucket := fun hq => FutexPc.not_listed_of_idle hc.1 (ht.listed hq)
      exact h.move ⟨ht.settled, nofun, fun hmem => absurd hmem hq, nofun, False.elim, fun _ => rfl,
        False.elim⟩
    · exact h
  | step t signal expired =>
    rw [futexNext]
    split_ifs with hc
    · exact h.futexStep hc hok
    · exact h
  | preempt t =>
    rw [futexNext]
    split_ifs with hc
    · have ht := h.fine t
      exact h.move ⟨ht.settled.switchOut, fun _ => onCpu_switchOut _, ht.listed,
        fun hcount => ⟨(ht.counted hcount).1, (ht.counted hcount).2.1,
          fun hb => (ht.counted hcount).2.2 (state_switchOut hb)⟩,
        ht.tested, ht.early, ht.again⟩
    · exact h
  | pick t =>
    rw [futexNext]
    have ht := h.fine t
    rw [ht.settled.switchIn_eq]
    split_ifs with hc hp
    · exact h.move ⟨.inr (.inl ⟨rfl, rfl⟩), nofun, fun _ => trivial,
        fun hcount => ⟨rfl, (ht.counted hcount).2.1, by simp⟩, False.elim, by simp, False.elim⟩
    · exact h.move ⟨.inr (.inl ⟨rfl, rfl⟩), fun hp' => absurd hp' hp, ht.listed,
        fun hcount => ⟨(ht.counted hcount).1, (ht.counted hcount).2.1, by simp⟩, ht.tested,
        ht.early, ht.again⟩
    · exact h
  | poke t mask =>
    have ht := h.fine t
    exact h.move ⟨ht.settled.tryToWakeUp _,
      fun hp => (onCpu_tryToWakeUp _ _).trans (ht.off hp), ht.listed,
      fun hcount => ⟨(ht.counted hcount).1, (ht.counted hcount).2.1,
        state_tryToWakeUp_of_ne (ht.counted hcount).2.2 _⟩, ht.tested, ht.early, ht.again⟩
  | store key val =>
    refine ⟨h.nodup, fun u => ?_⟩
    have hu := h.fine u
    rw [futexNext]
    by_cases hk : (s.thread u).key = key
    · simp only [if_pos hk]
      exact ⟨hu.settled, hu.off, hu.listed, hu.counted, fun _ => .inr rfl, hu.early, hu.again⟩
    · simp only [if_neg hk, update_of_ne hk]
      exact hu
  | wake key maxWake => exact h.wake hok

omit [DecidableEq K] in
theorem thread_futexStep {u : T} (hu : t ≠ u) (signal expired : Bool) :
    (Ipc.futexStep s u signal expired).thread t = s.thread t := by
  unfold Ipc.futexStep
  dsimp only
  split <;> simp [FutexSys.set, hu]

/-- The next step of a waiter that has been dequeued brings it nearer to its return. -/
theorem left_futexStep (h : s.Sound) (hc : (s.thread t).counted = true)
    (hbusy : (s.thread t).pc.idle = false) (hcpu : (s.thread t).task.onCpu = true)
    (hok : FutexOk s (.step t signal expired)) :
    ((Ipc.futexStep s t signal expired).thread t).pc.stepsLeft < (s.thread t).pc.stepsLeft := by
  have ht := h.fine t
  obtain ⟨hleft, hq, -⟩ := ht.counted hc
  have hset : ∀ w : FutexThread K, ((s.set t w).thread t).pc = w.pc := fun w => by
    simp [FutexSys.set]
  unfold Ipc.futexStep
  dsimp only
  cases hp : (s.thread t).pc with dsimp only
  | outside | returned rc => simp [hp, FutexPc.idle] at hbusy
  | check | prepare | deadlineAgain | signalAgain => simp [hp, FutexPc.left] at hleft
  | load =>
    rw [hset]
    dsimp only
    split_ifs <;> decide
  | signal =>
    rw [hset, (hok hc).1 hp]
    dsimp only
    decide
  | deadline =>
    have hno : ¬ (0 < (s.thread t).timeoutMs ∧ expired = true) := fun hd => by
      have hexp := (hok hc).2 hp hd.1
      simp [hexp] at hd
    rw [hset, if_neg hno]
    dsimp only
    decide
  | schedule =>
    rw [hset]
    dsimp only
    decide
  | asleep =>
    rw [ht.off hp] at hcpu
    exact absurd hcpu (by simp)
  | linked =>
    rw [hset, if_neg hq]
    dsimp only
    decide
  | finish rc =>
    cases rc <;> simp_all [FutexPc.left, FutexPc.stepsLeft]
  | remove rc =>
    cases rc <;> simp_all [FutexPc.left, FutexPc.stepsLeft]

/-- No step takes a waiter that has been dequeued away from its return. -/
theorem left_next (h : s.Sound) (hc : (s.thread t).counted = true)
    (hbusy : (s.thread t).pc.idle = false) (hok : FutexOk s op) :
    ((futexNext s op).thread t).pc = (s.thread t).pc ∨
      ((futexNext s op).thread t).pc.stepsLeft < (s.thread t).pc.stepsLeft := by
  have hset : ∀ (u : T) (w : FutexThread K), (u = t → w.pc = (s.thread t).pc) →
      ((s.set u w).thread t).pc = (s.thread t).pc := by
    intro u w hw
    by_cases hu : t = u
    · subst hu
      simp [FutexSys.set, hw rfl]
    · simp [FutexSys.set, hu]
  cases op with
  | call u key val timeoutMs =>
    rw [futexNext]
    split_ifs with hcall
    · refine .inl (hset u _ ?_)
      rintro rfl
      simp [hbusy] at hcall
    · exact .inl rfl
  | step u signal expired =>
    rw [futexNext]
    split_ifs with hcpu
    · by_cases hu : t = u
      · subst hu
        exact .inr (h.left_futexStep hc hbusy hcpu hok)
      · left
        rw [thread_futexStep hu]
    · exact .inl rfl
  | preempt u =>
    rw [futexNext]
    split_ifs
    · exact .inl (hset u _ (by rintro rfl; rfl))
    · exact .inl rfl
  | pick u =>
    rw [futexNext]
    split_ifs with hpick hp
    · by_cases hu : t = u
      · subst hu
        right
        simp only [FutexSys.set, update_self, hp]
        decide
      · exact .inl (hset u _ fun h => absurd h.symm hu)
    · exact .inl (hset u _ (by rintro rfl; rfl))
    · exact .inl rfl
  | poke u mask => exact .inl (hset u _ (by rintro rfl; rfl))
  | store key val =>
    left
    rw [futexNext]
    dsimp only
    split_ifs <;> rfl
  | wake key maxWake =>
    left
    rw [futexNext, (FutexSys.futexWake_spec h.nodup key maxWake).2.1 t]
    split_ifs <;> rfl

end FutexSys.Sound

/-- Nobody is in `futex_wait`. -/
structure FutexSys.Fresh (s : FutexSys T K) : Prop where
  empty : s.bucket = []
  outside : ∀ t, (s.thread t).pc = .outside
  counted : ∀ t, (s.thread t).counted = false
  settled : ∀ t, (s.thread t).task.Settled

omit [DecidableEq T] [DecidableEq K] in
theorem FutexSys.Fresh.sound (h : s.Fresh) : s.Sound := by
  refine ⟨by simp [h.empty], fun t => ?_⟩
  have hp := h.outside t
  refine ⟨h.settled t, ?_, ?_, ?_, ?_, ?_, ?_⟩
  · simp [hp]
  · simp [h.empty]
  · simp [h.counted t]
  · simp [hp, FutexPc.tested]
  · simp [hp]
  · simp [hp, FutexPc.returns]

/-- What becomes of a waiter that a `futex_wake` has counted. -/
structure FutexSys.Answered (s : FutexSys T K) (t : T) : Prop where
  /-- it never sleeps again -/
  awake : (s.thread t).task.state ≠ .BLOCKED
  /-- it returns 0, or `-EAGAIN` because the word had changed before it slept -/
  result : ∀ rc, (s.thread t).pc.returns rc →
    rc = .woken ∨ rc = .EAGAIN ∧ (s.thread t).loaded ≠ (s.thread t).val ∧ (s.thread t).slept = false
  /-- while it has not returned it runs or waits for a processor -/
  ready : (s.thread t).pc.idle = false →
    (s.thread t).task.onCpu = true ∨ (s.thread t).task.onRq = true
  /-- and its own steps bring it nearer to the return, from which nothing takes it away -/
  nearer : (s.thread t).pc.idle = false → ∀ op, FutexOk s op →
    (((futexNext s op).thread t).pc = (s.thread t).pc ∨
      ((futexNext s op).thread t).pc.stepsLeft < (s.thread t).pc.stepsLeft) ∧
    ∀ signal expired, op = .step t signal expired → (s.thread t).task.onCpu = true →
      ((futexNext s op).thread t).pc.stepsLeft < (s.thread t).pc.stepsLeft

theorem FutexSys.Sound.answered (h : s.Sound) {t : T}
    (hc : (s.thread t).counted = true) : s.Answered t := by
  have ht := h.fine t
  obtain ⟨hleft, -, hawake⟩ := ht.counted hc
  refine ⟨hawake, fun rc hrc => ?_, fun _ => ?_, fun hbusy op hok => ⟨h.left_next hc hbusy hok, ?_⟩⟩
  · have hcase : rc = .woken ∨ rc = .EAGAIN := by
      cases hp : (s.thread t).pc <;> cases rc <;>
        simp_all [FutexPc.returns, FutexPc.left]
    refine hcase.imp_right fun heq => ⟨heq, ht.again (heq ▸ hrc)⟩
  · rcases ht.settled with hb | hrun | hrq
    · exact absurd hb hawake
    · exact .inl hrun.2
    · exact .inr hrq.2
  · rintro signal expired rfl hcpu
    rw [futexNext, if_pos hcpu]
    exact h.left_futexStep hc hbusy hcpu hok

/-- `futex_wake` takes out of the bucket, and returns, as many waiters on the key as there are, up
to the number asked for. -/
structure FutexSys.WakesAll (s : FutexSys T K) (key : K) (maxWake : BitVec 32) : Prop where
  returned : (s.futexWake key maxWake).2 =
    min maxWake.toNat (s.bucket.countP fun t => decide ((s.thread t).key = key))
  dequeued : (s.futexWake key maxWake).1.bucket.length + (s.futexWake key maxWake).2 =
    s.bucket.length
  onKey : ∀ t ∈ s.bucket, t ∉ (s.futexWake key maxWake).1.bucket → (s.thread t).key = key
  counted : ∀ t ∈ s.bucket, t ∉ (s.futexWake key maxWake).1.bucket →
    ((s.futexWake key maxWake).1.thread t).counted = true

theorem FutexSys.Sound.wakesAll (h : s.Sound) (key : K) (maxWake : BitVec 32) :
    s.WakesAll key maxWake := by
  obtain ⟨hbucket, hthread, hcount⟩ := FutexSys.futexWake_spec h.nodup key maxWake
  have hgone : ∀ t ∈ s.bucket, t ∉ (s.futexWake key maxWake).1.bucket →
      t ∈ chosen s key maxWake := by
    intro t ht hnot
    rw [hbucket] at hnot
    simpa [ht] using hnot
  refine ⟨by rw [hcount, length_chosen], ?_, fun t ht hnot => ?_, fun t ht hnot => ?_⟩
  · have hsub : (chosen s key maxWake).Sublist s.bucket :=
      (take_sublist ..).trans filter_sublist
    have hperm : (s.bucket.filter (· ∈ chosen s key maxWake)).Perm (chosen s key maxWake) :=
      (perm_ext_iff_of_nodup (h.nodup.filter _) (h.nodup.sublist hsub)).2 fun t => by
        simpa using fun ht => hsub.subset ht
    have hsplit := length_eq_length_filter_add (l := s.bucket) (· ∈ chosen s key maxWake)
    rw [hperm.length_eq] at hsplit
    rw [hbucket, hcount, hsplit, Nat.add_comm]
    simp
  · have hmem := mem_of_mem_take (hgone t ht hnot)
    simpa using of_mem_filter hmem
  · rw [hthread t, if_pos (hgone t ht hnot)]
    rfl

/-- **Wake-ups are not swallowed**, as long as they do not meet a waiter at the wrong moment: each
`futex_wake` dequeues as many waiters as it may, every waiter that was counted returns 0 or
`-EAGAIN`, and one whose word had changed before it queued itself does not sleep. -/
theorem futex_wake_ups_count {s : FutexSys T K} (hs : s.Fresh) {ops : List (FutexOp T K)}
    (hok : Along futexNext FutexOk s ops) : let s' := run futexNext s ops
    (∀ key maxWake, s'.WakesAll key maxWake) ∧
    (∀ t, (s'.thread t).counted = true → s'.Answered t) ∧
    ∀ t, (s'.thread t).pc.tested →
      s'.word (s'.thread t).key = (s'.thread t).val ∨ (s'.thread t).changed = true := by
  have hend : (run futexNext s ops).Sound :=
    run_invariant (fun _ _ h hop => h.next hop) hs.sound hok
  exact ⟨hend.wakesAll, fun _ => hend.answered, fun t => (hend.fine t).tested⟩

/-- One thread that runs, and one word. -/
def oneFutex : FutexSys Unit Unit where
  thread _ := ⟨⟨.RUNNING, false, true⟩, .outside, (), 0, -1, 0, false, false, false⟩
  bucket := []
  word _ := 0

theorem oneFutex_fresh : oneFutex.Fresh :=
  ⟨rfl, fun _ => rfl, fun _ => rfl, fun _ => .inr (.inl ⟨rfl, rfl⟩)⟩

/-- The thread has queued itself and is woken before it sleeps. -/
theorem futex_wake_ups_count_before_schedule :
    let ops : List (FutexOp Unit Unit) := [.call () () 0 (-1), .step () false false,
      .step () false false, .step () false false, .wake () 1, .step () false false,
      .step () false false, .step () false false]
    ((run futexNext oneFutex ops).thread ()).counted = true ∧
      (run futexNext oneFutex ops).Answered () := by
  refine ⟨by decide, (futex_wake_ups_count oneFutex_fresh ?_).2.1 () (by decide)⟩
  have hquiet : ∀ s : FutexSys Unit Unit, FutexOk s (.step () false false) := fun _ _ =>
    ⟨fun _ => rfl, fun _ _ => rfl⟩
  exact ⟨trivial, hquiet _, hquiet _, hquiet _, fun _ _ hlate => hlate, hquiet _, hquiet _,
    hquiet _, trivial⟩

/-- The waiter has queued itself, `futex_wake` dequeues and counts it, and then it finds a
signal. -/
theorem wake_up_swallowed :
    let s := run futexNext oneFutex [.call () () 0 (-1), .step () false false,
      .step () false false]
    (s.futexWake () 1).2 = 1 ∧
      ((run futexNext s [.wake () 1, .step () false false, .step () true false,
        .step () false false, .step () false false]).thread ()).pc = .returned .EINTR := by
  decide

end CosmoRT.Ipc
