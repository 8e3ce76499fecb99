import CosmoRT.Proc.Books

/-!
# Signals to many processes

`kill_pgrp` and `do_kill` of `proc/signal.c` with a pid of zero or below: a loop over
`pid_table` that calls `kill_one` for the processes of a group, or for all but init.

* `Kernel.roster`, `roster_killOne` — **a `kill_one` that returns changes nothing that the
  rest of the loop looks at.**
* `mem_killLoop` — the loop reaches the processes it looks for, up to the caller if the
  signal ends the caller.
* `group_signal_iff` — **every process meant is reached, unless the caller dies first.**

The field `pgid` is given as a function of the pid: nothing here stores to it.
-/

namespace CosmoRT.Proc

open Event Option

/-! ## The loop -/

/-- `kill_one` ends in `do_exit_group`: the target is the process of the caller, the signal
has its default action and is fatal, and some thread does not block it. -/
def killEnds (k : Kernel) (cur pid sig : ℕ) : Bool :=
  decide (procOf k cur = some pid) && (k.procs pid).any fun p =>
    decide (p.state = .ALIVE ∧ (p.sigActions sig).handler = SIG_DFL ∧
      defaultAction sig = .fatal) && !p.threads.all (threadBlocks k sig)

/-- What a loop over `pid_table` did: the processes `kill_one` was called for, whether the
caller ended in one of the calls, and the state it left. -/
structure Sweep where
  reached : List ℕ
  ended : Bool
  kernel : Kernel

/-- `proc_find` gives a process that is `PROC_ALIVE`. -/
def isAlive (k : Kernel) (i : ℕ) : Bool := (procFind k i).any fun p => p.state = .ALIVE

/-- The loop over `pid_table` in `kill_pgrp` and in `do_kill`: `kill_one` for the live
processes that `picks` takes. -/
def killLoop (cur sig : ℕ) (picks : ℕ → Bool) : List ℕ → Kernel → Sweep
  | [], k => ⟨[], false, k⟩
  | i :: is, k =>
    if isAlive k i && picks i then
      let k₁ := (killOne k cur i sig).2
      if killEnds k cur i sig then ⟨[i], true, k₁⟩
      else
        let s := killLoop cur sig picks is k₁
        { s with reached := i :: s.reached }
    else killLoop cur sig picks is k

/-- Whom `do_kill` takes for a pid of zero or below, called by a thread of `self`. -/
def killPicks (pgid : ℕ → ℕ) (self : ℕ) (pid : ℤ) (i : ℕ) : Bool :=
  if pid = 0 then pgid i = pgid self else if pid = -1 then 1 < i else pgid i = (-pid).toNat

/-- `do_kill` with a pid of zero or below.  There is no result if the caller ends. -/
def doKillMany (k : Kernel) (pgid : ℕ → ℕ) (cur : ℕ) (pid sig : ℤ) :
    Option (Except Errno Unit) × Sweep :=
  if sig < 0 ∨ 64 ≤ sig then (some (.error .EINVAL), ⟨[], false, k⟩)
  else if sig = 0 then (some (.ok ()), ⟨[], false, k⟩)
  else if pid = 0 ∧ procOf k cur = none then (some (.error .ESRCH), ⟨[], false, k⟩)
  else
    let picks := killPicks pgid ((procOf k cur).getD 0) pid
    let s := killLoop cur sig.toNat picks (pidRange k) k
    (if s.ended then none else some (if s.reached = [] then .error .ESRCH else .ok ()), s)

/-! ## What the loop looks at -/

/-- The part of the state that decides whom the loop takes and whom a signal ends. -/
def Kernel.roster (k : Kernel) :
    ℕ × (ℕ → Option (ProcState × List ℕ × (ℕ → SigAction))) × (ℕ → Option (Option ℕ × SigSet)) :=
  (k.pidCapacity, fun pid => (k.procs pid).map fun p => (p.state, p.threads, p.sigActions),
    fun u => (k.threads u).map fun t => (t.proc, t.sigBlocked))

variable {k k' : Kernel} {cur pid sig self : ℕ} {pgid : ℕ → ℕ}

theorem killEnds_congr (h : k'.roster = k.roster) (pid : ℕ) :
    killEnds k' cur pid sig = killEnds k cur pid sig := by
  have heq : ∀ k : Kernel, killEnds k cur pid sig =
      (decide ((k.roster.2.2 cur).bind (·.1) = some pid) && (k.roster.2.1 pid).any fun m =>
        decide (m.1 = .ALIVE ∧ (m.2.2 sig).handler = SIG_DFL ∧ defaultAction sig = .fatal) &&
          !m.2.1.all fun u => (k.roster.2.2 u).any fun m => hasSig m.2 sig) := by
    intro k
    simp only [Kernel.roster, any_map, bind_map]
    rfl
  rw [heq, heq, h]

theorem isAlive_congr (h : k'.roster = k.roster) (i : ℕ) : isAlive k' i = isAlive k i := by
  have heq : ∀ k : Kernel, isAlive k i = (decide (¬(i = 0 ∨ k.roster.1 ≤ i)) &&
      (k.roster.2.1 i).any fun m => m.1 = .ALIVE) := by
    intro k
    simp only [isAlive, procFind, Kernel.roster]
    split
    · next hi => simp [hi]
    · next hi => cases k.procs i <;> simp [hi, Option.filter]; grind
  rw [heq, heq, h]

theorem roster_modProc {f : Process → Process}
    (hf : ∀ p, ((f p).state, (f p).threads, (f p).sigActions) =
      (p.state, p.threads, p.sigActions)) :
    (k.modProc pid f).roster = k.roster := by
  simp only [Kernel.roster, modProc_cap, modProc_threads, modProc_procs, Prod.mk.injEq, true_and,
    and_true]
  funext q
  split
  · rw [map_map]; congr 1; funext p; exact hf p
  · rfl

theorem roster_modThread {u : ℕ} {f : Thread → Thread}
    (hf : ∀ t, ((f t).proc, (f t).sigBlocked) = (t.proc, t.sigBlocked)) :
    (k.modThread u f).roster = k.roster := by
  simp only [Kernel.roster, modThread_cap, modThread_procs, modThread_threads, Prod.mk.injEq,
    true_and]
  funext v
  split
  · rw [map_map]; congr 1; funext t; exact hf t
  · rfl

theorem Woken.roster {mask : WakeMask} (h : Woken mask k k') : k'.roster = k.roster := by
  simp only [Kernel.roster, h.cap, h.procs, Prod.mk.injEq, true_and]
  funext u
  rcases h.threads u with he | ⟨t, ht, -, he⟩
  · rw [he]
  · rw [he, ht]; rfl

theorem roster_foldl {α : Type} {f : Kernel → α → Kernel} (hf : ∀ k a, (f k a).roster = k.roster)
    (l : List α) (k : Kernel) : (l.foldl f k).roster = k.roster := by
  induction l generalizing k with
  | nil => rfl
  | cons a l ih => rw [List.foldl_cons, ih, hf]

theorem roster_killStop (p : Process) : (killStop k pid sig p).roster = k.roster := by
  refine (woken_notifyParent ..).roster.trans ((roster_modProc fun _ => by rfl).trans ?_)
  exact roster_foldl (fun k u => roster_modThread fun t => by split <;> rfl) ..

theorem roster_killCont (p : Process) : (killCont k pid p).roster = k.roster := by
  have hclear : (k.modPending pid fun q => { q with set := q.set &&& ~~~stopBits }).roster =
      k.roster := roster_modProc fun _ => rfl
  unfold killCont
  dsimp only
  split
  · exact (woken_notifyParent ..).roster.trans ((woken_resumeThreads ..).roster.trans
      ((roster_modProc fun _ => by rfl).trans hclear))
  · exact hclear

theorem roster_killOne (h : killEnds k cur pid sig = false) :
    (killOne k cur pid sig).2.roster = k.roster := by
  have hmark : ∀ (k : Kernel) (f : Pending → Pending), (k.modPending pid f).roster = k.roster :=
    fun k f => roster_modProc fun _ => rfl
  unfold killOne
  cases hp : k.procs pid with
  | none => rfl
  | some p =>
    dsimp only
    split
    · rfl
    next halive =>
    split
    · rfl
    split
    · next hdfl =>
      cases hd : defaultAction sig with
      | ignore =>
        dsimp only
        split
        · rw [(wakeBlocked_woken ..).roster, hmark]
        · rfl
      | stop => exact roster_killStop p
      | cont => exact roster_killCont p
      | fatal =>
        dsimp only [killFatal]
        split_ifs with hall hcur
        · rw [(wakeBlocked_woken ..).roster, hmark]
        · -- this is the call that does not come back
          have hproc : procOf k cur = some pid := hcur
          simp [killEnds, hproc, hp, hdfl, hd, hall, not_not.mp halive] at h
        · exact (Woken.foldl woken_signalWakeUp ..).roster.trans
            ((hmark ..).trans (roster_modProc fun _ => rfl))
    · exact (Woken.foldl (woken_wakeOpen sig) ..).roster.trans (hmark ..)

/-! ## Whom it reaches -/

theorem killLoop_kernel (picks : ℕ → Bool) (l : List ℕ) (k : Kernel) :
    (killLoop cur sig picks l k).kernel =
      (killLoop cur sig picks l k).reached.foldl (fun k i => (killOne k cur i sig).2) k := by
  induction l generalizing k with
  | nil => rfl
  | cons i l ih =>
    simp only [killLoop]
    split_ifs
    · rfl
    · exact ih _
    · exact ih k

/-- The processes reached: those looked for, up to the first whose `kill_one` does not come
back. -/
theorem mem_killLoop (cur sig : ℕ) (picks : ℕ → Bool) {l : List ℕ} (hl : l.Pairwise (· < ·))
    (k : Kernel) (i : ℕ) :
    i ∈ (killLoop cur sig picks l k).reached ↔ i ∈ l ∧ (isAlive k i && picks i) = true ∧
      ∀ q ∈ l, (isAlive k q && picks q) = true → killEnds k cur q sig = true → i ≤ q := by
  induction l generalizing k with
  | nil => simp [killLoop]
  | cons a l ih =>
    obtain ⟨ha, hl⟩ := List.pairwise_cons.mp hl
    simp only [killLoop]
    split_ifs with hp he
    · grind
    · have hr : (killOne k cur a sig).2.roster = k.roster := roster_killOne (by simpa using he)
      rw [List.mem_cons, ih hl]
      simp only [isAlive_congr hr, killEnds_congr hr]
      grind
    · grind

/-- The processes that `kill(pid, sig)` with a pid of zero or below is meant for: the live
members of the group, or all that are live but init and the caller. -/
def Meant (k : Kernel) (pgid : ℕ → ℕ) (self : ℕ) (pid : ℤ) (i : ℕ) : Prop :=
  isAlive k i ∧ if pid = -1 then i ≠ 1 ∧ i ≠ self
    else pgid i = if pid = 0 then pgid self else (-pid).toNat

/-- Every process meant has had `kill_one`, in one pass over the table. -/
structure ReachesAll (k : Kernel) (pgid : ℕ → ℕ) (cur caller : ℕ) (pid : ℤ) (sig : ℕ)
    (s : Sweep) : Prop where
  all : ∀ i, Meant k pgid caller pid i → i ∈ s.reached
  effect : s.kernel = s.reached.foldl (fun k i => (killOne k cur i sig).2) k

theorem mem_pidRange_of_isAlive {i : ℕ} (h : isAlive k i = true) : i ≠ 0 ∧ i ∈ pidRange k := by
  obtain ⟨p, hp, -⟩ := (any_eq_true _ _).mp h
  unfold procFind at hp
  split at hp
  · cases hp
  · rw [pidRange, List.mem_range'_1]
    omega

/-- `kill(0, sig)`, `kill(-pgid, sig)` and `kill(-1, sig)` reach every process they are meant
for, exactly when the loop does not end its caller, or ends it after the last of them. -/
theorem group_signal_iff (k : Kernel) (pgid : ℕ → ℕ) (cur self : ℕ) (pid : ℤ) (sig : ℕ)
    (hself : procOf k cur = some self) (hsig : 1 ≤ sig ∧ sig < 64) :
    ReachesAll k pgid cur self pid sig (doKillMany k pgid cur pid sig).2 ↔
      ((isAlive k self && killPicks pgid self pid self) = true → killEnds k cur self sig = true →
        ∀ i, Meant k pgid self pid i → i ≤ self) := by
  have hloop : (doKillMany k pgid cur pid sig).2 =
      killLoop cur sig (killPicks pgid self pid) (pidRange k) k := by
    have hrange : ¬((sig : ℤ) < 0 ∨ 64 ≤ (sig : ℤ)) ∧ (sig : ℤ) ≠ 0 := by omega
    simp only [doKillMany, hself, hrange.1, hrange.2, if_false, reduceCtorEq, and_false]
    rfl
  have hsorted : (pidRange k).Pairwise (· < ·) := List.pairwise_lt_range'
  have hmem := mem_killLoop cur sig (killPicks pgid self pid) hsorted k
  have hpicks : ∀ i, Meant k pgid self pid i → killPicks pgid self pid i = true := by
    rintro i ⟨halive, h⟩
    have := (mem_pidRange_of_isAlive halive).1
    grind [killPicks]
  rw [hloop]
  constructor
  · rintro ⟨hall, -⟩ hp he i hi
    obtain ⟨-, -, hmin⟩ := (hmem i).mp (hall i hi)
    exact hmin self (mem_pidRange_of_isAlive (Bool.and_eq_true_iff.mp hp).1).2 hp he
  · intro h
    refine ⟨fun i hi => (hmem i).mpr ⟨(mem_pidRange_of_isAlive hi.1).2, ?_, ?_⟩,
      killLoop_kernel ..⟩
    · rw [hi.1, hpicks i hi]; rfl
    · intro q _ hq he
      obtain rfl : self = q := by
        simp only [killEnds, Bool.and_eq_true, decide_eq_true_eq] at he
        exact mem_unique hself he.1
      exact h hq he i hi

/-- A shell of pid 2 and its job of pid 3, with init in a group of its own. -/
def shellAndJob : Kernel :=
  { bootKernel with
    procs := fun pid => if pid = 2 then some (plainProcess 1 [2])
      else if pid = 3 then some (plainProcess 2 [3]) else bootKernel.procs pid
    threads := fun tid =>
      if tid = 2 ∨ tid = 3 then some (plainThread tid) else bootKernel.threads tid }

def shellGroup (pid : ℕ) : ℕ := if pid = 1 then 1 else 2

/-- The shell stops its group, itself included. -/
theorem group_signal_stops : ReachesAll shellAndJob shellGroup 2 2 0 SIGTSTP
    (doKillMany shellAndJob shellGroup 2 0 (SIGTSTP : ℕ)).2 :=
  (group_signal_iff shellAndJob shellGroup 2 2 0 SIGTSTP rfl (by decide)).mpr
    fun _ he => absurd he (by decide)

/-- The shell ends its group with `SIGTERM`, or every process: it dies itself before the job
has been told. -/
theorem group_signal_ends_caller :
    (doKillMany shellAndJob shellGroup 2 0 15).2.reached = [2] ∧
    ¬ReachesAll shellAndJob shellGroup 2 2 0 15 (doKillMany shellAndJob shellGroup 2 0 15).2 ∧
    ¬ReachesAll shellAndJob shellGroup 2 2 (-1) 15
      (doKillMany shellAndJob shellGroup 2 (-1) 15).2 := by
  refine ⟨by decide +kernel, fun h => ?_, fun h => ?_⟩
  · have hjob := h.all 3 ⟨rfl, rfl⟩
    revert hjob
    decide +kernel
  · have hjob := h.all 3 ⟨rfl, by decide⟩
    revert hjob
    decide +kernel

end CosmoRT.Proc
