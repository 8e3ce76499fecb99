import CosmoRT.Proc.Pending
import CosmoRT.Proc.Uncatchable

/-!
# Stopping, continuing and killing a process

A stopped thread is one in the scheduler state `STOPPED`, and that state is what
`wake_up`, timers and signals change.  `job_control` says, in three parts, when this
works out as job control:

* a stopped process stays stopped as long as no wake-up and no timer meets one of its
  stopped threads, **which a thread that was stopped in its sleep cannot rely on**:
  both wake under `TASK_NORMAL`, which covers `STOPPED`.  Nor may a thread of it have been
  on a processor, as the sender of `kill(getpid(), SIGSTOP)` is: it runs on, and its next
  `prepare_to_wait` stores `BLOCKED`;
* `SIGCONT` resumes every stopped thread exactly if its disposition is the default;
* `SIGKILL` makes a process run to its end exactly if a thread of it is not stopped.

`Dormant` is the invariant of the first part, with one lemma per kind of step.
-/

namespace CosmoRT.Proc

open Event Lib List Option Kernel

/-! ## Waking threads that do not sleep -/

variable {u : ℕ} {mask : WakeMask}

variable {k k' : Kernel} {pid : ℕ} {tids : List ℕ}

theorem tryToWakeUp_keep {v : ℕ}
    (h : v = u → ∀ t, k.threads u = some t → mask.covers t.state = false) :
    (tryToWakeUp k v mask).2.threads u = k.threads u := by
  rw [tryToWakeUp_threads, modThread_threads]
  split
  · next huv =>
    subst huv
    cases ht : k.threads u with
    | none => rfl
    | some t => rw [map_some, rouse_of_not_covers (h rfl t ht)]
  · rfl

/-- No entry of the list is a sleeper `u` that the mask covers. -/
def Passes (mask : WakeMask) (k : Kernel) (es : List WqEntry) (u : ℕ) : Prop :=
  ∀ e ∈ es, e.task = u → ∀ t, k.threads u = some t → mask.covers t.state = false

variable {e : WqEntry} {es : List WqEntry} {n sig : ℕ}

theorem Passes.congr
    (h : Passes mask k (e :: es) u) (hk : k'.threads u = k.threads u) : Passes mask k' es u := by
  intro e' he' heq t ht
  exact h e' (mem_cons_of_mem _ he') heq t (hk ▸ ht)

theorem Passes.head
    (h : Passes mask k (e :: es) u) : (tryToWakeUp k e.task mask).2.threads u = k.threads u :=
  tryToWakeUp_keep fun heq => h e mem_cons_self heq

theorem wakeEntries_keep (es : List WqEntry) (acc : Bool × Kernel) (h : Passes mask acc.2 es u) :
    (es.foldl (wakeEntry mask) acc).2.threads u = acc.2.threads u := by
  induction es generalizing acc with
  | nil => rfl
  | cons e es ih =>
    have hstep : (wakeEntry mask acc e).2.threads u = acc.2.threads u := by
      unfold wakeEntry
      split
      · rfl
      · exact h.head
    rw [foldl_cons, ih _ (h.congr hstep), hstep]

variable {q : WqHead}

theorem wakeUp_keep (h : Passes .NORMAL k (k.queues q) u) :
    (wakeUp k q).threads u = k.threads u := wakeEntries_keep _ (false, k) h

theorem wakeUpAll_keep (h : Passes .NORMAL k (k.queues q) u) :
    (wakeUpAll k q).threads u = k.threads u := by
  unfold wakeUpAll
  obtain ⟨es, hes⟩ : ∃ es, es = k.queues q := ⟨_, rfl⟩
  rw [← hes] at h ⊢
  clear hes
  induction es generalizing k with
  | nil => rfl
  | cons e es ih => rw [foldl_cons, ih (h.congr h.head), h.head]

theorem wakeNr_keep (woken : ℕ) (es : List WqEntry) (k : Kernel)
    (h : Passes .NORMAL k es u) : (wakeNr n woken es k).threads u = k.threads u := by
  induction es generalizing woken k with
  | nil => rfl
  | cons e es ih =>
    simp only [wakeNr]
    split
    · split
      · exact h.head
      · rw [ih _ _ (h.congr h.head), h.head]
    · rw [ih _ _ (h.congr h.head), h.head]

theorem wakeUpNr_keep (h : Passes .NORMAL k (k.queues q) u) :
    (wakeUpNr k q n).threads u = k.threads u := by
  unfold wakeUpNr
  split
  · rfl
  · exact wakeNr_keep _ _ _ h

/-! ## A process that does not run -/

/-- A thread that is neither running nor going to: it takes more than a signal for it to
become runnable. -/
def Resting (st : ThreadState) : Prop := st = .STOPPED ∨ st = .DEAD ∨ st = .FREE

variable {st : ThreadState}

theorem Resting.not_blocked (h : Resting st) : WakeMask.INTERRUPTIBLE.covers st = false := by
  rcases h with rfl | rfl | rfl <;> rfl

/-- The process `pid` with the threads `tids` does not run. -/
structure Dormant (pid : ℕ) (tids : List ℕ) (k : Kernel) : Prop where
  proc : ∃ p, k.procs pid = some p ∧ p.threads = tids
  rest : ∀ u ∈ tids, ∀ t, k.threads u = some t → Resting t.state

namespace Dormant

variable {pid : ℕ} {tids : List ℕ} {k k' : Kernel}

section

variable (h : Dormant pid tids k)
include h

theorem keep (hp : (k'.procs pid).map (·.threads) = (k.procs pid).map (·.threads))
    (ht : ∀ u ∈ tids, (k'.threads u).map (·.state) = (k.threads u).map (·.state)) :
    Dormant pid tids k' where
  proc := by
    obtain ⟨p, hp0, rfl⟩ := h.proc
    rw [hp0] at hp
    obtain ⟨p', hp', hth⟩ := map_eq_some_iff.mp hp
    exact ⟨p', hp', hth⟩
  rest u hu t htu := by
    have hst := ht u hu
    rw [htu] at hst
    obtain ⟨t', ht', heq⟩ := map_eq_some_iff.mp hst.symm
    have hrest := h.rest u hu t' ht'
    rwa [heq] at hrest

theorem interruptible (hw : Woken .INTERRUPTIBLE k k') : Dormant pid tids k' := by
  refine h.keep (by rw [hw.procs]) fun u hu => ?_
  rcases hw.threads u with he | ⟨t, ht, hm, -⟩
  · rw [he]
  · rw [(h.rest u hu t ht).not_blocked] at hm
    cases hm

/-- Wake-ups that pass the threads by. -/
theorem passed (hw : Woken .NORMAL k k')
    (hk : ∀ u ∈ tids, k'.threads u = k.threads u) : Dormant pid tids k' :=
  h.keep (by rw [hw.procs]) fun u hu => by rw [hk u hu]

theorem modProc {q : ℕ} {f : Process → Process}
    (hf : ∀ p, (f p).threads = p.threads) : Dormant pid tids (k.modProc q f) := by
  refine h.keep ?_ fun u _ => rfl
  rw [modProc_procs]
  split
  · rw [Option.map_map]
    exact congrArg (Option.map · _) (funext hf)
  · rfl

theorem modPending (q : ℕ) (f : Pending → Pending) : Dormant pid tids (k.modPending q f) := by
  exact h.modProc fun _ => rfl

theorem modThreadPending (v : ℕ) (f : Pending → Pending) :
    Dormant pid tids (k.modThreadPending v f) := by
  refine h.keep rfl fun u _ => ?_
  rw [Kernel.modThreadPending, modThread_threads]
  split
  · rw [Option.map_map]; rfl
  · rfl

end

end Dormant

/-- The parent's wait queue holds no thread of the process. -/
def Apart (k : Kernel) (pid : ℕ) (tids : List ℕ) : Prop :=
  ∀ p, k.procs pid = some p → ∀ e ∈ k.queues (.children p.parentPid), e.task ∉ tids

theorem notifyParent_keep (h : Apart k pid tids)
    (hu : u ∈ tids) : (notifyParent k pid).threads u = k.threads u := by
  unfold notifyParent
  split
  · rfl
  · next p hp =>
    split
    · rfl
    · apply wakeUp_keep
      intro e he heq
      exact absurd (heq ▸ hu) (h p hp e he)

theorem stopThreads_threads {which : ThreadState → Bool} (hw : which .STOPPED = false) (k : Kernel)
    (tids : List ℕ) (u : ℕ) : (stopThreads k which tids).threads u =
      if u ∈ tids then (k.threads u).map fun t =>
        if which t.state then { t with state := .STOPPED } else t
      else k.threads u := by
  refine foldl_threads (fun _ _ => rfl) (fun t => ?_) tids k u
  by_cases h : which t.state <;> simp [h, hw]

theorem stopThreads_frame (which : ThreadState → Bool) (k : Kernel) (tids : List ℕ) :
    (stopThreads k which tids).procs = k.procs ∧ (stopThreads k which tids).queues = k.queues := by
  unfold stopThreads
  induction tids generalizing k with
  | nil => exact ⟨rfl, rfl⟩
  | cons u tids ih =>
    rw [foldl_cons, (ih _).1, (ih _).2]
    exact ⟨rfl, rfl⟩

variable {p : Process}

/-- **A default stop signal stops the process**, whatever its threads were doing. -/
theorem dormant_killStop (hp : k.procs pid = some p)
    (hapart : Apart k pid p.threads) : Dormant pid p.threads (killStop k pid sig p) := by
  set k1 := (stopThreads k (fun st =>
    st = .RUNNING ∨ st = .RUNNABLE ∨ st = .BLOCKED) p.threads).modProc pid fun p =>
      { p with stopSignal := sig, wasContinued := false } with hk1
  have hproc : k1.procs pid = some { p with stopSignal := sig, wasContinued := false } := by
    rw [modProc_self, (stopThreads_frame ..).1, hp]; rfl
  have hdorm : Dormant pid p.threads k1 := by
    refine ⟨⟨_, hproc, rfl⟩, fun u hu t ht => ?_⟩
    rw [modProc_threads, stopThreads_threads (by decide), if_pos hu] at ht
    obtain ⟨t', -, rfl⟩ := map_eq_some_iff.mp ht
    cases hst : t'.state <;> simp [Resting, hst]
  have hapart1 : Apart k1 pid p.threads := by
    intro p' hp' e he
    obtain rfl := mem_unique hproc hp'
    rw [modProc_queues, (stopThreads_frame ..).2] at he
    exact hapart p hp e he
  exact hdorm.passed (woken_notifyParent ..) fun u hu => notifyParent_keep hapart1 hu

namespace Dormant

variable {pid : ℕ} {tids : List ℕ} {k : Kernel}

section

variable (h : Dormant pid tids k)
include h

theorem killFatal (cur sig : ℕ) {p : Process} (hp : k.procs pid = some p) :
    Dormant pid tids (killFatal k cur pid sig p) := by
  obtain ⟨p0, hp0, hth⟩ := h.proc
  obtain rfl := mem_unique hp hp0
  unfold Proc.killFatal
  split
  · exact (h.modPending pid _).interruptible (wakeBlocked_woken ..)
  dsimp only
  have h1 : Dormant pid tids (k.modProc pid fun p => { p with exitSignal := sig }) :=
    h.modProc fun _ => rfl
  split
  · next hself =>
    -- the process ends: its threads are dead
    simp only [doExitGroup, hself]
    have hp1 : ((k.modProc pid fun p => { p with exitSignal := sig }).setState cur
        .DEAD).procs pid = some { p with exitSignal := sig } := by
      rw [setState, modThread_procs, modProc_self, hp]; rfl
    obtain ⟨p', hp', -, -, -, hth'⟩ := exitKillProcess_zombie cur (128 + sig) hp1
    refine ⟨⟨p', hp', hth'.trans hth⟩, fun u hu t ht => .inr (.inl ?_)⟩
    exact exitKillProcess_threads hp1 (dead_setState _ cur) (by simpa [hth] using hu) t ht
  · exact (h1.modPending pid _).interruptible (Woken.foldl woken_signalWakeUp _ _)

theorem killOne (cur sig : ℕ) (hcont : sig ≠ SIGCONT)
    (hapart : Apart k pid tids) : Dormant pid tids (killOne k cur pid sig).2 := by
  obtain ⟨p, hp, rfl⟩ := h.proc
  simp only [Proc.killOne, hp]
  split
  · exact h
  split
  · exact h
  split
  · cases hact : defaultAction sig with
    | ignore =>
      dsimp only
      split
      · exact (h.modPending pid _).interruptible (wakeBlocked_woken ..)
      · exact h
    | stop => exact dormant_killStop hp hapart
    | cont =>
      exfalso
      unfold defaultAction at hact
      split_ifs at hact
    | fatal => exact h.killFatal cur sig hp
  · exact (h.modPending pid _).interruptible (Woken.foldl (woken_wakeOpen sig) _ _)

theorem doTgkill (cur : ℕ) (tid sig : ℤ) (hcont : sig ≠ SIGCONT)
    (hapart : Apart k pid tids) : Dormant pid tids (doTgkill k cur pid tid sig).2 := by
  rcases doTgkill_cases k cur pid tid sig with ⟨-, hk⟩ | ⟨p, t, -, -, -, -, hsig, -, hk⟩
  · rwa [hk]
  have hkill : Dormant pid tids (Proc.killOne k cur pid sig.toNat).2 :=
    h.killOne cur _ (by omega) hapart
  rw [hk, tgkillThread]
  split
  · exact h
  split
  · split
    · split
      · exact (h.modThreadPending _ _).interruptible (wakeBlocked_woken ..)
      · exact h
    · exact hkill
    · exact hkill
    · split
      · dsimp only
        exact h.modThreadPending _ _
      · exact hkill
  · dsimp only
    split
    · exact h.modThreadPending _ _
    · exact (h.modThreadPending _ _).interruptible (woken_signalWakeUp ..)

theorem schedule : Dormant pid tids (schedule k) := by
  have hloop : ∀ n k, Dormant pid tids k → Dormant pid tids (pickNext n k).2 ∧
      ∀ tid, (pickNext n k).1 = some tid → eligible (pickNext n k).2 tid := by
    intro n
    induction n with
    | zero => exact fun k hk => ⟨hk, fun tid ht => by cases ht⟩
    | succ n ih =>
      intro k hk
      have hpick : Dormant pid tids (schedPick k).2 := by
        unfold schedPick
        split
        · exact hk
        · exact hk.keep rfl fun _ _ => rfl
      simp only [pickNext]
      split
      · next k' he =>
        rw [he] at hpick
        exact ⟨hpick, fun tid ht => by cases ht⟩
      · next tid k' he =>
        rw [he] at hpick
        split
        · next hel =>
          refine ⟨hpick, fun tid' ht => ?_⟩
          obtain rfl := some.inj ht
          exact hel
        · apply ih
          split
          · unfold threadFree
            split
            · exact hpick
            · refine ⟨hpick.proc, fun u hu t ht => ?_⟩
              by_cases hut : u = tid
              · subst hut; simp at ht
              · exact hpick.rest u hu t (by simpa [hut] using ht)
          · exact hpick
  obtain ⟨hdorm, hel⟩ := hloop (rqLength k) k h
  unfold Proc.schedule
  split
  · next k' he => rwa [he] at hdorm
  next tid k' he =>
  rw [he] at hdorm hel
  have hne : tid ∉ tids := by
    intro hmem
    have helig := hel tid rfl
    simp only [eligible, Option.any_eq_true, Bool.and_eq_true, decide_eq_true_eq] at helig
    obtain ⟨t, ht, ⟨hd, hf, hs⟩, -⟩ := helig
    rcases hdorm.rest tid hmem t ht with h | h | h
    · exact hs h
    · exact hd h
    · exact hf h
  refine hdorm.keep rfl fun u hu => ?_
  rw [setState, modThread_ne]
  rintro rfl
  exact hne hu

theorem finishSwitch (prev : ℕ) : Dormant pid tids (finishSwitch k prev) := by
  unfold Proc.finishSwitch
  split
  · next hrun =>
    simp only [Option.any_eq_true, decide_eq_true_eq] at hrun
    obtain ⟨t, ht, hst⟩ := hrun
    refine h.keep (by rw [(schedAdd_frame ..).1]) fun u hu => ?_
    rw [schedAdd_threads, setState, modThread_ne]
    rintro rfl
    rcases h.rest u hu t ht with hr | hr | hr <;> rw [hst] at hr <;> cases hr
  · exact h

end

end Dormant

/-! ## Runs of a stopped process -/

/-- What can happen while the process `pid` is stopped. -/
inductive JobOp where
  | wakeUp (q : WqHead)
  | wakeUpAll (q : WqHead)
  | wakeUpNr (q : WqHead) (n : ℕ)
  | wakeUpInterruptible (q : WqHead)
  /-- A timer of the thread fires: `sched_wake`. -/
  | timer (tid : ℕ)
  /-- A signal for the process. -/
  | kill (cur sig : ℕ)
  /-- A signal for one of its threads. -/
  | tgkill (cur : ℕ) (tid sig : ℤ)
  | schedule
  | finishSwitch (prev : ℕ)
  /-- A thread that is on a processor begins to wait, or ends it. -/
  | prepareToWait (q : WqHead) (tid : ℕ) (exclusive : Bool)
  | finishWait (q : WqHead) (tid : ℕ)
  /-- Anything else, by other processes. -/
  | elsewhere (k : Kernel)

/-- The state after an event. -/
def jobNext (pid : ℕ) (k : Kernel) : JobOp → Kernel
  | .wakeUp q => wakeUp k q
  | .wakeUpAll q => wakeUpAll k q
  | .wakeUpNr q n => wakeUpNr k q n
  | .wakeUpInterruptible q => wakeUpInterruptible k q
  | .timer tid => schedWake k tid
  | .kill cur sig => (killOne k cur pid sig).2
  | .tgkill cur tid sig => (doTgkill k cur pid tid sig).2
  | .schedule => schedule k
  | .finishSwitch prev => finishSwitch k prev
  | .prepareToWait q tid exclusive => prepareToWait k q tid exclusive
  | .finishWait q tid => finishWait k q tid
  | .elsewhere k' => k'

/-- The condition on an event: no wake-up that covers stopped threads and no timer meets a
stopped thread of the process; neither `SIGCONT` nor `SIGKILL` is sent; no thread of it was
left on a processor to go on; and what others do does not touch its threads. -/
def JobOk (pid : ℕ) (tids : List ℕ) (k : Kernel) : JobOp → Prop
  | .wakeUp q | .wakeUpAll q | .wakeUpNr q _ =>
    ∀ e ∈ k.queues q, e.task ∈ tids → threadIn k .STOPPED e.task = false
  | .timer tid => tid ∈ tids → threadIn k .STOPPED tid = false
  | .kill _ sig => sig ≠ SIGCONT ∧ sig ≠ SIGKILL ∧ Apart k pid tids
  | .tgkill _ _ sig => sig ≠ SIGCONT ∧ sig ≠ SIGKILL ∧ Apart k pid tids
  | .prepareToWait _ tid _ | .finishWait _ tid => tid ∉ tids
  | .elsewhere k' => (k'.procs pid).map (·.threads) = (k.procs pid).map (·.threads) ∧
    ∀ u ∈ tids, (k'.threads u).map (·.state) = (k.threads u).map (·.state)
  | _ => True

section

variable {pid : ℕ} {tids : List ℕ} {k : Kernel}

/-- A thread at rest that is not stopped is not covered by a wake-up. -/
theorem Dormant.not_covers (h : Dormant pid tids k)
    (hu : u ∈ tids) (hs : threadIn k .STOPPED u = false) {t : Thread} (ht : k.threads u = some t) :
    WakeMask.NORMAL.covers t.state = false := by
  have hne : t.state ≠ .STOPPED := by simpa [threadIn, ht] using hs
  rcases h.rest u hu t ht with hr | hr | hr
  · exact absurd hr hne
  · rw [hr]; rfl
  · rw [hr]; rfl

/-- **Step.**  An event that meets the condition leaves the process at rest. -/
theorem Dormant.next (h : Dormant pid tids k) {op : JobOp}
    (hok : JobOk pid tids k op) : Dormant pid tids (jobNext pid k op) := by
  have hpass : ∀ q, (∀ e ∈ k.queues q, e.task ∈ tids → threadIn k .STOPPED e.task = false) →
      ∀ u ∈ tids, Passes .NORMAL k (k.queues q) u := by
    intro q hq u hu e he heq t ht
    subst heq
    exact h.not_covers hu (hq e he hu) ht
  cases op with
  | wakeUp q => exact h.passed (woken_wakeUp ..) fun u hu => wakeUp_keep (hpass q hok u hu)
  | wakeUpAll q => exact h.passed (woken_wakeUpAll ..) fun u hu => wakeUpAll_keep (hpass q hok u hu)
  | wakeUpNr q n =>
    exact h.passed (woken_wakeUpNr ..) fun u hu => wakeUpNr_keep (hpass q hok u hu)
  | wakeUpInterruptible q => exact h.interruptible (woken_wakeUpInterruptible ..)
  | timer tid =>
    refine h.passed (woken_schedWake ..) fun u hu => tryToWakeUp_keep fun heq t ht => ?_
    subst heq
    exact h.not_covers hu (hok hu) ht
  | kill cur sig => exact h.killOne cur sig hok.1 hok.2.2
  | tgkill cur tid sig => exact h.doTgkill cur tid sig hok.1 hok.2.2
  | schedule => exact h.schedule
  | finishSwitch prev => exact h.finishSwitch prev
  | prepareToWait | finishWait =>
    refine h.keep rfl fun u hu => congrArg _ (modThread_ne ?_)
    rintro rfl
    exact hok hu
  | elsewhere k' => exact h.keep hok.1 hok.2

/-! ## Continuing -/

theorem threadIn_iff {k : Kernel} :
    threadIn k st u = true ↔ ∃ t, k.threads u = some t ∧ t.state = st := by
  simp [threadIn, Option.any_eq_true]

theorem Dormant.not_in (h : Dormant pid tids k)
    (hu : u ∈ tids) (hst : ¬Resting st) : threadIn k st u = false := by
  by_contra hin
  rw [Bool.not_eq_false] at hin
  obtain ⟨t, ht, rfl⟩ := threadIn_iff.mp hin
  exact hst (h.rest u hu t ht)

end

/-- Every stopped thread of the list is runnable afterwards. -/
def Resumes (k k' : Kernel) (tids : List ℕ) : Prop :=
  ∀ u ∈ tids, threadIn k .STOPPED u = true → threadIn k' .RUNNABLE u = true

/-- A signal that wakes nobody but sleepers resumes nothing. -/
theorem resumes_iff_of_interruptible
    (h : ∀ u, k'.threads u = k.threads u ∨ ∃ t, k.threads u = some t ∧
      WakeMask.INTERRUPTIBLE.covers t.state ∧ k'.threads u = some { t with state := .RUNNABLE }) :
    Resumes k k' tids ↔ ∀ u ∈ tids, threadIn k .STOPPED u = false := by
  constructor
  · intro hr u hu
    by_contra hs
    rw [Bool.not_eq_false] at hs
    obtain ⟨t', ht', hst'⟩ := threadIn_iff.mp (hr u hu hs)
    obtain ⟨t, ht, hst⟩ := threadIn_iff.mp hs
    rcases h u with he | ⟨t0, ht0, hm, -⟩
    · rw [he, ht] at ht'
      obtain rfl := some.inj ht'
      rw [hst] at hst'
      cases hst'
    · obtain rfl := mem_unique ht ht0
      rw [hst] at hm
      cases hm
  · intro hn u hu hs
    rw [hn u hu] at hs
    cases hs

theorem resumeThreads_threads (k : Kernel) (tids : List ℕ) (u : ℕ) :
    (resumeThreads k tids).threads u =
      if u ∈ tids then (k.threads u).map fun t =>
        if t.state = .STOPPED then { t with state := .RUNNABLE } else t
      else k.threads u := by
  refine foldl_threads (fun k v => ?_) (fun t => ?_) tids k u
  · funext w
    rw [modThread_threads]
    by_cases hw : w = v
    · subst hw
      by_cases hs : threadIn k .STOPPED w
      · obtain ⟨t, ht, hst⟩ := threadIn_iff.mp hs
        simp [hs, schedAdd_threads, setState, ht, hst]
      · rw [if_neg hs, if_pos rfl]
        cases ht : k.threads w with
        | none => rfl
        | some t =>
          have hst : t.state ≠ .STOPPED := by simpa [threadIn, ht] using hs
          simp [hst]
    · split
      · rw [schedAdd_threads, setState, modThread_ne hw]
      · rfl
  · by_cases h : t.state = .STOPPED <;> simp [h]

theorem resumes_killCont (k : Kernel) (pid : ℕ) (p : Process) :
    Resumes k (killCont k pid p) p.threads := by
  intro u hu hs
  obtain ⟨t, ht, hst⟩ := threadIn_iff.mp hs
  have hany : p.threads.any (threadIn (k.modPending pid fun q =>
      { q with set := q.set &&& ~~~stopBits }) .STOPPED) = true :=
    List.any_eq_true.mpr ⟨u, hu, hs⟩
  simp only [killCont, hany, if_true]
  refine threadIn_iff.mpr ⟨{ t with state := .RUNNABLE }, ?_, rfl⟩
  refine (woken_notifyParent _ pid).roused.keep ?_ rfl
  rw [resumeThreads_threads, if_pos hu]
  change (k.threads u).map _ = _
  rw [ht, map_some, if_pos hst]

/-- **`SIGCONT` resumes a process exactly if it has the default disposition**, or if
nothing is stopped. -/
theorem sigcont_resumes_iff (cur : ℕ) (hp : k.procs pid = some p) (halive : p.state = .ALIVE) :
    Resumes k (killOne k cur pid SIGCONT).2 p.threads ↔
      (p.sigActions SIGCONT).handler = SIG_DFL ∨
        ∀ u ∈ p.threads, threadIn k .STOPPED u = false := by
  simp only [killOne, hp, halive, ne_eq, not_true_eq_false, if_false]
  split
  · next hign =>
    rw [resumes_iff_of_interruptible fun u => .inl rfl]
    simp [hign]
  · split
    · next hdfl =>
      have hact : defaultAction SIGCONT = .cont := by decide
      simp only [hact, hdfl, true_or, iff_true]
      exact resumes_killCont k pid p
    · next hdfl =>
      simp only [hdfl, false_or]
      exact resumes_iff_of_interruptible (Woken.foldl (woken_wakeOpen SIGCONT) _ _).threads

/-! ## Killing -/

/-- The process has a thread that is going to run, or it has ended. -/
def CanRun (k : Kernel) (pid : ℕ) (tids : List ℕ) : Prop :=
  (∃ u ∈ tids, threadIn k .RUNNABLE u = true ∨ threadIn k .RUNNING u = true) ∨
    ∃ p, k.procs pid = some p ∧ p.state = .ZOMBIE

/-- The threads after a signal for all of them: the blocked ones are runnable. -/
theorem canRun_signalled {f : Pending → Pending}
    (hp : k.procs pid = some p) (halive : p.state = .ALIVE) :
    CanRun (p.threads.foldl signalWakeUp
        ((k.modProc pid fun p => { p with exitSignal := sig }).modPending pid f)) pid p.threads ↔
      ∃ u ∈ p.threads, threadIn k .RUNNABLE u = true ∨ threadIn k .RUNNING u = true ∨
        threadIn k .BLOCKED u = true := by
  set k' := p.threads.foldl signalWakeUp
    ((k.modProc pid fun p => { p with exitSignal := sig }).modPending pid f) with hk'
  have hthreads : ∀ u ∈ p.threads, k'.threads u =
      (k.threads u).map (rouse .INTERRUPTIBLE) := by
    intro u hu
    rw [foldl_threads signalWakeUp_threads (rouse_rouse _), if_pos hu]
    rfl
  have hproc : k'.procs pid = some { p with exitSignal := sig, pending := f p.pending } := by
    rw [foldl_procs fun k v => (woken_signalWakeUp k v).procs, Kernel.modPending, modProc_self,
      modProc_self, hp]
    rfl
  constructor
  · rintro (⟨u, hu, hrun⟩ | ⟨p', hp', hz⟩)
    · refine ⟨u, hu, ?_⟩
      have hst : ∃ t, k.threads u = some t ∧
          ((rouse .INTERRUPTIBLE t).state = .RUNNABLE ∨
            (rouse .INTERRUPTIBLE t).state = .RUNNING) := by
        simp only [threadIn_iff, hthreads u hu, map_eq_some_iff] at hrun
        rcases hrun with ⟨_, ⟨t, ht, rfl⟩, hs⟩ | ⟨_, ⟨t, ht, rfl⟩, hs⟩
        · exact ⟨t, ht, .inl hs⟩
        · exact ⟨t, ht, .inr hs⟩
      obtain ⟨t, ht, hs⟩ := hst
      simp only [threadIn_iff, ht, some.injEq, exists_eq_left']
      cases hb : t.state <;> simp_all [rouse, WakeMask.covers]
    · obtain rfl := mem_unique hproc hp'
      rw [halive] at hz
      cases hz
  · rintro ⟨u, hu, hrun⟩
    refine .inl ⟨u, hu, ?_⟩
    simp only [threadIn_iff, hthreads u hu, map_eq_some_iff] at hrun ⊢
    rcases hrun with ⟨t, ht, hs⟩ | ⟨t, ht, hs⟩ | ⟨t, ht, hs⟩
    · exact .inl ⟨_, ⟨t, ht, rfl⟩, by simp [rouse, WakeMask.covers, hs]⟩
    · exact .inr ⟨_, ⟨t, ht, rfl⟩, by simp [rouse, WakeMask.covers, hs]⟩
    · exact .inl ⟨_, ⟨t, ht, rfl⟩, by simp [rouse, WakeMask.covers, hs]⟩

/-- **`SIGKILL` sets a process running exactly if** the process sends it to itself or one of
its threads is not stopped. -/
theorem sigkill_runs_iff (hunc : Uncatchable k) (cur : ℕ)
    (hp : k.procs pid = some p) (halive : p.state = .ALIVE) :
    CanRun (killOne k cur pid SIGKILL).2 pid p.threads ↔
      (procOf k cur = some pid ∧ p.threads ≠ []) ∨
        ∃ u ∈ p.threads, threadIn k .RUNNABLE u = true ∨ threadIn k .RUNNING u = true ∨
          threadIn k .BLOCKED u = true := by
  have hdfl : (p.sigActions SIGKILL).handler = SIG_DFL := (hunc.actions pid p hp).1
  have hopen : ∀ u, threadBlocks k SIGKILL u = false := by
    intro u
    unfold threadBlocks
    cases ht : k.threads u with
    | none => rfl
    | some t => exact (hunc.blocked u t ht).1
  have hfatal : defaultAction SIGKILL = .fatal := by decide
  simp only [killOne, hp, halive, hdfl, hfatal, ne_eq, not_true_eq_false, if_false, if_true,
    show ¬(SIG_DFL = SIG_IGN) from by decide, killFatal]
  cases hth : p.threads with
  | nil =>
    -- a process without threads has nothing to run
    simp only [all_nil, if_true, wakeBlocked, foldl_nil, not_mem_nil, false_and,
      exists_false, not_true_eq_false, and_false, or_false, CanRun, false_or, iff_false,
      Kernel.modPending, modProc_self, hp]
    rintro ⟨p', hp', hz⟩
    obtain rfl := some.inj hp'
    rw [halive] at hz
    cases hz
  | cons v vs =>
    have hall : ((v :: vs).all (threadBlocks k SIGKILL)) = false := by simp [hopen]
    rw [← hth] at hall ⊢
    simp only [hall, Bool.false_eq_true, if_false]
    have hcur : procOf (k.modProc pid fun p => { p with exitSignal := SIGKILL }) cur =
        procOf k cur := rfl
    rw [hcur]
    by_cases hself : procOf k cur = some pid
    · simp only [hself, if_true, true_and]
      have hleft : CanRun (doExitGroup (k.modProc pid fun p => { p with exitSignal := SIGKILL }) cur
          (128 + SIGKILL)) pid p.threads := by
        simp only [doExitGroup, hcur, hself]
        have hp1 : ((k.modProc pid fun p => { p with exitSignal := SIGKILL }).setState cur
            .DEAD).procs pid = some { p with exitSignal := SIGKILL } := by
          rw [setState, modThread_procs, modProc_self, hp]; rfl
        obtain ⟨p', hp', hz, -⟩ := exitKillProcess_zombie cur (128 + SIGKILL) hp1
        exact .inr ⟨p', hp', hz⟩
      exact iff_of_true hleft (.inl (by simp [hth]))
    · simp only [hself, if_false, false_and, false_or]
      exact canRun_signalled hp halive

/-! ## The three parts -/

/-- **Job control.**  A process that was stopped by a default stop signal stays at rest in
every run that meets `JobOk`; `SIGCONT` resumes it exactly if its disposition is the
default or nothing is stopped; and `SIGKILL` sets it running exactly if it comes from the
process itself or finds a thread that is not stopped. -/
theorem job_control (k : Kernel) (cur pid : ℕ) (p : Process) (hp : k.procs pid = some p)
    (halive : p.state = .ALIVE) :
    (Apart k pid p.threads → ∀ sig, defaultAction sig = .stop →
      (p.sigActions sig).handler = SIG_DFL → ∀ ops,
        Along (jobNext pid) (JobOk pid p.threads) (killOne k cur pid sig).2 ops →
          ∀ u ∈ p.threads,
            threadIn (run (jobNext pid) (killOne k cur pid sig).2 ops) .RUNNABLE u = false ∧
            threadIn (run (jobNext pid) (killOne k cur pid sig).2 ops) .RUNNING u = false) ∧
    (Resumes k (killOne k cur pid SIGCONT).2 p.threads ↔
      (p.sigActions SIGCONT).handler = SIG_DFL ∨
        ∀ u ∈ p.threads, threadIn k .STOPPED u = false) ∧
    (Uncatchable k → (CanRun (killOne k cur pid SIGKILL).2 pid p.threads ↔
      (procOf k cur = some pid ∧ p.threads ≠ []) ∨
        ∃ u ∈ p.threads, threadIn k .RUNNABLE u = true ∨ threadIn k .RUNNING u = true ∨
          threadIn k .BLOCKED u = true)) := by
  refine ⟨fun hapart sig hstop hdfl ops hok u hu => ?_, sigcont_resumes_iff cur hp halive,
    fun hunc => sigkill_runs_iff hunc cur hp halive⟩
  have hkill : (killOne k cur pid sig).2 = killStop k pid sig p := by
    simp [killOne, hp, halive, hdfl, hstop, show ¬(SIG_DFL = SIG_IGN) from by decide]
  have hdorm := run_invariant (fun k op hk hop => Dormant.next hk hop)
    (hkill ▸ dormant_killStop hp hapart) hok
  exact ⟨hdorm.not_in hu (by simp [Resting]), hdorm.not_in hu (by simp [Resting])⟩

/-- Init and a child that sleeps on a wait queue and has a handler for `SIGCONT` or not. -/
def sleepyChild (contHandler : ℕ) : Kernel :=
  { bootKernel with
    procs := fun pid =>
      if pid = 1 then some (plainProcess 0 [1])
      else if pid = 2 then some { plainProcess 1 [2] with
        sigActions := fun sig => ⟨if sig = SIGCONT then contHandler else SIG_DFL, 0#64, 0, 0#64⟩ }
      else none
    threads := fun tid =>
      if tid = 1 then some (plainThread 1)
      else if tid = 2 then some { plainThread 2 with state := .BLOCKED } else none
    queues := fun q => if q = .object 5 then [⟨2, false⟩] else [] }

/-- A wake-up for somebody else, another signal and a switch leave the stopped child alone. -/
theorem job_control_calm :
    Along (jobNext 2) (JobOk 2 [2]) (killOne (sleepyChild 0) 1 2 SIGTSTP).2
      [.wakeUp (.object 6), .kill 1 10, .schedule] ∧
    threadIn (run (jobNext 2) (killOne (sleepyChild 0) 1 2 SIGTSTP).2
      [.wakeUp (.object 6), .kill 1 10, .schedule]) .RUNNABLE 2 = false := by
  have hapart : Apart (sleepyChild 0) 2 [2] := by
    intro p hp e he
    cases he
  refine ⟨?calm, (((job_control (sleepyChild 0) 1 2 _ rfl rfl).1 hapart SIGTSTP (by decide) rfl _
    ?calm) 2 (by decide)).1⟩
  refine ⟨fun e he => ?_, ⟨by decide, by decide, fun p hp e he => ?_⟩, trivial, trivial⟩
  · cases he
  · have hparent : ((jobNext 2 (killOne (sleepyChild 0) 1 2 SIGTSTP).2
        (.wakeUp (.object 6))).procs 2).map (·.parentPid) = some 1 := by decide +kernel
    rw [hp, map_some] at hparent
    rw [some.inj hparent] at he
    cases he

/-- A child that was stopped in its sleep runs again when its wait queue is woken, and so does
one that stopped itself, then sleeps and is met by a timer; with a handler for `SIGCONT` it is
not resumed by it; and `SIGKILL` leaves it stopped. -/
theorem job_control_fails :
    threadIn (wakeUp (killOne (sleepyChild 0) 1 2 SIGSTOP).2 (.object 5)) .RUNNABLE 2 = true ∧
    threadIn (run (jobNext 2) (killOne ((sleepyChild 0).setState 2 .RUNNING) 2 2 SIGSTOP).2
      [.prepareToWait (.object 5) 2 false, .timer 2]) .RUNNABLE 2 = true ∧
    ¬Resumes (killOne (sleepyChild 0x400000) 1 2 SIGSTOP).2
      (killOne (killOne (sleepyChild 0x400000) 1 2 SIGSTOP).2 1 2 SIGCONT).2 [2] ∧
    ¬CanRun (killOne (killOne (sleepyChild 0) 1 2 SIGSTOP).2 1 2 SIGKILL).2 2 [2] := by
  refine ⟨by decide +kernel, by decide +kernel, fun h => ?_, ?_⟩
  · exact absurd (h 2 (by decide) (by decide +kernel)) (by decide +kernel)
  rintro (⟨u, hu, hrun⟩ | ⟨p, hp, hz⟩)
  · obtain rfl : u = 2 := by simpa using hu
    revert hrun
    decide +kernel
  · have halive : ((killOne (killOne (sleepyChild 0) 1 2 SIGSTOP).2 1 2 SIGKILL).2.procs 2).map
        (·.state) = some .ALIVE := by decide +kernel
    rw [hp, map_some, hz] at halive
    cases halive

end CosmoRT.Proc
