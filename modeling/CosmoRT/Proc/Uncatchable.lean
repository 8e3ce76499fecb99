import CosmoRT.Proc.SigCalls

/-!
# SIGKILL and SIGSTOP cannot be blocked or caught

Eleven entry points write a signal mask or a disposition.  Nine of them strip
`SIGKILL` and `SIGSTOP`; the two that do not are

* `do_rt_sigaction`, which refuses `SIGKILL` only, and
* `do_wait4`, which blocks the exit signals of the children, whatever they are.

`Uncaught` is the invariant: also the masks that sleeping calls have put aside are
clean.  `SigOk` is the exact condition on a call, and
`kill_stop_uncatchable` says that the states of a run are all good **exactly when**
every call of the run meets it.
-/

namespace CosmoRT.Proc

open Event Lib Function Option

/-! ## The invariant -/

/-- A mask with neither of the two signals. -/
def Clean (m : SigSet) : Prop := hasSig m SIGKILL = false ∧ hasSig m SIGSTOP = false

/-- The mask a sleeping call will put back, if it has one, is clean. -/
def CallClean : Option Call → Prop
  | some (.wait4 saved _ _) => Clean saved
  | some (.epollPwait (some saved)) => Clean saved
  | _ => True

/-- Every mask of a thread is clean: the one in force and those put aside. -/
structure MaskClean (t : Thread) : Prop where
  blocked : Clean t.sigBlocked
  saved : Clean t.sigSavedMask
  call : CallClean t.call

/-- Both signals have their default disposition. -/
def ActDefault (acts : ℕ → SigAction) : Prop :=
  (acts SIGKILL).handler = SIG_DFL ∧ (acts SIGSTOP).handler = SIG_DFL

/-- No thread blocks `SIGKILL` or `SIGSTOP`, and no process catches them. -/
structure Uncatchable (k : Kernel) : Prop where
  blocked : ∀ tid t, k.threads tid = some t → Clean t.sigBlocked
  actions : ∀ pid p, k.procs pid = some p → ActDefault p.sigActions

/-- The invariant behind `Uncatchable`. -/
structure Uncaught (k : Kernel) : Prop where
  masks : ∀ tid t, k.threads tid = some t → MaskClean t
  actions : ∀ pid p, k.procs pid = some p → ActDefault p.sigActions

theorem Uncaught.uncatchable {k : Kernel} (h : Uncaught k) : Uncatchable k :=
  ⟨fun tid t ht => (h.masks tid t ht).blocked, h.actions⟩

/-! ## Clean masks -/

theorem clean_zero : Clean 0#64 := by simp [Clean]

theorem clean_maskable (m : SigSet) : Clean (m &&& maskable) := by simp [Clean]

variable {a : SigSet} {act : UserPtr SigAction} {oldact wstatus : UserPtr Unit} {size : ℕ}
  {options : BitVec 32} {op : SigOp}

theorem Clean.or {b : SigSet} (ha : Clean a) (hb : Clean b) : Clean (a ||| b) := by
  simp [Clean, ha.1, ha.2, hb.1, hb.2]

theorem Clean.and (ha : Clean a) (b : SigSet) : Clean (a &&& b) := by
  simp [Clean, ha.1, ha.2]

theorem clean_handlerMask (m : SigSet) (sa : SigAction) (sig : ℕ) : Clean (handlerMask m sa sig) :=
  clean_maskable _

theorem Clean.sigmaskHow {how : ℤ} {blocked mask m : SigSet} (hb : Clean blocked)
    (hm : Clean mask) (h : sigmaskHow how blocked mask = some m) : Clean m := by
  unfold Proc.sigmaskHow at h
  split_ifs at h
  · exact some.inj h ▸ hb.or hm
  · exact some.inj h ▸ hb.and _
  · exact some.inj h ▸ hm

/-! ## What keeps the invariant -/

namespace Uncaught

variable {k k' : Kernel} {tid pid : ℕ}

section

variable (h : Uncaught k)
include h

theorem modThread {f : Thread → Thread}
    (hf : ∀ t, k.threads tid = some t → MaskClean t → MaskClean (f t)) :
    Uncaught (k.modThread tid f) where
  actions := h.actions
  masks u t ht := by
    obtain ⟨t0, ht0, rfl⟩ := modThread_some ht
    split
    · next hu => exact hf t0 (hu ▸ ht0) (h.masks u t0 ht0)
    · exact h.masks u t0 ht0

theorem modProc {f : Process → Process}
    (hf : ∀ p, k.procs pid = some p → ActDefault p.sigActions → ActDefault (f p).sigActions) :
    Uncaught (k.modProc pid f) where
  masks := h.masks
  actions q p hp := by
    rw [modProc_procs] at hp
    split at hp
    · next hq =>
      subst hq
      obtain ⟨p0, hp0, rfl⟩ := map_eq_some_iff.mp hp
      exact hf p0 hp0 (h.actions q p0 hp0)
    · exact h.actions q p hp

theorem keepThread {f : Thread → Thread}
    (hf : ∀ t, (f t).sigBlocked = t.sigBlocked ∧ (f t).sigSavedMask = t.sigSavedMask ∧
      (f t).call = t.call) : Uncaught (k.modThread tid f) :=
  h.modThread fun t _ ht =>
    ⟨(hf t).1 ▸ ht.blocked, (hf t).2.1 ▸ ht.saved, (hf t).2.2 ▸ ht.call⟩

theorem keepProc {f : Process → Process}
    (hf : ∀ p, (f p).sigActions = p.sigActions) : Uncaught (k.modProc pid f) :=
  h.modProc fun p _ hp => (hf p).symm ▸ hp

theorem setState (st : ThreadState) : Uncaught (k.setState tid st) :=
  h.keepThread fun _ => ⟨rfl, rfl, rfl⟩

theorem leaveCall : Uncaught (leaveCall k tid) :=
  h.modThread fun _ _ ht => ⟨ht.blocked, ht.saved, trivial⟩

theorem congr (ht : k'.threads = k.threads) (hp : k'.procs = k.procs) : Uncaught k' :=
  ⟨by rw [ht]; exact h.masks, by rw [hp]; exact h.actions⟩

theorem sub (ht : ∀ u t, k'.threads u = some t → k.threads u = some t)
    (hp : ∀ q p, k'.procs q = some p → k.procs q = some p) : Uncaught k' :=
  ⟨fun u t hu => h.masks u t (ht u t hu), fun q p hq => h.actions q p (hp q p hq)⟩

end

theorem woken {mask : WakeMask} (h : Uncaught k) (hw : Woken mask k k') : Uncaught k' where
  actions := by rw [hw.procs]; exact h.actions
  masks u t ht := by
    rcases hw.threads u with he | ⟨t0, ht0, -, he⟩
    · exact h.masks u t (he ▸ ht)
    · obtain rfl := mem_unique he ht
      have := h.masks u t0 ht0
      exact ⟨this.blocked, this.saved, this.call⟩

theorem foldl {α : Type} {f : Kernel → α → Kernel} (hf : ∀ k a, Uncaught k → Uncaught (f k a))
    (l : List α) (h : Uncaught k) : Uncaught (l.foldl f k) := by
  induction l generalizing k with
  | nil => exact h
  | cons a l ih => exact ih (hf k a h)

/-! ### Exit -/

section

variable (h : Uncaught k)
include h

theorem modPending (f : Pending → Pending) : Uncaught (k.modPending pid f) :=
  h.keepProc fun _ => rfl

theorem modThreadPending (f : Pending → Pending) : Uncaught (k.modThreadPending tid f) :=
  h.keepThread fun _ => ⟨rfl, rfl, rfl⟩

variable (sig : ℕ) (tids : List ℕ) (env : SigEnv)

theorem wakeBlocked : Uncaught (wakeBlocked k tids) := by
  refine foldl (fun k u hk => ?_) tids h
  split
  · exact hk.woken (woken_signalWakeUp k u)
  · exact hk

theorem tellParent : Uncaught (tellParent k pid sig) := by
  unfold Proc.tellParent
  split
  · exact h
  · exact ((h.modPending _).woken (woken_wakeUp ..)).wakeBlocked _

theorem closeFiles : Uncaught (closeFiles k pid) :=
  foldl (fun k u hk => hk.woken (woken_schedWake k u)) _ (h.congr rfl rfl)

theorem wakeVfork : Uncaught (wakeVfork k pid) := by
  unfold Proc.wakeVfork
  split
  · exact h
  · split
    · exact h
    · refine keepProc ?_ fun _ => rfl
      split
      · exact h
      · exact h.woken (woken_schedWake ..)

theorem killSiblings : Uncaught (killSiblings k tid tids) := by
  refine foldl (fun k u hk => ?_) tids h
  split
  · exact hk
  · exact hk.keepThread fun _ => ⟨rfl, rfl, rfl⟩

theorem reparent (i : ℕ) : Uncaught (reparent pid k i) := by
  unfold Proc.reparent
  split
  · exact h
  · split
    · have h1 : Uncaught (k.modProc i fun c => { c with parentPid := 1 }) := h.keepProc fun _ => rfl
      split
      · exact h1.tellParent _
      · exact h1
    · exact h

theorem notifyExit : Uncaught (notifyExit k pid) := by
  unfold Proc.notifyExit
  split
  · exact h
  · exact h.tellParent _

theorem exitKillProcess (status : ℕ) : Uncaught (exitKillProcess k tid pid status) := by
  refine notifyExit (foldl (fun k i hk => hk.reparent i) _ (killSiblings ?_ _))
  exact closeFiles (wakeVfork (h.keepProc fun _ => rfl))

theorem doExit (status : ℕ) : Uncaught (doExit k tid status) := by
  unfold Proc.doExit
  dsimp only
  split
  · exact h.setState _
  · split
    · exact (h.setState _).exitKillProcess _
    · exact h.setState _

theorem threadFree : Uncaught (threadFree k tid) := by
  unfold Proc.threadFree
  split
  · exact h
  · refine h.sub (fun u t ht => ?_) fun q p hq => hq
    by_cases hu : u = tid
    · subst hu; simp at ht
    · simpa [hu] using ht

theorem removeProc : Uncaught { k with procs := update k.procs pid none } := by
  refine h.sub (fun u t ht => ht) fun q p hq => ?_
  by_cases hqp : q = pid
  · subst hqp; simp at hq
  · simpa [hqp] using hq

theorem procCleanup : Uncaught (procCleanup k pid) := by
  unfold Proc.procCleanup
  split
  · exact h
  · refine removeProc (foldl (fun k u hk => ?_) _ h.closeFiles)
    split
    · exact hk.threadFree
    · exact hk

/-! ### Delivery -/

theorem takeSignal (t : Thread) : Uncaught (takeSignal k pid tid sig t) := by
  unfold Proc.takeSignal
  split
  · exact h.modThreadPending _
  · exact h.modPending _

theorem dnotifyRepend : Uncaught (k.modProc pid (Proc.dnotifyRepend · sig)) := by
  refine h.keepProc fun p => ?_
  unfold Proc.dnotifyRepend
  split <;> rfl

theorem deliverSignal (built : Bool) : Uncaught (deliverSignal k pid tid sig built) := by
  unfold Proc.deliverSignal
  split
  · exact h
  next p hp =>
  dsimp only
  split
  · exact h
  split
  · apply doExit
    exact h.keepProc fun _ => rfl
  have h1 : Uncaught (if sig = 11 ∨ sig = 7 then k
      else k.modProc pid (Proc.dnotifyRepend · sig)) := by
    split
    · exact h
    · exact h.dnotifyRepend sig
  have h2 : Uncaught (Kernel.modThread _ tid fun t =>
      { t with sigBlocked := handlerMask t.sigBlocked (p.sigActions sig) sig }) :=
    h1.modThread fun t _ ht => ⟨clean_handlerMask _ _ _, ht.saved, ht.call⟩
  split
  · -- `SA_RESETHAND` stores the default disposition
    refine h2.modProc fun q _ hq => ⟨?_, ?_⟩
    · by_cases hs : SIGKILL = sig
      · simp [← hs]
      · simpa [update_of_ne hs] using hq.1
    · by_cases hs : SIGSTOP = sig
      · simp [← hs]
      · simpa [update_of_ne hs] using hq.2
  · exact h2

theorem stopThreads (which : ThreadState → Bool) (tids : List ℕ) :
    Uncaught (stopThreads k which tids) := by
  refine foldl (fun k u hk => hk.keepThread fun t => ?_) tids h
  split <;> exact ⟨rfl, rfl, rfl⟩

theorem schedAdd : Uncaught (schedAdd k tid) := by
  have h1 : Uncaught (k.setState tid .RUNNABLE) := h.setState _
  exact h1.congr (schedAdd_threads k tid) (schedAdd_frame k tid).1

theorem preemptDeath : Uncaught (preemptDeath k pid tid sig) := by
  refine woken ?_ (woken_notifyParent _ pid)
  refine foldl (fun k u hk => ?_) _ ?_
  swap
  · exact (h.setState _).keepProc fun _ => rfl
  split
  · exact hk
  · refine hk.keepThread fun t => ?_
    split <;> exact ⟨rfl, rfl, rfl⟩

theorem deliverStop : Uncaught (deliverStop k pid tid sig) := by
  apply setState
  refine woken ?_ (woken_notifyParent _ pid)
  exact (h.stopThreads _ _).keepProc fun _ => rfl

theorem deliverCont : Uncaught (deliverCont k pid) := by
  unfold Proc.deliverCont
  dsimp only
  split
  · refine woken ?_ (woken_notifyParent _ pid)
    exact (h.woken (woken_resumeThreads ..)).keepProc fun _ => rfl
  · exact h

theorem deliverFatal (inPreempt : Bool) : Uncaught (deliverFatal k pid tid sig inPreempt) := by
  have h1 : Uncaught (k.modProc pid fun p => { p with exitSignal := sig }) :=
    h.keepProc fun _ => rfl
  unfold Proc.deliverFatal
  split
  · exact h1.preemptDeath sig
  · exact h1.doExit _

theorem actOn (sa : SigAction) : Uncaught (actOn k pid tid sig env sa).2 := by
  unfold Proc.actOn
  split
  · exact h
  · split
    · cases defaultAction sig with
      | ignore => exact h
      | stop => exact h.deliverStop sig
      | cont => exact h.deliverCont
      | fatal => exact h.deliverFatal sig _
    · exact h.deliverSignal sig _

theorem checkLoop (deliverable : SigSet) (sigs : List ℕ) :
    Uncaught (checkLoop pid tid env deliverable sigs k).2 := by
  induction sigs generalizing k with
  | nil => exact h
  | cons sig sigs ih =>
    simp only [Proc.checkLoop]
    split
    · split
      · next p t _ _ =>
        have h1 : Uncaught (Proc.takeSignal k pid tid sig t) := h.takeSignal sig t
        have h2 : Uncaught (Proc.actOn _ pid tid sig env (p.sigActions sig)).2 := h1.actOn ..
        split
        · exact ih h2
        · exact h2
      · exact h
    · exact ih h

theorem checkAlarm (nowMs : ℕ) (p : Process) : Uncaught (checkAlarm k pid tid nowMs p).2 := by
  have h1 : Uncaught (k.modProc pid fun p => { p with alarmDeadlineMs := 0 }) :=
    h.keepProc fun _ => rfl
  unfold Proc.checkAlarm
  split
  · split
    · exact h1
    · split
      · apply doExit
        exact h1.keepProc fun _ => rfl
      · dsimp only
        exact h1.modPending _
  · exact h

theorem checkPendingSignals : Uncaught (checkPendingSignals k tid env).2 := by
  unfold Proc.checkPendingSignals
  split
  · exact h
  next pid _ =>
  split
  · exact h
  next p _ =>
  have h1 : Uncaught (Proc.checkAlarm k pid tid env.nowMs p).2 := h.checkAlarm env.nowMs p
  dsimp only
  split
  · exact h1
  have h2 : Uncaught (Kernel.modThread (Proc.checkAlarm k pid tid env.nowMs p).2 tid
      leaveSigsuspend) := by
    refine h1.modThread fun t _ ht => ?_
    unfold leaveSigsuspend
    split
    · exact ⟨ht.saved, ht.saved, ht.call⟩
    · exact ht
  split
  · exact h2.checkLoop ..
  · exact h2

/-! ### The calls -/

theorem prepareToWait (q : WqHead) (ex : Bool) : Uncaught (prepareToWait k q tid ex) := by
  have h1 : Uncaught (k.setState tid .BLOCKED) := h.setState _
  exact h1.congr rfl rfl

theorem finishWait (q : WqHead) : Uncaught (finishWait k q tid) := by
  have h1 : Uncaught (k.setState tid .RUNNING) := h.setState _
  exact h1.congr rfl rfl

theorem doRtSigprocmask (how : ℤ) (set : UserPtr SigSet) (oldset : UserPtr Unit)
    (size : ℕ) : Uncaught (doRtSigprocmask k tid how set oldset size).2 := by
  unfold Proc.doRtSigprocmask
  split
  · exact h
  split
  · exact h
  next t ht =>
  split
  · exact h
  · exact h
  · exact h
  · split
    · exact h
    · next m hm =>
      refine h.modThread fun u _ hu => ⟨?_, hu.saved, hu.call⟩
      exact (h.masks tid t ht).blocked.sigmaskHow (clean_maskable _) hm

theorem doRtSigsuspend (mask : UserPtr SigSet) (size : ℕ) :
    Uncaught (doRtSigsuspend k tid mask size).2 := by
  unfold Proc.doRtSigsuspend
  split
  · exact h
  split
  · next t p mask ht _ =>
    have hold : Clean (if t.inSigsuspend then t.sigSavedMask else t.sigBlocked) := by
      split
      · exact (h.masks tid t ht).saved
      · exact (h.masks tid t ht).blocked
    dsimp only
    split
    · apply prepareToWait
      exact h.modThread fun u _ hu => ⟨clean_maskable _, hold, trivial⟩
    · exact h.modThread fun u _ hu => ⟨hold, hu.saved, hu.call⟩
  · exact h

theorem sigsuspendPass : Uncaught (sigsuspendPass k tid).2 := by
  unfold Proc.sigsuspendPass
  split
  · split
    · exact h.prepareToWait _ _
    · exact ((h.prepareToWait _ _).finishWait _).leaveCall
  · exact h

theorem doEpollPwait (mask : UserPtr SigSet) (size : ℕ) :
    Uncaught (doEpollPwait k tid mask size).2 := by
  unfold Proc.doEpollPwait
  split
  · exact h
  next t ht =>
  cases mask with
  | null => exact h.modThread fun u _ hu => ⟨hu.blocked, hu.saved, trivial⟩
  | fault => exact h
  | val mask =>
    dsimp only
    split
    · exact h
    · exact h.modThread fun u _ hu => ⟨clean_maskable _, hu.saved, (h.masks tid t ht).blocked⟩

theorem epollPwaitLeave : Uncaught (epollPwaitLeave k tid) := by
  refine h.modThread fun t _ ht => ?_
  split
  · next saved hc =>
    have hcall := ht.call
    rw [hc] at hcall
    cases saved with
    | none => exact ⟨ht.blocked, ht.saved, trivial⟩
    | some saved => exact ⟨hcall, ht.saved, trivial⟩
  · exact ht

theorem sigreturnMask (uc : Option SigSet) : Uncaught (sigreturnMask k tid uc) := by
  cases uc with
  | none => exact h
  | some m => exact h.modThread fun t _ ht => ⟨clean_maskable m, ht.saved, ht.call⟩

theorem consumeEvent (i : ℕ) (e : ChildEvent) : Uncaught (consumeEvent k i e) := by
  cases e with
  | stopped | continued => exact h.keepProc fun _ => rfl
  | exited => exact h.procCleanup

theorem waitScan (pid' : ℤ) (options : BitVec 32) : Uncaught (waitScan k pid pid' options).2 := by
  unfold Proc.waitScan
  dsimp only
  split
  · exact h.consumeEvent ..
  · split
    · exact h
    · split <;> exact h

theorem wait4Pass : Uncaught (wait4Pass k tid).2 := by
  unfold Proc.wait4Pass
  split
  · next t parent ht _ =>
    split
    · next saved pid' options hc =>
      have hs : Clean saved := by
        have := (h.masks tid t ht).call
        rwa [hc] at this
      have hleave : ∀ {k}, Uncaught k → Uncaught (wait4Leave k tid parent saved) := fun hk =>
        (hk.finishWait _).modThread fun u _ hu => ⟨hs, hu.saved, trivial⟩
      have h1 : Uncaught (Proc.waitScan (Proc.prepareToWait k (.children parent) tid false)
          parent pid' options).2 :=
        (h.prepareToWait _ _).waitScan ..
      dsimp only
      split
      · next r k' he => exact hleave (by rwa [he] at h1)
      · next k' he =>
        have h2 : Uncaught k' := by rwa [he] at h1
        split
        · exact h2
        · split
          · exact h2
          · exact hleave h2
    · exact h
  · exact h

/-! ### `clone` -/

theorem allocProc {p : Process} (hp : ActDefault p.sigActions) : Uncaught (allocProc k pid p) where
  masks := h.masks
  actions q p' hq := by
    by_cases hqp : q = pid
    · subst hqp
      obtain rfl : p = p' := by simpa [Proc.allocProc] using hq
      exact hp
    · exact h.actions q p' (by simpa [Proc.allocProc, hqp] using hq)

theorem freeChildProc : Uncaught (freeChildProc k pid) := h.closeFiles.removeProc

theorem thawSiblings : Uncaught (thawSiblings k tid tids) := by
  refine foldl (fun k u hk => ?_) tids h
  split
  · exact hk.schedAdd
  · exact hk

theorem withFiles (files : Files) : Uncaught { k with files } := h.congr rfl rfl

theorem cloneProcess {p : Process} (hp : ActDefault p.sigActions) (exitSig : ℕ)
    (flags : BitVec 64) (env : CloneEnv) :
    Uncaught (cloneProcess k tid pid p exitSig flags env).2 := by
  unfold Proc.cloneProcess
  split
  · exact h
  split
  · exact h
  next child _ =>
  have h1 : Uncaught (Proc.allocProc k child (childProcess p pid exitSig flags)) :=
    h.allocProc hp
  have h2 : Uncaught (if saHas flags CLONE_VM
      then Proc.allocProc k child (childProcess p pid exitSig flags)
      else Proc.thawSiblings (Proc.allocProc k child (childProcess p pid exitSig flags)) tid
        p.threads) := by
    split
    · exact h1
    · exact h1.thawSiblings _
  dsimp only
  split
  · exact h1.freeChildProc
  split
  · exact h2.freeChildProc
  · split
    · exact h2.freeChildProc
    · split
      · exact h2.withFiles _
      · split
        · exact (h2.withFiles _).freeChildProc
        · exact h2.withFiles _

theorem addThread {t : Thread} (ht : MaskClean t) :
    Uncaught { k with threads := update k.threads tid (some t) } where
  actions := h.actions
  masks u t' hu := by
    by_cases hut : u = tid
    · subst hut
      obtain rfl : t = t' := by simpa using hu
      exact ht
    · exact h.masks u t' (by simpa [hut] using hu)

theorem cloneThread {t : Thread} (ht : Clean t.sigBlocked) (flags : BitVec 64)
    (env : CloneEnv) : Uncaught (cloneThread k tid pid t flags env).2 := by
  unfold Proc.cloneThread
  have hfree : ∀ b : Bool, Uncaught (if b = true then k else Proc.freeChildProc k pid) := by
    intro b
    split
    · exact h
    · exact h.freeChildProc
  split
  · exact hfree _
  next ct _ =>
  split
  · exact h.procCleanup
  split
  · exact hfree _
  apply schedAdd
  have h1 : Uncaught { k with
      threads := update k.threads ct (some (childThread t pid)) } :=
    h.addThread ⟨ht, clean_zero, trivial⟩
  split
  · apply setState
    exact h1.keepProc fun _ => rfl
  · exact h1.keepProc fun _ => rfl

theorem kernelClone (flags : BitVec 64) (env : CloneEnv) :
    Uncaught (kernelClone k tid flags env).2 := by
  unfold Proc.kernelClone
  dsimp only
  split
  · exact h
  split
  · exact h
  split
  · next t pid ht _ =>
    have htc := (h.masks tid t ht).blocked
    split
    · exact h
    next p hp =>
    split
    · exact h
    split
    · exact h
    split
    · exact h.cloneThread htc flags env
    · have h1 : Uncaught (Proc.cloneProcess k tid pid p (flags &&& 0xFF#64).toNat flags
          env).2 := h.cloneProcess (h.actions pid p hp) ..
      split
      · next e k' he => rwa [he] at h1
      · next child k' he =>
        rw [he] at h1
        exact h1.cloneThread htc flags env
  · exact h

end

end Uncaught

/-! ## The two calls that do not strip the signals -/

/-- A call of `rt_sigaction` that gets as far as storing an action. -/
def SigactionStores (k : Kernel) (tid : ℕ) (sig : ℤ) (act : UserPtr SigAction)
    (oldact : UserPtr Unit) (sigsetsize : ℕ) (a : SigAction) : Prop :=
  sigsetsizeOk sigsetsize ∧ 1 ≤ sig ∧ sig < 64 ∧ sig ≠ SIGKILL ∧ oldact ≠ .fault ∧ act = .val a ∧
    ((procOf k tid).bind k.procs).isSome

/-- A call of `wait4` that gets as far as blocking the exit signals of the children of
`parent`. -/
def Wait4Blocks (k : Kernel) (tid : ℕ) (wstatus : UserPtr Unit) (options : BitVec 32)
    (parent : ℕ) : Prop :=
  procOf k tid = some parent ∧ wstatus ≠ .fault ∧ waitHas options WNOHANG = false ∧
    ∃ p, k.procs parent = some p ∧ ¬(saHas (p.sigActions SIGCHLD).flags SA_NOCLDWAIT ∧
      (p.sigActions SIGCHLD).handler = SIG_DFL)

/-- Some child of `parent` has `sig` as its exit signal. -/
def ChildNotifies (k : Kernel) (parent sig : ℕ) : Prop :=
  ∃ i ∈ pidRange k, ∃ c, k.procs i = some c ∧ c.parentPid = parent ∧ c.notifySignal = sig

variable {tid sig : ℕ} {pid : ℤ}

theorem Uncaught.doRtSigaction {k : Kernel} (h : Uncaught k) {sig : ℤ}
    (hok : ∀ a, SigactionStores k tid sig act oldact size a → sig = SIGSTOP → a.handler = SIG_DFL) :
    Uncaught (doRtSigaction k tid sig act oldact size).2 := by
  unfold Proc.doRtSigaction
  split
  · exact h
  next hsize =>
  split
  · exact h
  next hrange =>
  split
  · exact h
  next hkill =>
  split
  · exact h
  next pid hpid =>
  split
  · exact h
  · exact h
  · exact h
  · next a hold =>
    refine h.modProc fun p hp hact => ?_
    have hst : SigactionStores k tid sig (.val a) oldact size a :=
      ⟨by simpa using hsize, by omega, by omega, hkill, fun hf => hold hf, rfl,
        by simp [hpid, hp]⟩
    refine ⟨?_, ?_⟩
    · have hne : SIGKILL ≠ sig.toNat := by
        intro hs
        apply hkill
        omega
      simpa [update_of_ne hne] using hact.1
    · by_cases hs : SIGSTOP = sig.toNat
      · simpa [← hs] using hok a hst (by omega)
      · simpa [update_of_ne hs] using hact.2

/-- A stored action other than the default one for `SIGSTOP` is seen. -/
theorem SigactionStores.caught {k : Kernel} {a : SigAction}
    (hst : SigactionStores k tid SIGSTOP act oldact size a) (ha : a.handler ≠ SIG_DFL) :
    ¬Uncatchable (doRtSigaction k tid SIGSTOP act oldact size).2 := by
  obtain ⟨hsize, -, -, -, hold, rfl, hsome⟩ := hst
  intro hu
  obtain ⟨p, hp⟩ := isSome_iff_exists.mp hsome
  obtain ⟨pid, hpid, hp⟩ := bind_eq_some_iff.mp hp
  refine ha ?_
  have hk : (Proc.doRtSigaction k tid SIGSTOP (.val a) oldact size).2 =
      k.modProc pid fun p => { p with sigActions := update p.sigActions SIGSTOP a } := by
    cases oldact with
    | fault => exact absurd rfl hold
    | null | val => simp [Proc.doRtSigaction, hsize, hpid]
  have := (hu.actions pid { p with sigActions := update p.sigActions SIGSTOP a }
    (by rw [hk, modProc_self, hp]; rfl)).2
  simpa using this

variable (k : Kernel) (parent : ℕ)

/-- The loop of `do_wait4` over the children collects exactly their exit signals. -/
theorem hasSig_waitBlock_loop (h1 : 1 ≤ sig) (h63 : sig ≤ 63) (l : List ℕ) (m : SigSet) :
    hasSig (l.foldl (addNotify k parent) m) sig = true ↔
      hasSig m sig = true ∨
        ∃ i ∈ l, ∃ c, k.procs i = some c ∧ c.parentPid = parent ∧ c.notifySignal = sig := by
  induction l generalizing m with
  | nil => simp
  | cons i l ih =>
    rw [List.foldl_cons, ih, addNotify]
    cases hi : k.procs i with
    | none => simp [hi]
    | some c =>
      by_cases hc : c.parentPid = parent ∧ 0 < c.notifySignal ∧ c.notifySignal ≤ 63
      · simp only [hc, and_self, if_true, hasSig_or, Bool.or_eq_true,
          hasSig_sigBit hc.2.1 h1 (by omega : sig ≤ 64), decide_eq_true_eq, List.mem_cons,
          exists_eq_or_imp, hi, some.injEq]
        constructor
        · rintro ((hm | hs) | hl)
          · exact .inl hm
          · exact .inr (.inl ⟨c, rfl, hc.1, hs.symm⟩)
          · exact .inr (.inr hl)
        · rintro (hm | ⟨c', rfl, -, hs⟩ | hl)
          · exact .inl (.inl hm)
          · exact .inl (.inr hs.symm)
          · exact .inr hl
      · have hno : ¬(c.parentPid = parent ∧ c.notifySignal = sig) := by
          rintro ⟨hp, hs⟩
          exact hc ⟨hp, by omega, by omega⟩
        simp only [if_neg hc, List.mem_cons, exists_eq_or_imp, hi, some.injEq]
        constructor
        · rintro (hm | hl)
          · exact .inl hm
          · exact .inr (.inr hl)
        · rintro (hm | ⟨c', rfl, hs⟩ | hl)
          · exact .inl hm
          · exact absurd hs hno
          · exact .inr hl

theorem hasSig_waitBlock (h1 : 1 ≤ sig) (h63 : sig ≤ 63) (hs : sig ≠ SIGCHLD)
    : hasSig (waitBlock k parent) sig = true ↔ ChildNotifies k parent sig := by
  rw [waitBlock, hasSig_waitBlock_loop k parent h1 h63,
    hasSig_sigBit (by decide) h1 (by omega : sig ≤ 64)]
  simp [hs, ChildNotifies]

/-- The wait mask is clean exactly when no child has one of the two as its exit signal. -/
theorem clean_waitBlock_iff :
    Clean (waitBlock k parent) ↔
      ¬ChildNotifies k parent SIGKILL ∧ ¬ChildNotifies k parent SIGSTOP := by
  rw [← hasSig_waitBlock k parent (by decide) (by decide) (by decide : SIGKILL ≠ SIGCHLD),
    ← hasSig_waitBlock k parent (by decide) (by decide) (by decide : SIGSTOP ≠ SIGCHLD)]
  simp [Clean]

theorem Uncaught.doWait4 {k : Kernel} (h : Uncaught k)
    (hok : ∀ parent, Wait4Blocks k tid wstatus options parent → Clean (waitBlock k parent)) :
    Uncaught (doWait4 k tid pid wstatus options).2 := by
  unfold Proc.doWait4
  split
  · next t parent ht hpar =>
    split
    · exact h
    next p hp =>
    split
    · refine foldl (fun k i hk => ?_) _ h
      split
      · exact hk.procCleanup
      · exact hk
    · next hauto =>
      split
      · exact h
      next hst =>
      split
      · have h1 : Uncaught (Proc.waitScan k parent pid options).2 := h.waitScan ..
        split
        · next he => rwa [he] at h1
        · next he => rwa [he] at h1
      · next hnh =>
        have hclean := hok parent ⟨hpar, hst, by simpa using hnh, p, hp, hauto⟩
        have htc := (h.masks tid t ht).blocked
        apply prepareToWait
        exact h.modThread fun u _ hu => ⟨htc.or hclean, hu.saved, htc⟩
  · exact h

/-- A blocking `wait4` puts its mask in force. -/
theorem Wait4Blocks.blocked {k : Kernel} {parent : ℕ}
    (hb : Wait4Blocks k tid wstatus options parent)
    (hu : Uncatchable (doWait4 k tid pid wstatus options).2) : Clean (waitBlock k parent) := by
  obtain ⟨hpar, hst, hnh, p, hp, hauto⟩ := hb
  obtain ⟨t, ht, -⟩ := bind_eq_some_iff.mp hpar
  have hnew : (Proc.doWait4 k tid pid wstatus options).2.threads tid = some
      { t with state := .BLOCKED, sigBlocked := t.sigBlocked ||| waitBlock k parent,
               call := some (.wait4 t.sigBlocked pid options) } := by
    simp [Proc.doWait4, ht, hpar, hp, hauto, hst, hnh, prepareToWait, Kernel.setState]
  have hclean := hu.blocked tid _ hnew
  simp only [Clean, hasSig_or, Bool.or_eq_false_iff] at hclean
  exact ⟨hclean.1.2, hclean.2.2⟩

/-! ## Runs -/

/-- The calls that write masks and dispositions. -/
inductive SigOp where
  | rtSigaction (tid : ℕ) (sig : ℤ) (act : UserPtr SigAction) (oldact : UserPtr Unit) (size : ℕ)
  | rtSigprocmask (tid : ℕ) (how : ℤ) (set : UserPtr SigSet) (oldset : UserPtr Unit) (size : ℕ)
  | rtSigsuspend (tid : ℕ) (mask : UserPtr SigSet) (size : ℕ)
  | sigsuspendPass (tid : ℕ)
  | epollPwait (tid : ℕ) (mask : UserPtr SigSet) (size : ℕ)
  | epollPwaitLeave (tid : ℕ)
  | deliverSignal (pid tid sig : ℕ) (built : Bool)
  | checkPendingSignals (tid : ℕ) (env : SigEnv)
  | rtSigreturn (tid : ℕ) (uc : Option SigSet)
  | clone (tid : ℕ) (flags : BitVec 64) (env : CloneEnv)
  | wait4 (tid : ℕ) (pid : ℤ) (wstatus : UserPtr Unit) (options : BitVec 32)
  | wait4Pass (tid : ℕ)

/-- The state after a call. -/
def sigNext (k : Kernel) : SigOp → Kernel
  | .rtSigaction tid sig act oldact size => (doRtSigaction k tid sig act oldact size).2
  | .rtSigprocmask tid how set oldset size => (doRtSigprocmask k tid how set oldset size).2
  | .rtSigsuspend tid mask size => (doRtSigsuspend k tid mask size).2
  | .sigsuspendPass tid => (sigsuspendPass k tid).2
  | .epollPwait tid mask size => (doEpollPwait k tid mask size).2
  | .epollPwaitLeave tid => epollPwaitLeave k tid
  | .deliverSignal pid tid sig built => deliverSignal k pid tid sig built
  | .checkPendingSignals tid env => (checkPendingSignals k tid env).2
  | .rtSigreturn tid uc => sigreturnMask k tid uc
  | .clone tid flags env => (kernelClone k tid flags env).2
  | .wait4 tid pid wstatus options => (doWait4 k tid pid wstatus options).2
  | .wait4Pass tid => (wait4Pass k tid).2

/-- The condition on a call: `rt_sigaction` stores no handler for `SIGSTOP`, and no child
of a blocking `wait4` has `SIGKILL` or `SIGSTOP` as its exit signal. -/
def SigOk (k : Kernel) : SigOp → Prop
  | .rtSigaction tid sig act oldact size =>
    ∀ a, SigactionStores k tid sig act oldact size a → sig = SIGSTOP → a.handler = SIG_DFL
  | .wait4 tid _ wstatus options =>
    ∀ parent, Wait4Blocks k tid wstatus options parent →
      ¬ChildNotifies k parent SIGKILL ∧ ¬ChildNotifies k parent SIGSTOP
  | _ => True

/-- **Step.**  A call that meets the condition keeps the invariant. -/
theorem Uncaught.next {k : Kernel} (h : Uncaught k) (hok : SigOk k op) :
    Uncaught (sigNext k op) := by
  cases op with
  | rtSigaction tid sig act oldact size => exact h.doRtSigaction hok
  | rtSigprocmask tid how set oldset size => exact h.doRtSigprocmask ..
  | rtSigsuspend tid mask size => exact h.doRtSigsuspend ..
  | sigsuspendPass tid => exact h.sigsuspendPass
  | epollPwait tid mask size => exact h.doEpollPwait ..
  | epollPwaitLeave tid => exact h.epollPwaitLeave
  | deliverSignal pid tid sig built => exact h.deliverSignal ..
  | checkPendingSignals tid env => exact h.checkPendingSignals _
  | rtSigreturn tid uc => exact h.sigreturnMask _
  | clone tid flags env => exact h.kernelClone ..
  | wait4 tid pid wstatus options =>
    exact h.doWait4 fun parent hb => (clean_waitBlock_iff k parent).mpr (hok parent hb)
  | wait4Pass tid => exact h.wait4Pass

/-- A call that does not meet the condition leaves a state that is not good. -/
theorem sigOk_of_uncatchable {k : Kernel} (h : Uncatchable (sigNext k op)) : SigOk k op := by
  cases op with
  | rtSigaction tid sig act oldact size =>
    rintro a hst rfl
    by_contra ha
    exact hst.caught ha h
  | wait4 tid pid wstatus options =>
    intro parent hb
    exact (clean_waitBlock_iff k parent).mp (hb.blocked h)
  | _ => trivial

/-- **SIGKILL and SIGSTOP stay unblocked and uncaught exactly as long as** no call of
`rt_sigaction` stores a handler for `SIGSTOP` and no `wait4` sleeps with a child whose
exit signal is one of the two. -/
theorem kill_stop_uncatchable (k : Kernel) (h : Uncaught k) (ops : List SigOp) :
    (∀ n, Uncatchable (run sigNext k (ops.take n))) ↔ Along sigNext SigOk k ops :=
  (along_iff_forall_take (fun _ hk => hk.uncatchable) (fun _ _ hk hok => hk.next hok)
    (fun _ _ _ hg => sigOk_of_uncatchable hg) h).symm

theorem uncaught_bootKernel : Uncaught bootKernel where
  masks tid t ht := by
    simp only [bootKernel, ite_none_right_eq_some, some.injEq] at ht
    obtain ⟨-, rfl⟩ := ht
    exact ⟨clean_zero, clean_zero, trivial⟩
  actions pid p hp := by
    simp only [bootKernel, ite_none_right_eq_some, some.injEq] at hp
    obtain ⟨-, rfl⟩ := hp
    exact ⟨rfl, rfl⟩

/-- A handler at a user address, with every other signal blocked while it runs. -/
def greedyAction : SigAction := ⟨0x400000, 0#64, 0, BitVec.allOnes 64⟩

/-- What `clone` meets when nothing is short. -/
def easyClone (pid tid : ℕ) : CloneEnv :=
  ⟨false, true, true, some pid, true, true, true, some pid, .ample, fun _ => true, some tid, true,
    true⟩

/-- Init blocks all it can, catches `SIGUSR1` and forks in the usual way. -/
def modestRun : List SigOp :=
  [.rtSigprocmask 1 2 (.val (BitVec.allOnes 64)) .null 8,
   .rtSigaction 1 10 (.val greedyAction) .null 8, .clone 1 17#64 (easyClone 2 2)]

theorem kill_stop_uncatchable_modest :
    Along sigNext SigOk bootKernel modestRun ∧
      ∀ n, Uncatchable (run sigNext bootKernel (modestRun.take n)) := by
  have hok : Along sigNext SigOk bootKernel modestRun :=
    ⟨trivial, fun _ _ hs => absurd hs (by decide), trivial, trivial⟩
  exact ⟨hok, (kill_stop_uncatchable bootKernel uncaught_bootKernel modestRun).mpr hok⟩

/-- Init catches `SIGSTOP`; and init waits for a child that was cloned with `SIGKILL` as its
exit signal. -/
theorem kill_stop_blocked :
    Uncaught bootKernel ∧
      ¬Uncatchable (run sigNext bootKernel [.rtSigaction 1 19 (.val greedyAction) .null 8]) ∧
      ¬Uncatchable (run sigNext bootKernel
        [.clone 1 9#64 (easyClone 2 2), .wait4 1 (-1) .null 0#32]) := by
  refine ⟨uncaught_bootKernel, fun h => ?_, fun h => ?_⟩
  · have hcaught : ((run sigNext bootKernel [.rtSigaction 1 19 (.val greedyAction) .null 8]).procs
        1).map (fun p => (p.sigActions SIGSTOP).handler) = some 0x400000 := by decide +kernel
    obtain ⟨p, hp, hh⟩ := map_eq_some_iff.mp hcaught
    exact absurd (hh.symm.trans (h.actions 1 p hp).2) (by decide)
  · have hblocked : ((run sigNext bootKernel [.clone 1 9#64 (easyClone 2 2),
        .wait4 1 (-1) .null 0#32]).threads 1).map (fun t => hasSig t.sigBlocked SIGKILL) =
          some true := by decide +kernel
    obtain ⟨t, ht, hh⟩ := map_eq_some_iff.mp hblocked
    exact absurd (hh.symm.trans (h.blocked 1 t ht).1) (by decide)

end CosmoRT.Proc
