import CosmoRT.Proc.Books

/-!
# No signal is lost

The books of `Books` along whole runs of sends, mask changes, dispositions, deliveries
and waits.  Promises are read off the sends (`acceptsKill`, `tgkillBox`), deliveries off
what `check_pending_signals` and `sigtimedwait` report.

* `no_signal_lost` — **in a run whose sends meet `MailOk`, every signal that was accepted
  is pending until it is delivered, as often as it has to be.**
* `rt_sigpending_exact_iff` — `rt_sigpending` shows the pending signals that are *not*
  blocked.
-/

namespace CosmoRT.Proc

open Event Lib Option Kernel
open Quiet (woken refl modProc modThread)

variable {pid tid : ℕ} {except : Set ℕ} {b : Books} {k k' : Kernel} {p : Process} {t : Thread}

/-! ## Sending to a thread -/

/-- Where `tgkill` has to keep a signal. -/
def acceptsTgkill (k : Kernel) (tid sig : ℕ) (p : Process) (t : Thread) : Box :=
  if (p.sigActions sig).handler = SIG_IGN then .nowhere
  else if (p.sigActions sig).handler = SIG_DFL then
    if hasSig t.sigBlocked sig then .thread tid
    else if defaultAction sig = .fatal then acceptsKill k sig p else .nowhere
  else .thread tid

/-- What `tgkill` needs for its signal to be kept. -/
structure TgkillOk (k : Kernel) (tid sig : ℕ) (p : Process) (t : Thread) : Prop where
  /-- A real-time signal of default disposition is not counted. -/
  once : (p.sigActions sig).handler = SIG_DFL → 32 ≤ sig → hasSig t.pending.set sig = false
  /-- The counter is not behind and not full. -/
  room : SIG_IGN < (p.sigActions sig).handler → Covers.QueueOk t.pending sig
  /-- A thread that blocks the signal is not woken. -/
  heard : defaultAction sig = .fatal ∨ SIG_IGN < (p.sigActions sig).handler → ¬SleepsFor k sig tid
  /-- Job control is acted on, blocked or not. -/
  unblocked : (p.sigActions sig).handler = SIG_DFL →
    defaultAction sig = .stop ∨ defaultAction sig = .cont →
    hasSig t.sigBlocked sig = false
  /-- Signals that are not kept for the thread go to its process. -/
  kill : (p.sigActions sig).handler = SIG_DFL → hasSig t.sigBlocked sig = false → KillOk k sig p

/-- A signal goes to the pending set of a thread, which is woken unless it sleeps over
other signals. -/
theorem Tallied.sendThread {sig : ℕ} {f : Pending → Pending} (h : Tallied pid ∅ b k)
    (ht : k.threads tid = some t) (h1 : 1 ≤ sig)
    (hf : Covers t.pending (b.thread tid) → Covers (f t.pending) ((b.thread tid).post sig))
    (hset : ∀ q : Pending, (f q).set = q.set ||| sigBit sig)
    (hq : Quiet pid (k.modThreadPending tid f) k')
    (hwake : Unblocked k' tid ∨ k' = k.modThreadPending tid f ∧ hasSig t.sigBlocked sig = true ∧
      ¬SleepsFor k sig tid) : Tallied pid ∅ (b.postThread tid sig) k' := by
  obtain ⟨p, hp, -, ha⟩ := id h
  refine h.postThread h1 (fun t' ht' hproc => ?_) hset hq fun t' m ht' hb hc => ?_
  · obtain rfl := mem_unique ht ht'
    exact hf (ha.thread tid t ht hproc)
  · rcases hwake with hawake | ⟨rfl, hblocks, hfree⟩
    · exact absurd hb (hawake t' ht')
    · rw [modThreadPending, modThread_self, ht] at ht'
      obtain rfl := some.inj ht'
      by_contra hm
      exact hfree ⟨t, m, ht, hb, hc, by simpa using hm, hblocks⟩

theorem Tallied.tgkillThread {sig : ℕ} (h : Tallied pid ∅ b k) (hp : k.procs pid = some p)
    (ht : k.threads tid = some t) (hproc : t.proc = some pid) (cur : ℕ) (h1 : 1 ≤ sig)
    (h64 : sig ≤ 64) (hok : TgkillOk k tid sig p t) :
    Tallied pid ∅ (b.post (acceptsTgkill k tid sig p t) sig)
        (tgkillThread k cur pid tid sig p t).2 ∨
      Ends pid (tgkillThread k cur pid tid sig p t).2 := by
  simp only [Proc.tgkillThread, acceptsTgkill]
  by_cases hign : (p.sigActions sig).handler = SIG_IGN
  · simp only [hign, if_true]
    exact .inl h
  by_cases hdfl : (p.sigActions sig).handler = SIG_DFL
  · simp only [hdfl, if_true, show ¬(SIG_DFL = SIG_IGN) from by decide, if_false]
    -- a thread of the process that does not block the signal rules out that all do
    have hsome : hasSig t.sigBlocked sig = false → p.threads.all (threadBlocks k sig) = false := by
      intro hb
      rw [List.all_eq_false]
      refine ⟨tid, (h.agree hp).member tid t ht hproc, ?_⟩
      simp [threadBlocks, ht, hb]
    have hraise : Covers t.pending (b.thread tid) →
        Covers (t.pending.raise sig) ((b.thread tid).post sig) := fun hc =>
      hc.raise h1 h64 (hok.once hdfl)
    cases hd : defaultAction sig with
    | ignore =>
      left
      by_cases hb : hasSig t.sigBlocked sig = true
      · simp only [hb, if_true]
        exact h.sendThread ht h1 hraise (fun _ => rfl) (woken (wakeBlocked_woken _ _))
          (.inl (wakeBlocked_unblocked (List.mem_singleton.mpr rfl)))
      · simp only [hb, Bool.false_eq_true, if_false]
        simpa [Books.post] using h
    | stop =>
      have hb := hok.unblocked hdfl (.inl hd)
      have hkill := h.killOne hp cur h1 h64 (hok.kill hdfl hb)
      simpa [hb, acceptsKill, hdfl, hd, hsome hb] using hkill
    | cont =>
      have hb := hok.unblocked hdfl (.inr hd)
      have hkill := h.killOne hp cur h1 h64 (hok.kill hdfl hb)
      simpa [hb, acceptsKill, hdfl, hd, hsome hb] using hkill
    | fatal =>
      by_cases hb : hasSig t.sigBlocked sig = true
      · left
        simp only [hb, if_true]
        exact h.sendThread ht h1 hraise (fun _ => rfl) (refl _ _)
          (.inr ⟨rfl, hb, hok.heard (.inl hd)⟩)
      · have hkill := h.killOne hp cur h1 h64 (hok.kill hdfl (by simpa using hb))
        simpa [hb] using hkill
  · left
    simp only [hign, hdfl, if_false]
    have hhandler : SIG_IGN < (p.sigActions sig).handler := by
      simp only [SIG_IGN, SIG_DFL] at hign hdfl ⊢
      omega
    have hqueue : Covers t.pending (b.thread tid) →
        Covers (t.pending.queue sig) ((b.thread tid).post sig) := fun hc =>
      hc.queue h1 h64 (hok.room hhandler)
    by_cases hb : hasSig t.sigBlocked sig = true
    · simp only [hb, if_true]
      exact h.sendThread ht h1 hqueue (fun q => queue_set q sig) (refl _ _)
        (.inr ⟨rfl, hb, hok.heard (.inr hhandler)⟩)
    · simp only [hb, Bool.false_eq_true, if_false]
      refine h.sendThread ht h1 hqueue (fun q => queue_set q sig)
        (woken (woken_signalWakeUp _ _)) (.inl fun t' ht' => ?_)
      rw [signalWakeUp_threads, modThread_self] at ht'
      obtain ⟨t0, -, rfl⟩ := map_eq_some_iff.mp ht'
      exact rouse_ne_blocked t0

/-- The thread that a call of `tgkill` with good arguments means. -/
def tgkillTarget (k : Kernel) (pid : ℕ) (tid sig : ℤ) : Option (Process × Thread) :=
  if sig ≤ 0 ∨ 64 ≤ sig ∨ pid = 0 ∨ tid ≤ 0 then none
  else
    match (threadFindByTid k tid.toNat).filter fun t => t.proc = some pid, k.procs pid with
    | some t, some p => some (p, t)
    | _, _ => none

/-- Where such a call has to keep its signal. -/
def tgkillBox (k : Kernel) (pid : ℕ) (tid sig : ℤ) : Box :=
  match tgkillTarget k pid tid sig with
  | none => .nowhere
  | some (p, t) => acceptsTgkill k tid.toNat sig.toNat p t

theorem doTgkill_cases (k : Kernel) (cur pid : ℕ) (tid sig : ℤ) :
    (tgkillTarget k pid tid sig = none ∧ (doTgkill k cur pid tid sig).2 = k) ∨
    ∃ p t, tgkillTarget k pid tid sig = some (p, t) ∧ k.procs pid = some p ∧
      k.threads tid.toNat = some t ∧ t.proc = some pid ∧ 1 ≤ sig.toNat ∧ sig.toNat ≤ 64 ∧
      (doTgkill k cur pid tid sig).2 = (tgkillThread k cur pid tid.toNat sig.toNat p t).2 := by
  unfold tgkillTarget doTgkill
  by_cases hsig : sig < 0 ∨ 64 ≤ sig
  · left
    simp only [hsig, if_true, and_true]
    rw [if_pos (by omega)]
  by_cases hid : (pid : ℤ) ≤ 0 ∨ tid ≤ 0
  · left
    simp only [hsig, hid, if_false, if_true, and_true]
    rw [if_pos (by omega)]
  by_cases h0 : sig = 0
  · left
    rw [if_pos (by omega), if_neg hsig, if_neg hid, if_pos h0]
    exact ⟨rfl, rfl⟩
  rw [if_neg (by omega), if_neg hsig, if_neg hid, if_neg h0]
  cases hfind : threadFindByTid k tid.toNat with
  | none => exact .inl ⟨rfl, rfl⟩
  | some t =>
    have ht : k.threads tid.toNat = some t := by
      unfold threadFindByTid at hfind
      split at hfind
      · cases hfind
      · exact (filter_eq_some_iff.mp hfind).1
    cases hproc : t.proc with
    | none => simp [filter_some, hproc]
    | some q =>
      by_cases hq : q = pid
      · subst hq
        cases hp : k.procs q with
        | none => simp [hproc, hp]
        | some p =>
          right
          refine ⟨p, t, ?_, rfl, ht, hproc, by omega, by omega, ?_⟩
          · simp [filter_some, hproc]
          · simp [hproc, hp]
      · left
        simp [filter_some, hproc, hq]

theorem Tallied.doTgkill (h : Tallied pid ∅ b k) (cur : ℕ) (tid sig : ℤ)
    (hok : ∀ p t, tgkillTarget k pid tid sig = some (p, t) → TgkillOk k tid.toNat sig.toNat p t) :
    Tallied pid ∅ (b.post (tgkillBox k pid tid sig) sig.toNat) (doTgkill k cur pid tid sig).2 ∨
      Ends pid (doTgkill k cur pid tid sig).2 := by
  rcases doTgkill_cases k cur pid tid sig with ⟨hnone, hk⟩ |
    ⟨p, t, hsome, hp, ht, hproc, h1, h64, hk⟩
  · rw [tgkillBox, hnone, hk]
    exact .inl h
  · rw [tgkillBox, hsome, hk]
    exact h.tgkillThread hp ht hproc cur h1 h64 (hok p t hsome)

/-! ## Delivery -/

variable (sig : ℕ) (env : SigEnv)

theorem quiet_deliverSignal (built : Bool) (hp : k.procs pid = some p) (hdn : p.dnotifyQ = [])
    (hproc : procOf k tid = some pid) :
    Quiet pid k (deliverSignal k pid tid sig built) ∨
      Ends pid (deliverSignal k pid tid sig built) := by
  simp only [deliverSignal, hp]
  split
  · exact .inl (refl pid k)
  split
  · have hmark : Quiet pid k (k.modProc pid fun p => { p with exitSignal := sig }) :=
      modProc k pid fun p _ => ⟨rfl, rfl, rfl, rfl, rfl⟩
    obtain ⟨p', hp', -⟩ := hmark.proc p hp
    exact (doExit_quiet (128 + sig) hp' hproc).imp_left hmark.trans
  · left
    -- the queue of `F_NOTIFY` is empty, so that nothing is marked again
    have hnotify : Quiet pid k (if sig = 11 ∨ sig = 7 then k
        else k.modProc pid (dnotifyRepend · sig)) := by
      split
      · exact refl pid k
      · refine modProc k pid fun p' hp' => ?_
        obtain rfl := mem_unique hp hp'
        simp only [dnotifyRepend, hdn, List.any_nil, Bool.false_eq_true, if_false]
        exact .refl p
    have hmask := hnotify.trans (modThread _ tid fun t =>
      (⟨rfl, rfl, rfl, id⟩ : SameBox t
        { t with sigBlocked := handlerMask t.sigBlocked (p.sigActions sig) sig }))
    split
    · exact hmask.trans (modProc _ pid fun p _ => ⟨rfl, rfl, rfl, rfl, rfl⟩)
    · exact hmask

theorem quiet_deliverFatal (inPreempt : Bool) (hp : k.procs pid = some p)
    (hproc : procOf k tid = some pid) :
    Quiet pid k (deliverFatal k pid tid sig inPreempt) ∨
      Ends pid (deliverFatal k pid tid sig inPreempt) := by
  have hmark : Quiet pid k (k.modProc pid fun p => { p with exitSignal := sig }) :=
    modProc k pid fun p _ => ⟨rfl, rfl, rfl, rfl, rfl⟩
  obtain ⟨p', hp', -⟩ := hmark.proc p hp
  unfold deliverFatal
  split
  · exact .inr (ends_preemptDeath tid sig hp')
  · exact (doExit_quiet (128 + sig) hp' hproc).imp_left hmark.trans

/-- Acting on a signal that was taken out is quiet, or the end of the process, after
which the scan does not go on. -/
theorem quiet_actOn (sa : SigAction) (hp : k.procs pid = some p) (hdn : p.dnotifyQ = [])
    (hproc : procOf k tid = some pid) :
    Quiet pid k (actOn k pid tid sig env sa).2 ∨
      (actOn k pid tid sig env sa).1 = false ∧ Ends pid (actOn k pid tid sig env sa).2 := by
  unfold actOn
  split
  · exact .inl (refl pid k)
  · split
    · split
      · exact .inl (refl pid k)
      · exact .inl (Quiet.deliverStop k tid sig)
      · exact .inl (Quiet.deliverCont k)
      · exact (quiet_deliverFatal sig env.inPreempt hp hproc).imp_right fun h => ⟨rfl, h⟩
    · exact (quiet_deliverSignal sig env.built hp hdn hproc).imp_right fun h => ⟨rfl, h⟩

/-- The deliveries of one call are entered one after the other. -/
def Books.takeAll (b : Books) (tid : ℕ) (gots : List (Bool × ℕ)) : Books :=
  gots.foldl (fun b got => b.take tid got) b

/-- What is pending for the thread `tid`. -/
def seenBy (k : Kernel) (pid tid sig : ℕ) : Prop :=
  ∀ p t, k.procs pid = some p → k.threads tid = some t → hasSig (pendingOf p t) sig = true

theorem procOf_takeSignal (t : Thread) :
    procOf (takeSignal k pid tid sig t) tid = procOf k tid := by
  unfold takeSignal procOf
  split
  · rw [modThreadPending, modThread_self]
    cases k.threads tid <;> rfl
  · rfl

theorem seenBy_takeSignal {sig s : ℕ} (ht : k.threads tid = some t) (h1 : 1 ≤ sig) (hs1 : 1 ≤ s)
    (hs : s ≤ 64) (hne : s ≠ sig) (h : seenBy k pid tid s) :
    seenBy (takeSignal k pid tid sig t) pid tid s := by
  intro p' t' hp' ht'
  unfold takeSignal at hp' ht'
  split at hp'
  · next hown =>
    rw [if_pos hown, modThreadPending, modThread_self, ht] at ht'
    obtain rfl := some.inj ht'
    have hbefore := h p' t hp' ht
    rw [pendingOf, hasSig_or] at hbefore ⊢
    rw [hasSig_take_ne h1 hs1 hs hne]
    exact hbefore
  · next hown =>
    rw [if_neg hown] at ht'
    rw [modPending, modProc_self] at hp'
    obtain ⟨p, hp, rfl⟩ := map_eq_some_iff.mp hp'
    have hbefore := h p t' hp ht'
    rw [pendingOf, hasSig_or] at hbefore ⊢
    rw [hasSig_take_ne h1 hs1 hs hne]
    exact hbefore

theorem Quiet.seenBy {sig : ℕ} (hq : Quiet pid k k') (h : seenBy k pid tid sig)
    (hp : k.procs pid = some p) : seenBy k' pid tid sig := by
  intro p' t' hp' ht'
  obtain ⟨p1, hp1, hs⟩ := hq.proc p hp
  obtain rfl := mem_unique hp1 hp'
  obtain ⟨t, ht, hbox⟩ := hq.thread tid t' ht'
  rw [pendingOf, hs.pending, hbox.pending]
  exact h p t hp ht

/-- The loop of `check_pending_signals`.  The invariant is that what is still to be
visited of `deliverable` is pending. -/
theorem Tallied.checkLoop (deliverable : SigSet) (sigs : List ℕ) :
    ∀ {b : Books} {k : Kernel}, Tallied pid except b k → sigs.Nodup →
      (∀ s ∈ sigs, 1 ≤ s ∧ s ≤ 64) →
      (∀ t, k.threads tid = some t → t.proc = some pid) →
      (∀ s ∈ sigs, hasSig deliverable s = true → seenBy k pid tid s) →
      Tallied pid except (b.takeAll tid (checkLoop pid tid env deliverable sigs k).1)
        (checkLoop pid tid env deliverable sigs k).2 ∨
      Ends pid (checkLoop pid tid env deliverable sigs k).2 := by
  induction sigs with
  | nil =>
    intro b k h _ _ _ _
    exact .inl h
  | cons sig sigs ih =>
    intro b k h hnd hrange hmine hseen
    have hrest : ∀ s ∈ sigs, 1 ≤ s ∧ s ≤ 64 := fun s hs => hrange s (List.mem_cons_of_mem _ hs)
    unfold Proc.checkLoop
    split
    case isFalse =>
      exact ih h hnd.of_cons hrest hmine fun s hs => hseen s (List.mem_cons_of_mem _ hs)
    case isTrue hd =>
      split
      case h_2 => exact .inl h
      case h_1 p t hp ht =>
        obtain ⟨h1, h64⟩ := hrange sig List.mem_cons_self
        have hproc := hmine t ht
        have hpend := hseen sig List.mem_cons_self hd p t hp ht
        set k1 := Proc.takeSignal k pid tid sig t with hk1
        have htaken : Tallied pid except (b.take tid (hasSig t.pending.set sig, sig)) k1 :=
          hk1 ▸ h.takeSignal hp ht hproc h1 h64 hpend
        have hmine1 : procOf k1 tid = some pid := by
          rw [procOf_takeSignal, procOf, ht]
          exact hproc
        have hseen1 : ∀ s ∈ sigs, hasSig deliverable s = true → seenBy k1 pid tid s := by
          intro s hs hds
          have hne : s ≠ sig := fun he => (List.nodup_cons.mp hnd).1 (he ▸ hs)
          exact seenBy_takeSignal ht h1 (hrest s hs).1 (hrest s hs).2 hne
            (hseen s (List.mem_cons_of_mem _ hs) hds)
        obtain ⟨p1, hp1, -, ha1⟩ := id htaken
        have hact := quiet_actOn sig env (p.sigActions sig) hp1 ha1.dnotify hmine1
        dsimp only
        split
        case isFalse =>
          rcases hact with hq | ⟨-, he⟩
          · exact .inl (htaken.quiet hq)
          · exact .inr he
        case isTrue hgo =>
          rcases hact with hq | ⟨hstop, -⟩
          · refine ih (htaken.quiet hq) hnd.of_cons hrest (fun t' ht' => ?_) fun s hs hds =>
              hq.seenBy (hseen1 s hs hds) hp1
            obtain ⟨t1, ht1, hbox⟩ := hq.thread tid t' ht'
            rw [hbox.proc]
            simpa [procOf, ht1] using hmine1
          · rw [hstop] at hgo
            cases hgo

theorem sameBox_leaveSigsuspend (t : Thread) : SameBox t (leaveSigsuspend t) := by
  unfold leaveSigsuspend
  split
  · exact ⟨rfl, rfl, rfl, id⟩
  · exact .refl t

/-- `check_pending_signals` with no alarm due is its loop. -/
theorem checkPendingSignals_eq (hp : k.procs pid = some p) (ht : k.threads tid = some t)
    (hproc : t.proc = some pid) (halarm : p.alarmDeadlineMs = 0) :
    checkPendingSignals k tid env = checkLoop pid tid env
      (pendingOf p t &&& ~~~(leaveSigsuspend t).sigBlocked) allSignals
      (k.modThread tid leaveSigsuspend) := by
  have hof : procOf k tid = some pid := by rw [procOf, ht]; exact hproc
  have hset : pendingOf p (leaveSigsuspend t) = pendingOf p t := by
    rw [pendingOf, (sameBox_leaveSigsuspend t).pending]; rfl
  simp [checkPendingSignals, hof, hp, checkAlarm, halarm, modThread_procs, modThread_self, ht, hset]

theorem Tallied.checkPendingSignals (h : Tallied pid except b k) (hproc : procOf k tid = some pid)
    (env : SigEnv) :
    Tallied pid except (b.takeAll tid (checkPendingSignals k tid env).1)
        (checkPendingSignals k tid env).2 ∨
      Ends pid (checkPendingSignals k tid env).2 := by
  obtain ⟨p, hp, -, ha⟩ := id h
  obtain ⟨t, ht, htp⟩ := bind_eq_some_iff.mp hproc
  rw [checkPendingSignals_eq env hp ht htp ha.alarm]
  have hq : Quiet pid k (k.modThread tid leaveSigsuspend) :=
    modThread k tid sameBox_leaveSigsuspend
  have hth : (k.modThread tid leaveSigsuspend).threads tid = some (leaveSigsuspend t) := by
    rw [modThread_self, ht]; rfl
  refine (h.quiet hq).checkLoop env _ allSignals List.nodup_range' ?_ ?_ ?_
  · intro s hs
    simp only [allSignals, List.mem_range'_1] at hs
    omega
  · intro t' ht'
    obtain rfl := mem_unique hth ht'
    rw [(sameBox_leaveSigsuspend t).proc, htp]
  · intro s _ hs
    refine hq.seenBy (fun p' t' hp' ht' => ?_) hp
    obtain rfl := mem_unique hp hp'
    obtain rfl := mem_unique ht ht'
    rw [hasSig_and, Bool.and_eq_true] at hs
    exact hs.1

theorem checkLoop_head (deliverable : SigSet) (sigs : List ℕ) (hp : k.procs pid = some p)
    (ht : k.threads tid = some t) :
    (checkLoop pid tid env deliverable sigs k).1.head?.map (·.2) =
      sigs.find? (hasSig deliverable) := by
  induction sigs with
  | nil => rfl
  | cons sig sigs ih =>
    unfold checkLoop
    cases hd : hasSig deliverable sig with
    | false => simpa [List.find?_cons, hd] using ih
    | true =>
      simp only [if_true, hp, ht, List.find?_cons, hd]
      split <;> rfl

/-- **A thread that returns to user mode takes the lowest signal that is pending and not
blocked.** -/
theorem check_takes_lowest (hp : k.procs pid = some p) (ht : k.threads tid = some t)
    (hproc : t.proc = some pid) (halarm : p.alarmDeadlineMs = 0) :
    (checkPendingSignals k tid env).1.head?.map (·.2) =
      allSignals.find? (hasSig (pendingOf p t &&& ~~~(leaveSigsuspend t).sigBlocked)) := by
  rw [checkPendingSignals_eq env hp ht hproc halarm]
  refine checkLoop_head (t := leaveSigsuspend t) env _ _ hp ?_
  rw [modThread_self, ht]
  rfl

/-! ## Waiting -/

/-- `sigwait_consume` finds nothing and changes nothing, or takes a signal it was asked for. -/
theorem sigwaitConsume_cases (m : SigSet) (hp : k.procs pid = some p)
    (ht : k.threads tid = some t) :
    (pendingOf p t &&& m = 0#64 ∧ sigwaitConsume k pid tid m = (none, k)) ∨
    ∃ sig, 1 ≤ sig ∧ sig ≤ 64 ∧ hasSig (pendingOf p t &&& m) sig = true ∧
      sigwaitConsume k pid tid m =
        (some sig, (takeSignal k pid tid sig t).modProc pid (dnotifyRepend · sig)) := by
  simp only [sigwaitConsume, hp, ht]
  by_cases hz : pendingOf p t &&& m = 0#64
  · exact .inl ⟨hz, by rw [if_pos hz]⟩
  · obtain ⟨h1, h64, hs⟩ := find_signal hz
    exact .inr ⟨_, h1, h64, hs, by rw [if_neg hz]⟩

theorem Tallied.consumed {sig : ℕ} {m : SigSet} (h : Tallied pid except b k)
    (hp : k.procs pid = some p) (ht : k.threads tid = some t) (hproc : t.proc = some pid)
    (h1 : 1 ≤ sig) (h64 : sig ≤ 64) (hs : hasSig (pendingOf p t &&& m) sig = true) :
    Tallied pid except (b.take tid (hasSig t.pending.set sig, sig))
      ((Proc.takeSignal k pid tid sig t).modProc pid (dnotifyRepend · sig)) := by
  rw [hasSig_and, Bool.and_eq_true] at hs
  have htaken := h.takeSignal hp ht hproc h1 h64 hs.1
  refine htaken.quiet (modProc _ pid fun p' hp' => ?_)
  simp only [dnotifyRepend, (htaken.agree hp').dnotify, List.any_nil, Bool.false_eq_true, if_false]
  exact .refl p'

/-- A thread changes its state or its call: only it has to be looked at again. -/
theorem Tallied.unsettle {f : Thread → Thread} (h : Tallied pid except b k) (he : except ⊆ {tid})
    (hprocs : k'.procs = k.procs) (hthreads : k'.threads = (k.modThread tid f).threads)
    (hf : ∀ t, (f t).pending = t.pending ∧ (f t).proc = t.proc) : Tallied pid {tid} b k' := by
  obtain ⟨p, hp, hl, ha⟩ := h
  have hback : ∀ u t', k'.threads u = some t' → ∃ t, k.threads u = some t ∧
      t'.pending = t.pending ∧ t'.proc = t.proc ∧ (u ≠ tid → t' = t) := by
    intro u t' ht'
    obtain ⟨t, ht, rfl⟩ := modThread_some (hthreads ▸ ht')
    refine ⟨t, ht, ?_, ?_, fun hne => if_neg hne⟩
    · split <;> simp [hf]
    · split <;> simp [hf]
  refine ⟨p, by rw [hprocs, hp], hl, ha.proc, fun u t' ht' hproc => ?_, fun u t' ht' hproc => ?_,
    ha.dnotify, ha.alarm, fun u t' m ht' hproc hu hb hc => ?_⟩
  · obtain ⟨t, ht, -, hpr, -⟩ := hback u t' ht'
    exact ha.member u t ht (hpr ▸ hproc)
  · obtain ⟨t, ht, hpend, hpr, -⟩ := hback u t' ht'
    rw [hpend]
    exact ha.thread u t ht (hpr ▸ hproc)
  · obtain ⟨t, ht, -, -, hsame⟩ := hback u t' ht'
    obtain rfl := hsame hu
    exact ha.sleeper u t' m ht hproc (fun hx => hu (he hx)) hb hc

theorem Tallied.settle (h : Tallied pid {tid} b k)
    (hs : ∀ p t m, k.procs pid = some p → k.threads tid = some t → t.state = .BLOCKED →
      t.call = some (.sigtimedwait m) → pendingOf p t &&& m = 0#64) : Tallied pid ∅ b k := by
  obtain ⟨p, hp, hl, ha⟩ := h
  refine ⟨p, hp, hl, ha.proc, ha.member, ha.thread, ha.dnotify, ha.alarm,
    fun u t m ht hproc _ hb hc => ?_⟩
  by_cases hu : u = tid
  · subst hu
    exact hs p t m hp ht hb hc
  · exact ha.sleeper u t m ht hproc hu hb hc

theorem Tallied.leave (h : Tallied pid {tid} b k) (q : WqHead) :
    Tallied pid ∅ b (leaveCall (finishWait k q tid) tid) := by
  have hrun : Tallied pid {tid} b (finishWait k q tid) :=
    h.unsettle (f := fun t => { t with state := .RUNNING }) subset_rfl rfl rfl fun _ => ⟨rfl, rfl⟩
  have hleft : Tallied pid {tid} b (leaveCall (finishWait k q tid) tid) :=
    hrun.unsettle subset_rfl rfl rfl fun _ => ⟨rfl, rfl⟩
  refine hleft.settle fun p t m _ ht hb _ => ?_
  simp only [leaveCall, finishWait, setState, modThread_self, map_map] at ht
  obtain ⟨t0, -, rfl⟩ := map_eq_some_iff.mp ht
  simp at hb

/-- The delivery that a wait reports. -/
def Books.takeReturned (b : Books) (k : Kernel) (tid : ℕ) : Outcome ℕ → Books
  | .returns (.ok sig) => b.take tid ((k.threads tid).any fun t => hasSig t.pending.set sig, sig)
  | _ => b

/-- One pass of `do_rt_sigtimedwait` keeps the books right and sleeps over nothing. -/
theorem Tallied.sigtimedwaitPass (h : Tallied pid ∅ b k)
    (hproc : procOf k tid = some pid) (m : SigSet) (timedOut : Bool) :
    Tallied pid ∅ (b.takeReturned k tid (sigtimedwaitPass k tid m timedOut).1)
      (sigtimedwaitPass k tid m timedOut).2 := by
  obtain ⟨t, ht, htp⟩ := bind_eq_some_iff.mp hproc
  set k1 := prepareToWait k (.stack tid) tid false with hk1
  have h₁ : Tallied pid {tid} b k1 :=
    h.unsettle (f := fun t => { t with state := .BLOCKED }) (Set.empty_subset _) rfl
      rfl fun t => ⟨rfl, rfl⟩
  have ht1 : k1.threads tid = some { t with state := .BLOCKED } := by
    show (k.setState tid .BLOCKED).threads tid = _
    rw [setState, modThread_self, ht]
    rfl
  obtain ⟨p, hp1, -, -⟩ := id h₁
  simp only [Proc.sigtimedwaitPass, hproc, ← hk1]
  rcases sigwaitConsume_cases m hp1 ht1 with ⟨hz, hc⟩ | ⟨sig, h1, h64, hs, hc⟩
  · rw [hc]
    simp only []
    split
    · exact h₁.leave _
    simp only [hp1, ht1]
    split
    · -- the thread sleeps, with nothing pending of what it waits for
      have hsleep : Tallied pid {tid} b
          (k1.modThread tid fun t => { t with call := some (.sigtimedwait m) }) :=
        h₁.unsettle subset_rfl rfl rfl fun _ => ⟨rfl, rfl⟩
      refine hsleep.settle fun p' t' m' hp' ht' _ hcall => ?_
      rw [modThread_self, ht1] at ht'
      obtain rfl := some.inj ht'
      obtain rfl := mem_unique hp1 hp'
      obtain rfl : m = m' := by simpa using hcall
      exact hz
    · exact h₁.leave _
  · rw [hc]
    have htaken := (h₁.consumed hp1 ht1 htp h1 h64 hs).leave (.stack tid)
    simpa [Books.takeReturned, ht] using htaken

theorem Tallied.doRtSigtimedwait (h : Tallied pid ∅ b k) (hproc : procOf k tid = some pid)
    (m : Option SigSet) (poll : Bool) (n : ℕ) :
    Tallied pid ∅ (b.takeReturned k tid (doRtSigtimedwait k tid m poll n).1)
      (doRtSigtimedwait k tid m poll n).2 := by
  obtain ⟨t, ht, htp⟩ := bind_eq_some_iff.mp hproc
  obtain ⟨p, hp, -, -⟩ := id h
  unfold Proc.doRtSigtimedwait
  split
  · exact h
  simp only [hproc]
  cases m with
  | none => exact h
  | some m =>
    simp only []
    rcases sigwaitConsume_cases m hp ht with ⟨-, hc⟩ | ⟨sig, h1, h64, hs, hc⟩
    · rw [hc]
      simp only []
      split
      · exact h
      · exact h.sigtimedwaitPass hproc m false
    · rw [hc]
      simpa [Books.takeReturned, ht] using h.consumed hp ht htp h1 h64 hs

/-! ## Runs -/

/-- The kernel with the books of one process. -/
structure Mail where
  k : Kernel
  books : Books

/-- Sends to the process, and calls of its threads. -/
inductive MailOp where
  | kill (cur sig : ℕ)
  | tgkill (cur : ℕ) (tid sig : ℤ)
  | rtSigprocmask (tid : ℕ) (how : ℤ) (set : UserPtr SigSet) (oldset : UserPtr Unit)
    (sigsetsize : ℕ)
  | rtSigaction (tid : ℕ) (sig : ℤ) (act : UserPtr SigAction) (oldact : UserPtr Unit)
      (sigsetsize : ℕ)
  | checkPendingSignals (tid : ℕ) (env : SigEnv)
  | rtSigtimedwait (tid : ℕ) (waitMask : Option SigSet) (poll : Bool) (sigsetsize : ℕ)
  /-- A thread that was woken in `sigtimedwait`, by a signal or by its timer. -/
  | sigtimedwaitPass (tid : ℕ) (timedOut : Bool)

/-- One step, with its entries in the books. -/
def mailNext (pid : ℕ) (s : Mail) : MailOp → Mail
  | .kill cur sig =>
    { k := (killOne s.k cur pid sig).2
      books := match s.k.procs pid with
        | none => s.books
        | some p => s.books.post (acceptsKill s.k sig p) sig }
  | .tgkill cur tid sig =>
    { k := (doTgkill s.k cur pid tid sig).2
      books := s.books.post (tgkillBox s.k pid tid sig) sig.toNat }
  | .rtSigprocmask tid how set oldset n =>
    { s with k := (doRtSigprocmask s.k tid how set oldset n).2 }
  | .rtSigaction tid sig act oldact n => { s with k := (doRtSigaction s.k tid sig act oldact n).2 }
  | .checkPendingSignals tid env =>
    let r := checkPendingSignals s.k tid env
    { k := r.2, books := s.books.takeAll tid r.1 }
  | .rtSigtimedwait tid waitMask poll n =>
    let r := doRtSigtimedwait s.k tid waitMask poll n
    { k := r.2, books := s.books.takeReturned s.k tid r.1 }
  | .sigtimedwaitPass tid timedOut =>
    match (s.k.threads tid).bind (·.call) with
    | some (.sigtimedwait m) =>
      let r := sigtimedwaitPass s.k tid m timedOut
      { k := r.2, books := s.books.takeReturned s.k tid r.1 }
    | _ => s

/-- The condition on one step: the process is alive, the calls are its own, and a send is
one that the code keeps. -/
def MailOk (pid : ℕ) (s : Mail) (op : MailOp) : Prop :=
  (∃ p, s.k.procs pid = some p ∧ p.state = .ALIVE) ∧
  match op with
  | .kill _ sig => 1 ≤ sig ∧ sig ≤ 63 ∧ ∀ p, s.k.procs pid = some p → KillOk s.k sig p
  | .tgkill _ tid sig => ∀ p t, tgkillTarget s.k pid tid sig = some (p, t) →
      TgkillOk s.k tid.toNat sig.toNat p t
  | .rtSigprocmask .. | .rtSigaction .. => True
  | .checkPendingSignals tid _ | .rtSigtimedwait tid _ _ _ | .sigtimedwaitPass tid _ =>
    procOf s.k tid = some pid

theorem quiet_doRtSigprocmask (pid tid : ℕ) (k : Kernel) (how : ℤ) (set : UserPtr SigSet)
    (oldset : UserPtr Unit) (n : ℕ) : Quiet pid k (doRtSigprocmask k tid how set oldset n).2 := by
  unfold doRtSigprocmask
  split
  · exact refl pid k
  split
  · exact refl pid k
  · split
    · exact refl pid k
    · exact refl pid k
    · exact refl pid k
    · split
      · exact refl pid k
      · exact modThread k tid fun t => ⟨rfl, rfl, rfl, id⟩

theorem quiet_doRtSigaction (pid tid : ℕ) (k : Kernel) (sig : ℤ) (act : UserPtr SigAction)
    (oldact : UserPtr Unit) (n : ℕ) : Quiet pid k (doRtSigaction k tid sig act oldact n).2 := by
  unfold doRtSigaction
  split
  · exact refl pid k
  split
  · exact refl pid k
  split
  · exact refl pid k
  · split
    · exact refl pid k
    · split
      · exact refl pid k
      · exact refl pid k
      · exact refl pid k
      · exact modProc k _ fun p _ => ⟨rfl, rfl, rfl, rfl, rfl⟩

variable {s : Mail} {op : MailOp}

theorem Tallied.next (h : Tallied pid ∅ s.books s.k) (hok : MailOk pid s op) :
    Tallied pid ∅ (mailNext pid s op).books (mailNext pid s op).k ∨
      Ends pid (mailNext pid s op).k := by
  obtain ⟨⟨p, hp, -⟩, hop⟩ := hok
  cases op with
  | kill cur sig =>
    obtain ⟨h1, h63, hkill⟩ := hop
    simp only [mailNext, hp]
    exact h.killOne hp cur h1 (by omega) (hkill p hp)
  | tgkill cur tid sig => exact h.doTgkill cur tid sig hop
  | rtSigprocmask tid how set oldset n =>
    exact .inl (h.quiet (quiet_doRtSigprocmask pid tid s.k how set oldset n))
  | rtSigaction tid sig act oldact n =>
    exact .inl (h.quiet (quiet_doRtSigaction pid tid s.k sig act oldact n))
  | checkPendingSignals tid env => exact h.checkPendingSignals hop env
  | rtSigtimedwait tid waitMask poll n => exact .inl (h.doRtSigtimedwait hop waitMask poll n)
  | sigtimedwaitPass tid timedOut =>
    left
    unfold mailNext
    dsimp only
    split
    · exact h.sigtimedwaitPass hop _ timedOut
    · exact h

/-- The invariant of runs. -/
def TalliedOrEnded (pid : ℕ) (s : Mail) : Prop := Tallied pid ∅ s.books s.k ∨ Ends pid s.k

theorem TalliedOrEnded.next (h : TalliedOrEnded pid s)
    (hok : MailOk pid s op) : TalliedOrEnded pid (mailNext pid s op) := by
  rcases h with h | ⟨p, hp, hend⟩
  · exact h.next hok
  · obtain ⟨⟨p', hp', hl⟩, -⟩ := hok
    obtain rfl := mem_unique hp hp'
    exact absurd hl hend

/-- What the process may rely on: its pending sets hold what is due, the first chance takes
it, and nobody sleeps over it. -/
structure Delivers (pid : ℕ) (s : Mail) (p : Process) : Prop where
  process : Covers p.pending s.books.proc
  thread : ∀ u t, s.k.threads u = some t → t.proc = some pid → Covers t.pending (s.books.thread u)
  check : ∀ u t env, s.k.threads u = some t → t.proc = some pid →
    (checkPendingSignals s.k u env).1.head?.map (·.2) =
      allSignals.find? (hasSig (pendingOf p t &&& ~~~(leaveSigsuspend t).sigBlocked))
  wait : ∀ u t m, s.k.threads u = some t → t.proc = some pid → pendingOf p t &&& m ≠ 0#64 →
    ∃ sig, hasSig (pendingOf p t &&& m) sig = true ∧ (sigwaitConsume s.k pid u m).1 = some sig
  sleeper : ∀ u t m, s.k.threads u = some t → t.proc = some pid → t.state = .BLOCKED →
    t.call = some (.sigtimedwait m) → pendingOf p t &&& m = 0#64

theorem Agree.delivers (h : Agree pid ∅ s.books s.k p) (hp : s.k.procs pid = some p) :
    Delivers pid s p where
  process := h.proc
  thread := h.thread
  check u t env ht hproc := check_takes_lowest env hp ht hproc h.alarm
  wait u t m ht hproc hne := by
    rcases sigwaitConsume_cases m hp ht with ⟨hz, -⟩ | ⟨sig, -, -, hs, hc⟩
    · exact absurd hz hne
    · exact ⟨sig, hs, by rw [hc]⟩
  sleeper u t m ht hproc hb hc := h.sleeper u t m ht hproc (Set.notMem_empty u) hb hc

/-- The books are right in every state of such a run in which the process lives. -/
theorem agree_run {ops : List MailOp} (hs : Tallied pid ∅ s.books s.k)
    (hok : Along (mailNext pid) (MailOk pid) s ops)
    (hp : (run (mailNext pid) s ops).k.procs pid = some p) (halive : p.state = .ALIVE) :
    Agree pid ∅ (run (mailNext pid) s ops).books (run (mailNext pid) s ops).k p := by
  have hinv : TalliedOrEnded pid (run (mailNext pid) s ops) :=
    run_invariant (fun s op hs hop => TalliedOrEnded.next hs hop) (.inl hs) hok
  rcases hinv with h | ⟨p', hp', hend⟩
  · exact h.agree hp
  · obtain rfl := mem_unique hp' hp
    exact absurd halive hend

/-- **No accepted signal is lost or merged.**  In every run whose steps meet `MailOk`, as
long as the process lives, each of its pending sets holds exactly the deliveries that are
due, and they are made at the first chance. -/
theorem no_signal_lost (pid : ℕ) (s : Mail) (ops : List MailOp) (hs : Tallied pid ∅ s.books s.k)
    (hok : Along (mailNext pid) (MailOk pid) s ops) (p : Process)
    (hp : (run (mailNext pid) s ops).k.procs pid = some p) (halive : p.state = .ALIVE) :
    Delivers pid (run (mailNext pid) s ops) p :=
  (agree_run hs hok hp halive).delivers hp

/-- Init and a child whose one thread blocks some signals, with a handler for all that can
have one or with default dispositions. -/
def maskedChild (handler : ℕ) (blocked : SigSet) : Kernel :=
  { bootKernel with
    procs := fun pid =>
      if pid = 1 then some (plainProcess 0 [1])
      else if pid = 2 then
        some { plainProcess 1 [2] with sigActions := fun _ => ⟨handler, 0#64, 0, 0#64⟩ }
      else none
    threads := fun tid =>
      if tid = 1 then some (plainThread 1)
      else if tid = 2 then some { plainThread 2 with sigBlocked := blocked } else none }

theorem maskedChild_tallied (handler : ℕ) (blocked : SigSet) :
    Tallied 2 ∅ .empty (maskedChild handler blocked) := by
  refine ⟨_, rfl, rfl, covers_empty, fun u t ht hproc => ?_, fun u t ht hproc => ?_, rfl, rfl,
    fun u t m ht hproc _ hb _ => ?_⟩ <;> simp only [maskedChild] at ht <;> split_ifs at ht
  all_goals obtain rfl := some.inj ht
  all_goals first | exact absurd hproc (by decide) | skip
  · next h => simp [h, plainProcess]
  · exact covers_empty
  · cases hb

theorem not_sleepsFor {sig u : ℕ} (h : threadIn k .BLOCKED u = false) : ¬SleepsFor k sig u := by
  rintro ⟨t, m, ht, hb, -⟩
  simp [threadIn, ht, hb] at h

/-- A process with a handler that is awake may be sent the signal as long as it is counted. -/
theorem killOk_of_awake {sig : ℕ} (hh : SIG_IGN < (p.sigActions sig).handler)
    (hroom : Covers.QueueOk p.pending sig)
    (hawake : ∀ u ∈ p.threads, threadIn k .BLOCKED u = false) : KillOk k sig p := by
  have hne : (p.sigActions sig).handler ≠ SIG_DFL := by
    intro h
    rw [h] at hh
    exact absurd hh (by decide)
  exact ⟨fun h => absurd h hne, fun _ => hroom, fun _ u hu => not_sleepsFor (hawake u hu),
    fun h => absurd h hne, fun h => absurd h hne⟩

/-- Two real-time signals with a handler, sent while they are blocked, are two deliveries:
after one was consumed there is one more. -/
theorem no_signal_lost_queued :
    Along (mailNext 2) (MailOk 2) ⟨maskedChild 0x400000 (sigBit 40), .empty⟩
      [.kill 1 40, .kill 1 40, .rtSigtimedwait 2 (some (sigBit 40)) true 8] ∧
    ∀ p, (run (mailNext 2) ⟨maskedChild 0x400000 (sigBit 40), .empty⟩
        [.kill 1 40, .kill 1 40, .rtSigtimedwait 2 (some (sigBit 40)) true 8]).k.procs 2 = some p →
      p.state = .ALIVE → Delivers 2 (run (mailNext 2) ⟨maskedChild 0x400000 (sigBit 40), .empty⟩
        [.kill 1 40, .kill 1 40, .rtSigtimedwait 2 (some (sigBit 40)) true 8]) p := by
  refine ⟨?ok, no_signal_lost 2 _ _ (maskedChild_tallied _ _) ?ok⟩
  refine ⟨⟨⟨_, rfl, rfl⟩, by decide, by decide, fun p hp => ?_⟩,
    ⟨⟨_, rfl, rfl⟩, by decide, by decide, fun p hp => ?_⟩, ⟨⟨_, rfl, rfl⟩, rfl⟩, trivial⟩
  all_goals
    obtain rfl := some.inj hp
    exact killOk_of_awake (by decide) (fun _ => by decide +kernel) (by decide +kernel)

/-- Three signals that do not arrive: of two real-time signals with default disposition one
is merged; a sleeper in `sigtimedwait` is not woken by the signal it waits for; a blocked
`SIGTSTP` stops the thread at once and is not pending. -/
theorem signal_lost : (let k := (killOne (killOne (maskedChild 0 (sigBit 40)) 1 2 40).2 1 2 40).2
     (sigwaitConsume k 2 2 (sigBit 40)).1 = some 40 ∧
      (sigwaitConsume (sigwaitConsume k 2 2 (sigBit 40)).2 2 2 (sigBit 40)).1 = none) ∧
    (let k := (doRtSigtimedwait (maskedChild 0x400000 (sigBit 10)) 2 (some (sigBit 10)) false 8).2
     threadIn (killOne k 1 2 10).2 .BLOCKED 2 = true ∧
      (sigwaitConsume (killOne k 1 2 10).2 2 2 (sigBit 10)).1 = some 10) ∧
    (let k := (killOne (maskedChild 0 (sigBit SIGTSTP)) 1 2 SIGTSTP).2
     threadIn k .STOPPED 2 = true ∧ (sigwaitConsume k 2 2 (sigBit SIGTSTP)).1 = none) := by
  decide +kernel

/-! ## The pending mask -/

/-- What `rt_sigpending` owes to the thread `tid`: the signals that it blocks and that are
still to be delivered to it or to its process. -/
def SigpendingExact (b : Books) (tid : ℕ) (t : Thread) (r : Except Errno SigSet) : Prop :=
  ∃ m, r = .ok m ∧ ∀ sig, 1 ≤ sig → sig ≤ 64 → (hasSig m sig = true ↔
    hasSig t.sigBlocked sig = true ∧ (0 < b.proc.due sig ∨ 0 < (b.thread tid).due sig))

theorem Agree.due_iff {sig : ℕ} (h : Agree pid except b k p) (ht : k.threads tid = some t)
    (hproc : t.proc = some pid) (h1 : 1 ≤ sig) (h64 : sig ≤ 64) :
    (0 < b.proc.due sig ∨ 0 < (b.thread tid).due sig) ↔ hasSig (pendingOf p t) sig = true := by
  rw [pendingOf, hasSig_or, Bool.or_eq_true, h.proc.bit sig h1 h64,
    (h.thread tid t ht hproc).bit sig h1 h64, Account.due, Account.due, Nat.sub_pos_iff_lt,
    Nat.sub_pos_iff_lt]

/-- The mask is taken the wrong way round, so that it is right only if nothing is pending on
either side of it. -/
theorem Agree.sigpending_iff {n : ℕ} (h : Agree pid except b k p) (hp : k.procs pid = some p)
    (ht : k.threads tid = some t) (hproc : t.proc = some pid) (hn : sigsetsizeOk n = true) :
    SigpendingExact b tid t (doRtSigpending k tid (.val ()) n) ↔
      pendingOf p t &&& t.sigBlocked = 0#64 ∧ p.pending.set &&& ~~~t.sigBlocked = 0#64 := by
  have hres : doRtSigpending k tid (.val ()) n = .ok (p.pending.set &&& ~~~t.sigBlocked) := by
    simp [doRtSigpending, hn, procOf, ht, hproc, hp]
  rw [hres, and_eq_zero_iff, and_eq_zero_iff]
  constructor
  · rintro ⟨m, hm, hexact⟩
    obtain rfl := Except.ok.inj hm
    have hshown : ∀ sig, 1 ≤ sig → sig ≤ 64 →
        (hasSig p.pending.set sig = true ∧ hasSig t.sigBlocked sig = false ↔
          hasSig t.sigBlocked sig = true ∧ hasSig (pendingOf p t) sig = true) := by
      intro sig h1 h64
      have hbit := hexact sig h1 h64
      rwa [h.due_iff ht hproc h1 h64, hasSig_and, hasSig_not _ h64, Bool.and_eq_true,
        Bool.not_eq_true'] at hbit
    constructor
    · intro sig h1 h64 hpend
      by_contra hb
      rw [Bool.not_eq_false] at hb
      exact absurd ((hshown sig h1 h64).mpr ⟨hb, hpend⟩).2 (by simp [hb])
    · intro sig h1 h64 hpend
      rw [hasSig_not _ h64, Bool.not_eq_false']
      by_contra hb
      rw [Bool.not_eq_true] at hb
      exact absurd ((hshown sig h1 h64).mp ⟨hpend, hb⟩).1 (by simp [hb])
  · rintro ⟨hblocked, hopen⟩
    refine ⟨_, rfl, fun sig h1 h64 => ?_⟩
    rw [h.due_iff ht hproc h1 h64, hasSig_and, Bool.and_eq_true]
    refine iff_of_false (fun hs => ?_) fun hs => ?_
    · exact absurd hs.2 (by simp [hopen sig h1 h64 hs.1])
    · exact absurd hs.1 (by simp [hblocked sig h1 h64 hs.2])

/-- **`rt_sigpending` is exact precisely when** neither a signal that the thread blocks is
pending for it nor one that it does not block is pending for its process, whatever was sent,
masked and delivered before in steps that meet `MailOk`. -/
theorem rt_sigpending_exact_iff (pid : ℕ) (s : Mail) (ops : List MailOp)
    (hs : Tallied pid ∅ s.books s.k) (hok : Along (mailNext pid) (MailOk pid) s ops)
    (p : Process) (hp : (run (mailNext pid) s ops).k.procs pid = some p) (halive : p.state = .ALIVE)
    (tid : ℕ) (t : Thread) (ht : (run (mailNext pid) s ops).k.threads tid = some t)
    (hproc : t.proc = some pid) (n : ℕ) (hn : sigsetsizeOk n = true) :
    SigpendingExact (run (mailNext pid) s ops).books tid t
        (doRtSigpending (run (mailNext pid) s ops).k tid (.val ()) n) ↔
      pendingOf p t &&& t.sigBlocked = 0#64 ∧ p.pending.set &&& ~~~t.sigBlocked = 0#64 :=
  (agree_run hs hok hp halive).sigpending_iff hp ht hproc hn

/-- A blocked real-time signal was sent and taken by `rt_sigtimedwait`, and `SIGUSR1`, which
the thread does not block, was sent to it and is still to come. -/
def mixedMail : List MailOp :=
  [.kill 1 40, .rtSigtimedwait 2 (some (sigBit 40)) true 8, .tgkill 1 2 10]

theorem rt_sigpending_exact_mixed :
    0 < ((run (mailNext 2) ⟨maskedChild 0x400000 (sigBit 40), .empty⟩ mixedMail).books.thread
      2).due 10 ∧
    ∀ t, (run (mailNext 2) ⟨maskedChild 0x400000 (sigBit 40), .empty⟩ mixedMail).k.threads 2 =
        some t →
      SigpendingExact (run (mailNext 2) ⟨maskedChild 0x400000 (sigBit 40), .empty⟩ mixedMail).books
        2 t (doRtSigpending (run (mailNext 2) ⟨maskedChild 0x400000 (sigBit 40), .empty⟩
          mixedMail).k 2 (.val ()) 8) := by
  refine ⟨by decide +kernel, fun t ht => ?_⟩
  obtain rfl := some.inj ht
  refine (rt_sigpending_exact_iff 2 _ _ (maskedChild_tallied _ _) ?ok _ rfl rfl 2 _ rfl rfl 8
    rfl).mpr ⟨by decide +kernel, by decide +kernel⟩
  refine ⟨⟨⟨_, rfl, rfl⟩, by decide, by decide, fun p hp => ?_⟩, ⟨⟨_, rfl, rfl⟩, rfl⟩,
    ⟨⟨_, rfl, rfl⟩, fun p t ht => ?_⟩, trivial⟩
  · obtain rfl := some.inj hp
    exact killOk_of_awake (by decide) (fun _ => by decide +kernel) (by decide +kernel)
  · obtain ⟨rfl, rfl⟩ := Prod.mk.inj (some.inj ht)
    exact ⟨fun h => absurd h (by decide), fun _ h => absurd h (by decide),
      fun _ => not_sleepsFor (by decide +kernel), fun h => absurd h (by decide),
      fun h => absurd h (by decide)⟩

/-- `SIGUSR1` is sent to a process whose thread blocks it, and is not shown; without the mask
it is shown, though it is not blocked. -/
theorem rt_sigpending_inverted :
    (let s := run (mailNext 2) ⟨maskedChild 0x400000 (sigBit 10), .empty⟩ [.kill 1 10]
     doRtSigpending s.k 2 (.val ()) 8 = .ok 0#64 ∧ s.books.proc.due 10 = 1 ∧
      threadBlocks s.k 10 2 = true) ∧
    (let s := run (mailNext 2) ⟨maskedChild 0x400000 0#64, .empty⟩ [.kill 1 10]
     doRtSigpending s.k 2 (.val ()) 8 = .ok (sigBit 10) ∧ threadBlocks s.k 10 2 = false) := by
  refine ⟨⟨rfl, ?_, ?_⟩, rfl, ?_⟩ <;> decide +kernel

end CosmoRT.Proc
