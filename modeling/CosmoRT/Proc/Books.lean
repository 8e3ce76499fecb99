import CosmoRT.Proc.Accounts
import CosmoRT.Proc.ExitLaws
import CosmoRT.Proc.SigCalls

/-!
# The books of a process's signals

`Books` counts, beside the kernel, what has been promised and delivered at the pending
set of one process and at those of its threads.

* `Quiet` — a change of the kernel that touches no pending set of the process and puts
  nobody to sleep: wake-ups, stops, masks, dispositions and the end of one thread.
* `Tallied` — the invariant: **every pending set of the live process represents its
  account**, and nobody sleeps in `sigtimedwait` over a signal that is already there.
* `Tallied.killOne` — `kill_one` keeps it under `KillOk`, which names what the code does
  not do: count a real-time signal with default disposition, wake a sleeper in
  `sigtimedwait` that blocks what it waits for, and keep a blocked stop signal.
-/

namespace CosmoRT.Proc

open Event Function Option BitVec Bool

/-! ## Sets without a common signal -/

theorem and_eq_zero_iff (a m : SigSet) :
    a &&& m = 0#64 ↔ ∀ sig, 1 ≤ sig → sig ≤ 64 → hasSig a sig = true → hasSig m sig = false := by
  constructor
  · intro h sig _ _ ha
    have hz : hasSig (a &&& m) sig = false := by rw [h]; exact hasSig_zero sig
    simpa [ha] using hz
  · intro h
    refine eq_of_getLsbD_eq fun i hi => ?_
    have hbit := h (i + 1) (by omega) (by omega)
    rw [hasSig_eq, hasSig_eq] at hbit
    rw [getLsbD_and, getLsbD_zero, and_eq_false_imp]
    exact hbit

/-- What is found by a scan of the signals, if anything is there at all. -/
theorem find_signal {m : SigSet} (h : m ≠ 0#64) :
    1 ≤ (allSignals.find? (hasSig m)).getD 64 ∧ (allSignals.find? (hasSig m)).getD 64 ≤ 64 ∧
      hasSig m ((allSignals.find? (hasSig m)).getD 64) = true := by
  cases hf : allSignals.find? (hasSig m) with
  | some sig =>
    have hmem := List.mem_of_find?_eq_some hf
    simp only [allSignals, List.mem_range'_1] at hmem
    exact ⟨hmem.1, by simp only [getD_some]; omega, List.find?_some hf⟩
  | none =>
    -- nothing below 64 is set, so it is bit 63 that makes the set non-empty
    refine ⟨by simp, by simp, ?_⟩
    rw [List.find?_eq_none] at hf
    by_contra hlast
    refine h (eq_of_getLsbD_eq fun i hi => ?_)
    rw [getLsbD_zero]
    have hrest : i + 1 ≠ 64 → ¬hasSig m (i + 1) = true := fun hne =>
      hf (i + 1) (by simp only [allSignals, List.mem_range'_1]; omega)
    rw [getD_none] at hlast
    by_cases hi64 : i + 1 = 64
    · rw [← hi64, hasSig_eq] at hlast
      exact eq_false_iff.mpr hlast
    · have := hrest hi64
      rw [hasSig_eq] at this
      exact eq_false_iff.mpr this

/-! ## Quiet changes -/

/-- A process as the account of its signals sees it. -/
structure SameMail (p p' : Process) : Prop where
  state : p'.state = p.state
  threads : p'.threads = p.threads
  pending : p'.pending = p.pending
  dnotify : p'.dnotifyQ = p.dnotifyQ
  alarm : p'.alarmDeadlineMs = p.alarmDeadlineMs

theorem SameMail.refl (p : Process) : SameMail p p := ⟨rfl, rfl, rfl, rfl, rfl⟩

variable {p : Process} {t : Thread} {k : Kernel} {pid u : ℕ}

theorem SameMail.trans {p' p'' : Process} (h : SameMail p p') (h' : SameMail p' p'') :
    SameMail p p'' :=
  ⟨h'.state.trans h.state, h'.threads.trans h.threads, h'.pending.trans h.pending,
    h'.dnotify.trans h.dnotify, h'.alarm.trans h.alarm⟩

/-- A thread likewise; it does not fall asleep. -/
structure SameBox (t t' : Thread) : Prop where
  pending : t'.pending = t.pending
  proc : t'.proc = t.proc
  call : t'.call = t.call
  asleep : t'.state = .BLOCKED → t.state = .BLOCKED

theorem SameBox.refl (t : Thread) : SameBox t t := ⟨rfl, rfl, rfl, id⟩

theorem SameBox.trans {t' t'' : Thread} (h : SameBox t t') (h' : SameBox t' t'') : SameBox t t'' :=
  ⟨h'.pending.trans h.pending, h'.proc.trans h.proc, h'.call.trans h.call,
    fun hb => h.asleep (h'.asleep hb)⟩

/-- No pending set of the process changes and no thread falls asleep. -/
structure Quiet (pid : ℕ) (k k' : Kernel) : Prop where
  proc : ∀ p, k.procs pid = some p → ∃ p', k'.procs pid = some p' ∧ SameMail p p'
  thread : ∀ u t', k'.threads u = some t' → ∃ t, k.threads u = some t ∧ SameBox t t'

namespace Quiet

variable {pid : ℕ} {k k' k'' : Kernel}

theorem of_eq (hp : k'.procs = k.procs) (ht : k'.threads = k.threads) : Quiet pid k k' :=
  ⟨fun p h => ⟨p, by rw [hp, h], .refl p⟩, fun _ t h => ⟨t, ht ▸ h, .refl t⟩⟩

theorem refl (pid : ℕ) (k : Kernel) : Quiet pid k k := of_eq rfl rfl

theorem trans (h : Quiet pid k k') (h' : Quiet pid k' k'') : Quiet pid k k'' where
  proc p hp := by
    obtain ⟨p', hp', hs⟩ := h.proc p hp
    obtain ⟨p'', hp'', hs'⟩ := h'.proc p' hp'
    exact ⟨p'', hp'', hs.trans hs'⟩
  thread u t'' ht'' := by
    obtain ⟨t', ht', hs'⟩ := h'.thread u t'' ht''
    obtain ⟨t, ht, hs⟩ := h.thread u t' ht'
    exact ⟨t, ht, hs.trans hs'⟩

theorem foldl {α : Type} {f : Kernel → α → Kernel} (hf : ∀ k a, Quiet pid k (f k a)) (l : List α)
    (k : Kernel) : Quiet pid k (l.foldl f k) := by
  induction l generalizing k with
  | nil => exact refl pid k
  | cons a l ih => exact (hf k a).trans (ih (f k a))

theorem modThread (k : Kernel) (tid : ℕ) {f : Thread → Thread}
    (hf : ∀ t, SameBox t (f t)) : Quiet pid k (k.modThread tid f) where
  proc p hp := ⟨p, hp, .refl p⟩
  thread u t' ht' := by
    obtain ⟨t, ht, rfl⟩ := modThread_some ht'
    refine ⟨t, ht, ?_⟩
    split
    · exact hf t
    · exact .refl t

theorem modProc (k : Kernel) (q : ℕ) {f : Process → Process}
    (hf : ∀ p, k.procs pid = some p → SameMail p (f p)) : Quiet pid k (k.modProc q f) where
  proc p hp := by
    rw [modProc_procs]
    split
    · exact ⟨f p, by rw [hp]; rfl, hf p hp⟩
    · exact ⟨p, hp, .refl p⟩
  thread u t ht := ⟨t, ht, .refl t⟩

theorem setState (k : Kernel) (tid : ℕ) {st : ThreadState} (hst : st ≠ .BLOCKED) :
    Quiet pid k (k.setState tid st) :=
  modThread k tid fun _ => ⟨rfl, rfl, rfl, fun h => absurd h hst⟩

theorem woken {mask : WakeMask} (h : Woken mask k k') : Quiet pid k k' where
  proc p hp := ⟨p, by rw [h.procs, hp], .refl p⟩
  thread u t' ht' := by
    rcases h.threads u with he | ⟨t, ht, -, he⟩
    · exact ⟨t', he ▸ ht', .refl t'⟩
    · obtain rfl := mem_unique he ht'
      exact ⟨t, ht, rfl, rfl, rfl, by simp⟩

theorem stopThreads (k : Kernel) (which : ThreadState → Bool) (tids : List ℕ) :
    Quiet pid k (stopThreads k which tids) := by
  refine foldl (fun k u => modThread k u fun t => ?_) tids k
  split
  · exact ⟨rfl, rfl, rfl, by simp⟩
  · exact .refl t

theorem killStop (k : Kernel) (sig : ℕ) (p : Process) : Quiet pid k (killStop k pid sig p) := by
  refine trans ?_ (woken (woken_notifyParent _ pid))
  exact (stopThreads k _ p.threads).trans (modProc _ pid fun p _ => ⟨rfl, rfl, rfl, rfl, rfl⟩)

theorem deliverStop (k : Kernel) (tid sig : ℕ) : Quiet pid k (deliverStop k pid tid sig) := by
  refine trans ?_ (setState _ tid (by decide))
  refine trans ?_ (woken (woken_notifyParent _ pid))
  exact (stopThreads k _ _).trans (modProc _ pid fun p _ => ⟨rfl, rfl, rfl, rfl, rfl⟩)

theorem deliverCont (k : Kernel) : Quiet pid k (deliverCont k pid) := by
  unfold Proc.deliverCont
  dsimp only
  split
  · refine trans ?_ (woken (woken_notifyParent _ pid))
    exact (woken (woken_resumeThreads k _)).trans
      (modProc _ pid fun p _ => ⟨rfl, rfl, rfl, rfl, rfl⟩)
  · exact refl pid k

end Quiet

/-- The process is not alive any more. -/
def Ends (pid : ℕ) (k : Kernel) : Prop := ∃ p, k.procs pid = some p ∧ p.state ≠ .ALIVE

theorem ends_exitKillProcess (tid status : ℕ)
    (hp : k.procs pid = some p) : Ends pid (exitKillProcess k tid pid status) := by
  obtain ⟨p', hp', hz, -⟩ := exitKillProcess_zombie tid status hp
  exact ⟨p', hp', by rw [hz]; decide⟩

theorem doExit_quiet {tid : ℕ} (status : ℕ)
    (hp : k.procs pid = some p) (hproc : procOf k tid = some pid) :
    Quiet pid k (doExit k tid status) ∨ Ends pid (doExit k tid status) := by
  simp only [doExit, hproc]
  split
  · exact .inr (ends_exitKillProcess tid status hp)
  · exact .inl (Quiet.setState k tid (by decide))

theorem ends_preemptDeath (tid sig : ℕ)
    (hp : k.procs pid = some p) : Ends pid (preemptDeath k pid tid sig) := by
  refine ⟨{ p with state := .ZOMBIE, exitCode := 128 + sig }, ?_, by simp⟩
  unfold preemptDeath
  rw [(woken_notifyParent _ pid).procs, foldl_procs]
  · rw [modProc_self, Kernel.setState, modThread_procs, hp]
    rfl
  · intro k u
    split <;> rfl

/-! ## The books -/

/-- The accounts of one process and of its threads. -/
structure Books where
  proc : Account
  thread : ℕ → Account

namespace Books

/-- A new process. -/
def empty : Books := ⟨.empty, fun _ => .empty⟩

/-- A signal for the process. -/
def postProc (b : Books) (sig : ℕ) : Books := { b with proc := b.proc.post sig }

/-- A signal for one thread. -/
def postThread (b : Books) (tid sig : ℕ) : Books :=
  { b with thread := update b.thread tid ((b.thread tid).post sig) }

/-- A delivery to the thread `tid`, out of its own pending set or out of the process's. -/
def take (b : Books) (tid : ℕ) (got : Bool × ℕ) : Books :=
  if got.1 then { b with thread := update b.thread tid ((b.thread tid).take got.2) }
  else { b with proc := b.proc.take got.2 }

end Books

/-- The pending sets of the process agree with its books, and none of its threads, those
in `except` apart, sleeps in `sigtimedwait` over a signal that is pending. -/
structure Agree (pid : ℕ) (except : Set ℕ) (b : Books) (k : Kernel) (p : Process) : Prop where
  proc : Covers p.pending b.proc
  member : ∀ u t, k.threads u = some t → t.proc = some pid → u ∈ p.threads
  thread : ∀ u t, k.threads u = some t → t.proc = some pid → Covers t.pending (b.thread u)
  dnotify : p.dnotifyQ = []
  alarm : p.alarmDeadlineMs = 0
  sleeper : ∀ u t m, k.threads u = some t → t.proc = some pid → u ∉ except →
    t.state = .BLOCKED → t.call = some (.sigtimedwait m) → pendingOf p t &&& m = 0#64

/-- The process is alive and its books are right. -/
def Tallied (pid : ℕ) (except : Set ℕ) (b : Books) (k : Kernel) : Prop :=
  ∃ p, k.procs pid = some p ∧ p.state = .ALIVE ∧ Agree pid except b k p

section Tallied

variable {pid tid : ℕ} {except : Set ℕ} {b : Books} {k k' : Kernel} {p : Process} {t : Thread}

theorem Tallied.agree (h : Tallied pid except b k) (hp : k.procs pid = some p) :
    Agree pid except b k p := by
  obtain ⟨p', hp', -, ha⟩ := h
  obtain rfl := mem_unique hp' hp
  exact ha

theorem Tallied.quiet (h : Tallied pid except b k) (hq : Quiet pid k k') :
    Tallied pid except b k' := by
  obtain ⟨p, hp, hl, ha⟩ := h
  obtain ⟨p', hp', hs⟩ := hq.proc p hp
  refine ⟨p', hp', by rw [hs.state, hl], ?_⟩
  refine
    { proc := by rw [hs.pending]; exact ha.proc
      member := fun u t' ht' hproc => ?_
      thread := fun u t' ht' hproc => ?_
      dnotify := by rw [hs.dnotify, ha.dnotify]
      alarm := by rw [hs.alarm, ha.alarm]
      sleeper := fun u t' m ht' hproc hu hb hc => ?_ }
  · obtain ⟨t, ht, hbox⟩ := hq.thread u t' ht'
    rw [hs.threads]
    exact ha.member u t ht (hbox.proc ▸ hproc)
  · obtain ⟨t, ht, hbox⟩ := hq.thread u t' ht'
    rw [hbox.pending]
    exact ha.thread u t ht (hbox.proc ▸ hproc)
  · obtain ⟨t, ht, hbox⟩ := hq.thread u t' ht'
    have hset : pendingOf p' t' = pendingOf p t := by
      rw [pendingOf, pendingOf, hs.pending, hbox.pending]
    rw [hset]
    exact ha.sleeper u t m ht (hbox.proc ▸ hproc) hu (hbox.asleep hb) (hbox.call ▸ hc)

variable {a m : SigSet} {f : Pending → Pending}

variable {sig : ℕ}

/-- A sleeper stays undisturbed by one more signal that it does not wait for. -/
theorem misses_raise (h : a &&& m = 0#64) (hm : hasSig m sig = false)
    (h1 : 1 ≤ sig) : (a ||| sigBit sig) &&& m = 0#64 := by
  rw [and_eq_zero_iff] at h ⊢
  intro s hs1 hs64 hs
  rw [hasSig_or, hasSig_sigBit h1 hs1 hs64, or_eq_true, decide_eq_true_eq] at hs
  rcases hs with hs | rfl
  · exact h s hs1 hs64 hs
  · exact hm

/-- No thread sleeps in `sigtimedwait` for the signal. -/
def Unawaited (pid : ℕ) (k : Kernel) (sig : ℕ) : Prop :=
  ∀ u t m, k.threads u = some t → t.proc = some pid → t.state = .BLOCKED →
    t.call = some (.sigtimedwait m) → hasSig m sig = false

theorem Tallied.postProc (h : Tallied pid ∅ b k)
    (h1 : 1 ≤ sig) (hf : ∀ p, k.procs pid = some p → Covers (f p.pending) (b.proc.post sig))
    (hset : ∀ q : Pending, (f q).set = q.set ||| sigBit sig)
    (hq : Quiet pid (k.modPending pid f) k') (hun : Unawaited pid k' sig) :
    Tallied pid ∅ (b.postProc sig) k' := by
  obtain ⟨p, hp, hl, ha⟩ := h
  have hp1 : (k.modPending pid f).procs pid = some { p with pending := f p.pending } := by
    rw [Kernel.modPending, modProc_self, hp]
    rfl
  -- the books are right at once; the sleepers are so when the wake-ups are done
  have h₁ : Tallied pid .univ (b.postProc sig) (k.modPending pid f) :=
    ⟨_, hp1, hl, hf p hp, ha.member, ha.thread, ha.dnotify, ha.alarm, fun u t m _ _ hu =>
      (hu trivial).elim⟩
  obtain ⟨p', hp', hl', ha'⟩ := h₁.quiet hq
  refine ⟨p', hp', hl', { ha' with sleeper := fun u t' m ht' hproc hu hb hc => ?_ }⟩
  obtain ⟨t, ht, hbox⟩ := hq.thread u t' ht'
  have hbefore := ha.sleeper u t m ht (hbox.proc ▸ hproc) hu (hbox.asleep hb) (hbox.call ▸ hc)
  obtain ⟨p'', hp'', hs⟩ := hq.proc _ hp1
  obtain rfl := mem_unique hp' hp''
  have hpend : pendingOf p' t' = pendingOf p t ||| sigBit sig := by
    rw [pendingOf, pendingOf, hs.pending, hbox.pending, hset, BitVec.or_assoc, BitVec.or_assoc,
      BitVec.or_comm (sigBit sig)]
  rw [hpend]
  exact misses_raise hbefore (hun u t' m ht' hproc hb hc) h1

theorem Tallied.postThread (h : Tallied pid ∅ b k) (h1 : 1 ≤ sig)
    (hf : ∀ t, k.threads tid = some t → t.proc = some pid →
      Covers (f t.pending) ((b.thread tid).post sig))
    (hset : ∀ q : Pending, (f q).set = q.set ||| sigBit sig)
    (hq : Quiet pid (k.modThreadPending tid f) k')
    (hun : ∀ t m, k'.threads tid = some t → t.state = .BLOCKED →
      t.call = some (.sigtimedwait m) → hasSig m sig = false) :
    Tallied pid ∅ (b.postThread tid sig) k' := by
  obtain ⟨p, hp, hl, ha⟩ := h
  have h₁ : Tallied pid .univ (b.postThread tid sig) (k.modThreadPending tid f) := by
    refine ⟨p, hp, hl, ha.proc, fun u t' ht' hproc => ?_, fun u t' ht' hproc => ?_,
      ha.dnotify, ha.alarm, fun u t m _ _ hu => (hu trivial).elim⟩ <;>
    obtain ⟨t, ht, rfl⟩ := modThread_some ht'
    · refine ha.member u t ht ?_
      rw [← hproc]
      split <;> rfl
    · by_cases hu : u = tid
      · subst hu
        rw [if_pos rfl] at hproc ⊢
        simpa [Books.postThread] using hf t ht hproc
      · rw [if_neg hu] at hproc ⊢
        simpa [Books.postThread, update_of_ne hu] using ha.thread u t ht hproc
  obtain ⟨p', hp', hl', ha'⟩ := h₁.quiet hq
  refine ⟨p', hp', hl', { ha' with sleeper := fun u t' m ht' hproc hu hb hc => ?_ }⟩
  obtain ⟨p'', hp'', hs⟩ := hq.proc p hp
  obtain rfl := mem_unique hp' hp''
  obtain ⟨t1, ht1, hbox⟩ := hq.thread u t' ht'
  obtain ⟨t, ht, rfl⟩ := modThread_some ht1
  have hst := hbox.asleep hb
  have hc1 := hbox.call ▸ hc
  rw [hbox.proc] at hproc
  by_cases hut : u = tid
  · subst hut
    rw [if_pos rfl] at hproc hst hc1
    have hpend : pendingOf p' t' = pendingOf p t ||| sigBit sig := by
      rw [pendingOf, pendingOf, hs.pending, hbox.pending, if_pos rfl, hset, BitVec.or_assoc]
    rw [hpend]
    exact misses_raise (ha.sleeper u t m ht hproc hu hst hc1) (hun t' m ht' hb hc) h1
  · rw [if_neg hut] at hproc hst hc1 hbox
    rw [pendingOf, hs.pending, hbox.pending]
    exact ha.sleeper u t m ht hproc hu hst hc1

/-- Nothing is pending after a delivery that was not pending before. -/
theorem misses_take {b : SigSet} (h : b &&& m = 0#64)
    (hsub : ∀ s, hasSig a s = true → hasSig b s = true) : a &&& m = 0#64 := by
  rw [and_eq_zero_iff] at h ⊢
  exact fun s hs1 hs64 hs => h s hs1 hs64 (hsub s hs)

theorem Tallied.takeSignal (h : Tallied pid except b k) (hp : k.procs pid = some p)
    (ht : k.threads tid = some t) (hproc : t.proc = some pid) (h1 : 1 ≤ sig) (h64 : sig ≤ 64)
    (hpend : hasSig (pendingOf p t) sig = true) :
    Tallied pid except (b.take tid (hasSig t.pending.set sig, sig))
      (takeSignal k pid tid sig t) := by
  obtain ⟨p0, hp0, hl, ha⟩ := h
  obtain rfl := mem_unique hp0 hp
  unfold Proc.takeSignal Books.take
  cases hown : hasSig t.pending.set sig with
  | true =>
    -- out of the set of the thread
    refine ⟨p0, hp0, hl, ha.proc, fun u t' ht' hpr => ?_, fun u t' ht' hpr => ?_, ha.dnotify,
      ha.alarm, fun u t' m ht' hpr hu hb hc => ?_⟩
    · obtain ⟨t1, ht1, rfl⟩ := modThread_some ht'
      refine ha.member u t1 ht1 ?_
      rw [← hpr]
      split <;> rfl
    · obtain ⟨t1, ht1, rfl⟩ := modThread_some ht'
      by_cases hu : u = tid
      · subst hu
        obtain rfl := mem_unique ht1 ht
        have := (ha.thread u t1 ht1 hproc).take h1 h64 hown
        simpa using this
      · rw [if_neg hu] at hpr ⊢
        simpa [update_of_ne hu] using ha.thread u t1 ht1 hpr
    · obtain ⟨t1, ht1, rfl⟩ := modThread_some ht'
      by_cases hut : u = tid
      · subst hut
        rw [if_pos rfl] at hpr hb hc ⊢
        refine misses_take (ha.sleeper u t1 m ht1 hpr hu hb hc) fun s hs => ?_
        rw [pendingOf, hasSig_or, or_eq_true] at hs ⊢
        exact hs.imp_right hasSig_of_take
      · rw [if_neg hut] at hpr hb hc ⊢
        exact ha.sleeper u t1 m ht1 hpr hu hb hc
  | false =>
    have hin : hasSig p0.pending.set sig = true := by
      simpa [pendingOf, hown] using hpend
    refine ⟨{ p0 with pending := p0.pending.take sig }, by simp [Kernel.modPending, hp0], hl,
      ha.proc.take h1 h64 hin, ha.member, ha.thread, ha.dnotify, ha.alarm,
      fun u t' m ht' hpr hu hb hc => ?_⟩
    refine misses_take (ha.sleeper u t' m ht' hpr hu hb hc) fun s hs => ?_
    rw [pendingOf, hasSig_or, or_eq_true] at hs ⊢
    exact hs.imp_left hasSig_of_take

end Tallied

/-! ## Sending -/

/-- The pending set that a send goes to. -/
inductive Box where
  | nowhere
  | process
  | thread (tid : ℕ)
  deriving DecidableEq, Repr

/-- A send is entered at its pending set. -/
def Books.post (b : Books) (box : Box) (sig : ℕ) : Books :=
  match box with
  | .nowhere => b
  | .process => b.postProc sig
  | .thread tid => b.postThread tid sig

/-- Where `kill` of a live process has to keep a signal: not if it is ignored; a stop
signal or `SIGCONT` of default disposition only if every thread blocks it. -/
def acceptsKill (k : Kernel) (sig : ℕ) (p : Process) : Box :=
  if (p.sigActions sig).handler = SIG_IGN then .nowhere
  else if (p.sigActions sig).handler = SIG_DFL then
    match defaultAction sig with
    | .ignore => if p.threads.any (threadBlocks k sig) then .process else .nowhere
    | .stop | .cont => if p.threads.all (threadBlocks k sig) then .process else .nowhere
    | .fatal => .process
  else .process

/-- A thread sleeps in `sigtimedwait` for a signal that it blocks. -/
def SleepsFor (k : Kernel) (sig u : ℕ) : Prop :=
  ∃ t m, k.threads u = some t ∧ t.state = .BLOCKED ∧ t.call = some (.sigtimedwait m) ∧
    hasSig m sig = true ∧ hasSig t.sigBlocked sig = true

/-- What `kill` needs for its signal to be kept. -/
structure KillOk (k : Kernel) (sig : ℕ) (p : Process) : Prop where
  /-- A real-time signal of default disposition is not counted. -/
  once : (p.sigActions sig).handler = SIG_DFL → 32 ≤ sig → hasSig p.pending.set sig = false
  /-- The counter is not behind and not full. -/
  room : SIG_IGN < (p.sigActions sig).handler → Covers.QueueOk p.pending sig
  /-- A thread that blocks the signal is not woken. -/
  heard : SIG_IGN < (p.sigActions sig).handler → ∀ u ∈ p.threads, ¬SleepsFor k sig u
  /-- Job control is acted on, blocked or not. -/
  unblocked : (p.sigActions sig).handler = SIG_DFL →
    defaultAction sig = .stop ∨ defaultAction sig = .cont →
    p.threads.all (threadBlocks k sig) = false
  /-- `SIGCONT` clears the stop signals. -/
  still : (p.sigActions sig).handler = SIG_DFL → defaultAction sig = .cont →
    p.pending.set &&& stopBits = 0#64

theorem rouse_ne_blocked (t : Thread) : (rouse .INTERRUPTIBLE t).state ≠ .BLOCKED := by
  unfold rouse
  split
  · simp
  · next h => simpa [WakeMask.covers] using h

variable {tids : List ℕ}

theorem wakeBlocked_unblocked (hu : u ∈ tids) : Unblocked (wakeBlocked k tids) u := by
  intro t ht
  rw [wakeBlocked_threads, if_pos hu] at ht
  obtain ⟨t0, -, rfl⟩ := map_eq_some_iff.mp ht
  exact rouse_ne_blocked t0

theorem signalAll_unblocked (hu : u ∈ tids) : Unblocked (tids.foldl signalWakeUp k) u := by
  intro t ht
  rw [foldl_threads signalWakeUp_threads (rouse_rouse _), if_pos hu] at ht
  obtain ⟨t0, -, rfl⟩ := map_eq_some_iff.mp ht
  exact rouse_ne_blocked t0

section

variable (sig : ℕ) (k : Kernel) (u : ℕ)

theorem woken_wakeOpen : Woken .INTERRUPTIBLE k (wakeOpen sig k u) := by
  unfold wakeOpen
  split
  · exact woken_signalWakeUp k u
  · exact Woken.refl ..

/-- What they do to one thread. -/
def rouseOpen (sig : ℕ) (t : Thread) : Thread :=
  if hasSig t.sigBlocked sig then t else rouse .INTERRUPTIBLE t

theorem wakeOpen_threads :
    (wakeOpen sig k u).threads = (k.modThread u (rouseOpen sig)).threads := by
  funext v
  rw [modThread_threads]
  unfold wakeOpen
  cases hu : k.threads u with
  | none =>
    simp only [threadIn, hu, any_none, Bool.false_and, Bool.false_eq_true, if_false]
    split
    · next hv => rw [hv, hu]; rfl
    · rfl
  | some t =>
    simp only [threadIn, threadBlocks, hu, any_some]
    split
    · next hcond =>
      rw [and_eq_true, not_eq_true'] at hcond
      rw [signalWakeUp_threads, modThread_threads]
      split
      · next hv => simp [hv, hu, rouseOpen, hcond.2]
      · rfl
    · next hcond =>
      split
      · next hv =>
        rw [hv, hu]
        congr 1
        unfold rouseOpen
        split
        · rfl
        · next hopen =>
          -- the thread does not block the signal, so it does not sleep
          simp only [hopen, Bool.not_false, Bool.and_true, decide_eq_true_eq] at hcond
          exact (rouse_of_not_covers (by simpa [WakeMask.covers] using hcond)).symm
      · rfl

end

theorem rouseOpen_rouseOpen (sig : ℕ) (t : Thread) :
    rouseOpen sig (rouseOpen sig t) = rouseOpen sig t := by
  by_cases h : hasSig t.sigBlocked sig = true
  · simp [rouseOpen, h]
  · have hkeep : (rouse .INTERRUPTIBLE t).sigBlocked = t.sigBlocked := by
      unfold rouse; split <;> rfl
    simp [rouseOpen, h, hkeep, rouse_rouse]

theorem wakeOpen_unblocked {sig : ℕ} (hu : u ∈ tids)
    (ht : (tids.foldl (wakeOpen sig) k).threads u = some t) (hb : t.state = .BLOCKED) :
    k.threads u = some t ∧ hasSig t.sigBlocked sig = true := by
  rw [foldl_threads (wakeOpen_threads sig) (rouseOpen_rouseOpen sig), if_pos hu] at ht
  obtain ⟨t0, ht0, rfl⟩ := map_eq_some_iff.mp ht
  unfold rouseOpen at hb ⊢
  split
  · next hs => exact ⟨ht0, hs⟩
  · next hs =>
    rw [if_neg hs] at hb
    exact absurd hb (rouse_ne_blocked t0)

section Send

variable {pid tid : ℕ} {b : Books} {k k' : Kernel} {p : Process} {t : Thread} {sig : ℕ}

/-- Wake-ups of every thread of the process leave nobody asleep. -/
theorem unawaited_of_unblocked (ha : Agree pid ∅ b k p) {f : Pending → Pending}
    (hq : Quiet pid (k.modPending pid f) k') (h : ∀ u ∈ p.threads, Unblocked k' u) :
    Unawaited pid k' sig := by
  intro u t' m ht' hproc hb _
  obtain ⟨t, ht, hbox⟩ := hq.thread u t' ht'
  exact absurd hb (h u (ha.member u t ht (hbox.proc ▸ hproc)) t' ht')

section

variable (h : Tallied pid ∅ b k)
include h

/-- A default signal of `kill` becomes pending and everybody is woken. -/
theorem Tallied.raiseProc (hp : k.procs pid = some p) (h1 : 1 ≤ sig)
    (h64 : sig ≤ 64) (hrt : 32 ≤ sig → hasSig p.pending.set sig = false)
    (hq : Quiet pid (k.modPending pid (·.raise sig)) k') (hwake : ∀ u ∈ p.threads, Unblocked k' u) :
    Tallied pid ∅ (b.postProc sig) k' := by
  have ha := h.agree hp
  refine h.postProc h1 (fun p' hp' => ?_) (fun _ => rfl) hq (unawaited_of_unblocked ha hq hwake)
  obtain rfl := mem_unique hp hp'
  exact ha.proc.raise h1 h64 hrt

omit h in
theorem Quiet.killCont (hp : k.procs pid = some p) (h : p.pending.set &&& stopBits = 0#64) :
    Quiet pid k (killCont k pid p) := by
  have hclear : Quiet pid k
      (k.modPending pid fun q => { q with set := q.set &&& ~~~stopBits }) := by
    refine Quiet.modProc k pid fun p' hp' => ?_
    obtain rfl := mem_unique hp hp'
    refine ⟨rfl, rfl, ?_, rfl, rfl⟩
    show ({ p.pending with set := p.pending.set &&& ~~~stopBits } : Pending) = p.pending
    rw [and_not_of_and_eq_zero h]
  unfold Proc.killCont
  dsimp only
  split
  · refine hclear.trans (Quiet.trans ?_ (Quiet.woken (woken_notifyParent _ pid)))
    refine Quiet.trans ?_ (Quiet.woken (woken_resumeThreads _ p.threads))
    exact Quiet.modProc _ pid fun p _ => ⟨rfl, rfl, rfl, rfl, rfl⟩
  · exact hclear

theorem Tallied.killFatal (hp : k.procs pid = some p) (cur : ℕ) (h1 : 1 ≤ sig)
    (h64 : sig ≤ 64) (hrt : 32 ≤ sig → hasSig p.pending.set sig = false) :
    Tallied pid ∅ (b.postProc sig) (killFatal k cur pid sig p) ∨
      Ends pid (killFatal k cur pid sig p) := by
  unfold Proc.killFatal
  dsimp only
  split
  · exact .inl (h.raiseProc hp h1 h64 hrt (Quiet.woken (wakeBlocked_woken _ _))
      fun u hu => wakeBlocked_unblocked hu)
  split
  · next hself =>
    right
    simp only [doExitGroup, hself]
    refine ends_exitKillProcess (p := { p with exitSignal := sig }) cur (128 + sig) ?_
    rw [Kernel.setState, modThread_procs, modProc_self, hp]
    rfl
  · left
    -- the mark of the fatal signal does not touch what is pending
    set k1 := k.modProc pid fun p => { p with exitSignal := sig } with hk1
    have hp1 : k1.procs pid = some { p with exitSignal := sig } := by
      rw [modProc_self, hp]; rfl
    have h₁ : Tallied pid ∅ b k1 := by
      exact h.quiet (Quiet.modProc k pid fun p _ => ⟨rfl, rfl, rfl, rfl, rfl⟩)
    exact h₁.raiseProc hp1 h1 h64 hrt
      (Quiet.woken (Woken.foldl (fun k u => woken_signalWakeUp k u) _ _))
      fun u hu => signalAll_unblocked hu

theorem Tallied.killHandler (hp : k.procs pid = some p) (h1 : 1 ≤ sig)
    (h64 : sig ≤ 64) (hroom : Covers.QueueOk p.pending sig)
    (hheard : ∀ u ∈ p.threads, ¬SleepsFor k sig u) :
    Tallied pid ∅ (b.postProc sig)
      (p.threads.foldl (wakeOpen sig) (k.modPending pid (·.queue sig))) := by
  have ha := h.agree hp
  have hq : Quiet pid (k.modPending pid (·.queue sig))
      (p.threads.foldl (wakeOpen sig) (k.modPending pid (·.queue sig))) :=
    Quiet.woken (Woken.foldl (woken_wakeOpen sig) _ _)
  refine h.postProc h1 (fun p' hp' => ?_) (fun q => queue_set q sig) hq ?_
  · obtain rfl := mem_unique hp hp'
    exact ha.proc.queue h1 h64 hroom
  · intro u t m ht hproc hb hc
    obtain ⟨t0, ht0, hbox⟩ := hq.thread u t ht
    have hu := ha.member u t0 ht0 (hbox.proc ▸ hproc)
    obtain ⟨hk, hblocks⟩ := wakeOpen_unblocked hu ht hb
    by_contra hm
    exact hheard u hu ⟨t, m, hk, hb, hc, by simpa using hm, hblocks⟩

theorem Tallied.killOne (hp : k.procs pid = some p) (cur : ℕ) (h1 : 1 ≤ sig)
    (h64 : sig ≤ 64) (hok : KillOk k sig p) :
    Tallied pid ∅ (b.post (acceptsKill k sig p) sig) (killOne k cur pid sig).2 ∨
      Ends pid (killOne k cur pid sig).2 := by
  have halive : p.state = .ALIVE := by
    obtain ⟨p', hp', hl, -⟩ := h
    obtain rfl := mem_unique hp hp'
    exact hl
  simp only [Proc.killOne, acceptsKill, hp, halive, ne_eq, not_true_eq_false, if_false]
  by_cases hign : (p.sigActions sig).handler = SIG_IGN
  · simp only [hign, if_true]
    exact .inl h
  by_cases hdfl : (p.sigActions sig).handler = SIG_DFL
  · simp only [hdfl, if_true, show ¬(SIG_DFL = SIG_IGN) from by decide, if_false]
    cases hd : defaultAction sig with
    | ignore =>
      left
      simp only []
      split
      · exact h.raiseProc hp h1 h64 (hok.once hdfl) (Quiet.woken (wakeBlocked_woken _ _))
          fun u hu => wakeBlocked_unblocked hu
      · exact h
    | stop =>
      left
      simp only [hok.unblocked hdfl (.inl hd), false_eq_true, if_false]
      exact h.quiet (Quiet.killStop k sig p)
    | cont =>
      left
      simp only [hok.unblocked hdfl (.inr hd), false_eq_true, if_false]
      exact h.quiet (Quiet.killCont hp (hok.still hdfl hd))
    | fatal => exact h.killFatal hp cur h1 h64 (hok.once hdfl)
  · left
    simp only [hign, hdfl, if_false]
    have hhandler : SIG_IGN < (p.sigActions sig).handler := by
      simp only [SIG_IGN, SIG_DFL] at hign hdfl ⊢
      omega
    exact h.killHandler hp h1 h64 (hok.room hhandler) (hok.heard hhandler)

end

end Send

end CosmoRT.Proc
