import Mathlib
import CosmoRT.Lib.Run

/-!
# Read-copy-update: `core/rcu.c`

One processor.  Threads run nested read-side sections, in which they may block, queue callbacks with
`call_rcu` and wait in `synchronize_rcu`; a grace period is over when the processor has passed a
context switch outside of such sections and no reader that was switched out inside one is left.
The timer interrupt may come at any point at which interrupts are on: between two sections under a
lock, between the counter and the list in `rcu_read_unlock`, and so on.

* `Rcu.Sound` — every reader that does not run is on the list of blocked readers; who calls
  `rcu_gp_complete` is outside of read-side sections.
* `Rcu.Sound.all_ended` — so **a grace period ends only when no section is open at all.**
* `grace_periods_protect_readers` — a callback is invoked, and a waiter woken, only after all
  sections that were open when it was queued have ended.
-/

namespace CosmoRT.Core

open Function Lib List

variable {T C : Type} [DecidableEq T]

/-- A callback or a waiter in a queue, with the read-side sections that were open when it was
queued: `since t = some n` says that `t` was in its `n`-th section. -/
structure RcuEntry (T A : Type) where
  item : A
  since : T → Option ℕ

/-- Where the processor is in the functions of this file.  `cont` is the thread that `schedule` has
picked, if `rcu_gp_complete` was called there. -/
inductive RcuPc (T : Type) where
  | thread
  /-- `call_rcu`, with the callback queued -/
  | callStart
  /-- `synchronize_rcu`, with the waiter queued -/
  | syncStart (needStart : Bool)
  | syncBlock
  /-- `rcu_read_unlock`, before `rcu_read_unlock_special` -/
  | special
  | complete (cont : Option T)
  /-- `rcu_gp_complete`, before it starts the next grace period -/
  | chain (cont : Option T)
  | schedule
  /-- `rcu_note_context_switch` -/
  | note (next : T)
  /-- with `qs_pending` cleared -/
  | noteQs (next : T)
  | switch (next : T)
  deriving DecidableEq, Repr

/-- `rcu_state`, the fields of the threads and the processor. -/
structure Rcu (T C : Type) where
  gpSeq : ℕ
  nodeGpSeq : ℕ
  qsmask : BitVec 32
  qsmaskinit : BitVec 32
  blkd : List T
  blkdCount : ℤ
  qsPending : Bool
  cbNext : List (RcuEntry T C)
  cbWait : List (RcuEntry T C)
  cbDone : List (RcuEntry T C)
  cbCount : ℤ
  syncHead : List (RcuEntry T T)
  syncReady : List (RcuEntry T T)
  deferPending : Bool
  nesting : T → ℕ
  /-- `rcu_blocked_node` is not null -/
  blockedNode : T → Bool
  /-- the state of the thread is `BLOCKED` -/
  blocked : T → Bool
  current : T
  pc : RcuPc T
  /-- how many outermost sections the thread has begun -/
  begun : T → ℕ

/-- `RCU_SEQ_ACTIVE`. -/
def rcuSeqActive (seq : ℕ) : Bool := seq % 2 == 1

section

variable (s : Rcu T C)

/-- The sections that are open. -/
def Rcu.openSections (t : T) : Option ℕ :=
  if 0 < s.nesting t then some (s.begun t) else none

/-- `rcu_gp_start`. -/
def rcuGpStart : Rcu T C :=
  if rcuSeqActive s.gpSeq then s
  else
    { s with
      gpSeq := s.gpSeq + 1
      nodeGpSeq := s.gpSeq + 1
      qsmask := s.qsmaskinit
      qsPending := true
      cbWait := s.cbWait ++ s.cbNext
      cbNext := [] }

/-- Back to the thread, or on with the switch. -/
def RcuPc.resume : Option T → RcuPc T
  | none => .thread
  | some next => .switch next

/-- The section of `rcu_gp_complete` under `gp_lock`. -/
def rcuGpComplete (cont : Option T) : Rcu T C :=
  if !rcuSeqActive s.gpSeq then { s with pc := .resume cont }
  else if s.qsmask ≠ 0 ∨ s.blkdCount ≠ 0 then { s with pc := .resume cont }
  else
    { s with
      gpSeq := s.gpSeq + 1
      nodeGpSeq := s.gpSeq + 1
      cbDone := s.cbDone ++ s.cbWait
      cbWait := []
      syncReady := s.syncHead ++ s.syncReady
      syncHead := []
      deferPending := true
      pc := if s.cbNext.isEmpty then .resume cont else .chain cont }

/-- `rcu_read_lock` by the thread that runs. -/
def rcuReadLock : Rcu T C :=
  let t := s.current
  { s with
    nesting := update s.nesting t (s.nesting t + 1)
    begun := if s.nesting t = 0 then update s.begun t (s.begun t + 1) else s.begun }

/-- `rcu_read_unlock` up to the call of `rcu_read_unlock_special`. -/
def rcuReadUnlock : Rcu T C :=
  let t := s.current
  { s with
    nesting := update s.nesting t (s.nesting t - 1)
    pc := if s.nesting t - 1 = 0 ∧ s.blockedNode t then .special else .thread }

/-- `rcu_read_unlock_special`, with `blkd_remove`. -/
def rcuReadUnlockSpecial : Rcu T C :=
  let t := s.current
  let count := s.blkdCount - 1
  { s with
    blkd := s.blkd.erase t
    blockedNode := update s.blockedNode t false
    blkdCount := count
    pc := if rcuSeqActive s.nodeGpSeq ∧ s.qsmask = 0 ∧ count = 0 then .complete none else .thread }

/-- `rcu_note_context_switch` up to the lock of the node; with `blkd_append`. -/
def rcuNoteContextSwitch (next : T) : Rcu T C :=
  let prev := s.current
  if 0 < s.nesting prev then
    if s.blockedNode prev then { s with pc := .switch next }
    else
      { s with
        blkd := s.blkd ++ [prev]
        blkdCount := s.blkdCount + 1
        blockedNode := update s.blockedNode prev true
        pc := .switch next }
  else if s.qsPending then { s with qsPending := false, pc := .noteQs next }
  else { s with pc := .switch next }

/-- The section of `rcu_note_context_switch` under the lock of the node. -/
def rcuNoteQs (next : T) : Rcu T C :=
  if s.qsmask &&& 1#32 ≠ 0 then
    let qsmask := s.qsmask &&& ~~~1#32
    { s with
      qsmask
      pc := if qsmask = 0 ∧ s.blkdCount = 0 then .complete (some next) else .switch next }
  else { s with pc := .switch next }

/-- `rcu_check_callbacks`. -/
def rcuCheckCallbacks : Rcu T C :=
  if (!s.cbNext.isEmpty || !s.cbWait.isEmpty) && !rcuSeqActive s.gpSeq then rcuGpStart s else s

/-- `rcu_tick_deferred` with `rcu_drain_done`: the callbacks that are invoked, and the waiters that
are woken. -/
def rcuTickDeferred : Rcu T C × List (RcuEntry T C) × List (RcuEntry T T) :=
  if s.deferPending then
    ({ s with
        deferPending := false
        cbDone := []
        cbCount := s.cbCount - s.cbDone.length
        syncReady := []
        blocked := fun t => s.blocked t && !(s.syncReady.any fun e => e.item == t) },
      s.cbDone, s.syncReady)
  else (s, [], [])

/-- The steps; sections are closed as often as they are opened. -/
inductive RcuOp (T C : Type) where
  /-- calls of the thread that runs -/
  | readLock
  | readUnlock
  | callRcu (head : C)
  | synchronizeRcu
  | schedule
  /-- `schedule` picks a thread -/
  | pick (next : T)
  /-- the function that was called goes on -/
  | step
  /-- in the timer interrupt -/
  | checkCallbacks
  | tickDeferred

/-- What comes next in the function that was called. -/
def rcuStep : Rcu T C :=
  match s.pc with
  | .thread => s
  | .callStart => { (if rcuSeqActive s.gpSeq then s else rcuGpStart s) with pc := .thread }
  | .syncStart needStart => { (if needStart then rcuGpStart s else s) with pc := .syncBlock }
  | .syncBlock => { s with blocked := update s.blocked s.current true, pc := .schedule }
  | .special => rcuReadUnlockSpecial s
  | .complete cont => rcuGpComplete s cont
  | .chain cont => { rcuGpStart s with pc := .resume cont }
  | .schedule => s
  | .note next => rcuNoteContextSwitch s next
  | .noteQs next => rcuNoteQs s next
  | .switch next => { s with current := next, pc := .thread }

def rcuNext : RcuOp T C → Rcu T C
  | .readLock => if s.pc = .thread then rcuReadLock s else s
  | .readUnlock => if s.pc = .thread ∧ 0 < s.nesting s.current then rcuReadUnlock s else s
  | .callRcu head =>
    if s.pc = .thread then
      { s with
        cbNext := s.cbNext ++ [⟨head, s.openSections⟩], cbCount := s.cbCount + 1,
        pc := .callStart }
    else s
  | .synchronizeRcu =>
    if s.pc = .thread then
      { s with
        syncHead := ⟨s.current, s.openSections⟩ :: s.syncHead,
        pc := .syncStart (!rcuSeqActive s.gpSeq) }
    else s
  | .schedule => if s.pc = .thread then { s with pc := .schedule } else s
  | .pick next =>
    if s.pc = .schedule ∧ s.blocked next = false then
      { s with pc := if next = s.current then .thread else .note next }
    else s
  | .step => rcuStep s
  | .checkCallbacks => rcuCheckCallbacks s
  | .tickDeferred => (rcuTickDeferred s).1

end

/-- `rcu_init` on one processor. -/
def rcuInit (current : T) : Rcu T C where
  gpSeq := 0
  nodeGpSeq := 0
  qsmask := 0
  qsmaskinit := 1
  blkd := []
  blkdCount := 0
  qsPending := false
  cbNext := []
  cbWait := []
  cbDone := []
  cbCount := 0
  syncHead := []
  syncReady := []
  deferPending := false
  nesting _ := 0
  blockedNode _ := false
  blocked _ := false
  current
  pc := .thread
  begun _ := 0

/-! ## The invariant -/

/-- The sections that were open when `e` was queued have ended. -/
def Rcu.Ended {A : Type} (s : Rcu T C) (e : RcuEntry T A) : Prop :=
  ∀ t n, e.since t = some n → ¬ (0 < s.nesting t ∧ s.begun t = n)

/-- They began in the past. -/
def Rcu.Dated {A : Type} (s : Rcu T C) (e : RcuEntry T A) : Prop :=
  ∀ t n, e.since t = some n → n ≤ s.begun t

/-- The places that are reached only outside of read-side sections. -/
def RcuPc.quiet : RcuPc T → Prop
  | .special | .complete _ | .chain _ | .noteQs _ => True
  | _ => False

/-- The readers and the list of blocked readers. -/
structure Rcu.Tracked (s : Rcu T C) : Prop where
  away : ∀ t, t ≠ s.current → 0 < s.nesting t → s.blockedNode t = true
  listed : ∀ t, s.blockedNode t = true ↔ t ∈ s.blkd
  nodup : s.blkd.Nodup
  count : s.blkdCount = s.blkd.length
  quiet : s.pc.quiet → s.nesting s.current = 0
  special : s.pc = .special → s.blockedNode s.current = true
  leaving : ∀ next, s.pc = .switch next → 0 < s.nesting s.current → s.blockedNode s.current = true

/-- The queues. -/
structure Rcu.Queued (s : Rcu T C) : Prop where
  next : ∀ e ∈ s.cbNext, s.Dated e
  wait : ∀ e ∈ s.cbWait, s.Dated e
  done : ∀ e ∈ s.cbDone, s.Dated e ∧ s.Ended e
  head : ∀ e ∈ s.syncHead, s.Dated e
  ready : ∀ e ∈ s.syncReady, s.Dated e ∧ s.Ended e

structure Rcu.Sound (s : Rcu T C) : Prop where
  tracked : s.Tracked
  queued : s.Queued

variable {s : Rcu T C}

section

omit [DecidableEq T]

/-- Where a reader that does not run is on the list, and the thread that runs is outside of
sections, an empty list means that **no section is open**. -/
theorem Rcu.Tracked.all_ended (h : s.Tracked) (hquiet : s.pc.quiet) (hcount : s.blkdCount = 0)
    (t : T) : s.nesting t = 0 := by
  by_contra hne
  have hpos : 0 < s.nesting t := Nat.pos_of_ne_zero hne
  have haway : t ≠ s.current := by
    rintro rfl
    exact hne (h.quiet hquiet)
  have hmem := (h.listed t).1 (h.away t haway hpos)
  have hlen : s.blkd.length = 0 := by
    have := h.count
    omega
  rw [length_eq_zero_iff.1 hlen] at hmem
  exact absurd hmem not_mem_nil

/-- What was queued stays in order when sections begin or end. -/
theorem Rcu.Queued.of_sections (h : s.Queued) {s' : Rcu T C}
    (hdated : ∀ {A : Type} {e : RcuEntry T A}, s.Dated e → s'.Dated e)
    (hended : ∀ {A : Type} {e : RcuEntry T A}, s.Dated e → s.Ended e → s'.Ended e)
    (hnext : s'.cbNext = s.cbNext) (hwait : s'.cbWait = s.cbWait) (hdone : s'.cbDone = s.cbDone)
    (hhead : s'.syncHead = s.syncHead) (hready : s'.syncReady = s.syncReady) : s'.Queued where
  next e he := hdated (h.next e (hnext ▸ he))
  wait e he := hdated (h.wait e (hwait ▸ he))
  done e he :=
    have hold := h.done e (hdone ▸ he)
    ⟨hdated hold.1, hended hold.1 hold.2⟩
  head e he := hdated (h.head e (hhead ▸ he))
  ready e he :=
    have hold := h.ready e (hready ▸ he)
    ⟨hdated hold.1, hended hold.1 hold.2⟩

theorem RcuPc.resume_ne_special (cont : Option T) : RcuPc.resume cont ≠ .special := by
  cases cont <;> simp [RcuPc.resume]

end

/-! ## The steps -/

namespace Rcu.Sound

theorem rcuReadLock (h : s.Sound) (hpc : s.pc = .thread) : (rcuReadLock s).Sound := by
  obtain ⟨ht, hq⟩ := h
  refine ⟨⟨fun t hne hpos => ?_, ht.listed, ht.nodup, ht.count, ?_, ?_, ?_⟩,
    hq.of_sections (fun hd t n hn => ?_) (fun hd he t n hn => ?_) rfl rfl rfl rfl rfl⟩
  · have hne' : t ≠ s.current := hne
    exact ht.away t hne (by simpa [Core.rcuReadLock, update_of_ne hne'] using hpos)
  · simp [Core.rcuReadLock, hpc, RcuPc.quiet]
  · simp [Core.rcuReadLock, hpc]
  · simp [Core.rcuReadLock, hpc]
  · have hold := hd t n hn
    simp only [Core.rcuReadLock]
    split_ifs
    · by_cases htc : t = s.current
      · subst htc
        rw [update_self]
        omega
      · rwa [update_of_ne htc]
    · exact hold
  · have hold := he t n hn
    have hdate := hd t n hn
    by_cases htc : t = s.current
    · subst htc
      simp only [Core.rcuReadLock, update_self]
      split_ifs with hzero
      · rw [update_self]
        omega
      · omega
    · simp only [Core.rcuReadLock, update_of_ne htc]
      split_ifs
      · rwa [update_of_ne htc]
      · exact hold

theorem rcuReadUnlock (h : s.Sound) : (rcuReadUnlock s).Sound := by
  obtain ⟨ht, hq⟩ := h
  refine ⟨⟨fun t hne hpos => ?_, ht.listed, ht.nodup, ht.count, fun hquiet => ?_, fun hs => ?_,
    fun next hs => ?_⟩, hq.of_sections (fun hd => hd) (fun _ he t n hn => ?_) rfl rfl rfl rfl rfl⟩
  · have hne' : t ≠ s.current := hne
    exact ht.away t hne (by simpa [Core.rcuReadUnlock, update_of_ne hne'] using hpos)
  · simp only [Core.rcuReadUnlock] at hquiet ⊢
    split_ifs at hquiet with hc
    · rw [update_self]
      exact hc.1
    · exact hquiet.elim
  · simp only [Core.rcuReadUnlock] at hs ⊢
    split_ifs at hs with hc
    · exact hc.2
  · simp only [Core.rcuReadUnlock] at hs
    split_ifs at hs
  · have hold := he t n hn
    by_cases htc : t = s.current
    · subst htc
      simp only [Core.rcuReadUnlock, update_self]
      omega
    · simp only [Core.rcuReadUnlock, update_of_ne htc]
      exact hold

theorem rcuReadUnlockSpecial (h : s.Sound) (hpc : s.pc = .special) :
    (rcuReadUnlockSpecial s).Sound := by
  obtain ⟨ht, hq⟩ := h
  have hzero : s.nesting s.current = 0 := ht.quiet (by rw [hpc]; trivial)
  have hmem : s.current ∈ s.blkd := (ht.listed _).1 (ht.special hpc)
  refine ⟨⟨fun t hne hpos => ?_, fun t => ?_, ht.nodup.erase _, ?_, fun _ => hzero, fun hs => ?_,
    fun next hs => ?_⟩, ⟨hq.next, hq.wait, hq.done, hq.head, hq.ready⟩⟩
  · have hne' : t ≠ s.current := hne
    simp only [Core.rcuReadUnlockSpecial, update_of_ne hne']
    exact ht.away t hne' hpos
  · simp only [Core.rcuReadUnlockSpecial, ht.nodup.mem_erase_iff]
    by_cases htc : t = s.current
    · subst htc
      simp
    · simpa [htc] using ht.listed t
  · simp only [Core.rcuReadUnlockSpecial, length_erase_of_mem hmem, ht.count]
    have := length_pos_of_mem hmem
    omega
  · simp only [Core.rcuReadUnlockSpecial] at hs
    split_ifs at hs
  · simp only [Core.rcuReadUnlockSpecial] at hs
    split_ifs at hs

section

omit [DecidableEq T]

/-- Going on to a place about which nothing has to be known. -/
theorem goto (h : s.Sound) {p : RcuPc T} (hquiet : p.quiet → s.nesting s.current = 0)
    (hspecial : p ≠ .special) (hleaving : ∀ next, p = .switch next → 0 < s.nesting s.current →
      s.blockedNode s.current = true) : Rcu.Sound { s with pc := p } :=
  ⟨⟨h.tracked.away, h.tracked.listed, h.tracked.nodup, h.tracked.count, hquiet,
    fun hs => absurd hs hspecial, hleaving⟩,
   ⟨h.queued.next, h.queued.wait, h.queued.done, h.queued.head, h.queued.ready⟩⟩

/-- Going on when the thread that runs is outside of sections. -/
theorem resume (h : s.Sound) (hzero : s.nesting s.current = 0) (cont : Option T) :
    Rcu.Sound { s with pc := .resume cont } := by
  refine h.goto (fun _ => hzero) (RcuPc.resume_ne_special cont) fun _ _ hpos => ?_
  omega

theorem rcuGpStart (h : s.Sound) : (rcuGpStart s).Sound := by
  unfold Core.rcuGpStart
  split_ifs
  · exact h
  · refine ⟨⟨h.tracked.away, h.tracked.listed, h.tracked.nodup, h.tracked.count, h.tracked.quiet,
      h.tracked.special, h.tracked.leaving⟩,
      ⟨by simp, fun e he => ?_, h.queued.done, h.queued.head, h.queued.ready⟩⟩
    rcases mem_append.1 he with he | he
    · exact h.queued.wait e he
    · exact h.queued.next e he

@[simp] theorem rcuGpStart_nesting : (Core.rcuGpStart s).nesting = s.nesting := by
  unfold Core.rcuGpStart
  split_ifs <;> rfl

@[simp] theorem rcuGpStart_current : (Core.rcuGpStart s).current = s.current := by
  unfold Core.rcuGpStart
  split_ifs <;> rfl

/-- At the end of a grace period no section is open, so that all that waited may go. -/
theorem rcuGpComplete (h : s.Sound) {cont : Option T} (hpc : s.pc = .complete cont) :
    (rcuGpComplete s cont).Sound := by
  obtain ⟨ht, hq⟩ := h
  have hquiet : s.pc.quiet := by rw [hpc]; trivial
  have hzero := ht.quiet hquiet
  unfold Core.rcuGpComplete
  by_cases hidle : (!rcuSeqActive s.gpSeq) = true
  · rw [if_pos hidle]
    exact resume ⟨ht, hq⟩ hzero cont
  rw [if_neg hidle]
  by_cases hopen : s.qsmask ≠ 0 ∨ s.blkdCount ≠ 0
  · rw [if_pos hopen]
    exact resume ⟨ht, hq⟩ hzero cont
  rw [if_neg hopen]
  rw [not_or, not_not, not_not] at hopen
  have hall := ht.all_ended hquiet hopen.2
  have hended : ∀ {A : Type} (e : RcuEntry T A), s.Ended e := fun e t n _ hboth => by
    have := hall t
    omega
  have hmoved : Rcu.Sound { s with
      gpSeq := s.gpSeq + 1, nodeGpSeq := s.gpSeq + 1, cbDone := s.cbDone ++ s.cbWait, cbWait := [],
      syncReady := s.syncHead ++ s.syncReady, syncHead := [], deferPending := true } := by
    refine ⟨⟨ht.away, ht.listed, ht.nodup, ht.count, ht.quiet, ht.special, ht.leaving⟩,
      ⟨hq.next, by simp, fun e he => ?_, by simp, fun e he => ?_⟩⟩
    · rcases mem_append.1 he with he | he
      · exact hq.done e he
      · exact ⟨hq.wait e he, hended e⟩
    · rcases mem_append.1 he with he | he
      · exact ⟨hq.head e he, hended e⟩
      · exact hq.ready e he
  refine hmoved.goto (fun _ => hzero) ?_ fun _ _ hpos => absurd hzero (Nat.ne_of_gt hpos)
  split_ifs
  · exact RcuPc.resume_ne_special cont
  · simp

end

theorem rcuNoteContextSwitch (h : s.Sound) (next : T) : (rcuNoteContextSwitch s next).Sound := by
  have ht := h.tracked
  have hq := h.queued
  unfold Core.rcuNoteContextSwitch
  dsimp only
  split_ifs with hpos hnode hqs
  · exact h.goto False.elim nofun fun _ _ _ => hnode
  · refine ⟨⟨fun t hne hpos => ?_, fun t => ?_, ?_, ?_, False.elim, nofun, fun _ _ _ => ?_⟩,
      ⟨hq.next, hq.wait, hq.done, hq.head, hq.ready⟩⟩
    · have hne' : t ≠ s.current := hne
      simp only [update_of_ne hne']
      exact ht.away t hne' hpos
    · by_cases htc : t = s.current
      · simp [htc]
      · simpa [htc] using ht.listed t
    · have hnot : s.current ∉ s.blkd := fun hmem => hnode ((ht.listed _).2 hmem)
      exact nodup_append.2 ⟨ht.nodup, nodup_singleton _, fun a ha b hb => by
        rintro rfl
        exact hnot (mem_singleton.1 hb ▸ ha)⟩
    · simp [ht.count]
    · simp
  · have hzero : s.nesting s.current = 0 := by omega
    exact ⟨⟨ht.away, ht.listed, ht.nodup, ht.count, fun _ => hzero, nofun, nofun⟩,
      ⟨hq.next, hq.wait, hq.done, hq.head, hq.ready⟩⟩
  · exact h.goto False.elim nofun fun _ _ hpos' => absurd hpos' hpos

omit [DecidableEq T] in
theorem rcuNoteQs (h : s.Sound) {next : T} (hpc : s.pc = .noteQs next) :
    (rcuNoteQs s next).Sound := by
  have ht := h.tracked
  have hq := h.queued
  have hzero := ht.quiet (by rw [hpc]; trivial)
  have hpos : ¬ 0 < s.nesting s.current := by omega
  unfold Core.rcuNoteQs
  dsimp only
  split_ifs
  · exact ⟨⟨ht.away, ht.listed, ht.nodup, ht.count, fun _ => hzero, nofun, nofun⟩,
      ⟨hq.next, hq.wait, hq.done, hq.head, hq.ready⟩⟩
  · exact ⟨⟨ht.away, ht.listed, ht.nodup, ht.count, fun _ => hzero, nofun,
      fun _ _ hpos' => absurd hpos' hpos⟩, ⟨hq.next, hq.wait, hq.done, hq.head, hq.ready⟩⟩
  · exact h.goto False.elim nofun fun _ _ hpos' => absurd hpos' hpos

theorem rcuStep (h : s.Sound) : (rcuStep s).Sound := by
  unfold Core.rcuStep
  cases hpc : s.pc with dsimp only
  | thread | schedule => exact h
  | callStart =>
    split_ifs
    · exact h.goto False.elim nofun nofun
    · exact h.rcuGpStart.goto False.elim nofun nofun
  | syncStart needStart =>
    split_ifs
    · exact h.rcuGpStart.goto False.elim nofun nofun
    · exact h.goto False.elim nofun nofun
  | syncBlock =>
    exact ⟨⟨h.tracked.away, h.tracked.listed, h.tracked.nodup, h.tracked.count, False.elim, nofun,
      nofun⟩, ⟨h.queued.next, h.queued.wait, h.queued.done, h.queued.head, h.queued.ready⟩⟩
  | special => exact h.rcuReadUnlockSpecial hpc
  | complete cont => exact h.rcuGpComplete hpc
  | chain cont =>
    have hzero := h.tracked.quiet (by rw [hpc]; trivial)
    exact h.rcuGpStart.resume (by simpa using hzero) cont
  | note next => exact h.rcuNoteContextSwitch next
  | noteQs next => exact h.rcuNoteQs hpc
  | switch next =>
    refine ⟨⟨fun t hne hpos => ?_, h.tracked.listed, h.tracked.nodup, h.tracked.count, False.elim,
      nofun, nofun⟩, ⟨h.queued.next, h.queued.wait, h.queued.done, h.queued.head, h.queued.ready⟩⟩
    by_cases htc : t = s.current
    · subst htc
      exact h.tracked.leaving next hpc hpos
    · exact h.tracked.away t htc hpos

omit [DecidableEq T] in
theorem openSections_dated {A : Type} (a : A) : s.Dated ⟨a, s.openSections⟩ := by
  intro t n hn
  simp only [Rcu.openSections] at hn
  split_ifs at hn
  exact (Option.some.inj hn).ge

theorem next (h : s.Sound) (op : RcuOp T C) : (rcuNext s op).Sound := by
  have ht := h.tracked
  have hq := h.queued
  cases op with
  | readLock =>
    rw [rcuNext]
    split_ifs with hpc
    · exact h.rcuReadLock hpc
    · exact h
  | readUnlock =>
    rw [rcuNext]
    split_ifs
    · exact h.rcuReadUnlock
    · exact h
  | callRcu head =>
    rw [rcuNext]
    split_ifs
    · refine ⟨⟨ht.away, ht.listed, ht.nodup, ht.count, False.elim, nofun, nofun⟩,
        ⟨fun e he => ?_, hq.wait, hq.done, hq.head, hq.ready⟩⟩
      rcases mem_append.1 he with he | he
      · exact hq.next e he
      · rw [mem_singleton.1 he]
        exact openSections_dated head
    · exact h
  | synchronizeRcu =>
    rw [rcuNext]
    split_ifs
    · refine ⟨⟨ht.away, ht.listed, ht.nodup, ht.count, False.elim, nofun, nofun⟩,
        ⟨hq.next, hq.wait, hq.done, fun e he => ?_, hq.ready⟩⟩
      rcases mem_cons.1 he with rfl | he
      · exact openSections_dated s.current
      · exact hq.head e he
    · exact h
  | schedule =>
    rw [rcuNext]
    split_ifs
    · exact h.goto False.elim nofun nofun
    · exact h
  | pick next =>
    rw [rcuNext]
    split_ifs
    · exact h.goto False.elim nofun nofun
    · exact h.goto False.elim nofun nofun
    · exact h
  | step => exact h.rcuStep
  | checkCallbacks =>
    rw [rcuNext, rcuCheckCallbacks]
    split_ifs
    · exact h.rcuGpStart
    · exact h
  | tickDeferred =>
    rw [rcuNext, rcuTickDeferred]
    split_ifs
    · exact ⟨⟨ht.away, ht.listed, ht.nodup, ht.count, ht.quiet, ht.special, ht.leaving⟩,
        ⟨hq.next, hq.wait, by simp, hq.head, by simp⟩⟩
    · exact h

end Rcu.Sound

omit [DecidableEq T] in
theorem rcuInit_sound (current : T) : (rcuInit current : Rcu T C).Sound where
  tracked := ⟨by simp [rcuInit], by simp [rcuInit], nodup_nil, rfl, False.elim, nofun, nofun⟩
  queued := ⟨by simp [rcuInit], by simp [rcuInit], by simp [rcuInit], by simp [rcuInit],
    by simp [rcuInit]⟩

/-- What a timer interrupt lets go has waited long enough. -/
def Rcu.TickSafe (s : Rcu T C) : Prop :=
  (∀ e ∈ (rcuTickDeferred s).2.1, s.Ended e) ∧ ∀ e ∈ (rcuTickDeferred s).2.2, s.Ended e

/-- **Grace periods protect readers.**  In every run of any number of threads, when
`rcu_tick_deferred` invokes a callback or wakes a waiter, every read-side section that was open when
`call_rcu` or `synchronize_rcu` was called has ended. -/
theorem grace_periods_protect_readers (current : T) (ops : List (RcuOp T C)) :
    (run rcuNext (rcuInit current) ops).TickSafe := by
  have hend : (run rcuNext (rcuInit current) ops : Rcu T C).Sound :=
    run_keeps (fun _ op h => h.next op) (rcuInit_sound current) ops
  unfold Rcu.TickSafe rcuTickDeferred
  split_ifs
  · exact ⟨fun e he => (hend.queued.done e he).2, fun e he => (hend.queued.ready e he).2⟩
  · exact ⟨by simp, by simp⟩

end CosmoRT.Core
