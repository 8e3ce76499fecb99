import CosmoRT.Abi
import CosmoRT.Lib.Run
import Mathlib.Data.BitVec

/-!
# PI futexes: `futex_lock_pi` and `futex_unlock_pi` of `ipc/futex.c`

Any number of threads lock and unlock one word, in the kernel and by compare-and-swap in user
space; every atomic operation on the word is one step.  Priorities, the bucket and the sleep
itself have no part in the word and are left out: a thread that sleeps may go on at any time.

* `pi_futex_exclusive` — **the word is a mutex** over every run in which no thread sets
  `FUTEX_WAITERS` between the read of an owner in `futex_unlock_pi` and its compare-and-swap.
* `unlock_pi_keeps_the_word` — the compare-and-swap is not repeated, so the owner that was marked
  in between returns 0 and stays in the word.
-/

namespace CosmoRT.Ipc

open Function Lib BitVec Bool

/-! ## The word -/

/-- `FUTEX_TID_MASK`. -/
def piTidMask : BitVec 32 := 0x3FFFFFFF

/-- `FUTEX_OWNER_DIED`. -/
def piOwnerDied : BitVec 32 := 0x40000000

/-- `FUTEX_WAITERS`. -/
def piWaiters : BitVec 32 := 0x80000000

/-- The TID field of a word. -/
def tidField (w : BitVec 32) : BitVec 32 := w &&& piTidMask

/-- The id of a thread: not 0 and in the TID field. -/
structure Tid where
  val : BitVec 32
  ne_zero : val ≠ 0
  in_field : tidField val = val
  deriving DecidableEq

theorem Tid.ext {t u : Tid} (h : t.val = u.val) : t = u := by
  cases t
  cases u
  simpa using h

/-- `__sync_val_compare_and_swap`: whether it succeeds, and the word afterwards. -/
def cas (w old new : BitVec 32) : Bool × BitVec 32 := if w = old then (true, new) else (false, w)

/-! ## The calls -/

/-- Where a thread is in `futex_lock_pi`, by the atomic operation that comes next; `old` is the
value read before. -/
inductive LockPc where
  | fast
  | died (old : BitVec 32)
  | reload
  | retry (old : BitVec 32)
  | mark
  | again
  | againWaiters
  | wait
  | waitWaiters
  | waitLoad
  | waitDied (old : BitVec 32)
  | waitSignal
  deriving DecidableEq

/-- What a thread in user space did last with the word. -/
inductive Last where
  | nothing
  /-- the word was taken, in user space or by `futex_lock_pi` -/
  | locked
  /-- the word was given back in user space -/
  | released
  /-- `futex_unlock_pi` returned 0 -/
  | unlocked
  | failed (e : Errno)
  deriving DecidableEq

/-- Where a thread is. -/
inductive PiPc where
  | user (last : Last)
  | lock (at' : LockPc)
  | unlockLoad
  | unlockCas (cur : BitVec 32)
  | unlockWake
  deriving DecidableEq

/-- Whether a step takes the word or gives it back. -/
inductive Effect where
  | none
  | acquire
  | release
  deriving DecidableEq

/-- What a step leaves. -/
structure PiMove where
  word : BitVec 32
  pc : PiPc
  effect : Effect
  deriving DecidableEq

/-- One compare-and-swap of `futex_lock_pi` that takes the word; `next` is where it goes on. -/
def tryAcquire (w old new : BitVec 32) (next : LockPc) : PiMove :=
  if (cas w old new).1 then ⟨(cas w old new).2, .user .locked, .acquire⟩ else ⟨w, .lock next, .none⟩

/-- `(old & FUTEX_OWNER_DIED) && (old & FUTEX_TID_MASK) == 0`. -/
def ownerDied (old : BitVec 32) : Bool := old &&& piOwnerDied ≠ 0 && tidField old = 0

section

variable (t : Tid) (signal : Bool) (w : BitVec 32)

/-- `futex_lock_pi`; `signal` is what `signal_deliverable` says. -/
def lockStep : LockPc → PiMove
  | .fast =>
    if w = 0 then ⟨t.val, .user .locked, .acquire⟩
    else if tidField w = t.val then ⟨w, .user (.failed .EDEADLK), .none⟩
    else if ownerDied w then ⟨w, .lock (.died w), .none⟩
    else ⟨w, .lock .mark, .none⟩
  | .died old => tryAcquire w old (t.val ||| piOwnerDied ||| (old &&& piWaiters)) .reload
  | .reload =>
    if tidField w = 0 then ⟨w, .lock (.retry w), .none⟩ else ⟨w, .lock .mark, .none⟩
  | .retry old => tryAcquire w old (t.val ||| (old &&& (piOwnerDied ||| piWaiters))) .mark
  | .mark => ⟨w ||| piWaiters, .lock .again, .none⟩
  | .again => tryAcquire w 0 t.val .againWaiters
  | .againWaiters => tryAcquire w piWaiters (t.val ||| piWaiters) .wait
  | .wait => tryAcquire w 0 t.val .waitWaiters
  | .waitWaiters => tryAcquire w piWaiters (t.val ||| piWaiters) .waitLoad
  | .waitLoad =>
    if ownerDied w then ⟨w, .lock (.waitDied w), .none⟩ else ⟨w, .lock .waitSignal, .none⟩
  | .waitDied old => tryAcquire w old (t.val ||| piOwnerDied ||| (old &&& piWaiters)) .waitSignal
  | .waitSignal =>
    -- otherwise `schedule`, and the loop goes on
    if signal then ⟨w, .user (.failed .EINTR), .none⟩ else ⟨w, .lock .wait, .none⟩

/-- One step of a thread inside a call. -/
def kernelStep : PiPc → PiMove
  | .user last => ⟨w, .user last, .none⟩
  | .lock pc => lockStep t signal w pc
  | .unlockLoad =>
    if tidField w = t.val then ⟨w, .unlockCas w, .none⟩ else ⟨w, .user (.failed .EPERM), .none⟩
  | .unlockCas cur =>
    -- the result of the compare-and-swap is not looked at
    if cur &&& piWaiters ≠ 0 then ⟨(cas w cur piWaiters).2, .unlockWake, .release⟩
    else ⟨(cas w cur 0).2, .user .unlocked, .release⟩
  | .unlockWake => ⟨w, .user .unlocked, .none⟩

/-- The word, where every thread is, and who has acquired the word without having released it. -/
structure PiFutex where
  word : BitVec 32
  pc : Tid → PiPc
  acquired : Tid → Bool

/-- The moves of the threads. -/
inductive PiOp where
  | step (t : Tid) (signal : Bool)
  | callLock (t : Tid)
  | callUnlock (t : Tid)
  /-- compare-and-swap from 0 to the own TID -/
  | userLock (t : Tid)
  /-- compare-and-swap from the own TID to 0 -/
  | userUnlock (t : Tid)
  deriving DecidableEq

/-- What a move leaves, with its effect on who has the word. -/
def PiFutex.moved (s : PiFutex) (t : Tid) (m : PiMove) : PiFutex where
  word := m.word
  pc := update s.pc t m.pc
  acquired :=
    match m.effect with
    | .none => s.acquired
    | .acquire => update s.acquired t true
    | .release => update s.acquired t false

/-- The move of a thread in user space. -/
def userStep (s : PiFutex) (t : Tid) (m : PiMove) : PiFutex :=
  match s.pc t with
  | .user _ => s.moved t m
  | _ => s

def piNext (s : PiFutex) : PiOp → PiFutex
  | .step t signal => s.moved t (kernelStep t signal s.word (s.pc t))
  | .callLock t => userStep s t ⟨s.word, .lock .fast, .none⟩
  | .callUnlock t => userStep s t ⟨s.word, .unlockLoad, .none⟩
  | .userLock t => if s.word = 0 then userStep s t ⟨t.val, .user .locked, .acquire⟩ else s
  | .userUnlock t => if s.word = t.val then userStep s t ⟨0, .user .released, .release⟩ else s

/-- The word is free and nobody is in a call. -/
def piStart : PiFutex where
  word := 0
  pc _ := .user .nothing
  acquired _ := false

/-! ## What a step can do -/

theorem tidField_or (a b : BitVec 32) : tidField (a ||| b) = tidField a ||| tidField b := by
  unfold tidField
  ext i
  simp [Bool.and_or_distrib_right]

@[simp] theorem tidField_zero : tidField 0 = 0 := by decide

@[simp] theorem tidField_waiters : tidField piWaiters = 0 := by decide

theorem tidField_flags (a m : BitVec 32) (hm : m &&& piTidMask = 0) : tidField (a &&& m) = 0 := by
  rw [tidField, BitVec.and_assoc, hm]
  exact and_zero

theorem tidField_tid_or (t : Tid) {b : BitVec 32} (hb : tidField b = 0) :
    tidField (t.val ||| b) = t.val := by
  rw [tidField_or, t.in_field, hb]
  exact or_zero

theorem or_waiters {w : BitVec 32} (h : w &&& piWaiters ≠ 0) : w ||| piWaiters = w := by
  have htwo : piWaiters = twoPow 32 31 := by decide
  rw [htwo, and_twoPow] at h
  have hbit : w.getLsbD 31 = true := by
    by_contra hne
    exact h (if_neg hne)
  rw [htwo]
  refine eq_of_getLsbD_eq fun i hi => ?_
  rw [getLsbD_or]
  by_cases hi31 : i = 31
  · rw [hi31, hbit, Bool.true_or]
  · simp [Ne.symm hi31]

/-- The values read that a thread keeps in `futex_lock_pi` name nobody. -/
def LockPc.Ownerless : LockPc → Prop
  | .died old | .retry old | .waitDied old => tidField old = 0
  | _ => True

/-- What one step of `futex_lock_pi` does: it leaves the word, it marks it, or it takes a word
that names nobody. -/
inductive LockMoved (t : Tid) (w : BitVec 32) (pc : LockPc) (m : PiMove) : Prop where
  | stays (hw : m.word = w) (he : m.effect = .none)
      (hpc : (∃ l, m.pc = .lock l ∧ l.Ownerless) ∨ ∃ e, m.pc = .user (.failed e))
  | marks (hp : pc = .mark) (hw : m.word = w ||| piWaiters) (he : m.effect = .none)
      (hpc : m.pc = .lock .again)
  | takes (hfree : tidField w = 0) (hw : tidField m.word = t.val) (he : m.effect = .acquire)
      (hpc : m.pc = .user .locked)

theorem tryAcquire_moved {t : Tid} {w old new : BitVec 32} {pc next : LockPc}
    (hold : tidField old = 0) (hnew : tidField new = t.val) (hnext : next.Ownerless) :
    LockMoved t w pc (tryAcquire w old new next) := by
  unfold tryAcquire cas
  by_cases hw : w = old
  · rw [if_pos hw]
    exact .takes (hw ▸ hold) hnew rfl rfl
  · rw [if_neg hw]
    exact .stays rfl rfl (.inl ⟨next, rfl, hnext⟩)

theorem lockStep_moved {pc : LockPc}
    (hpc : pc.Ownerless) : LockMoved t w pc (lockStep t signal w pc) := by
  have hflags : ∀ old : BitVec 32, tidField (piOwnerDied ||| (old &&& piWaiters)) = 0 := by
    intro old
    rw [tidField_or, tidField_flags old piWaiters (by decide)]
    decide
  have hdied : ∀ old : BitVec 32,
      tidField (t.val ||| piOwnerDied ||| (old &&& piWaiters)) = t.val := by
    intro old
    rw [BitVec.or_assoc]
    exact tidField_tid_or t (hflags old)
  have hsome : ∀ old : BitVec 32, ownerDied old = true → tidField old = 0 := by
    intro old h
    unfold ownerDied at h
    simp only [and_eq_true, decide_eq_true_eq] at h
    exact h.2
  cases pc with
  | fast =>
    rw [lockStep]
    split_ifs with h0 hself hd
    · exact .takes (by rw [h0]; rfl) t.in_field rfl rfl
    · exact .stays rfl rfl (.inr ⟨_, rfl⟩)
    · exact .stays rfl rfl (.inl ⟨_, rfl, hsome w hd⟩)
    · exact .stays rfl rfl (.inl ⟨_, rfl, trivial⟩)
  | died old | waitDied old => exact tryAcquire_moved hpc (hdied old) trivial
  | reload =>
    rw [lockStep]
    split_ifs with h0
    · exact .stays rfl rfl (.inl ⟨_, rfl, h0⟩)
    · exact .stays rfl rfl (.inl ⟨_, rfl, trivial⟩)
  | retry old =>
    exact tryAcquire_moved hpc (tidField_tid_or t (tidField_flags old _ (by decide))) trivial
  | mark => exact .marks rfl rfl rfl rfl
  | again | wait => exact tryAcquire_moved tidField_zero t.in_field trivial
  | againWaiters
  | waitWaiters =>
    exact tryAcquire_moved tidField_waiters (tidField_tid_or t tidField_waiters) trivial
  | waitLoad =>
    rw [lockStep]
    split_ifs with hd
    · exact .stays rfl rfl (.inl ⟨_, rfl, hsome w hd⟩)
    · exact .stays rfl rfl (.inl ⟨_, rfl, trivial⟩)
  | waitSignal =>
    rw [lockStep]
    split_ifs
    · exact .stays rfl rfl (.inr ⟨_, rfl⟩)
    · exact .stays rfl rfl (.inl ⟨_, rfl, trivial⟩)

end

/-! ## The invariant -/

/-- What is known of a thread by where it is. -/
def PiFutex.At (s : PiFutex) (t : Tid) : PiPc → Prop
  | .lock pc => pc.Ownerless
  | .unlockCas cur => s.acquired t = true ∧ s.word = cur
  | .unlockWake | .user .unlocked => s.acquired t = false
  | _ => True

/-- The word names exactly the thread that has it. -/
structure PiFutex.Sound (s : PiFutex) : Prop where
  names : ∀ t, s.acquired t = true ↔ tidField s.word = t.val
  places : ∀ t, s.At t (s.pc t)

/-- No thread marks the word while an owner that read it unmarked is about to release it. -/
def PiOk (s : PiFutex) : PiOp → Prop
  | .step t _ => s.pc t = .lock .mark → ∀ u cur, s.pc u = .unlockCas cur → cur &&& piWaiters ≠ 0
  | _ => True

namespace PiFutex.Sound

variable {s : PiFutex} {t : Tid} {m : PiMove}

section

variable (h : s.Sound)
include h

/-- What a step has to show: the word names its owner, and the thread itself is in order; of the
others, those that are about to release the word, and those that do not have it. -/
theorem of_moved (hnames : ∀ u, (s.moved t m).acquired u = true ↔ tidField m.word = u.val)
    (hself : (s.moved t m).At t m.pc) (hcas : ∀ u cur, u ≠ t → s.pc u = .unlockCas cur →
      (s.moved t m).acquired u = true ∧ m.word = cur)
    (hout : ∀ u, u ≠ t → s.acquired u = false → (s.moved t m).acquired u = false) :
    (s.moved t m).Sound := by
  refine ⟨hnames, fun u => ?_⟩
  by_cases hu : u = t
  · subst hu
    rwa [show (s.moved u m).pc u = m.pc from update_self ..]
  have hat := h.places u
  rw [show (s.moved t m).pc u = s.pc u from update_of_ne hu ..]
  cases hp : s.pc u with
  | user last =>
    rw [hp] at hat
    cases last with
    | unlocked => exact hout u hu hat
    | _ => trivial
  | lock l =>
    rw [hp] at hat
    exact hat
  | unlockLoad => trivial
  | unlockCas cur => exact hcas u cur hu hp
  | unlockWake =>
    rw [hp] at hat
    exact hout u hu hat

theorem stays (hw : m.word = s.word) (he : m.effect = .none)
    (hpc : s.At t m.pc) : (s.moved t m).Sound := by
  have hacq : (s.moved t m).acquired = s.acquired := by simp only [PiFutex.moved, he]
  refine h.of_moved (by rw [hacq, hw]; exact h.names) ?_ (fun u cur _ hp => ?_) fun u _ hout => ?_
  · unfold PiFutex.At
    rwa [hacq, show (s.moved t m).word = s.word from hw]
  · have hat := h.places u
    rw [hp] at hat
    rwa [hacq, hw]
  · rwa [hacq]

/-- A thread that is about to release the word owns it, so the word cannot be free. -/
theorem cas_names {u : Tid} {cur : BitVec 32} (hu : s.pc u = .unlockCas cur) :
    tidField s.word = u.val := by
  have hat := h.places u
  rw [hu] at hat
  exact (h.names u).1 hat.1

theorem takes (hfree : tidField s.word = 0) (hw : tidField m.word = t.val)
    (he : m.effect = .acquire) (hpc : m.pc = .user .locked) : (s.moved t m).Sound := by
  have hacq : (s.moved t m).acquired = update s.acquired t true := by
    simp only [PiFutex.moved, he]
  have hnobody : ∀ u, s.acquired u = false := by
    intro u
    by_contra hu
    have hval := (h.names u).1 (by simpa using hu)
    exact u.ne_zero (hval.symm.trans hfree)
  refine h.of_moved (fun u => ?_) (by rw [hpc]; trivial) (fun u cur _ hp => ?_) fun u hu hout => ?_
  · rw [hacq, hw, update_apply]
    by_cases hu : u = t
    · simp [hu]
    · rw [if_neg hu, hnobody u]
      exact iff_of_false false_ne_true fun hval => hu (Tid.ext hval.symm)
  · exact absurd ((h.cas_names hp).symm.trans hfree) u.ne_zero
  · rwa [hacq, update_of_ne hu]

theorem gives (howner : tidField s.word = t.val) (hw : tidField m.word = 0)
    (he : m.effect = .release) (hpc : m.pc = .unlockWake ∨ ∃ last, m.pc = .user last) :
    (s.moved t m).Sound := by
  have hacq : (s.moved t m).acquired = update s.acquired t false := by
    simp only [PiFutex.moved, he]
  have hself : (s.moved t m).acquired t = false := by rw [hacq, update_self]
  have hnobody : ∀ u, (s.moved t m).acquired u = false := by
    intro u
    by_cases hu : u = t
    · rw [hu, hself]
    · rw [hacq, update_of_ne hu]
      by_contra hacqu
      have hval := (h.names u).1 (by simpa using hacqu)
      exact hu (Tid.ext (hval.symm.trans howner))
  refine h.of_moved (fun u => ?_) ?_ (fun u cur hu hp => ?_) fun u _ _ => hnobody u
  · rw [hnobody u, hw]
    exact iff_of_false false_ne_true fun hval => u.ne_zero hval.symm
  · rcases hpc with hp | ⟨last, hp⟩
    · rw [hp]
      exact hself
    · rw [hp]
      cases last with
      | unlocked => exact hself
      | _ => trivial
  · exact absurd (Tid.ext ((h.cas_names hp).symm.trans howner)) hu

/-- The word is marked; whoever is about to release it has read it marked. -/
theorem marks (hw : m.word = s.word ||| piWaiters) (he : m.effect = .none)
    (hpc : m.pc = .lock .again)
    (hok : ∀ u cur, s.pc u = .unlockCas cur → cur &&& piWaiters ≠ 0) : (s.moved t m).Sound := by
  have hacq : (s.moved t m).acquired = s.acquired := by simp only [PiFutex.moved, he]
  have hfield : tidField (s.word ||| piWaiters) = tidField s.word := by
    rw [tidField_or]
    exact or_zero
  refine h.of_moved (by rw [hacq, hw, hfield]; exact h.names) (by rw [hpc]; trivial)
    (fun u cur _ hp => ?_) fun u _ hout => ?_
  · have hat := h.places u
    rw [hp] at hat
    rw [hacq, hw, hat.2]
    exact ⟨hat.1, or_waiters (hok u cur hp)⟩
  · rwa [hacq]

theorem kernel {signal : Bool} (hok : PiOk s (.step t signal)) :
    (piNext s (.step t signal)).Sound := by
  have hat := h.places t
  rw [piNext]
  rcases hp : s.pc t with last | l | _ | cur | _
  · rw [hp] at hat
    exact h.stays rfl rfl hat
  · rw [hp] at hat
    rcases lockStep_moved t signal s.word hat with ⟨hw, he, hpc⟩ | ⟨hl, hw, he, hpc⟩ |
      ⟨hfree, hw, he, hpc⟩
    · refine h.stays hw he ?_
      rcases hpc with ⟨l', hl', hown⟩ | ⟨e, he'⟩
      · rw [show (kernelStep t signal s.word (.lock l)).pc = _ from hl']
        exact hown
      · rw [show (kernelStep t signal s.word (.lock l)).pc = _ from he']
        trivial
    · subst hl
      exact h.marks hw he hpc (hok hp)
    · exact h.takes hfree hw he hpc
  · rw [kernelStep]
    split_ifs with hown
    · exact h.stays rfl rfl ⟨(h.names t).2 hown, rfl⟩
    · exact h.stays rfl rfl trivial
  · have hown := h.cas_names hp
    rw [hp] at hat
    have hword : s.word = cur := hat.2
    rw [kernelStep, cas, cas, if_pos hword]
    split_ifs
    · exact h.gives hown tidField_waiters rfl (.inl rfl)
    · exact h.gives hown tidField_zero rfl (.inr ⟨_, rfl⟩)
  · rw [hp] at hat
    exact h.stays rfl rfl hat

theorem user (hmove : (∃ last, s.pc t = .user last) → (s.moved t m).Sound) :
    (userStep s t m).Sound := by
  unfold userStep
  rcases hp : s.pc t with last | l | _ | cur | _
  · exact hmove ⟨last, hp⟩
  all_goals exact h

theorem next {op : PiOp} (hok : PiOk s op) : (piNext s op).Sound := by
  cases op with
  | step t signal => exact h.kernel hok
  | callLock t | callUnlock t => exact h.user fun _ => h.stays rfl rfl trivial
  | userLock t =>
    rw [piNext]
    split_ifs with hzero
    · exact h.user fun _ => h.takes (by rw [hzero]; rfl) t.in_field rfl rfl
    · exact h
  | userUnlock t =>
    rw [piNext]
    split_ifs with hown
    · exact h.user fun _ => h.gives (by rw [hown]; exact t.in_field) tidField_zero rfl
        (.inr ⟨_, rfl⟩)
    · exact h

end

end PiFutex.Sound

theorem piStart_sound : piStart.Sound :=
  ⟨fun t => iff_of_false false_ne_true fun h => t.ne_zero h.symm, fun _ => trivial⟩

/-- At most one thread has the word, the word names it, and a thread to which `futex_unlock_pi`
has returned 0 is not in it. -/
structure PiFutex.Exclusive (s : PiFutex) : Prop where
  one : ∀ t u, s.acquired t = true → s.acquired u = true → t = u
  named : ∀ t, s.acquired t = true → tidField s.word = t.val
  gone : ∀ t, s.pc t = .user .unlocked → tidField s.word ≠ t.val

theorem PiFutex.Sound.exclusive {s : PiFutex} (h : s.Sound) : s.Exclusive where
  one t u ht hu := Tid.ext (((h.names t).1 ht).symm.trans ((h.names u).1 hu))
  named t := (h.names t).1
  gone t hp hnamed := by
    have hat := h.places t
    rw [hp] at hat
    have hfalse : s.acquired t = false := hat
    rw [(h.names t).2 hnamed] at hfalse
    exact false_ne_true hfalse.symm

/-- **The word is a mutex** in every run in which no thread marks it between the read of an owner
and its compare-and-swap. -/
theorem pi_futex_exclusive {ops : List PiOp} (hok : Along piNext PiOk piStart ops) :
    (run piNext piStart ops).Exclusive :=
  (run_invariant (fun _ _ h hop => h.next hop) piStart_sound hok).exclusive

/-- The threads 1 and 2. -/
def tidOne : Tid := ⟨1, by decide, by decide⟩

def tidTwo : Tid := ⟨2, by decide, by decide⟩

/-- Thread 1 locks in user space, thread 2 waits in the kernel, thread 1 unlocks. -/
theorem pi_futex_exclusive_handover :
    (run piNext piStart [.userLock tidOne, .callLock tidTwo, .step tidTwo false,
      .step tidTwo false, .step tidTwo false, .callUnlock tidOne, .step tidOne false,
      .step tidOne false, .step tidOne false, .step tidTwo false]).Exclusive := by
  refine pi_futex_exclusive ⟨trivial, trivial, ?_, ?_, ?_, trivial, ?_, ?_, ?_, ?_, trivial⟩
  case refine_2 =>
    intro _ u cur hu
    have hplace : ∀ v, (run piNext piStart [.userLock tidOne, .callLock tidTwo,
        .step tidTwo false]).pc v = if v = tidTwo then .lock .mark else
        if v = tidOne then .user .locked else .user .nothing := by
      intro v
      simp only [run, List.foldl, piNext, piStart, if_true, userStep, PiFutex.moved]
      by_cases h2 : v = tidTwo <;> by_cases h1 : v = tidOne <;>
        simp [h2, h1, update_apply, kernelStep, lockStep, show tidTwo ≠ tidOne by decide] <;>
        decide
    have hpc := (hplace u).symm.trans hu
    split_ifs at hpc
  all_goals exact fun h => absurd h (by decide)

/-- Thread 2 marks the word after thread 1 has read it: thread 1 returns 0 and is still named. -/
theorem unlock_pi_keeps_the_word :
    ¬(run piNext piStart [.userLock tidOne, .callUnlock tidOne, .step tidOne false,
      .callLock tidTwo, .step tidTwo false, .step tidTwo false, .step tidOne false]).Exclusive := by
  intro h
  exact h.gone tidOne (by decide) (by decide)

end CosmoRT.Ipc
