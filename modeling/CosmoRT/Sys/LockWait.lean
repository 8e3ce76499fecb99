import CosmoRT.Lib.Walk
import CosmoRT.Sys.LockTable

/-!
# Waiting for a lock: the deadlock check of `F_SETLKW`

A caller of `F_SETLKW` that is refused records one edge, from its process to the
owner of the first lock in its way, and sleeps for 10 ms.  Before it sleeps
`flock_deadlock` follows the recorded edges, at most 32 of them, back to the
caller.

* `setlkw_deadlock_iff` — the caller gets `EDEADLK` exactly when the chain of
  recorded edges returns to it within 32 edges; and where the recorded edges are
  the true ones, exactly when sleeping would close a cycle of at most 33
  processes.
* `setlkw_deadlock_not_exact` — in general the check misses cycles, and reports
  some that are not there.
-/

namespace CosmoRT.Sys

open Lib List

/-! ## The state of the waiters -/

/-- `struct flock_waiter`; `slot` is its address. -/
structure FlockWaiter where
  slot : ℕ
  waiterPid : ℕ
  blockerPid : ℕ
  deriving DecidableEq, Repr

/-- A call of `F_SETLKW` that was refused: what it asks for, and its
`waiter_slot`. -/
structure LockWait where
  q : LockRange
  type : LockType
  waiterSlot : Option ℕ
  deriving DecidableEq, Repr

/-- The lock list, the recorded edges and the calls that are asleep. -/
structure LockSys where
  locks : List FlockEntry
  waiters : List FlockWaiter
  asleep : List LockWait
  deriving DecidableEq, Repr

/-- `FLOCK_DEADLOCK_MAX_DEPTH`. -/
abbrev flockDeadlockMaxDepth : ℕ := 32

section

variable (ws : List FlockWaiter)

/-- The edge `flock_deadlock` follows from a process: the first waiter with its
pid.  A blocker of 0 ends the walk. -/
def recordedEdge (pid : ℕ) : Option ℕ :=
  ((ws.find? (·.waiterPid = pid)).map (·.blockerPid)).filter (· ≠ 0)

/-- `flock_deadlock`. -/
def flockDeadlock (myPid blockerPid : ℕ) : Bool :=
  if blockerPid = 0 then false
  else if blockerPid = myPid then true
  else walkTo (recordedEdge ws) myPid flockDeadlockMaxDepth blockerPid

/-- `flock_waiter_add`, of an entry at address `slot`. -/
def flockWaiterAdd (slot waiterPid blockerPid : ℕ) : List FlockWaiter :=
  ⟨slot, waiterPid, blockerPid⟩ :: ws

/-- `flock_waiter_remove`. -/
def flockWaiterRemove : Option ℕ → List FlockWaiter
  | none => ws
  | some slot => ws.eraseP (·.slot = slot)

/-- `waiter_slot->blocker_pid = blocker`. -/
def setBlocker (slot blockerPid : ℕ) : List FlockWaiter :=
  ws.map fun w => if w.slot = slot then { w with blockerPid := blockerPid } else w

end

/-- One turn of the loop of `fcntl_do_lock` for a call that was refused, up to the
sleep.  `sig` says whether a signal is deliverable; `fresh` is the address of a
new waiter, if there is memory for one.  The result is the error the call returns
with, or `none` when it goes to sleep. -/
def waitTurn (s : LockSys) (w : LockWait) (sig : Bool) (fresh : Option ℕ) :
    Option Errno × LockSys :=
  if sig then
    (some .ERESTARTSYS, { s with waiters := flockWaiterRemove s.waiters w.waiterSlot })
  else
    match flockByterangeConflict s.locks w.q w.type with
    | none => (none, { s with asleep := w :: s.asleep })
    | some c =>
      if w.q.me.kind = .POSIX ∧ c.holder.kind = .POSIX ∧ c.holder.pid ≠ w.q.me.pid then
        if flockDeadlock s.waiters w.q.me.pid c.holder.pid then
          (some .EDEADLK, { s with waiters := flockWaiterRemove s.waiters w.waiterSlot })
        else
          match w.waiterSlot with
          | some slot =>
            (none, { s with waiters := setBlocker s.waiters slot c.holder.pid
                            asleep := w :: s.asleep })
          | none =>
            match fresh with
            | none => (none, { s with asleep := w :: s.asleep })
            | some slot =>
              (none, { s with waiters := flockWaiterAdd s.waiters slot w.q.me.pid c.holder.pid
                              asleep := { w with waiterSlot := some slot } :: s.asleep })
      else (none, { s with asleep := w :: s.asleep })

/-! ## The wait-for graph -/

/-- Process `p` holds a POSIX lock in the way of the call. -/
def Blocks (l : List FlockEntry) (w : LockWait) (p : ℕ) : Prop :=
  ∃ e ∈ l, conflictsWith w.q w.type e = true ∧ e.holder.kind = .POSIX ∧ e.holder.pid = p

/-- An edge of the true wait-for graph: a call of process `p` is asleep, and `p'`
holds a lock in its way now. -/
def WaitsFor (s : LockSys) (p p' : ℕ) : Prop :=
  ∃ w ∈ s.asleep, w.q.me.kind = .POSIX ∧ w.q.me.pid = p ∧ Blocks s.locks w p'

/-- Letting the call sleep would close a cycle of `n + 1` processes. -/
def ClosesCycle (s : LockSys) (w : LockWait) (n : ℕ) : Prop :=
  ∃ p, Blocks s.locks w p ∧ Steps (WaitsFor s) n p w.q.me.pid

/-- The check finds the caller at the end of a chain of recorded edges. -/
theorem flockDeadlock_iff (ws : List FlockWaiter) {r : ℕ → ℕ → Prop} {myPid blockerPid : ℕ}
    (hedge : ∀ p, p ≠ myPid → ∀ p', recordedEdge ws p = some p' ↔ r p p') :
    flockDeadlock ws myPid blockerPid = true ↔
      blockerPid ≠ 0 ∧ ∃ n ≤ 32, Steps r n blockerPid myPid := by
  rw [flockDeadlock]
  by_cases h0 : blockerPid = 0
  · simp [h0]
  rw [if_neg h0]
  by_cases hme : blockerPid = myPid
  · rw [if_pos hme]
    exact ⟨fun _ => ⟨h0, 0, by omega, hme⟩, fun _ => rfl⟩
  · rw [if_neg hme, walkTo_iff hedge _ _ hme]
    simp [h0]

/-- What the turn of a call without a pending signal decides. -/
theorem waitTurn_edeadlk_iff (s : LockSys) (w : LockWait) (fresh : Option ℕ)
    (hposix : w.q.me.kind = .POSIX) :
    (waitTurn s w false fresh).1 = some .EDEADLK ↔
      ∃ c, flockByterangeConflict s.locks w.q w.type = some c ∧ c.holder.kind = .POSIX ∧
        c.holder.pid ≠ w.q.me.pid ∧ flockDeadlock s.waiters w.q.me.pid c.holder.pid = true := by
  rw [waitTurn, if_neg (by decide)]
  cases hc : flockByterangeConflict s.locks w.q w.type with
  | none => simp
  | some c =>
    simp only [hposix, true_and, Option.some.injEq, exists_eq_left']
    by_cases hkind : c.holder.kind = .POSIX ∧ c.holder.pid ≠ w.q.me.pid
    · rw [if_pos hkind]
      by_cases hd : flockDeadlock s.waiters w.q.me.pid c.holder.pid = true
      · rw [if_pos hd]
        exact ⟨fun _ => ⟨hkind.1, hkind.2, hd⟩, fun _ => rfl⟩
      · cases w.waiterSlot <;> cases fresh <;> simp [hd]
    · rw [if_neg hkind]
      simp only [reduceCtorEq, false_iff]
      exact fun h => hkind ⟨h.1, h.2.1⟩

/-- **When `F_SETLKW` reports a deadlock.**  For every state, a POSIX call that was
refused gets `EDEADLK` exactly when the first lock in its way is a POSIX lock
whose owner leads back to the caller over at most 32 recorded edges.  Where the
recorded edges of the other processes are the edges of the true graph, and one
process holds every lock in the way of the call, that is exactly when sleeping
would close a cycle of at most 33 processes. -/
theorem setlkw_deadlock_iff (s : LockSys) (w : LockWait) (fresh : Option ℕ)
    (hposix : w.q.me.kind = .POSIX) :
    ((waitTurn s w false fresh).1 = some .EDEADLK ↔
      ∃ c, flockByterangeConflict s.locks w.q w.type = some c ∧ c.holder.kind = .POSIX ∧
        c.holder.pid ≠ w.q.me.pid ∧ c.holder.pid ≠ 0 ∧
        ∃ n ≤ 32, Steps (fun p p' => recordedEdge s.waiters p = some p') n c.holder.pid
          w.q.me.pid) ∧
    ∀ blocker ≠ 0, (∀ e ∈ s.locks, conflictsWith w.q w.type e = true →
        e.holder.kind = .POSIX ∧ e.holder.pid = blocker) →
      (∀ p, p ≠ w.q.me.pid → ∀ p', recordedEdge s.waiters p = some p' ↔ WaitsFor s p p') →
      ((waitTurn s w false fresh).1 = some .EDEADLK ↔ ∃ n ≤ 32, ClosesCycle s w n) := by
  refine ⟨?_, fun blocker h0 hone hedge => ?_⟩
  · rw [waitTurn_edeadlk_iff s w fresh hposix]
    simp only [flockDeadlock_iff s.waiters (r := fun p p' => recordedEdge s.waiters p = some p')
      (fun _ _ _ => Iff.rfl)]
  · rw [waitTurn_edeadlk_iff s w fresh hposix]
    simp only [flockDeadlock_iff s.waiters hedge]
    constructor
    · rintro ⟨c, hc, hkind, hne, h0', n, hn, hsteps⟩
      exact ⟨n, hn, c.holder.pid, ⟨c, mem_of_find?_eq_some hc, find?_some hc, hkind, rfl⟩,
        hsteps⟩
    · rintro ⟨n, hn, p, ⟨e, he, hconf, hkind, rfl⟩, hsteps⟩
      obtain ⟨c, hc⟩ : ∃ c, flockByterangeConflict s.locks w.q w.type = some c := by
        rw [← Option.isSome_iff_exists, flockByterangeConflict, find?_isSome]
        exact ⟨e, he, hconf⟩
      have hcconf : conflictsWith w.q w.type c = true := find?_some hc
      obtain ⟨hckind, hcpid⟩ := hone c (mem_of_find?_eq_some hc) hcconf
      obtain ⟨-, hepid⟩ := hone e he hconf
      refine ⟨c, hc, hckind, ?_, by rw [hcpid]; exact h0, n, hn, by rwa [hcpid, ← hepid]⟩
      -- a conflicting POSIX lock is not the caller's own
      intro hself
      simp [conflictsWith, flockSameOwner, hckind, hposix, hself] at hcconf

/-- Process `pid` and the first byte of an inode. -/
def firstByte (ino pid : ℕ) : LockRange := ⟨ino, ⟨.POSIX, pid, 0⟩, 0, 0⟩

/-- Processes 1 and 2 hold one byte each; 1 waits for 2's. -/
def crossed : LockSys :=
  ⟨[⟨1, ⟨.POSIX, 2, 0⟩, .WRLCK, 0, 0⟩, ⟨2, ⟨.POSIX, 1, 0⟩, .WRLCK, 0, 0⟩], [⟨8, 1, 2⟩],
    [⟨firstByte 1 1, .WRLCK, some 8⟩]⟩

/-- In `crossed` the recorded edge is the only edge, and process 2 asking for 1's
byte is refused for the cycle it would close. -/
theorem setlkw_deadlock_iff_crossed :
    (waitTurn crossed ⟨firstByte 2 2, .WRLCK, none⟩ false none).1 = some .EDEADLK := by
  have hedge : ∀ p, p ≠ 2 → ∀ p', recordedEdge crossed.waiters p = some p' ↔
      WaitsFor crossed p p' := by
    intro p _ p'
    simp only [recordedEdge, crossed, WaitsFor, Blocks, firstByte, mem_cons, not_mem_nil,
      or_false, exists_eq_left, exists_eq_or_imp]
    by_cases hp : p = 1
    · subst hp
      simp [conflictsWith, flockSameOwner, flockRangeOverlap, Option.filter]
    · have hp' : ¬ 1 = p := fun h => hp h.symm
      simp [hp']
  refine ((setlkw_deadlock_iff crossed ⟨firstByte 2 2, .WRLCK, none⟩ none rfl).2 1 (by decide)
    (by decide) hedge).2 ⟨1, by decide, 1, ?_, 2, ?_, rfl⟩
  · exact ⟨⟨2, ⟨.POSIX, 1, 0⟩, .WRLCK, 0, 0⟩, by decide, by decide, rfl, rfl⟩
  · exact ⟨⟨firstByte 1 1, .WRLCK, some 8⟩, by decide, rfl, rfl,
      ⟨1, ⟨.POSIX, 2, 0⟩, .WRLCK, 0, 0⟩, by decide, by decide, rfl, rfl⟩

/-- Processes 2 and 3 read a byte, 1 holds another one and goes to sleep to write
the first. -/
def twoReaders : LockSys :=
  let locks := run flockNext [] [.setlk (firstByte 1 2) (some .RDLCK),
    .setlk (firstByte 1 3) (some .RDLCK), .setlk (firstByte 2 1) (some .WRLCK)]
  (waitTurn ⟨locks, [], []⟩ ⟨firstByte 1 1, .WRLCK, none⟩ false (some 8)).2

/-- Process 1 holds a byte and goes to sleep on a byte of 2's, which 2 then gives
up. -/
def staleEdge : LockSys :=
  let locks := run flockNext [] [.setlk (firstByte 1 2) (some .WRLCK),
    .setlk (firstByte 2 1) (some .WRLCK)]
  let s := (waitTurn ⟨locks, [], []⟩ ⟨firstByte 1 1, .WRLCK, none⟩ false (some 8)).2
  { s with locks := flockNext s.locks (.setlk (firstByte 1 2) none) }

/-- **The check is not exact.**  Of the two readers in the way of process 1 only the
first is recorded, and the second goes to sleep on 1's byte although that closes
a cycle of the two.  With a stale edge, process 2 fails although nobody waits for
it. -/
theorem setlkw_deadlock_not_exact :
    ((waitTurn twoReaders ⟨firstByte 2 3, .WRLCK, none⟩ false (some 9)).1 = none ∧
      ClosesCycle twoReaders ⟨firstByte 2 3, .WRLCK, none⟩ 1) ∧
    ((waitTurn staleEdge ⟨firstByte 2 2, .WRLCK, none⟩ false (some 9)).1 = some .EDEADLK ∧
      ¬ ∃ n, ClosesCycle staleEdge ⟨firstByte 2 2, .WRLCK, none⟩ n) := by
  refine ⟨⟨by decide, 1, ?_, 3, ?_, rfl⟩, by decide, ?_⟩
  · exact ⟨⟨2, ⟨.POSIX, 1, 0⟩, .WRLCK, 0, 0⟩, by decide, by decide, rfl, rfl⟩
  · exact ⟨⟨firstByte 1 1, .WRLCK, some 8⟩, by decide, rfl, rfl,
      ⟨1, ⟨.POSIX, 3, 0⟩, .RDLCK, 0, 0⟩, by decide, by decide, rfl, rfl⟩
  · -- nothing is in the way of process 1 any more, so no walk leaves it
    have hfree : ∀ p', ¬ WaitsFor staleEdge 1 p' := by
      rintro p' ⟨w, hw, -, -, e, he, hconf, -⟩
      obtain rfl := mem_singleton.1 hw
      obtain rfl := mem_singleton.1 he
      exact absurd hconf (by decide)
    rintro ⟨n, p, ⟨e, he, -, -, rfl⟩, hsteps⟩
    obtain rfl := mem_singleton.1 he
    cases n with
    | zero => exact absurd (show (1 : ℕ) = 2 from hsteps) (by decide)
    | succ n =>
      obtain ⟨p', hedge, -⟩ := hsteps
      exact hfree p' hedge

end CosmoRT.Sys
