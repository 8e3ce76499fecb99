import CosmoRT.Proc.Thread

/-!
# The walk over a robust list

The walk of `do_exit` (`sys/sys_proc.c`) over the robust list of a dying thread, and
`futex_wake` of `ipc/futex.c`, as a machine that makes one access to user memory at a
time; between two of its steps other threads may set the `WAITERS` bit of any word and
go to sleep on it.

* `Way.pc` — **only two ways of dying start the walk at all**: `exit_group`, the death of
  a sibling and a fatal signal in the timer interrupt do not.
-/

namespace CosmoRT.Ipc

open Proc BitVec List

/-! ## Futex words -/

abbrev FUTEX_TID_MASK : BitVec 32 := 0x3FFFFFFF#32
abbrev FUTEX_OWNER_DIED : BitVec 32 := 0x40000000#32
abbrev FUTEX_WAITERS : BitVec 32 := 0x80000000#32

/-- The word that the walk stores: `(fval & FUTEX_WAITERS) | FUTEX_OWNER_DIED`. -/
def diedWord (fval : BitVec 32) : BitVec 32 := fval &&& FUTEX_WAITERS ||| FUTEX_OWNER_DIED

section Bits

variable (v : BitVec 32)

theorem tid_or_waiters : (v ||| FUTEX_WAITERS) &&& FUTEX_TID_MASK = v &&& FUTEX_TID_MASK := by
  rw [and_or_distrib_right, show FUTEX_WAITERS &&& FUTEX_TID_MASK = 0#32 from by decide, or_zero]

theorem died_or_waiters : (v ||| FUTEX_WAITERS) &&& FUTEX_OWNER_DIED = v &&& FUTEX_OWNER_DIED := by
  rw [and_or_distrib_right, show FUTEX_WAITERS &&& FUTEX_OWNER_DIED = 0#32 from by decide, or_zero]

theorem tid_diedWord : diedWord v &&& FUTEX_TID_MASK = 0#32 := by
  rw [diedWord, and_or_distrib_right, BitVec.and_assoc,
    show FUTEX_WAITERS &&& FUTEX_TID_MASK = 0#32 from by decide, and_zero]
  decide

theorem died_diedWord : diedWord v &&& FUTEX_OWNER_DIED = FUTEX_OWNER_DIED := by
  rw [diedWord, and_or_distrib_right, BitVec.and_assoc,
    show FUTEX_WAITERS &&& FUTEX_OWNER_DIED = 0#32 from by decide, and_zero]
  decide

theorem waiters_diedWord : diedWord v &&& FUTEX_WAITERS = v &&& FUTEX_WAITERS := by
  rw [diedWord, and_or_distrib_right, BitVec.and_assoc, BitVec.and_self,
    show FUTEX_OWNER_DIED &&& FUTEX_WAITERS = 0#32 from by decide, or_zero]

theorem waiters_or_waiters : (v ||| FUTEX_WAITERS) &&& FUTEX_WAITERS = FUTEX_WAITERS := by
  rw [and_or_distrib_right]
  exact eq_of_getLsbD_eq fun i hi => by
    cases v.getLsbD i <;> simp

end Bits

/-! ## Memory and waiters -/

/-- User memory of the process, as the walk reads it: eight bytes at an address, four bytes
at an address, and the physical address behind one.  `none` is a fault. -/
structure UserMem where
  link : ℕ → Option ℕ
  word : ℕ → Option (BitVec 32)
  phys : ℕ → Option ℕ
  /-- Only addresses of user space can be read. -/
  user : ∀ a v, word a = some v → userOk a 4 = true

/-- A word that can be read is replaced. -/
def UserMem.store (m : UserMem) (a : ℕ) (f : BitVec 32 → BitVec 32) : UserMem where
  link := m.link
  word b := if b = a then (m.word a).map f else m.word b
  phys := m.phys
  user b v h := by
    split at h
    · next hb =>
      obtain ⟨v₀, h₀, -⟩ := Option.map_eq_some_iff.mp h
      exact hb ▸ m.user a v₀ h₀
    · exact m.user b v h

/-- `futex_waiter_t`: the sleeping thread and its key. -/
structure FutexWaiter where
  task : ℕ
  uaddr : ℕ
  pid : ℕ
  deriving DecidableEq, Repr

/-- `hash_uaddr`. -/
def hashUaddr (uaddr pid : ℕ) : ℕ := (uaddr ^^^ (pid * 2654435761 % 2 ^ 64)) % 64

/-- `futex_bucket`: every waiter is in the bucket of its key. -/
structure FutexTable where
  bucket : ℕ → List FutexWaiter
  filed : ∀ i w, w ∈ bucket i → hashUaddr w.uaddr w.pid = i

/-- A waiter is queued somewhere. -/
def FutexTable.Queued (t : FutexTable) (w : FutexWaiter) : Prop := ∃ i, w ∈ t.bucket i

/-- `futex_prepare_to_wait`: a new waiter goes to the head of its bucket. -/
def FutexTable.insert (t : FutexTable) (w : FutexWaiter) : FutexTable where
  bucket i := if i = hashUaddr w.uaddr w.pid then w :: t.bucket i else t.bucket i
  filed i w' h := by
    split at h
    · next hi =>
      rcases mem_cons.mp h with rfl | h
      · exact hi.symm
      · exact t.filed i w' h
    · exact t.filed i w' h

/-- The scan of `futex_wake` over one bucket with `n` wake-ups to go: the waiters that stay
and those that were woken. -/
def wakeScan (key : ℕ × ℕ) :
    ℕ → List FutexWaiter → Kernel → (List FutexWaiter × List FutexWaiter) × Kernel
  | _, [], k => (([], []), k)
  | 0, ws, k => ((ws, []), k)
  | n + 1, w :: ws, k =>
    if (w.uaddr, w.pid) = key then
      let r := wakeScan key n ws (tryToWakeUp k w.task .NORMAL).2
      ((r.1.1, w :: r.1.2), r.2)
    else
      let r := wakeScan key (n + 1) ws k
      ((w :: r.1.1, r.1.2), r.2)

theorem mem_wakeScan (key : ℕ × ℕ) (n : ℕ) (ws : List FutexWaiter) (k : Kernel) (w : FutexWaiter) :
    w ∈ (wakeScan key n ws k).1.1 ∨ w ∈ (wakeScan key n ws k).1.2 ↔ w ∈ ws := by
  induction ws generalizing n k with
  | nil => cases n <;> simp [wakeScan]
  | cons v ws ih =>
    cases n with
    | zero => simp [wakeScan]
    | succ n =>
      unfold wakeScan
      split
      · rw [mem_cons, mem_cons, ← ih n (tryToWakeUp k v.task .NORMAL).2]
        tauto
      · rw [mem_cons, mem_cons, ← ih (n + 1) k]
        tauto

theorem wakeScan_wakes {key : ℕ × ℕ} {ws : List FutexWaiter} {w : FutexWaiter} (hw : w ∈ ws)
    (hkey : (w.uaddr, w.pid) = key) (n : ℕ) (k : Kernel) :
    ∃ w' ∈ (wakeScan key (n + 1) ws k).1.2, (w'.uaddr, w'.pid) = key := by
  induction ws generalizing k with
  | nil => cases hw
  | cons v ws ih =>
    unfold wakeScan
    split
    · next hv => exact ⟨v, mem_cons_self, hv⟩
    · next hv =>
      rcases mem_cons.mp hw with rfl | hw
      · exact absurd hkey hv
      · exact ih hw k

/-! ## The walk -/

/-- What the walk needs to know of the dying thread: its numbers and `robust_list`. -/
structure Dying where
  tid : ℕ
  pid : ℕ
  robustList : ℕ
  tid_pos : 0 < tid
  tid_lt : tid < 2 ^ 32

/-- What `copy_from_user(&khead, ...)` brings besides the first entry. -/
structure Walk where
  futexOffset : ℕ
  pending : ℕ

/-- What follows when a word has been dealt with: the next entry, with `limit`, or the end. -/
inductive Next where
  | entry (entry limit : ℕ)
  | stop

/-- Where the dying thread is. -/
inductive Pc where
  /-- About to copy the head. -/
  | head
  /-- At the condition of the loop. -/
  | loop (w : Walk) (entry limit : ℕ)
  /-- About to read a futex word. -/
  | look (w : Walk) (addr : ℕ) (next : Next)
  /-- About to exchange a word that was read as `fval`. -/
  | cas (w : Walk) (addr : ℕ) (fval : BitVec 32) (next : Next)
  | wakePrivate (w : Walk) (addr : ℕ) (next : Next)
  | wakeShared (w : Walk) (addr : ℕ) (next : Next)
  /-- About to look at `list_op_pending`. -/
  | pending (w : Walk)
  | done

/-- The state: memory, waiters, scheduler, the waiters woken so far, and the walk. -/
structure Robust where
  mem : UserMem
  table : FutexTable
  k : Kernel
  woken : List FutexWaiter
  pc : Pc

/-- `futex_key`: virtual address and process, or physical address. -/
def futexKey (m : UserMem) (d : Dying) (addr : ℕ) (shared : Bool) : ℕ × ℕ :=
  if shared then (m.phys addr).elim (addr, d.pid) fun pa => (pa, 0) else (addr, d.pid)

/-- `futex_wake(addr, max_wake, shared)`. -/
def futexWake (d : Dying) (s : Robust) (addr maxWake : ℕ) (shared : Bool) : Robust :=
  let key := futexKey s.mem d addr shared
  let i := hashUaddr key.1 key.2
  let r := wakeScan key maxWake (s.table.bucket i) s.k
  { s with
    table :=
      { bucket := fun j => if j = i then r.1.1 else s.table.bucket j
        filed := fun j w h => by
          split at h
          · next hj =>
            subst hj
            exact s.table.filed i w ((mem_wakeScan ..).mp (.inl h))
          · exact s.table.filed j w h }
    k := r.2
    woken := s.woken ++ r.1.2 }

/-- `(char *)entry + futex_offset`. -/
def futexAddr (w : Walk) (entry : ℕ) : ℕ := (entry + w.futexOffset) % 2 ^ 64

/-- Back to the loop, or out of it. -/
def resume (w : Walk) : Next → Pc
  | .entry entry limit => .loop w entry limit
  | .stop => .done

/-- One step of the dying thread. -/
def exitStep (d : Dying) (s : Robust) : Robust :=
  match s.pc with
  | .head =>
    match s.mem.link d.robustList, s.mem.link (d.robustList + 8),
      s.mem.link (d.robustList + 16) with
    | some next, some offset, some pending => { s with pc := .loop ⟨offset, pending⟩ next 4096 }
    | _, _, _ => { s with pc := .done }
  | .loop w entry limit =>
    if entry ≠ 0 ∧ entry ≠ d.robustList ∧ 0 < limit - 1 then
      match s.mem.link entry with
      | none => { s with pc := .pending w }
      | some next => { s with pc := .look w (futexAddr w entry) (.entry next (limit - 1)) }
    else { s with pc := .pending w }
  | .look w addr next =>
    if userOk addr 4 then
      match s.mem.word addr with
      | none => { s with pc := resume w next }
      | some fval =>
        if fval &&& FUTEX_TID_MASK = BitVec.ofNat 32 d.tid then
          { s with pc := .cas w addr fval next }
        else { s with pc := resume w next }
    else { s with pc := resume w next }
  | .cas w addr fval next =>
    -- the exchange is not tried again if the word has changed
    { s with
      mem := if s.mem.word addr = some fval then s.mem.store addr diedWord else s.mem
      pc := .wakePrivate w addr next }
  | .wakePrivate w addr next =>
    { futexWake d s addr 0x7FFFFFFF false with pc := .wakeShared w addr next }
  | .wakeShared w addr next => { futexWake d s addr 0x7FFFFFFF true with pc := resume w next }
  | .pending w =>
    if w.pending ≠ 0 ∧ userOk w.pending 8 then
      { s with pc := .look w (futexAddr w w.pending) .stop }
    else { s with pc := .done }
  | .done => s

/-- The ways in which a thread dies. -/
inductive Way where
  /-- `exit` of the thread itself. -/
  | exit
  /-- `exit_group` of the thread itself, or a fatal signal it sent to its own process. -/
  | exitGroup
  /-- `exit_kill_process` by another thread. -/
  | sibling
  /-- A fatal signal at a system-call return. -/
  | fatalSyscall
  /-- A fatal signal in the timer interrupt. -/
  | fatalPreempt
  deriving DecidableEq, Repr

/-- Where the walk starts: only `do_exit` has it. -/
def Way.pc (way : Way) (d : Dying) : Pc :=
  match way with
  | .exit | .fatalSyscall => if d.robustList = 0 then .done else .head
  | .exitGroup | .sibling | .fatalPreempt => .done

/-- One step of the system: of the dying thread, or of a contender that marks a word or
goes to sleep on it if it still has the value the contender saw. -/
inductive RobustOp where
  | exit
  | setWaiters (addr : ℕ)
  | wait (task addr : ℕ) (shared : Bool) (val : BitVec 32)
  deriving DecidableEq, Repr

def robustNext (d : Dying) (s : Robust) : RobustOp → Robust
  | .exit => exitStep d s
  | .setWaiters addr => { s with mem := s.mem.store addr (· ||| FUTEX_WAITERS) }
  | .wait task addr shared val =>
    if s.mem.word addr = some val then
      let key := futexKey s.mem d addr shared
      { s with
        table := s.table.insert ⟨task, key.1, key.2⟩
        k := s.k.setState task .BLOCKED }
    else s

end CosmoRT.Ipc
