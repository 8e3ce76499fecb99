import CosmoRT.Proc.Signal

/-!
# A pending set as an account

What a pending set is for: to remember how often each signal still has to be
delivered.  `Account` says that in its own terms, with the number of deliveries that
have been promised and made; a standard signal is promised at most once at a time, a
real-time signal once per send.

`Covers` says that a bit and a 16-bit counter represent such an account.  The three
things the code does to a pending set keep it under conditions that can be read off
before:

* `Covers.raise` — setting the bit alone; **for a real-time signal only if it is clear**;
* `Covers.queue` — setting the bit and counting, if the count is not behind already;
* `Covers.take` — taking one delivery out, always.
-/

namespace CosmoRT.Proc

open Function

/-- Deliveries promised and made, by signal. -/
structure Account where
  posted : ℕ → ℕ
  taken : ℕ → ℕ

namespace Account

/-- Nothing promised. -/
def empty : Account := ⟨fun _ => 0, fun _ => 0⟩

/-- A signal is accepted: a standard signal that is promised already stays so. -/
def post (a : Account) (sig : ℕ) : Account :=
  let promised := if sig < 32 then a.taken sig + 1 else a.posted sig + 1
  { a with posted := update a.posted sig promised }

/-- One delivery is made. -/
def take (a : Account) (sig : ℕ) : Account :=
  { a with taken := update a.taken sig (a.taken sig + 1) }

/-- The deliveries still to be made. -/
def due (a : Account) (sig : ℕ) : ℕ := a.posted sig - a.taken sig

variable (a : Account) {sig s : ℕ}

@[simp] theorem post_taken : (a.post sig).taken = a.taken := rfl

@[simp] theorem take_posted : (a.take sig).posted = a.posted := rfl

theorem post_posted_self : (a.post sig).posted sig =
    if sig < 32 then a.taken sig + 1 else a.posted sig + 1 := update_self ..

theorem post_posted_ne (h : s ≠ sig) : (a.post sig).posted s = a.posted s :=
  update_of_ne h ..

theorem take_taken_self : (a.take sig).taken sig = a.taken sig + 1 := update_self ..

theorem take_taken_ne (h : s ≠ sig) : (a.take sig).taken s = a.taken s := update_of_ne h ..

end Account

/-! ## Bits of a pending set -/

theorem hasSig_and_not_sigBit {m : SigSet} {sig s : ℕ} (h1 : 1 ≤ sig) (hs1 : 1 ≤ s)
    (hs : s ≤ 64) : hasSig (m &&& ~~~sigBit sig) s = (hasSig m s && decide (s ≠ sig)) := by
  rw [hasSig_and, hasSig_not _ hs, hasSig_sigBit h1 hs1 hs]
  simp

section

variable {q : Pending} {sig s : ℕ}

theorem hasSig_take_ne (h1 : 1 ≤ sig) (hs1 : 1 ≤ s) (hs : s ≤ 64)
    (hne : s ≠ sig) : hasSig (q.take sig).set s = hasSig q.set s := by
  unfold Pending.take
  split
  · split
    · simp [hasSig_and_not_sigBit h1 hs1 hs, hne]
    · rfl
  · simp [hasSig_and_not_sigBit h1 hs1 hs, hne]

theorem rtCount_take_ne (hne : s ≠ sig) : (q.take sig).rtCount s = q.rtCount s := by
  unfold Pending.take
  split
  · exact update_of_ne hne ..
  · rfl

theorem hasSig_of_take (h : hasSig (q.take sig).set s = true) : hasSig q.set s = true := by
  unfold Pending.take at h
  split at h
  · split at h
    · exact (by simpa using h : _ ∧ _).1
    · exact h
  · exact (by simpa using h : _ ∧ _).1

theorem hasSig_raise_ne (h1 : 1 ≤ sig) (hs1 : 1 ≤ s) (hs : s ≤ 64)
    (hne : s ≠ sig) : hasSig (q.raise sig).set s = hasSig q.set s := by
  simp [Pending.raise, hasSig_sigBit h1 hs1 hs, hne]

end

theorem queue_set (q : Pending) (sig : ℕ) : (q.queue sig).set = (q.raise sig).set := by
  unfold Pending.queue
  split <;> rfl

theorem hasSig_raise_self {q : Pending} {sig : ℕ} (h1 : 1 ≤ sig) (h : sig ≤ 64) :
    hasSig (q.raise sig).set sig = true := by
  simp [Pending.raise, hasSig_sigBit h1 h1 h]

/-! ## Representation -/

/-- The pending set `q` represents the account `a`.  A real-time signal that was sent
with default disposition has its bit set and no count: that stands for one delivery. -/
structure Covers (q : Pending) (a : Account) : Prop where
  le : ∀ sig, a.taken sig ≤ a.posted sig
  standard : ∀ sig, sig < 32 → a.posted sig ≤ a.taken sig + 1
  bit : ∀ sig, 1 ≤ sig → sig ≤ 64 → (hasSig q.set sig = true ↔ a.taken sig < a.posted sig)
  depth : ∀ sig, 32 ≤ sig → q.rtCount sig = a.due sig ∨ q.rtCount sig = 0 ∧ a.due sig = 1

theorem covers_empty : Covers Pending.empty Account.empty where
  le _ := Nat.le_refl 0
  standard _ _ := Nat.zero_le _
  bit sig _ _ := by simp [Pending.empty, Account.empty]
  depth _ _ := .inl rfl

namespace Covers

variable {q : Pending} {a : Account} {sig : ℕ}

theorem clear (h : Covers q a) (h1 : 1 ≤ sig) (h64 : sig ≤ 64) (hb : hasSig q.set sig = false) :
    a.posted sig = a.taken sig := by
  have hle := h.le sig
  have hbit := h.bit sig h1 h64
  rw [hb] at hbit
  simp only [Bool.false_eq_true, false_iff] at hbit
  omega

theorem change (h : Covers q a) {q' : Pending} {a' : Account}
    (hset : ∀ s, 1 ≤ s → s ≤ 64 → s ≠ sig → hasSig q'.set s = hasSig q.set s)
    (hcount : ∀ s, s ≠ sig → q'.rtCount s = q.rtCount s)
    (hposted : ∀ s, s ≠ sig → a'.posted s = a.posted s)
    (htaken : ∀ s, s ≠ sig → a'.taken s = a.taken s) (hle : a'.taken sig ≤ a'.posted sig)
    (hstd : sig < 32 → a'.posted sig ≤ a'.taken sig + 1)
    (hbit : hasSig q'.set sig = true ↔ a'.taken sig < a'.posted sig)
    (hdepth : 32 ≤ sig → q'.rtCount sig = a'.due sig ∨ q'.rtCount sig = 0 ∧ a'.due sig = 1) :
    Covers q' a' := by
  refine ⟨fun s => ?_, fun s hlt => ?_, fun s hs1 hs64 => ?_, fun s h32 => ?_⟩ <;>
    rcases eq_or_ne s sig with rfl | hs
  · exact hle
  · rw [hposted s hs, htaken s hs]
    exact h.le s
  · exact hstd hlt
  · rw [hposted s hs, htaken s hs]
    exact h.standard s hlt
  · exact hbit
  · rw [hset s hs1 hs64 hs, hposted s hs, htaken s hs]
    exact h.bit s hs1 hs64
  · exact hdepth h32
  · rw [Account.due, hposted s hs, htaken s hs, hcount s hs]
    exact h.depth s h32

theorem raise (h : Covers q a) (h1 : 1 ≤ sig) (h64 : sig ≤ 64)
    (hrt : 32 ≤ sig → hasSig q.set sig = false) : Covers (q.raise sig) (a.post sig) := by
  have hle := h.le sig
  refine h.change (fun s hs1 hs64 => hasSig_raise_ne h1 hs1 hs64) (fun _ _ => rfl)
    (fun _ => a.post_posted_ne) (fun _ _ => rfl) ?_ (fun hlt => ?_) ?_ fun h32 => ?_
  · rw [a.post_posted_self, Account.post_taken]
    split <;> omega
  · rw [a.post_posted_self, if_pos hlt, Account.post_taken]
  · rw [hasSig_raise_self h1 h64, a.post_posted_self, Account.post_taken]
    simp only [true_iff]
    split <;> omega
  · have hclear := h.clear h1 h64 (hrt h32)
    have hdepth := h.depth sig h32
    rw [Account.due, a.post_posted_self, if_neg (by omega)]
    simp only [Account.due, Account.post_taken, Pending.raise] at hdepth ⊢
    omega

/-- The counter of a real-time signal can take one more and is not behind. -/
def QueueOk (q : Pending) (sig : ℕ) : Prop :=
  32 ≤ sig → (hasSig q.set sig = false ∨ 0 < q.rtCount sig) ∧ q.rtCount sig < 0xFFFF

theorem queue (h : Covers q a) (h1 : 1 ≤ sig) (h64 : sig ≤ 64) (hok : QueueOk q sig) :
    Covers (q.queue sig) (a.post sig) := by
  by_cases h32 : 32 ≤ sig
  · obtain ⟨hbit, hlt⟩ := hok h32
    have hdepth := h.depth sig h32
    -- the counter and the queue have the same depth before
    have hcount : q.rtCount sig = a.due sig := by
      rcases hbit with hb | hpos
      · have := h.clear h1 h64 hb
        rw [Account.due] at hdepth ⊢
        omega
      · omega
    have hnew : (q.queue sig).rtCount = update q.rtCount sig (q.rtCount sig + 1) := by
      simp [Pending.queue, h32, hlt]
    have hpost : (a.post sig).posted sig = a.posted sig + 1 := by
      rw [a.post_posted_self, if_neg (by omega)]
    have hle := h.le sig
    refine h.change (fun s hs1 hs64 hs => ?_) (fun s hs => ?_) (fun _ => a.post_posted_ne)
      (fun _ _ => rfl) ?_ (fun hlt => by omega) ?_ fun _ => .inl ?_
    · rw [queue_set, hasSig_raise_ne h1 hs1 hs64 hs]
    · rw [hnew, update_of_ne hs]
    · rw [hpost]
      exact Nat.le_succ_of_le hle
    · rw [queue_set, hasSig_raise_self h1 h64, hpost]
      exact iff_of_true rfl (Nat.lt_succ_of_le hle)
    · rw [hnew, update_self, hcount, Account.due, Account.due, Account.post_taken]
      omega
  · have hq : q.queue sig = q.raise sig := by simp [Pending.queue, h32]
    rw [hq]
    exact h.raise h1 h64 fun h => absurd h h32

theorem take (h : Covers q a) (h1 : 1 ≤ sig) (h64 : sig ≤ 64) (hb : hasSig q.set sig = true) :
    Covers (q.take sig) (a.take sig) := by
  have hlt := (h.bit sig h1 h64).mp hb
  have hnow : (a.take sig).taken sig = a.taken sig + 1 := a.take_taken_self
  refine h.change (fun s hs1 hs64 => hasSig_take_ne h1 hs1 hs64) (fun _ => rtCount_take_ne)
    (fun _ _ => rfl) (fun _ => a.take_taken_ne) ?_ (fun h32 => ?_) ?_ fun h32 => ?_
  · rw [hnow]
    exact hlt
  · have hstd := h.standard sig h32
    rw [Account.take_posted]
    omega
  · have hclear : hasSig (q.set &&& ~~~sigBit sig) sig = false := by
      simp [hasSig_and_not_sigBit h1 h1 h64]
    rw [Account.take_posted]
    unfold Pending.take
    split
    · next h32 =>
      have hdepth := h.depth sig h32
      rw [Account.due] at hdepth
      split
      · simp only [hclear, Bool.false_eq_true, false_iff]
        omega
      · simp only [hb, true_iff]
        omega
    · next h32 =>
      have hstd := h.standard sig (by omega)
      simp only [hclear, Bool.false_eq_true, false_iff]
      omega
  · have hdepth := h.depth sig h32
    have hnew : (q.take sig).rtCount sig = q.rtCount sig - 1 := by simp [Pending.take, h32]
    rw [hnew, Account.due, Account.take_posted]
    rw [Account.due] at hdepth
    omega

end Covers

end CosmoRT.Proc
