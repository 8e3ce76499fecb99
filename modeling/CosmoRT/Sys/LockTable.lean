import CosmoRT.Lib.Run
import CosmoRT.Sys.FileLock
import Mathlib.Data.List.Perm.Basic

/-!
# Byte-range locks refine a per-byte table

What the lock list is for: a table that says, for every owner, inode and byte,
which lock the owner holds there.  `Reads` reads the table off a list; the calls
are compared with their plain meaning on tables.

* `setlk_spec` — a set is refused exactly on a conflict and otherwise updates
  the table on its range.
* `byterange_locks_refine_table` — both machines agree over every run.
-/

namespace CosmoRT.Sys

open Lib List

/-! ## Owners and coverage -/

/-- The identity `flock_same_owner` compares: a process or, per kind, an open
file description. -/
inductive LockOwner where
  | process (pid : ℕ)
  | file (kind : FlKind) (owner : ℕ)
  deriving DecidableEq, Repr

/-- The identity of a holder or requester. -/
def Locker.id (k : Locker) : LockOwner :=
  if k.kind = .POSIX then .process k.pid else .file k.kind k.owner

/-- A holder of byte ranges. -/
def Locker.ByteRange (k : Locker) : Prop := k.kind = .POSIX ∨ k.kind = .OFD

/-- An owner of byte ranges. -/
def LockOwner.ByteRange : LockOwner → Prop
  | .process _ => True
  | .file kind _ => kind = .OFD

theorem flockSameOwner_iff (a b : Locker) : flockSameOwner a b = true ↔ a.id = b.id := by
  by_cases hk : a.kind = b.kind
  · by_cases hp : b.kind = .POSIX
    · simp [flockSameOwner, Locker.id, hk, hp]
    · simp [flockSameOwner, Locker.id, hk, hp]
  · simp only [flockSameOwner, Locker.id, ne_eq, hk, not_false_eq_true, if_true,
      Bool.false_eq_true, false_iff]
    split_ifs with ha hb
    · exact fun _ => hk (ha.trans hb.symm)
    · simp
    · simp
    · simp [hk]

theorem Locker.byteRange_iff (k : Locker) :
    (decide (k.kind = .POSIX) || decide (k.kind = .OFD)) = true ↔ k.id.ByteRange := by
  by_cases hp : k.kind = .POSIX
  · simp [Locker.id, hp, LockOwner.ByteRange]
  · simp [Locker.id, hp, LockOwner.ByteRange]

/-- The entry gives `owner` a lock of type `t` on byte `x` of inode `ino`. -/
def FlockEntry.Covers (e : FlockEntry) (owner : LockOwner) (ino : ℕ) (x : ℤ) (t : LockType) :
    Prop :=
  e.holder.id = owner ∧ e.ino = ino ∧ e.type = t ∧ e.start ≤ x ∧ x ≤ e.last

/-- Some entry of the list does. -/
def Cover (l : List FlockEntry) (owner : LockOwner) (ino : ℕ) (x : ℤ) (t : LockType) : Prop :=
  ∃ e ∈ l, e.Covers owner ino x t

section Cover

variable {owner : LockOwner} {ino : ℕ} {x : ℤ} {t : LockType}

@[simp] theorem cover_nil : ¬ Cover [] owner ino x t := by simp [Cover]

variable {l : List FlockEntry}

@[simp] theorem cover_cons {e : FlockEntry} :
    Cover (e :: l) owner ino x t ↔ e.Covers owner ino x t ∨ Cover l owner ino x t := by
  simp [Cover]

@[simp] theorem cover_append {l' : List FlockEntry} :
    Cover (l ++ l') owner ino x t ↔ Cover l owner ino x t ∨ Cover l' owner ino x t := by
  simp [Cover, or_and_right, exists_or]

theorem cover_perm {l' : List FlockEntry} (h : l.Perm l') :
    Cover l owner ino x t ↔ Cover l' owner ino x t := by
  simp only [Cover, h.mem_iff]

end Cover

/-- A range of a file: not empty and within a `long`. -/
def ValidRange (start last : ℤ) : Prop := 0 ≤ start ∧ start ≤ last ∧ last ≤ flockOffMax

/-- Every entry of the list covers a range of its file. -/
def ValidLocks (l : List FlockEntry) : Prop := ∀ e ∈ l, ValidRange e.start e.last

theorem long_of_bounds {x : ℤ} (h0 : -9223372036854775808 ≤ x) (h : x ≤ flockOffMax) :
    long x = x := by
  have hmax : flockOffMax = 9223372036854775807 := rfl
  rw [long, Int.bmod_eq_of_le] <;> omega

section Lists

variable {q : LockRange} {a b c e n : FlockEntry} {d l r : List FlockEntry}

/-! ## Linking -/

theorem flockLink_perm (e : FlockEntry) (l : List FlockEntry) : (flockLink e l).Perm (e :: l) := by
  induction l with
  | nil => exact List.Perm.refl _
  | cons c l ih =>
    rw [flockLink]
    split
    · exact List.Perm.refl _
    · exact (ih.cons c).trans (List.Perm.swap e c l)

theorem linkBetween_cases (n : FlockEntry) (done rest : List FlockEntry) :
    ((linkBetween n done rest).1.Perm (n :: done) ∧ (linkBetween n done rest).2 = rest) ∨
      ((linkBetween n done rest).1 = done ∧ (linkBetween n done rest).2.Perm (n :: rest)) := by
  unfold linkBetween
  split
  · exact .inl ⟨flockLink_perm n done, rfl⟩
  · cases rest with
    | nil => exact .inl ⟨perm_append_singleton n done, rfl⟩
    | cons c l =>
      dsimp only
      split
      · exact .inl ⟨perm_append_singleton n done, rfl⟩
      · exact .inr ⟨rfl, flockLink_perm n (c :: l)⟩

theorem flockLink_append (n : FlockEntry) (d r : List FlockEntry) :
    flockLink n (d ++ r) =
      if d.any (linkStops n) then flockLink n d ++ r else d ++ flockLink n r := by
  induction d with
  | nil => simp
  | cons c d ih =>
    rw [cons_append, flockLink, flockLink, ih, any_cons]
    cases linkStops n c <;> cases d.any (linkStops n) <;> simp

/-- Wherever the loop stands, a split links the new entry into the whole list. -/
theorem linkBetween_append (n : FlockEntry) (d r : List FlockEntry) :
    (linkBetween n d r).1 ++ (linkBetween n d r).2 = flockLink n (d ++ r) := by
  rw [flockLink_append]
  unfold linkBetween
  split
  · rfl
  · cases r with
    | nil => simp [flockLink]
    | cons c r =>
      dsimp only
      rw [flockLink]
      split <;> simp

variable {E : FlockEntry → Prop} {owner : LockOwner} {x : ℤ}

theorem forall_replace (h : ∀ c ∈ d ++ a :: r, E c) (hb : E b) : ∀ c ∈ d ++ b :: r, E c := by
  intro c hc
  rcases mem_append.1 hc with hc | hc
  · exact h c (mem_append_left _ hc)
  rcases mem_cons.1 hc with rfl | hc
  · exact hb
  · exact h c (mem_append_right _ (mem_cons_of_mem _ hc))

theorem ValidLocks.replace (h : ValidLocks (d ++ a :: r)) (hb : ValidRange b.start b.last) :
    ValidLocks (d ++ b :: r) :=
  forall_replace h hb

theorem ValidLocks.link (h : ValidLocks l) (hn : ValidRange n.start n.last) :
    ValidLocks (flockLink n l) := by
  intro c hc
  rcases mem_cons.1 ((flockLink_perm n l).mem_iff.1 hc) with rfl | hc
  · exact hn
  · exact h c hc

/-! ## Unlocking -/

theorem cutBy_iff (q : LockRange) (e : FlockEntry) :
    cutBy q e = true ↔ e.ino = q.ino ∧ e.holder.id = q.me.id ∧ e.start ≤ q.last ∧
      q.start ≤ e.last := by
  simp [cutBy, flockSameOwner_iff, flockRangeOverlap, and_assoc]

theorem not_cutBy_behind (q : LockRange) (me : Locker) (ino : ℕ) (t : LockType) (last : ℤ) :
    cutBy q ⟨ino, me, t, q.last + 1, last⟩ = false := by
  rw [Bool.eq_false_iff, Ne, cutBy_iff]
  rintro ⟨-, -, h, -⟩
  dsimp only at h
  omega

section

variable (q : LockRange) (e : FlockEntry)

/-- The lower piece of an entry that sticks out below the range. -/
abbrev lowPiece : FlockEntry := { e with last := q.start - 1 }

/-- The upper piece of an entry that sticks out above the range. -/
abbrev upperPiece : FlockEntry := { e with start := q.last + 1 }

/-- The entry a split makes of the upper piece. -/
abbrev highPiece : FlockEntry :=
  ⟨q.ino, q.me, e.type, q.last + 1, e.last⟩

/-- The unlock loop splits the entry. -/
def Splits : Prop :=
  cutBy q e = true ∧ e.start < q.start ∧ q.last < e.last

end

theorem not_cutBy_before (q : LockRange) (e : FlockEntry) : cutBy q (lowPiece q e) = false := by
  rw [Bool.eq_false_iff, Ne, cutBy_iff]
  rintro ⟨-, -, -, h⟩
  dsimp only at h
  omega

/-- What the unlock loop leaves of the list has the property `P`.  With memory, and fuel
for every entry and every split, it gets to the end, and nothing is left in the range. -/
structure UnlockEnds (P : List FlockEntry → Prop) (q : LockRange) (mem : FlockMem) (fuel : ℕ)
    (d r : List FlockEntry) (res : Except Errno Unit × List FlockEntry) : Prop where
  keeps : P res.2
  ends : mem.split = true → r.length + r.countP (cutBy q) ≤ fuel → (∀ c ∈ d, cutBy q c = false) →
    res.1 = .ok () ∧ ∀ c ∈ res.2, cutBy q c = false

/-- **The rule of the unlock loop.**  A property of valid lists that is kept by dropping
an entry, by moving one of its ends to the range and by splitting it holds of the list
the loop leaves, whether it gets to the end or not. -/
theorem unlockLoop_rule {P : List FlockEntry → Prop} (hq : ValidRange q.start q.last)
    (hvalid : ∀ l, P l → ValidLocks l)
    (hdrop : ∀ d e r, P (d ++ e :: r) → cutBy q e = true → q.start ≤ e.start → e.last ≤ q.last →
      P (d ++ r))
    (hlow : ∀ d e r, P (d ++ e :: r) → cutBy q e = true → e.start < q.start → e.last ≤ q.last →
      P (d ++ lowPiece q e :: r))
    (hhigh : ∀ d e r, P (d ++ e :: r) → cutBy q e = true → q.start ≤ e.start → q.last < e.last →
      P (d ++ upperPiece q e :: r)) (hsplit : ∀ d e r, P (d ++ e :: r) → Splits q e →
      P (flockLink (highPiece q e) (d ++ lowPiece q e :: r)))
    (mem : FlockMem) (fuel : ℕ) (d r : List FlockEntry) (h : P (d ++ r)) :
    UnlockEnds P q mem fuel d r (unlockLoop q mem fuel d r) := by
  induction fuel generalizing d r with
  | zero =>
    refine ⟨h, fun _ hfuel hd => ⟨rfl, ?_⟩⟩
    obtain rfl : r = [] := length_eq_zero_iff.1 (by omega)
    simpa [unlockLoop] using hd
  | succ fuel ih =>
    cases r with
    | nil => exact ⟨by rwa [append_nil] at h, fun _ _ hd => ⟨rfl, hd⟩⟩
    | cons e r =>
      obtain ⟨he0, hele, hemax⟩ := hvalid _ h e (mem_append_right _ (mem_cons_self ..))
      obtain ⟨hq0, hqle, hqmax⟩ := hq
      have hbelow : long (q.start - 1) = q.start - 1 := long_of_bounds (by omega) (by omega)
      have habove : q.last < e.last → long (q.last + 1) = q.last + 1 :=
        fun hlt => long_of_bounds (by omega) (by omega)
      -- the entry, or the piece that is left of it, is behind the loop
      have hnext {c : FlockEntry} (hc : P (d ++ c :: r)) (hcut : cutBy q c = false) :
          UnlockEnds P q mem (fuel + 1) d (e :: r) (unlockLoop q mem fuel (d ++ [c]) r) := by
        obtain ⟨h1, h2⟩ := ih (d ++ [c]) r (by rwa [append_assoc])
        refine ⟨h1, fun hmem hfuel hd => h2 hmem ?_ ?_⟩
        · rw [length_cons, countP_cons] at hfuel
          omega
        · simpa [or_imp, forall_and] using ⟨hd, hcut⟩
      rw [unlockLoop, hbelow]
      by_cases hcut : cutBy q e = true
      · rw [if_pos hcut]
        by_cases hs : e.start < q.start
        · by_cases hl : e.last > q.last
          · -- both ends stick out: the second piece is linked into the list
            rw [if_pos ⟨hs, hl⟩, habove hl]
            by_cases hmem : mem.split = false
            · rw [if_pos hmem]
              exact ⟨h, fun h => by simp [hmem] at h⟩
            rw [if_neg hmem]
            have hP : P ((linkBetween (highPiece q e) (d ++ [lowPiece q e]) r).1 ++
                (linkBetween (highPiece q e) (d ++ [lowPiece q e]) r).2) := by
              rw [linkBetween_append, append_assoc]
              exact hsplit d e r h ⟨hcut, hs, hl⟩
            obtain ⟨h1, h2⟩ := ih _ _ hP
            refine ⟨h1, fun hmem hfuel hd => h2 hmem ?_ fun c hc => ?_⟩
            · rw [length_cons, countP_cons, if_pos hcut] at hfuel
              rcases linkBetween_cases (highPiece q e) (d ++ [lowPiece q e]) r with ⟨-, h⟩ | ⟨-, h⟩
              · rw [h]
                omega
              · rw [h.length_eq, h.countP_eq, length_cons, countP_cons, not_cutBy_behind]
                simp only [Bool.false_eq_true, if_false]
                omega
            · have hmem' : c = highPiece q e ∨ c ∈ d ++ [lowPiece q e] := by
                rcases linkBetween_cases (highPiece q e)
                  (d ++ [lowPiece q e]) r with ⟨h, -⟩ | ⟨h, -⟩
                · exact mem_cons.1 (h.mem_iff.1 hc)
                · exact .inr (h ▸ hc)
              rcases hmem' with rfl | hc
              · exact not_cutBy_behind ..
              · rcases mem_append.1 hc with hc | hc
                · exact hd c hc
                · rw [mem_singleton.1 hc]
                  exact not_cutBy_before q e
          · rw [if_neg (by tauto), if_pos hs]
            exact hnext (hlow d e r h hcut hs (not_lt.1 hl)) (not_cutBy_before q e)
        · rw [if_neg (by tauto), if_neg hs]
          by_cases hl : e.last > q.last
          · rw [if_pos hl, habove hl]
            exact hnext (hhigh d e r h hcut (not_lt.1 hs) hl) (not_cutBy_behind ..)
          · rw [if_neg hl]
            obtain ⟨h1, h2⟩ := ih d r (hdrop d e r h hcut (not_lt.1 hs) (not_lt.1 hl))
            refine ⟨h1, fun hmem hfuel hd => h2 hmem ?_ hd⟩
            rw [length_cons, countP_cons] at hfuel
            omega
      · rw [if_neg hcut]
        exact hnext h (Bool.eq_false_iff.2 hcut)

section

variable (h : ValidLocks (d ++ e :: r))
include h

theorem ValidLocks.drop : ValidLocks (d ++ r) :=
  fun c hc => h c ((sublist_cons_self e r).append_left d |>.subset hc)

theorem ValidLocks.low (hcut : cutBy q e = true)
    (hs : e.start < q.start) : ValidLocks (d ++ lowPiece q e :: r) := by
  obtain ⟨he0, hele, hemax⟩ := h e (mem_append_right _ (mem_cons_self ..))
  obtain ⟨-, -, h1, h2⟩ := (cutBy_iff q e).1 hcut
  exact h.replace ⟨he0, by dsimp only; omega, by dsimp only; omega⟩

theorem ValidLocks.high (hq : ValidRange q.start q.last)
    (hl : q.last < e.last) : ValidRange (q.last + 1) e.last := by
  obtain ⟨-, -, hemax⟩ := h e (mem_append_right _ (mem_cons_self ..))
  obtain ⟨hq0, hqle, -⟩ := hq
  exact ⟨by omega, hl, hemax⟩

end

/-- The byte belongs to the range of the caller. -/
abbrev LockRange.Holds (q : LockRange) (owner : LockOwner) (ino : ℕ) (x : ℤ) : Prop :=
  owner = q.me.id ∧ ino = q.ino ∧ q.start ≤ x ∧ x ≤ q.last

/-- Outside the range of the caller the pieces of an entry cover what it covers. -/
theorem covers_pieces (hcut : cutBy q e = true) {ino : ℕ} {t : LockType}
    (hout : ¬ q.Holds owner ino x) :
    (e.Covers owner ino x t ↔ (e.start < q.start ∧ (lowPiece q e).Covers owner ino x t) ∨
        (q.last < e.last ∧ (upperPiece q e).Covers owner ino x t)) ∧
      ((upperPiece q e).Covers owner ino x t ↔ (highPiece q e).Covers owner ino x t) := by
  obtain ⟨hino, hid, hstart, hlast⟩ := (cutBy_iff q e).1 hcut
  simp only [LockRange.Holds, FlockEntry.Covers, hid, hino] at hout ⊢
  grind

theorem unlock_spec (hl : ValidLocks l) (hq : ValidRange q.start q.last) :
    ∃ r, flockByterangeUnlock l q .ample = (.ok (), r) ∧ ValidLocks r ∧
      (∀ c ∈ r, cutBy q c = false) ∧
      ∀ owner ino x t, Cover r owner ino x t ↔ Cover l owner ino x t ∧ ¬ q.Holds owner ino x := by
  have hfuel : l.length + l.countP (cutBy q) ≤ 2 * l.length := by
    have := countP_le_length (p := cutBy q) (l := l)
    omega
  have hrule := unlockLoop_rule (P := fun r => ValidLocks r ∧
    ∀ owner ino x t, ¬ q.Holds owner ino x → (Cover r owner ino x t ↔ Cover l owner ino x t)) hq
    (fun _ h => h.1) ?_ ?_ ?_ ?_ .ample (2 * l.length) [] l ⟨hl, fun _ _ _ _ _ => Iff.rfl⟩
  · obtain ⟨⟨hv, hcov⟩, hdone⟩ := hrule
    obtain ⟨hok, hnone⟩ := hdone rfl hfuel (by simp)
    refine ⟨(unlockLoop q .ample (2 * l.length) [] l).2, Prod.ext hok rfl, hv, hnone,
      fun owner ino x t => ?_⟩
    by_cases hin : q.Holds owner ino x
    · refine iff_of_false ?_ fun h => h.2 hin
      rintro ⟨e, he, h1, h2, -, h3, h4⟩
      obtain ⟨h5, h6, h7, h8⟩ := hin
      have := hnone e he
      rw [Bool.eq_false_iff, Ne, cutBy_iff] at this
      exact this ⟨h2.trans h6, h1.trans h5, by omega, by omega⟩
    · rw [hcov _ _ _ _ hin, and_iff_left hin]
  · rintro d e r ⟨hv, hcov⟩ hcut hs hle
    refine ⟨hv.drop, fun owner ino x t hout => ?_⟩
    rw [← hcov _ _ _ _ hout, cover_append, cover_append, cover_cons, (covers_pieces hcut hout).1]
    simp [not_lt.2 hs, not_lt.2 hle]
  · rintro d e r ⟨hv, hcov⟩ hcut hs hle
    refine ⟨hv.low hcut hs, fun owner ino x t hout => ?_⟩
    rw [← hcov _ _ _ _ hout, cover_append, cover_append, cover_cons, cover_cons,
      (covers_pieces hcut hout).1]
    simp [hs, not_lt.2 hle]
  · rintro d e r ⟨hv, hcov⟩ hcut hs hl
    refine ⟨hv.replace (hv.high hq hl), fun owner ino x t hout => ?_⟩
    rw [← hcov _ _ _ _ hout, cover_append, cover_append, cover_cons, cover_cons,
      (covers_pieces hcut hout).1]
    simp [not_lt.2 hs, hl]
  · rintro d e r ⟨hv, hcov⟩ ⟨hcut, hs, hl⟩
    refine ⟨(hv.low hcut hs).link (hv.high hq hl), fun owner ino x t hout => ?_⟩
    rw [← hcov _ _ _ _ hout, cover_perm (flockLink_perm ..), cover_append, cover_cons, cover_append,
      cover_cons, cover_cons, (covers_pieces hcut hout).1, ← (covers_pieces hcut hout).2]
    tauto

/-! ## Merging -/

variable {ino : ℕ} {me : Locker} {t : LockType} {m : List FlockEntry}

theorem mergeable_iff (ino : ℕ) (me : Locker) (type : LockType) (e : FlockEntry) :
    mergeable ino me type e = true ↔ e.ino = ino ∧ e.type = type ∧ e.holder.id = me.id := by
  simp [mergeable, flockSameOwner_iff, and_assoc]

/-- The union of two touching ranges covers what the two cover.  A range that
reaches the end of the file is never merged: the wrapped sum is below every
start. -/
theorem touching {a b : FlockEntry} (ha : ValidRange a.start a.last)
    (hb : ValidRange b.start b.last)
    (h : ¬ (long (a.last + 1) < b.start ∨ long (b.last + 1) < a.start)) :
    b.start ≤ a.last + 1 ∧ a.start ≤ b.last + 1 := by
  obtain ⟨ha0, hale, hamax⟩ := ha
  obtain ⟨hb0, hble, hbmax⟩ := hb
  have hwrap : ∀ y : ℤ, 0 ≤ y → y ≤ flockOffMax → long (y + 1) = y + 1 ∨ long (y + 1) < 0 := by
    intro y hy0 hy
    rcases Int.lt_or_eq_of_le hy with hlt | heq
    · exact .inl (long_of_bounds (by omega) (by omega))
    · right
      rw [heq]
      decide
  have h1 := hwrap a.last (by omega) hamax
  have h2 := hwrap b.last (by omega) hbmax
  omega

/-- `a` after it has taken in `b`. -/
abbrev joinedEntry (a b : FlockEntry) : FlockEntry :=
  { a with start := if b.start < a.start then b.start else a.start
           last := if b.last > a.last then b.last else a.last }

section

variable {P : List FlockEntry → Prop} (hvalid : ∀ l, P l → ValidLocks l)
  (hjoin : ∀ d a m b r, P (d ++ a :: (m ++ b :: r)) → mergeable ino me t a = true →
    mergeable ino me t b = true → b.start ≤ a.last + 1 → a.start ≤ b.last + 1 →
    P (d ++ joinedEntry a b :: (m ++ r)))

include hvalid hjoin

/-- **The rule of the merge loop**, its inner part: what joining two touching entries
keeps holds of the list in the end. -/
theorem absorb_rule (ha : mergeable ino me t a = true) (h : P (d ++ a :: (m ++ l))) :
    P (d ++ (absorb ino me t a l).1 :: (m ++ (absorb ino me t a l).2)) := by
  induction l generalizing a m with
  | nil => exact h
  | cons b l ih =>
    rw [absorb]
    split
    case isTrue htest =>
      have hv := hvalid _ h
      obtain ⟨h1, h2⟩ := touching (hv a (by simp)) (hv b (by simp)) htest.2
      exact ih (a := joinedEntry a b) ha (hjoin d a m b l h ha htest.1 h1 h2)
    case isFalse =>
      have hrest := ih (m := m ++ [b]) ha (by rwa [append_assoc])
      rwa [append_assoc] at hrest

theorem mergeLoop_rule (fuel : ℕ) (d l : List FlockEntry) (h : P (d ++ l)) :
    P (d ++ mergeLoop ino me t fuel l) := by
  induction fuel generalizing d l with
  | zero => exact h
  | succ fuel ih =>
    cases l with
    | nil => exact h
    | cons a l =>
      have hnext {c : FlockEntry} {r : List FlockEntry} (hc : P (d ++ c :: r)) :
          P (d ++ c :: mergeLoop ino me t fuel r) := by
        have := ih (d ++ [c]) r (by rwa [append_assoc])
        rwa [append_assoc] at this
      rw [mergeLoop]
      split
      case isTrue ha => exact hnext (absorb_rule (m := []) hvalid hjoin ha h)
      case isFalse => exact hnext h

end

theorem joined_valid (ha : ValidRange a.start a.last) (hb : ValidRange b.start b.last) :
    ValidRange (joinedEntry a b).start (joinedEntry a b).last := by
  obtain ⟨ha0, hale, hamax⟩ := ha
  obtain ⟨hb0, hble, hbmax⟩ := hb
  refine ⟨?_, ?_, ?_⟩ <;> dsimp only <;> split_ifs <;> omega

theorem sublist_join (d : List FlockEntry) (a : FlockEntry) (m : List FlockEntry) (b : FlockEntry)
    (r : List FlockEntry) : (d ++ a :: (m ++ r)).Sublist (d ++ a :: (m ++ b :: r)) :=
  (((sublist_cons_self b r).append_left m).cons_cons a).append_left d

theorem forall_join (h : ∀ c ∈ d ++ a :: (m ++ b :: r), E c)
    (hj : E (joinedEntry a b)) : ∀ c ∈ d ++ joinedEntry a b :: (m ++ r), E c :=
  forall_replace (fun c hc => h c ((sublist_join d a m b r).subset hc)) hj

theorem ValidLocks.join (h : ValidLocks (d ++ a :: (m ++ b :: r))) :
    ValidLocks (d ++ joinedEntry a b :: (m ++ r)) :=
  forall_join h (joined_valid (h a (by simp)) (h b (by simp)))

theorem covers_joined (ha : mergeable ino me t a = true) (hb : mergeable ino me t b = true)
    (h1 : b.start ≤ a.last + 1) (h2 : a.start ≤ b.last + 1) {i : ℕ} {t' : LockType} :
    (joinedEntry a b).Covers owner i x t' ↔ a.Covers owner i x t' ∨ b.Covers owner i x t' := by
  rw [mergeable_iff] at ha hb
  simp only [FlockEntry.Covers, ha.1, ha.2.1, ha.2.2, hb.1, hb.2.1, hb.2.2]
  grind

theorem merge_spec (hl : ValidLocks l) (ino : ℕ) (me : Locker) (t : LockType) :
    ValidLocks (flockByterangeMerge l ino me t) ∧
      ∀ owner i x t', Cover (flockByterangeMerge l ino me t) owner i x t' ↔
        Cover l owner i x t' := by
  refine mergeLoop_rule (P := fun r => ValidLocks r ∧
    ∀ owner i x t', Cover r owner i x t' ↔ Cover l owner i x t') (fun _ h => h.1) ?_ l.length [] l
    ⟨hl, fun _ _ _ _ => Iff.rfl⟩
  rintro d a m b r ⟨hv, hcov⟩ ha hb h1 h2
  refine ⟨hv.join, fun owner i x t' => ?_⟩
  rw [← hcov]
  simp only [cover_append, cover_cons, covers_joined ha hb h1 h2]
  tauto

end Lists

section Setlk

variable {q : LockRange} {l : List FlockEntry}

/-! ## Setting a lock -/

/-- Another owner of byte ranges holds a lock on a byte of the range that does not
go with one of type `t`. -/
def Contended (l : List FlockEntry) (q : LockRange) (t : LockType) : Prop :=
  ∃ owner x t', owner.ByteRange ∧ owner ≠ q.me.id ∧ q.start ≤ x ∧ x ≤ q.last ∧
    Cover l owner q.ino x t' ∧ ¬ (t' = .RDLCK ∧ t = .RDLCK)

/-- The conflict test finds an entry exactly when a byte of the range is
contended. -/
theorem conflict_iff (hl : ValidLocks l) (hq : ValidRange q.start q.last) (t : LockType) :
    (flockByterangeConflict l q t).isSome ↔ Contended l q t := by
  have hone : ∀ e, conflictsWith q t e = true ↔ e.ino = q.ino ∧ e.holder.id.ByteRange ∧
      e.holder.id ≠ q.me.id ∧ (e.start ≤ q.last ∧ q.start ≤ e.last) ∧
      ¬ (e.type = .RDLCK ∧ t = .RDLCK) := by
    intro e
    have hsame := flockSameOwner_iff e.holder q.me
    have hkind := Locker.byteRange_iff e.holder
    simp only [conflictsWith, flockRangeOverlap, Bool.and_eq_true, decide_eq_true_eq,
      Bool.not_eq_true', ← Bool.not_eq_true, hkind, hsame, and_assoc, ne_eq]
  rw [flockByterangeConflict, find?_isSome]
  simp only [hone]
  constructor
  · rintro ⟨e, he, hino, hbr, hne, ⟨h1, h2⟩, htype⟩
    obtain ⟨-, hqle, -⟩ := hq
    obtain ⟨-, hele, -⟩ := hl e he
    -- the later of the two starts is a common byte
    refine ⟨e.holder.id, max e.start q.start, e.type, hbr, hne, by omega, by omega,
      ⟨e, he, rfl, hino, rfl, by omega, by omega⟩, htype⟩
  · rintro ⟨owner, x, t', hbr, hne, h1, h2, ⟨e, he, rfl, hino, rfl, h3, h4⟩, htype⟩
    exact ⟨e, he, hino, hbr, hne, ⟨by omega, by omega⟩, htype⟩

/-- What a call makes of the coverage: the range of the caller gets the type, every
other byte and owner keeps what it had. -/
def SetsRange (l r : List FlockEntry) (q : LockRange) (type : Option LockType) : Prop :=
  ∀ owner ino x t, Cover r owner ino x t ↔
    if owner = q.me.id ∧ ino = q.ino ∧ q.start ≤ x ∧ x ≤ q.last then type = some t
    else Cover l owner ino x t

/-- **Setting a lock.**  A lock on a contended byte is refused and nothing changes;
otherwise the range of the caller gets the type. -/
theorem setlk_spec (hl : ValidLocks l) (hq : ValidRange q.start q.last) (type : Option LockType) :
    ((∃ t, type = some t ∧ Contended l q t) ∧
        flockByterangeSetlk l q type .ample = (.error .EAGAIN, l)) ∨
      ((¬ ∃ t, type = some t ∧ Contended l q t) ∧ ∃ r,
        flockByterangeSetlk l q type .ample = (.ok (), r) ∧ ValidLocks r ∧
        SetsRange l r q type) := by
  obtain ⟨r, hr, hvr, -, hcov⟩ := unlock_spec hl hq
  cases type with
  | none =>
    refine .inr ⟨by simp, r, hr, hvr, fun owner ino x t => ?_⟩
    rw [hcov]
    split_ifs with h <;> simp [h]
  | some t =>
    by_cases hcon : Contended l q t
    · left
      refine ⟨⟨t, rfl, hcon⟩, ?_⟩
      rw [flockByterangeSetlk, if_pos ((conflict_iff hl hq t).2 hcon)]
    · right
      refine ⟨by simpa using hcon, ?_⟩
      set n : FlockEntry := ⟨q.ino, q.me, t, q.start, q.last⟩ with hn
      obtain ⟨hvm, hmerged⟩ := merge_spec (hvr.link (n := n) (hn ▸ hq)) q.ino q.me t
      refine ⟨_, ?_, hvm, fun owner ino x t' => ?_⟩
      · have hfree : ¬ (flockByterangeConflict l q t).isSome := by rwa [conflict_iff hl hq]
        rw [flockByterangeSetlk, if_neg hfree, hr]
        rfl
      · rw [hmerged, cover_perm (flockLink_perm n r), cover_cons, hcov]
        simp only [hn, FlockEntry.Covers, Option.some.injEq]
        split_ifs with h
        · simp [h]
        · constructor
          · rintro (⟨h1, h2, -, h3, h4⟩ | ⟨h1, -⟩)
            · exact absurd ⟨h1.symm, h2.symm, h3, h4⟩ h
            · exact h1
          · exact fun h1 => .inr ⟨h1, h⟩

end Setlk

/-! ## The abstract table -/

/-- Which lock an owner holds on a byte of an inode. -/
abbrev LockTable := LockOwner → ℕ → ℤ → Option LockType

/-- The calls on the lock list. -/
inductive FlockOp where
  | setlk (q : LockRange) (type : Option LockType)
  | release (ino pid : ℕ)
  | releaseFile (file : ℕ)
  | releasePid (pid : ℕ)
  deriving DecidableEq, Repr

/-- The list after a call, with memory for every entry. -/
def flockNext (l : List FlockEntry) : FlockOp → List FlockEntry
  | .setlk q type => (flockByterangeSetlk l q type .ample).2
  | .release ino pid => flockRelease l ino pid
  | .releaseFile file => flockReleaseFile l file
  | .releasePid pid => flockReleasePid l pid

/-- Byte ranges are asked for by a process or an open file description, within the
file. -/
def FlockOpOk : FlockOp → Prop
  | .setlk q _ => q.me.ByteRange ∧ ValidRange q.start q.last
  | _ => True

/-- Another owner of byte ranges holds a lock on the range that does not go with
one of type `t`. -/
def LockTable.Contended (T : LockTable) (q : LockRange) (t : LockType) : Prop :=
  ∃ owner x t', owner.ByteRange ∧ owner ≠ q.me.id ∧ q.start ≤ x ∧ x ≤ q.last ∧
    T owner q.ino x = some t' ∧ ¬ (t' = .RDLCK ∧ t = .RDLCK)

/-- The table without the locks of some owners. -/
def LockTable.drop (T : LockTable) (gone : LockOwner → ℕ → Prop) [∀ o i, Decidable (gone o i)] :
    LockTable :=
  fun owner ino x => if gone owner ino then none else T owner ino x

open Classical in
/-- What the calls mean on a table. -/
noncomputable def tableNext (T : LockTable) : FlockOp → LockTable
  | .setlk q type =>
    if ∃ t, type = some t ∧ T.Contended q t then T
    else fun owner ino x =>
      if owner = q.me.id ∧ ino = q.ino ∧ q.start ≤ x ∧ x ≤ q.last then type else T owner ino x
  | .release ino pid => T.drop fun owner i => owner = .process pid ∧ i = ino
  | .releaseFile file => T.drop fun owner _ => ∃ kind, owner = .file kind file
  | .releasePid pid => T.drop fun owner _ => owner = .process pid

/-- The list stands for the table: what an owner is covered with on a byte is what
the table says, one type at most. -/
def Reads (l : List FlockEntry) (T : LockTable) : Prop :=
  ∀ owner ino x t, Cover l owner ino x t ↔ T owner ino x = some t

/-- Different owners share a byte only to read it. -/
def LockTable.Compatible (T : LockTable) : Prop :=
  ∀ o o' ino x t t', o.ByteRange → o'.ByteRange → o ≠ o' →
    T o ino x = some t → T o' ino x = some t' → t = .RDLCK ∧ t' = .RDLCK

/-- A list in order, next to its table. -/
structure LockInv (l : List FlockEntry) (T : LockTable) : Prop where
  valid : ValidLocks l
  reads : Reads l T
  compatible : T.Compatible

variable {T : LockTable}

theorem Reads.contended (h : Reads l T) (q : LockRange)
    (t : LockType) : Contended l q t ↔ T.Contended q t := by
  simp only [Contended, LockTable.Contended, h _ _ _ _]

theorem LockInv.filter (h : LockInv l T)
    (gone : LockOwner → ℕ → Prop) [∀ o i, Decidable (gone o i)] {keep : FlockEntry → Bool}
    (hkeep : ∀ e, keep e = true ↔ ¬ gone e.holder.id e.ino) :
    LockInv (l.filter keep) (T.drop gone) where
  valid e he := h.valid e (mem_filter.1 he).1
  reads owner ino x t := by
    have hcov : Cover (l.filter keep) owner ino x t ↔
        Cover l owner ino x t ∧ ¬ gone owner ino := by
      constructor
      · rintro ⟨e, he, rfl, rfl, hrest⟩
        obtain ⟨hmem, hk⟩ := mem_filter.1 he
        exact ⟨⟨e, hmem, rfl, rfl, hrest⟩, (hkeep e).1 hk⟩
      · rintro ⟨⟨e, hmem, rfl, rfl, hrest⟩, hgone⟩
        exact ⟨e, mem_filter.2 ⟨hmem, (hkeep e).2 hgone⟩, rfl, rfl, hrest⟩
    rw [hcov, h.reads, LockTable.drop]
    split_ifs with hg <;> simp [hg]
  compatible o o' ino x t t' hbr hbr' hne h1 h2 := by
    simp only [LockTable.drop] at h1 h2
    split_ifs at h1 h2
    exact h.compatible o o' ino x t t' hbr hbr' hne h1 h2

/-- A lock on a byte nobody contends goes with every lock already there. -/
theorem LockInv.setlk (h : LockInv l T) (hq : ValidRange q.start q.last) (type : Option LockType) :
    LockInv (flockNext l (.setlk q type)) (tableNext T (.setlk q type)) := by
  classical
  have hcont : (∃ t, type = some t ∧ Contended l q t) ↔ ∃ t, type = some t ∧ T.Contended q t := by
    simp only [h.reads.contended]
  rcases setlk_spec h.valid hq type with ⟨hcon, hset⟩ | ⟨hfree, r, hset, hvr, hcov⟩
  · rw [flockNext, tableNext, hset, if_pos (hcont.1 hcon)]
    exact h
  rw [flockNext, tableNext, hset, if_neg (fun hc => hfree (hcont.2 hc))]
  refine ⟨hvr, fun owner ino x t => ?_, fun o o' ino x t t' hbr hbr' hne h1 h2 => ?_⟩
  · rw [hcov]
    split_ifs
    · exact Iff.rfl
    · exact h.reads owner ino x t
  · -- the only new pair is the caller against somebody else
    have hpair : ∀ o' t t', o'.ByteRange → o' ≠ q.me.id → q.start ≤ x → x ≤ q.last →
        type = some t → T o' q.ino x = some t' → t' = .RDLCK ∧ t = .RDLCK := by
      intro o' t t' hbr' hne' hx1 hx2 ht ht'
      by_contra hrd
      exact hfree (hcont.2 ⟨t, ht, o', x, t', hbr', hne', hx1, hx2, ht', hrd⟩)
    split_ifs at h1 h2 with ho ho'
    · exact absurd (ho.1.trans ho'.1.symm) hne
    · obtain ⟨rfl, rfl, hx1, hx2⟩ := ho
      exact (hpair o' t t' hbr' (Ne.symm hne) hx1 hx2 h1 h2).symm
    · rename_i ho'
      obtain ⟨rfl, rfl, hx1, hx2⟩ := ho'
      exact hpair o t' t hbr hne hx1 hx2 h2 h1
    · exact h.compatible o o' ino x t t' hbr hbr' hne h1 h2

theorem LockInv.next (h : LockInv l T) {op : FlockOp}
    (hok : FlockOpOk op) : LockInv (flockNext l op) (tableNext T op) := by
  classical
  have hid : ∀ k : Locker, ∀ pid, k.id = .process pid ↔ k.kind = .POSIX ∧ k.pid = pid := by
    intro k pid
    by_cases hk : k.kind = .POSIX <;> simp [Locker.id, hk]
  cases op with
  | setlk q type => exact h.setlk hok.2 type
  | release ino pid =>
    refine h.filter _ fun e => ?_
    simp only [hid, Bool.not_eq_true', ← Bool.not_eq_true, Bool.and_eq_true, decide_eq_true_eq]
    tauto
  | releaseFile file =>
    refine h.filter _ fun e => ?_
    have hfile : (∃ kind, e.holder.id = .file kind file) ↔
        e.holder.kind ≠ .POSIX ∧ e.holder.owner = file := by
      by_cases hk : e.holder.kind = .POSIX <;> simp [Locker.id, hk]
    have hkind : (e.holder.kind = .OFD ∨ e.holder.kind = .FLOCK) ∨ e.holder.kind = .LEASE ↔
        e.holder.kind ≠ .POSIX := by
      cases e.holder.kind <;> simp
    simp only [hfile, Bool.not_eq_true', ← Bool.not_eq_true, Bool.and_eq_true, Bool.or_eq_true,
      decide_eq_true_eq, hkind]
    tauto
  | releasePid pid =>
    refine h.filter _ fun e => ?_
    simp only [hid, Bool.not_eq_true', ← Bool.not_eq_true, Bool.and_eq_true, decide_eq_true_eq]

/-- The promises of the lock list. -/
structure LockPromise (l : List FlockEntry) : Prop where
  /-- Entries of different owners share a byte only when both are read locks. -/
  shared : ∀ e ∈ l, ∀ e' ∈ l, e.holder.ByteRange → e'.holder.ByteRange → e.ino = e'.ino →
    e.holder.id ≠ e'.holder.id → ∀ x, e.start ≤ x → x ≤ e.last → e'.start ≤ x → x ≤ e'.last →
    e.type = .RDLCK ∧ e'.type = .RDLCK
  /-- A call that succeeds gives its owner exactly the type on the range, and leaves
  every other byte and owner alone. -/
  set : ∀ q type, FlockOpOk (.setlk q type) →
    (flockByterangeSetlk l q type .ample).1 = .ok () →
      SetsRange l (flockByterangeSetlk l q type .ample).2 q type
  /-- A call fails with `EAGAIN` exactly when a byte of the range is contended. -/
  again_iff : ∀ q type, FlockOpOk (.setlk q type) →
    ((flockByterangeSetlk l q type .ample).1 = .error .EAGAIN ↔
      ∃ t, type = some t ∧ Contended l q t)
  /-- A call that does not succeed fails with `EAGAIN` and changes nothing. -/
  again_same : ∀ q type, FlockOpOk (.setlk q type) →
    (flockByterangeSetlk l q type .ample).1 ≠ .ok () →
      flockByterangeSetlk l q type .ample = (.error .EAGAIN, l)

theorem Locker.byteRange_id {k : Locker} (h : k.ByteRange) : k.id.ByteRange := by
  rw [← Locker.byteRange_iff]
  simpa [Locker.ByteRange] using h

theorem LockInv.promise (h : LockInv l T) : LockPromise l where
  shared e he e' he' hbr hbr' hino hne x h1 h2 h3 h4 :=
    h.compatible e.holder.id e'.holder.id e.ino x e.type e'.type (Locker.byteRange_id hbr)
      (Locker.byteRange_id hbr') hne ((h.reads _ _ _ _).1 ⟨e, he, rfl, rfl, rfl, h1, h2⟩)
      ((h.reads _ _ _ _).1 ⟨e', he', rfl, hino.symm, rfl, h3, h4⟩)
  set q type hok hret := by
    rcases setlk_spec h.valid hok.2 type with ⟨-, hset⟩ | ⟨-, r, hset, -, hcov⟩
    · simp [hset] at hret
    · rw [hset]
      exact hcov
  again_iff q type hok := by
    rcases setlk_spec h.valid hok.2 type with ⟨hcon, hset⟩ | ⟨hfree, r, hset, -⟩
    · simp [hset, hcon]
    · simp only [hset, reduceCtorEq, false_iff]
      exact hfree
  again_same q type hok hret := by
    rcases setlk_spec h.valid hok.2 type with ⟨-, hset⟩ | ⟨-, r, hset, -⟩
    · exact hset
    · simp [hset] at hret

/-- **Byte-range locks refine a per-byte table.**  Over every sequence of locks,
unlocks and releases, with memory for the entries, the list stands for the table
that the plain meaning of the calls gives.  In every state reached different
owners share a byte only to read it, a lock that is granted sets exactly its
range, and a lock is refused with `EAGAIN`, changing nothing, exactly when some
other owner holds a conflicting lock on a byte of the range. -/
theorem byterange_locks_refine_table (ops : List FlockOp) (hok : ∀ op ∈ ops, FlockOpOk op) :
    Reads (run flockNext [] ops) (run tableNext (fun _ _ _ => none) ops) ∧
      LockPromise (run flockNext [] ops) := by
  have hempty : LockInv [] fun _ _ _ => none :=
    ⟨by simp [ValidLocks], fun _ _ _ _ => by simp, fun _ _ _ _ _ _ _ _ _ h => by simp at h⟩
  have hend : LockInv (run flockNext [] ops) (run tableNext (fun _ _ _ => none) ops) :=
    run_simulation (fun _ _ _ h hop => h.next hop) hempty hok
  exact ⟨hend.reads, hend.promise⟩

/-- A write lock to the end of the file, punched open in the middle. -/
theorem byterange_locks_refine_table_punched :
    LockPromise (run flockNext [] [.setlk ⟨7, ⟨.POSIX, 1, 0⟩, 0, flockOffMax⟩ (some .WRLCK),
      .setlk ⟨7, ⟨.POSIX, 1, 0⟩, 10, 19⟩ none]) :=
  (byterange_locks_refine_table _
    (by simp [FlockOpOk, Locker.ByteRange, ValidRange, flockOffMax])).2

end CosmoRT.Sys
