import CosmoRT.Sys.LockTable

/-!
# Requests for a lock that fail

A request first gives up what the caller holds in the range, then makes the new entry.
When the allocation of that entry fails, the old locks are gone.

* `reachable_apart` — over every run the entries of one owner on one inode have no byte
  in common.
* `failed_setlk_keeps_iff` — a request that fails changes no lock, except when the
  allocation of the new entry fails after the caller's range has been unlocked.
-/

namespace CosmoRT.Sys

open Lib List Bool

/-! ## The calls -/

/-- The calls on the lock list, with the answers of the allocator. -/
inductive LockCall where
  | setlk (q : LockRange) (type : Option LockType) (mem : FlockMem)
  | merge (ino : ℕ) (me : Locker) (type : LockType)
  | release (ino pid : ℕ)
  | releaseFile (file : ℕ)
  | releasePid (pid : ℕ)
  deriving DecidableEq, Repr

/-- The list after a call. -/
def lockNext (l : List FlockEntry) : LockCall → List FlockEntry
  | .setlk q type mem => (flockByterangeSetlk l q type mem).2
  | .merge ino me type => flockByterangeMerge l ino me type
  | .release ino pid => flockRelease l ino pid
  | .releaseFile file => flockReleaseFile l file
  | .releasePid pid => flockReleasePid l pid

/-- The ranges asked for lie in the file. -/
def LockCallOk : LockCall → Prop
  | .setlk q _ _ => ValidRange q.start q.last
  | _ => True

/-! ## Relations between entries -/

/-- Entries of one owner on one inode have no byte in common. -/
def Apart (a b : FlockEntry) : Prop :=
  a.ino = b.ino → a.holder.id = b.holder.id → a.last < b.start ∨ b.last < a.start

section Relations

variable {R : FlockEntry → FlockEntry → Prop} {a b c n : FlockEntry} {d l r : List FlockEntry}

/-- The part `b` of the entry `a`. -/
structure PartOf (a b : FlockEntry) : Prop where
  ino : b.ino = a.ino
  id : b.holder.id = a.holder.id
  type : b.type = a.type
  start : a.start ≤ b.start
  last : b.last ≤ a.last

/-- A relation that holds of the parts of an entry. -/
structure Parting (R : FlockEntry → FlockEntry → Prop) : Prop where
  symm : ∀ {a b}, R a b → R b a
  part : ∀ {a b c}, R c a → PartOf a b → R c b

theorem parting_apart : Parting Apart where
  symm h hino hid := (h hino.symm hid.symm).symm
  part h hp hino hid := by
    have := h (hino.trans hp.ino) (hid.trans hp.id)
    have := hp.start
    have := hp.last
    omega

theorem pairwise_replace (h : (d ++ a :: r).Pairwise R)
    (hl : ∀ c ∈ d, R c a → R c b) (hr : ∀ c ∈ r, R a c → R b c) : (d ++ b :: r).Pairwise R := by
  rw [pairwise_append, pairwise_cons] at h ⊢
  obtain ⟨hd, ⟨har, hrr⟩, hcross⟩ := h
  refine ⟨hd, ⟨fun c hc => hr c hc (har c hc), hrr⟩, fun c hc x hx => ?_⟩
  rcases mem_cons.1 hx with rfl | hx
  · exact hl c hc (hcross c hc a (mem_cons_self ..))
  · exact hcross c hc x (mem_cons_of_mem _ hx)

theorem Parting.replace (hR : Parting R) (h : (d ++ a :: r).Pairwise R) (hp : PartOf a b) :
    (d ++ b :: r).Pairwise R :=
  pairwise_replace h (fun _ _ hc => hR.part hc hp) fun _ _ hc => hR.symm (hR.part (hR.symm hc) hp)

theorem Parting.link (hR : Parting R) (h : l.Pairwise R) (hn : ∀ c ∈ l, R n c) :
    (flockLink n l).Pairwise R :=
  ((flockLink_perm n l).pairwise_iff hR.symm).2 (pairwise_cons.2 ⟨hn, h⟩)

end Relations

/-! ## Unlocking -/

section Unlock

variable {q : LockRange} {mem : FlockMem} {R : FlockEntry → FlockEntry → Prop} {e : FlockEntry}
  {d l r : List FlockEntry}

theorem lowPiece_part (hcut : cutBy q e = true) : PartOf e (lowPiece q e) := by
  obtain ⟨-, -, h1, h2⟩ := (cutBy_iff q e).1 hcut
  exact ⟨rfl, rfl, rfl, le_refl _, by dsimp only; omega⟩

/-- Unlocking keeps a relation of parts that holds between the pieces of a split. -/
theorem Parting.unlock (hR : Parting R) (hpieces : ∀ e, R (highPiece q e) (lowPiece q e))
    (hq : ValidRange q.start q.last) (hv : ValidLocks l) (ha : l.Pairwise R) (mem : FlockMem) :
    ValidLocks (flockByterangeUnlock l q mem).2 ∧ (flockByterangeUnlock l q mem).2.Pairwise R := by
  refine (unlockLoop_rule (P := fun l => ValidLocks l ∧ l.Pairwise R) hq (fun _ h => h.1)
    ?_ ?_ ?_ ?_ mem _ [] l ⟨hv, ha⟩).1
  · rintro d e r ⟨hv, ha⟩ - - -
    exact ⟨hv.drop, ha.sublist ((sublist_cons_self e r).append_left d)⟩
  · rintro d e r ⟨hv, ha⟩ hcut hs -
    exact ⟨hv.low hcut hs, hR.replace ha (lowPiece_part hcut)⟩
  · rintro d e r ⟨hv, ha⟩ hcut hs hl
    obtain ⟨-, -, h1, h2⟩ := (cutBy_iff q e).1 hcut
    exact ⟨hv.replace (hv.high hq hl),
      hR.replace ha ⟨rfl, rfl, rfl, by dsimp only; omega, le_refl _⟩⟩
  · rintro d e r ⟨hv, ha⟩ ⟨hcut, hs, hl⟩
    obtain ⟨hino, hid, h1, h2⟩ := (cutBy_iff q e).1 hcut
    have hhigh : PartOf e (highPiece q e) :=
      ⟨hino.symm, hid.symm, rfl, by dsimp only; omega, le_refl _⟩
    refine ⟨(hv.low hcut hs).link (hv.high hq hl),
      hR.link (hR.replace ha (lowPiece_part hcut)) fun c hc => ?_⟩
    rw [pairwise_append, pairwise_cons] at ha
    rcases mem_append.1 hc with hc | hc
    · exact hR.symm (hR.part (ha.2.2 c hc e (mem_cons_self ..)) hhigh)
    rcases mem_cons.1 hc with rfl | hc
    · exact hpieces e
    · exact hR.symm (hR.part (hR.symm (ha.2.1.1 c hc)) hhigh)

theorem unlockLoop_ample {fuel : ℕ} {d : List FlockEntry}
    (h : mem.split = true ∨ ∀ e ∈ r, ¬ Splits q e) :
    unlockLoop q mem fuel d r = unlockLoop q .ample fuel d r := by
  induction fuel generalizing d r with
  | zero => rfl
  | succ fuel ih =>
    cases r with
    | nil => rfl
    | cons e r =>
      have hrest : mem.split = true ∨ ∀ e ∈ r, ¬ Splits q e :=
        h.imp_right fun h c hc => h c (mem_cons_of_mem _ hc)
      rw [unlockLoop, unlockLoop]
      by_cases hcut : cutBy q e = true
      · rw [if_pos hcut, if_pos hcut]
        by_cases hboth : e.start < q.start ∧ e.last > q.last
        · have hmem : mem.split = true :=
            h.resolve_right fun h => h e (mem_cons_self ..) ⟨hcut, hboth⟩
          simp only [if_pos hboth, hmem, FlockMem.ample, true_eq_false, if_false]
          exact ih (.inl hmem)
        · rw [if_neg hboth, if_neg hboth, ih hrest, ih hrest, ih hrest]
      · rw [if_neg hcut, if_neg hcut, ih hrest]

theorem unlockLoop_append {fuel : ℕ} {d p : List FlockEntry} (hp : ∀ e ∈ p, cutBy q e = false) :
    unlockLoop q mem (p.length + fuel) d (p ++ r) = unlockLoop q mem fuel (d ++ p) r := by
  induction p generalizing d with
  | nil => simp
  | cons e p ih =>
    rw [length_cons, Nat.add_right_comm, cons_append, unlockLoop,
      hp e (mem_cons_self ..), if_neg Bool.false_ne_true,
      ih fun c hc => hp c (mem_cons_of_mem _ hc), append_assoc]
    rfl

/-- **What unlocking comes to.**  An entry that has to be split is the only one of its
owner in the range, so a split that fails leaves the list as it was. -/
theorem unlock_outcome (mem : FlockMem) (ha : l.Pairwise Apart) :
    (mem.split = false ∧ (∃ e ∈ l, Splits q e) ∧
        flockByterangeUnlock l q mem = (.error .ENOLCK, l)) ∨
      (¬ (mem.split = false ∧ ∃ e ∈ l, Splits q e) ∧
        flockByterangeUnlock l q mem = flockByterangeUnlock l q .ample) := by
  by_cases h : mem.split = false ∧ ∃ e ∈ l, Splits q e
  · obtain ⟨hmem, e, he, hcut, hs, hl⟩ := h
    refine .inl ⟨hmem, ⟨e, he, hcut, hs, hl⟩, ?_⟩
    obtain ⟨p, r, rfl⟩ := append_of_mem he
    have halone : ∀ c ∈ p, cutBy q c = false := by
      intro c hc
      refine eq_false_iff.2 fun hc' => ?_
      obtain ⟨hci, hcd, h1, h2⟩ := (cutBy_iff q c).1 hc'
      obtain ⟨hei, hed, -, -⟩ := (cutBy_iff q e).1 hcut
      have := ((pairwise_append.1 ha).2.2 c hc e (mem_cons_self ..)
        (hci.trans hei.symm) (hcd.trans hed.symm))
      omega
    obtain ⟨fuel, hfuel⟩ : ∃ fuel, 2 * (p ++ e :: r).length = p.length + (fuel + 1) := by
      refine ⟨p.length + 2 * r.length + 1, ?_⟩
      rw [length_append, length_cons]
      omega
    rw [flockByterangeUnlock, hfuel, unlockLoop_append halone, unlockLoop, if_pos hcut,
      if_pos ⟨hs, hl⟩, if_pos hmem, nil_append]
  · refine .inr ⟨h, unlockLoop_ample ?_⟩
    by_cases hmem : mem.split = true
    · exact .inl hmem
    · exact .inr fun e he hsplit => h ⟨eq_false_iff.2 hmem, e, he, hsplit⟩

end Unlock

/-! ## Merging -/

section Merge

variable {a b c : FlockEntry}

/-- Nothing of the owner lies between two entries that touch. -/
theorem Apart.join (hca : Apart c a) (hcb : Apart c b)
    (hino : a.ino = b.ino) (hid : a.holder.id = b.holder.id) (hc : c.start ≤ c.last)
    (h1 : b.start ≤ a.last + 1) (h2 : a.start ≤ b.last + 1) : Apart c (joinedEntry a b) := by
  intro hcino hcid
  have := hca hcino hcid
  have := hcb (hcino.trans hino) (hcid.trans hid)
  dsimp only
  split_ifs <;> omega

end Merge

/-! ## Runs -/

/-- What every run keeps. -/
structure LockApart (l : List FlockEntry) : Prop where
  valid : ValidLocks l
  apart : l.Pairwise Apart

section Step

variable {l r : List FlockEntry} {q : LockRange} {t : LockType}

section

variable (h : LockApart l)
include h

theorem LockApart.sublist (hs : r.Sublist l) : LockApart r :=
  ⟨fun c hc => h.valid c (hs.subset hc), h.apart.sublist hs⟩

theorem LockApart.unlock (hq : ValidRange q.start q.last) (mem : FlockMem) :
    LockApart (flockByterangeUnlock l q mem).2 := by
  have hle := hq.2.1
  obtain ⟨hv, ha⟩ := parting_apart.unlock
    (fun e _ _ => .inr (show q.start - 1 < q.last + 1 by omega)) hq h.valid h.apart mem
  exact ⟨hv, ha⟩

omit h in
theorem LockApart.join {ino : ℕ} {me : Locker} {a b : FlockEntry} {d m : List FlockEntry}
    (h : LockApart (d ++ a :: (m ++ b :: r))) (hma : mergeable ino me t a = true)
    (hmb : mergeable ino me t b = true) (h1 : b.start ≤ a.last + 1) (h2 : a.start ≤ b.last + 1) :
    LockApart (d ++ joinedEntry a b :: (m ++ r)) := by
  obtain ⟨hai, -, had⟩ := (mergeable_iff ino me t a).1 hma
  obtain ⟨hbi, -, hbd⟩ := (mergeable_iff ino me t b).1 hmb
  have hsub := sublist_join d a m b r
  have hperm : (d ++ a :: (m ++ b :: r)).Perm (b :: (d ++ a :: (m ++ r))) := by
    have := @perm_middle _ b (d ++ a :: m) r
    simpa using this
  have hother : ∀ c ∈ d ++ a :: (m ++ r), Apart c a → Apart c (joinedEntry a b) := fun c hc hca =>
    hca.join (parting_apart.symm ((pairwise_cons.1
      ((hperm.pairwise_iff parting_apart.symm).1 h.apart)).1 c hc)) (hai.trans hbi.symm)
      (had.trans hbd.symm) (h.valid c (hsub.subset hc)).2.1 h1 h2
  refine ⟨h.valid.join, ?_⟩
  refine pairwise_replace (h.apart.sublist hsub) (fun c hc => hother c (mem_append_left _ hc))
    fun c hc hac => parting_apart.symm (hother c ?_ (parting_apart.symm hac))
  exact mem_append_right _ (mem_cons_of_mem _ hc)

theorem LockApart.merge (ino : ℕ) (me : Locker) (t : LockType) :
    LockApart (flockByterangeMerge l ino me t) :=
  mergeLoop_rule (fun _ h => h.valid) (fun _ _ _ _ _ h => h.join) l.length [] l h

theorem LockApart.link (hq : ValidRange q.start q.last) (t : LockType) :
    LockApart (flockLink ⟨q.ino, q.me, t, q.start, q.last⟩
      (flockByterangeUnlock l q .ample).2) := by
  have hr := h.unlock hq .ample
  refine ⟨hr.valid.link hq, parting_apart.link hr.apart fun c hc hino hid => ?_⟩
  obtain ⟨r, hr', -, hnone, -⟩ := unlock_spec h.valid hq
  have hcut := hnone c (by rwa [hr'] at hc)
  rw [eq_false_iff, Ne, cutBy_iff] at hcut
  have : ¬ (c.start ≤ q.last ∧ q.start ≤ c.last) := fun hover => hcut ⟨hino.symm, hid.symm, hover⟩
  dsimp only
  omega

theorem setlk_outcome (hq : ValidRange q.start q.last) (mem : FlockMem) :
    (flockByterangeSetlk l q (some t) mem).2 = l ∨
      (flockByterangeSetlk l q (some t) mem).2 = (flockByterangeUnlock l q .ample).2 ∨
      mem.entry = true ∧ (flockByterangeSetlk l q (some t) mem).2 =
        flockByterangeMerge (flockLink ⟨q.ino, q.me, t, q.start, q.last⟩
          (flockByterangeUnlock l q .ample).2) q.ino q.me t := by
  rw [flockByterangeSetlk.eq_def]
  dsimp only
  split
  · exact .inl rfl
  rcases unlock_outcome mem h.apart with ⟨-, -, heq⟩ | ⟨-, heq⟩
  · rw [heq]
    exact .inl rfl
  · obtain ⟨r, hr, -⟩ := unlock_spec h.valid hq
    rw [heq, hr]
    dsimp only
    split
    · exact .inr (.inl rfl)
    case isFalse hentry => exact .inr (.inr ⟨by simpa using hentry, rfl⟩)

/-- **One call** keeps the entries of one owner apart. -/
theorem LockApart.next {call : LockCall} (hok : LockCallOk call) : LockApart (lockNext l call) := by
  cases call with
  | setlk q type mem =>
    cases type with
    | none => exact h.unlock hok mem
    | some t =>
      rw [lockNext]
      rcases setlk_outcome h hok mem with heq | heq | ⟨-, heq⟩
      · rwa [heq]
      · rw [heq]
        exact h.unlock hok .ample
      · rw [heq]
        exact (h.link hok t).merge ..
  | merge ino me type => exact h.merge ino me type
  | release ino pid | releaseFile file | releasePid pid => exact h.sublist filter_sublist

end

end Step

/-- Over every run the entries of one owner on one inode have no byte in common. -/
theorem reachable_apart (calls : List LockCall) (hok : ∀ call ∈ calls, LockCallOk call) :
    LockApart (run lockNext [] calls) :=
  run_invariant (fun _ _ h hcall => h.next hcall) ⟨by simp [ValidLocks], List.Pairwise.nil⟩
    (along_of_forall hok)

/-! ## Requests that fail -/

/-- Every owner's locks are the same, byte by byte. -/
def SameLocks (l r : List FlockEntry) : Prop :=
  ∀ owner ino x t, Cover r owner ino x t ↔ Cover l owner ino x t

/-- The request cannot fail between the unlocking and the new entry: it only unlocks, or
it is refused, or no lock of the caller is in the range, or the new entry is there, or the
unlocking fails before it. -/
def FailsSafely (l : List FlockEntry) (q : LockRange) (type : Option LockType) (mem : FlockMem) :
    Prop :=
  type = none ∨ (∃ t, type = some t ∧ (flockByterangeConflict l q t).isSome) ∨
    (∀ e ∈ l, cutBy q e = false) ∨ mem.entry = true ∨
    (mem.split = false ∧ ∃ e ∈ l, Splits q e)

/-- **A request that fails loses nothing** exactly when it cannot fail between the
unlocking and the new entry. -/
theorem failed_setlk_keeps_iff (calls : List LockCall) (hok : ∀ call ∈ calls, LockCallOk call)
    (q : LockRange) (type : Option LockType) (mem : FlockMem) (hq : ValidRange q.start q.last) :
    ((flockByterangeSetlk (run lockNext [] calls) q type mem).1 ≠ .ok () →
        SameLocks (run lockNext [] calls)
          (flockByterangeSetlk (run lockNext [] calls) q type mem).2) ↔
      FailsSafely (run lockNext [] calls) q type mem := by
  have h := reachable_apart calls hok
  generalize run lockNext [] calls = l at h
  obtain ⟨r, hr, -, -, hcov⟩ := unlock_spec h.valid hq
  -- the caller's bytes of the range are gone as soon as the unlocking has cut a lock
  have hlost : (∃ e ∈ l, cutBy q e = true) → ¬ SameLocks l r := by
    rintro ⟨e, he, hcut⟩ hsame
    obtain ⟨hino, hid, h1, h2⟩ := (cutBy_iff q e).1 hcut
    have hle := (h.valid e he).2.1
    have hqle := hq.2.1
    have hcovered : Cover l q.me.id q.ino (max e.start q.start) e.type :=
      ⟨e, he, hid, hino, rfl, by omega, by omega⟩
    exact ((hcov ..).1 ((hsame ..).2 hcovered)).2 ⟨rfl, rfl, by omega, by omega⟩
  have hkept : (∀ e ∈ l, cutBy q e = false) → SameLocks l r := by
    intro hnone owner ino x t
    refine (hcov owner ino x t).trans ⟨And.left, fun hcover => ⟨hcover, ?_⟩⟩
    rintro ⟨rfl, rfl, h1, h2⟩
    obtain ⟨e, he, hid, hino, -, h3, h4⟩ := hcover
    have := hnone e he
    rw [eq_false_iff, Ne, cutBy_iff] at this
    exact this ⟨hino, hid, by omega, by omega⟩
  have hrefl : SameLocks l l := fun _ _ _ _ => Iff.rfl
  rw [flockByterangeSetlk.eq_def]
  rcases unlock_outcome mem h.apart with ⟨hmem, hsplit, heq⟩ | ⟨hsplit, heq⟩
  · rw [heq]
    refine ⟨fun _ => .inr (.inr (.inr (.inr ⟨hmem, hsplit⟩))), fun _ _ => ?_⟩
    cases type with
    | none => exact hrefl
    | some t =>
      dsimp only
      split <;> exact hrefl
  · rw [heq, hr]
    cases type with
    | none => simp [FailsSafely]
    | some t =>
      dsimp only
      split
      case isTrue hcon => exact ⟨fun _ => .inr (.inl ⟨t, rfl, hcon⟩), fun _ _ => hrefl⟩
      case isFalse hcon =>
        split
        case isFalse hentry => simp [FailsSafely, hentry]
        case isTrue hentry =>
          constructor
          · intro hsame
            refine .inr (.inr (.inl fun e he => eq_false_iff.2 fun hcut => ?_))
            exact hlost ⟨e, he, hcut⟩ (hsame (by simp))
          · rintro (hnone | ⟨t', ht, hcon'⟩ | hnone | hmem | hboth) -
            · cases hnone
            · cases ht
              exact absurd hcon' hcon
            · exact hkept hnone
            · simp [hmem] at hentry
            · exact absurd hboth hsplit

/-- Process 1 writes bytes 0 to 9 of an inode, process 2 reads 20 to 29 of it. -/
def heldLocks : List LockCall :=
  [.setlk ⟨7, ⟨.POSIX, 1, 0⟩, 0, 9⟩ (some .WRLCK) .ample,
    .setlk ⟨7, ⟨.POSIX, 2, 0⟩, 20, 29⟩ (some .RDLCK) .ample]

/-- Process 1 is to read bytes 3 to 5 only, and there is no memory for the split; then it is
to write up to byte 25, which process 2 reads.  All locks are still there. -/
theorem failed_setlk_keeps_iff_held :
    (flockByterangeSetlk (run lockNext [] heldLocks) ⟨7, ⟨.POSIX, 1, 0⟩, 3, 5⟩ (some .RDLCK)
        ⟨false, true⟩).1 = .error .ENOLCK ∧
    SameLocks (run lockNext [] heldLocks) (flockByterangeSetlk (run lockNext [] heldLocks)
      ⟨7, ⟨.POSIX, 1, 0⟩, 3, 5⟩ (some .RDLCK) ⟨false, true⟩).2 ∧
    (flockByterangeSetlk (run lockNext [] heldLocks) ⟨7, ⟨.POSIX, 1, 0⟩, 5, 25⟩ (some .WRLCK)
        .ample).1 = .error .EAGAIN ∧
    SameLocks (run lockNext [] heldLocks) (flockByterangeSetlk (run lockNext [] heldLocks)
      ⟨7, ⟨.POSIX, 1, 0⟩, 5, 25⟩ (some .WRLCK) .ample).2 := by
  have hok : ∀ call ∈ heldLocks, LockCallOk call := by
    simp [heldLocks, LockCallOk, ValidRange, flockOffMax]
  refine ⟨rfl, (failed_setlk_keeps_iff heldLocks hok _ _ _ ?_).2 ?_ ?_,
    rfl, (failed_setlk_keeps_iff heldLocks hok _ _ _ ?_).2 ?_ ?_⟩
  · simp [ValidRange, flockOffMax]
  · exact .inr (.inr (.inr (.inr ⟨rfl, ⟨7, ⟨.POSIX, 1, 0⟩, .WRLCK, 0, 9⟩, by decide,
      by decide, by decide, by decide⟩)))
  · exact fun h => by cases h
  · simp [ValidRange, flockOffMax]
  · exact .inr (.inl ⟨.WRLCK, rfl, rfl⟩)
  · exact fun h => by cases h

/-- A write lock that is to become a read lock is lost when there is no memory for the
new entry. -/
theorem failed_setlk_loses :
    (flockByterangeSetlk (run lockNext [] [.setlk ⟨7, ⟨.POSIX, 1, 0⟩, 0, 9⟩ (some .WRLCK) .ample])
        ⟨7, ⟨.POSIX, 1, 0⟩, 0, 9⟩ (some .RDLCK) ⟨true, false⟩).1 = .error .ENOLCK ∧
      ¬ SameLocks (run lockNext [] [.setlk ⟨7, ⟨.POSIX, 1, 0⟩, 0, 9⟩ (some .WRLCK) .ample])
        (flockByterangeSetlk (run lockNext []
          [.setlk ⟨7, ⟨.POSIX, 1, 0⟩, 0, 9⟩ (some .WRLCK) .ample])
          ⟨7, ⟨.POSIX, 1, 0⟩, 0, 9⟩ (some .RDLCK) ⟨true, false⟩).2 := by
  refine ⟨rfl, fun hsame => cover_nil ((hsame (.process 1) 7 0 .WRLCK).2 ?_)⟩
  exact ⟨_, mem_cons_self .., rfl, rfl, rfl, by decide, by decide⟩

end CosmoRT.Sys
