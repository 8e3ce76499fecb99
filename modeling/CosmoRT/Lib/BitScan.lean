import Mathlib

/-!
# Bitmaps in bytes

A bitmap of any length laid out in bytes, least significant bit first: reading and writing one
bit, scanning for a clear one, and counting the clear ones.

* `bitAt_putBit` — a write changes the bit it names and no other.
* `scan_eq_some`, `scan_eq_none` — a scan finds a clear bit, or there is none.
* `Tally` — bitmaps in groups with a counter for each group and a total; `Tally.take` and
  `Tally.give` keep the three records in agreement, `Tally.find_none` says that a search that
  trusts the counters misses nothing.
-/

namespace CosmoRT.Lib

open Function List BitVec

section

variable (f : ℕ → UInt8)

/-- Bit `i` of the bytes. -/
def bitAt (i : ℕ) : Bool := (f (i / 8)).toBitVec.getLsbD (i % 8)

/-- A byte with bit `k` set or cleared. -/
def putInByte (b : UInt8) (k : ℕ) (v : Bool) : UInt8 :=
  if v then ⟨b.toBitVec ||| twoPow 8 k⟩ else ⟨b.toBitVec &&& ~~~ twoPow 8 k⟩

/-- The bytes with bit `i` set or cleared. -/
def putBit (i : ℕ) (v : Bool) : ℕ → UInt8 :=
  update f (i / 8) (putInByte (f (i / 8)) (i % 8) v)

variable {k limit start n i : ℕ}

theorem getLsbD_putInByte (b : UInt8) {j : ℕ} (hk : k < 8) (hj : j < 8) (v : Bool) :
    (putInByte b k v).toBitVec.getLsbD j = if j = k then v else b.toBitVec.getLsbD j := by
  cases v with
  | true =>
    simp only [putInByte, if_true, getLsbD_or, getLsbD_twoPow]
    by_cases h : j = k
    · simp [h, hk]
    · simp [h, Ne.symm h]
  | false =>
    simp only [putInByte, Bool.false_eq_true, if_false, getLsbD_and, getLsbD_not, getLsbD_twoPow]
    by_cases h : j = k
    · simp [h, hk]
    · simp [h, Ne.symm h, hj]

/-- **A write changes one bit.** -/
theorem bitAt_putBit (i : ℕ) (v : Bool) (j : ℕ) :
    bitAt (putBit f i v) j = if j = i then v else bitAt f j := by
  have hi : i % 8 < 8 := Nat.mod_lt _ (by decide)
  have hj : j % 8 < 8 := Nat.mod_lt _ (by decide)
  rw [bitAt, putBit]
  by_cases hbyte : j / 8 = i / 8
  · rw [hbyte, update_self, getLsbD_putInByte _ hi hj, bitAt, hbyte]
    by_cases hbit : j % 8 = i % 8
    · have heq : j = i := by omega
      simp [heq]
    · have hne : j ≠ i := fun h => hbit (by rw [h])
      simp [hbit, hne]
  · have hne : j ≠ i := fun h => hbyte (by rw [h])
    rw [update_of_ne hbyte, if_neg hne, bitAt]

theorem bitAt_putBit_putBit (i : ℕ) (v : Bool) (h : bitAt f i = v) (w : Bool)
    (j : ℕ) : bitAt (putBit (putBit f i w) i v) j = bitAt f j := by
  rw [bitAt_putBit, bitAt_putBit]
  by_cases hj : j = i
  · simp [hj, h]
  · simp [hj]

/-! ## Scanning -/

/-- The bits of one byte in order, up to `limit`: the first clear one. -/
def scanByte (b : UInt8) (base limit : ℕ) : Option ℕ :=
  ((range 8).takeWhile fun k => base + k < limit).find? fun k => !b.toBitVec.getLsbD k

/-- `n` bytes in order; full ones are skipped.  Bit `i` of them has the number `start + i`, and
numbers from `limit` on do not count. -/
def scan (start limit n : ℕ) : Option ℕ :=
  (range n).findSome? fun byte =>
    if f byte = 0xFF then none
    else (scanByte (f byte) (start + byte * 8) limit).map (byte * 8 + ·)

theorem mem_takeWhile_range {base : ℕ} :
    k ∈ (range 8).takeWhile (fun k => base + k < limit) ↔ k < 8 ∧ base + k < limit := by
  by_cases h : base < limit
  · obtain ⟨m, rfl⟩ : ∃ m, limit = base + m := ⟨limit - base, by omega⟩
    rcases Nat.lt_or_ge m 8 with hm | hm
    · interval_cases m <;> simp [range_succ, takeWhile] <;> omega
    · rw [takeWhile_eq_self_iff.mpr (by
        intro x hx
        have := mem_range.mp hx
        simp only [decide_eq_true_eq]
        omega)]
      rw [mem_range]
      omega
  · have hnil : (range 8).takeWhile (fun k => base + k < limit) = [] := by
      exact takeWhile_cons_of_neg (by simpa using h)
    rw [hnil]
    simp only [not_mem_nil, false_iff]
    omega

theorem scan_eq_some {f : ℕ → UInt8} (h : scan f start limit n = some i) :
    i < 8 * n ∧ start + i < limit ∧ bitAt f i = false := by
  obtain ⟨byte, hbyte, hfound⟩ := exists_of_findSome?_eq_some h
  have hn := mem_range.mp hbyte
  split at hfound
  · exact absurd hfound (by simp)
  obtain ⟨k, hk, rfl⟩ := Option.map_eq_some_iff.mp hfound
  obtain ⟨hk8, hlim⟩ := mem_takeWhile_range.mp (mem_of_find?_eq_some hk)
  have hclear := find?_some hk
  have hdiv : (byte * 8 + k) / 8 = byte := by omega
  have hmod : (byte * 8 + k) % 8 = k := by omega
  refine ⟨by omega, by omega, ?_⟩
  rw [bitAt, hdiv, hmod]
  simpa using hclear

theorem scan_eq_none {f : ℕ → UInt8} (h : scan f start limit n = none)
    (hi : i < 8 * n) (hlim : start + i < limit) : bitAt f i = true := by
  have hbyte := findSome?_eq_none_iff.mp h (i / 8) (mem_range.mpr (by omega))
  by_contra hclear
  have hbit : (f (i / 8)).toBitVec.getLsbD (i % 8) = false := by simpa [bitAt] using hclear
  -- a byte with a clear bit is not full
  have hfull : f (i / 8) ≠ 0xFF := by
    intro heq
    have hlt : i % 8 < 8 := Nat.mod_lt _ (by decide)
    rw [heq] at hbit
    generalize i % 8 = k at hbit hlt
    interval_cases k <;> simp at hbit
  rw [if_neg hfull] at hbyte
  have hnone := Option.map_eq_none_iff.mp hbyte
  have hall := find?_eq_none.mp hnone (i % 8)
    (mem_takeWhile_range.mpr ⟨Nat.mod_lt _ (by decide), by omega⟩)
  simp [hbit] at hall

/-! ## Counting -/

/-- How many of the first `n` bits are clear. -/
def clearCount (n : ℕ) : ℕ :=
  ((Finset.range n).filter fun i => bitAt f i = false).card

theorem clearCount_congr {f g : ℕ → UInt8} (h : ∀ i < n, bitAt f i = bitAt g i) :
    clearCount f n = clearCount g n := by
  refine congrArg Finset.card (Finset.filter_congr fun i hi => ?_)
  rw [h i (Finset.mem_range.mp hi)]

theorem clearCount_pos_iff {f : ℕ → UInt8} : 0 < clearCount f n ↔ ∃ i < n, bitAt f i = false := by
  rw [clearCount, Finset.card_pos]
  constructor
  · rintro ⟨i, hi⟩
    exact ⟨i, Finset.mem_range.mp (Finset.mem_filter.mp hi).1, (Finset.mem_filter.mp hi).2⟩
  · rintro ⟨i, hi, hclear⟩
    exact ⟨i, Finset.mem_filter.mpr ⟨Finset.mem_range.mpr hi, hclear⟩⟩

theorem clearCount_le (n : ℕ) : clearCount f n ≤ n :=
  (Finset.card_filter_le _ _).trans (Finset.card_range n).le

end

variable {f : ℕ → UInt8} {n i : ℕ}

theorem clearCount_set (hi : i < n) (h : bitAt f i = false) :
    clearCount (putBit f i true) n + 1 = clearCount f n := by
  have hmem : i ∈ (Finset.range n).filter fun j => bitAt f j = false :=
    Finset.mem_filter.mpr ⟨Finset.mem_range.mpr hi, h⟩
  have heq : ((Finset.range n).filter fun j => bitAt (putBit f i true) j = false) =
      ((Finset.range n).filter fun j => bitAt f j = false).erase i := by
    ext j
    simp only [Finset.mem_filter, Finset.mem_erase, bitAt_putBit]
    by_cases hj : j = i <;> simp [hj]
  rw [clearCount, heq, Finset.card_erase_add_one hmem, clearCount]

theorem clearCount_clear (hi : i < n) (h : bitAt f i = true) :
    clearCount (putBit f i false) n = clearCount f n + 1 := by
  have hback : clearCount (putBit (putBit f i false) i true) n + 1 =
      clearCount (putBit f i false) n := clearCount_set hi (by simp [bitAt_putBit])
  rw [← hback, clearCount_congr fun j _ => bitAt_putBit_putBit f i true h false j]

/-! ## Groups with counters -/

/-- `n` groups, the one with number `g` of `m g` bits: its counter is the number of clear bits,
and the total is the sum of the counters. -/
structure Tally (n : ℕ) (m : ℕ → ℕ) (bits : ℕ → ℕ → UInt8) (free : ℕ → BitVec 16)
    (total : BitVec 32) : Prop where
  group : ∀ g < n, (free g).toNat = clearCount (bits g) (m g)
  sum : total.toNat = ∑ g ∈ Finset.range n, (free g).toNat

section Tally

variable {n : ℕ} {m : ℕ → ℕ} {bits bits' : ℕ → ℕ → UInt8} {free free' : ℕ → BitVec 16}
  {total : BitVec 32}

theorem Tally.congr (h : Tally n m bits free total)
    (hbits : ∀ g < n, ∀ i < m g, bitAt (bits' g) i = bitAt (bits g) i)
    (hfree : ∀ g < n, free' g = free g) : Tally n m bits' free' total := by
  refine ⟨fun g hg => ?_, ?_⟩
  · rw [hfree g hg, h.group g hg, clearCount_congr fun i hi => (hbits g hg i hi).symm]
  · rw [h.sum]
    exact Finset.sum_congr rfl fun g hg => by rw [hfree g (Finset.mem_range.mp hg)]

variable {g i : ℕ} {find : ℕ → Option ℕ}

theorem sum_update_counter (free : ℕ → BitVec 16) (hg : g < n) (v : BitVec 16) :
    ∑ h ∈ Finset.range n, (update free g v h).toNat + (free g).toNat =
      ∑ h ∈ Finset.range n, (free h).toNat + v.toNat := by
  have hmem : g ∈ Finset.range n := Finset.mem_range.mpr hg
  rw [← Finset.add_sum_erase _ _ hmem, ← Finset.add_sum_erase _ (fun h => (free h).toNat) hmem]
  have hrest : ∑ h ∈ (Finset.range n).erase g, (update free g v h).toNat =
      ∑ h ∈ (Finset.range n).erase g, (free h).toNat :=
    Finset.sum_congr rfl fun h hh => by
      rw [update_of_ne (Finset.ne_of_mem_erase hh)]
  rw [update_self]
  omega

theorem counter_le_sum (free : ℕ → BitVec 16) (hg : g < n) :
    (free g).toNat ≤ ∑ h ∈ Finset.range n, (free h).toNat :=
  Finset.single_le_sum (f := fun h => (free h).toNat) (fun _ _ => Nat.zero_le _)
    (Finset.mem_range.mpr hg)

theorem Tally.take (h : Tally n m bits free total) (hg : g < n) (hi : i < m g)
    (hclear : bitAt (bits g) i = false) :
    Tally n m (update bits g (putBit (bits g) i true))
      (update free g (free g - 1)) (total - 1) := by
  have hcount := clearCount_set hi hclear
  have hfree := h.group g hg
  have hdec : (free g - 1).toNat = (free g).toNat - 1 := by
    bv_omega
  have hsum := sum_update_counter free hg (free g - 1)
  refine ⟨fun k hk => ?_, ?_⟩
  · by_cases hkg : k = g
    · subst hkg
      rw [update_self, update_self]
      omega
    · rw [update_of_ne hkg, update_of_ne hkg, h.group k hk]
  · have htotal := h.sum
    have hdec' : (total - 1).toNat = total.toNat - 1 := by
      bv_omega
    omega

/-- A set bit is given back; the bits of a group fit its counter and those of all groups the
total. -/
theorem Tally.give (h : Tally n m bits free total) (hg : g < n) (hi : i < m g)
    (hset : bitAt (bits g) i = true) (hm : m g < 2 ^ 16)
    (hsize : ∑ h ∈ Finset.range n, m h < 2 ^ 32) :
    Tally n m (update bits g (putBit (bits g) i false))
      (update free g (free g + 1)) (total + 1) := by
  have hcount := clearCount_clear hi hset
  have hle := clearCount_le (putBit (bits g) i false) (m g)
  have hfree := h.group g hg
  have hinc : (free g + 1).toNat = (free g).toNat + 1 := by bv_omega
  have hsum := sum_update_counter free hg (free g + 1)
  have hnew : ∀ k < n, (update free g (free g + 1) k).toNat =
      clearCount (update bits g (putBit (bits g) i false) k) (m k) := by
    intro k hk
    by_cases hkg : k = g
    · subst hkg
      rw [update_self, update_self]
      omega
    · rw [update_of_ne hkg, update_of_ne hkg, h.group k hk]
  refine ⟨hnew, ?_⟩
  have htotal := h.sum
  have hbound : ∑ k ∈ Finset.range n, (update free g (free g + 1) k).toNat ≤
      ∑ k ∈ Finset.range n, m k :=
    Finset.sum_le_sum fun k hk => by
      rw [hnew k (Finset.mem_range.mp hk)]
      exact clearCount_le _ _
  have hinc' : (total + 1).toNat = total.toNat + 1 := by
    bv_omega
  omega

/-- The search over the groups that skips those whose counter is 0. -/
def findGroup (n : ℕ) (free : ℕ → BitVec 16) (find : ℕ → Option ℕ) : Option (ℕ × ℕ) :=
  (range n).findSome? fun g => if free g = 0 then none else (find g).map (g, ·)

theorem findGroup_eq_some
    (h : findGroup n free find = some (g, i)) : g < n ∧ free g ≠ 0 ∧ find g = some i := by
  obtain ⟨k, hk, hfound⟩ := exists_of_findSome?_eq_some h
  split at hfound
  case isTrue => exact absurd hfound (by simp)
  case isFalse hfree =>
    obtain ⟨j, hj, heq⟩ := Option.map_eq_some_iff.mp hfound
    obtain ⟨rfl, rfl⟩ := Prod.mk.inj heq
    exact ⟨mem_range.mp hk, hfree, hj⟩

/-- **A search that trusts the counters misses nothing**, also one that goes on after the last
group. -/
theorem Tally.find_none (h : Tally n m bits free total) {n' : ℕ}
    (hn : n ≤ n') (hfind : ∀ g < n, find g = none → ∀ i < m g, bitAt (bits g) i = true)
    (hnone : findGroup n' free find = none) : ∀ g < n, ∀ i < m g, bitAt (bits g) i = true := by
  intro g hg i hi
  have hgroup := findSome?_eq_none_iff.mp hnone g (mem_range.mpr (by omega))
  split at hgroup
  case isTrue hzero =>
    have hcount := h.group g hg
    rw [hzero] at hcount
    by_contra hclear
    have hpos : 0 < clearCount (bits g) (m g) :=
      clearCount_pos_iff.mpr ⟨i, hi, by simpa using hclear⟩
    have : (0 : BitVec 16).toNat = 0 := rfl
    omega
  case isFalse => exact hfind g hg (Option.map_eq_none_iff.mp hgroup) i hi

theorem Tally.of_total_zero (h : Tally n m bits free total) (hzero : total = 0) :
    ∀ g < n, ∀ i < m g, bitAt (bits g) i = true := by
  intro g hg i hi
  have hle := counter_le_sum free hg
  have hsum := h.sum
  have hcount := h.group g hg
  rw [hzero] at hsum
  have hz : (0 : BitVec 32).toNat = 0 := rfl
  by_contra hclear
  have hpos : 0 < clearCount (bits g) (m g) :=
    clearCount_pos_iff.mpr ⟨i, hi, by simpa using hclear⟩
  omega

end Tally

end CosmoRT.Lib
