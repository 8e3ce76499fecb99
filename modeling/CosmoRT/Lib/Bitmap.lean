import Mathlib.Data.List.Basic
import Mathlib.Data.Nat.Find

/-!
# Bitmaps of 64-bit words

A set of numbers kept as the bits of a list of words, with the operations every
allocator builds on it: set and clear a bit, and find the first set bit at or
after a position, word by word with a trailing-zero count.  `bit` is the set a
bitmap stands for; the laws say what each operation does to it.
-/

namespace CosmoRT.Lib

open List

section

variable (ws : List (BitVec 64)) (i : ℕ)

/-- Whether bit `i` of the bitmap is set; bits past the last word are clear. -/
def bit : Bool := (ws.getD (i / 64) 0).getLsbD (i % 64)

/-- `ws[i / 64] |= 1 << (i % 64)`. -/
def setBit : List (BitVec 64) :=
  ws.set (i / 64) (ws.getD (i / 64) 0 ||| (1#64 <<< (i % 64)))

/-- `ws[i / 64] &= ~(1 << (i % 64))`. -/
def clearBit : List (BitVec 64) :=
  ws.set (i / 64) (ws.getD (i / 64) 0 &&& ~~~(1#64 <<< (i % 64)))

end

variable (ws : List (BitVec 64))

@[simp] theorem length_setBit (i : ℕ) : (setBit ws i).length = ws.length := length_set

@[simp] theorem length_clearBit (i : ℕ) : (clearBit ws i).length = ws.length := length_set

theorem getD_set (k m : ℕ) (w : BitVec 64) (hk : k < ws.length) :
    (ws.set k w).getD m 0 = if m = k then w else ws.getD m 0 := by
  by_cases h : m = k
  · subst h
    simp [getD_eq_getElem?_getD, hk]
  · simp [getD_eq_getElem?_getD, getElem?_set_ne (Ne.symm h), h]

theorem bit_eq_false_of_length_le {ws : List (BitVec 64)} {i : ℕ} (h : ws.length ≤ i / 64) :
    bit ws i = false := by
  simp [bit, getD_eq_getElem?_getD, getElem?_eq_none h]

theorem getLsbD_mask {i j : ℕ} (h : j / 64 = i / 64) :
    (1#64 <<< (i % 64)).getLsbD (j % 64) = decide (j = i) := by
  have hm : j % 64 < 64 := Nat.mod_lt _ (by decide)
  by_cases hji : j = i
  · subst hji
    simp [hm]
  · by_cases hlt : j % 64 < i % 64
    · simp [hlt, hji]
    · simp [show ¬ j % 64 - i % 64 = 0 by omega, hji]

theorem bit_setBit {ws : List (BitVec 64)} {i : ℕ} (hi : i / 64 < ws.length) (j : ℕ) :
    bit (setBit ws i) j = (decide (j = i) || bit ws j) := by
  rw [bit, bit, setBit, getD_set _ _ _ _ hi]
  by_cases hw : j / 64 = i / 64
  · rw [if_pos hw, BitVec.getLsbD_or, getLsbD_mask hw, hw, Bool.or_comm]
  · have hji : ¬ j = i := fun h => hw (by rw [h])
    simp [hw, hji]

theorem bit_clearBit (i j : ℕ) : bit (clearBit ws i) j = (decide (j ≠ i) && bit ws j) := by
  by_cases hi : i / 64 < ws.length
  · rw [bit, bit, clearBit, getD_set _ _ _ _ hi]
    by_cases hw : j / 64 = i / 64
    · have hm : j % 64 < 64 := Nat.mod_lt _ (by decide)
      rw [if_pos hw, BitVec.getLsbD_and, BitVec.getLsbD_not, getLsbD_mask hw, hw, Bool.and_comm]
      simp [hm]
    · have hji : ¬ j = i := fun h => hw (by rw [h])
      simp [hw, hji]
  · have hset : clearBit ws i = ws := set_eq_of_length_le (by omega)
    rw [hset]
    by_cases hji : j = i
    · simp [bit_eq_false_of_length_le (show ws.length ≤ j / 64 by omega)]
    · simp [hji]

section

variable (keep : ℕ → Bool) (l : List ℕ) (ws : List (BitVec 64))

/-- The loop that clears, among the positions `l`, those that `keep` does not
hold of. -/
def clearUnless : List (BitVec 64) :=
  l.foldl (fun acc i => if keep i then acc else clearBit acc i) ws

@[simp] theorem length_clearUnless : (clearUnless keep l ws).length = ws.length := by
  induction l generalizing ws with
  | nil => rfl
  | cons i l ih =>
    rw [clearUnless, foldl_cons, ← clearUnless, ih]
    split <;> simp

theorem bit_clearUnless (j : ℕ) :
    bit (clearUnless keep l ws) j = true ↔ bit ws j = true ∧ (j ∈ l → keep j = true) := by
  induction l generalizing ws with
  | nil => simp [clearUnless]
  | cons i l ih =>
    rw [clearUnless, foldl_cons, ← clearUnless, ih]
    by_cases hk : keep i = true
    · by_cases hji : j = i
      · subst hji
        simp [hk]
      · simp [hk, hji]
    · by_cases hji : j = i
      · subst hji
        simp [hk, bit_clearBit]
      · simp [hk, hji, bit_clearBit]

end

/-- The loop that sets every position of `l`. -/
def setAll (l : List ℕ) (ws : List (BitVec 64)) : List (BitVec 64) := l.foldl setBit ws

@[simp] theorem length_setAll (l : List ℕ) (ws : List (BitVec 64)) :
    (setAll l ws).length = ws.length := by
  induction l generalizing ws with
  | nil => rfl
  | cons i l ih =>
    rw [setAll, foldl_cons, ← setAll, ih, length_setBit]

theorem bit_setAll {l : List ℕ} {ws : List (BitVec 64)} (h : ∀ i ∈ l, i / 64 < ws.length)
    (j : ℕ) : bit (setAll l ws) j = true ↔ j ∈ l ∨ bit ws j = true := by
  induction l generalizing ws with
  | nil => simp [setAll]
  | cons i l ih =>
    have hi : i / 64 < ws.length := h i (mem_cons_self ..)
    have hl : ∀ k ∈ l, k / 64 < (setBit ws i).length := by
      intro k hk
      rw [length_setBit]
      exact h k (mem_cons_of_mem _ hk)
    rw [setAll, foldl_cons, ← setAll, ih hl, bit_setBit hi]
    simp only [Bool.or_eq_true, decide_eq_true_eq, mem_cons]
    tauto

theorem bit_replicate_allOnes (n i : ℕ) :
    bit (replicate n (BitVec.allOnes 64)) i = true ↔ i < n * 64 := by
  have hmod : i % 64 < 64 := Nat.mod_lt _ (by decide)
  rw [bit, getD_eq_getElem?_getD, getElem?_replicate]
  by_cases h : i / 64 < n
  · simp only [h, if_true, Option.getD_some, BitVec.getLsbD_allOnes, decide_eq_true_eq, hmod,
      true_iff]
    omega
  · simp only [h, if_false, Option.getD_none]
    simp
    omega

/-! ## The first set bit -/

/-- The number of trailing zeros of a word (64 for the zero word). -/
def ctz (w : BitVec 64) : ℕ := ((List.range 64).find? fun i => w.getLsbD i).getD 64

theorem ctz_spec {w : BitVec 64} (hw : w ≠ 0) :
    ctz w < 64 ∧ w.getLsbD (ctz w) = true ∧ ∀ j < ctz w, w.getLsbD j = false := by
  obtain ⟨k, hk⟩ : ∃ k, (range 64).find? (fun i => w.getLsbD i) = some k := by
    rw [← Option.isSome_iff_exists, find?_isSome]
    by_contra hnone
    refine hw (BitVec.eq_of_getLsbD_eq fun i hi => ?_)
    by_contra hbit
    exact hnone ⟨i, mem_range.2 hi, by simpa using hbit⟩
  have hctz : ctz w = k := by simp [ctz, hk]
  obtain ⟨hbit, as, bs, hsplit, hbefore⟩ := find?_eq_some_iff_append.1 hk
  have hlen : as.length = k := by
    have hget : (range 64)[as.length]? = some k := by
      rw [hsplit]
      simp
    obtain ⟨hlt, heq⟩ := List.getElem?_eq_some_iff.1 hget
    simpa using heq
  have hmem : k ∈ range 64 := mem_of_find?_eq_some hk
  rw [hctz]
  refine ⟨mem_range.1 hmem, hbit, fun j hj => ?_⟩
  have hj64 : j < 64 := lt_trans hj (mem_range.1 hmem)
  have hjas : j ∈ as := by
    have hget : (range 64)[j]? = some j := by simp [hj64]
    rw [hsplit, getElem?_append_left (by omega)] at hget
    exact mem_of_getElem? hget
  simpa using hbefore j hjas

/-- The scan for a set bit: the current word `w` (position `word`) and then the
words after it, `fuel` words in all. -/
def scanWords (ws : List (BitVec 64)) : ℕ → ℕ → BitVec 64 → Option ℕ
  | 0, _, _ => none
  | fuel + 1, word, w =>
    if w ≠ 0 then some (word * 64 + ctz w)
    else scanWords ws fuel (word + 1) (ws.getD (word + 1) 0)

/-- What the scan looks for: the first `i ≥ lo` of the scanned words with its bit set. -/
theorem scanWords_spec (fuel word lo : ℕ) (w : BitVec 64) (hlo : lo ≤ word * 64 + 64)
    (hw : ∀ k < 64, w.getLsbD k = (decide (lo ≤ word * 64 + k) && bit ws (word * 64 + k))) :
    (∀ i, scanWords ws fuel word w = some i →
      lo ≤ i ∧ bit ws i = true ∧ ∀ j, lo ≤ j → word * 64 ≤ j → j < i → bit ws j = false) ∧
    (scanWords ws fuel word w = none →
      ∀ j, lo ≤ j → word * 64 ≤ j → j < (word + fuel) * 64 → bit ws j = false) := by
  induction fuel generalizing word w lo with
  | zero =>
    refine ⟨by simp [scanWords], fun _ j _ h1 h2 => ?_⟩
    omega
  | succ fuel ih =>
    rw [scanWords]
    by_cases hz : w = 0
    · -- nothing in this word: go on with the next one, all of whose bits count
      have hclear : ∀ j, lo ≤ j → word * 64 ≤ j → j < word * 64 + 64 → bit ws j = false := by
        intro j h0 h1 h2
        have hk := hw (j - word * 64) (by omega)
        have hj : word * 64 + (j - word * 64) = j := by omega
        rw [hj, hz] at hk
        simpa [h0] using hk
      have hnext : ∀ k < 64, (ws.getD (word + 1) 0).getLsbD k
          = (decide (lo ≤ (word + 1) * 64 + k) && bit ws ((word + 1) * 64 + k)) := by
        intro k hk
        have hdiv : ((word + 1) * 64 + k) / 64 = word + 1 := by omega
        have hmod : ((word + 1) * 64 + k) % 64 = k := by omega
        have hle : lo ≤ (word + 1) * 64 + k := by omega
        simp [bit, hdiv, hmod, hle]
      obtain ⟨hsome, hnone⟩ := ih (word + 1) lo _ (by omega) hnext
      rw [if_neg (by simpa using hz)]
      refine ⟨fun i hi => ?_, fun hn j h0 h1 h2 => ?_⟩
      · obtain ⟨hle, hbit, hbefore⟩ := hsome i hi
        refine ⟨hle, hbit, fun j h0 h1 h2 => ?_⟩
        rcases lt_or_ge j ((word + 1) * 64) with hlt | hge
        · exact hclear j h0 h1 (by omega)
        · exact hbefore j h0 hge h2
      · rcases lt_or_ge j ((word + 1) * 64) with hlt | hge
        · exact hclear j h0 h1 (by omega)
        · exact hnone hn j h0 hge (by omega)
    · obtain ⟨hlt, hbit, hbefore⟩ := ctz_spec hz
      rw [if_pos (by simpa using hz)]
      refine ⟨fun i hi => ?_, fun h => absurd h (by simp)⟩
      obtain rfl : word * 64 + ctz w = i := by simpa using hi
      have hk := hw (ctz w) hlt
      rw [hbit] at hk
      simp only [Bool.true_eq, Bool.and_eq_true, decide_eq_true_eq] at hk
      refine ⟨hk.1, hk.2, fun j h0 h1 h2 => ?_⟩
      have hj := hw (j - word * 64) (by omega)
      rw [hbefore _ (by omega), show word * 64 + (j - word * 64) = j by omega] at hj
      simpa [h0] using hj.symm

end CosmoRT.Lib
