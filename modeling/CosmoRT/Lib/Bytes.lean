import Mathlib.Data.List.GetD
import Mathlib.Tactic.Ring

/-!
# Bytes in memory

Little-endian values of any width, and a memory of bytes in which they are stored.

* `toBytes`, `ofBytes` — a bit vector as bytes and back: `ofBytes_toBytes`,
  `toBytes_ofBytes`.
* `write`, `read` — an interval of memory: what was written is read back
  (`read_write_sub`), what lies apart is not touched (`read_write_of_disjoint`), only
  the interval counts (`read_congr`), and intervals that touch join (`write_append`,
  `write_below`, `read_add`).
* `readWord_write_words` — **a record of words is read back field by field.**
-/

namespace CosmoRT.Lib.Bytes

open List BitVec

/-- A byte. -/
abbrev Byte := BitVec 8

/-! ## Values -/

/-- The `n` lowest bytes of a value, the lowest first. -/
def toBytes {w : ℕ} (n : ℕ) (v : BitVec w) : List Byte :=
  (List.range n).map fun i => v.extractLsb' (8 * i) 8

/-- The value of some bytes, as far as it fits. -/
def ofBytes (w : ℕ) : List Byte → BitVec w
  | [] => 0#w
  | b :: bs => b.setWidth w ||| ofBytes w bs <<< 8

variable {bs : List Byte} {n w i : ℕ} {ws : List (BitVec 64)}

@[simp] theorem length_toBytes (n : ℕ) (v : BitVec w) : (toBytes n v).length = n := by
  simp [toBytes]

theorem getLsbD_ofBytes (w : ℕ) (l : List Byte) (i : ℕ) :
    (ofBytes w l).getLsbD i = (decide (i < w) && (l.getD (i / 8) 0#8).getLsbD (i % 8)) := by
  induction l generalizing i with
  | nil => simp [ofBytes]
  | cons b bs ih =>
    rw [ofBytes, getLsbD_or, getLsbD_setWidth, getLsbD_shiftLeft, ih]
    by_cases hi : i < 8
    · -- the bit is in the first byte
      simp [Nat.div_eq_of_lt hi, Nat.mod_eq_of_lt hi, hi]
    · have hhigh : b.getLsbD i = false := getLsbD_of_ge b i (by omega)
      have hdiv : i / 8 = (i - 8) / 8 + 1 := by omega
      have hmod : i % 8 = (i - 8) % 8 := by omega
      rw [hdiv, hmod, hhigh]
      by_cases hw : i < w
      · simp [hi, hw, show i - 8 < w by omega]
      · simp [hw]

theorem ofBytes_toBytes (v : BitVec w) (h : w ≤ 8 * n) : ofBytes w (toBytes n v) = v := by
  refine eq_of_getLsbD_eq fun i hi => ?_
  have hn : i / 8 < n := by omega
  rw [getLsbD_ofBytes, toBytes, getD_eq_getElem _ _ (by simpa using hn)]
  simp only [getElem_map, getElem_range, getLsbD_extractLsb', hi, decide_true,
    Bool.true_and, Nat.mod_lt i (show 0 < 8 by decide), Nat.div_add_mod]

theorem toBytes_ofBytes {l : List Byte} (h : w = 8 * l.length) :
    toBytes l.length (ofBytes w l) = l := by
  refine ext_getElem (by simp) fun i h1 h2 => ?_
  simp only [toBytes, getElem_map, getElem_range]
  refine eq_of_getLsbD_eq fun j hj => ?_
  have hdiv : (8 * i + j) / 8 = i := by omega
  have hmod : (8 * i + j) % 8 = j := by omega
  rw [getLsbD_extractLsb', getLsbD_ofBytes, hdiv, hmod, getD_eq_getElem _ _ h2]
  simp [hj, show 8 * i + j < w by omega]

/-! ## Memory -/

/-- A memory of bytes. -/
abbrev Mem := ℕ → Byte

/-- The bytes are stored from an address on. -/
def write (m : Mem) (a : ℕ) (bs : List Byte) : Mem := fun x =>
  if a ≤ x ∧ x < a + bs.length then bs.getD (x - a) 0#8 else m x

/-- The bytes from an address on. -/
def read (m : Mem) (a n : ℕ) : List Byte := (List.range n).map fun i => m (a + i)

variable (m : Mem) (a : ℕ)

@[simp] theorem length_read (a n : ℕ) : (read m a n).length = n := by simp [read]

theorem read_congr {m m' : Mem} {a : ℕ} (h : ∀ x, a ≤ x → x < a + n → m' x = m x) :
    read m' a n = read m a n := by
  refine map_congr_left fun i hi => ?_
  rw [mem_range] at hi
  exact h (a + i) (by omega) (by omega)

theorem write_of_outside {m : Mem} {a x k : ℕ} (hk : bs.length = k)
    (h : x < a ∨ a + k ≤ x) : write m a bs x = m x :=
  if_neg (by omega)

theorem read_write_of_disjoint {m : Mem} {a b : ℕ}
    (h : a + n ≤ b ∨ b + bs.length ≤ a) : read (write m b bs) a n = read m a n := by
  refine read_congr fun x h1 h2 => ?_
  exact write_of_outside rfl (by omega)

theorem read_write_sub (h : i + n ≤ bs.length) :
    read (write m a bs) (a + i) n = (bs.drop i).take n := by
  refine ext_getElem (by simp; omega) fun j h1 h2 => ?_
  rw [length_read] at h1
  simp only [read, getElem_map, getElem_range, getElem_take, getElem_drop]
  rw [write, if_pos (by omega), show a + i + j - a = i + j by omega, getD_eq_getElem _ _ (by omega)]

theorem read_write (h : bs.length = n) : read (write m a bs) a n = bs := by
  have hsub : read (write m a bs) (a + 0) n = (bs.drop 0).take n := read_write_sub m a (by omega)
  rwa [drop_zero, take_of_length_le (by omega)] at hsub

theorem write_nil : write m a [] = m := by
  funext x
  simp [write]

theorem write_append (bs cs : List Byte) :
    write (write m a bs) (a + bs.length) cs = write m a (bs ++ cs) := by
  funext x
  simp only [write, length_append]
  by_cases h1 : a ≤ x ∧ x < a + bs.length
  · rw [if_neg (by omega), if_pos h1, if_pos (by omega), getD_append _ _ _ _ (by omega)]
  · by_cases h2 : a + bs.length ≤ x ∧ x < a + bs.length + cs.length
    · rw [if_pos h2, if_pos (by omega), getD_append_right _ _ _ _ (by omega)]
      congr 1
      omega
    · rw [if_neg h2, if_neg h1, if_neg (by omega)]

theorem write_below (bs cs : List Byte) :
    write (write m (a + bs.length) cs) a bs = write m a (bs ++ cs) := by
  rw [← write_append]
  funext x
  simp only [write]
  split_ifs
  all_goals first | rfl | omega

theorem read_add (a n k : ℕ) : read m a (n + k) = read m a n ++ read m (a + n) k := by
  simp [read, range_add, add_assoc]

/-! ## Records of words -/

/-- Eight bytes as a word. -/
def readWord (m : Mem) (a : ℕ) : BitVec 64 := ofBytes 64 (read m a 8)

/-- Words one after the other. -/
def wordsBytes (ws : List (BitVec 64)) : List Byte := ws.flatMap (toBytes 8)

@[simp] theorem length_wordsBytes (ws : List (BitVec 64)) :
    (wordsBytes ws).length = 8 * ws.length := by
  induction ws with
  | nil => rfl
  | cons v ws ih =>
    rw [wordsBytes, flatMap_cons, length_append, length_toBytes, length_cons]
    rw [wordsBytes] at ih
    omega

theorem take_drop_wordsBytes (h : i < ws.length) (rest : List Byte) :
    ((wordsBytes ws ++ rest).drop (8 * i)).take 8 = toBytes 8 (ws.getD i 0#64) := by
  induction ws generalizing i with
  | nil => cases h
  | cons v ws ih =>
    cases i with
    | zero =>
      rfl
    | succ i =>
      rw [length_cons] at h
      exact ih (by omega)

theorem readWord_write_words (h : i < ws.length) (rest : List Byte)
    : readWord (write m a (wordsBytes ws ++ rest)) (a + 8 * i) = ws.getD i 0#64 := by
  rw [readWord, read_write_sub m a (by simp; omega), take_drop_wordsBytes h rest,
    ofBytes_toBytes _ (by decide)]

theorem readWord_congr {m m' : Mem} {a : ℕ} (h : ∀ x, a ≤ x → x < a + 8 → m' x = m x) :
    readWord m' a = readWord m a := by rw [readWord, readWord, read_congr h]

end CosmoRT.Lib.Bytes
