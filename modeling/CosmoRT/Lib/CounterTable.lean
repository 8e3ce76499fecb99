import CosmoRT.Lib.HashTable
import Mathlib.Algebra.Group.Int.Defs
import Mathlib.Tactic.Push
import Mathlib.Tactic.SplitIfs

/-!
# Hash tables of counters

Counters that are kept under keys in a hash table with chaining.  A key without an entry counts
as zero, so a table is read through `counterOf`, and the laws say what each change of the chains
does to it.
-/

namespace CosmoRT.Lib

open List Function

variable {κ : Type*} [DecidableEq κ]

/-- An entry of the table. -/
structure Counter (κ : Type*) where
  key : κ
  count : ℤ
  deriving DecidableEq, Repr

/-- The first counter with the key, set. -/
def setFirst (k : κ) (c : ℤ) : List (Counter κ) → List (Counter κ)
  | [] => []
  | e :: l => if e.key = k then { e with count := c } :: l else e :: setFirst k c l

/-- The counter of a key, set in its chain. -/
def counterSet (hash : κ → ℕ) (t : ℕ → List (Counter κ)) (k : κ) (c : ℤ) : ℕ → List (Counter κ) :=
  update t (hash k) (setFirst k c (t (hash k)))

/-- What a key counts. -/
def counterOf (hash : κ → ℕ) (t : ℕ → List (Counter κ)) (k : κ) : ℤ :=
  ((bucketFind hash Counter.key t k).map Counter.count).getD 0

/-! ## Chains -/

theorem map_key_setFirst (k : κ) (c : ℤ) (l : List (Counter κ)) :
    (setFirst k c l).map Counter.key = l.map Counter.key := by
  induction l with
  | nil => rfl
  | cons e l ih =>
    rw [setFirst]
    split_ifs
    · rfl
    · rw [map_cons, map_cons, ih]

theorem find?_setFirst (k k' : κ) (c : ℤ) (l : List (Counter κ)) :
    (setFirst k c l).find? (fun e => e.key = k') =
      if k' = k then (l.find? fun e => e.key = k).map fun e => { e with count := c }
      else l.find? fun e => e.key = k' := by
  induction l with
  | nil => simp [setFirst]
  | cons e l ih =>
    rw [setFirst]
    by_cases he : e.key = k
    · by_cases hk : k' = k
      · simp [he, hk]
      · simp [he, hk, Ne.symm hk]
    · rw [if_neg he, find?_cons, find?_cons, find?_cons, ih]
      by_cases hk : k' = k
      · simp [he, hk]
      · simp [hk]

theorem find?_eraseP_of_ne {k k' : κ} (hk : k' ≠ k) (l : List (Counter κ)) :
    (l.eraseP fun e => e.key = k).find? (fun e => e.key = k') = l.find? fun e => e.key = k' := by
  induction l with
  | nil => rfl
  | cons e l ih =>
    by_cases he : e.key = k
    · simp [he, Ne.symm hk]
    · simp only [eraseP_cons, he, decide_false, cond_false, find?_cons, ih]

/-! ## Tables -/

section

variable {n : ℕ} {hash : κ → ℕ} {t : ℕ → List (Counter κ)} {k : κ}

theorem counterOf_of_find {e : Counter κ} (h : bucketFind hash Counter.key t k = some e) :
    counterOf hash t k = e.count := by
  rw [counterOf, h]
  rfl

theorem counterOf_of_find_none (h : bucketFind hash Counter.key t k = none) :
    counterOf hash t k = 0 := by
  rw [counterOf, h]
  rfl

theorem counterOf_push (c : ℤ) (k' : κ) :
    counterOf hash (bucketPush hash Counter.key t ⟨k, c⟩) k' =
      if k' = k then c else counterOf hash t k' := by
  rw [counterOf, bucketFind_push]
  by_cases hk : k' = k
  · simp [hk]
  · rw [if_neg (Ne.symm hk), if_neg hk, counterOf]

theorem counterOf_set {e : Counter κ} (h : bucketFind hash Counter.key t k = some e) (c : ℤ)
    (k' : κ) : counterOf hash (counterSet hash t k c) k' =
      if k' = k then c else counterOf hash t k' := by
  rw [bucketFind] at h
  rw [counterOf, counterOf, bucketFind, bucketFind, counterSet, update_apply]
  by_cases hk : k' = k
  · subst hk
    rw [if_pos rfl, if_pos rfl, find?_setFirst, if_pos rfl, h]
    rfl
  · split
    case isTrue heq => rw [find?_setFirst, if_neg hk, heq]
    case isFalse => rfl

theorem counterOf_erase (hf : Filed n hash Counter.key t) (hhash : ∀ k, hash k < n) (k' : κ) :
    counterOf hash (bucketErase hash Counter.key t k) k' =
      if k' = k then 0 else counterOf hash t k' := by
  by_cases hk : k' = k
  · subst hk
    rw [if_pos rfl]
    refine counterOf_of_find_none (Option.eq_none_iff_forall_ne_some.2 fun e' he' => ?_)
    obtain ⟨hmem, hkey⟩ := bucketFind_some hhash he'
    cases hfind : bucketFind hash Counter.key t k' with
    | none =>
      have hmem' : e' ∈ entries n t := by
        obtain ⟨i, hi, he⟩ := mem_entries.1 hmem
        refine mem_entries.2 ⟨i, hi, ?_⟩
        rw [bucketErase, update_apply] at he
        split at he
        case isTrue heq => rw [heq]; exact mem_of_mem_eraseP he
        case isFalse => exact he
      exact bucketFind_none hf hfind e' hmem' hkey
    | some e =>
      have hnd := ((entries_erase hhash hfind).map Counter.key).nodup_iff.1 hf.keys
      refine (nodup_cons.1 hnd).1 (mem_map.2 ⟨e', hmem, ?_⟩)
      rw [hkey, (bucketFind_some hhash hfind).2]
  · rw [counterOf, counterOf, bucketFind, bucketFind, bucketErase, update_apply]
    split
    case isTrue heq => rw [find?_eraseP_of_ne hk, heq]
    case isFalse => rfl

theorem Filed.counterSet (hf : Filed n hash Counter.key t) (hhash : ∀ k, hash k < n) (k : κ)
    (c : ℤ) : Filed n hash Counter.key (counterSet hash t k c) where
  bucket i e he := by
    rw [Lib.counterSet, update_apply] at he
    split at he
    case isTrue heq =>
      have hkey : e.key ∈ (t (hash k)).map Counter.key := by
        rw [← map_key_setFirst k c]
        exact mem_map_of_mem he
      obtain ⟨e', he', heq'⟩ := mem_map.1 hkey
      rw [← heq', heq]
      exact hf.bucket _ e' he'
    case isFalse => exact hf.bucket i e he
  keys := by
    obtain ⟨rest, h1, h2⟩ := entries_update (hhash k) t (setFirst k c (t (hash k)))
    refine (h2.map Counter.key).nodup_iff.2 ?_
    rw [map_append, map_key_setFirst, ← map_append]
    exact (h1.map Counter.key).nodup_iff.1 hf.keys

end

end CosmoRT.Lib
