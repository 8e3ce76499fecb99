import Mathlib.Data.List.Perm.Basic
import Mathlib.Logic.Function.Basic

/-!
# Hash tables with chaining

Buckets of entries, a hash that picks the bucket of a key, and the operations a
kernel does on them: find, push in front, unlink the first match, unlink every
match.  `entries` lists what a table holds, bucket by bucket; the laws say what
each operation does to that list, up to order.
-/

namespace CosmoRT.Lib

open List Function

variable {α κ : Type*}

/-- The entries of the first `n` buckets. -/
def entries (n : ℕ) (t : ℕ → List α) : List α := (List.range n).flatMap t

/-- The first entry with the key, in the bucket of the key. -/
def bucketFind [DecidableEq κ] (hash : κ → ℕ) (key : α → κ) (t : ℕ → List α) (k : κ) : Option α :=
  (t (hash k)).find? fun e => key e = k

/-- Push an entry in front of its bucket. -/
def bucketPush (hash : κ → ℕ) (key : α → κ) (t : ℕ → List α) (e : α) : ℕ → List α :=
  update t (hash (key e)) (e :: t (hash (key e)))

/-- Unlink the first entry with the key. -/
def bucketErase [DecidableEq κ] (hash : κ → ℕ) (key : α → κ) (t : ℕ → List α) (k : κ) :
    ℕ → List α :=
  update t (hash k) ((t (hash k)).eraseP fun e => key e = k)

/-- Every entry is in the bucket of its key, and no key is there twice. -/
structure Filed (n : ℕ) (hash : κ → ℕ) (key : α → κ) (t : ℕ → List α) : Prop where
  bucket : ∀ i, ∀ e ∈ t i, hash (key e) = i
  keys : ((entries n t).map key).Nodup

theorem mem_entries {n : ℕ} {t : ℕ → List α} {e : α} : e ∈ entries n t ↔ ∃ i < n, e ∈ t i := by
  simp [entries]

@[simp] theorem entries_nil (n : ℕ) : entries n (fun _ => ([] : List α)) = [] := by
  simp [entries]

theorem entries_update {n i : ℕ} (hi : i < n) (t : ℕ → List α) (l : List α) :
    ∃ rest, (entries n t).Perm (t i ++ rest) ∧
      (entries n (update t i l)).Perm (l ++ rest) := by
  induction n with
  | zero => omega
  | succ n ih =>
    simp only [entries, range_succ, flatMap_append, flatMap_cons, flatMap_nil, append_nil] at ih ⊢
    rcases Nat.lt_or_ge i n with hlt | hge
    · obtain ⟨rest, h1, h2⟩ := ih hlt
      refine ⟨rest ++ t n, ?_, ?_⟩
      · rw [← append_assoc]
        exact h1.append_right _
      · rw [update_of_ne (by omega), ← append_assoc]
        exact h2.append_right _
    · obtain rfl : i = n := by omega
      refine ⟨(range i).flatMap t, perm_append_comm, ?_⟩
      have hsame : (range i).flatMap (update t i l) = (range i).flatMap t := by
        refine flatMap_congr fun j hj => ?_
        rw [update_of_ne (Nat.ne_of_lt (mem_range.1 hj))]
      rw [update_self, hsame]
      exact perm_append_comm

section

variable {n : ℕ} {hash : κ → ℕ} {key : α → κ} {t : ℕ → List α}

variable {k : κ} {e : α}

theorem bucketFind_some [DecidableEq κ] (hhash : ∀ k, hash k < n)
    (h : bucketFind hash key t k = some e) : e ∈ entries n t ∧ key e = k :=
  ⟨mem_entries.2 ⟨hash k, hhash k, mem_of_find?_eq_some h⟩, by simpa using find?_some h⟩

theorem bucketFind_none [DecidableEq κ] (hf : Filed n hash key t)
    (h : bucketFind hash key t k = none) :
    ∀ e ∈ entries n t, key e ≠ k := by
  intro e he hk
  obtain ⟨i, -, hi⟩ := mem_entries.1 he
  have hbucket := hf.bucket i e hi
  rw [hk] at hbucket
  rw [bucketFind, find?_eq_none] at h
  exact h e (by rw [hbucket]; exact hi) (by simpa using hk)

theorem bucketFind_push [DecidableEq κ] (e : α) (k : κ) :
    bucketFind hash key (bucketPush hash key t e) k =
      if key e = k then some e else bucketFind hash key t k := by
  rw [bucketFind, bucketFind, bucketPush, update_apply]
  by_cases hk : key e = k
  · subst hk
    simp
  · split
    case isTrue heq => rw [find?_cons_of_neg (by simpa using hk), heq]
    case isFalse => rfl

theorem entries_push (hhash : ∀ k, hash k < n) (e : α) :
    (entries n (bucketPush hash key t e)).Perm (e :: entries n t) := by
  obtain ⟨rest, h1, h2⟩ := entries_update (hhash (key e)) t (e :: t (hash (key e)))
  exact h2.trans (h1.symm.cons e)

theorem Filed.push (hf : Filed n hash key t) (hhash : ∀ k, hash k < n)
    (hnew : ∀ e' ∈ entries n t, key e' ≠ key e) : Filed n hash key (bucketPush hash key t e) where
  bucket i e' he' := by
    rw [bucketPush, update_apply] at he'
    split at he'
    case isTrue heq =>
      rcases mem_cons.1 he' with rfl | hold
      · exact heq.symm
      · rw [heq]
        exact hf.bucket _ e' hold
    case isFalse => exact hf.bucket i e' he'
  keys := by
    have hperm : ((entries n (bucketPush hash key t e)).map key).Perm
        ((e :: entries n t).map key) := (entries_push hhash e).map key
    rw [hperm.nodup_iff, map_cons, nodup_cons]
    refine ⟨fun hin => ?_, hf.keys⟩
    obtain ⟨e', he', hk⟩ := mem_map.1 hin
    exact hnew e' he' hk

theorem entries_erase [DecidableEq κ] (hhash : ∀ k, hash k < n)
    (h : bucketFind hash key t k = some e) :
    (entries n t).Perm (e :: entries n (bucketErase hash key t k)) := by
  obtain ⟨rest, h1, h2⟩ := entries_update (hhash k) t ((t (hash k)).eraseP fun e => key e = k)
  have hsplit : (t (hash k)).Perm (e :: (t (hash k)).eraseP fun e => key e = k) := by
    obtain ⟨hk, as, bs, heq, hbefore⟩ := find?_eq_some_iff_append.1 h
    have hkey : key e = k := by simpa using hk
    rw [heq, eraseP_append_right _ (by simpa using hbefore)]
    simp [hkey]
  exact (h1.trans (hsplit.append_right rest)).trans (h2.symm.cons e)

theorem Filed.erase [DecidableEq κ] (hf : Filed n hash key t) (hhash : ∀ k, hash k < n)
    (h : bucketFind hash key t k = some e) : Filed n hash key (bucketErase hash key t k) where
  bucket i e' he' := by
    rw [bucketErase, update_apply] at he'
    split at he'
    case isTrue heq =>
      rw [heq]
      exact hf.bucket _ e' (mem_of_mem_eraseP he')
    case isFalse => exact hf.bucket i e' he'
  keys := by
    have hperm := (entries_erase hhash h).map key
    exact (nodup_cons.1 (hperm.nodup_iff.1 hf.keys)).2

theorem entries_filter (p : α → Bool) :
    entries n (fun i => (t i).filter p) = (entries n t).filter p := by
  rw [entries, entries, filter_flatMap]

theorem Filed.filter (hf : Filed n hash key t) (p : α → Bool) :
    Filed n hash key (fun i => (t i).filter p) where
  bucket i e he := hf.bucket i e (mem_filter.1 he).1
  keys := by
    rw [entries_filter]
    exact hf.keys.sublist (filter_sublist.map key)

end

end CosmoRT.Lib
