import Mathlib

/-!
# Forests of pointers

Nodes are numbers, 0 is none.  A store says which node the `i`-th pointer of a node names, and
each root starts a tree: a path is a root and the indices to follow.

* `follow`, `node` — the node at the end of a path.
* `Separate` — no node is reached on two paths.
* `node_plant`, `node_graft` — a fresh node under a root, or under a node of the forest, is
  reached on one path, and every other path leads where it led before; `Separate.put` — the
  forest stays separate.
-/

namespace CosmoRT.Lib.Forest

open List Function

variable {ρ : Type*} {read read' : ℕ → ℕ → ℕ}

/-- The node at the end of the indices. -/
def follow (read : ℕ → ℕ → ℕ) : ℕ → List ℕ → ℕ
  | b, [] => b
  | b, i :: is => if b = 0 then 0 else follow read (read b i) is

@[simp] theorem follow_nil (b : ℕ) : follow read b [] = b := rfl

@[simp] theorem follow_zero (is : List ℕ) : follow read 0 is = 0 := by
  cases is with
  | nil => rfl
  | cons i is => simp [follow]

theorem follow_snoc (b : ℕ) (is : List ℕ) (i : ℕ) :
    follow read b (is ++ [i]) =
      if follow read b is = 0 then 0 else read (follow read b is) i := by
  induction is generalizing b with
  | nil => by_cases hb : b = 0 <;> simp [follow, hb]
  | cons j is ih =>
    by_cases hb : b = 0
    · simp [follow, hb]
    · simp only [cons_append, follow, hb, if_false]
      exact ih _

/-- How deep the tree of each root is, and how many pointers a node has. -/
structure Shape (ρ : Type*) where
  depth : ρ → ℕ
  width : ℕ

/-- A path inside the shape. -/
def Shape.Path (sh : Shape ρ) (r : ρ) (is : List ℕ) : Prop :=
  is.length ≤ sh.depth r ∧ ∀ i ∈ is, i < sh.width

theorem Shape.Path.nil (sh : Shape ρ) (r : ρ) : sh.Path r [] := ⟨Nat.zero_le _, by simp⟩

variable {r : ρ}

variable {is : List ℕ} {i : ℕ}

theorem Shape.Path.init {sh : Shape ρ} (h : sh.Path r (is ++ [i])) :
    sh.Path r is ∧ is.length < sh.depth r ∧ i < sh.width := by
  obtain ⟨hlen, hmem⟩ := h
  rw [length_append, length_singleton] at hlen
  exact ⟨⟨by omega, fun j hj => hmem j (mem_append_left _ hj)⟩, by omega, hmem i (by simp)⟩

def node (read : ℕ → ℕ → ℕ) (root : ρ → ℕ) (r : ρ) (is : List ℕ) : ℕ := follow read (root r) is

/-- No node is reached on two paths. -/
def Separate (sh : Shape ρ) (f : ρ → List ℕ → ℕ) : Prop :=
  ∀ r is s js, sh.Path r is → sh.Path s js → f r is ≠ 0 → f r is = f s js → r = s ∧ is = js

variable {sh : Shape ρ} {root : ρ → ℕ}

variable {s : ρ} {js : List ℕ}

theorem node_congr (hread : ∀ s js j, sh.Path s (js ++ [j]) → node read root s js ≠ 0 →
      read' (node read root s js) j = read (node read root s js) j)
    (hpath : sh.Path s js) : node read' root s js = node read root s js := by
  induction js using reverseRecOn with
  | nil => rfl
  | append_singleton js j ih =>
    have hjs := ih hpath.init.1
    rw [node, follow_snoc, node, follow_snoc]
    change (if node read' root s js = 0 then 0 else read' (node read' root s js) j) =
      if node read root s js = 0 then 0 else read (node read root s js) j
    rw [hjs]
    split
    case isTrue => rfl
    case isFalse hne => exact hread s js j hpath hne

variable [DecidableEq ρ]

/-- The node on one path replaced. -/
def put (f : ρ → List ℕ → ℕ) (r : ρ) (is : List ℕ) (b : ℕ) : ρ → List ℕ → ℕ := fun s js =>
  if s = r ∧ js = is then b else f s js

variable {b : ℕ}

theorem Separate.put {f : ρ → List ℕ → ℕ} (h : Separate sh f)
    (hfresh : ∀ s js, sh.Path s js → f s js ≠ b) : Separate sh (put f r is b) := by
  intro s js t ks hs ht hne heq
  by_cases h1 : s = r ∧ js = is
  · by_cases h2 : t = r ∧ ks = is
    · exact ⟨h1.1.trans h2.1.symm, h1.2.trans h2.2.symm⟩
    · rw [Forest.put, if_pos h1, Forest.put, if_neg h2] at heq
      exact absurd heq.symm (hfresh t ks ht)
  · by_cases h2 : t = r ∧ ks = is
    · rw [Forest.put, if_neg h1, Forest.put, if_pos h2] at heq
      exact absurd heq (hfresh s js hs)
    · rw [Forest.put, if_neg h1] at hne heq
      rw [Forest.put, if_neg h2] at heq
      exact h s js t ks hs ht hne heq

/-- **A fresh node under a root.** -/
theorem node_plant (hnull : root r = 0)
    (hread : ∀ s js j, sh.Path s (js ++ [j]) → node read root s js ≠ 0 →
      read' (node read root s js) j = read (node read root s js) j)
    (hzero : ∀ i < sh.width, read' b i = 0) (hpath : sh.Path s js) :
    node read' (update root r b) s js = put (node read root) r [] b s js := by
  induction js using reverseRecOn with
  | nil =>
    by_cases hs : s = r
    · subst hs
      simp [node, put]
    · simp [node, put, hs]
  | append_singleton js j ih =>
    obtain ⟨hinit, -, hj⟩ := hpath.init
    have hjs := ih hinit
    rw [put, if_neg (by simp), node, follow_snoc, node, follow_snoc]
    change (if node read' (update root r b) s js = 0 then 0
      else read' (node read' (update root r b) s js) j) =
      if node read root s js = 0 then 0 else read (node read root s js) j
    rw [hjs, put]
    by_cases hnew : s = r ∧ js = []
    · -- below the fresh node there is nothing yet
      obtain ⟨rfl, rfl⟩ := hnew
      have hold : node read root s [] = 0 := hnull
      simp [hzero j hj, hold]
    · rw [if_neg hnew]
      split
      case isTrue => rfl
      case isFalse hne => exact hread s js j hpath hne

/-- **A fresh node under a node of the forest.** -/
theorem node_graft (hsep : Separate sh (node read root))
    (hnew : sh.Path r (is ++ [i])) (hparent : node read root r is ≠ 0)
    (hnull : read (node read root r is) i = 0)
    (hread : ∀ s js j, sh.Path s (js ++ [j]) → node read root s js ≠ 0 →
      read' (node read root s js) j =
        if node read root s js = node read root r is ∧ j = i then b
        else read (node read root s js) j)
    (hzero : ∀ j < sh.width, read' b j = 0) (hpath : sh.Path s js) :
    node read' root s js = put (node read root) r (is ++ [i]) b s js := by
  induction js using reverseRecOn with
  | nil =>
    rw [put, if_neg (by simp)]
    rfl
  | append_singleton js j ih =>
    obtain ⟨hinit, -, hj⟩ := hpath.init
    have hjs := ih hinit
    rw [node, follow_snoc]
    change (if node read' root s js = 0 then 0 else read' (node read' root s js) j) = _
    rw [hjs]
    by_cases habove : s = r ∧ js = is ++ [i]
    · obtain ⟨rfl, rfl⟩ := habove
      have hold : node read root s (is ++ [i]) = 0 := by
        rw [node, follow_snoc]
        change (if node read root s is = 0 then 0 else read (node read root s is) i) = 0
        rw [if_neg hparent, hnull]
      have hbelow : node read root s (is ++ [i] ++ [j]) = 0 := by
        rw [node, follow_snoc]
        exact if_pos hold
      have hself : put (node read root) s (is ++ [i]) b s (is ++ [i]) = b := if_pos ⟨rfl, rfl⟩
      have hnext : put (node read root) s (is ++ [i]) b s (is ++ [i] ++ [j]) = 0 := by
        rw [put, if_neg (by simp), hbelow]
      rw [hself, hnext, hzero j hj, ite_self]
    · rw [put, if_neg habove]
      by_cases hat : s = r ∧ js = is
      · obtain ⟨rfl, rfl⟩ := hat
        rw [if_neg hparent, hread s js j hpath hparent, put]
        by_cases hji : j = i
        · simp [hji]
        · have hold : node read root s (js ++ [j]) = read (node read root s js) j := by
            rw [node, follow_snoc]
            exact if_neg hparent
          simp [hji, hold]
      · have hother : ¬ (s = r ∧ js ++ [j] = is ++ [i]) := fun h =>
          hat ⟨h.1, (append_inj' h.2 rfl).1⟩
        rw [put, if_neg hother, node, node, follow_snoc]
        change (if node read root s js = 0 then 0 else read' (node read root s js) j) =
          if node read root s js = 0 then 0 else read (node read root s js) j
        split
        case isTrue => rfl
        case isFalse hne =>
          have hapart : node read root s js ≠ node read root r is := fun h =>
            hat (hsep s js r is hinit hnew.init.1 hne h)
          rw [hread s js j hpath hne, if_neg fun h => hapart h.1]

end CosmoRT.Lib.Forest
