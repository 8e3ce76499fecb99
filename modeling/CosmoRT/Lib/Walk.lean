import Mathlib.Logic.Relation
import Mathlib.Order.Basic

/-!
# Walks in a graph

Walks counted by their edges, and a bounded walk that follows one recorded edge from
each node, as a deadlock detector does.

* `walkTo_iff` — the bounded walk against the graph it is meant to follow.
* `Shallow R k` — no walk has more than `k` edges; such a graph has no cycle
  (`Shallow.acyclic`).
-/

namespace CosmoRT.Lib

variable {α : Type*}

/-- A walk of exactly `n` edges. -/
def Steps (r : α → α → Prop) : ℕ → α → α → Prop
  | 0, a, b => a = b
  | n + 1, a, b => ∃ c, r a c ∧ Steps r n c b

/-- Follow the edge of the current node, up to `fuel` times, until the goal is
reached. -/
def walkTo [DecidableEq α] (edge : α → Option α) (goal : α) : ℕ → α → Bool
  | 0, _ => false
  | fuel + 1, cur =>
    match edge cur with
    | none => false
    | some next => if next = goal then true else walkTo edge goal fuel next

/-- When the recorded edge of every node but the goal is its only edge, the walk
arrives exactly when the graph has a walk that is short enough. -/
theorem walkTo_iff [DecidableEq α] {edge : α → Option α} {goal : α} {r : α → α → Prop}
    (hedge : ∀ a, a ≠ goal → ∀ b, edge a = some b ↔ r a b) (fuel : ℕ) (cur : α)
    (hcur : cur ≠ goal) : walkTo edge goal fuel cur = true ↔ ∃ n ≤ fuel, Steps r n cur goal := by
  induction fuel generalizing cur with
  | zero =>
    simp only [walkTo, Bool.false_eq_true, false_iff]
    rintro ⟨n, hn, hsteps⟩
    obtain rfl : n = 0 := by omega
    exact hcur hsteps
  | succ fuel ih =>
    rw [walkTo]
    constructor
    · intro hwalk
      cases hnext : edge cur with
      | none => simp [hnext] at hwalk
      | some next =>
        have hr : r cur next := (hedge cur hcur next).1 hnext
        by_cases hgoal : next = goal
        · exact ⟨1, by omega, next, hr, hgoal⟩
        · simp only [hnext, hgoal, if_false] at hwalk
          obtain ⟨n, hn, hsteps⟩ := (ih next hgoal).1 hwalk
          exact ⟨n + 1, by omega, next, hr, hsteps⟩
    · rintro ⟨n, hn, hsteps⟩
      cases n with
      | zero => exact absurd hsteps hcur
      | succ n =>
        obtain ⟨next, hr, hrest⟩ := hsteps
        simp only [(hedge cur hcur next).2 hr]
        by_cases hgoal : next = goal
        · rw [if_pos hgoal]
        · rw [if_neg hgoal]
          exact (ih next hgoal).2 ⟨n, by omega, hrest⟩

/-! ## Walks and new edges -/

section Edges

variable {R S : α → α → Prop} {a b c x y : α} {n k : ℕ}

theorem Steps.nil (a : α) : Steps R 0 a a := rfl

theorem Steps.cons (he : R a b) (hp : Steps R n b c) : Steps R (n + 1) a c := ⟨b, he, hp⟩

theorem Steps.mono (h : ∀ x y, R x y → S x y) (hp : Steps R n a b) : Steps S n a b := by
  induction n generalizing a with
  | zero => exact hp
  | succ n ih =>
    obtain ⟨c, he, hp⟩ := hp
    exact .cons (h _ _ he) (ih hp)

theorem Steps.snoc (hp : Steps R n a b) (he : R b c) : Steps R (n + 1) a c := by
  induction n generalizing a with
  | zero =>
    obtain rfl : a = b := hp
    exact .cons he (.nil _)
  | succ n ih =>
    obtain ⟨d, hd, hp⟩ := hp
    exact .cons hd (ih hp)

theorem Steps.append {m : ℕ} (hp : Steps R n a b) (hq : Steps R m b c) : Steps R (n + m) a c := by
  induction n generalizing a with
  | zero =>
    obtain rfl : a = b := hp
    rwa [Nat.zero_add]
  | succ n ih =>
    obtain ⟨d, hd, hp⟩ := hp
    rw [Nat.add_right_comm]
    exact .cons hd (ih hp)

/-- No path has more than `k` edges. -/
def Shallow (R : α → α → Prop) (k : ℕ) : Prop := ∀ n a b, Steps R n a b → n ≤ k

theorem Shallow.mono (hs : Shallow S k) (h : ∀ x y, R x y → S x y) : Shallow R k :=
  fun n a b hp => hs n a b (hp.mono h)

theorem exists_steps_of_transGen (h : Relation.TransGen R a b) : ∃ n, Steps R (n + 1) a b := by
  induction h with
  | single he => exact ⟨0, .cons he (.nil _)⟩
  | tail _ he ih =>
    obtain ⟨n, hp⟩ := ih
    exact ⟨n + 1, hp.snoc he⟩

/-- Going round a cycle gives paths of any length. -/
theorem Shallow.acyclic (hs : Shallow R k) (a : α) : ¬ Relation.TransGen R a a := by
  intro h
  obtain ⟨n, hp⟩ := exists_steps_of_transGen h
  have hround : ∀ m, ∃ len, m ≤ len ∧ Steps R len a a := by
    intro m
    induction m with
    | zero => exact ⟨0, Nat.le_refl 0, .nil a⟩
    | succ m ih =>
      obtain ⟨len, hlen, hq⟩ := ih
      exact ⟨n + 1 + len, by omega, hp.append hq⟩
  obtain ⟨len, hlen, hq⟩ := hround (k + 1)
  have hle := hs len a a hq
  omega

/-- With a new edge from `a` to `b` only, where nothing points at `a`, a path either
was there before or starts with the new edge. -/
theorem Steps.of_addEdge (hroot : ∀ x, ¬ R x a) (hne : b ≠ a)
    (hS : ∀ x y, S x y → R x y ∨ x = a ∧ y = b) (hp : Steps S n x y) :
    Steps R n x y ∨ x = a ∧ ∃ m, n = m + 1 ∧ Steps R m b y := by
  induction n generalizing x with
  | zero =>
    obtain rfl : x = y := hp
    exact .inl (.nil x)
  | succ n ih =>
    obtain ⟨z, he, hp⟩ := hp
    rcases ih hp with hz | ⟨rfl, -⟩
    · rcases hS _ _ he with hR | ⟨rfl, rfl⟩
      · exact .inl (.cons hR hz)
      · exact .inr ⟨rfl, n, rfl, hz⟩
    · -- the edge into `a` is neither an old one nor the new one
      rcases hS _ _ he with hR | ⟨-, hzb⟩
      · exact absurd hR (hroot x)
      · exact absurd hzb.symm hne

/-- A new edge out of a vertex nothing points at keeps the paths short when those from
its target are shorter still. -/
theorem Shallow.addEdge (hs : Shallow R k) (hroot : ∀ x, ¬ R x a) (hne : b ≠ a)
    (hS : ∀ x y, S x y → R x y ∨ x = a ∧ y = b) (hb : ∀ n y, Steps R n b y → n < k) :
    Shallow S k := by
  intro n x y hp
  rcases hp.of_addEdge hroot hne hS with hR | ⟨-, m, rfl, hm⟩
  · exact hs n x y hR
  · exact hb m y hm

theorem transGen_of_addEdge (hS : ∀ x y, S x y → R x y ∨ x = a ∧ y = b)
    (h : Relation.TransGen S x y) :
    Relation.TransGen R x y ∨ Relation.ReflTransGen R x a ∧ Relation.ReflTransGen R b y := by
  induction h with
  | single he =>
    rcases hS _ _ he with hR | ⟨rfl, rfl⟩
    · exact .inl (.single hR)
    · exact .inr ⟨.refl, .refl⟩
  | tail _ he ih =>
    rcases hS _ _ he with hR | ⟨rfl, rfl⟩
    · rcases ih with ih | ⟨hxa, hby⟩
      · exact .inl (ih.tail hR)
      · exact .inr ⟨hxa, hby.tail hR⟩
    · rcases ih with ih | ⟨hxa, -⟩
      · exact .inr ⟨ih.to_reflTransGen, .refl⟩
      · exact .inr ⟨hxa, .refl⟩

theorem acyclic_addEdge (hR : ∀ x, ¬ Relation.TransGen R x x)
    (hS : ∀ x y, S x y → R x y ∨ x = a ∧ y = b) (hno : ¬ Relation.ReflTransGen R b a) (x : α) :
    ¬ Relation.TransGen S x x := by
  intro h
  rcases transGen_of_addEdge hS h with h | ⟨hxa, hbx⟩
  · exact hR x h
  · exact hno (hbx.trans hxa)

end Edges

end CosmoRT.Lib
