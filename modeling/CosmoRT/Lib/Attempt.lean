import Mathlib.Data.Set.Basic

/-!
# Computations that may give up

A computation over a state that returns a value or gives up with an error; the state it leaves is
kept in both cases, so that what was done before giving up is not forgotten.

* `Runs` — what a computation keeps, what is known of its value, and whether it may give up; with
  a rule per construct.
-/

namespace CosmoRT.Lib

/-- From a state, a value or an error, and the state left. -/
def Attempt (ε σ α : Type) := σ → Except ε α × σ

namespace Attempt

variable {ε σ α β : Type}

instance : Monad (Attempt ε σ) where
  pure a := fun s => (.ok a, s)
  bind x f := fun s =>
    match x s with
    | (.error e, s) => (.error e, s)
    | (.ok a, s) => f a s

/-- Give up. -/
def fail (e : ε) : Attempt ε σ α := fun s => (.error e, s)

section

variable {x : Attempt ε σ α} {f : α → Attempt ε σ β}

theorem bind_of_ok {s s' : σ} {a : α} (h : x s = (.ok a, s')) : (x >>= f) s = f a s' := by
  show (match x s with | (Except.error e, s) => (Except.error e, s) | (Except.ok a, s) => f a s) = _
  rw [h]

theorem bind_of_error {s s' : σ} {e : ε}
    (h : x s = (.error e, s')) : (x >>= f) s = (.error e, s') := by
  show (match x s with | (Except.error e, s) => (Except.error e, s) | (Except.ok a, s) => f a s) = _
  rw [h]

theorem of_bind_eq_ok {s t : σ} {b : β}
    (h : (x >>= f) s = (.ok b, t)) : ∃ a s', x s = (.ok a, s') ∧ f a s' = (.ok b, t) := by
  rcases hx : x s with ⟨e | a, s'⟩
  · rw [bind_of_error hx] at h
    simp at h
  · exact ⟨a, s', rfl, by rwa [bind_of_ok hx] at h⟩

end

theorem eq_ok_of_mem {x : Attempt ε σ α} {s : σ} {a : α} (h : a ∈ (x s).1.toOption) :
    ∃ s', x s = (.ok a, s') := by
  rcases hx : x s with ⟨e | b, s'⟩ <;> rw [hx] at h <;> cases h
  exact ⟨s', rfl⟩

/-- The property holds after the computation if it held before. -/
def Maintains (P : σ → Prop) (x : Attempt ε σ α) : Prop := ∀ s, P s → P (x s).2

/-- From a state with `P` the computation leaves one with `P`, its value has `Q`, and it gives up
only if it `may`. -/
def Runs (P : σ → Prop) (may : Prop) (x : Attempt ε σ α) (Q : α → Prop) : Prop :=
  ∀ s, P s → match x s with
    | (.ok a, s') => P s' ∧ Q a
    | (.error _, s') => P s' ∧ may

section Runs

variable {P : σ → Prop} {may : Prop} {x : Attempt ε σ α} {f : α → Attempt ε σ β} {Q R : α → Prop}
  {S : β → Prop} {s s' : σ} {a : α}

theorem runs_pure (h : Q a) : Runs P may (pure a : Attempt ε σ α) Q := fun _ hs => ⟨hs, h⟩

theorem runs_fail {e : ε} (h : may) : Runs P may (fail e : Attempt ε σ α) Q := fun _ hs => ⟨hs, h⟩

theorem Runs.bind (hx : Runs P may x Q) (hf : ∀ a, Q a → Runs P may (f a) S) :
    Runs P may (x >>= f) S := by
  intro s hs
  have h := hx s hs
  rcases hx : x s with ⟨e | a, s'⟩ <;> rw [hx] at h
  · rwa [bind_of_error hx]
  · rw [bind_of_ok hx]
    exact hf a h.2 s' h.1

theorem Runs.ite {c : Prop} [Decidable c] {y z : Attempt ε σ α} (hy : c → Runs P may y Q)
    (hz : ¬c → Runs P may z Q) : Runs P may (if c then y else z) Q := by
  split
  · exact hy ‹_›
  · exact hz ‹_›

theorem Runs.imp (h : Runs P may x Q) (hQ : ∀ a, Q a → R a) : Runs P may x R := by
  intro s hs
  have h := h s hs
  split at h
  · exact h.imp_right (hQ _)
  · exact h

theorem Runs.maintains (h : Runs P may x Q) : Maintains P x := by
  intro s hs
  have h := h s hs
  split at h <;> simp_all

theorem Runs.of_ok (h : Runs P may x Q) (hs : P s) (hx : x s = (.ok a, s')) : P s' ∧ Q a := by
  have h := h s hs
  rwa [hx] at h

/-- A computation that may not give up has a value. -/
theorem Runs.ok (h : Runs P False x Q) (hs : P s) : ∃ a s', x s = (.ok a, s') ∧ P s' ∧ Q a := by
  have h := h s hs
  rcases hx : x s with ⟨e | a, s'⟩ <;> rw [hx] at h
  · exact h.2.elim
  · exact ⟨a, s', rfl, h⟩

/-- What the first part brings about, if the second part keeps it. -/
theorem bind_reaches (h : P (x s).2) (hf : ∀ a, Runs P may (f a) S) : P ((x >>= f) s).2 := by
  rcases hx : x s with ⟨e | a, s'⟩ <;> rw [hx] at h
  · rwa [bind_of_error hx]
  · rw [bind_of_ok hx]
    exact (hf a).maintains s' h

/-- What the second part brings about, if the first part has a value. -/
theorem Runs.reaches {T : σ → Prop} (hx : Runs (fun _ => True) False x Q)
    (hf : ∀ a s, Q a → T (f a s).2) : T ((x >>= f) s).2 := by
  obtain ⟨a, s', hx, -, ha⟩ := hx.ok (s := s) trivial
  rw [bind_of_ok hx]
  exact hf a s' ha

end Runs

end Attempt

end CosmoRT.Lib
