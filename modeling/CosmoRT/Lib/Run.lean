import Mathlib.Data.List.Basic
import Mathlib.Logic.Basic

/-!
# Runs of a state machine

A component of a kernel is a state, a type of calls and a function that says
what one call does to the state.  This file is the little theory of its runs
that the rest of the development uses.

* `run` — the state after a list of calls.
* `Along` — a condition on *state and call* that is met at every step of a run.
* `run_invariant` — **the invariant rule**: what holds at the start and is kept
  by every step that meets the condition holds at the end of every run all of
  whose steps meet it.
* `along_of_invariant` — the other way round: what every step establishes is
  met all along the run.
* `along_iff_forall_take` — a condition that is exact, step by step, is exact for runs.
* `run_simulation`, `run_simulation_along` — a relation between two machines that every call
  keeps relates them after every run.
-/

namespace CosmoRT.Lib

variable {σ α : Type*}

/-- The state after the calls `as`, made one after the other from `s`. -/
def run (next : σ → α → σ) (s : σ) (as : List α) : σ := as.foldl next s

variable (next : σ → α → σ)

@[simp] theorem run_nil (s : σ) : run next s [] = s := rfl

@[simp] theorem run_cons (s : σ) (a : α) (as : List α) :
    run next s (a :: as) = run next (next s a) as := rfl

theorem run_append (s : σ) (as bs : List α) :
    run next s (as ++ bs) = run next (run next s as) bs := List.foldl_append

/-- The condition `ok` is met by the state and the call at every step of the
run of `as` from `s`. -/
def Along (next : σ → α → σ) (ok : σ → α → Prop) : σ → List α → Prop
  | _, [] => True
  | s, a :: as => ok s a ∧ Along next ok (next s a) as

@[simp] theorem along_nil (ok : σ → α → Prop) (s : σ) : Along next ok s [] := trivial

variable {s : σ} {as : List α}

@[simp] theorem along_cons {next : σ → α → σ} {ok : σ → α → Prop} {a : α} :
    Along next ok s (a :: as) ↔ ok s a ∧ Along next ok (next s a) as := Iff.rfl

theorem along_append {next : σ → α → σ} {ok : σ → α → Prop} {bs : List α} :
    Along next ok s (as ++ bs) ↔ Along next ok s as ∧ Along next ok (run next s as) bs := by
  induction as generalizing s with
  | nil => simp
  | cons a as ih => simp [ih, and_assoc]

theorem along_of_forall {next : σ → α → σ} {ok : α → Prop}
    (h : ∀ a ∈ as, ok a) : Along next (fun _ a => ok a) s as := by
  induction as generalizing s with
  | nil => trivial
  | cons a as ih =>
    exact ⟨h a (List.mem_cons_self ..), ih fun b hb => h b (List.mem_cons_of_mem _ hb)⟩

variable {Inv : σ → Prop}

section

variable {next : σ → α → σ}

variable {ok : σ → α → Prop}

/-- **The invariant rule.**  What holds at the start and is kept by every step
that meets the condition holds in every state such a run reaches. -/
theorem run_invariant (hstep : ∀ s a, Inv s → ok s a → Inv (next s a))
    (h0 : Inv s) (hok : Along next ok s as) : Inv (run next s as) := by
  induction as generalizing s with
  | nil => exact h0
  | cons a as ih => exact ih (hstep s a h0 hok.1) hok.2

theorem run_keeps (hstep : ∀ s a, Inv s → Inv (next s a))
    (h0 : Inv s) (as : List α) : Inv (run next s as) := by
  induction as generalizing s with
  | nil => exact h0
  | cons a as ih => exact ih (hstep s a h0)

/-- What every step of an invariant run establishes is met all along the run. -/
theorem along_of_invariant {post : σ → α → Prop} (hstep : ∀ s a, Inv s → ok s a → Inv (next s a))
    (hpost : ∀ s a, Inv s → ok s a → post s a)
    (h0 : Inv s) (hok : Along next ok s as) : Along next post s as := by
  induction as generalizing s with
  | nil => trivial
  | cons a as ih => exact ⟨hpost s a h0 hok.1, ih (hstep s a h0 hok.1) hok.2⟩

/-- When the condition of a step says exactly that the next state is good, it is met all
along a run exactly when every state the run passes through is good. -/
theorem along_iff_forall_take {Good : σ → Prop}
    (hgood : ∀ s, Inv s → Good s) (hstep : ∀ s a, Inv s → ok s a → Inv (next s a))
    (hbad : ∀ s a, Inv s → Good (next s a) → ok s a) (h0 : Inv s) :
    Along next ok s as ↔ ∀ n, Good (run next s (as.take n)) := by
  induction as generalizing s with
  | nil => simpa using hgood s h0
  | cons a as ih =>
    constructor
    · rintro ⟨ha, has⟩ n
      cases n with
      | zero => exact hgood s h0
      | succ n => exact (ih (hstep s a h0 ha)).mp has n
    · intro h
      have ha : ok s a := hbad s a h0 (h 1)
      exact ⟨ha, (ih (hstep s a h0 ha)).mpr fun n => h (n + 1)⟩

end

variable {τ : Type*} {next' : τ → α → τ} {R : σ → τ → Prop} {t : τ}

/-- **Simulation.**  Two machines that answer the same calls stay related over every
run when each call keeps them related. -/
theorem run_simulation {next : σ → α → σ}
    {ok : α → Prop} (hstep : ∀ s t a, R s t → ok a → R (next s a) (next' t a))
    (h0 : R s t) (hok : ∀ a ∈ as, ok a) : R (run next s as) (run next' t as) := by
  induction as generalizing s t with
  | nil => exact h0
  | cons a as ih =>
    exact ih (hstep s t a h0 (hok a (List.mem_cons_self ..)))
      fun b hb => hok b (List.mem_cons_of_mem _ hb)

theorem run_simulation_along {next : σ → α → σ} {ok : σ → α → Prop}
    (hstep : ∀ s t a, R s t → ok s a → R (next s a) (next' t a))
    (h0 : R s t) (hok : Along next ok s as) : R (run next s as) (run next' t as) := by
  induction as generalizing s t with
  | nil => exact h0
  | cons a as ih => exact ih (hstep s t a h0 hok.1) hok.2

end CosmoRT.Lib
