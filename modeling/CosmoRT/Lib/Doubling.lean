import Mathlib.Tactic.Ring

/-!
# Doubling a capacity

The loop `while (n < need) n *= 2` that growing tables size themselves with.
-/

namespace CosmoRT.Lib

/-- `while (n < need) n *= 2`, at most `fuel` rounds. -/
def doubleUntil (need : ℕ) : ℕ → ℕ → ℕ
  | 0, n => n
  | fuel + 1, n => if n < need then doubleUntil need fuel (n * 2) else n

theorem doubleUntil_bounds (need fuel n : ℕ) :
    n ≤ doubleUntil need fuel n ∧
      (doubleUntil need fuel n = n ∨ doubleUntil need fuel n < 2 * need) := by
  induction fuel generalizing n with
  | zero => simp [doubleUntil]
  | succ fuel ih =>
    rw [doubleUntil]
    split
    case isTrue hlt =>
      obtain ⟨hle, hor⟩ := ih (n * 2)
      exact ⟨by omega, Or.inr (by omega)⟩
    case isFalse hge => simp

theorem min_le_doubleUntil (need fuel n : ℕ) :
    min need (n * 2 ^ fuel) ≤ doubleUntil need fuel n := by
  induction fuel generalizing n with
  | zero => simp [doubleUntil]
  | succ fuel ih =>
    rw [doubleUntil]
    split
    case isTrue hlt =>
      have hih := ih (n * 2)
      rwa [mul_assoc, ← pow_succ'] at hih
    case isFalse hge => omega

theorem le_doubleUntil {need fuel n : ℕ} (h : need ≤ n * 2 ^ fuel) :
    need ≤ doubleUntil need fuel n := by
  have hmin := min_le_doubleUntil need fuel n
  rwa [min_eq_left h] at hmin

end CosmoRT.Lib
