import Mathlib.Data.List.Basic
import Mathlib.Data.Nat.ModEq

/-!
# The window of a ring buffer

A ring buffer is a list of cells read in a circle.  Its content is a *window*:
the `n` cells from position `pos` on, wrapping at the end of the list.  The
laws below are all a user of a ring needs: a cell is appended by storing
just behind the window (`window_push`), removed by moving the position on
(`window_pop`), a store outside the window is not seen (`window_set`), and a
list laid out from the first cell on is its own window (`window_rebase`).  Whole
blocks are appended by `window_storeAll` and removed by `window_add`.
-/

namespace CosmoRT.Lib

open List Function

variable {α : Type*} [Inhabited α]

section

variable (buf : List α)

/-- The `n` cells from `pos` on, read in a circle. -/
def window (pos n : ℕ) : List α :=
  (List.range n).map fun i => buf.getD ((pos + i) % buf.length) default

@[simp] theorem length_window (pos n : ℕ) : (window buf pos n).length = n := by
  simp [window]

@[simp] theorem window_zero (pos : ℕ) : window buf pos 0 = [] := rfl

theorem mod_ne_of_lt (pos : ℕ) {i n len : ℕ} (hi : i < n) (hn : n < len) :
    (pos + n) % len ≠ (pos + i) % len := by
  intro h
  have hmod : n ≡ i [MOD len] := Nat.ModEq.add_left_cancel' pos h
  have heq : n = i := hmod.eq_of_lt_of_lt hn (by omega)
  omega

theorem window_set {buf : List α} {pos n : ℕ} (hn : n < buf.length) (b : α) :
    window (buf.set ((pos + n) % buf.length) b) pos n = window buf pos n := by
  simp only [window, length_set]
  refine map_congr_left fun i hi => ?_
  have hne := mod_ne_of_lt pos (mem_range.1 hi) hn
  simp only [getD_eq_getElem?_getD]
  rw [getElem?_set_ne hne]

/-- **Appending**: a store just behind the window lengthens it by that cell. -/
theorem window_push {buf : List α} {pos n : ℕ} (hn : n < buf.length) (b : α) :
    window (buf.set ((pos + n) % buf.length) b) pos (n + 1) = window buf pos n ++ [b] := by
  have hlast : window (buf.set ((pos + n) % buf.length) b) pos (n + 1)
      = window (buf.set ((pos + n) % buf.length) b) pos n
        ++ [(buf.set ((pos + n) % buf.length) b).getD ((pos + n) % buf.length) default] := by
    simp [window, range_succ]
  have hlt : (pos + n) % buf.length < buf.length := Nat.mod_lt _ (by omega)
  rw [hlast, window_set hn]
  simp [getD_eq_getElem?_getD, hlt]

/-- **Removing**: the first cell of a window, and the window behind it. -/
theorem window_pop (pos n : ℕ) :
    window buf pos (n + 1)
      = buf.getD (pos % buf.length) default :: window buf ((pos + 1) % buf.length) n := by
  simp only [window, range_succ_eq_map, map_cons, map_map, Nat.add_zero]
  congr 1
  refine map_congr_left fun i _ => ?_
  simp only [comp, Nat.mod_add_mod]
  congr 2
  omega

/-- **Rebasing**: a list laid out from the first cell on is its own window. -/
theorem window_rebase (l tail : List α) : window (l ++ tail) 0 l.length = l := by
  refine ext_getElem (by simp) fun i hi hi' => ?_
  have hmod : i % (l.length + tail.length) = i := Nat.mod_eq_of_lt (by omega)
  simp [window, getD_eq_getElem?_getD, hmod, getElem?_append_left hi', hi']

/-! ## Blocks -/

theorem window_add (pos n k : ℕ) :
    window buf pos (n + k) = window buf pos n ++ window buf ((pos + n) % buf.length) k := by
  simp only [window, range_add, map_append, map_map]
  refine congrArg _ (map_congr_left fun i _ => ?_)
  simp only [comp, Nat.mod_add_mod, Nat.add_assoc]

end

/-- Bytes stored one behind the other from `pos` on, in a circle. -/
def storeAll : List α → ℕ → List α → List α
  | [], _, buf => buf
  | b :: bs, pos, buf => storeAll bs ((pos + 1) % buf.length) (buf.set pos b)

omit [Inhabited α] in
@[simp] theorem length_storeAll (bs : List α) (pos : ℕ) (buf : List α) :
    (storeAll bs pos buf).length = buf.length := by
  induction bs generalizing pos buf with
  | nil => rfl
  | cons b bs ih => rw [storeAll, ih, length_set]

/-- **Appending a block** that fits. -/
theorem window_storeAll (bs : List α) {buf : List α} {pos n : ℕ}
    (hfit : n + bs.length ≤ buf.length) :
    window (storeAll bs ((pos + n) % buf.length) buf) pos (n + bs.length)
      = window buf pos n ++ bs := by
  induction bs generalizing buf n with
  | nil => simp [storeAll]
  | cons b bs ih =>
    rw [length_cons] at hfit
    have hnext : ((pos + n) % buf.length + 1) % buf.length = (pos + (n + 1)) % buf.length := by
      rw [Nat.mod_add_mod, Nat.add_assoc]
    have hlen : (buf.set ((pos + n) % buf.length) b).length = buf.length := length_set
    have hsize : n + (bs.length + 1) = n + 1 + bs.length := by omega
    have hrest := @ih (buf.set ((pos + n) % buf.length) b) (n + 1) (by omega)
    rw [hlen, window_push (by omega)] at hrest
    rw [storeAll, hnext, length_cons, hsize, hrest, append_assoc, singleton_append]

end CosmoRT.Lib
