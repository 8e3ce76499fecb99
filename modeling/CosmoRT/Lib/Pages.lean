import Mathlib.Data.List.GetD
import Mathlib.Data.List.Range
import Mathlib.Logic.Function.Basic

/-!
# Values in pages

A sequence of values kept in pages of `P` values each, of which some are present.  The loops that
copy from and to the pages take at each turn what is left of one page.

* `flat` — the value at a position.
* `readPages_eq` — **reading gives the values at the positions**, a default where no page is.
* `flat_writePages` — **writing changes the values at the positions**, where a page is.
-/

namespace CosmoRT.Lib

open List Function

theorem div_mod_of_chunk {pos size k : ℕ} (hk : pos % size + k < size) :
    (pos + k) / size = pos / size ∧ (pos + k) % size = pos % size + k := by
  have hdiv := Nat.div_add_mod pos size
  have heq : pos + k = pos % size + k + size * (pos / size) := by omega
  rw [heq, Nat.add_mul_div_left _ _ (by omega), Nat.add_mul_mod_self_left, Nat.div_eq_of_lt hk,
    Nat.mod_eq_of_lt hk]
  exact ⟨Nat.zero_add _, rfl⟩

variable {α : Type*}

/-- The value at a position. -/
def flat (P : ℕ) (pages : ℕ → ℕ → α) (x : ℕ) : α := pages (x / P) (x % P)

/-- `len` values from `off` on, page by page. -/
def readPages (P : ℕ) (pages : ℕ → ℕ → α) (has : ℕ → Bool) (d : α) : ℕ → ℕ → ℕ → List α
  | 0, _, _ => []
  | turns + 1, off, len =>
    if len = 0 then []
    else
      let chunk := min (P - off % P) len
      (if has (off / P) then (List.range chunk).map fun k => pages (off / P) (off % P + k)
        else List.replicate chunk d) ++
      readPages P pages has d turns (off + chunk) (len - chunk)

/-- The values `src` from `off` on, page by page. -/
def writePages (P : ℕ) (has : ℕ → Bool) (d : α) : ℕ → (ℕ → ℕ → α) → ℕ → List α → ℕ → ℕ → α
  | 0, pages, _, _ => pages
  | turns + 1, pages, off, src =>
    if src = [] then pages
    else
      let chunk := min (P - off % P) src.length
      let pages :=
        if has (off / P) then
          update pages (off / P) fun i =>
            if off % P ≤ i ∧ i < off % P + chunk then src.getD (i - off % P) d
            else pages (off / P) i
        else pages
      writePages P has d turns pages (off + chunk) (src.drop chunk)

section

variable {P : ℕ} {has : ℕ → Bool} {d : α}

theorem readPages_eq (hP : 0 < P) (pages : ℕ → ℕ → α) {turns off len : ℕ} (hturns : len ≤ turns) :
    readPages P pages has d turns off len =
      (range len).map fun k => if has ((off + k) / P) then flat P pages (off + k) else d := by
  induction turns generalizing off len with
  | zero =>
    obtain rfl : len = 0 := by omega
    rfl
  | succ turns ih =>
    rw [readPages]
    by_cases hlen : len = 0
    · simp [hlen]
    rw [if_neg hlen]
    have hmod := Nat.mod_lt off hP
    obtain ⟨chunk, hchunk⟩ : ∃ c, c = min (P - off % P) len := ⟨_, rfl⟩
    simp only [← hchunk]
    -- the chunk lies in one page
    have hhead : (if has (off / P) then (range chunk).map fun k => pages (off / P) (off % P + k)
        else replicate chunk d) =
        (range chunk).map fun k => if has ((off + k) / P) then flat P pages (off + k) else d := by
      have hone : ∀ k ∈ range chunk,
          (if has ((off + k) / P) then flat P pages (off + k) else d) =
            if has (off / P) then pages (off / P) (off % P + k) else d := fun k hk => by
        rw [mem_range] at hk
        obtain ⟨h1, h2⟩ := div_mod_of_chunk (show off % P + k < P by omega)
        rw [flat, h1, h2]
      rw [map_congr_left hone]
      split
      · rfl
      · simp
    obtain ⟨rest, rfl⟩ : ∃ n, len = chunk + n := ⟨len - chunk, by omega⟩
    rw [ih (by omega), Nat.add_sub_cancel_left, range_add, map_append, map_map]
    congr 1
    exact map_congr_left fun k _ => by simp [Nat.add_assoc]

theorem flat_update (pages : ℕ → ℕ → α) {off chunk : ℕ} (src : List α)
    (hchunk : off % P + chunk ≤ P) (x : ℕ) :
    flat P (update pages (off / P) fun i =>
      if off % P ≤ i ∧ i < off % P + chunk then src.getD (i - off % P) d
      else pages (off / P) i) x =
    if off ≤ x ∧ x < off + chunk then src.getD (x - off) d else flat P pages x := by
  have hx := Nat.div_add_mod x P
  have hoff := Nat.div_add_mod off P
  unfold flat
  by_cases hpage : x / P = off / P
  · rw [hpage] at hx ⊢
    rw [update_self]
    by_cases hin : off ≤ x ∧ x < off + chunk
    · rw [if_pos hin, if_pos (by omega), show x % P - off % P = x - off by omega]
    · rw [if_neg hin, if_neg (by omega)]
  · rw [update_of_ne hpage, if_neg]
    rintro ⟨h1, h2⟩
    obtain ⟨k, rfl⟩ : ∃ k, x = off + k := ⟨x - off, by omega⟩
    exact hpage (div_mod_of_chunk (show off % P + k < P by omega)).1

theorem flat_writePages (hP : 0 < P) {turns off : ℕ} {src : List α} (pages : ℕ → ℕ → α)
    (hturns : src.length ≤ turns) (x : ℕ) :
    flat P (writePages P has d turns pages off src) x =
      if off ≤ x ∧ x < off + src.length ∧ has (x / P) then src.getD (x - off) d
      else flat P pages x := by
  induction turns generalizing off src pages with
  | zero =>
    rw [writePages, if_neg]
    omega
  | succ turns ih =>
    rw [writePages]
    by_cases hsrc : src = []
    · rw [if_pos hsrc, if_neg]
      rw [hsrc, length_nil]
      omega
    rw [if_neg hsrc]
    have hmod := Nat.mod_lt off hP
    obtain ⟨chunk, hchunk⟩ : ∃ c, c = min (P - off % P) src.length := ⟨_, rfl⟩
    simp only [← hchunk]
    rw [ih _ (by rw [length_drop]; omega), length_drop]
    -- the page that this turn writes to
    have hhere : off ≤ x → x < off + chunk → has (x / P) = has (off / P) := fun h1 h2 => by
      obtain ⟨k, rfl⟩ : ∃ k, x = off + k := ⟨x - off, by omega⟩
      rw [(div_mod_of_chunk (show off % P + k < P by omega)).1]
    by_cases hnow : off ≤ x ∧ x < off + chunk
    · rw [if_neg (by omega)]
      have hsame := hhere hnow.1 hnow.2
      by_cases hhas : has (off / P)
      · rw [if_pos hhas, flat_update pages src (by omega), if_pos hnow,
          if_pos ⟨hnow.1, by omega, by rw [hsame, hhas]⟩]
      · rw [if_neg hhas, if_neg]
        rw [hsame]
        exact fun h => hhas h.2.2
    · have hother : flat P (if has (off / P) then update pages (off / P) fun i =>
          if off % P ≤ i ∧ i < off % P + chunk then src.getD (i - off % P) d
          else pages (off / P) i else pages) x = flat P pages x := by
        split
        · rw [flat_update pages src (by omega), if_neg hnow]
        · rfl
      rw [hother]
      by_cases hlater : off + chunk ≤ x ∧ x < off + src.length ∧ has (x / P)
      · rw [if_pos ⟨hlater.1, by omega, hlater.2.2⟩, if_pos ⟨by omega, hlater.2.1, hlater.2.2⟩,
          getD_eq_getElem?_getD, getElem?_drop, ← getD_eq_getElem?_getD]
        congr 1
        omega
      · rw [if_neg, if_neg]
        · rintro ⟨h1, h2, h3⟩
          exact hlater ⟨by omega, h2, h3⟩
        · rintro ⟨h1, h2, h3⟩
          exact hlater ⟨h1, by omega, h3⟩

end

end CosmoRT.Lib
