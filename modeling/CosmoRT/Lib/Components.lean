import Mathlib

/-!
# Texts with a separator, and removing the component before

A text in which every component stands behind a separator, and a list of components in which
one component, `up`, takes away the one before it.  The components that are left are a stack,
last first.
-/

namespace CosmoRT.Lib

open List

/-! ## Texts -/

section Text

variable {α : Type*} {sep : α}

/-- Every component behind a separator. -/
def joined (sep : α) (cs : List (List α)) : List α := cs.flatMap (sep :: ·)

@[simp] theorem joined_nil : joined sep [] = [] := rfl

@[simp] theorem joined_cons (c : List α) (cs : List (List α)) :
    joined sep (c :: cs) = sep :: (c ++ joined sep cs) := by
  simp [joined]

@[simp] theorem joined_append (cs ds : List (List α)) :
    joined sep (cs ++ ds) = joined sep cs ++ joined sep ds := by
  simp [joined]

variable {cs ds : List (List α)}

theorem length_joined_le_of_sublist (h : cs <+ ds) :
    (joined sep cs).length ≤ (joined sep ds).length := by
  induction h with
  | slnil => simp
  | cons c _ ih | cons_cons c _ ih => simp only [joined_cons, length_cons, length_append]; omega

theorem joined_eq_intercalate (hne : cs ≠ []) : joined sep cs = sep :: [sep].intercalate cs := by
  induction cs with
  | nil => exact absurd rfl hne
  | cons c cs ih =>
    cases cs with
    | nil => simp
    | cons d cs => rw [joined_cons, ih (by simp)]; simp

variable [DecidableEq α]

theorem joined_splitOn (t : List α) : joined sep (t.splitOn sep) = sep :: t := by
  rw [joined_eq_intercalate (splitOn_ne_nil sep t), intercalate_splitOn]

theorem splitOn_sep_cons (t : List α) : (sep :: t).splitOn sep = [] :: t.splitOn sep := by
  simp [splitOn_cons_eq_if_modifyHead]

theorem splitOn_joined (hne : cs ≠ []) (hsep : ∀ c ∈ cs, sep ∉ c) :
    (joined sep cs).splitOn sep = [] :: cs := by
  rw [joined_eq_intercalate hne, splitOn_sep_cons, splitOn_intercalate sep hsep hne]

theorem sep_notMem_of_mem_splitOn {t : List α} : ∀ c ∈ t.splitOn sep, sep ∉ c := by
  induction t with
  | nil => simp [splitOn]
  | cons x t ih =>
    intro c hc
    rw [splitOn_cons_eq_if_modifyHead] at hc
    split at hc
    · rcases mem_cons.1 hc with rfl | hc
      · simp
      · exact ih c hc
    · rename_i hx
      obtain ⟨d, ds, hd⟩ := exists_cons_of_ne_nil (splitOn_ne_nil sep t)
      rw [hd] at hc
      rcases mem_cons.1 hc with rfl | hc
      · have hsep := ih d (by simp [hd])
        have hne : sep ≠ x := by rintro rfl; simp at hx
        simp [hne, hsep]
      · exact ih c (by simp [hd, hc])

theorem joined_injective (hc : ∀ c ∈ cs, sep ∉ c)
    (hd : ∀ c ∈ ds, sep ∉ c) (h : joined sep cs = joined sep ds) : cs = ds := by
  cases cs with
  | nil =>
    cases ds with
    | nil => rfl
    | cons d ds => simp at h
  | cons c cs =>
    cases ds with
    | nil => simp at h
    | cons d ds =>
      have := splitOn_joined (cons_ne_nil c cs) hc
      rw [h, splitOn_joined (cons_ne_nil d ds) hd] at this
      exact (cons_injective this).symm

end Text

/-! ## The components that are left -/

section Left

variable {β : Type*} [DecidableEq β] {up : β}

/-- One component: `up` takes away the one before. -/
def climb (up : β) (st : List β) (c : β) : List β := if c = up then st.tail else c :: st

theorem climb_of_ne {c : β} (h : c ≠ up) (st : List β) : climb up st c = c :: st := by
  simp [climb, h]

theorem foldl_climb_sublist (up : β) (cs : List β) (st : List β) :
    cs.foldl (climb up) st <+ cs.reverse ++ st := by
  induction cs generalizing st with
  | nil => simp
  | cons c cs ih =>
    refine (ih _).trans ?_
    rw [reverse_cons, append_assoc]
    refine List.Sublist.append (List.Sublist.refl _) ?_
    unfold climb
    split
    · exact (tail_sublist st).trans (by simp)
    · simp

theorem up_notMem_foldl_climb (cs : List β) {st : List β} (h : up ∉ st) :
    up ∉ cs.foldl (climb up) st := by
  induction cs generalizing st with
  | nil => exact h
  | cons c cs ih =>
    refine ih ?_
    unfold climb
    split
    · exact fun hm => h (mem_of_mem_tail hm)
    · rename_i hc
      simp [h, Ne.symm hc]

theorem foldl_climb_of_notMem {cs : List β} (h : up ∉ cs) (st : List β) :
    cs.foldl (climb up) st = cs.reverse ++ st := by
  induction cs generalizing st with
  | nil => simp
  | cons c cs ih =>
    rw [mem_cons, not_or] at h
    rw [foldl_cons, ih h.2, climb_of_ne (Ne.symm h.1)]
    simp

end Left

end CosmoRT.Lib
