import Mathlib

/-!
# Ledgers of references

Slots that hold at most one reference each, a count per object, and references that
are held outside the slots.  A ledger is right when every count is the number of
slots that hold the object plus the references held elsewhere.
-/

namespace CosmoRT.Lib

open Function

variable {S F : Type*}

/-- The slots that hold an object. -/
def fiber (σ : S → Option F) (f : F) : Set S := {s | σ s = some f}

@[simp] theorem mem_fiber {σ : S → Option F} {f : F} {s : S} : s ∈ fiber σ f ↔ σ s = some f :=
  Iff.rfl

/-- The reference that a slot with content `o` holds on `f`. -/
def one [DecidableEq F] (o : Option F) (f : F) : ℕ := if o = some f then 1 else 0

/-- Every count is the number of slots that hold the object plus the references `x`
held elsewhere. -/
structure Counted (σ : S → Option F) (x rc : F → ℕ) : Prop where
  finite : ∀ f, (fiber σ f).Finite
  count : ∀ f, (fiber σ f).ncard + x f = rc f

theorem counted_of_none {σ : S → Option F} (h : ∀ s, σ s = none) (rc : F → ℕ) :
    Counted σ rc rc := by
  have hempty : ∀ f, fiber σ f = ∅ := fun f => by
    ext s
    simp [h s]
  exact ⟨fun f => by rw [hempty]; exact Set.finite_empty, fun f => by rw [hempty]; simp⟩

section Update

variable [DecidableEq S] [DecidableEq F] {σ : S → Option F} {x x' rc rc' : F → ℕ} {s : S} {f : F}

@[simp] theorem one_none (f : F) : one none f = 0 := rfl

theorem one_some (g f : F) : one (some g) f = if g = f then 1 else 0 := by
  simp [one]

@[simp] theorem one_self (f : F) : one (some f) f = 1 := by
  simp [one]

theorem ncard_fiber_update (hfin : (fiber σ f).Finite) (o : Option F) :
    (fiber (update σ s o) f).Finite ∧
      (fiber (update σ s o) f).ncard + one (σ s) f = (fiber σ f).ncard + one o f := by
  have hbase : fiber (update σ s o) f \ {s} = fiber σ f \ {s} := by
    ext r
    by_cases hr : r = s
    · simp [hr]
    · simp [hr]
  have hcard (τ : S → Option F) (hτ : (fiber τ f).Finite) :
      (fiber τ f).ncard = (fiber τ f \ {s}).ncard + one (τ s) f := by
    by_cases hs : τ s = some f
    · have hmem : s ∈ fiber τ f := hs
      rw [one, if_pos hs, Set.ncard_sdiff_singleton_add_one hmem hτ]
    · have hmem : s ∉ fiber τ f := hs
      rw [one, if_neg hs, Set.sdiff_singleton_eq_self hmem, Nat.add_zero]
  have hfin' : (fiber (update σ s o) f).Finite := by
    have hsub : fiber (update σ s o) f ⊆ insert s (fiber σ f \ {s}) := by
      intro r hr
      by_cases hrs : r = s
      · exact Set.mem_insert_iff.2 (Or.inl hrs)
      · exact Set.mem_insert_of_mem _ (hbase ▸ ⟨hr, hrs⟩)
    exact (hfin.sdiff.insert s).subset hsub
  refine ⟨hfin', ?_⟩
  have hnew := hcard _ hfin'
  rw [hbase, update_self] at hnew
  have hold := hcard σ hfin
  omega

section

variable (h : Counted σ x rc)
include h

/-- Setting one slot, where the references held elsewhere make up for it. -/
theorem Counted.set (s : S) (o : Option F)
    (hx : ∀ f, x f + one (σ s) f = x' f + one o f) : Counted (update σ s o) x' rc where
  finite f := (ncard_fiber_update (h.finite f) o).1
  count f := by
    have hcard := (@ncard_fiber_update _ _ _ _ σ s f (h.finite f) o).2
    have hcount := h.count f
    have hbal := hx f
    omega

omit [DecidableEq S] [DecidableEq F]

/-- Changing counts and the references held elsewhere by the same amounts. -/
theorem Counted.recount (hx : ∀ f, x f + rc' f = x' f + rc f) : Counted σ x' rc' where
  finite := h.finite
  count f := by
    have hcount := h.count f
    have hbal := hx f
    omega

theorem Counted.congr {σ' : S → Option F} (hσ : ∀ s, σ' s = σ s)
    (hx : ∀ f, x' f = x f) : Counted σ' x' rc := by
  obtain rfl : σ' = σ := funext hσ
  obtain rfl : x' = x := funext hx
  exact h

theorem Counted.pos (hs : σ s = some f) : 0 < rc f := by
  have hcount := h.count f
  have hcard : 0 < (fiber σ f).ncard := (Set.ncard_pos (h.finite f)).2 ⟨s, hs⟩
  omega

end

end Update

/-! ## Lists of slots -/

section Lists

variable [DecidableEq S] [DecidableEq F] {σ τ : S → Option F} {x rc : F → ℕ}

/-- The references that the contents `τ` of a list of slots make on an object. -/
def heldBy (τ : S → Option F) (ss : List S) (f : F) : ℕ := (ss.map fun s => one (τ s) f).sum

omit [DecidableEq S] in
@[simp] theorem heldBy_nil (τ : S → Option F) (f : F) : heldBy τ [] f = 0 := rfl

omit [DecidableEq S] in
@[simp] theorem heldBy_cons (τ : S → Option F) (s : S) (ss : List S) (f : F) :
    heldBy τ (s :: ss) f = one (τ s) f + heldBy τ ss f := by
  simp [heldBy]

/-- The slots with those of a list holding `τ`. -/
def overlay (σ τ : S → Option F) (ss : List S) (s : S) : Option F := if s ∈ ss then τ s else σ s

omit [DecidableEq F] in
theorem overlay_cons (σ τ : S → Option F) (r : S) (ss : List S) :
    overlay σ τ (r :: ss) = update (overlay σ τ ss) r (τ r) := by
  funext s
  by_cases hs : s = r
  · simp [overlay, hs]
  · simp [overlay, hs]

/-- Slots emptied one after the other leave exactly the references they held. -/
theorem Counted.evict (h : Counted σ x rc) {ss : List S} (hnd : ss.Nodup) :
    Counted (overlay σ (fun _ => none) ss) (fun f => x f + heldBy σ ss f) rc := by
  induction ss with
  | nil => exact h.congr (fun s => by simp [overlay]) (fun f => by simp)
  | cons r ss ih =>
    obtain ⟨hr, hnd⟩ := List.nodup_cons.1 hnd
    rw [overlay_cons]
    refine (ih hnd).set r none fun f => ?_
    rw [overlay, if_neg hr, heldBy_cons, one_none]
    omega

/-- Empty slots filled one after the other take over the references made for them. -/
theorem Counted.install {ss : List S} (h : Counted σ (fun f => x f + heldBy τ ss f) rc)
    (hnd : ss.Nodup) (hempty : ∀ s ∈ ss, σ s = none) : Counted (overlay σ τ ss) x rc := by
  induction ss generalizing x with
  | nil => exact h.congr (fun s => by simp [overlay]) (fun f => by simp)
  | cons r ss ih =>
    obtain ⟨hr, hnd⟩ := List.nodup_cons.1 hnd
    have hrest : Counted (overlay σ τ ss) (fun f => x f + one (τ r) f) rc := by
      refine ih (h.congr (fun _ => rfl) fun f => ?_) hnd fun s hs =>
        hempty s (List.mem_cons_of_mem _ hs)
      rw [heldBy_cons]
      omega
    rw [overlay_cons]
    refine hrest.set r (τ r) fun f => ?_
    rw [overlay, if_neg hr, hempty r (List.mem_cons_self ..), one_none, Nat.add_zero]

end Lists

end CosmoRT.Lib
