import CosmoRT.Lib.LinkedList

/-!
# Circular lists in memory

Doubly linked circular lists, one for each bucket of a table, with a pointer to the first element;
an element that is in no list has a null link.

* `Circle` — the links lead once around the elements of a list; `circle_append_comm` says that it
  does not matter where one begins.
* `Holds` — the buckets hold the lists `f`.
* `Holds.remove`, `Holds.pushBack`, `Holds.pushFront` — **the operations, which change at most six
  pointers, on the lists.**
-/

namespace CosmoRT.Lib

open Function List

/-- The first element of every list and the links of every element. -/
structure Rings (ι : Type*) where
  head : ℕ → Option ι
  next : ι → Option ι
  prev : ι → Option ι

namespace Rings

variable {ι : Type*}

/-- `b` comes after `a`. -/
def Linked (c : Rings ι) (a b : ι) : Prop := c.next a = some b ∧ c.prev b = some a

/-- The links lead from `x` through a list to `z`. -/
def Leads (c : Rings ι) : ι → List ι → ι → Prop
  | x, [], z => c.Linked x z
  | x, y :: ys, z => c.Linked x y ∧ Leads c y ys z

/-- The links lead once around a list. -/
def Circle (c : Rings ι) : List ι → Prop
  | [] => True
  | x :: xs => c.Leads x xs x

variable {x y : ι} {ys : List ι}

variable {c : Rings ι} {z e l : ι}

theorem leads_append {zs : List ι} :
    c.Leads x (ys ++ y :: zs) z ↔ c.Leads x ys y ∧ c.Leads y zs z := by
  induction ys generalizing x with
  | nil => rfl
  | cons a ys ih => simp only [cons_append, Leads, ih, and_assoc]

variable {c' : Rings ι}

theorem Leads.congr (h : c.Leads x ys z)
    (hnext : ∀ a ∈ x :: ys, c'.next a = c.next a) (hprev : ∀ b ∈ ys ++ [z], c'.prev b = c.prev b) :
    c'.Leads x ys z := by
  induction ys generalizing x with
  | nil => exact ⟨(hnext x (by simp)).trans h.1, (hprev z (by simp)).trans h.2⟩
  | cons y ys ih =>
    rw [forall_mem_cons] at hnext
    rw [cons_append, forall_mem_cons] at hprev
    exact ⟨⟨hnext.1.trans h.1.1, hprev.1.trans h.1.2⟩, ih h.2 hnext.2 hprev.2⟩

/-- A stretch stays when only the links behind its end, before its beginning and of a stranger
change. -/
theorem Leads.keep (h : c.Leads x ys l) (he : e ∉ x :: (ys ++ [l]))
    (hnodup : (x :: (ys ++ [l])).Nodup) (hnext : ∀ a, a ≠ e → a ≠ l → c'.next a = c.next a)
    (hprev : ∀ b, b ≠ e → b ≠ x → c'.prev b = c.prev b) : c'.Leads x ys l := by
  have hlast : l ∉ x :: ys := fun hl => (nodup_append.1 hnodup).2.2 l hl l (by simp) rfl
  refine h.congr (fun a ha => hnext a ?_ ?_) fun b hb => hprev b ?_ ?_
  · rintro rfl
    exact he (mem_append_left _ ha)
  · rintro rfl
    exact hlast ha
  · rintro rfl
    exact he (mem_cons_of_mem _ hb)
  · rintro rfl
    exact (nodup_cons.1 hnodup).1 hb

/-- A circle has no beginning. -/
theorem circle_append_comm (as bs : List ι) : c.Circle (as ++ bs) ↔ c.Circle (bs ++ as) := by
  cases as with
  | nil => simp
  | cons a as =>
    cases bs with
    | nil => simp
    | cons b bs => exact leads_append.trans (and_comm.trans leads_append.symm)

variable {xs : List ι}

theorem Circle.congr (h : c.Circle xs)
    (hnext : ∀ a ∈ xs, c'.next a = c.next a) (hprev : ∀ a ∈ xs, c'.prev a = c.prev a) :
    c'.Circle xs := by
  cases xs with
  | nil => trivial
  | cons x xs =>
    refine Leads.congr h hnext fun b hb => hprev b ?_
    simpa [or_comm] using hb

theorem Circle.next_eq (h : c.Circle (x :: xs)) : c.next x = some (xs.headD x) := by
  cases xs with
  | nil => exact h.1
  | cons y xs => exact h.1.1

theorem Circle.prev_eq (h : c.Circle (x :: xs)) : c.prev x = some (xs.getLastD x) := by
  rcases eq_nil_or_concat xs with rfl | ⟨ys, l, rfl⟩
  · exact h.2
  · rw [concat_eq_append] at h ⊢
    rw [getLastD_concat]
    exact (leads_append.1 h).2.2

variable [DecidableEq ι]

/-- Take an element out of a list. -/
def remove (c : Rings ι) (h : ℕ) (e : ι) : Rings ι :=
  match c.next e with
  | none => c
  | some n =>
    let c :=
      if n = e then { c with head := update c.head h none }
      else
        let c := match c.prev e with
          | some p => { c with next := update c.next p (some n) }
          | none => c
        let c := { c with prev := update c.prev n (c.prev e) }
        if c.head h = some e then { c with head := update c.head h (some n) } else c
    { c with next := update c.next e none, prev := update c.prev e none }

/-- Put an element behind the last one. -/
def pushBack (c : Rings ι) (h : ℕ) (e : ι) : Rings ι :=
  match c.head h with
  | none =>
    { head := update c.head h (some e)
      next := update c.next e (some e)
      prev := update c.prev e (some e) }
  | some x =>
    let tail := c.prev x
    let c := { c with
      prev := update c.prev e tail, next := update c.next e (some x) }
    let c := match tail with
      | some l => { c with next := update c.next l (some e) }
      | none => c
    { c with prev := update c.prev x (some e) }

/-- Put an element before the first one. -/
def pushFront (c : Rings ι) (h : ℕ) (e : ι) : Rings ι :=
  let c := c.pushBack h e
  { c with head := update c.head h (some e) }

/-- The buckets hold the lists `f`. -/
structure Holds (c : Rings ι) (f : ℕ → List ι) : Prop where
  head : ∀ h, c.head h = (f h).head?
  circle : ∀ h, c.Circle (f h)
  nodup : ∀ h, (f h).Nodup
  apart : ∀ h k x, x ∈ f h → x ∈ f k → h = k
  loose : ∀ x, (∀ h, x ∉ f h) → c.next x = none

theorem Circle.remove (h : c.Circle (e :: y :: ys)) (hnodup : (e :: y :: ys).Nodup)
    (hnext : c'.next = update (update c.next (ys.getLastD y) (some y)) e none)
    (hprev : c'.prev = update (update c.prev y (some (ys.getLastD y))) e none) :
    c'.Circle (y :: ys) := by
  obtain ⟨he, hnodup⟩ := nodup_cons.1 hnodup
  have hye : y ≠ e := by rintro rfl; exact he (by simp)
  rcases eq_nil_or_concat ys with rfl | ⟨zs, l, rfl⟩
  · constructor
    · simp [hnext, hye]
    · simp [hprev, hye]
  · rw [concat_eq_append] at *
    have hle : l ≠ e := by rintro rfl; exact he (by simp)
    refine leads_append.2 ⟨(leads_append.1 h.2).1.keep he hnodup (fun a hae hal => ?_)
      (fun b hbe hby => ?_), ?_, ?_⟩
    · simp [hnext, hae, hal]
    · simp [hprev, hbe, hby]
    · simp [hnext, hle]
    · simp [hprev, hye]

/-- Around a longer circle, three links are changed. -/
theorem remove_eq (h : ℕ) (hc : c.Circle (e :: y :: ys)) (hye : y ≠ e) :
    c.remove h e =
      { head := if c.head h = some e then update c.head h (some y) else c.head
        next := update (update c.next (ys.getLastD y) (some y)) e none
        prev := update (update c.prev y (some (ys.getLastD y))) e none } := by
  have hnext : c.next e = some y := hc.next_eq
  have hprev : c.prev e = some (ys.getLastD y) := by
    rw [hc.prev_eq, getLastD_cons]
  rw [Rings.remove, hnext]
  simp only [if_neg hye, hprev]
  split_ifs <;> rfl

theorem pushBack_eq {h : ℕ} (hhead : c.head h = some x) (hprev : c.prev x = some l) :
    c.pushBack h e =
      { head := c.head
        next := update (update c.next e (some x)) l (some e)
        prev := update (update c.prev e (some l)) x (some e) } := by
  rw [Rings.pushBack, hhead]
  simp only [hprev]

theorem Circle.insert (h : c.Circle (x :: xs)) (he : e ∉ x :: xs) (hnodup : (x :: xs).Nodup)
    (hnext : c'.next = update (update c.next e (some x)) (xs.getLastD x) (some e))
    (hprev : c'.prev = update (update c.prev e (some (xs.getLastD x))) x
      (some e)) : c'.Circle (x :: (xs ++ [e])) := by
  have hxe : x ≠ e := by rintro rfl; exact he (by simp)
  refine leads_append.2 ⟨?_, ?_⟩
  · rcases eq_nil_or_concat xs with rfl | ⟨zs, l, rfl⟩
    · rw [getLastD_nil] at hnext hprev
      constructor
      · simp [hnext]
      · simp [hprev, Ne.symm hxe]
    · rw [concat_eq_append] at *
      refine leads_append.2 ⟨(leads_append.1 h).1.keep he hnodup (fun a hae hal => ?_)
        (fun b hbe hbx => ?_), ?_, ?_⟩
      · simp [hnext, hae, hal]
      · simp [hprev, hbe, hbx]
      · simp [hnext]
      · simp [hprev, Ne.symm hxe]
  · constructor
    · have hel : e ≠ xs.getLastD x := by
        rintro rfl
        exact he getLastD_mem_cons
      rw [hnext, update_of_ne hel, update_self]
    · rw [hprev, update_self]

namespace Holds

variable {c : Rings ι} {f : ℕ → List ι} {e : ι} {h : ℕ}

variable {as : List ι}

section

omit [DecidableEq ι]

theorem next_eq (hc : c.Holds f) {bs : List ι} {y : ι} (hf : f h = as ++ e :: y :: bs) :
    c.next e = some y ∧ c.next e ≠ c.head h := by
  have hcircle : c.Circle (e :: (y :: bs ++ as)) :=
    (circle_append_comm as (e :: y :: bs)).1 (hf ▸ hc.circle h)
  have hnodup : (as ++ e :: y :: bs).Nodup := hf ▸ hc.nodup h
  have hnext : c.next e = some y := hcircle.next_eq
  refine ⟨hnext, fun heq => ?_⟩
  rw [hnext, hc.head h, hf] at heq
  cases as with
  | nil =>
    obtain rfl : y = e := Option.some.inj heq
    simp at hnodup
  | cons a as =>
    obtain rfl : y = a := Option.some.inj heq
    simp at hnodup

theorem next_last (hc : c.Holds f) (hf : f h = as ++ [e]) : c.next e = c.head h := by
  have hcircle : c.Circle (e :: ([] ++ as)) :=
    (circle_append_comm as [e]).1 (hf ▸ hc.circle h)
  rw [hcircle.next_eq, hc.head h, hf]
  cases as <;> rfl

theorem next_ne_none (hc : c.Holds f) (he : e ∈ f h) : c.next e ≠ none := by
  obtain ⟨as, bs, hf⟩ := append_of_mem he
  cases bs with
  | nil =>
    rw [hc.next_last hf, hc.head h, hf]
    cases as <;> simp
  | cons y bs =>
    rw [(hc.next_eq hf).1]
    simp

end

section

variable (hc : c.Holds f)
include hc

/-- The links of an element that is in no list do not matter. -/
theorem forget (he : ∀ k, e ∉ f k) :
    Holds { c with
      next := update c.next e none, prev := update c.prev e none } f := by
  have hne : ∀ k, ∀ x ∈ f k, x ≠ e := by
    rintro k x hx rfl
    exact he k hx
  refine ⟨hc.head, fun k => (hc.circle k).congr ?_ ?_, hc.nodup, hc.apart, fun x hx => ?_⟩
  · exact fun x hx => update_of_ne (hne k x hx) ..
  · exact fun x hx => update_of_ne (hne k x hx) ..
  · by_cases hxe : x = e
    · simp [hxe]
    · simp only [update_of_ne hxe]
      exact hc.loose x hx

theorem remove_of_notMem (he : ∀ k, e ∉ f k) : c.remove h e = c := by
  rw [Rings.remove, hc.loose e he]

/-- A change that concerns one list and the element `e` only. -/
theorem change {c' : Rings ι} {l : List ι} (he : ∀ k ≠ h, e ∉ f k)
    (hhead : c'.head = update c.head h l.head?) (hcircle : c'.Circle l) (hnodup : l.Nodup)
    (hmem : ∀ x ∈ l, x = e ∨ x ∈ f h)
    (hsame : ∀ x, x ≠ e → x ∉ f h → c'.next x = c.next x ∧ c'.prev x = c.prev x)
    (hloose : ∀ x, x = e ∨ x ∈ f h → x ∉ l → c'.next x = none) : c'.Holds (update f h l) := by
  have hother : ∀ k ≠ h, ∀ x ∈ f k, x ≠ e ∧ x ∉ f h := fun k hk x hx =>
    ⟨by rintro rfl; exact he k hk hx, fun hx' => hk (hc.apart k h x hx hx')⟩
  refine ⟨fun k => ?_, ?_, (forall_update_iff f fun _ => Nodup).2 ⟨hnodup, fun k _ => hc.nodup k⟩,
    Chains.apart_update hc.apart fun k hk x hx hxl =>
      (hmem x hxl).elim (hother k hk x hx).1 (hother k hk x hx).2, fun x hx => ?_⟩
  · by_cases hk : k = h
    · subst hk
      simp [hhead]
    · simp [hhead, hk, hc.head k]
  · exact (forall_update_iff f fun _ => c'.Circle).2 ⟨hcircle, fun k hk => (hc.circle k).congr
      (fun x hx => (hsame x (hother k hk x hx).1 (hother k hk x hx).2).1)
      (fun x hx => (hsame x (hother k hk x hx).1 (hother k hk x hx).2).2)⟩
  · have hxl : x ∉ l := by simpa using hx h
    by_cases hx' : x = e ∨ x ∈ f h
    · exact hloose x hx' hxl
    · rw [not_or] at hx'
      rw [(hsame x hx'.1 hx'.2).1]
      refine hc.loose x fun k => ?_
      by_cases hk : k = h
      · exact hk ▸ hx'.2
      · simpa [hk] using hx k

theorem remove {bs : List ι} (hf : f h = as ++ e :: bs) :
    (c.remove h e).Holds (update f h (as ++ bs)) := by
  have hnodup : (as ++ e :: bs).Nodup := hf ▸ hc.nodup h
  have hrot : (e :: (bs ++ as)).Nodup := perm_append_comm.nodup_iff.1 hnodup
  have hcircle : c.Circle (e :: (bs ++ as)) :=
    (circle_append_comm as (e :: bs)).1 (hf ▸ hc.circle h)
  have he : ∀ k ≠ h, e ∉ f k := fun k hk hx => hk (hc.apart k h e hx (by simp [hf]))
  have hmem : ∀ x ∈ as ++ bs, x = e ∨ x ∈ f h := fun x hx =>
    .inr (hf ▸ ((mem_take_out hnodup).1 hx).1)
  have hnodup' : (as ++ bs).Nodup :=
    hnodup.sublist ((sublist_cons_self e bs).append_left as)
  have honly : ∀ x, x = e ∨ x ∈ f h → x ∉ as ++ bs → x = e := fun x hx hnot =>
    by_contra fun hne => hnot ((mem_take_out hnodup).2 ⟨hf ▸ hx.resolve_left hne, hne⟩)
  have hhead := hc.head h
  rw [hf] at hhead
  cases hrest : bs ++ as with
  | nil =>
    obtain ⟨rfl, rfl⟩ := append_eq_nil_iff.1 hrest
    have hnext : c.next e = some e := hcircle.1
    have heq : c.remove h e =
        { head := update c.head h none
          next := update c.next e none
          prev := update c.prev e none } := by
      rw [Rings.remove, hnext]
      simp
    rw [heq]
    refine hc.change he rfl trivial nodup_nil (by simp) (fun x hx _ => ?_) fun x hx hnot => ?_
    · simp [hx]
    · rw [honly x hx hnot]
      simp
  | cons y ys =>
    rw [hrest] at hcircle hrot
    have hye : y ≠ e := by
      rintro rfl
      exact (nodup_cons.1 hrot).1 (by simp)
    have hin : ∀ x ∈ y :: ys, x ∈ f h := fun x hx => by
      rw [← hrest, perm_append_comm.mem_iff, mem_take_out hnodup] at hx
      exact hf ▸ hx.1
    have hlast : ys.getLastD y ∈ f h := hin _ (getLastD_mem_cons)
    rw [remove_eq h hcircle hye]
    refine hc.change he ?_ ?_ hnodup' hmem (fun x hx hnot => ?_) fun x hx hnot => ?_
    · cases as with
      | nil =>
        obtain rfl : bs = y :: ys := by simpa using hrest
        simp [hhead]
      | cons a as =>
        have hae : a ≠ e := by
          rintro rfl
          simp at hnodup
        have heq : c.head h = some a := hhead
        simp [heq, hae]
    · refine (circle_append_comm as bs).2 ?_
      rw [hrest]
      exact hcircle.remove hrot rfl rfl
    · have hxl : x ≠ ys.getLastD y := by rintro rfl; exact hnot hlast
      have hxy : x ≠ y := by rintro rfl; exact hnot (hin x (by simp))
      simp only [update_of_ne hx, update_of_ne hxl, update_of_ne hxy, and_self]
    · rw [honly x hx hnot]
      simp

theorem pushBack (he : ∀ k, e ∉ f k) : (c.pushBack h e).Holds (update f h (f h ++ [e])) := by
  have hnodup : (f h ++ [e]).Nodup := perm_append_comm.nodup_iff.1
    (nodup_cons.2 ⟨he h, hc.nodup h⟩ : ([e] ++ f h).Nodup)
  have hhead := hc.head h
  have hcircle := hc.circle h
  cases hf : f h with
  | nil =>
    rw [hf] at hhead
    rw [Rings.pushBack, hhead]
    refine hc.change (fun k _ => he k) rfl ⟨?_, ?_⟩ (by simp) (by simp) (fun x hx _ => ?_) ?_
    · simp
    · simp
    · simp [hx]
    · simp [hf]
  | cons x xs =>
    rw [hf] at hhead hcircle hnodup
    rw [pushBack_eq hhead hcircle.prev_eq]
    have hx : x ∈ f h := by simp [hf]
    have hlast : xs.getLastD x ∈ f h := by
      rw [hf]
      exact getLastD_mem_cons
    refine hc.change (fun k _ => he k) ?_ ?_ hnodup ?_ (fun z hz hnot => ?_) fun z hz hnot => ?_
    · have hsame : (x :: xs ++ [e]).head? = c.head h := hhead.symm
      rw [hsame, update_eq_self]
    · exact hcircle.insert (by simpa [hf] using he h) (hf ▸ hc.nodup h) rfl rfl
    · intro z hz
      rw [hf]
      simp only [cons_append, mem_cons, mem_append, not_mem_nil, or_false] at hz ⊢
      tauto
    · have hzl : z ≠ xs.getLastD x := by rintro rfl; exact hnot hlast
      have hzx : z ≠ x := by rintro rfl; exact hnot hx
      simp only [update_of_ne hz, update_of_ne hzl, update_of_ne hzx, and_self]
    · rw [hf] at hz
      simp only [cons_append, mem_cons, mem_append, not_mem_nil, or_false] at hz hnot
      tauto

theorem pushFront (he : ∀ k, e ∉ f k) : (c.pushFront h e).Holds (update f h (e :: f h)) := by
  have hback := hc.pushBack (h := h) he
  have hcircle := hback.circle h
  have hnodup := hback.nodup h
  rw [update_self] at hcircle hnodup
  have hfront : (c.pushFront h e).Holds
      (update (update f h (f h ++ [e])) h (e :: f h)) := by
    refine hback.change (e := e) (fun k hk => ?_) rfl ?_ ?_ ?_ (fun _ _ _ => ⟨rfl, rfl⟩) ?_
    · rw [update_of_ne hk]
      exact he k
    · exact ((circle_append_comm (f h) [e]).1 hcircle).congr (fun _ _ => rfl) fun _ _ => rfl
    · exact perm_append_comm.nodup_iff.1 hnodup
    · intro x hx
      simpa [or_comm] using hx
    · intro x hx hnot
      refine absurd ?_ hnot
      simpa [or_comm] using hx
  rwa [update_idem] at hfront

end

end Holds

end Rings

end CosmoRT.Lib
