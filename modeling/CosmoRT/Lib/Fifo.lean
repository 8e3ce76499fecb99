import CosmoRT.Lib.LinkedList

/-!
# Queues with a pointer to the last element

Singly linked queues with a pointer to the first and one to the last element each.  An element has
one link, so it can be in one queue only.

* `walk`, `before` — the loops that look for an element; they do not end in a circle.
* `Holds` — the queues hold the lists `f`: the chains spell them, and the last pointers point to
  their ends.
* `Holds.append`, `Holds.pop`, `Holds.excise` — **adding at the end, taking the first, cutting an
  element out.**
-/

namespace CosmoRT.Lib

open Function List

namespace Chains

variable {ι : Type*} [DecidableEq ι]

/-- Is `e` met from a pointer on?  `none` stands for a loop that does not end. -/
def walk (c : Chains ι) (e : ι) : ℕ → Option ι → Option Bool
  | _, none => some false
  | 0, some _ => none
  | fuel + 1, some x => if x = e then some true else walk c e fuel (c.next x)

/-- The element that is met last before `e`, or last of all; `prev` if there is none. -/
def before (c : Chains ι) (e : ι) : ℕ → Option ι → Option ι → Option (Option ι)
  | _, prev, none => some prev
  | 0, _, some _ => none
  | fuel + 1, prev, some x => if x = e then some prev else before c e fuel (some x) (c.next x)

variable {q : Option ι} {xs : List ι} {fuel : ℕ}

variable {c : Chains ι} {as bs : List ι} {e : ι}

theorem Spells.walk (h : c.Spells q xs) (e : ι) (hfuel : xs.length ≤ fuel) :
    c.walk e fuel q = some (decide (e ∈ xs)) := by
  induction xs generalizing q fuel with
  | nil =>
    obtain rfl : q = none := h
    cases fuel <;> simp [Chains.walk]
  | cons x xs ih =>
    obtain ⟨rfl, h⟩ := h
    obtain ⟨n, rfl⟩ : ∃ n, fuel = n + 1 := ⟨fuel - 1, by simp at hfuel; omega⟩
    rw [Chains.walk, ih h (by simpa using hfuel)]
    by_cases hx : x = e
    · simp [hx]
    · simp [hx, Ne.symm hx]

theorem Spells.before
    (h : c.Spells q (as ++ bs)) (has : e ∉ as) (hbs : bs = [] ∨ ∃ cs, bs = e :: cs)
    (hfuel : (as ++ bs).length ≤ fuel) (prev : Option ι) :
    c.before e fuel prev q = some (as.getLast?.or prev) := by
  induction as generalizing q fuel prev with
  | nil =>
    rcases hbs with rfl | ⟨cs, rfl⟩
    · obtain rfl : q = none := h
      cases fuel <;> rfl
    · obtain ⟨rfl, h⟩ := h
      obtain ⟨n, rfl⟩ : ∃ n, fuel = n + 1 := ⟨fuel - 1, by simp at hfuel; omega⟩
      simp [Chains.before]
  | cons a as ih =>
    obtain ⟨rfl, h⟩ := h
    obtain ⟨n, rfl⟩ : ∃ n, fuel = n + 1 := ⟨fuel - 1, by simp at hfuel; omega⟩
    rw [mem_cons, not_or] at has
    rw [Chains.before, if_neg (Ne.symm has.1), ih h has.2 (by simpa using hfuel)]
    cases as with
    | nil => rfl
    | cons b as => simp [getLast?_cons]

omit [DecidableEq ι] in
theorem Spells.next_getLast
    (h : c.Spells q (as ++ bs)) {x : ι} (hx : as.getLast? = some x) : c.next x = bs.head? := by
  induction as generalizing q with
  | nil => simp at hx
  | cons a as ih =>
    cases as with
    | nil =>
      obtain rfl : a = x := by simpa using hx
      cases bs with
      | nil => exact h.2
      | cons b bs => exact h.2.1
    | cons b as => exact ih h.2 (by simpa [getLast?_cons] using hx)

omit [DecidableEq ι] in
theorem lastSlot_eq_getLast? (slot : Slot ι) (xs : List ι) :
    lastSlot slot xs = (xs.getLast?.map Slot.link).getD slot := by
  induction xs generalizing slot with
  | nil => rfl
  | cons a xs ih =>
    rw [lastSlot, ih, getLast?_cons]
    cases xs.getLast? <;> rfl

theorem read_write_of_ne {v : Option ι} {slot s : Slot ι} (h : s ≠ slot) :
    (c.write v slot).read s = c.read s := by
  cases s <;> cases slot <;> simp_all [Chains.write, Chains.read]

theorem Spells.write_last (slot : Slot ι)
    (h : c.Spells (c.read slot) xs) (hnodup : (xs ++ [e]).Nodup)
    (hslot : ∀ x ∈ xs ++ [e], slot ≠ .link x) :
    let c' := Chains.write { c with next := update c.next e none } (some e)
      (lastSlot slot xs)
    c'.Spells (c'.read slot) (xs ++ [e]) := by
  induction xs generalizing slot with
  | nil =>
    have hse : slot ≠ .link e := hslot e (by simp)
    cases slot with
    | bucket k => simp [Chains.write, lastSlot, Chains.Spells, Chains.read]
    | link y =>
      have hy : e ≠ y := by rintro rfl; exact hse rfl
      simp [Chains.write, lastSlot, Chains.Spells, Chains.read, hy]
  | cons a xs ih =>
    obtain ⟨ha, hnodup'⟩ := nodup_cons.1 hnodup
    have hread : (Chains.write { c with next := update c.next e none } (some e)
        (lastSlot slot (a :: xs))).read slot = some a := by
      have hne : lastSlot slot (a :: xs) ≠ slot := by
        rcases lastSlot_eq slot (a :: xs) with ⟨hnil, -⟩ | ⟨x, hx, hl⟩
        · cases hnil
        · rw [hl]
          exact (hslot x (mem_append_left _ hx)).symm
      rw [read_write_of_ne hne.symm, ← h.1]
      cases slot with
      | bucket k => rfl
      | link y =>
        have hy : y ≠ e := by rintro rfl; exact hslot y (by simp) rfl
        simp [Chains.read, hy]
    refine ⟨hread, ih (.link a) h.2 hnodup' ?_⟩
    rintro x hx ⟨⟩
    exact ha hx

/-- An element that is in no queue is put behind the last one of a queue. -/
theorem Filed.write_last {f : ℕ → List ι} (hf : c.Filed f) (h : ℕ) (he : ∀ k, e ∉ f k) :
    (Chains.write { c with next := update c.next e none } (some e)
      (lastSlot (.bucket h) (f h))).Filed (update f h (f h ++ [e])) := by
  set slot := lastSlot (.bucket h) (f h) with hslot
  have hnodup : (f h ++ [e]).Nodup := by
    rw [nodup_append]
    exact ⟨hf.nodup h, nodup_singleton e, fun a ha b hb => by
      rintro rfl
      exact he h (mem_singleton.1 hb ▸ ha)⟩
  -- the slot that is written belongs to queue `h`
  have hother : ∀ k ≠ h, slot ≠ .bucket k ∧ ∀ x ∈ f k, slot ≠ .link x := by
    intro k hk
    rcases lastSlot_eq (.bucket h) (f h) with ⟨-, h0⟩ | ⟨y, hy, h0⟩ <;> rw [hslot, h0]
    · exact ⟨by simpa using Ne.symm hk, by simp⟩
    · refine ⟨by simp, ?_⟩
      rintro x hx ⟨⟩
      exact hk (hf.apart k h y hx hy)
  refine hf.setBucket (Spells.write_last (.bucket h) (hf.spells h) hnodup (by simp))
    (fun k hk => ?_) hnodup fun x hx => ?_
  · have hfirst : (Chains.write { c with next := update c.next e none } (some e)
        slot).first k = c.first k :=
      read_write_of_ne (s := .bucket k) (hother k hk).1.symm
    rw [hfirst]
    refine (hf.spells k).congr fun x hx => ?_
    have hxe : x ≠ e := by rintro rfl; exact he k hx
    have hnext := read_write_of_ne (c := { c with next := update c.next e none })
      (v := some e) (s := .link x) ((hother k hk).2 x hx).symm
    simpa [Chains.read, hxe] using hnext
  · rcases mem_append.1 hx with hx | hx
    · exact .inl hx
    · obtain rfl := mem_singleton.1 hx
      exact .inr he

end Chains

/-- Queues with a pointer to the first and one to the last element. -/
structure Fifos (ι : Type*) extends Chains ι where
  last : ℕ → Option ι

namespace Fifos

variable {ι : Type*} [DecidableEq ι]

/-- Put an element behind the last one. -/
def append (c : Fifos ι) (h : ℕ) (e : ι) : Fifos ι :=
  let c := { c with next := update c.next e none }
  let c := match c.last h with
    | some l => { c with next := update c.next l (some e) }
    | none => { c with first := update c.first h (some e) }
  { c with last := update c.last h (some e) }

/-- Let a queue begin behind its first element `e`. -/
def pop (c : Fifos ι) (h : ℕ) (e : ι) : Fifos ι :=
  let c := { c with first := update c.first h (c.next e) }
  let c := if c.first h = none then { c with last := update c.last h none } else c
  { c with next := update c.next e none }

/-- Let the element `p` before `e` skip it. -/
def excise (c : Fifos ι) (h : ℕ) (p e : ι) : Fifos ι :=
  let c := { c with next := update c.next p (c.next e) }
  let c := if c.last h = some e then { c with last := update c.last h (some p) } else c
  { c with next := update c.next e none }

/-- The queues hold the lists `f`. -/
structure Holds (c : Fifos ι) (f : ℕ → List ι) : Prop where
  filed : c.Filed f
  last : ∀ h, c.last h = (f h).getLast?

namespace Holds

variable {c : Fifos ι} {f : ℕ → List ι} {e : ι}

section

variable (hc : c.Holds f)
include hc

theorem append (h : ℕ) (he : ∀ k, e ∉ f k) : (c.append h e).Holds (update f h (f h ++ [e])) := by
  refine ⟨?_, fun k => ?_⟩
  · have hfiled := hc.filed.write_last h he
    have heq : (c.append h e).toChains = Chains.write
        { c.toChains with next := update c.next e none } (some e)
        (Chains.lastSlot (.bucket h) (f h)) := by
      rw [Chains.lastSlot_eq_getLast?, ← hc.last h]
      cases hl : c.last h <;> simp [Fifos.append, Chains.write, hl]
    rwa [heq]
  · by_cases hk : k = h
    · subst hk
      simp [Fifos.append]
    · simp only [Fifos.append, update_of_ne hk]
      rw [← hc.last k]
      split <;> rfl

variable {h : ℕ} {as bs : List ι}

/-- Cutting out of a queue, with the slot before the element and the new last element. -/
theorem bypass (hf : f h = as ++ e :: bs) {c' : Fifos ι}
    (hchains : c'.toChains = c.toChains.bypass e (Chains.lastSlot (.bucket h) as))
    (hlast : c'.last h = (as ++ bs).getLast?) (hother : ∀ k ≠ h, c'.last k = c.last k) :
    c'.Holds (update f h (as ++ bs)) := by
  refine ⟨hchains ▸ hc.filed.bypass hf, fun k => ?_⟩
  by_cases hk : k = h
  · subst hk
    rw [hlast, update_self]
  · rw [hother k hk, hc.last k, update_of_ne hk]

theorem pop {rest : List ι} (hf : f h = e :: rest) : (c.pop h e).Holds (update f h rest) := by
  have hspells := hc.filed.spells h
  rw [hf] at hspells
  have hf' : f h = [] ++ e :: rest := hf
  refine hc.bypass hf' ?_ ?_ fun k hk => ?_
  · simp only [Fifos.pop, Chains.bypass, Chains.lastSlot, Chains.write]
    split_ifs <;> rfl
  · cases rest with
    | nil =>
      have hnext : c.next e = none := hspells.2
      simp [Fifos.pop, hnext]
    | cons b rest =>
      have hnext : c.next e = some b := hspells.2.1
      simp [Fifos.pop, hnext, hc.last h, hf, getLast?_cons]
  · simp only [Fifos.pop]
    split_ifs
    · simp [hk]
    · rfl

theorem excise {p : ι} (hf : f h = as ++ e :: bs) (hp : as.getLast? = some p) :
    (c.excise h p e).Holds (update f h (as ++ bs)) := by
  refine hc.bypass hf ?_ ?_ fun k hk => ?_
  · rw [Chains.lastSlot_eq_getLast?, hp]
    simp only [Fifos.excise, Chains.bypass, Chains.write, Option.map_some, Option.getD_some]
    split_ifs <;> rfl
  · have hnodup := hc.filed.nodup h
    rw [hf] at hnodup
    have hlast := hc.last h
    rw [hf] at hlast
    cases hbs : bs.getLast? with
    | none =>
      obtain rfl : bs = [] := by simpa using hbs
      simp [Fifos.excise, hlast, hp]
    | some b =>
      have hb : b ∈ bs := mem_of_getLast? hbs
      have hbe : b ≠ e := by
        rintro rfl
        exact (nodup_cons.1 (nodup_append.1 hnodup).2.1).1 hb
      simp [Fifos.excise, hlast, getLast?_append, getLast?_cons, hbs, hbe]
  · simp only [Fifos.excise]
    split_ifs
    · simp [hk]
    · rfl

theorem forget (he : ∀ k, e ∉ f k) : Holds { c with next := update c.next e none } f := by
  refine ⟨⟨fun k => (hc.filed.spells k).congr fun x hx => ?_, hc.filed.nodup, hc.filed.apart⟩,
    hc.last⟩
  have hxe : x ≠ e := by rintro rfl; exact he k hx
  simp [hxe]

end

end Holds

end Fifos

end CosmoRT.Lib
