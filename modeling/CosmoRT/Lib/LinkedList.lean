import Mathlib

/-!
# Linked lists in memory

Two kinds of lists whose links are fields of the elements.  `Links` is a doubly linked list with
a head that is not an element and a pointer to the last element; `Chains` are singly linked
lists, one for each bucket of a table.  The operations change single links, as C code does; the
laws say which list of elements the links spell afterwards.
-/

namespace CosmoRT.Lib

open Function List

theorem mem_take_out {ι : Type*} {as bs : List ι} {e x : ι} (h : (as ++ e :: bs).Nodup) :
    x ∈ as ++ bs ↔ x ∈ as ++ e :: bs ∧ x ≠ e := by
  have hnot := (nodup_middle.1 h).notMem
  rw [perm_middle.mem_iff, mem_cons]
  refine ⟨fun hx => ⟨.inr hx, ?_⟩, fun hx => hx.1.resolve_left hx.2⟩
  rintro rfl
  exact hnot hx

/-! ## Doubly linked lists -/

/-- The head of the list or an element. -/
inductive Place (ι : Type*) where
  | head
  | elem (x : ι)
  deriving DecidableEq, Repr

/-- The links; `none` is the null pointer. -/
structure Links (ι : Type*) where
  next : Place ι → Option ι
  prev : ι → Option (Place ι)
  tail : Option (Place ι)

namespace Links

variable {ι : Type*}

/-- From the pointer towards the head, the first element with `p`. -/
def searchBack (l : Links ι) (p : ι → Bool) : ℕ → Option (Place ι) → Option ι
  | fuel + 1, some (.elem x) => if p x then some x else searchBack l p fuel (l.prev x)
  | _, _ => none

/-- The pointer to the last element; there is none in an empty list. -/
def pointer : Place ι → Option (Place ι)
  | .head => none
  | .elem x => some (.elem x)

/-- The links behind a place spell `xs`. -/
def Follows (l : Links ι) : Place ι → List ι → Prop
  | p, [] => l.next p = none ∧ l.tail = pointer p
  | p, x :: xs => l.next p = some x ∧ l.prev x = some p ∧ Follows l (.elem x) xs

/-- The list that the links spell. -/
structure Spells (l : Links ι) (xs : List ι) : Prop where
  follows : l.Follows .head xs
  nodup : xs.Nodup

/-- The last place of a list that starts behind `p`. -/
def lastPlace (p : Place ι) : List ι → Place ι
  | [] => p
  | x :: xs => lastPlace (.elem x) xs

@[simp] theorem lastPlace_concat (p : Place ι) (xs : List ι) (x : ι) :
    lastPlace p (xs ++ [x]) = .elem x := by
  induction xs generalizing p with
  | nil => rfl
  | cons y xs ih => exact ih _

/-- The links from a place along `xs`, without what comes behind. -/
def Leads (l : Links ι) : Place ι → List ι → Prop
  | _, [] => True
  | p, x :: xs => l.next p = some x ∧ l.prev x = some p ∧ Leads l (.elem x) xs

variable {l : Links ι} {p : Place ι} {as bs : List ι}

theorem follows_append : l.Follows p (as ++ bs) ↔ l.Leads p as ∧ l.Follows (lastPlace p as) bs := by
  induction as generalizing p with
  | nil => simp [Leads, lastPlace]
  | cons a as ih => simp [Follows, Leads, lastPlace, ih, and_assoc]

theorem lastPlace_eq (h : as ≠ []) (p : Place ι) : ∃ x ∈ as, lastPlace p as = .elem x := by
  induction as generalizing p with
  | nil => exact absurd rfl h
  | cons a as ih =>
    by_cases has : as = []
    · exact ⟨a, by simp, by simp [has, lastPlace]⟩
    · obtain ⟨x, hx, hl⟩ := ih has (.elem a)
      exact ⟨x, by simp [hx], hl⟩

/-- Along a stretch only the link out of its last place may change. -/
theorem Leads.congr {l' : Links ι} (h : l.Leads p as)
    (hnodup : as.Nodup) (hp : ∀ x ∈ as, p ≠ .elem x)
    (hnext : ∀ q, q = p ∨ (∃ x ∈ as, q = .elem x) → q ≠ lastPlace p as → l'.next q = l.next q)
    (hprev : ∀ x ∈ as, l'.prev x = l.prev x) : l'.Leads p as := by
  induction as generalizing p with
  | nil => trivial
  | cons a as ih =>
    rw [forall_mem_cons] at hprev
    obtain ⟨ha, hnodup⟩ := nodup_cons.1 hnodup
    have hlast : p ≠ lastPlace p (a :: as) := by
      obtain ⟨x, hx, hl⟩ := lastPlace_eq (cons_ne_nil a as) p
      rw [hl]
      exact hp x hx
    refine ⟨(hnext p (.inl rfl) hlast).trans h.1, hprev.1.trans h.2.1,
      ih h.2.2 hnodup ?_ ?_ hprev.2⟩
    · rintro x hx hax
      cases hax
      exact ha hx
    · rintro q (rfl | ⟨x, hx, rfl⟩) hq
      · exact hnext _ (.inr ⟨a, by simp, rfl⟩) hq
      · exact hnext _ (.inr ⟨x, by simp [hx], rfl⟩) hq

theorem Follows.drop (h : l.Follows p (as ++ bs)) : l.Follows (lastPlace p as) bs :=
  (follows_append.1 h).2

variable {xs : List ι}

theorem Follows.tail_eq (h : l.Follows p xs) : l.tail = pointer (lastPlace p xs) := by
  induction xs generalizing p with
  | nil => exact h.2
  | cons x xs ih => exact ih h.2.2

theorem Follows.congr {l' : Links ι} (h : l.Follows p xs)
    (hp : l'.next p = l.next p) (hnext : ∀ x ∈ xs, l'.next (.elem x) = l.next (.elem x))
    (hprev : ∀ x ∈ xs, l'.prev x = l.prev x) (htail : l'.tail = l.tail) : l'.Follows p xs := by
  induction xs generalizing p with
  | nil => exact ⟨hp.trans h.1, htail.trans h.2⟩
  | cons x xs ih =>
    rw [forall_mem_cons] at hnext hprev
    exact ⟨hp.trans h.1, hprev.1.trans h.2.1, ih h.2.2 hnext.1 hnext.2 hprev.2⟩

theorem Spells.searchBack (h : l.Spells xs) (p : ι → Bool) {fuel : ℕ}
    (hfuel : xs.length ≤ fuel) : l.searchBack p fuel l.tail = xs.reverse.find? p := by
  have key : ∀ (as bs : List ι) (n : ℕ) (at' : Option (Place ι)), as ++ bs = xs → as.length ≤ n →
      (at' = pointer (lastPlace .head as) ∨ at' = some (lastPlace .head as)) →
      l.searchBack p n at' = as.reverse.find? p := by
    intro as
    induction as using reverseRecOn with
    | nil =>
      rintro bs n at' - - (rfl | rfl) <;> cases n <;> rfl
    | append_singleton as x ih =>
      intro bs n at' hxs hn hat
      have hx : at' = some (.elem x) := by
        rw [lastPlace_concat] at hat
        rcases hat with rfl | rfl <;> rfl
      obtain ⟨m, rfl⟩ : ∃ m, n = m + 1 := ⟨n - 1, by simp at hn; omega⟩
      have hprev : l.prev x = some (lastPlace .head as) := by
        have hf : l.Follows .head (as ++ (x :: bs)) := by
          have := h.follows
          rwa [← hxs, append_assoc] at this
        exact hf.drop.2.1
      rw [hx, Links.searchBack, reverse_concat, find?_cons,
        ih (x :: bs) m _ (by simpa using hxs) (by simp at hn; omega) (.inr hprev)]
      cases p x <;> rfl
  exact key xs [] fuel _ (by simp) hfuel (.inl h.follows.tail_eq)

/-! ### Taking out and putting in front -/

variable [DecidableEq ι]

/-- Take an element out. -/
def remove (l : Links ι) (e : ι) : Links ι :=
  let l := match l.prev e with
    | some p => { l with next := update l.next p (l.next (.elem e)) }
    | none => l
  let l := match l.next (.elem e) with
    | some q => { l with prev := update l.prev q (l.prev e) }
    | none => l
  let l := if l.tail = some (.elem e) then { l with tail := l.prev e } else l
  let l := if l.tail = some .head then { l with tail := none } else l
  { l with
    prev := update l.prev e none
    next := update l.next (.elem e) none }

/-- Put an element behind the head. -/
def pushFront (l : Links ι) (e : ι) : Links ι :=
  let l := { l with
    prev := update l.prev e (some .head)
    next := update l.next (.elem e) (l.next .head) }
  let l := match l.next .head with
    | some x => { l with prev := update l.prev x (some (.elem e)) }
    | none => { l with tail := some (.elem e) }
  { l with next := update l.next .head (some e) }

variable {e : ι}

theorem remove_eq (hp : l.prev e = some p) (hpe : p ≠ .elem e) (hne : l.next (.elem e) ≠ some e) :
    l.remove e = {
      next := update (update l.next p (l.next (.elem e))) (.elem e) none
      prev := update ((l.next (.elem e)).elim l.prev fun q =>
        update l.prev q (some p)) e none
      tail := if l.tail = some (.elem e) then pointer p else if l.tail = some .head then none
        else l.tail } := by
  have hnext : update l.next p (l.next (.elem e)) (.elem e) = l.next (.elem e) := by
    rw [update_of_ne (Ne.symm hpe)]
  unfold remove
  simp only [hp, hnext]
  cases hq : l.next (.elem e) with
  | none =>
    by_cases ht : l.tail = some (.elem e)
    · cases p <;> simp [ht, pointer, hp]
    · by_cases hh : l.tail = some .head <;> simp [ht, hh]
  | some q =>
    have hqe : q ≠ e := by rintro rfl; exact hne hq
    by_cases ht : l.tail = some (.elem e)
    · cases p <;> simp [ht, pointer, hp, update_of_ne (Ne.symm hqe)]
    · by_cases hh : l.tail = some .head <;> simp [ht, hh]

theorem Spells.remove (h : l.Spells (as ++ e :: bs)) : (l.remove e).Spells (as ++ bs) := by
  obtain ⟨hleads, hnext, hprev, hbs⟩ := follows_append.1 h.follows
  obtain ⟨has, hebs, hdisj⟩ := nodup_append.1 h.nodup
  obtain ⟨he, hbsn⟩ := nodup_cons.1 hebs
  obtain ⟨p, hpdef⟩ : ∃ p, p = lastPlace .head as := ⟨_, rfl⟩
  rw [← hpdef] at hnext hprev
  -- the place before `e` is the head or an element of `as`
  have hp : ∀ x, p = .elem x → x ∈ as := by
    rintro x rfl
    by_cases hnil : as = []
    · simp [hnil, lastPlace] at hpdef
    · obtain ⟨y, hy, hl⟩ := lastPlace_eq hnil .head
      rw [hl] at hpdef
      cases hpdef
      exact hy
  have heas : e ∉ as := fun hx => hdisj e hx e (by simp) rfl
  have hpe : p ≠ .elem e := fun hx => heas (hp e hx)
  have hpb : ∀ b ∈ bs, p ≠ .elem b := fun b hb hx => hdisj b (hp b hx) b (by simp [hb]) rfl
  have hne : l.next (.elem e) ≠ some e := by
    cases bs with
    | nil => rw [hbs.1]; simp
    | cons b bs => rw [hbs.1]; rintro ⟨⟩; exact he (by simp)
  refine ⟨?_, nodup_append.2 ⟨has, hbsn, fun a ha b hb => hdisj a ha b (by simp [hb])⟩⟩
  rw [remove_eq hprev hpe hne, follows_append, ← hpdef]
  constructor
  · refine hleads.congr has (by simp) ?_ ?_
    · rintro q hq hlast
      have hqe : q ≠ .elem e := by
        rcases hq with rfl | ⟨x, hx, rfl⟩
        · simp
        · rintro ⟨⟩
          exact heas hx
      simp only [update_of_ne hqe, update_of_ne (hpdef ▸ hlast)]
    · intro x hx
      have hxe : x ≠ e := by rintro rfl; exact heas hx
      cases bs with
      | nil => simp [hbs.1, update_of_ne hxe]
      | cons b bs =>
        have hxb : x ≠ b := hdisj x hx b (by simp)
        simp [hbs.1, update_of_ne hxe, update_of_ne hxb]
  · cases bs with
    | nil =>
      refine ⟨?_, ?_⟩
      · simp [update_of_ne hpe, hbs.1]
      · simp [hbs.2, pointer]
    | cons b bs =>
      have hbe : b ≠ e := by rintro rfl; exact he (by simp)
      have htail := hbs.2.2.tail_eq
      obtain ⟨y, hy, hlast⟩ := lastPlace_eq (cons_ne_nil b bs) (.elem e)
      have hlast' : lastPlace (.elem b) bs = .elem y := hlast
      have hye : y ≠ e := by rintro rfl; exact he hy
      refine ⟨?_, ?_, hbs.2.2.congr ?_ ?_ ?_ ?_⟩
      · simp [update_of_ne hpe, hbs.1]
      · simp [hbs.1, update_of_ne hbe]
      · simp [hbe, Ne.symm (hpb b (by simp))]
      · intro x hx
        have hxe : x ≠ e := by rintro rfl; exact he (by simp [hx])
        simp [hxe, Ne.symm (hpb x (by simp [hx]))]
      · intro x hx
        have hxe : x ≠ e := by rintro rfl; exact he (by simp [hx])
        have hxb : x ≠ b := by rintro rfl; exact (nodup_cons.1 hbsn).1 hx
        simp [hbs.1, update_of_ne hxe, update_of_ne hxb]
      · simp [htail, hlast', pointer, hye]

theorem Spells.pushFront (h : l.Spells xs) (he : e ∉ xs) : (l.pushFront e).Spells (e :: xs) := by
  refine ⟨?_, nodup_cons.2 ⟨he, h.nodup⟩⟩
  have hf := h.follows
  cases xs with
  | nil => simp [Links.pushFront, hf.1, Follows, pointer]
  | cons x xs =>
    have hxe : x ≠ e := by rintro rfl; exact he (by simp)
    have hxs := (nodup_cons.1 h.nodup).1
    refine ⟨?_, ?_, ?_, ?_, hf.2.2.congr ?_ ?_ ?_ ?_⟩
    · simp [Links.pushFront]
    · simp [Links.pushFront, hf.1, update_of_ne (Ne.symm hxe)]
    · simp [Links.pushFront, hf.1]
    · simp [Links.pushFront, hf.1]
    · simp [Links.pushFront, hf.1, hxe]
    · intro y hy
      have hye : y ≠ e := by rintro rfl; exact he (by simp [hy])
      simp [Links.pushFront, hf.1, hye]
    · intro y hy
      have hye : y ≠ e := by rintro rfl; exact he (by simp [hy])
      have hyx : y ≠ x := by rintro rfl; exact hxs hy
      simp [Links.pushFront, hf.1, hye, hyx]
    · simp [Links.pushFront, hf.1]

end Links

/-! ## Chains of a table -/

/-- The first element of every bucket and the link of every element. -/
structure Chains (ι : Type*) where
  first : ℕ → Option ι
  next : ι → Option ι

/-- A pointer variable of the table: the start of a bucket or the link of an element. -/
inductive Slot (ι : Type*) where
  | bucket (h : ℕ)
  | link (x : ι)

namespace Chains

variable {ι : Type*}

/-- Along the links, the first element with `p`. -/
def search (c : Chains ι) (p : ι → Bool) : ℕ → Option ι → Option ι
  | fuel + 1, some x => if p x then some x else search c p fuel (c.next x)
  | _, _ => none

/-- The links from a pointer spell `xs`. -/
def Spells (c : Chains ι) : Option ι → List ι → Prop
  | q, [] => q = none
  | q, x :: xs => q = some x ∧ Spells c (c.next x) xs

/-- Bucket `h` spells `f h`, and no element is in two places. -/
structure Filed (c : Chains ι) (f : ℕ → List ι) : Prop where
  spells : ∀ h, c.Spells (c.first h) (f h)
  nodup : ∀ h, (f h).Nodup
  apart : ∀ h k x, x ∈ f h → x ∈ f k → h = k

variable {c : Chains ι} {q : Option ι} {xs : List ι} {fuel : ℕ}

theorem Spells.search (h : c.Spells q xs) (p : ι → Bool)
    (hfuel : xs.length ≤ fuel) : c.search p fuel q = xs.find? p := by
  induction xs generalizing q fuel with
  | nil =>
    obtain rfl : q = none := h
    cases fuel <;> rfl
  | cons x xs ih =>
    obtain ⟨rfl, h⟩ := h
    obtain ⟨n, rfl⟩ : ∃ n, fuel = n + 1 := ⟨fuel - 1, by simp at hfuel; omega⟩
    rw [Chains.search, ih h (by simpa using hfuel), find?_cons]
    cases p x <;> rfl

variable {c' : Chains ι} {h : ℕ} {slot : Slot ι}

theorem Spells.congr (h : c.Spells q xs)
    (hnext : ∀ x ∈ xs, c'.next x = c.next x) : c'.Spells q xs := by
  induction xs generalizing q with
  | nil => exact h
  | cons x xs ih =>
    rw [forall_mem_cons] at hnext
    refine ⟨h.1, ?_⟩
    rw [hnext.1]
    exact ih h.2 hnext.2

/-- The pointer to the element behind `xs`. -/
def lastSlot (slot : Slot ι) : List ι → Slot ι
  | [] => slot
  | x :: xs => lastSlot (.link x) xs

theorem lastSlot_eq (slot : Slot ι) (as : List ι) :
    (as = [] ∧ lastSlot slot as = slot) ∨ ∃ x ∈ as, lastSlot slot as = .link x := by
  induction as generalizing slot with
  | nil => exact .inl ⟨rfl, rfl⟩
  | cons a as ih =>
    rcases ih (.link a) with ⟨rfl, -⟩ | ⟨x, hx, h⟩
    · exact .inr ⟨a, by simp, rfl⟩
    · exact .inr ⟨x, by simp [hx], h⟩

variable [DecidableEq ι]

section

variable (c : Chains ι)

/-- Put an element in front of a bucket. -/
def push (h : ℕ) (e : ι) : Chains ι :=
  let c := { c with next := update c.next e (c.first h) }
  { c with first := update c.first h (some e) }

def read : Slot ι → Option ι
  | .bucket h => c.first h
  | .link x => c.next x

def write (v : Option ι) : Slot ι → Chains ι
  | .bucket h => { c with first := update c.first h v }
  | .link x => { c with next := update c.next x v }

/-- Let the pointer to `e` skip it. -/
def bypass (e : ι) (slot : Slot ι) : Chains ι :=
  let c := c.write (c.next e) slot
  { c with next := update c.next e none }

/-- Look for `e` from a slot on and unlink it. -/
def unlink (c : Chains ι) (e : ι) : ℕ → Slot ι → Chains ι
  | 0, _ => c
  | fuel + 1, slot =>
    match c.read slot with
    | none => c
    | some x => if x = e then c.bypass e slot else unlink c e fuel (.link x)

end

variable {e : ι}

variable {f : ℕ → List ι}

omit [DecidableEq ι] in
theorem apart_update (hf : ∀ k k' x, x ∈ f k → x ∈ f k' → k = k')
    (hxs : ∀ k ≠ h, ∀ x ∈ f k, x ∉ xs) :
    ∀ k k' x, x ∈ update f h xs k → x ∈ update f h xs k' → k = k' := by
  intro k k' x
  by_cases hk : k = h <;> by_cases hk' : k' = h
  · exact fun _ _ => hk.trans hk'.symm
  · rw [hk, update_self, update_of_ne hk']
    exact fun hx hx' => (hxs k' hk' x hx' hx).elim
  · rw [hk', update_self, update_of_ne hk]
    exact fun hx hx' => (hxs k hk x hx hx').elim
  · rw [update_of_ne hk, update_of_ne hk']
    exact hf k k' x

omit [DecidableEq ι] in
/-- One bucket changes; its elements were there before, or in no bucket. -/
theorem Filed.setBucket (hf : c.Filed f)
    (hnew : c'.Spells (c'.first h) xs) (hrest : ∀ k ≠ h, c'.Spells (c'.first k) (f k))
    (hnodup : xs.Nodup) (hmem : ∀ x ∈ xs, x ∈ f h ∨ ∀ k, x ∉ f k) : c'.Filed (update f h xs) := by
  refine ⟨(forall_update_iff f fun k => c'.Spells (c'.first k)).2 ⟨hnew, hrest⟩,
    (forall_update_iff f fun _ => Nodup).2 ⟨hnodup, fun k _ => hf.nodup k⟩,
    apart_update hf.apart fun k hk x hx hx' => ?_⟩
  rcases hmem x hx' with hh | hout
  · exact hk (hf.apart k h x hx hh)
  · exact hout k hx

theorem Filed.push (hf : c.Filed f) (h : ℕ)
    (he : ∀ k, e ∉ f k) : (c.push h e).Filed (update f h (e :: f h)) := by
  have hne : ∀ k, ∀ x ∈ f k, x ≠ e := by
    rintro k x hx rfl
    exact he k hx
  have hsp : ∀ k, (c.push h e).Spells (c.first k) (f k) := fun k =>
    (hf.spells k).congr fun x hx => by simp [Chains.push, hne k x hx]
  refine hf.setBucket ⟨by simp [Chains.push], ?_⟩ (fun k hk => ?_)
    (nodup_cons.2 ⟨he h, hf.nodup h⟩) fun x hx => ?_
  · rw [show (c.push h e).next e = c.first h by simp [Chains.push]]
    exact hsp h
  · rw [show (c.push h e).first k = c.first k by simp [Chains.push, hk]]
    exact hsp k
  · rcases mem_cons.1 hx with rfl | hx
    · exact .inr he
    · exact .inl hx

variable {as bs : List ι}

theorem unlink_eq
    (h : c.Spells (c.read slot) (as ++ e :: bs)) (he : e ∉ as) (hfuel : as.length < fuel) :
    c.unlink e fuel slot = c.bypass e (lastSlot slot as) := by
  induction as generalizing slot fuel with
  | nil =>
    obtain ⟨n, rfl⟩ : ∃ n, fuel = n + 1 := ⟨fuel - 1, by omega⟩
    rw [unlink, h.1]
    simp [lastSlot]
  | cons a as ih =>
    obtain ⟨n, rfl⟩ : ∃ n, fuel = n + 1 := ⟨fuel - 1, by omega⟩
    rw [mem_cons, not_or] at he
    have hrest : c.Spells (c.read (.link a)) (as ++ e :: bs) := h.2
    rw [unlink, h.1]
    simp only [if_neg (Ne.symm he.1)]
    exact ih hrest he.2 (by simpa using hfuel)

theorem bypass_read {s : Slot ι} (he : s ≠ .link e) (hs : s ≠ slot) :
    (c.bypass e slot).read s = c.read s := by
  cases s with
  | bucket h =>
    cases slot with
    | bucket k =>
      have : h ≠ k := by rintro rfl; exact hs rfl
      simp [bypass, write, read, update_of_ne this]
    | link y => rfl
  | link x =>
    have hx : x ≠ e := by rintro rfl; exact he rfl
    cases slot with
    | bucket k => simp [bypass, write, read, update_of_ne hx]
    | link y =>
      have : x ≠ y := by rintro rfl; exact hs rfl
      simp [bypass, write, read, update_of_ne hx, update_of_ne this]

/-- A chain without `e` and without the changed pointer stays. -/
theorem Spells.bypass_congr (h : c.Spells q xs) (he : e ∉ xs) (hs : ∀ x ∈ xs, slot ≠ .link x) :
    (c.bypass e slot).Spells q xs := by
  refine h.congr fun x hx => bypass_read (s := .link x) ?_ (Ne.symm (hs x hx))
  rintro ⟨⟩
  exact he hx

theorem bypass_read_self (c : Chains ι) (hs : slot ≠ .link e) :
    (c.bypass e slot).read slot = c.next e := by
  cases slot with
  | bucket k => simp [bypass, write, read]
  | link y =>
    have : y ≠ e := by rintro rfl; exact hs rfl
    simp [bypass, write, read, update_of_ne this]

theorem Spells.bypass (slot : Slot ι)
    (h : c.Spells (c.read slot) (as ++ e :: bs)) (hnodup : (as ++ e :: bs).Nodup)
    (hslot : ∀ x ∈ as ++ e :: bs, slot ≠ .link x) :
    (c.bypass e (lastSlot slot as)).Spells ((c.bypass e (lastSlot slot as)).read slot)
      (as ++ bs) := by
  induction as generalizing slot with
  | nil =>
    obtain ⟨he, -⟩ := nodup_cons.1 hnodup
    show (c.bypass e slot).Spells ((c.bypass e slot).read slot) bs
    rw [bypass_read_self c (hslot e (by simp))]
    exact h.2.bypass_congr he fun x hx => hslot x (by simp [hx])
  | cons a as ih =>
    obtain ⟨ha, hnodup⟩ := nodup_cons.1 hnodup
    have hread : (c.bypass e (lastSlot slot (a :: as))).read slot = some a := by
      rw [bypass_read (hslot e (by simp)) ?_, h.1]
      rcases lastSlot_eq slot (a :: as) with ⟨hnil, -⟩ | ⟨x, hx, hl⟩
      · cases hnil
      · rw [hl]
        exact hslot x (by simp only [mem_append]; exact .inl hx)
    rw [hread]
    exact ⟨rfl, ih (.link a) h.2 hnodup (by rintro x hx ⟨⟩; exact ha hx)⟩

theorem Filed.bypass (hf : c.Filed f) (hfh : f h = as ++ e :: bs) :
    (c.bypass e (lastSlot (.bucket h) as)).Filed (update f h (as ++ bs)) := by
  have hsp : c.Spells (c.read (.bucket h)) (as ++ e :: bs) := hfh ▸ hf.spells h
  have hnd : (as ++ e :: bs).Nodup := hfh ▸ hf.nodup h
  have hsub : as ++ bs <+ as ++ e :: bs := (sublist_cons_self e bs).append_left as
  -- the changed pointer belongs to bucket `h`
  have hother : ∀ k ≠ h, ∀ x ∈ f k, e ≠ x ∧ lastSlot (.bucket h) as ≠ .link x := by
    intro k hk x hx
    refine ⟨?_, fun hl => ?_⟩
    · rintro rfl
      exact hk (hf.apart k h e hx (by simp [hfh]))
    · rcases lastSlot_eq (.bucket h) as with ⟨-, h0⟩ | ⟨y, hy, h0⟩
      · rw [h0] at hl
        cases hl
      · rw [h0] at hl
        cases hl
        exact hk (hf.apart k h x hx (by simp [hfh, hy]))
  refine hf.setBucket (hsp.bypass (.bucket h) hnd (by simp)) (fun k hk => ?_) (hnd.sublist hsub)
    fun x hx => .inl (hfh ▸ hsub.subset hx)
  have hread : (c.bypass e (lastSlot (.bucket h) as)).first k = c.first k := by
    refine bypass_read (s := .bucket k) (by simp) ?_
    rcases lastSlot_eq (.bucket h) as with ⟨-, h0⟩ | ⟨y, -, h0⟩ <;> rw [h0]
    · rintro ⟨⟩
      exact hk rfl
    · simp
  rw [hread]
  exact (hf.spells k).bypass_congr (fun hx => (hother k hk e hx).1 rfl)
    fun x hx => (hother k hk x hx).2

theorem Filed.unlink (hf : c.Filed f) (hfh : f h = as ++ e :: bs) (hfuel : as.length < fuel) :
    (c.unlink e fuel (.bucket h)).Filed (update f h (as ++ bs)) := by
  have hnd : (as ++ e :: bs).Nodup := hfh ▸ hf.nodup h
  have heas : e ∉ as := fun hx => (nodup_append.1 hnd).2.2 e hx e (by simp) rfl
  rw [unlink_eq (hfh ▸ hf.spells h) heas hfuel]
  exact hf.bypass hfh

end Chains

end CosmoRT.Lib
