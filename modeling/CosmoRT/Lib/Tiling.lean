import Mathlib

/-!
# Tilings by aligned blocks

The arithmetic of a buddy system.  A block of order `o` is an interval of `2 ^ o`
numbers; two aligned blocks that differ in one bit are buddies and make a block
of the next order.  `Tiles` says that lists of blocks, one list per order, tile a
set: aligned, disjoint, and covering exactly its elements.

* `buddy_spec` — a block and its buddy are the two halves of one block.
-/

namespace CosmoRT.Lib

open Function

/-- The numbers of the block of order `o` at `b`. -/
def block (b o : ℕ) : Set ℕ := Set.Ico b (b + 2 ^ o)

theorem mem_block {p b o : ℕ} : p ∈ block b o ↔ b ≤ p ∧ p < b + 2 ^ o := Iff.rfl

theorem self_mem_block (b o : ℕ) : b ∈ block b o := ⟨le_refl _, by simp⟩

theorem block_succ (b o : ℕ) : block b (o + 1) = block b o ∪ block (b + 2 ^ o) o := by
  ext p
  simp only [Set.mem_union, mem_block, pow_succ]
  omega

theorem disjoint_halves (b o : ℕ) : Disjoint (block b o) (block (b + 2 ^ o) o) := by
  rw [Set.disjoint_left]
  intro p h1 h2
  simp only [mem_block] at h1 h2
  omega

/-- The buddy of an aligned block: its bit `o` flipped. -/
theorem xor_two_pow {b o : ℕ} (h : 2 ^ o ∣ b) :
    (2 ^ (o + 1) ∣ b ∧ b ^^^ 2 ^ o = b + 2 ^ o) ∨
      (2 ^ o ≤ b ∧ 2 ^ (o + 1) ∣ b - 2 ^ o ∧ b ^^^ 2 ^ o = b - 2 ^ o) := by
  obtain ⟨q, rfl⟩ := h
  have hxor : 2 ^ o * q ^^^ 2 ^ o = 2 ^ o * (q ^^^ 1) := by
    have := Nat.shiftLeft_xor_distrib (a := q) (b := 1) (i := o)
    simp only [Nat.shiftLeft_eq, one_mul] at this
    rw [Nat.mul_comm, Nat.mul_comm (2 ^ o) (q ^^^ 1), this]
  rcases Nat.even_or_odd q with heven | hodd
  · left
    obtain ⟨m, rfl⟩ := heven
    refine ⟨⟨m, by ring⟩, ?_⟩
    rw [hxor, Nat.xor_one_of_even ⟨m, rfl⟩]
    ring
  · right
    obtain ⟨m, rfl⟩ := hodd
    have hsub : 2 ^ o * (2 * m + 1) - 2 ^ o = 2 ^ o * (2 * m) := by
      rw [Nat.mul_add, Nat.mul_one, Nat.add_sub_cancel]
    refine ⟨by rw [Nat.mul_add]; omega, ⟨m, by rw [hsub]; ring⟩, ?_⟩
    rw [hxor, Nat.xor_one_of_odd ⟨m, rfl⟩, hsub, Nat.add_sub_cancel]

/-- **Buddies.**  An aligned block and its buddy are the two halves of the block of
the next order at the lower of the two. -/
theorem buddy_spec {b o : ℕ} (h : 2 ^ o ∣ b) :
    2 ^ o ∣ b ^^^ 2 ^ o ∧ 2 ^ (o + 1) ∣ min (b ^^^ 2 ^ o) b ∧
      Disjoint (block b o) (block (b ^^^ 2 ^ o) o) ∧
      block (min (b ^^^ 2 ^ o) b) (o + 1) = block b o ∪ block (b ^^^ 2 ^ o) o := by
  rcases xor_two_pow h with ⟨hdvd, heq⟩ | ⟨hle, hdvd, heq⟩
  · rw [heq, Nat.min_eq_right (by omega)]
    exact ⟨(Nat.dvd_add_self_right).2 h, hdvd, disjoint_halves b o, block_succ b o⟩
  · rw [heq, Nat.min_eq_left (by omega)]
    obtain ⟨c, hc⟩ : ∃ c, b = c + 2 ^ o := ⟨b - 2 ^ o, by omega⟩
    subst hc
    rw [Nat.add_sub_cancel] at hdvd ⊢
    refine ⟨Dvd.dvd.trans (pow_dvd_pow 2 (by omega)) hdvd, hdvd, (disjoint_halves c o).symm, ?_⟩
    rw [block_succ, Set.union_comm]

/-! ## Tilings -/

/-- The blocks on the lists tile the set `S`: aligned, of order at most `top`,
pairwise disjoint, and together `S`. -/
structure Tiles (free : ℕ → List ℕ) (top : ℕ) (S : Set ℕ) : Prop where
  order_le : ∀ o, ∀ b ∈ free o, o ≤ top
  aligned : ∀ o, ∀ b ∈ free o, 2 ^ o ∣ b
  nodup : ∀ o, (free o).Nodup
  disjoint : ∀ o b o' b', b ∈ free o → b' ∈ free o' → (o, b) ≠ (o', b') →
    Disjoint (block b o) (block b' o')
  covers : ∀ p, p ∈ S ↔ ∃ o, ∃ b ∈ free o, p ∈ block b o

theorem tiles_empty (top : ℕ) : Tiles (fun _ => []) top ∅ where
  order_le := by simp
  aligned := by simp
  nodup := by simp
  disjoint := by simp
  covers := by simp

section Tiles

variable {free : ℕ → List ℕ} {top : ℕ} {S : Set ℕ}

variable {o b : ℕ}

theorem Tiles.subset (h : Tiles free top S) (hb : b ∈ free o) : block b o ⊆ S :=
  fun p hp => (h.covers p).2 ⟨o, b, hb, hp⟩

theorem Tiles.push (h : Tiles free top S) (ho : o ≤ top) (hb : 2 ^ o ∣ b)
    (hnew : Disjoint (block b o) S) : Tiles (update free o (b :: free o)) top (S ∪ block b o) := by
  have hmem : ∀ o' b', b' ∈ update free o (b :: free o) o' ↔
      (o', b') = (o, b) ∨ b' ∈ free o' := by
    intro o' b'
    by_cases ho' : o' = o
    · simp [ho']
    · simp [ho']
  have hfresh : ∀ o' b', b' ∈ free o' → Disjoint (block b o) (block b' o') :=
    fun o' b' hb' => hnew.mono_right (h.subset hb')
  refine ⟨?_, ?_, ?_, ?_, ?_⟩
  · intro o' b' hb'
    rcases (hmem o' b').1 hb' with heq | hold
    · obtain ⟨rfl, rfl⟩ := Prod.mk.inj heq
      exact ho
    · exact h.order_le o' b' hold
  · intro o' b' hb'
    rcases (hmem o' b').1 hb' with heq | hold
    · obtain ⟨rfl, rfl⟩ := Prod.mk.inj heq
      exact hb
    · exact h.aligned o' b' hold
  · intro o'
    rw [update_apply]
    split
    · refine List.nodup_cons.2 ⟨fun hin => ?_, h.nodup o⟩
      exact Set.disjoint_left.1 (hfresh o b hin) (self_mem_block b o) (self_mem_block b o)
    · exact h.nodup o'
  · intro o1 b1 o2 b2 h1 h2 hne
    rcases (hmem o1 b1).1 h1 with heq1 | hold1 <;> rcases (hmem o2 b2).1 h2 with heq2 | hold2
    · exact absurd (heq1.trans heq2.symm) hne
    · obtain ⟨rfl, rfl⟩ := Prod.mk.inj heq1
      exact hfresh o2 b2 hold2
    · obtain ⟨rfl, rfl⟩ := Prod.mk.inj heq2
      exact (hfresh o1 b1 hold1).symm
    · exact h.disjoint o1 b1 o2 b2 hold1 hold2 hne
  · intro p
    rw [Set.mem_union, h.covers]
    constructor
    · rintro (⟨o', b', hb', hp⟩ | hp)
      · exact ⟨o', b', (hmem o' b').2 (Or.inr hb'), hp⟩
      · exact ⟨o, b, (hmem o b).2 (Or.inl rfl), hp⟩
    · rintro ⟨o', b', hb', hp⟩
      rcases (hmem o' b').1 hb' with heq | hold
      · obtain ⟨rfl, rfl⟩ := Prod.mk.inj heq
        exact Or.inr hp
      · exact Or.inl ⟨o', b', hold, hp⟩

theorem Tiles.erase (h : Tiles free top S) (hb : b ∈ free o) :
    Tiles (update free o ((free o).erase b)) top (S \ block b o) := by
  have hmem : ∀ o' b', b' ∈ update free o ((free o).erase b) o' ↔
      b' ∈ free o' ∧ (o', b') ≠ (o, b) := by
    intro o' b'
    rw [update_apply]
    by_cases ho' : o' = o
    · subst ho'
      rw [if_pos rfl, (h.nodup o').mem_erase_iff]
      simp [and_comm]
    · simp [ho']
  refine ⟨?_, ?_, ?_, ?_, ?_⟩
  · exact fun o' b' hb' => h.order_le o' b' ((hmem o' b').1 hb').1
  · exact fun o' b' hb' => h.aligned o' b' ((hmem o' b').1 hb').1
  · intro o'
    rw [update_apply]
    split
    · exact (h.nodup o).erase b
    · exact h.nodup o'
  · exact fun o1 b1 o2 b2 h1 h2 hne =>
      h.disjoint o1 b1 o2 b2 ((hmem o1 b1).1 h1).1 ((hmem o2 b2).1 h2).1 hne
  · intro p
    rw [Set.mem_sdiff, h.covers]
    constructor
    · rintro ⟨⟨o', b', hb', hp⟩, hout⟩
      refine ⟨o', b', (hmem o' b').2 ⟨hb', fun heq => ?_⟩, hp⟩
      obtain ⟨rfl, rfl⟩ := Prod.mk.inj heq
      exact hout hp
    · rintro ⟨o', b', hb', hp⟩
      obtain ⟨hold, hne⟩ := (hmem o' b').1 hb'
      refine ⟨⟨o', b', hold, hp⟩, fun hin => ?_⟩
      exact Set.disjoint_left.1 (h.disjoint o' b' o b hold hb hne) hp hin

/-- The upper halves that are put back when the block of order `o + n` at `b` is cut
down to order `o`. -/
def splitDown (b o : ℕ) : ℕ → (ℕ → List ℕ) → ℕ → List ℕ
  | 0, free => free
  | n + 1, free =>
    splitDown b o n (update free (o + n) ((b + 2 ^ (o + n)) :: free (o + n)))

/-- Cutting a block down returns everything but its first `2 ^ o` numbers. -/
theorem Tiles.splitDown (h : Tiles free top S) {n : ℕ} (hle : o + n ≤ top)
    (hb : 2 ^ (o + n) ∣ b) (hout : Disjoint (block b (o + n)) S) :
    Tiles (splitDown b o n free) top (S ∪ (block b (o + n) \ block b o)) := by
  induction n generalizing free S with
  | zero => simpa [Lib.splitDown] using h
  | succ n ih =>
    have hhalf : 2 ^ (o + n) ∣ b := (pow_dvd_pow 2 (by omega)).trans hb
    have hsub : block b (o + (n + 1)) = block b (o + n) ∪ block (b + 2 ^ (o + n)) (o + n) :=
      block_succ b (o + n)
    rw [hsub, Set.disjoint_union_left] at hout
    have hpush := h.push (show o + n ≤ top by omega) ((Nat.dvd_add_self_right).2 hhalf) hout.2
    have hrest := ih hpush (by omega) hhalf
      (Set.disjoint_union_right.2 ⟨hout.1, disjoint_halves b (o + n)⟩)
    have hset : S ∪ block (b + 2 ^ (o + n)) (o + n) ∪ (block b (o + n) \ block b o)
        = S ∪ (block b (o + (n + 1)) \ block b o) := by
      have hfar : Disjoint (block (b + 2 ^ (o + n)) (o + n)) (block b o) := by
        rw [Set.disjoint_left]
        intro p h1 h2
        have hpow : 2 ^ o ≤ 2 ^ (o + n) := Nat.pow_le_pow_right (by omega) (by omega)
        simp only [mem_block] at h1 h2
        omega
      rw [hsub, Set.union_sdiff_distrib, hfar.sdiff_eq_left, Set.union_assoc,
        Set.union_comm (block (b + 2 ^ (o + n)) (o + n))]
    rw [← hset]
    exact hrest

end Tiles

end CosmoRT.Lib
