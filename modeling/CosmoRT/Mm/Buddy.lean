import CosmoRT.Lib.Bitmap
import CosmoRT.Lib.Run
import CosmoRT.Lib.Tiling

/-!
# The buddy allocator of `page_alloc.c`

Free blocks of `2 ^ o` pages hang on one list per order; a bitmap has a bit per
page frame, set while the page is allocated.  `buddy_alloc_order` takes the first
block of the smallest order that has one and puts the upper halves back;
`buddy_free_order` merges a block with its buddy as long as the bitmap shows the
buddy free and its list has it.  A block is named by its first page frame number.

* `buddy_sound` — over every run, from any disjoint regions.
-/

namespace CosmoRT.Mm

open Lib List Function

/-- `MAX_ORDER`. -/
abbrev maxOrder : ℕ := 9

/-- The state of the allocator. -/
structure Buddy where
  /-- The blocks of each order, by page frame number, in list order. -/
  freeLists : ℕ → List ℕ
  bitmap : List (BitVec 64)
  maxPfn : ℕ
  totalPages : ℕ
  allocCount : ℕ

/-- The page frame numbers of a block, as the loops over its pages visit them. -/
def pfns (pfn order : ℕ) : List ℕ := List.range' pfn (2 ^ order)

/-- `buddy_alloc_order`: the first page of the block, or `none` when every list
from the order on is empty. -/
def buddyAllocOrder (bd : Buddy) (order : ℕ) : Option ℕ × Buddy :=
  match (List.range' order (maxOrder + 1 - order)).find? (fun o => !(bd.freeLists o).isEmpty) with
  | none => (none, bd)
  | some o =>
    match bd.freeLists o with
    | [] => (none, bd)
    | pfn :: rest =>
      -- split down to the requested order
      (some pfn, { bd with
        freeLists := splitDown pfn order (o - order) (update bd.freeLists o rest)
        bitmap := setAll (pfns pfn order) bd.bitmap
        allocCount := bd.allocCount + 2 ^ order })

/-- The merge loop of `buddy_free_order`, at most `fuel = MAX_ORDER - order` rounds:
the lists without the merged buddies, and the block that is left to be linked. -/
def mergeUp (maxPfn : ℕ) (bitmap : List (BitVec 64)) :
    ℕ → (ℕ → List ℕ) → ℕ → ℕ → (ℕ → List ℕ) × ℕ × ℕ
  | 0, lists, pfn, order => (lists, pfn, order)
  | fuel + 1, lists, pfn, order =>
    let buddyPfn := pfn ^^^ 2 ^ order
    if buddyPfn + 2 ^ order > maxPfn then (lists, pfn, order)
    else if (pfns buddyPfn order).any (bit bitmap) then (lists, pfn, order)
    else if buddyPfn ∈ lists order then
      mergeUp maxPfn bitmap fuel (update lists order ((lists order).erase buddyPfn))
        (min buddyPfn pfn) (order + 1)
    else (lists, pfn, order)

/-- `buddy_free_order`. -/
def buddyFreeOrder (bd : Buddy) (pfn order : ℕ) : Buddy :=
  -- the double-free guard
  if bit bd.bitmap pfn = false then bd
  else
    let bitmap := clearUnless (fun _ => false) (pfns pfn order) bd.bitmap
    let r := mergeUp bd.maxPfn bitmap (maxOrder - order) bd.freeLists pfn order
    { bd with
      freeLists := update r.1 r.2.2 (r.2.1 :: r.1 r.2.2)
      bitmap := bitmap
      allocCount := bd.allocCount - 2 ^ order }

/-- The order `add_region` finds for a block at `addr`: as large as alignment and
the end of the region allow. -/
def regionOrder (addr fin : ℕ) : ℕ → ℕ → ℕ
  | 0, order => order
  | fuel + 1, order =>
    if addr % 2 ^ (order + 1) ≠ 0 then order
    else if addr + 2 ^ (order + 1) > fin then order
    else regionOrder addr fin fuel (order + 1)

/-- The loop of `add_region`, from page `addr` to page `fin`. -/
def addBlocks (fin : ℕ) : ℕ → Buddy → ℕ → Buddy
  | 0, bd, _ => bd
  | fuel + 1, bd, addr =>
    if addr < fin then
      let order := regionOrder addr fin maxOrder 0
      addBlocks fin fuel
        { bd with freeLists := update bd.freeLists order (addr :: bd.freeLists order)
                  totalPages := bd.totalPages + 2 ^ order } (addr + 2 ^ order)
    else bd

/-- The pages of a byte range: the start aligned up, the end aligned down. -/
def regionPages (r : ℕ × ℕ) : Set ℕ := Set.Ico ((r.1 + 4095) / 4096) (r.2 / 4096)

/-- `add_region(phys_start, phys_end)`. -/
def addRegion (bd : Buddy) (r : ℕ × ℕ) : Buddy :=
  let start := (r.1 + 4095) / 4096
  let fin := r.2 / 4096
  if fin ≤ start then bd else addBlocks fin (fin - start) bd start

/-! ## The three calls on the tiling -/

/-- The free pages according to the bitmap. -/
def clearPages (usable : Set ℕ) (bitmap : List (BitVec 64)) : Set ℕ :=
  {p | p ∈ usable ∧ bit bitmap p = false}

variable {pfn order : ℕ}

theorem mem_pfns {p : ℕ} : p ∈ pfns pfn order ↔ p ∈ block pfn order := by
  rw [pfns, mem_range'_1, mem_block]

variable {bd : Buddy} {usable : Set ℕ}

theorem allocOrder_spec (ht : Tiles bd.freeLists maxOrder (clearPages usable bd.bitmap))
    (hbits : ∀ p ∈ usable, p / 64 < bd.bitmap.length) {bd' : Buddy}
    (h : buddyAllocOrder bd order = (some pfn, bd')) :
    2 ^ order ∣ pfn ∧ block pfn order ⊆ clearPages usable bd.bitmap ∧
      Tiles bd'.freeLists maxOrder (clearPages usable bd'.bitmap) ∧
      bd'.bitmap.length = bd.bitmap.length ∧
      (∀ p, bit bd'.bitmap p = true ↔ p ∈ block pfn order ∨ bit bd.bitmap p = true) ∧
      bd'.allocCount = bd.allocCount + 2 ^ order := by
  rw [buddyAllocOrder] at h
  cases hfind : (range' order (maxOrder + 1 - order)).find?
      (fun o => !(bd.freeLists o).isEmpty) with
  | none => simp [hfind] at h
  | some o =>
    have ho := mem_range'_1.1 (mem_of_find?_eq_some hfind)
    simp only [hfind] at h
    cases hlist : bd.freeLists o with
    | nil => simp [hlist] at h
    | cons first rest =>
      simp only [hlist, Prod.mk.injEq, Option.some.injEq] at h
      obtain ⟨rfl, rfl⟩ := h
      have hmem : first ∈ bd.freeLists o := by rw [hlist]; exact mem_cons_self ..
      have hblock := ht.subset hmem
      have haligned := ht.aligned o first hmem
      obtain ⟨n, rfl⟩ : ∃ n, o = order + n := ⟨o - order, by omega⟩
      have hpow : 2 ^ order ≤ 2 ^ (order + n) := Nat.pow_le_pow_right (by omega) (by omega)
      have hsub : block first order ⊆ block first (order + n) :=
        fun p hp => ⟨hp.1, lt_of_lt_of_le hp.2 (by omega)⟩
      have herase := ht.erase hmem
      rw [hlist] at herase
      have hsplit := herase.splitDown (o := order) (n := n) (by omega) haligned
        Set.disjoint_sdiff_right
      have hbit : ∀ p, bit (setAll (pfns first order) bd.bitmap) p = true ↔
          p ∈ block first order ∨ bit bd.bitmap p = true := by
        intro p
        rw [bit_setAll, mem_pfns]
        exact fun i hi => hbits i (hblock (hsub (mem_pfns.1 hi))).1
      refine ⟨(pow_dvd_pow 2 (by omega)).trans haligned, hsub.trans hblock, ?_, by simp, hbit, rfl⟩
      have hset : clearPages usable (setAll (pfns first order) bd.bitmap)
          = clearPages usable bd.bitmap \ block first (order + n) ∪
            (block first (order + n) \ block first order) := by
        ext p
        have hp := hbit p
        have hin : p ∈ block first (order + n) → p ∈ clearPages usable bd.bitmap :=
          fun hp => hblock hp
        simp only [clearPages, Set.mem_ofPred_eq, Set.mem_union, Set.mem_sdiff,
          ← Bool.not_eq_true] at hp hin ⊢
        tauto
      rw [hset]
      simpa using hsplit

variable {S : Set ℕ}

/-- The merge loop gives up buddies from the lists and hands them over with the
block: block and lists together stay the same pages.  The induction is on the
rounds; the bitmap only decides how many there are. -/
theorem mergeUp_spec (maxPfn : ℕ) (bitmap : List (BitVec 64)) (fuel : ℕ) {lists : ℕ → List ℕ}
    (ht : Tiles lists maxOrder S) (hfuel : order + fuel ≤ maxOrder)
    (haligned : 2 ^ order ∣ pfn) (hout : Disjoint (block pfn order) S) :
    ∃ S', Tiles (mergeUp maxPfn bitmap fuel lists pfn order).1 maxOrder S' ∧
      (mergeUp maxPfn bitmap fuel lists pfn order).2.2 ≤ maxOrder ∧
      2 ^ (mergeUp maxPfn bitmap fuel lists pfn order).2.2 ∣
        (mergeUp maxPfn bitmap fuel lists pfn order).2.1 ∧
      Disjoint (block (mergeUp maxPfn bitmap fuel lists pfn order).2.1
        (mergeUp maxPfn bitmap fuel lists pfn order).2.2) S' ∧
      S' ∪ block (mergeUp maxPfn bitmap fuel lists pfn order).2.1
        (mergeUp maxPfn bitmap fuel lists pfn order).2.2 = S ∪ block pfn order := by
  have hstop : ∃ S', Tiles lists maxOrder S' ∧ order ≤ maxOrder ∧ 2 ^ order ∣ pfn ∧
      Disjoint (block pfn order) S' ∧ S' ∪ block pfn order = S ∪ block pfn order :=
    ⟨S, ht, by omega, haligned, hout, rfl⟩
  induction fuel generalizing lists S pfn order with
  | zero => exact hstop
  | succ fuel ih =>
    rw [mergeUp]
    split_ifs with hmax hany hmem
    · exact hstop
    · exact hstop
    · obtain ⟨-, hmin, hdisj, hunion⟩ := buddy_spec haligned
      have hbuddy := ht.subset hmem
      have hout' : Disjoint (block (min (pfn ^^^ 2 ^ order) pfn) (order + 1))
          (S \ block (pfn ^^^ 2 ^ order) order) := by
        rw [hunion, Set.disjoint_union_left]
        exact ⟨hout.mono_right Set.sdiff_subset, Set.disjoint_sdiff_right⟩
      have ht' := ht.erase hmem
      obtain ⟨S', h1, h2, h3, h4, h5⟩ := ih ht' (by omega) hmin hout'
        ⟨_, ht', by omega, hmin, hout', rfl⟩
      refine ⟨S', h1, h2, h3, h4, h5.trans ?_⟩
      rw [hunion, Set.union_comm (block pfn order), ← Set.union_assoc,
        Set.sdiff_union_of_subset hbuddy]
    · exact hstop

theorem freeOrder_spec (ht : Tiles bd.freeLists maxOrder (clearPages usable bd.bitmap))
    (horder : order ≤ maxOrder) (haligned : 2 ^ order ∣ pfn)
    (hheld : ∀ p ∈ block pfn order, p ∈ usable ∧ bit bd.bitmap p = true) :
    Tiles (buddyFreeOrder bd pfn order).freeLists maxOrder
        (clearPages usable (buddyFreeOrder bd pfn order).bitmap) ∧
      (buddyFreeOrder bd pfn order).bitmap.length = bd.bitmap.length ∧
      (∀ p, bit (buddyFreeOrder bd pfn order).bitmap p = true ↔
        bit bd.bitmap p = true ∧ p ∉ block pfn order) ∧
      (buddyFreeOrder bd pfn order).allocCount = bd.allocCount - 2 ^ order := by
  have hset : bit bd.bitmap pfn = true := (hheld pfn (self_mem_block pfn order)).2
  have hguard : ¬ bit bd.bitmap pfn = false := by simp [hset]
  have hbit : ∀ p, bit (clearUnless (fun _ => false) (pfns pfn order) bd.bitmap) p = true ↔
      bit bd.bitmap p = true ∧ p ∉ block pfn order := by
    intro p
    rw [bit_clearUnless, mem_pfns]
    simp
  have hout : Disjoint (block pfn order) (clearPages usable bd.bitmap) := by
    rw [Set.disjoint_left]
    intro p hp hclear
    have := (hheld p hp).2
    simp [hclear.2] at this
  obtain ⟨S', h1, h2, h3, h4, h5⟩ := mergeUp_spec bd.maxPfn
    (clearUnless (fun _ => false) (pfns pfn order) bd.bitmap) (maxOrder - order) ht (by omega)
    haligned hout
  rw [buddyFreeOrder, if_neg hguard]
  refine ⟨?_, by simp, hbit, rfl⟩
  have hpages : clearPages usable (clearUnless (fun _ => false) (pfns pfn order) bd.bitmap)
      = clearPages usable bd.bitmap ∪ block pfn order := by
    ext p
    have hp := hbit p
    have hin := hheld p
    simp only [clearPages, Set.mem_ofPred_eq, Set.mem_union, ← Bool.not_eq_true] at hp hin ⊢
    tauto
  rw [hpages, ← h5]
  exact h1.push h2 h3 h4

theorem regionOrder_spec (addr fin fuel order : ℕ) (haligned : 2 ^ order ∣ addr)
    (hfit : addr + 2 ^ order ≤ fin) :
    2 ^ regionOrder addr fin fuel order ∣ addr ∧ addr + 2 ^ regionOrder addr fin fuel order ≤ fin ∧
      regionOrder addr fin fuel order ≤ order + fuel := by
  induction fuel generalizing order with
  | zero => exact ⟨haligned, hfit, le_refl _⟩
  | succ fuel ih =>
    rw [regionOrder]
    split_ifs with hmod hend
    · exact ⟨haligned, hfit, by omega⟩
    · exact ⟨haligned, hfit, by omega⟩
    · obtain ⟨h1, h2, h3⟩ := ih (order + 1) (Nat.dvd_of_mod_eq_zero (by omega)) (by omega)
      exact ⟨h1, h2, by omega⟩

theorem addBlocks_spec (fin fuel : ℕ) {addr : ℕ}
    (ht : Tiles bd.freeLists maxOrder S) (hle : addr ≤ fin) (hfuel : fin - addr ≤ fuel)
    (hout : Disjoint (Set.Ico addr fin) S) :
    Tiles (addBlocks fin fuel bd addr).freeLists maxOrder (S ∪ Set.Ico addr fin) ∧
      (addBlocks fin fuel bd addr).bitmap = bd.bitmap ∧
      (addBlocks fin fuel bd addr).allocCount = bd.allocCount := by
  induction fuel generalizing bd S addr with
  | zero =>
    obtain rfl : addr = fin := by omega
    simpa [addBlocks] using ht
  | succ fuel ih =>
    rw [addBlocks]
    split
    case isTrue hlt =>
      obtain ⟨h1, h2, h3⟩ := regionOrder_spec addr fin maxOrder 0 (by simp) (by omega)
      set o := regionOrder addr fin maxOrder 0 with ho
      have hsplit : Set.Ico addr fin = block addr o ∪ Set.Ico (addr + 2 ^ o) fin :=
        (Set.Ico_union_Ico_eq_Ico (by omega) h2).symm
      rw [hsplit, Set.disjoint_union_left] at hout
      have hpush := ht.push (by omega) h1 hout.1
      have hnext : Disjoint (Set.Ico (addr + 2 ^ o) fin) (S ∪ block addr o) := by
        rw [Set.disjoint_union_right]
        refine ⟨hout.2, Set.disjoint_left.2 fun p hp hp' => ?_⟩
        rw [mem_block] at hp'
        rw [Set.mem_Ico] at hp
        omega
      obtain ⟨ht', hb', hc'⟩ := @ih { bd with
        freeLists := update bd.freeLists o (addr :: bd.freeLists o)
        totalPages := bd.totalPages + 2 ^ o } _ _ hpush h2 (by omega) hnext
      refine ⟨?_, hb', hc'⟩
      rw [hsplit, ← Set.union_assoc]
      exact ht'
    case isFalse hge =>
      obtain rfl : addr = fin := by omega
      simpa using ht

theorem addRegion_spec {r : ℕ × ℕ}
    (ht : Tiles bd.freeLists maxOrder S) (hout : Disjoint (regionPages r) S) :
    Tiles (addRegion bd r).freeLists maxOrder (S ∪ regionPages r) ∧
      (addRegion bd r).bitmap = bd.bitmap ∧ (addRegion bd r).allocCount = bd.allocCount := by
  rw [addRegion]
  split
  case isTrue hle =>
    rw [regionPages, Set.Ico_eq_empty (by omega), Set.union_empty]
    exact ⟨ht, rfl, rfl⟩
  case isFalse hlt => exact addBlocks_spec _ _ ht (by omega) (le_refl _) hout

/-! ## Whole runs -/

/-- The allocator with the pages that were handed out and not given back. -/
structure BuddyRun where
  buddy : Buddy
  held : Finset ℕ

/-- The pages of a block. -/
def blockPages (pfn order : ℕ) : Finset ℕ := Finset.Ico pfn (pfn + 2 ^ order)

/-- The calls of the allocator. -/
inductive BuddyOp where
  | alloc (order : ℕ)
  | free (pfn order : ℕ)
  deriving DecidableEq, Repr

/-- The state after a call. -/
def buddyNext (s : BuddyRun) : BuddyOp → BuddyRun
  | .alloc order =>
    let r := buddyAllocOrder s.buddy order
    ⟨r.2, match r.1 with | some pfn => s.held ∪ blockPages pfn order | none => s.held⟩
  | .free pfn order => ⟨buddyFreeOrder s.buddy pfn order, s.held \ blockPages pfn order⟩

/-- What may be freed: an aligned block all of whose pages are held.  A block that
was handed out is one, and so is every aligned part of it that was not freed
yet. -/
def BuddyOpOk (s : BuddyRun) : BuddyOp → Prop
  | .alloc _ => True
  | .free pfn order => order ≤ maxOrder ∧ 2 ^ order ∣ pfn ∧ blockPages pfn order ⊆ s.held

section

variable (bitmap : List (BitVec 64)) (maxPfn : ℕ) (regions : List (ℕ × ℕ))

/-- The allocator after `add_region` of every region, over an initialised bitmap. -/
def buddyStart : BuddyRun :=
  ⟨regions.foldl addRegion ⟨fun _ => [], bitmap, maxPfn, 0, 0⟩, ∅⟩

/-- The pages of all regions. -/
def usablePages (regions : List (ℕ × ℕ)) : Set ℕ := {p | ∃ r ∈ regions, p ∈ regionPages r}

/-- The invariant: the lists tile the usable pages whose bit is clear, and the held
pages are the usable ones whose bit is set. -/
structure BuddyInv (usable : Set ℕ) (s : BuddyRun) : Prop where
  tiles : Tiles s.buddy.freeLists maxOrder (clearPages usable s.buddy.bitmap)
  bits : ∀ p ∈ usable, p / 64 < s.buddy.bitmap.length
  held : ∀ p, p ∈ s.held ↔ p ∈ usable ∧ bit s.buddy.bitmap p = true
  count : s.buddy.allocCount = s.held.card

theorem mem_blockPages {p : ℕ} : p ∈ blockPages pfn order ↔ p ∈ block pfn order := by
  rw [blockPages, Finset.mem_Ico, mem_block]

theorem card_blockPages (pfn order : ℕ) : (blockPages pfn order).card = 2 ^ order := by
  simp [blockPages]

theorem buddyInv_next (s : BuddyRun) (op : BuddyOp) (h : BuddyInv usable s)
    (hok : BuddyOpOk s op) : BuddyInv usable (buddyNext s op) := by
  cases op with
  | alloc order =>
    set r := buddyAllocOrder s.buddy order with hr
    obtain ⟨res, bd'⟩ := r
    cases res with
    | none =>
      have hsame : bd' = s.buddy := by
        rw [buddyAllocOrder] at hr
        split at hr
        · simp_all
        · split at hr <;> simp_all
      simp only [buddyNext, ← hr, hsame]
      exact h
    | some pfn =>
      obtain ⟨-, hsub, htiles, hlen, hbit, hcount⟩ := allocOrder_spec h.tiles h.bits hr.symm
      have hfresh : Disjoint s.held (blockPages pfn order) := by
        rw [Finset.disjoint_left]
        intro p hp hp'
        have := (hsub (mem_blockPages.1 hp')).2
        simp [((h.held p).1 hp).2] at this
      simp only [buddyNext, ← hr]
      refine ⟨htiles, fun p hp => by rw [hlen]; exact h.bits p hp, fun p => ?_, ?_⟩
      · rw [Finset.mem_union, h.held, mem_blockPages, hbit]
        have := @hsub p
        simp only [clearPages, Set.mem_ofPred_eq] at this
        tauto
      · rw [Finset.card_union_of_disjoint hfresh, card_blockPages, hcount, h.count]
  | free pfn order =>
    obtain ⟨horder, haligned, hsub⟩ := hok
    obtain ⟨htiles, hlen, hbit, hcount⟩ := freeOrder_spec h.tiles horder haligned
      fun p hp => (h.held p).1 (hsub (mem_blockPages.2 hp))
    simp only [buddyNext]
    refine ⟨htiles, fun p hp => by rw [hlen]; exact h.bits p hp, fun p => ?_, ?_⟩
    · rw [Finset.mem_sdiff, h.held, mem_blockPages, hbit]
      tauto
    · rw [Finset.card_sdiff_of_subset hsub, card_blockPages, hcount, h.count]

theorem tiles_regions (regions : List (ℕ × ℕ)) (ht : Tiles bd.freeLists maxOrder S)
    (hpair : regions.Pairwise fun r r' => Disjoint (regionPages r) (regionPages r'))
    (hout : ∀ r ∈ regions, Disjoint (regionPages r) S) :
    Tiles (regions.foldl addRegion bd).freeLists maxOrder (S ∪ usablePages regions) ∧
      (regions.foldl addRegion bd).bitmap = bd.bitmap ∧
      (regions.foldl addRegion bd).allocCount = bd.allocCount := by
  induction regions generalizing bd S with
  | nil =>
    have hnone : usablePages [] = ∅ := by
      ext p
      simp [usablePages]
    rw [hnone, Set.union_empty]
    exact ⟨ht, rfl, rfl⟩
  | cons r rs ih =>
    obtain ⟨hfirst, hrest⟩ := pairwise_cons.1 hpair
    obtain ⟨ht', hb', hc'⟩ := addRegion_spec ht (hout r (mem_cons_self ..))
    obtain ⟨ht'', hb'', hc''⟩ := ih ht' hrest fun r' hr' =>
      Set.disjoint_union_right.2 ⟨hout r' (mem_cons_of_mem _ hr'), (hfirst r' hr').symm⟩
    rw [foldl_cons, hb'', hc'', hb', hc']
    refine ⟨?_, rfl, rfl⟩
    have hset : usablePages (r :: rs) = regionPages r ∪ usablePages rs := by
      ext p
      simp [usablePages]
    rw [hset, ← Set.union_assoc]
    exact ht''

/-- What the allocator promises in every state. -/
structure BuddyPromise (usable : Set ℕ) (s : BuddyRun) : Prop where
  aligned : ∀ o, ∀ b ∈ s.buddy.freeLists o, 2 ^ o ∣ b
  disjoint : ∀ o b o' b', b ∈ s.buddy.freeLists o → b' ∈ s.buddy.freeLists o' →
    (o, b) ≠ (o', b') → Disjoint (block b o) (block b' o')
  nodup : ∀ o, (s.buddy.freeLists o).Nodup
  exact : ∀ p, (∃ o, ∃ b ∈ s.buddy.freeLists o, p ∈ block b o) ↔
    p ∈ usable ∧ bit s.buddy.bitmap p = false
  count : s.buddy.allocCount = s.held.card
  alloc : ∀ order pfn, (buddyAllocOrder s.buddy order).1 = some pfn →
    2 ^ order ∣ pfn ∧ Disjoint (blockPages pfn order) s.held ∧
      (buddyNext s (.alloc order)).held = s.held ∪ blockPages pfn order

theorem BuddyInv.promise {s : BuddyRun} (h : BuddyInv usable s) : BuddyPromise usable s where
  aligned := h.tiles.aligned
  disjoint := h.tiles.disjoint
  nodup := h.tiles.nodup
  exact p := (h.tiles.covers p).symm
  count := h.count
  alloc order pfn hret := by
    obtain ⟨bd', hbd⟩ : ∃ bd', buddyAllocOrder s.buddy order = (some pfn, bd') :=
      ⟨_, Prod.ext hret rfl⟩
    obtain ⟨haligned, hsub, -⟩ := allocOrder_spec h.tiles h.bits hbd
    refine ⟨haligned, Finset.disjoint_left.2 fun p hp hheld => ?_, by simp only [buddyNext, hbd]⟩
    have := (hsub (mem_blockPages.1 hp)).2
    simp [((h.held p).1 hheld).2] at this

theorem buddyInv_start
    (hpair : regions.Pairwise fun r r' => Disjoint (regionPages r) (regionPages r'))
    (hclear : ∀ r ∈ regions, ∀ p ∈ regionPages r, p / 64 < bitmap.length ∧ bit bitmap p = false) :
    BuddyInv (usablePages regions) (buddyStart bitmap maxPfn regions) := by
  obtain ⟨ht, hb, hc⟩ := @tiles_regions ⟨fun _ => [], bitmap, maxPfn, 0, 0⟩ ∅ regions
    (tiles_empty maxOrder) hpair (by simp)
  rw [Set.empty_union] at ht
  refine ⟨?_, ?_, ?_, hc⟩
  · have hset : clearPages (usablePages regions) (buddyStart bitmap maxPfn regions).buddy.bitmap
        = usablePages regions := by
      ext p
      rw [buddyStart, hb]
      refine ⟨fun hp => hp.1, fun hp => ⟨hp, ?_⟩⟩
      obtain ⟨r, hr, hpr⟩ := hp
      exact (hclear r hr p hpr).2
    rw [hset]
    exact ht
  · rintro p ⟨r, hr, hp⟩
    rw [buddyStart, hb]
    exact (hclear r hr p hp).1
  · intro p
    rw [buddyStart, hb]
    simp only [Finset.notMem_empty, false_iff]
    rintro ⟨⟨r, hr, hp⟩, hset⟩
    simp [(hclear r hr p hp).2] at hset

end

/-- **The buddy allocator is sound.**  From the free lists that `add_region` makes of
pairwise disjoint regions whose bits are clear, in every state that a run of
allocations and of frees of held blocks reaches: the blocks on the lists are
aligned and pairwise disjoint and are exactly the usable pages whose bit is clear,
`alloc_count` is the number of held pages, and an allocation returns an aligned
block of the requested order that meets no held page. -/
theorem buddy_sound (bitmap : List (BitVec 64)) (maxPfn : ℕ) (regions : List (ℕ × ℕ))
    (hpair : regions.Pairwise fun r r' => Disjoint (regionPages r) (regionPages r'))
    (hclear : ∀ r ∈ regions, ∀ p ∈ regionPages r, p / 64 < bitmap.length ∧ bit bitmap p = false)
    (ops : List BuddyOp) (hok : Along buddyNext BuddyOpOk (buddyStart bitmap maxPfn regions) ops) :
    BuddyPromise (usablePages regions)
      (run buddyNext (buddyStart bitmap maxPfn regions) ops) := by
  have h0 := buddyInv_start bitmap maxPfn regions hpair hclear
  exact (run_invariant buddyInv_next h0 hok).promise

/-- A region of 64 pages, a block of two pages taken from it, and its first page
given back alone. -/
theorem buddy_sound_piecewise :
    BuddyPromise (usablePages [(0, 262144)])
      (run buddyNext (buddyStart [0] 64 [(0, 262144)]) [.alloc 1, .free 0 0]) := by
  refine buddy_sound [0] 64 [(0, 262144)] (pairwise_singleton _ _) ?_ [.alloc 1, .free 0 0]
    ⟨trivial, ⟨by decide, by decide, by decide⟩, trivial⟩
  intro r hr p hp
  obtain rfl := mem_singleton.1 hr
  have hlt : p < 64 := hp.2
  refine ⟨by simp; omega, ?_⟩
  simp [bit, show p / 64 = 0 by omega]

end CosmoRT.Mm
