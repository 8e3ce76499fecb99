import CosmoRT.Lib.Run
import CosmoRT.Proc.FdTable
import Mathlib.Data.List.GetD
import Mathlib.Logic.Function.Basic

/-!
# The descriptor table refines a finite map

What a descriptor table is for: a map from numbers to open entries that hands
out the lowest number not in use.  `fdMap` reads that map off a table;
`FdWf` says that the bitmap, the directory and `max_fd` agree with it.
-/

namespace CosmoRT.Proc

open Function Lib List FdTable

/-! ## The map of a table -/

/-- The open entries of a table, by descriptor. -/
def fdMap (fdt : FdTable) (fd : ℕ) : Option FdEntry :=
  (fdEntryAt fdt fd).filter (·.type ≠ .NONE)

/-- A table whose parts agree with its map. -/
structure FdWf (fdt : FdTable) : Prop where
  ceil : fdt.maxSlots ≤ fdCeiling
  dir : fdt.maxSlots ≤ fdt.dirCapacity * 170
  dirSmall : fdt.dirCapacity ≤ 16384
  words : fdt.freeBitmap.length = (fdt.maxSlots + 63) / 64
  free_iff : ∀ i, bit fdt.freeBitmap i = true ↔ i < fdt.maxSlots ∧ fdMap fdt i = none
  used_lt : ∀ i, fdMap fdt i ≠ none → i < fdt.maxSlots ∧ i < fdt.maxFd

theorem fdLeaf_eq (fdt : FdTable) (fd : ℕ) :
    fdLeaf fdt fd = fdt.entriesDir.getD (fd / 170) none := by
  rw [fdLeaf]
  split
  case isTrue h => rw [getD_eq_default _ _ h]
  case isFalse h => rfl

theorem fdMap_eq (fdt : FdTable) (fd : ℕ) :
    fdMap fdt fd = ((fdt.entriesDir.getD (fd / 170) none).map fun page =>
      leafEntry page fd).filter (·.type ≠ .NONE) := by
  rw [fdMap, fdEntryAt, fdLeaf_eq]

variable {a b : FdTable}

theorem fdMap_congr (h : a.entriesDir = b.entriesDir) : fdMap a = fdMap b := by
  funext fd
  rw [fdMap_eq, fdMap_eq, h]

variable {fdt : FdTable}

theorem fdGet_eq (h : FdWf fdt) (fd : ℕ) : fdGet fdt fd = fdMap fdt fd := by
  by_cases hlt : fd < fdt.maxSlots
  · have hint : ¬ ((fd : ℤ) < 0 ∨ (fd : ℤ) ≥ fdt.maxSlots) := by omega
    rw [fdGet, if_neg hint]
    rfl
  · have hint : (fd : ℤ) < 0 ∨ (fd : ℤ) ≥ fdt.maxSlots := by omega
    rw [fdGet, if_pos hint]
    by_contra hne
    exact hlt (h.used_lt fd (Ne.symm hne)).1

theorem fdGet_neg (fdt : FdTable) {fd : ℤ} (h : fd < 0) : fdGet fdt fd = none := by
  rw [fdGet, if_pos (.inl h)]

variable {fd : ℕ}

theorem fdMap_setEntry
    (hleaf : (fdt.entriesDir.getD (fd / 170) none).isSome) (e : FdEntry) (i : ℕ) :
    fdMap (setEntry fdt fd e) i
      = if i = fd then (some e).filter (·.type ≠ .NONE) else fdMap fdt i := by
  obtain ⟨page, hpage⟩ := Option.isSome_iff_exists.1 hleaf
  have hget : fdt.entriesDir[fd / 170]? = some (some page) := by
    cases hx : fdt.entriesDir[fd / 170]? with
    | none => simp [hx] at hpage
    | some x => simpa [hx] using hpage
  rw [fdMap_eq, fdMap_eq, setEntry]
  simp only [fdLeafPerPage, getD_eq_getElem?_getD, getElem?_modify]
  by_cases hdiv : fd / 170 = i / 170
  · rw [← hdiv, hget]
    by_cases hi : i = fd
    · subst hi
      simp [leafEntry]
    · have hmod : ¬ fd % 170 = i % 170 := by omega
      simp [hi, hmod, leafEntry]
  · have hi : ¬ i = fd := fun h => hdiv (by rw [h])
    simp [hdiv, hi]

theorem isSome_setEntry (fdt : FdTable) (fd k : ℕ) (e : FdEntry) :
    ((setEntry fdt fd e).entriesDir.getD k none).isSome = (fdt.entriesDir.getD k none).isSome := by
  rw [setEntry]
  simp only [getD_eq_getElem?_getD, getElem?_modify]
  cases fdt.entriesDir[k]? with
  | none => rfl
  | some page => by_cases hk : fd / fdLeafPerPage = k <;> simp [hk]

/-! ## Growth -/

/-- Between two tables that stand for the same map, the second with at least the
capacity of the first. -/
structure FdGrown (a b : FdTable) : Prop where
  wf : FdWf b
  map : fdMap b = fdMap a
  slots : a.maxSlots ≤ b.maxSlots

theorem FdGrown.refl (h : FdWf a) : FdGrown a a := ⟨h, rfl, le_refl _⟩

theorem FdGrown.trans {c : FdTable} (h : FdGrown a b) (h' : FdGrown b c) : FdGrown a c :=
  ⟨h'.wf, h'.map.trans h.map, le_trans h.slots h'.slots⟩

theorem fdDirPages_ok {leafSlots : ℕ} (h : leafSlots ≤ 16384) :
    pagesAllocOk (fdDirPages leafSlots) FdMem.ample.dir = true := by
  have hb : 0 < fdDirPages leafSlots ∧ fdDirPages leafSlots ≤ 512 := by
    set n := if (leafSlots * 8 + 4095) / 4096 < 1 then 1
      else (leafSlots * 8 + 4095) / 4096 with hn
    have hle : n ≤ 33 := by
      rw [hn]
      split <;> omega
    have hd := doubleUntil_bounds n 32 1
    rw [fdDirPages, ← hn]
    omega
  simp only [pagesAllocOk, FdMem.ample, Bool.and_true, Bool.and_eq_true, decide_eq_true_eq]
  omega

theorem fdBitmapPages_ok {slots : ℕ} (h : slots ≤ fdCeiling) :
    pagesAllocOk (fdBitmapPages (fdBitmapAllocSlots slots)) FdMem.ample.bitmap = true := by
  have hceil : fdCeiling = 1048576 := rfl
  have hb : 0 < fdBitmapPages (fdBitmapAllocSlots slots) ∧
      fdBitmapPages (fdBitmapAllocSlots slots) ≤ 512 := by
    rw [fdBitmapPages, fdBitmapAllocSlots]
    split <;> omega
  simp only [pagesAllocOk, FdMem.ample, Bool.and_true, Bool.and_eq_true, decide_eq_true_eq]
  omega

theorem getD_append_nulls (dir : List (Option FdLeaf)) (k i : ℕ) :
    (dir ++ replicate k none).getD i none = dir.getD i none := by
  simp only [getD_eq_getElem?_getD, getElem?_append, getElem?_replicate]
  split
  case isTrue h => rfl
  case isFalse h =>
    rw [getElem?_eq_none (by omega)]
    split <;> rfl

theorem fdDirGrow_spec (h : FdWf fdt) {need : ℕ} (hneed : need ≤ 6169) :
    ∃ t, fdDirGrow fdt need .ample = (.ok (), t) ∧ FdGrown fdt t ∧ need ≤ t.dirCapacity := by
  by_cases hle : need ≤ fdt.dirCapacity
  · exact ⟨fdt, by rw [fdDirGrow, if_pos hle], FdGrown.refl h, hle⟩
  set start := if fdt.dirCapacity ≠ 0 then fdt.dirCapacity else 1 with hstart
  have hstart1 : 1 ≤ start ∧ fdt.dirCapacity ≤ start := by
    rw [hstart]
    split <;> omega
  set cap := doubleUntil need 32 start with hcap
  have hneedcap : need ≤ cap := by
    exact le_doubleUntil (by omega)
  have hbounds := doubleUntil_bounds need 32 start
  have hsmall : cap ≤ 16384 := by
    split at hstart <;> omega
  set t : FdTable := { fdt with
      entriesDir := fdt.entriesDir ++ replicate (cap - fdt.dirCapacity) none } with ht
  have hrun : fdDirGrow fdt need .ample = (.ok (), t) := by
    simp only [fdDirGrow, hle, if_false, ← hstart, ← hcap, fdDirPages_ok hsmall,
      Bool.true_eq_false, ht]
  have hlen : t.dirCapacity = cap := by
    simp only [ht, dirCapacity, length_append, length_replicate] at hstart1 ⊢
    omega
  have hmap : fdMap t = fdMap fdt := by
    funext fd
    rw [fdMap_eq, fdMap_eq, getD_append_nulls]
  have hslots : t.maxSlots = fdt.maxSlots := by rw [ht]
  have hbits : t.freeBitmap = fdt.freeBitmap := by rw [ht]
  have hmax : t.maxFd = fdt.maxFd := by rw [ht]
  have hdir := h.dir
  refine ⟨t, hrun, ⟨⟨hslots ▸ h.ceil, by omega, by omega, ?_, ?_, ?_⟩, hmap, by omega⟩, by omega⟩
  · exact h.words
  · rw [hbits, hmap]
    exact h.free_iff
  · rw [hslots, hmap]
    exact h.used_lt

theorem fdBitmapGrow_spec (h : FdWf fdt) {newSlots : ℕ}
    (hceil : newSlots ≤ fdCeiling) (hdir : newSlots ≤ fdt.dirCapacity * 170) :
    ∃ t, fdBitmapGrow fdt newSlots .ample = (.ok (), t) ∧ FdGrown fdt t ∧
      newSlots ≤ t.maxSlots := by
  by_cases hle : newSlots ≤ fdt.maxSlots
  · exact ⟨fdt, by rw [fdBitmapGrow, if_pos hle], FdGrown.refl h, hle⟩
  set nb := clearUnless (fun _ => false)
      (range' newSlots (fdBitmapAllocSlots newSlots - newSlots))
      (clearUnless (bit fdt.freeBitmap) (range fdt.maxSlots)
        (replicate (fdBitmapAllocSlots newSlots / 64) (BitVec.allOnes 64))) with hnb
  -- a bit survives both loops exactly when its slot is new, or old and free
  have hbits : ∀ i, bit nb i = true ↔ i < newSlots ∧ fdMap fdt i = none := by
    intro i
    have hused := h.used_lt i
    rw [bit_clearUnless, bit_clearUnless, bit_replicate_allOnes, mem_range, mem_range', h.free_iff]
    simp only [fdBitmapAllocSlots, Bool.false_eq_true, imp_false]
    constructor
    · rintro ⟨⟨hlt, hold⟩, hslack⟩
      have hin : i < newSlots := by
        by_contra hge
        exact hslack ⟨i - newSlots, by omega, by omega⟩
      refine ⟨hin, ?_⟩
      by_cases hi : i < fdt.maxSlots
      · exact (hold hi).2
      · by_contra hne
        exact hi (hused hne).1
    · rintro ⟨hlt, hfree⟩
      refine ⟨⟨by omega, fun hi => ⟨hi, hfree⟩⟩, ?_⟩
      rintro ⟨k, hk, rfl⟩
      omega
  refine ⟨{ fdt with freeBitmap := nb, maxSlots := newSlots }, ?_,
    ⟨⟨hceil, hdir, h.dirSmall, ?_, hbits, fun i hi => ?_⟩, fdMap_congr rfl, by dsimp only; omega⟩,
    le_refl _⟩
  · simp [fdBitmapGrow, hle, fdBitmapPages_ok hceil, hnb]
  · simp only [hnb, length_clearUnless, length_replicate, fdBitmapAllocSlots]
    omega
  · obtain ⟨hlt, hmax⟩ := h.used_lt i hi
    exact ⟨by dsimp only; omega, hmax⟩

variable {minSlots minfd : ℕ} {src : FdEntry}

/-- What `fd_table_grow` asks for, first of the directory and then of the bitmap, and what ample
memory gives. -/
theorem fdTableGrow_parts (h : FdWf fdt) (hmin : minSlots ≤ fdCeiling) :
    ∃ need n t t', fdDirGrow fdt need .ample = (.ok (), t) ∧
      fdBitmapGrow t n .ample = (.ok (), t') ∧ FdGrown fdt t ∧ FdGrown t t' ∧
      minSlots ≤ t'.maxSlots ∧ ∀ mem u,
        (∀ e, fdDirGrow fdt need mem = (.error e, u) →
          fdTableGrow fdt minSlots mem = (.error e, u)) ∧
        (fdDirGrow fdt need mem = (.ok (), u) →
          fdTableGrow fdt minSlots mem = fdBitmapGrow u n mem) := by
  set d := doubleUntil minSlots 32
      (if fdt.maxSlots ≠ 0 then fdt.maxSlots else fdInitSlots) with hd
  have hconst : fdCeiling = 1048576 ∧ fdInitSlots = 64 ∧ fdLeafPerPage = 170 := ⟨rfl, rfl, rfl⟩
  have hle : minSlots ≤ d := by
    refine le_doubleUntil ?_
    split <;> omega
  set n := min (fdRoundSlots (min d fdCeiling)) fdCeiling with hn
  have hnceil : n ≤ fdCeiling := Nat.min_le_right _ _
  have hnmin : minSlots ≤ n := by
    rw [fdRoundSlots, hconst.2.2] at hn
    omega
  have hneed : (n + fdLeafPerPage - 1) / fdLeafPerPage ≤ 6169 := by
    rw [hconst.2.2]
    omega
  obtain ⟨t, ht, hgrown, hcap⟩ := fdDirGrow_spec h hneed
  have hdir : n ≤ t.dirCapacity * 170 := by
    rw [hconst.2.2] at hcap
    omega
  obtain ⟨t', ht', hgrown', hslots⟩ := fdBitmapGrow_spec hgrown.wf hnceil hdir
  refine ⟨_, n, t, t', ht, ht', hgrown, hgrown', le_trans hnmin hslots, fun mem u => ?_⟩
  have hnot : ¬ min d fdCeiling < minSlots := by omega
  rw [fdTableGrow, if_neg (by omega), ← hd]
  simp only [hnot, if_false, ← hn]
  exact ⟨fun e hu => by rw [hu], fun hu => by rw [hu]⟩

theorem fdTableGrow_spec (h : FdWf fdt) (hmin : minSlots ≤ fdCeiling) :
    ∃ t, fdTableGrow fdt minSlots .ample = (.ok (), t) ∧ FdGrown fdt t ∧
      minSlots ≤ t.maxSlots := by
  obtain ⟨need, n, t, t', ht, ht', hgrown, hgrown', hslots, hcall⟩ := fdTableGrow_parts h hmin
  exact ⟨t', ((hcall .ample t).2 ht).trans ht', hgrown.trans hgrown', hslots⟩

/-! ## The search -/

/-- `fd` is the lowest number from `lo` on and below `hi` that the map leaves out. -/
def Lowest (m : ℕ → Option FdEntry) (lo hi fd : ℕ) : Prop :=
  lo ≤ fd ∧ fd < hi ∧ m fd = none ∧ ∀ i, lo ≤ i → i < fd → m i ≠ none

/-- The map leaves out no number from `lo` on and below `hi`. -/
def Full (m : ℕ → Option FdEntry) (lo hi : ℕ) : Prop := ∀ i, lo ≤ i → i < hi → m i ≠ none

theorem fdFindFree_spec (h : FdWf fdt) (minfd : ℕ) :
    (∀ fd, fdFindFree fdt minfd = some fd → Lowest (fdMap fdt) minfd fdt.maxSlots fd) ∧
      (fdFindFree fdt minfd = none → Full (fdMap fdt) minfd fdt.maxSlots) := by
  by_cases hmin : minfd ≥ fdt.maxSlots
  · rw [fdFindFree, if_pos hmin]
    exact ⟨by simp, fun _ i h1 h2 => absurd h2 (by omega)⟩
  set w := fdt.freeBitmap.getD (minfd / 64) 0 &&&
      (BitVec.allOnes 64 <<< (minfd % 64)) with hw
  have hwbits : ∀ k < 64, w.getLsbD k
      = (decide (minfd ≤ minfd / 64 * 64 + k) && bit fdt.freeBitmap (minfd / 64 * 64 + k)) := by
    intro k hk
    have hdiv : (minfd / 64 * 64 + k) / 64 = minfd / 64 := by omega
    have hmod : (minfd / 64 * 64 + k) % 64 = k := by omega
    rw [bit, hdiv, hmod, BitVec.getLsbD_and, BitVec.getLsbD_shiftLeft, BitVec.getLsbD_allOnes,
      Bool.and_comm]
    congr 1
    by_cases hlt : k < minfd % 64
    · simp [hlt, hk]
      omega
    · simp [hlt, hk]
      omega
  obtain ⟨hsome, hnone⟩ := scanWords_spec fdt.freeBitmap
    (fdBitmapAllocSlots fdt.maxSlots / 64 - minfd / 64) (minfd / 64) minfd w (by omega) hwbits
  -- in the table's range a clear bit is a used slot
  have hused : ∀ i < fdt.maxSlots, bit fdt.freeBitmap i = false → fdMap fdt i ≠ none := by
    intro i hi hb hfree
    have := (h.free_iff i).2 ⟨hi, hfree⟩
    simp [hb] at this
  simp only [fdFindFree, hmin, if_false, ← hw]
  cases hscan : scanWords fdt.freeBitmap
      (fdBitmapAllocSlots fdt.maxSlots / 64 - minfd / 64) (minfd / 64) w with
  | none =>
    refine ⟨by simp, fun _ i h1 h2 => hused i h2 (hnone hscan i h1 (by omega) ?_)⟩
    rw [fdBitmapAllocSlots]
    omega
  | some fd =>
    obtain ⟨hle, hbit, hbefore⟩ := hsome fd hscan
    obtain ⟨hlt, hfree⟩ := (h.free_iff fd).1 hbit
    simp only [hlt, if_true, Option.some.injEq, reduceCtorEq, false_imp_iff, and_true]
    rintro _ rfl
    exact ⟨hle, hlt, hfree, fun i h1 h2 => hused i (by omega) (hbefore i h1 (by omega) h2)⟩

variable {want nofile : ℕ}

theorem fdEnsureCapacity_spec (h : FdWf fdt)
    (hlim : nofile ≤ fdCeiling) (hwant : fdt.maxSlots < want) :
    (nofile ≤ fdt.maxSlots → fdEnsureCapacity fdt want nofile .ample = (.error .EMFILE, fdt)) ∧
      (fdt.maxSlots < nofile → ∃ t, fdEnsureCapacity fdt want nofile .ample = (.ok (), t) ∧
        FdGrown fdt t ∧ min want nofile ≤ t.maxSlots) := by
  have hmin : min want (min nofile fdCeiling) = min want nofile := by omega
  rw [fdEnsureCapacity, if_neg (by omega), hmin]
  constructor
  · intro hle
    rw [if_pos (by omega)]
  · intro hlt
    obtain ⟨t, ht, hgrown, hslots⟩ := fdTableGrow_spec h (show min want nofile ≤ fdCeiling by omega)
    exact ⟨t, by rw [if_neg (by omega), ht], hgrown, hslots⟩

/-- The search takes the lowest number below the limit, growing the table when it
has to, and fails exactly when every number is in use. -/
theorem fdSearch_spec (h : FdWf fdt)
    (hlim : nofile ≤ fdCeiling) (hmin : minfd < nofile) (hwant : fdt.maxSlots < want)
    (hwant' : minfd < want) :
    (∃ t fd, fdSearch fdt minfd want nofile .ample = (.ok fd, t) ∧ FdGrown fdt t ∧
        fd < t.maxSlots ∧ Lowest (fdMap fdt) minfd nofile fd) ∨
      (fdSearch fdt minfd want nofile .ample = (.error .EMFILE, fdt) ∧
        Full (fdMap fdt) minfd nofile) := by
  obtain ⟨hsome, hnone⟩ := fdFindFree_spec h minfd
  rw [fdSearch]
  by_cases hfound : ∃ fd, fdFindFree fdt minfd = some fd ∧ fd < nofile
  · obtain ⟨fd, hfd, hlt⟩ := hfound
    obtain ⟨hle, hslot, hfree, hbefore⟩ := hsome fd hfd
    left
    exact ⟨fdt, fd, by simp [hfd, Option.filter, hlt], FdGrown.refl h, hslot, hle, hlt,
      hfree, hbefore⟩
  have hfilter : (fdFindFree fdt minfd).filter (· < nofile) = none := by
    rw [Option.filter_eq_none_iff]
    intro fd hfd
    simpa using fun hlt => hfound ⟨fd, hfd, hlt⟩
  -- nothing is free below the limit and within the capacity
  have hfull : Full (fdMap fdt) minfd (min fdt.maxSlots nofile) := by
    intro i h1 h2
    cases hfind : fdFindFree fdt minfd with
    | none => exact hnone hfind i h1 (by omega)
    | some fd =>
      have hge : nofile ≤ fd := by
        by_contra hlt
        exact hfound ⟨fd, hfind, by omega⟩
      exact (hsome fd hfind).2.2.2 i h1 (by omega)
  obtain ⟨hemfile, hgrow⟩ := fdEnsureCapacity_spec h hlim hwant
  by_cases hcap : nofile ≤ fdt.maxSlots
  · right
    refine ⟨by simp [hfilter, hemfile hcap], fun i h1 h2 => hfull i h1 (by omega)⟩
  obtain ⟨t, ht, hgrown, hslots⟩ := hgrow (by omega)
  left
  -- the first new slot from `minfd` on is free
  have hfree : fdMap t (max minfd fdt.maxSlots) = none := by
    rw [hgrown.map]
    by_contra hne
    have := (h.used_lt _ hne).1
    omega
  obtain ⟨hsome', hnone'⟩ := fdFindFree_spec hgrown.wf minfd
  cases hfind : fdFindFree t minfd with
  | none => exact absurd hfree (hnone' hfind _ (by omega) (by omega))
  | some fd =>
    obtain ⟨hle, hslot, hfd, hbefore⟩ := hsome' fd hfind
    have hbound : fd ≤ max minfd fdt.maxSlots := by
      by_contra hgt
      exact hbefore _ (by omega) (by omega) hfree
    have hlt : fd < nofile := by omega
    refine ⟨t, fd, ?_, hgrown, hslot, hle, hlt, ?_, ?_⟩
    · rw [hfilter]
      simp [ht, hfind, Option.filter, hlt]
    · rw [← hgrown.map]
      exact hfd
    · rw [← hgrown.map]
      exact hbefore

/-! ## Storing and closing -/

theorem fdLeafAlloc_spec (h : FdWf fdt) (hfd : fd < fdt.maxSlots) :
    ∃ t, fdLeafAlloc fdt fd .ample = (.ok (), t) ∧ FdWf t ∧ fdMap t = fdMap fdt ∧
      t.maxSlots = fdt.maxSlots ∧ (t.entriesDir.getD (fd / 170) none).isSome := by
  have hconst : fdLeafPerPage = 170 := rfl
  rw [fdLeafAlloc]
  by_cases hleaf : (fdt.entriesDir.getD (fd / 170) none).isSome
  · exact ⟨fdt, by simp only [hleaf, if_true], h, rfl, rfl, hleaf⟩
  have hdir := h.dir
  have hidx : fd / 170 < fdt.entriesDir.length := by
    rw [dirCapacity] at hdir
    omega
  have hnone : fdt.entriesDir[fd / 170]? = some none := by
    rw [getD_eq_getElem?_getD, getElem?_eq_getElem hidx] at hleaf
    rw [getElem?_eq_getElem hidx]
    simpa using hleaf
  set t : FdTable := { fdt with
      entriesDir := fdt.entriesDir.set (fd / 170) (some (Vector.replicate 170 FdEntry.unused))
      leafCount := fdt.leafCount + 1 } with ht
  have hmap : fdMap t = fdMap fdt := by
    funext i
    rw [fdMap_eq, fdMap_eq, ht]
    simp only [getD_eq_getElem?_getD, getElem?_set]
    by_cases hi : fd / 170 = i / 170
    · rw [← hi, hnone]
      simp [hidx, Option.filter, leafEntry, FdEntry.unused]
    · simp [hi]
  have hcap : t.dirCapacity = fdt.dirCapacity := by
    simp [ht, dirCapacity]
  refine ⟨t, ?_, ⟨?_, ?_, ?_, ?_, ?_, ?_⟩, hmap, by rw [ht], ?_⟩
  · simp only [hleaf, Bool.false_eq_true, if_false, ht]
    rfl
  · exact h.ceil
  · rw [hcap]
    exact h.dir
  · rw [hcap]
    exact h.dirSmall
  · exact h.words
  · rw [hmap]
    exact h.free_iff
  · rw [hmap]
    exact h.used_lt
  · rw [ht]
    simp [hidx]

variable {e : FdEntry}

theorem fdStore_spec (h : FdWf fdt) (hfd : fd < fdt.maxSlots) (he : e.type ≠ .NONE) :
    ∃ t, fdStore fdt fd e .ample = (.ok (), t) ∧ FdWf t ∧
      fdMap t = update (fdMap fdt) fd (some e) := by
  obtain ⟨s, hs, hwf, hmap, hslots, hleaf⟩ := fdLeafAlloc_spec h hfd
  set t : FdTable := { fdMarkUsed (setEntry s fd e) fd with
      maxFd := if fd ≥ s.maxFd then fd + 1 else s.maxFd } with ht
  have hmapt : fdMap t = update (fdMap fdt) fd (some e) := by
    rw [← hmap]
    funext i
    have hset := fdMap_setEntry hleaf e i
    rw [fdMap_congr (show t.entriesDir = (setEntry s fd e).entriesDir from rfl), hset, update_apply]
    simp [Option.filter, he]
  have hslott : t.maxSlots = s.maxSlots := rfl
  have hcap : t.dirCapacity = s.dirCapacity := by
    exact length_modify _ _ _
  have hbits : t.freeBitmap = clearBit s.freeBitmap fd := rfl
  have hmax : t.maxFd = if fd ≥ s.maxFd then fd + 1 else s.maxFd := by rw [ht]
  refine ⟨t, ?_, ⟨?_, ?_, ?_, ?_, fun i => ?_, fun i hi => ?_⟩, hmapt⟩
  · by_cases hge : fd ≥ s.maxFd <;> simp [fdStore, hs, ht, fdMarkUsed, setEntry, hge]
  · exact hwf.ceil
  · rw [hcap]
    exact hwf.dir
  · rw [hcap]
    exact hwf.dirSmall
  · rw [hbits, length_clearBit]
    exact hwf.words
  · rw [hbits, bit_clearBit, hmapt, hslott, ← hmap]
    by_cases hi : i = fd
    · simp [hi]
    · simpa [hi] using hwf.free_iff i
  · rw [hmapt, ← hmap, update_apply] at hi
    rw [hmax]
    by_cases hifd : i = fd
    · split <;> omega
    · rw [if_neg hifd] at hi
      have := hwf.used_lt i hi
      split <;> omega

theorem fdClose_spec (h : FdWf fdt) (fd : ℕ) :
    FdWf (fdClose fdt fd).2 ∧ fdMap (fdClose fdt fd).2 = update (fdMap fdt) fd none := by
  have hsame : fdMap fdt fd = none → fdMap fdt = update (fdMap fdt) fd none := by
    intro hnone
    rw [← hnone, update_eq_self]
  by_cases hin : (fd : ℤ) < 0 ∨ (fd : ℤ) ≥ fdt.maxSlots
  · rw [fdClose, if_pos hin]
    refine ⟨h, hsame ?_⟩
    by_contra hne
    have := (h.used_lt fd hne).1
    omega
  rw [fdClose, if_neg hin, Int.toNat_natCast]
  cases hentry : fdEntryAt fdt fd with
  | none => exact ⟨h, hsame (by rw [fdMap, hentry]; rfl)⟩
  | some e =>
    by_cases he : e.type = .NONE
    · simp only [he, if_true]
      exact ⟨h, hsame (by simp [fdMap, hentry, Option.filter, he])⟩
    simp only [he, if_false]
    have hleaf : (fdt.entriesDir.getD (fd / 170) none).isSome := by
      rw [fdEntryAt, fdLeaf_eq] at hentry
      cases hpage : fdt.entriesDir.getD (fd / 170) none with
      | none =>
        rw [hpage] at hentry
        cases hentry
      | some page => rfl
    set t := fdMarkFree (setEntry fdt fd { e with type := .NONE, obj := 0 }) fd with ht
    have hmap : fdMap t = update (fdMap fdt) fd none := by
      funext i
      have hset := fdMap_setEntry hleaf { e with type := .NONE, obj := 0 } i
      rw [fdMap_congr (show t.entriesDir = (setEntry fdt fd _).entriesDir from rfl), hset,
        update_apply]
      simp [Option.filter]
    have hslots : t.maxSlots = fdt.maxSlots := rfl
    have hcap : t.dirCapacity = fdt.dirCapacity := by
      exact length_modify _ _ _
    have hbits : t.freeBitmap = setBit fdt.freeBitmap fd := rfl
    refine ⟨⟨?_, ?_, ?_, ?_, fun i => ?_, fun i hi => ?_⟩, hmap⟩
    · exact h.ceil
    · rw [hcap]
      exact h.dir
    · rw [hcap]
      exact h.dirSmall
    · rw [hbits, length_setBit]
      exact h.words
    · have hword : fd / 64 < fdt.freeBitmap.length := by
        rw [h.words]
        omega
      rw [hbits, bit_setBit hword, hmap, hslots]
      by_cases hi : i = fd
      · simp [hi]
        omega
      · simpa [hi] using h.free_iff i
    · rw [hmap, update_apply] at hi
      by_cases hifd : i = fd
      · simp [hifd] at hi
      · rw [if_neg hifd] at hi
        exact h.used_lt i hi

/-! ## The calls -/

/-- What `fd_alloc` and `fd_dup_at` do with an entry `e`: it goes to the lowest
number from `lo` on and below the limit, or, when there is none, the table
stays as it is and the call fails with `EMFILE`. -/
abbrev PlacedLowest (fdt : FdTable) (lo nofile : ℕ) (e : FdEntry) (r : Except Errno ℕ × FdTable) :
    Prop :=
  (∃ t fd, r = (.ok fd, t) ∧ FdWf t ∧ Lowest (fdMap fdt) lo nofile fd ∧
      fdMap t = update (fdMap fdt) fd (some e)) ∨
    (r = (.error .EMFILE, fdt) ∧ Full (fdMap fdt) lo nofile)

theorem fdPlace_spec (h : FdWf fdt)
    (he : e.type ≠ .NONE) (hlim : nofile ≤ fdCeiling) (hmin : minfd < nofile)
    (hwant : fdt.maxSlots < want) (hwant' : minfd < want) :
    PlacedLowest fdt minfd nofile e (fdPlace fdt minfd want nofile e .ample) := by
  rw [fdPlace]
  rcases fdSearch_spec h hlim hmin hwant hwant' with ⟨s, fd, hs, hgrown, hfd, hlow⟩ | ⟨hs, hfull⟩
  · obtain ⟨t, ht, hwf, hmap⟩ := fdStore_spec hgrown.wf hfd he
    left
    refine ⟨t, fd, by simp only [hs, ht], hwf, hlow, ?_⟩
    rw [hmap, hgrown.map]
  · exact .inr ⟨by simp only [hs], hfull⟩

/-- The calls on a table. -/
inductive FdOp where
  | alloc (type : FdType) (obj : ℕ) (flags : ℤ)
  | dupAt (minfd : ℤ) (src : FdEntry) (newFlags : ℤ)
  | installAt (newfd : ℤ) (src : FdEntry)
  | close (fd : ℤ)
  | grow (minSlots : ℕ)
  deriving DecidableEq, Repr

/-- The table after a call, with memory for every allocation. -/
def fdNext (rlimNofile : ℕ) (fdt : FdTable) : FdOp → FdTable
  | .alloc type obj flags => (fdAlloc fdt rlimNofile type obj flags .ample).2
  | .dupAt minfd src newFlags => (fdDupAt fdt rlimNofile minfd src newFlags .ample).2
  | .installAt newfd src => (fdInstallAt fdt rlimNofile newfd src .ample).2
  | .close fd => (fdClose fdt fd).2
  | .grow minSlots => (fdTableGrow fdt minSlots .ample).2

/-- The calls a table is made for: an entry that is stored is an open one, and an
install goes to an unused number. -/
def FdOpOk (fdt : FdTable) : FdOp → Prop
  | .alloc type _ _ => type ≠ .NONE
  | .dupAt _ src _ => src.type ≠ .NONE
  | .installAt newfd src => src.type ≠ .NONE ∧ fdGet fdt newfd = none
  | .close _ => True
  | .grow _ => True

/-- The table of a fresh process. -/
def fdStart (defaultPty : ℤ) : FdTable := (fdTableInit defaultPty .ample).2

variable {rlim : ℕ}

theorem fdAlloc_spec (h : FdWf fdt)
    (hlim : fdEffectiveNofile rlim ≤ fdCeiling) {type : FdType} (htype : type ≠ .NONE)
    (obj : ℕ) (flags : ℤ) :
    PlacedLowest fdt 0 (fdEffectiveNofile rlim) ⟨type, obj, flags⟩
      (fdAlloc fdt rlim type obj flags .ample) := by
  have hpos : 0 < fdEffectiveNofile rlim := by
    rw [fdEffectiveNofile]
    split
    case isTrue hne => omega
    case isFalse => decide
  have hwant : fdt.maxSlots < if fdt.maxSlots ≠ 0 then fdt.maxSlots + 1 else fdInitSlots := by
    have hinit : fdInitSlots = 64 := rfl
    split <;> omega
  exact fdPlace_spec h htype hlim hpos hwant (by omega)

theorem fdDupAt_spec (h : FdWf fdt)
    (hlim : fdEffectiveNofile rlim ≤ fdCeiling) (hsrc : src.type ≠ .NONE)
    (minfd : ℕ) (newFlags : ℤ) :
    PlacedLowest fdt minfd (fdEffectiveNofile rlim) { src with flags := newFlags }
      (fdDupAt fdt rlim minfd src newFlags .ample) := by
  simp only [fdDupAt, show ¬ (minfd : ℤ) < 0 by omega, if_false, Int.toNat_natCast]
  by_cases hge : (minfd : ℤ) ≥ fdEffectiveNofile rlim
  · simp only [hge, if_true]
    exact .inr ⟨rfl, fun i h1 h2 => absurd h2 (by omega)⟩
  · simp only [hge, if_false]
    have hwant : fdt.maxSlots < (if fdt.maxSlots * 2 ≤ minfd then minfd + 1 else fdt.maxSlots * 2) ∧
        minfd < (if fdt.maxSlots * 2 ≤ minfd then minfd + 1 else fdt.maxSlots * 2) := by
      split <;> omega
    exact fdPlace_spec h hsrc hlim (by omega) hwant.1 hwant.2

theorem fdDupAt_neg (fdt : FdTable) (rlim : ℕ) {minfd : ℤ} (hneg : minfd < 0) (src : FdEntry)
    (newFlags : ℤ) (mem : FdMem) :
    fdDupAt fdt rlim minfd src newFlags mem = (.error .EINVAL, fdt) := by
  rw [fdDupAt, if_pos hneg]

theorem fdInstallAt_spec (h : FdWf fdt)
    (hlim : fdEffectiveNofile rlim ≤ fdCeiling) (hsrc : src.type ≠ .NONE) (newfd : ℤ) :
    (∃ t, fdInstallAt fdt rlim newfd src .ample = (.ok (), t) ∧ 0 ≤ newfd ∧ FdWf t ∧
        fdMap t = update (fdMap fdt) newfd.toNat (some src)) ∨
      (∃ e, fdInstallAt fdt rlim newfd src .ample = (.error e, fdt)) := by
  by_cases hneg : newfd < 0
  · exact .inr ⟨.EBADF, by rw [fdInstallAt, if_pos hneg]⟩
  by_cases hge : newfd ≥ fdEffectiveNofile rlim
  · exact .inr ⟨.EMFILE, by simp [fdInstallAt, hneg, hge]⟩
  left
  simp only [fdInstallAt, hneg, if_false, hge]
  obtain ⟨t, ht, hgrown, hslot⟩ : ∃ t, (if newfd ≥ fdt.maxSlots then
      fdEnsureCapacity fdt (newfd.toNat + 1) (fdEffectiveNofile rlim) .ample
      else (.ok (), fdt)) = (.ok (), t) ∧ FdGrown fdt t ∧ newfd.toNat < t.maxSlots := by
    by_cases hcap : newfd ≥ fdt.maxSlots
    · obtain ⟨t, ht, hgrown, hmin⟩ := (fdEnsureCapacity_spec h hlim
        (show fdt.maxSlots < newfd.toNat + 1 by omega)).2 (by omega)
      exact ⟨t, by rw [if_pos hcap, ht], hgrown, by omega⟩
    · exact ⟨fdt, by rw [if_neg hcap], FdGrown.refl h, by omega⟩
  obtain ⟨t', ht', hwf, hmap⟩ := fdStore_spec hgrown.wf hslot hsrc
  refine ⟨t', by simp only [ht, ht'], by omega, hwf, ?_⟩
  rw [hmap, hgrown.map]

theorem fdWf_empty : FdWf empty :=
  ⟨by decide, by decide, by decide, rfl, fun i => by simp [empty, bit],
    fun i hi => absurd rfl hi⟩

theorem fdWf_start (defaultPty : ℤ) : FdWf (fdStart defaultPty) := by
  obtain ⟨g, hg, hgrown, hslots⟩ :=
    fdTableGrow_spec fdWf_empty (show fdInitSlots ≤ fdCeiling by decide)
  have hinit : fdInitSlots = 64 := rfl
  obtain ⟨s, hs, hwf, hmap, hsame, hleaf⟩ := fdLeafAlloc_spec hgrown.wf
    (show 0 < g.maxSlots by omega)
  have hnone : fdMap s = fun _ => none := by
    rw [hmap, hgrown.map]
    rfl
  have hstdio : ∀ flags, (stdioEntry defaultPty flags).type ≠ .NONE := by
    intro flags
    rw [stdioEntry]
    split <;> simp
  obtain ⟨t, ht⟩ : ∃ t, t = fdStart defaultPty := ⟨_, rfl⟩
  simp only [fdStart, fdTableInit, hg, hs] at ht
  have hdirt : t.entriesDir = (setEntry (setEntry (setEntry s 0 (stdioEntry defaultPty 0)) 1
      (stdioEntry defaultPty 1)) 2 (stdioEntry defaultPty 1)).entriesDir := by
    rw [ht]
    rfl
  have hmapt : ∀ i, fdMap t i = none ↔ 3 ≤ i := by
    intro i
    rw [fdMap_congr hdirt, fdMap_setEntry (by rw [isSome_setEntry, isSome_setEntry]; exact hleaf),
      fdMap_setEntry (by rw [isSome_setEntry]; exact hleaf), fdMap_setEntry hleaf, hnone]
    split_ifs <;> simp [Option.filter, hstdio] <;> omega
  have hslott : t.maxSlots = s.maxSlots := by rw [ht]; rfl
  have hcap : t.dirCapacity = s.dirCapacity := by
    simp [dirCapacity, hdirt, setEntry]
  have hbits : t.freeBitmap = clearBit (clearBit (clearBit s.freeBitmap 0) 1) 2 := by rw [ht]; rfl
  rw [show fdStart defaultPty = t by rw [ht]; simp only [fdStart, fdTableInit, hg, hs]]
  refine ⟨?_, ?_, ?_, ?_, fun i => ?_, fun i hi => ?_⟩
  · rw [hslott]
    exact hwf.ceil
  · rw [hslott, hcap]
    exact hwf.dir
  · rw [hcap]
    exact hwf.dirSmall
  · rw [hbits, hslott]
    simpa using hwf.words
  · have hfree := hwf.free_iff i
    simp only [hnone, and_true] at hfree
    rw [hbits, bit_clearBit, bit_clearBit, bit_clearBit, hmapt]
    simp only [Bool.and_eq_true, decide_eq_true_eq, hfree]
    omega
  · rw [Ne, hmapt] at hi
    have hmax : t.maxFd = 3 := by rw [ht]
    omega

/-! ## Whole runs -/

theorem fdNext_wf (hlim : fdEffectiveNofile rlim ≤ fdCeiling) (fdt : FdTable) (op : FdOp)
    (h : FdWf fdt) (hok : FdOpOk fdt op) : FdWf (fdNext rlim fdt op) := by
  cases op with
  | alloc type obj flags =>
    rw [fdNext]
    rcases fdAlloc_spec h hlim hok obj flags with ⟨t, fd, ht, hwf, -⟩ | ⟨ht, -⟩
    · rw [ht]
      exact hwf
    · rw [ht]
      exact h
  | dupAt minfd src newFlags =>
    rw [fdNext]
    rcases Int.lt_or_le minfd 0 with hneg | hnn
    · rw [fdDupAt_neg _ _ hneg]
      exact h
    · lift minfd to ℕ using hnn
      rcases fdDupAt_spec h hlim hok minfd newFlags with ⟨t, fd, ht, hwf, -⟩ | ⟨ht, -⟩
      · rw [ht]
        exact hwf
      · rw [ht]
        exact h
  | installAt newfd src =>
    rw [fdNext]
    rcases fdInstallAt_spec h hlim hok.1 newfd with ⟨t, ht, -, hwf, -⟩ | ⟨e, ht⟩
    · rw [ht]
      exact hwf
    · rw [ht]
      exact h
  | close fd =>
    rw [fdNext]
    rcases Int.lt_or_le fd 0 with hneg | hnn
    · rw [fdClose, if_pos (.inl hneg)]
      exact h
    · lift fd to ℕ using hnn
      exact (fdClose_spec h fd).1
  | grow minSlots =>
    rw [fdNext]
    by_cases hmin : minSlots ≤ fdCeiling
    · obtain ⟨t, ht, hgrown, -⟩ := fdTableGrow_spec h hmin
      rw [ht]
      exact hgrown.wf
    · rw [fdTableGrow, if_pos (by omega)]
      exact h

/-- What a call that places an entry `e` promises of its result `r`: the lowest
unused number from `lo` on and below `nofile`, `EMFILE` exactly when there is
none, and no other descriptor touched. -/
structure Places (fdt : FdTable) (lo nofile : ℕ) (e : FdEntry) (r : Except Errno ℕ × FdTable) :
    Prop where
  ok_iff : ∀ fd : ℕ, r.1 = .ok fd ↔ lo ≤ fd ∧ fd < nofile ∧ fdGet fdt fd = none ∧
    ∀ i : ℕ, lo ≤ i → i < fd → fdGet fdt i ≠ none
  emfile_iff : r.1 = .error .EMFILE ↔ ∀ i : ℕ, lo ≤ i → i < nofile → fdGet fdt i ≠ none
  stored : ∀ fd : ℕ, r.1 = .ok fd → fdGet r.2 fd = some e
  others : ∀ i : ℤ, (∀ fd : ℕ, r.1 = .ok fd → i ≠ fd) → fdGet r.2 i = fdGet fdt i

/-- The promises of a descriptor table. -/
structure FdPromise (rlimNofile : ℕ) (fdt : FdTable) : Prop where
  bitmap : ∀ fd : ℕ, bit fdt.freeBitmap fd = true ↔ fd < fdt.maxSlots ∧ fdGet fdt fd = none
  maxFd : ∀ fd : ℤ, fdGet fdt fd ≠ none → fd < fdt.maxFd
  alloc : ∀ type obj flags, type ≠ .NONE →
    Places fdt 0 (fdEffectiveNofile rlimNofile) ⟨type, obj, flags⟩
      (fdAlloc fdt rlimNofile type obj flags .ample)
  dupAt : ∀ (minfd : ℕ) (src : FdEntry) (newFlags : ℤ), src.type ≠ .NONE →
    Places fdt minfd (fdEffectiveNofile rlimNofile) { src with flags := newFlags }
      (fdDupAt fdt rlimNofile minfd src newFlags .ample)
  dupAt_neg : ∀ (minfd : ℤ) (src : FdEntry) (newFlags : ℤ), minfd < 0 →
    fdDupAt fdt rlimNofile minfd src newFlags .ample = (.error .EINVAL, fdt)
  installAt : ∀ (newfd : ℤ) (src : FdEntry), src.type ≠ .NONE → fdGet fdt newfd = none →
    ∀ i : ℤ, fdGet (fdInstallAt fdt rlimNofile newfd src .ample).2 i
      = if i = newfd ∧ (fdInstallAt fdt rlimNofile newfd src .ample).1 = .ok () then some src
        else fdGet fdt i
  close : ∀ fd i : ℤ, fdGet (fdClose fdt fd).2 i = if i = fd then none else fdGet fdt i
  grow : ∀ (minSlots : ℕ) (i : ℤ), fdGet (fdTableGrow fdt minSlots .ample).2 i = fdGet fdt i

theorem fdGet_congr (ha : FdWf a) (hb : FdWf b) (h : fdMap a = fdMap b) (i : ℤ) :
    fdGet a i = fdGet b i := by
  rcases Int.lt_or_le i 0 with hneg | hnn
  · rw [fdGet_neg a hneg, fdGet_neg b hneg]
  · lift i to ℕ using hnn
    rw [fdGet_eq ha, fdGet_eq hb, h]

theorem fdGet_update (ha : FdWf a) (hb : FdWf b) {v : Option FdEntry}
    (h : fdMap b = update (fdMap a) fd v) (i : ℤ) :
    fdGet b i = if i = fd then v else fdGet a i := by
  rcases Int.lt_or_le i 0 with hneg | hnn
  · rw [fdGet_neg a hneg, fdGet_neg b hneg, if_neg (by omega)]
  · lift i to ℕ using hnn
    rw [fdGet_eq ha, fdGet_eq hb, h, update_apply]
    simp

theorem places_of_spec (h : FdWf fdt) {lo : ℕ} {r : Except Errno ℕ × FdTable}
    (hspec : PlacedLowest fdt lo nofile e r) : Places fdt lo nofile e r := by
  rcases hspec with ⟨t, fd, rfl, hwf, ⟨hlo, hhi, hfree, hbefore⟩, hmap⟩ | ⟨rfl, hfull⟩
  · refine ⟨fun fd' => ?_, ?_, ?_, ?_⟩
    · simp only [Except.ok.injEq, fdGet_eq h]
      constructor
      · rintro rfl
        exact ⟨hlo, hhi, hfree, hbefore⟩
      · rintro ⟨hlo', -, hfree', hbefore'⟩
        rcases Nat.lt_trichotomy fd fd' with hlt | heq | hgt
        · exact absurd hfree (hbefore' fd hlo hlt)
        · exact heq
        · exact absurd hfree' (hbefore fd' hlo' hgt)
    · simp only [reduceCtorEq, false_iff, fdGet_eq h]
      exact fun hall => hall fd hlo hhi hfree
    · simp only [Except.ok.injEq]
      rintro _ rfl
      rw [fdGet_update h hwf hmap, if_pos rfl]
    · intro i hi
      rw [fdGet_update h hwf hmap, if_neg (hi fd rfl)]
  · refine ⟨fun fd' => ?_, ?_, ?_, fun _ _ => rfl⟩
    · simp only [reduceCtorEq, false_iff, fdGet_eq h]
      rintro ⟨hlo, hhi, hfree, -⟩
      exact hfull fd' hlo hhi hfree
    · simp only [fdGet_eq h, true_iff]
      exact hfull
    · simp

theorem FdWf.promise (h : FdWf fdt)
    (hlim : fdEffectiveNofile rlim ≤ fdCeiling) : FdPromise rlim fdt where
  bitmap fd := by
    rw [h.free_iff, fdGet_eq h]
  maxFd fd hfd := by
    rcases Int.lt_or_le fd 0 with hneg | hnn
    · exact absurd (fdGet_neg fdt hneg) hfd
    · lift fd to ℕ using hnn
      rw [fdGet_eq h] at hfd
      exact Int.ofNat_lt.2 (h.used_lt fd hfd).2
  alloc type obj flags htype := places_of_spec h (fdAlloc_spec h hlim htype obj flags)
  dupAt minfd src newFlags hsrc := places_of_spec h (fdDupAt_spec h hlim hsrc minfd newFlags)
  dupAt_neg minfd src newFlags hneg := fdDupAt_neg fdt rlim hneg src newFlags .ample
  installAt newfd src hsrc _ i := by
    rcases fdInstallAt_spec h hlim hsrc newfd with ⟨t, ht, hnn, hwf, hmap⟩ | ⟨e, ht⟩
    · rw [ht, fdGet_update h hwf hmap, Int.toNat_of_nonneg hnn]
      simp
    · simp [ht]
  close fd i := by
    rcases Int.lt_or_le fd 0 with hneg | hnn
    · rw [fdClose, if_pos (.inl hneg)]
      split
      case isTrue heq =>
        rw [heq, fdGet_neg fdt hneg]
      case isFalse => rfl
    · lift fd to ℕ using hnn
      exact fdGet_update h (fdClose_spec h fd).1 (fdClose_spec h fd).2 i
  grow minSlots i := by
    by_cases hmin : minSlots ≤ fdCeiling
    · obtain ⟨t, ht, hgrown, -⟩ := fdTableGrow_spec h hmin
      rw [ht]
      exact fdGet_congr hgrown.wf h hgrown.map i
    · rw [fdTableGrow, if_pos (by omega)]

/-- **The descriptor table refines a finite map.**  In every state a run of calls
from `fd_table_init` reaches, under a fixed limit of at most `FD_CEILING`, the
free bitmap is exact, `max_fd` exceeds every used descriptor, allocation and
duplication take the lowest unused number below the limit and fail with `EMFILE`
exactly when there is none, and no call touches a descriptor that is not its
own.  A negative `minfd` is refused with `EINVAL`. -/
theorem fd_table_refines_map (rlimNofile : ℕ) (hlim : fdEffectiveNofile rlimNofile ≤ fdCeiling)
    (defaultPty : ℤ) (ops : List FdOp)
    (hok : Along (fdNext rlimNofile) FdOpOk (fdStart defaultPty) ops) :
    FdPromise rlimNofile (run (fdNext rlimNofile) (fdStart defaultPty) ops) :=
  (run_invariant (fdNext_wf hlim) (fdWf_start defaultPty) hok).promise hlim

/-- An open and a close under the default limit, on the serial console. -/
theorem fd_table_refines_map_default :
    FdPromise 0 (run (fdNext 0) (fdStart (-1)) [.alloc .FILE 7 2, .close 1]) :=
  fd_table_refines_map 0 (by decide) (-1) [.alloc .FILE 7 2, .close 1]
    ⟨show FdType.FILE ≠ .NONE by decide, trivial, trivial⟩

/-- A negative lower bound is refused, although 3 is unused, not below the bound
and below the limit. -/
theorem fd_dup_at_negative_refused :
    (fdDupAt (fdStart (-1)) 0 (-1) ⟨.FILE, 7, 0⟩ 0 .ample).1 = .error .EINVAL ∧
      (-1 : ℤ) ≤ 3 ∧ 3 < fdEffectiveNofile 0 ∧ fdGet (fdStart (-1)) 3 = none :=
  ⟨rfl, by decide, by decide, by decide⟩

end CosmoRT.Proc
