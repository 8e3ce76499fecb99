import CosmoRT.Proc.FdMap

/-!
# Descriptor tables when memory may be out

`FdMap` says what the calls on a table do when every allocation succeeds.  Here an
allocation may fail at any point: the table may have grown by then, but its map is
still the old one.
-/

namespace CosmoRT.Proc

open Lib Function

theorem pagesAllocOk_false (pages : ℤ) : pagesAllocOk pages false = false := by
  simp [pagesAllocOk]

theorem fdDirGrow_any (fdt : FdTable) (need : ℕ) (mem : FdMem) :
    fdDirGrow fdt need mem = fdDirGrow fdt need .ample ∨
      ∃ e, fdDirGrow fdt need mem = (.error e, fdt) := by
  obtain ⟨dir, bitmap, leaf⟩ := mem
  cases dir with
  | true => exact .inl rfl
  | false =>
    by_cases hle : need ≤ fdt.dirCapacity
    · left
      rw [fdDirGrow, fdDirGrow, if_pos hle, if_pos hle]
    · right
      exact ⟨.ENOMEM, by simp [fdDirGrow, hle, pagesAllocOk_false]⟩

theorem fdBitmapGrow_any (fdt : FdTable) (newSlots : ℕ) (mem : FdMem) :
    fdBitmapGrow fdt newSlots mem = fdBitmapGrow fdt newSlots .ample ∨
      ∃ e, fdBitmapGrow fdt newSlots mem = (.error e, fdt) := by
  obtain ⟨dir, bitmap, leaf⟩ := mem
  cases bitmap with
  | true => exact .inl rfl
  | false =>
    by_cases hle : newSlots ≤ fdt.maxSlots
    · left
      rw [fdBitmapGrow, fdBitmapGrow, if_pos hle, if_pos hle]
    · right
      exact ⟨.ENOMEM, by simp [fdBitmapGrow, hle, pagesAllocOk_false]⟩

theorem fdLeafAlloc_any (fdt : FdTable) (fd : ℕ) (mem : FdMem) :
    fdLeafAlloc fdt fd mem = fdLeafAlloc fdt fd .ample ∨
      ∃ e, fdLeafAlloc fdt fd mem = (.error e, fdt) := by
  obtain ⟨dir, bitmap, leaf⟩ := mem
  cases leaf with
  | true => exact .inl rfl
  | false =>
    by_cases hle : (fdt.entriesDir.getD (fd / fdLeafPerPage) none).isSome
    · left
      simp only [fdLeafAlloc, hle, if_true]
    · right
      exact ⟨.ENOMEM, by simp only [fdLeafAlloc, hle, if_false, pagesAllocOk_false, if_true,
        Bool.false_eq_true]⟩

variable {fdt : FdTable}

/-- Growing keeps the map whatever happens, and makes room when it succeeds. -/
theorem fdTableGrow_any (h : FdWf fdt) {minSlots : ℕ} (hmin : minSlots ≤ fdCeiling) (mem : FdMem) :
    ∃ r t, fdTableGrow fdt minSlots mem = (r, t) ∧ FdGrown fdt t ∧
      (r = .ok () → minSlots ≤ t.maxSlots) := by
  obtain ⟨need, n, t, t', ht, ht', hgrown, hgrown', hslots, hcall⟩ := fdTableGrow_parts h hmin
  rcases fdDirGrow_any fdt need mem with hdir | ⟨e, hdir⟩
  · rw [(hcall mem t).2 (hdir.trans ht)]
    rcases fdBitmapGrow_any t n mem with hbit | ⟨e, hbit⟩
    · exact ⟨_, _, hbit.trans ht', hgrown.trans hgrown', fun _ => hslots⟩
    · exact ⟨_, _, hbit, hgrown, by simp⟩
  · exact ⟨_, _, (hcall mem fdt).1 e hdir, .refl h, by simp⟩

theorem fdEnsureCapacity_any (h : FdWf fdt) (want nofile : ℕ) (mem : FdMem) :
    FdGrown fdt (fdEnsureCapacity fdt want nofile mem).2 := by
  unfold fdEnsureCapacity
  split
  · exact .refl h
  · dsimp only
    split
    · exact .refl h
    · obtain ⟨r, t, ht, hgrown, -⟩ := fdTableGrow_any h
        (show min want (min nofile fdCeiling) ≤ fdCeiling by omega) mem
      rw [ht]
      exact hgrown

/-- What a search leaves behind: the old map, and a free number if it found one. -/
theorem fdSearch_any (h : FdWf fdt) (minfd want nofile : ℕ) (mem : FdMem) :
    ∃ r t, fdSearch fdt minfd want nofile mem = (r, t) ∧ FdGrown fdt t ∧
      ∀ fd, r = .ok fd → fd < t.maxSlots ∧ minfd ≤ fd ∧ fd < nofile ∧ fdMap fdt fd = none := by
  have hfound : ∀ t : FdTable, FdGrown fdt t → ∀ fd,
      (fdFindFree t minfd).filter (· < nofile) = some fd →
        fd < t.maxSlots ∧ minfd ≤ fd ∧ fd < nofile ∧ fdMap fdt fd = none := by
    intro t hgrown fd hfd
    obtain ⟨hfind, hlt⟩ := Option.filter_eq_some_iff.1 hfd
    obtain ⟨hle, hslot, hfree, -⟩ := (fdFindFree_spec hgrown.wf minfd).1 fd hfind
    exact ⟨hslot, hle, by simpa using hlt, hgrown.map ▸ hfree⟩
  unfold fdSearch
  cases hfd : (fdFindFree fdt minfd).filter (· < nofile) with
  | some fd =>
    refine ⟨_, _, rfl, .refl h, fun fd' hfd' => ?_⟩
    cases hfd'
    exact hfound fdt (.refl h) fd hfd
  | none =>
    have hgrown := fdEnsureCapacity_any h want nofile mem
    cases hcap : fdEnsureCapacity fdt want nofile mem with
    | mk r t =>
      rw [hcap] at hgrown
      cases r with
      | error e => exact ⟨_, _, rfl, hgrown, fun fd hfd => by cases hfd⟩
      | ok u =>
        dsimp only
        cases hfd' : (fdFindFree t minfd).filter (· < nofile) with
        | none => exact ⟨_, _, rfl, hgrown, fun fd hfd => by cases hfd⟩
        | some fd =>
          refine ⟨_, _, rfl, hgrown, fun fd' hfd'' => ?_⟩
          cases hfd''
          exact hfound t hgrown fd hfd'

/-- Storing an open entry updates the map, or leaves it when there is no page for the
leaf. -/
theorem fdStore_any (h : FdWf fdt) {fd : ℕ} (hfd : fd < fdt.maxSlots)
    {e : FdEntry} (he : e.type ≠ .NONE) (mem : FdMem) :
    ∃ r t, fdStore fdt fd e mem = (r, t) ∧ FdWf t ∧
      (r = .ok () → fdMap t = update (fdMap fdt) fd (some e)) ∧
      (∀ err, r = .error err → t = fdt) := by
  rcases fdLeafAlloc_any fdt fd mem with hleaf | ⟨err, hleaf⟩
  · obtain ⟨t, ht, hwf, hmap⟩ := fdStore_spec h hfd he
    refine ⟨.ok (), t, ?_, hwf, fun _ => hmap, by simp⟩
    rw [← ht, fdStore, fdStore, hleaf]
  · exact ⟨.error .ENOMEM, fdt, by rw [fdStore, hleaf], h, by simp, fun _ _ => rfl⟩

/-- What placing an entry comes to: it is at a free number below the limit, or the map
has not changed. -/
structure FdPlaced (fdt t : FdTable) (nofile : ℕ) (e : FdEntry) (r : Except Errno ℕ) : Prop where
  wf : FdWf t
  ok : ∀ fd, r = .ok fd → fd < nofile ∧ fdMap fdt fd = none ∧
    fdMap t = update (fdMap fdt) fd (some e)
  error : ∀ err, r = .error err → fdMap t = fdMap fdt

theorem fdPlace_placed (h : FdWf fdt) (minfd want nofile : ℕ) {e : FdEntry}
    (he : e.type ≠ .NONE) (mem : FdMem) :
    ∃ r t, fdPlace fdt minfd want nofile e mem = (r, t) ∧ FdPlaced fdt t nofile e r := by
  obtain ⟨r, t, hs, hgrown, hfree⟩ := fdSearch_any h minfd want nofile mem
  rw [fdPlace, hs]
  cases r with
  | error err => exact ⟨_, _, rfl, hgrown.wf, by simp, fun _ _ => hgrown.map⟩
  | ok fd =>
    obtain ⟨hslot, -, hlt, hnone⟩ := hfree fd rfl
    obtain ⟨r', t', ht', hwf, hok, herr⟩ := fdStore_any hgrown.wf hslot he mem
    dsimp only
    rw [ht']
    cases r' with
    | error err => exact ⟨_, _, rfl, hwf, by simp, fun _ _ => herr err rfl ▸ hgrown.map⟩
    | ok u =>
      refine ⟨_, _, rfl, hwf, fun fd' hfd' => ?_, by simp⟩
      cases hfd'
      exact ⟨hlt, hnone, by rw [hok rfl, hgrown.map]⟩

theorem fdAlloc_placed (h : FdWf fdt) (rlim : ℕ) {type : FdType}
    (htype : type ≠ .NONE) (obj : ℕ) (flags : ℤ) (mem : FdMem) :
    ∃ r t, fdAlloc fdt rlim type obj flags mem = (r, t) ∧
      FdPlaced fdt t (fdEffectiveNofile rlim) ⟨type, obj, flags⟩ r :=
  fdPlace_placed h _ _ _ htype mem

theorem fdDupAt_placed (h : FdWf fdt) (rlim : ℕ) (minfd : ℤ) {src : FdEntry}
    (hsrc : src.type ≠ .NONE) (newFlags : ℤ) (mem : FdMem) :
    ∃ r t, fdDupAt fdt rlim minfd src newFlags mem = (r, t) ∧
      FdPlaced fdt t (fdEffectiveNofile rlim) { src with flags := newFlags } r := by
  unfold fdDupAt
  dsimp only
  split
  · exact ⟨_, _, rfl, h, by simp, fun _ _ => rfl⟩
  · split
    · exact ⟨_, _, rfl, h, by simp, fun _ _ => rfl⟩
    · exact fdPlace_placed (e := { src with flags := newFlags }) h _ _ _ hsrc mem

end CosmoRT.Proc
