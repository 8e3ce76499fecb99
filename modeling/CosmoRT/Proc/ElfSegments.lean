import CosmoRT.Proc.Elf

/-!
# Where the ELF loaders touch memory

`Stable` is a property of the record that the loaders keep as long as they make accesses and map
pages of a given kind only.  It is used with "all accesses are inside", where every access has to
be justified, with its negation, which nothing undoes, with what is mapped, and with `True`, where
only the values and the success count.  Each function has one lemma, `Stable.runs_…`, for all of
these.
-/

namespace CosmoRT.Proc

open Lib Lib.Bytes Lib.Attempt ProgHeader

/-- All accesses are inside their buffers, all pages below the end of the user half. -/
def LoadLog.Safe (l : LoadLog) : Prop :=
  (∀ a ∈ l.touched, a.Inside) ∧ ∀ p ∈ l.mapped, p.va < userEnd

instance (l : LoadLog) : Decidable l.Safe :=
  inferInstanceAs (Decidable ((∀ a ∈ l.touched, a.Inside) ∧ ∀ p ∈ l.mapped, p.va < userEnd))

/-- Some access or page is not. -/
def LoadLog.Strays (l : LoadLog) : Prop := ¬l.Safe

theorem Access.inside_of_le {size off n : ℕ} (h : off + n ≤ size) : Access.Inside ⟨size, off, n⟩ :=
  .inr h

structure Stable (A : Access → Prop) (M : ImagePage → Prop) (P : LoadLog → Prop) : Prop where
  onTouch : ∀ {a l}, A a → P l → P { l with touched := a :: l.touched }
  onMap : ∀ {p l}, p.va < userEnd → M p → P l → P { l with mapped := p :: l.mapped }
  onAlloc : ∀ {l n}, P l → P { l with allocs := n }
  onRead : ∀ {l n}, P l → P { l with reads := n }

theorem stable_safe : Stable Access.Inside (fun _ => True) LoadLog.Safe where
  onTouch ha h := ⟨List.forall_mem_cons.2 ⟨ha, h.1⟩, h.2⟩
  onMap hp _ h := ⟨h.1, List.forall_mem_cons.2 ⟨hp, h.2⟩⟩
  onAlloc h := h
  onRead h := h

theorem stable_strays : Stable (fun _ => True) (fun _ => True) LoadLog.Strays where
  onTouch _ h := fun hs => h ⟨(List.forall_mem_cons.1 hs.1).2, hs.2⟩
  onMap _ _ h := fun hs => h ⟨hs.1, (List.forall_mem_cons.1 hs.2).2⟩
  onAlloc h := h
  onRead h := h

theorem stable_true : Stable (fun _ => True) (fun _ => True) fun _ => True := by
  constructor <;> simp

/-- All pages and tables are to be had. -/
def plentyEnv : MemEnv := ⟨fun _ => true, fun _ => true⟩

/-- The headers up to the `k`th end below the limit. -/
abbrev ElfHeader.Checked (eh : ElfHeader) (limit k : ℕ) : Prop :=
  ∀ j ≤ k, wrap64 (eh.phAt j + phdrSize) ≤ limit

/-- The number of pages of a segment. -/
abbrev ProgHeader.pages (ph : ProgHeader) (base : ℕ) : ℕ :=
  (ph.endPage base - ph.firstPage base) / 4096

/-- Header `k` is the first `PT_INTERP` header, and the scan gets there. -/
structure ElfHeader.InterpAt (eh : ElfHeader) (m : Mem) (limit k : ℕ) : Prop where
  type : (eh.prog m k).type = ptInterp
  first : ∀ j < k, (eh.prog m j).type ≠ ptInterp
  checked : ∀ j ≤ k, wrap64 (eh.phAt j + phdrSize) ≤ limit

section Stable

variable {A : Access → Prop} {M : ImagePage → Prop} {P : LoadLog → Prop} {may : Prop} {env : MemEnv}
  {copy : Copy} {b : Buffer} {eh : ElfHeader} {limit fileSize base n : ℕ} (hP : Stable A M P)

include hP

/-! ## Pieces -/

theorem Stable.runs_touch {size off : ℕ} (ha : A ⟨size, off, n⟩) :
    Runs P may (touch size off n) fun _ => True := fun _ h => ⟨hP.onTouch ha h, trivial⟩

theorem Stable.runs_alloc (hm : may ∨ env = plentyEnv) :
    Runs P may (allocPage env) fun _ => True := by
  intro l h
  by_cases hp : env.page l.allocs
  · simp only [allocPage, hp, if_true]
    exact ⟨hP.onAlloc h, trivial⟩
  · simp only [allocPage, hp]
    exact ⟨hP.onAlloc h, hm.resolve_right fun he => hp (by rw [he]; rfl)⟩

theorem Stable.runs_mapUserPage {p : ImagePage} (hM : M p)
    (hm : may ∨ env = plentyEnv ∧ p.va < userEnd) :
    Runs P may (mapUserPage env p) fun _ => p.va < userEnd := by
  intro l h
  by_cases hva : p.va ≥ userEnd
  · simp only [mapUserPage, hva, if_true]
    exact ⟨h, hm.resolve_right fun h => by omega⟩
  by_cases ht : env.table l.mapped.length
  · simp only [mapUserPage, hva, ht, if_true, if_false]
    exact ⟨hP.onMap (by omega) hM h, by omega⟩
  · simp only [mapUserPage, hva, ht, if_false]
    exact ⟨h, hm.resolve_right fun he => ht (by rw [he.1]; rfl)⟩

theorem Stable.runs_call {file : Mem} {len : ℕ} (rd : FileReader file len) (off n : ℕ) :
    Runs P may (rd.call off n) fun r => ∃ k, r = rd.result k off n :=
  fun l h => ⟨hP.onRead h, l.reads, rfl⟩

theorem Stable.runs_fetch {off want : ℕ} (h4 : A ⟨b.size, off, 4⟩)
    (h48 : (ofMem b.mem off).type = want → A ⟨b.size, off, 48⟩) :
    Runs P may (b.fetch off want) fun o =>
      (ofMem b.mem off).type = want ∧ o = some (ofMem b.mem off) ∨
        (ofMem b.mem off).type ≠ want ∧ o = none :=
  (hP.runs_touch h4).bind fun _ _ =>
    .ite (fun h => (hP.runs_touch (h48 h)).bind fun _ _ => runs_pure (.inl ⟨h, rfl⟩))
      fun h => runs_pure (.inr ⟨h, rfl⟩)

/-! ## Loops -/

/-- The pages of a segment: a page is reached if the one before it could be mapped. -/
theorem Stable.runs_mapPages {ph : ProgHeader} {vaddr va : ℕ} {F : ℕ → Prop}
    (hM : ∀ k < n, ∀ fill, M ⟨va + 4096 * k, ph.prot, fill⟩)
    (hm : may ∨ env = plentyEnv ∧ (n = 0 ∨ va + 4096 * (n - 1) < userEnd))
    (hfill : ∀ k < n, (k = 0 ∨ va + 4096 * (k - 1) < userEnd) →
      Runs P may (pageFill copy ph vaddr (va + 4096 * k)) fun _ => F k) :
    Runs P may (mapPages env copy ph vaddr va n) fun _ =>
      (n = 0 ∨ va + 4096 * (n - 1) < userEnd) ∧ ∀ k < n, F k := by
  induction n generalizing va F with
  | zero => exact runs_pure ⟨.inl rfl, by simp⟩
  | succ n ih =>
    refine (hP.runs_alloc (hm.imp_right And.left)).bind fun _ _ =>
      (hfill 0 (by omega) (.inl rfl)).bind fun fill hF =>
        (hP.runs_mapUserPage (hM 0 (by omega) fill) (hm.imp_right fun h => ⟨h.1, ?_⟩)).bind
          fun _ hva => ?_
    · show va < userEnd
      omega
    replace hva : va < userEnd := hva
    have haddr : ∀ k, va + 4096 + 4096 * k = va + 4096 * (k + 1) := fun k => by ring
    refine (ih (F := fun k => F (k + 1)) (fun k hk fill => ?_)
      (hm.imp_right fun h => ⟨h.1, by omega⟩)
      fun k hk hreach => ?_).imp fun _ h => ⟨by omega, fun k hk => ?_⟩
    · rw [haddr]
      exact hM (k + 1) (by omega) fill
    · rw [haddr]
      exact hfill (k + 1) (by omega) (.inr (by omega))
    · cases k with
      | zero => exact hF
      | succ k => exact h.2 k (by omega)

variable {Q : ProgHeader → Prop} {i total : ℕ}

/-- The headers: one is reached if those before it end below the limit and could be loaded. -/
theorem Stable.runs_mapSegments (hlim : may ∨ ∀ j < total, wrap64 (eh.phAt j + phdrSize) ≤ limit)
    (hhead : ∀ k < total, eh.Checked limit k →
      A ⟨b.size, eh.phAt k, 4⟩ ∧ A ⟨b.size, eh.phAt k, 48⟩)
    (hseg : ∀ k < total, eh.Checked limit k →
      (∀ j < k, (eh.prog b.mem j).type = ptLoad → Q (eh.prog b.mem j)) →
      (eh.prog b.mem k).type = ptLoad → ∀ brkEnd,
      Runs P may (mapSegment env copy fileSize base (eh.prog b.mem k) brkEnd) fun _ =>
        Q (eh.prog b.mem k))
    (hi : i + n = total) (hbefore : ∀ j < i, wrap64 (eh.phAt j + phdrSize) ≤ limit ∧
      ((eh.prog b.mem j).type = ptLoad → Q (eh.prog b.mem j))) (brkEnd : ℕ) :
    Runs P may (mapSegments env copy b limit fileSize base eh i n brkEnd) fun _ =>
      ∀ j < total, wrap64 (eh.phAt j + phdrSize) ≤ limit ∧
        ((eh.prog b.mem j).type = ptLoad → Q (eh.prog b.mem j)) := by
  induction n generalizing i brkEnd with
  | zero => exact runs_pure fun j hj => hbefore j (by omega)
  | succ n ih =>
    refine .ite (fun hgt => runs_fail (hlim.resolve_right fun h => ?_)) fun hle => ?_
    · have := h i (by omega)
      omega
    have hnext : ((eh.prog b.mem i).type = ptLoad → Q (eh.prog b.mem i)) → ∀ j < i + 1,
        wrap64 (eh.phAt j + phdrSize) ≤ limit ∧
          ((eh.prog b.mem j).type = ptLoad → Q (eh.prog b.mem j)) := fun h j hj => by
      rcases Nat.lt_succ_iff_lt_or_eq.1 hj with hj | rfl
      · exact hbefore j hj
      · exact ⟨by omega, h⟩
    have hchecked : eh.Checked limit i := fun j hj => by
      rcases lt_or_eq_of_le hj with h | rfl
      · exact (hbefore j h).1
      · omega
    obtain ⟨h4, h48⟩ := hhead i (by omega) hchecked
    refine (hP.runs_fetch h4 fun _ => h48).bind fun o ho => ?_
    rcases ho with ⟨hty, rfl⟩ | ⟨hty, rfl⟩
    · exact (hseg i (by omega) hchecked (fun j hj => (hbefore j hj).2) hty brkEnd).bind
        fun _ hq => ih (by omega) (hnext fun _ => hq) _
    · exact ih (by omega) (hnext fun h => absurd h hty) _

theorem Stable.runs_scanInterp (hhead : ∀ k < total, eh.Checked limit k →
      A ⟨b.size, eh.phAt k, 4⟩ ∧ A ⟨b.size, eh.phAt k, 48⟩)
    (hi : i + n = total) (hbefore : ∀ j < i, wrap64 (eh.phAt j + phdrSize) ≤ limit) :
    Runs P may (scanInterp b limit eh i n) fun o =>
      (∀ j < i, (eh.prog b.mem j).type ≠ ptInterp) →
        (∃ k < total, o = some (eh.prog b.mem k) ∧ eh.InterpAt b.mem limit k) ∨
          o = none ∧ ∀ k < total, ¬eh.InterpAt b.mem limit k := by
  induction n generalizing i with
  | zero => exact runs_pure fun hfirst => .inr ⟨rfl, fun k hk hat => hfirst k (by omega) hat.type⟩
  | succ n ih =>
    refine .ite (fun hgt => runs_pure fun hfirst => .inr ⟨rfl, fun k hk hat => ?_⟩) fun hle => ?_
    · rcases lt_or_ge k i with hki | hki
      · exact hfirst k hki hat.type
      · have := hat.checked i hki
        omega
    have hchecked : eh.Checked limit i := fun j hj => by
      rcases lt_or_eq_of_le hj with h | rfl
      · exact hbefore j h
      · omega
    obtain ⟨h4, h48⟩ := hhead i (by omega) hchecked
    refine (hP.runs_fetch h4 fun _ => h48).bind fun o ho => ?_
    rcases ho with ⟨hty, rfl⟩ | ⟨hty, rfl⟩
    · exact runs_pure fun hfirst => .inl ⟨i, by omega, rfl, hty, hfirst, hchecked⟩
    · refine (ih (by omega) fun j hj => hchecked j (by omega)).imp fun o ho hfirst =>
        ho fun j hj => ?_
      rcases Nat.lt_succ_iff_lt_or_eq.1 hj with hj | rfl
      · exact hfirst j hj
      · exact hty

theorem Stable.runs_findPhdr
    (hhead : ∀ k < total, A ⟨b.size, eh.phAt k, 4⟩ ∧ A ⟨b.size, eh.phAt k, 48⟩)
    (hi : i + n = total) : Runs P may (findPhdr b eh base i n) fun _ => True := by
  induction n generalizing i with
  | zero => exact runs_pure trivial
  | succ n ih =>
    obtain ⟨h4, h48⟩ := hhead i (by omega)
    refine (hP.runs_fetch h4 fun _ => h48).bind fun o _ => ?_
    cases o with
    | none => exact ih (by omega)
    | some ph => exact .ite (fun _ => runs_pure trivial) fun _ => ih (by omega)

/-- The end of a loader: each header is looked at only if those before it ended below the limit. -/
theorem Stable.runs_loadImage {interp : List Byte}
    (hlim : may ∨ ∀ j < eh.phnum, wrap64 (eh.phAt j + phdrSize) ≤ limit)
    (hhead : ∀ k < eh.phnum, eh.Checked limit k →
      A ⟨b.size, eh.phAt k, 4⟩ ∧ A ⟨b.size, eh.phAt k, 48⟩)
    (hseg : ∀ k < eh.phnum, eh.Checked limit k →
      (∀ j < k, (eh.prog b.mem j).type = ptLoad → Q (eh.prog b.mem j)) →
      (eh.prog b.mem k).type = ptLoad → ∀ brkEnd,
      Runs P may (mapSegment env copy fileSize base (eh.prog b.mem k) brkEnd) fun _ =>
        Q (eh.prog b.mem k)) :
    Runs P may (loadImage env copy b limit fileSize base eh interp) fun info =>
      info.loadBase = base ∧ ∀ j < eh.phnum, wrap64 (eh.phAt j + phdrSize) ≤ limit ∧
        ((eh.prog b.mem j).type = ptLoad → Q (eh.prog b.mem j)) :=
  (hP.runs_mapSegments hlim hhead hseg (zero_add _) (by simp) 0).bind fun _ hall =>
    (hP.runs_findPhdr (fun k hk => hhead k hk fun j hj => (hall j (by omega)).1)
      (zero_add _)).bind fun _ _ => runs_pure ⟨rfl, hall⟩

end Stable

/-! ## Straying -/

section Strays

variable {α β : Type} {x : Loader α} {f : α → Loader β} {l : LoadLog}

theorem strays_bind (h : (x l).2.Strays)
    (hf : ∀ a, Runs LoadLog.Strays True (f a) fun _ => True) : ((x >>= f) l).2.Strays :=
  bind_reaches (P := LoadLog.Strays) h hf

theorem touch_strays {size off n : ℕ} (hn : n ≠ 0) (h : size < off + n) (l : LoadLog) :
    (touch size off n l).2.Strays := fun hs => by
  rcases hs.1 _ (List.mem_cons_self ..) with h0 | hle
  · exact hn h0
  · exact absurd hle (not_le.2 h)

variable {env : MemEnv} {copy : Copy} {b : Buffer} {eh : ElfHeader} {limit fileSize base i n : ℕ}

theorem mapSegments_strays
    (hkeep : ∀ ph brkEnd, Runs LoadLog.Strays True (mapSegment env copy fileSize base ph brkEnd)
      fun _ => True) {total k : ℕ}
    (hk : k < total) (hlim : ∀ j < total, wrap64 (eh.phAt j + phdrSize) ≤ limit)
    (hseg : ∀ j < k, (eh.prog b.mem j).type = ptLoad → ∀ brkEnd, Runs (fun _ => True) False
      (mapSegment env copy fileSize base (eh.prog b.mem j) brkEnd) fun _ => True)
    (hty : (eh.prog b.mem k).type = ptLoad) (hreach : ∀ brkEnd l,
      (mapSegment env copy fileSize base (eh.prog b.mem k) brkEnd l).2.Strays)
    (hi : i + n = total) (hik : i ≤ k) (brkEnd : ℕ) (l : LoadLog) :
    (mapSegments env copy b limit fileSize base eh i n brkEnd l).2.Strays := by
  induction n generalizing i brkEnd l with
  | zero => omega
  | succ n ih =>
    have hle := hlim i (by omega)
    rw [mapSegments, if_neg (by omega)]
    refine (stable_true.runs_fetch trivial fun _ => trivial).reaches fun o l ho => ?_
    rcases lt_or_eq_of_le hik with hlt | rfl
    · rcases ho with ⟨hty', rfl⟩ | ⟨-, rfl⟩
      · exact (hseg i hlt hty' brkEnd).reaches fun _ l _ => ih (by omega) hlt _ l
      · exact ih (by omega) hlt _ l
    · obtain rfl := (ho.resolve_right fun h => h.1 hty).2
      refine strays_bind (hreach _ _) fun brkEnd' => ?_
      exact (stable_strays.runs_mapSegments (Q := fun _ => True) (.inl trivial)
        (fun _ _ _ => ⟨trivial, trivial⟩) (fun _ _ _ _ _ _ => hkeep _ _) rfl
        (fun j hj => ⟨hlim j (by omega), fun _ => trivial⟩) _).imp fun _ _ => trivial

end Strays

/-! ## Offsets of headers -/

theorem wrap64_lt (n : ℕ) : wrap64 n < 2 ^ 64 := Nat.mod_lt _ (by decide)

theorem field_lt (m : Mem) (off n : ℕ) : field m off n < 2 ^ (8 * n) := BitVec.isLt _

section Offsets

variable {eh : ElfHeader} {limit : ℕ}

/-- Sizes as the fields of the header have them. -/
structure ElfHeader.Sized (eh : ElfHeader) : Prop where
  phoff : eh.phoff < 2 ^ 64
  phentsize : eh.phentsize < 2 ^ 16

theorem ElfHeader.sized (m : Mem) : (ofMem m).Sized :=
  ⟨field_lt m 32 8, field_lt m 54 2⟩

variable {k : ℕ}

theorem ElfHeader.Sized.mul_lt (h : eh.Sized) (hk : k ≤ 64) : k * eh.phentsize < 2 ^ 22 := by
  have h1 : k * eh.phentsize ≤ 64 * eh.phentsize := Nat.mul_le_mul_right _ hk
  have := h.phentsize
  omega

theorem ElfHeader.Sized.phAt_zero (h : eh.Sized) : eh.phAt 0 = eh.phoff := by
  rw [ElfHeader.phAt, zero_mul, add_zero, wrap64_of_lt h.phoff]

/-- If the first header does not reach the end of the address space, a header that passes the
check is where it should be. -/
theorem ElfHeader.Sized.phAt_of_checked (h : eh.Sized) (hoff : eh.phoff + phdrSize < 2 ^ 64)
    (hlimit : limit < 2 ^ 63) (hk : k ≤ 64)
    (hall : ∀ j ≤ k, wrap64 (eh.phAt j + phdrSize) ≤ limit) :
    eh.phAt k = eh.phoff + k * eh.phentsize ∧ eh.phAt k + phdrSize ≤ limit := by
  have h0 := hall 0 (Nat.zero_le _)
  rw [h.phAt_zero, wrap64_of_lt hoff] at h0
  have hmul := h.mul_lt hk
  have heq : eh.phAt k = eh.phoff + k * eh.phentsize := wrap64_of_lt (by omega)
  have hk' := hall k (le_refl _)
  rw [wrap64_of_lt (by omega)] at hk'
  exact ⟨heq, by omega⟩

theorem ElfHeader.Sized.inside_of_checked (h : eh.Sized) (hoff : eh.phoff + phdrSize < 2 ^ 64)
    (hlimit : limit < 2 ^ 63) {size : ℕ} (hsize : limit ≤ size) (hk : k ≤ 64)
    (hall : ∀ j ≤ k, wrap64 (eh.phAt j + phdrSize) ≤ limit) :
    Access.Inside ⟨size, eh.phAt k, 4⟩ ∧ Access.Inside ⟨size, eh.phAt k, 48⟩ := by
  have hph : phdrSize = 56 := rfl
  have := (h.phAt_of_checked hoff hlimit hk hall).2
  exact ⟨Access.inside_of_le (by omega), Access.inside_of_le (by omega)⟩

end Offsets

/-! ## Segments -/

/-- How many bytes of the file a segment takes, if all pages are to be had; behind the end of the
user half no page is mapped, but the first one there is still filled. -/
def ProgHeader.loaded (ph : ProgHeader) (base : ℕ) : ℕ :=
  min ph.filesz
    (min (ph.endPage base) (max (ph.firstPage base) userEnd + 4096) - ph.start base)

/-- The segment is loaded, if all pages are to be had and the bytes can be read. -/
def ProgHeader.Passes (ph : ProgHeader) (fileSize base : ℕ) : Prop :=
  ph.memsz = 0 ∨ ph.filesz ≤ fileSize ∧ ph.start base + ph.filesz < 2 ^ 64 ∧
    (ph.endPage base ≤ ph.firstPage base ∨ ph.endPage base ≤ userEnd)

/-- The bytes that the segment takes end below 2^64. -/
def ProgHeader.ReadsInside (ph : ProgHeader) (fileSize base : ℕ) : Prop :=
  ph.memsz ≠ 0 → ph.filesz ≤ fileSize → ph.start base + ph.filesz < 2 ^ 64 →
    ph.offset + ph.loaded base < 2 ^ 64

/-- The segment is loaded if all pages are to be had. -/
def ProgHeader.Fits (ph : ProgHeader) (len base : ℕ) : Prop :=
  ph.memsz = 0 ∨ ph.filesz ≤ len ∧ ph.start base + ph.filesz < 2 ^ 64 ∧
    (ph.endPage base ≤ ph.firstPage base ∨
      ph.endPage base ≤ userEnd ∧ (ph.loaded base = 0 ∨ ph.offset + ph.loaded base ≤ len))

section Segments

variable {A : Access → Prop} {M : ImagePage → Prop} {P : LoadLog → Prop} {may : Prop} {env : MemEnv}
  {copy : Copy} {ph : ProgHeader} {b : Buffer} {fileSize base n : ℕ}

theorem not_refused (hsize : fileSize < 2 ^ 63)
    (h : ¬(ph.filesz > fileSize ∨ wrap64 (ph.start base + ph.filesz) < ph.start base)) :
    ph.filesz ≤ fileSize ∧ ph.start base + ph.filesz < 2 ^ 64 := by
  have hlt : ph.start base < 2 ^ 64 := wrap64_lt _
  have hle : ph.filesz ≤ fileSize := by omega
  refine ⟨hle, ?_⟩
  by_contra hge
  have : wrap64 (ph.start base + ph.filesz) = ph.start base + ph.filesz - 2 ^ 64 := by
    unfold wrap64
    omega
  omega

theorem refused_iff (hsize : fileSize < 2 ^ 63) :
    (ph.filesz > fileSize ∨ wrap64 (ph.start base + ph.filesz) < ph.start base) ↔
      ¬(ph.filesz ≤ fileSize ∧ ph.start base + ph.filesz < 2 ^ 64) := by
  refine ⟨fun h h' => ?_, fun h => by_contra fun h' => h (not_refused hsize h')⟩
  rw [wrap64_of_lt h'.2] at h
  omega

theorem pages_aligned (ph : ProgHeader) (base : ℕ) :
    ph.endPage base % 4096 = 0 ∧ ph.firstPage base % 4096 = 0 ∧
      ph.firstPage base ≤ ph.start base ∧ ph.start base < ph.firstPage base + 4096 := by
  unfold endPage firstPage
  omega

theorem pages_reached (ph : ProgHeader) (base : ℕ) :
    (ph.pages base = 0 ∨ ph.firstPage base + 4096 * (ph.pages base - 1) < userEnd) ↔
      (ph.endPage base ≤ ph.firstPage base ∨ ph.endPage base ≤ userEnd) := by
  have := pages_aligned ph base
  have huser : userEnd = 0x800000000000 := rfl
  unfold pages
  omega

/-- A segment, with what is known of the parts of its pages. -/
theorem Stable.runs_mapSegment (hP : Stable A M P) {F : ℕ → Prop} (hsize : fileSize < 2 ^ 63)
    (hM : ph.memsz ≠ 0 → ∀ k < ph.pages base, ∀ fill,
      M ⟨ph.firstPage base + 4096 * k, ph.prot, fill⟩)
    (hm : may ∨ env = plentyEnv ∧ ph.Passes fileSize base)
    (hfill : ph.memsz ≠ 0 → ph.filesz ≤ fileSize → ph.start base + ph.filesz < 2 ^ 64 →
      ∀ k < ph.pages base, (k = 0 ∨ ph.firstPage base + 4096 * (k - 1) < userEnd) →
        Runs P may (pageFill copy ph (ph.start base) (ph.firstPage base + 4096 * k)) fun _ => F k)
    (brkEnd : ℕ) : Runs P may (mapSegment env copy fileSize base ph brkEnd) fun _ =>
      ph.Passes fileSize base ∧ (ph.memsz ≠ 0 → ∀ k < ph.pages base, F k) := by
  refine .ite (fun hmem => runs_pure ⟨.inl hmem, fun h => absurd hmem h⟩) fun hmem =>
    .ite (fun href => runs_fail (hm.resolve_right fun h => ?_)) fun href => ?_
  · have hpass := h.2.resolve_left hmem
    exact (refused_iff hsize).1 href ⟨hpass.1, hpass.2.1⟩
  obtain ⟨hle, hlt⟩ := not_refused hsize href
  refine (hP.runs_mapPages (hM hmem) (hm.imp_right fun h => ⟨h.1, ?_⟩) (hfill hmem hle hlt)).bind
    fun _ h => runs_pure ⟨.inr ⟨hle, hlt, (pages_reached ph base).1 h.1⟩, fun _ => h.2⟩
  exact (pages_reached ph base).2 (h.2.resolve_left hmem).2.2

/-! ## Segments from a buffer -/

variable {fileOff top filesz stop : ℕ}

theorem Stable.runs_copyBuffer (hP : Stable A M P) {pageOff : ℕ}
    (hA : wrap64 (fileOff + n) ≤ b.size → A ⟨b.size, fileOff, n⟩ ∧ A ⟨4096, pageOff, n⟩) :
    Runs P may (copyBuffer b fileOff pageOff n) fun _ => True :=
  .ite (fun h => (hP.runs_touch (hA h).1).bind fun _ _ =>
    (hP.runs_touch (hA h).2).bind fun _ _ => runs_pure trivial) fun _ => runs_pure trivial

theorem runs_segment_buffer (hP : Stable (fun _ => True) (fun _ => True) P)
    (hsize : b.size < 2 ^ 63) (hm : may ∨ env = plentyEnv ∧ ph.Passes b.size base) (brkEnd : ℕ) :
    Runs P may (mapSegment env (copyBuffer b) b.size base ph brkEnd) fun _ => True :=
  (hP.runs_mapSegment (F := fun _ => True) hsize (fun _ _ _ _ => trivial) hm
    (fun _ _ _ _ _ _ => .ite (fun _ => hP.runs_copyBuffer fun _ => ⟨trivial, trivial⟩)
      fun _ => runs_pure trivial) brkEnd).imp fun _ _ => trivial

theorem safe_segment_buffer (hsize : b.size < 2 ^ 63) (hin : ph.ReadsInside b.size base)
    (brkEnd : ℕ) : Runs LoadLog.Safe True (mapSegment env (copyBuffer b) b.size base ph brkEnd)
      fun _ => ph.Passes b.size base := by
  refine (stable_safe.runs_mapSegment (F := fun _ => True) hsize (fun _ _ _ _ => trivial)
    (.inl trivial) (fun hmem hle hlt k hk hreach => .ite (fun hpart => ?_) fun _ =>
      runs_pure trivial) brkEnd).imp fun _ h => h.1
  have hread := hin hmem hle hlt
  have halign := pages_aligned ph base
  have huser : userEnd = 0x800000000000 := rfl
  unfold loaded at hread
  unfold pages at hk
  have hstart : ph.offset + (max (ph.firstPage base + 4096 * k) (ph.start base) - ph.start base) +
      (min (ph.firstPage base + 4096 * k + 4096) (ph.start base + ph.filesz) -
        max (ph.firstPage base + 4096 * k) (ph.start base)) < 2 ^ 64 := by
    omega
  rw [wrap64_of_lt (by omega)]
  refine stable_safe.runs_copyBuffer fun hcheck => ?_
  rw [wrap64_of_lt hstart] at hcheck
  exact ⟨.inr hcheck, Access.inside_of_le (by omega)⟩

/-! ## Segments through a reader -/

section Stream

variable {file : Mem} {len : ℕ} {rd : FileReader file len}

theorem length_result_le (rd : FileReader file len) (k off n : ℕ) :
    (rd.result k off n).bytes.length ≤ n ∧ (rd.result k off n).bytes.length ≤ len - off := by
  obtain ⟨m, h1, h2, h3, -⟩ := rd.serves k off n
  rw [h3, length_read]
  exact ⟨h1, h2⟩

theorem result_of_rc {k off : ℕ} (h : ¬(rd.result k off n).rc < n) :
    (rd.result k off n).bytes = read file off n ∧ n ≤ len - off := by
  obtain ⟨m, h1, h2, h3, h4⟩ := rd.serves k off n
  obtain rfl : m = n := by omega
  exact ⟨h3, h2⟩

theorem Complete.rc_eq (h : rd.Complete) {k off : ℕ} (hn : n ≤ len - off) :
    (rd.result k off n).rc = n := by
  rw [h, min_eq_left hn]

theorem Stable.runs_copyStream (hP : Stable A M P) {fileOff pageOff : ℕ}
    (hA : ∀ m ≤ n, A ⟨4096, pageOff, m⟩) (hm : may ∨ rd.Complete ∧ fileOff + n ≤ len) :
    Runs P may (copyStream rd fileOff pageOff n) fun _ => 0 < n → fileOff + n ≤ len := by
  refine (hP.runs_call rd _ _).bind fun r hr => ?_
  obtain ⟨k, rfl⟩ := hr
  refine (hP.runs_touch (hA _ (length_result_le rd k fileOff n).1)).bind fun _ _ =>
    .ite (fun hlt => runs_fail (hm.resolve_right fun h => ?_)) fun hge => runs_pure fun hpos => ?_
  · rw [Complete.rc_eq h.1 (by omega)] at hlt
    omega
  · have := (result_of_rc hge).2
    omega

/-- The part of a segment in the page `va` lies in the file. -/
def ProgHeader.PartRead (ph : ProgHeader) (len vaddr va : ℕ) : Prop :=
  va < vaddr + ph.filesz ∧ max va vaddr < min (va + 4096) (vaddr + ph.filesz) →
    wrap64 (ph.offset + (max va vaddr - vaddr)) +
      (min (va + 4096) (vaddr + ph.filesz) - max va vaddr) ≤ len

/-- Parts one behind the other lie in the file up to the end of each, without wrapping. -/
theorem parts_read {len vaddr va : ℕ} (hlen : len < 2 ^ 63) (hoff : ph.offset < 2 ^ 64)
    (hva : va ≤ vaddr ∧ vaddr < va + 4096) (h : ∀ k < n, ph.PartRead len vaddr (va + 4096 * k)) :
    ∀ k < n, max (va + 4096 * k) vaddr < vaddr + ph.filesz →
      ph.offset + (min (va + 4096 * k + 4096) (vaddr + ph.filesz) - vaddr) ≤ len := by
  intro k hk hin
  have hstart : ph.offset + (max (va + 4096 * k) vaddr - vaddr) < 2 ^ 64 := by
    induction k with
    | zero => omega
    | succ k ih =>
      have hk' := ih (by omega) (by omega)
      have := h k (by omega) ⟨by omega, by omega⟩
      rw [wrap64_of_lt hk'] at this
      omega
  have := h k hk ⟨by omega, by omega⟩
  rw [wrap64_of_lt hstart] at this
  omega

theorem loaded_of_endPage_le (h : ph.endPage base ≤ userEnd) :
    ph.loaded base = min ph.filesz (ph.endPage base - ph.start base) := by
  unfold loaded
  omega

theorem fits_of_parts (hlen : len < 2 ^ 63) (hoff : ph.offset < 2 ^ 64) (hpass : ph.Passes len base)
    (h : ph.memsz ≠ 0 → ∀ k < ph.pages base,
      ph.PartRead len (ph.start base) (ph.firstPage base + 4096 * k)) : ph.Fits len base := by
  by_cases hmem : ph.memsz = 0
  · exact .inl hmem
  obtain ⟨hle, hlt, hend⟩ := hpass.resolve_left hmem
  refine .inr ⟨hle, hlt, or_iff_not_imp_left.2 fun hpages => ⟨hend.resolve_left hpages, ?_⟩⟩
  have halign := pages_aligned ph base
  have hparts := parts_read hlen hoff halign.2.2 (h hmem)
  rw [loaded_of_endPage_le (hend.resolve_left hpages)]
  -- the page with the last byte that is loaded
  by_cases hlast : ph.start base + ph.filesz ≤ ph.endPage base
  · have := hparts ((ph.start base + ph.filesz - 1 - ph.firstPage base) / 4096)
    unfold pages at this
    omega
  · have := hparts (ph.pages base - 1)
    unfold pages at this
    omega

theorem Stable.runs_segment_stream (hP : Stable A M P) (hA : ∀ a : Access, a.Inside → A a)
    (hM : ph.memsz ≠ 0 → ∀ k < ph.pages base, ∀ fill,
      M ⟨ph.firstPage base + 4096 * k, ph.prot, fill⟩)
    (hlen : len < 2 ^ 63) (hoff : ph.offset < 2 ^ 64)
    (hm : may ∨ env = plentyEnv ∧ rd.Complete ∧ ph.Fits len base) (brkEnd : ℕ) :
    Runs P may (mapSegment env (copyStream rd) len base ph brkEnd) fun _ => ph.Fits len base := by
  refine (hP.runs_mapSegment
    (F := fun k => ph.PartRead len (ph.start base) (ph.firstPage base + 4096 * k)) hlen hM
    (hm.imp_right fun h => ⟨h.1, h.2.2.imp_right fun h => ⟨h.1, h.2.1, h.2.2.imp_right And.left⟩⟩)
    (fun hmem hle hlt k hk hreach => .ite (fun hpart => ?_) fun hpart => runs_pure fun h =>
      absurd h hpart) brkEnd).imp fun _ h => fits_of_parts hlen hoff h.1 h.2
  refine (hP.runs_copyStream (fun m hm => hA _ (Access.inside_of_le (by omega)))
    (hm.imp_right fun h => ⟨h.2.1, ?_⟩)).imp fun _ h _ => h (by omega)
  unfold pages at hk
  obtain ⟨hlow, hread⟩ := ((h.2.2.resolve_left hmem).2.2).resolve_left (by omega)
  rw [loaded_of_endPage_le hlow] at hread
  rw [wrap64_of_lt (by omega)]
  omega

end Stream

/-! ## Segments that are read outside the buffer -/

variable {off vaddr va : ℕ}

theorem copyBuffer_strays (hsize : b.size < 2 ^ 63) (pageOff : ℕ)
    (hoff : fileOff < 2 ^ 64) (hn : 2 ^ 64 ≤ fileOff + n) (hwrap : fileOff + n - 2 ^ 64 ≤ b.size)
    (l : LoadLog) : (copyBuffer b fileOff pageOff n l).2.Strays := by
  have hcheck : wrap64 (fileOff + n) ≤ b.size := by
    unfold wrap64
    omega
  rw [copyBuffer, if_pos hcheck]
  exact strays_bind (touch_strays (by omega) (by omega) l) fun _ =>
    (stable_strays.runs_touch trivial).bind fun _ _ => runs_pure trivial

theorem straddle_here (hstart : off + (max va vaddr - vaddr) < top)
    (hnow : top ≤ off + (min (va + 4096) (vaddr + filesz) - vaddr)) :
    (va < vaddr + filesz ∧ max va vaddr < min (va + 4096) (vaddr + filesz)) ∧
      top ≤ off + (max va vaddr - vaddr) + (min (va + 4096) (vaddr + filesz) - max va vaddr) ∧
      off + (max va vaddr - vaddr) + (min (va + 4096) (vaddr + filesz) - max va vaddr) - top ≤
        filesz := by
  omega

theorem straddle_later {user : ℕ} (hstart : off + (max va vaddr - vaddr) < top)
    (hbad : top ≤ off + (min (vaddr + filesz) (min stop (max va user + 4096)) - vaddr))
    (hnow : ¬top ≤ off + (min (va + 4096) (vaddr + filesz) - vaddr)) :
    ¬va ≥ user ∧ off + (max (va + 4096) vaddr - vaddr) < top ∧
      top ≤ off + (min (vaddr + filesz) (min stop (max (va + 4096) user + 4096)) - vaddr) := by
  omega

theorem mapPages_strays (hsize : b.size < 2 ^ 63) (hle : ph.filesz ≤ b.size)
    (hstop : va + 4096 * n = stop) (hstart : ph.offset + (max va vaddr - vaddr) < 2 ^ 64)
    (hbad : 2 ^ 64 ≤ ph.offset + (min (vaddr + ph.filesz)
      (min stop (max va userEnd + 4096)) - vaddr)) (l : LoadLog) :
    (mapPages plentyEnv (copyBuffer b) ph vaddr va n l).2.Strays := by
  induction n generalizing va l with
  | zero => omega
  | succ n ih =>
    have hfill : ∀ {P may} va, Stable (fun _ => True) (fun _ => True) P →
        Runs P may (pageFill (copyBuffer b) ph vaddr va) fun _ => True := fun _ hP =>
      .ite (fun _ => hP.runs_copyBuffer fun _ => ⟨trivial, trivial⟩) fun _ => runs_pure trivial
    refine (stable_true.runs_alloc (.inr rfl)).reaches fun _ l _ => ?_
    by_cases hnow : 2 ^ 64 ≤ ph.offset + (min (va + 4096) (vaddr + ph.filesz) - vaddr)
    · -- the part of this page reaches over the end of the address space
      refine strays_bind ?_ fun fill => (stable_strays.runs_mapUserPage trivial (.inl trivial)).bind
        fun _ _ => (stable_strays.runs_mapPages (F := fun _ => True) (fun _ _ _ => trivial)
          (.inl trivial) fun _ _ _ => hfill _ stable_strays).imp fun _ _ => trivial
      obtain ⟨hpart, hover, hrest⟩ := straddle_here hstart hnow
      unfold pageFill
      simp only [if_pos hpart]
      rw [wrap64_of_lt hstart]
      exact copyBuffer_strays hsize _ hstart hover (hrest.trans hle) _
    · -- the page is mapped, and the next one is looked at
      obtain ⟨hlow, hstart', hbad'⟩ := straddle_later hstart hbad hnow
      exact (hfill va stable_true).reaches fun fill l _ =>
        (stable_true.runs_mapUserPage trivial (.inr ⟨rfl, Nat.lt_of_not_le hlow⟩)).reaches
          fun _ l _ => ih (by rw [← hstop]; ring) hstart' hbad' l

theorem segment_strays (hsize : b.size < 2 ^ 63) (hoff : ph.offset < 2 ^ 64)
    (hbad : ¬ph.ReadsInside b.size base) (brkEnd : ℕ) (l : LoadLog) :
    (mapSegment plentyEnv (copyBuffer b) b.size base ph brkEnd l).2.Strays := by
  unfold ProgHeader.ReadsInside at hbad
  push Not at hbad
  obtain ⟨hmem, hle, hlt, hbad⟩ := hbad
  simp only [mapSegment]
  rw [if_neg hmem, if_neg (by rw [refused_iff hsize]; exact not_not.2 ⟨hle, hlt⟩)]
  refine strays_bind ?_ fun _ => runs_pure trivial
  have halign := pages_aligned ph base
  unfold loaded at hbad
  have hstop : ph.firstPage base + 4096 * ((ph.endPage base - ph.firstPage base) / 4096) =
      ph.endPage base := by omega
  exact mapPages_strays hsize hle hstop (by omega) (by omega) l

end Segments

end CosmoRT.Proc
