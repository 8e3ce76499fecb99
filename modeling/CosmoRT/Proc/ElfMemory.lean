import CosmoRT.Proc.ElfSegments

/-!
# Loading a file is memory safe

`LoadsSafely` says that all accesses of the loaders and of `do_execve_kpath` for a file are inside
their buffers, `Benign` what the file has to be for that.
-/

namespace CosmoRT.Proc

open Lib Lib.Bytes Lib.Attempt ElfHeader Access List
open ElfHeader (ofMem)

theorem safe_empty : LoadLog.Safe ⟨[], [], 0, 0⟩ := by
  decide

/-! ## Contents of buffers -/

theorem write_read_apply (m f : Mem) (a n x : ℕ) :
    write m a (read f a n) x = if a ≤ x ∧ x < a + n then f x else m x := by
  rw [write, length_read]
  by_cases h : a ≤ x ∧ x < a + n
  · rw [if_pos h, if_pos h, getD_eq_getElem _ _ (by rw [length_read]; omega)]
    simp only [CosmoRT.Lib.Bytes.read, getElem_map, getElem_range]
    congr 1
    omega
  · rw [if_neg h, if_neg h]

variable {m m' : Mem}

theorem field_congr {off n : ℕ} (h : ∀ x, off ≤ x → x < off + n → m' x = m x) :
    field m' off n = field m off n := by
  rw [field, field, read_congr h]

theorem ElfHeader.ofMem_congr (h : ∀ x < ehdrSize, m' x = m x) : ofMem m' = ofMem m := by
  have hsize : ehdrSize = 64 := rfl
  unfold ofMem
  rw [read_congr fun x _ hx => h x (by omega)]
  repeat rw [field_congr fun x _ hx => h x (by omega)]

theorem ProgHeader.ofMem_congr {off : ℕ} (h : ∀ x, off ≤ x → x < off + 48 → m' x = m x) :
    ProgHeader.ofMem m' off = ProgHeader.ofMem m off := by
  unfold ProgHeader.ofMem
  repeat rw [field_congr fun x _ hx => h x (by omega) (by omega)]

/-! ## The scan for the interpreter -/

section Scan

variable {b : Buffer} {eh : ElfHeader} {limit n k k' : ℕ}

theorem ElfHeader.InterpAt.eq (h : eh.InterpAt m limit k) (h' : eh.InterpAt m limit k') :
    k = k' := by
  rcases lt_trichotomy k k' with hlt | heq | hlt
  · exact absurd h.type (h'.first k hlt)
  · exact heq
  · exact absurd h'.type (h.first k' hlt)

theorem scanInterp_of_interpAt (hk : k < n) (hat : eh.InterpAt b.mem limit k) :
    Runs (fun _ => True) False (scanInterp b limit eh 0 n) fun o => o = some (eh.prog b.mem k) := by
  refine (stable_true.runs_scanInterp (fun _ _ _ => ⟨trivial, trivial⟩) (zero_add _)
    (by simp)).imp fun o ho => ?_
  rcases ho (by simp) with ⟨k', -, rfl, hat'⟩ | ⟨-, hnone⟩
  · rw [hat.eq hat']
  · exact absurd hat (hnone k hk)

/-- A first header that passes the check although it lies at the end of the address space. -/
theorem scanInterp_strays (hn : 0 < n) (hsized : eh.Sized)
    (hoff : ¬eh.phoff + phdrSize < 2 ^ 64) (hsize : b.size < 2 ^ 63)
    (hcheck : wrap64 (eh.phoff + phdrSize) ≤ limit) (l : LoadLog) :
    (scanInterp b limit eh 0 n l).2.Strays := by
  obtain ⟨n, rfl⟩ : ∃ k, n = k + 1 := ⟨n - 1, by omega⟩
  have hph : phdrSize = 56 := rfl
  rw [scanInterp, hsized.phAt_zero, if_neg (by omega)]
  refine strays_bind (strays_bind (touch_strays (by omega) (by omega) l) fun _ =>
    .ite (fun _ => (stable_strays.runs_touch trivial).bind fun _ _ => runs_pure trivial)
      fun _ => runs_pure trivial) fun o => ?_
  cases o with
  | some ph => exact runs_pure trivial
  | none =>
    refine (stable_strays.runs_scanInterp (fun _ _ _ => ⟨trivial, trivial⟩) rfl
      fun j hj => ?_).imp fun _ _ => trivial
    obtain rfl : j = 0 := by omega
    rwa [hsized.phAt_zero]

end Scan

/-! ## `elf_load_ex` -/

variable {A : Access → Prop} {M : ImagePage → Prop} {P : LoadLog → Prop} {may : Prop}
  (hP : Stable A M P) (hA : ∀ a : Access, a.Inside → A a)

/-- The interpreter's path ends below 2^64, or so far above that the wrapped end is beyond the
limit. -/
def ProgHeader.PathFine (ph : ProgHeader) (limit : ℕ) : Prop :=
  ph.offset + ph.pathLen < 2 ^ 64 ∨ 2 ^ 64 + limit < ph.offset + ph.pathLen

theorem ProgHeader.pathLen_lt (ph : ProgHeader) : ph.pathLen < pathSize := by
  have : pathSize = 256 := rfl
  unfold ProgHeader.pathLen
  omega

theorem ProgHeader.offset_lt (m : Mem) (off : ℕ) : (ProgHeader.ofMem m off).offset < 2 ^ 64 :=
  field_lt m (off + 8) 8

/-- The check on the end of the path is right exactly for such headers. -/
theorem pathFine_iff {ph : ProgHeader} {limit : ℕ} (hlimit : limit < 2 ^ 63)
    (hoff : ph.offset < 2 ^ 64) :
    ph.PathFine limit ↔ (wrap64 (ph.offset + ph.pathLen) ≤ limit →
      ph.offset + ph.pathLen ≤ limit) := by
  have hlen := ph.pathLen_lt
  have hsize : pathSize = 256 := rfl
  unfold ProgHeader.PathFine wrap64
  omega

section Buffer

variable {env : MemEnv} {b : Buffer} {hint rand : ℕ}

include hP hA in
theorem Stable.runs_interpBuffer {o : Option ProgHeader}
    (h : ∀ ph, o = some ph → wrap64 (ph.offset + ph.pathLen) ≤ b.size →
      A ⟨b.size, ph.offset, ph.pathLen⟩) : Runs P may (interpBuffer b o) fun _ => True := by
  cases o with
  | none => exact runs_pure trivial
  | some ph =>
    have hlen := ph.pathLen_lt
    exact .ite (fun hcheck => (hP.runs_touch (h ph rfl hcheck)).bind fun _ _ =>
      (hP.runs_touch (hA _ (inside_of_le (by omega)))).bind fun _ _ =>
        (hP.runs_touch (hA _ (inside_of_le (by omega)))).bind fun _ _ =>
          runs_pure trivial) fun _ => runs_pure trivial

theorem interpBuffer_strays {ph : ProgHeader} (hcheck : wrap64 (ph.offset + ph.pathLen) ≤ b.size)
    (hout : b.size < ph.offset + ph.pathLen) (hpos : ph.pathLen ≠ 0) (l : LoadLog) :
    (interpBuffer b (some ph) l).2.Strays := by
  rw [interpBuffer, if_pos hcheck]
  exact strays_bind (touch_strays hpos hout l) fun _ =>
    (stable_strays.runs_touch trivial).bind fun _ _ =>
      (stable_strays.runs_touch trivial).bind fun _ _ => runs_pure trivial

theorem strays_loadImage {copy : Copy} {limit fileSize base : ℕ} {eh : ElfHeader}
    {interp : List Byte}
    (hseg : ∀ ph brkEnd, Runs LoadLog.Strays True (mapSegment env copy fileSize base ph brkEnd)
      fun _ => True) :
    Runs LoadLog.Strays True (loadImage env copy b limit fileSize base eh interp) fun _ => True :=
  (stable_strays.runs_loadImage (Q := fun _ => True) (.inl trivial)
    (fun _ _ _ => ⟨trivial, trivial⟩) fun _ _ _ _ _ _ => hseg _ _).imp fun _ _ => trivial

/-- The header of an image. -/
abbrev Buffer.eh (b : Buffer) : ElfHeader := ofMem b.mem

theorem ElfHeader.checked_of_whole {eh : ElfHeader} {k size : ℕ} (hent : phdrSize ≤ eh.phentsize)
    (hsize : size < 2 ^ 63) (hwhole : eh.phoff + eh.phnum * eh.phentsize ≤ size)
    (hk : k < eh.phnum) :
    eh.phAt k + phdrSize ≤ eh.phEnd ∧ wrap64 (eh.phAt k + phdrSize) ≤ eh.phEnd := by
  have hmul : (k + 1) * eh.phentsize ≤ eh.phnum * eh.phentsize := Nat.mul_le_mul_right _ hk
  rw [Nat.succ_mul] at hmul
  have h1 : eh.phAt k = eh.phoff + k * eh.phentsize := wrap64_of_lt (by omega)
  have h2 : eh.phEnd = eh.phoff + eh.phnum * eh.phentsize := wrap64_of_lt (by omega)
  rw [h1, wrap64_of_lt (by omega)]
  exact ⟨by omega, by omega⟩

/-- What has to hold of a file for `elf_load_ex`. -/
structure BufferFine (b : Buffer) (hint rand : ℕ) : Prop where
  first : 1 ≤ b.eh.phnum → b.eh.phoff + phdrSize < 2 ^ 64
  interp : ∀ k < b.eh.phnum, b.eh.InterpAt b.mem b.size k →
    (b.eh.prog b.mem k).PathFine b.size
  segments : ∀ k < b.eh.phnum, (∀ j ≤ k, wrap64 (b.eh.phAt j + phdrSize) ≤ b.size) →
    (∀ j < k, (b.eh.prog b.mem j).type = ptLoad →
      (b.eh.prog b.mem j).Passes b.size (b.eh.base hint rand)) →
    (b.eh.prog b.mem k).type = ptLoad →
    (b.eh.prog b.mem k).ReadsInside b.size (b.eh.base hint rand)

/-- `elf_load_ex` gets as far as looking at the program headers. -/
def Buffer.Examined (b : Buffer) : Prop :=
  ehdrSize ≤ b.size ∧ b.eh.Accepted ∧ b.eh.phEnd ≤ b.size

theorem elfLoadEx_safe (hsize : b.size < 2 ^ 63) (h : b.Examined → BufferFine b hint rand) :
    Maintains LoadLog.Safe (elfLoadEx env b hint rand) := by
  refine Runs.maintains (Q := fun _ => True) (?_ : Runs _ True _ _)
  refine .ite (fun _ => runs_fail trivial)
    fun h64 => (stable_safe.runs_touch (inside_of_le (by omega))).bind fun _ _ =>
      .ite (fun _ => runs_fail trivial) fun hacc => ?_
  rw [not_or, not_not, Nat.not_lt] at hacc
  have hfine := h ⟨Nat.le_of_not_lt h64, hacc.1, hacc.2⟩
  have hnum : b.eh.phnum ≤ 64 := hacc.1.2.2.2.2
  have hhead : ∀ k < b.eh.phnum, b.eh.Checked b.size k →
      Access.Inside ⟨b.size, b.eh.phAt k, 4⟩ ∧ Access.Inside ⟨b.size, b.eh.phAt k, 48⟩ :=
    fun k hk hall => (sized b.mem).inside_of_checked (hfine.first (by omega)) hsize
      (le_refl _) (by omega) hall
  refine (stable_safe.runs_scanInterp hhead (zero_add _) (by simp)).bind fun o ho =>
    (stable_safe.runs_interpBuffer (fun _ h => h) fun ph hph hcheck => ?_).bind fun interp _ =>
      (stable_safe.runs_loadImage (Q := fun ph => ph.Passes b.size (b.eh.base hint rand))
        (.inl trivial) hhead fun k hk hall hpass hty brkEnd =>
          safe_segment_buffer hsize (hfine.segments k hk hall hpass hty) brkEnd).imp
            fun _ _ => trivial
  rcases ho (by simp) with ⟨k, hk, rfl, hat⟩ | ⟨rfl, -⟩
  · obtain rfl := Option.some.inj hph
    exact .inr ((pathFine_iff hsize (ProgHeader.offset_lt _ _)).1 (hfine.interp k hk hat) hcheck)
  · cases hph

theorem elfLoadEx_examined (hex : b.Examined) (l : LoadLog) :
    elfLoadEx env b hint rand l =
      (scanInterp b b.size b.eh 0 b.eh.phnum >>= fun ph =>
        interpBuffer b ph >>= fun interp =>
          loadImage env (copyBuffer b) b b.size b.size (b.eh.base hint rand)
            b.eh interp)
        { l with touched := ⟨b.size, 0, ehdrSize⟩ :: l.touched } := by
  obtain ⟨h64, hacc, hend⟩ := hex
  rw [elfLoadEx, if_neg (by omega)]
  show (ite _ _ _ : Loader LoadInfo) _ = _
  rw [if_neg (by rw [not_or, not_not]; exact ⟨hacc, not_lt.2 hend⟩)]

theorem bufferFine_of_safe (hsize : b.size < 2 ^ 63) (hex : b.Examined)
    {l : LoadLog} (hsafe : (elfLoadEx plentyEnv b hint rand l).2.Safe) :
    BufferFine b hint rand := by
  have hsized : b.eh.Sized := sized b.mem
  have hph : phdrSize = 56 := rfl
  obtain ⟨h64, hacc, hend⟩ := id hex
  have hnum : b.eh.phnum ≤ 64 := hacc.2.2.2.2
  have hent : phdrSize ≤ b.eh.phentsize := hacc.2.2.2.1
  rw [elfLoadEx_examined hex] at hsafe
  have hseg : ∀ ph brkEnd, Runs LoadLog.Strays True (mapSegment plentyEnv (copyBuffer b) b.size
      (b.eh.base hint rand) ph brkEnd) fun _ => True := fun _ brkEnd =>
    runs_segment_buffer stable_strays hsize (.inl trivial) brkEnd
  have hfirst : 1 ≤ b.eh.phnum → b.eh.phoff + phdrSize < 2 ^ 64 := fun hone => by
    by_contra hoff
    have hcheck : wrap64 (b.eh.phoff + phdrSize) ≤ b.size := by
      have := hsized.phoff
      have hehdr : ehdrSize = 64 := rfl
      unfold wrap64
      omega
    exact strays_bind (scanInterp_strays hone hsized hoff hsize hcheck _) (fun o =>
      (stable_strays.runs_interpBuffer (fun _ _ => trivial) fun _ _ _ => trivial).bind fun _ _ =>
        strays_loadImage hseg) hsafe
  refine ⟨hfirst, fun k hk hat => ?_, fun k hk hall hpass hty => ?_⟩
  · rw [pathFine_iff hsize (ProgHeader.offset_lt _ _)]
    intro hcheck
    by_contra hout
    have hpos : (b.eh.prog b.mem k).pathLen ≠ 0 := fun hzero => hout <| by
      rwa [hzero, Nat.add_zero, wrap64_of_lt (ProgHeader.offset_lt _ _), ← Nat.add_zero
        (ProgHeader.offset _), ← hzero] at hcheck
    refine (scanInterp_of_interpAt hk hat).reaches (T := LoadLog.Strays) ?_ hsafe
    rintro o l rfl
    exact strays_bind (interpBuffer_strays hcheck (Nat.lt_of_not_le hout) hpos _) fun _ =>
      strays_loadImage hseg
  · by_contra hbad
    have hone : 1 ≤ b.eh.phnum := by omega
    have h0 := hall 0 (Nat.zero_le _)
    rw [hsized.phAt_zero, wrap64_of_lt (hfirst hone)] at h0
    -- the headers do not wrap, so all of them pass the check
    have hend' : b.eh.phoff + b.eh.phnum * b.eh.phentsize ≤ b.size := by
      have := hsized.mul_lt hnum
      rwa [phEnd, phAt, wrap64_of_lt (by omega)] at hend
    have hlim : ∀ j < b.eh.phnum, wrap64 (b.eh.phAt j + phdrSize) ≤ b.size := fun j hj =>
      (checked_of_whole hent hsize hend' hj).2.trans hend
    refine (stable_true.runs_scanInterp (fun _ _ _ => ⟨trivial, trivial⟩) (zero_add _)
      (by simp)).reaches (T := LoadLog.Strays) (fun o l _ => (stable_true.runs_interpBuffer
        (fun _ _ => trivial) fun _ _ _ => trivial).reaches fun _ l _ =>
          strays_bind ?_ fun _ => ?_) hsafe
    · exact mapSegments_strays hseg hk hlim
        (fun j hj hty' => runs_segment_buffer stable_true hsize (.inr ⟨rfl, hpass j hj hty'⟩)) hty
        (segment_strays hsize (ProgHeader.offset_lt _ _) hbad) (Nat.zero_add _) (Nat.zero_le _) _ _
    · exact (stable_strays.runs_findPhdr (fun _ _ => ⟨trivial, trivial⟩) (Nat.zero_add _)).bind
        fun _ _ => runs_pure trivial

end Buffer

/-! ## `elf_load_ex_stream` -/

section Stream

variable {file : Mem} {len : ℕ} {rd : FileReader file len} {env : MemEnv} {hint rand : ℕ}

/-- The reader that always delivers what there is. -/
def completeReader (file : Mem) (len : ℕ) : FileReader file len where
  result _ off n := ⟨read file off (min n (len - off)), (min n (len - off) : ℕ)⟩
  serves _ off n := ⟨min n (len - off), min_le_left _ _, min_le_right _ _, rfl, .inl rfl⟩

theorem completeReader_complete (file : Mem) (len : ℕ) : (completeReader file len).Complete :=
  fun _ _ _ => rfl

variable {k n : ℕ}

/-- What the header page holds of the file up to the end of the program headers: these are read
only if they do not start at offset 0. -/
def seenPage (file : Mem) (eh : ElfHeader) : Mem :=
  fun x => if x < ehdrSize ∨ eh.phoff ≠ 0 then file x else 0

theorem toInt_readLen (h : n ≤ 4096) :
    (BitVec.ofNat 32 (wrap64 (n + 2 ^ 64 - ehdrSize))).toInt = (n : ℤ) - ehdrSize := by
  have hsize : ehdrSize = 64 := rfl
  rw [BitVec.toInt_eq_toNat_cond, BitVec.toNat_ofNat]
  unfold wrap64
  split_ifs <;> omega

theorem readLen_eq (h : n ≤ 4096) (h64 : ehdrSize ≤ n) :
    wrap64 (n + 2 ^ 64 - ehdrSize) = n - ehdrSize := by
  unfold wrap64
  omega

/-- The page holds what it should of the header and of the program headers. -/
def SeesHeaders (file page : Mem) : Prop :=
  ∀ x, x < ehdrSize ∨ x < (ofMem file).phEnd →
    page x = seenPage file (ofMem file) x

theorem Stable.runs_readHeaders (hP : Stable A M P) {eh : ElfHeader} {page : Mem}
    (h64 : ehdrSize ≤ len) (hend : eh.phEnd ≤ 4096)
    (hpage : ∀ x, page x = if x < ehdrSize then file x else 0)
    (hA : eh.phoff > 0 → ∀ n ≤ wrap64 (eh.phEnd + 2 ^ 64 - ehdrSize), n ≤ len - ehdrSize →
      A ⟨4096, ehdrSize, n⟩) (hm : may ∨ rd.Complete ∧ (eh.phoff = 0 ∨ eh.phEnd ≤ len)) :
    Runs P may (readHeaders rd eh page) fun page' => (eh.phoff = 0 ∨ eh.phEnd ≤ len) ∧
      ∀ x, x < ehdrSize ∨ x < eh.phEnd → page' x = seenPage file eh x := by
  have hsize : ehdrSize = 64 := rfl
  refine .ite (fun hread => ?_) fun hread => runs_pure ?_
  · refine (hP.runs_call rd _ _).bind ?_
    rintro r ⟨k, hr⟩
    obtain ⟨hle1, hle2⟩ := length_result_le rd k ehdrSize (wrap64 (eh.phEnd + 2 ^ 64 - ehdrSize))
    rw [← hr] at hle1 hle2
    refine (hP.runs_touch (hA hread.1 _ hle1 hle2)).bind ?_
    refine fun _ _ => Runs.ite ?_ ?_
    · refine fun hrc => runs_fail (hm.resolve_right fun h => ?_)
      rw [toInt_readLen hend, hr, h.1] at hrc
      unfold wrap64 at hrc
      omega
    refine fun hrc => runs_pure ?_
    rw [toInt_readLen hend] at hrc
    by_cases hlong : ehdrSize ≤ eh.phEnd
    · rw [readLen_eq hend hlong] at hr
      have hall : ¬(rd.result k ehdrSize (eh.phEnd - ehdrSize)).rc < (eh.phEnd - ehdrSize : ℕ) := by
        rw [← hr]
        omega
      obtain ⟨hbytes, hle⟩ := result_of_rc hall
      rw [← hr] at hbytes
      refine ⟨.inr (by omega), fun x hx => ?_⟩
      have hseen : seenPage file eh x = file x := if_pos (.inr (by omega))
      rw [hbytes, write_read_apply, hpage, hseen]
      split_ifs <;> first | rfl | omega
    · refine ⟨.inr (by omega), fun x hx => ?_⟩
      rw [write, if_neg (by omega), hpage, if_pos (by omega), seenPage, if_pos (.inl (by omega))]
  · have hzero : eh.phoff = 0 ∨ eh.phEnd = ehdrSize := by
      by_contra hne
      push Not at hne
      refine hread ⟨pos_of_ne_zero hne.1, ?_⟩
      unfold wrap64
      omega
    refine ⟨hzero.imp_right fun h => by omega, fun x hx => ?_⟩
    rw [hpage, seenPage]
    split_ifs <;> first | rfl | omega

theorem firstRead (h : ¬(rd.result k 0 ehdrSize).rc < ehdrSize) :
    ehdrSize ≤ len ∧ ∀ x, write (fun _ => 0) 0 (rd.result k 0 ehdrSize).bytes x =
      if x < ehdrSize then file x else 0 := by
  obtain ⟨hbytes, hle⟩ := result_of_rc h
  refine ⟨by omega, fun x => ?_⟩
  rw [hbytes, write_read_apply]
  simp

/-- `elf_load_ex_stream` gets as far as reading the program headers. -/
structure StreamExamined (file : Mem) (len : ℕ) : Prop where
  long : ehdrSize ≤ len
  accepted : (ofMem file).Accepted
  fits : (ofMem file).phEnd ≤ 4096

/-- What has to hold of a file for `elf_load_ex_stream`. -/
structure StreamFine (file : Mem) (len : ℕ) : Prop where
  page : 0 < (ofMem file).phoff → (ofMem file).phEnd < ehdrSize → len ≤ 4096
  first : 1 ≤ (ofMem file).phnum → (ofMem file).phEnd ≤ len →
    (ofMem file).phoff + phdrSize < 2 ^ 64

theorem StreamFine.first_of_present (h : StreamFine file len) (hone : 1 ≤ (ofMem file).phnum)
    (hpresent : (ofMem file).phoff = 0 ∨ (ofMem file).phEnd ≤ len) :
    (ofMem file).phoff + phdrSize < 2 ^ 64 := by
  rcases hpresent with hzero | hin
  · rw [hzero]
    decide
  · exact h.first hone hin

/-- The file can be loaded, if all pages are to be had. -/
structure Loadable (file : Mem) (len hint rand : ℕ) : Prop where
  long : ehdrSize ≤ len
  accepted : (ofMem file).Accepted
  whole : (ofMem file).phoff +
    (ofMem file).phnum * (ofMem file).phentsize ≤ 4096
  present : (ofMem file).phoff = 0 ∨ (ofMem file).phEnd ≤ len
  segments : ∀ j < (ofMem file).phnum,
    ((ofMem file).prog (seenPage file (ofMem file)) j).type = ptLoad →
    ((ofMem file).prog (seenPage file (ofMem file)) j).Fits len
      ((ofMem file).base hint rand)

include hP hA in
theorem Stable.runs_interpStream (o : Option ProgHeader) :
    Runs P may (interpStream rd o) fun _ => True := by
  cases o with
  | none => exact runs_pure trivial
  | some ph =>
    have hlt := ph.pathLen_lt
    refine (hP.runs_call rd _ _).bind fun r hr => ?_
    obtain ⟨k, rfl⟩ := hr
    have hle := (length_result_le rd k ph.offset ph.pathLen).1
    exact (hP.runs_touch (hA _ (inside_of_le (by omega)))).bind fun _ _ =>
      .ite (fun _ => runs_pure trivial) fun _ =>
        (hP.runs_touch (hA _ (inside_of_le (by omega)))).bind fun _ _ => runs_pure trivial

theorem ofMem_firstRead {page : Mem} (hpage : ∀ x, page x = if x < ehdrSize then file x else 0) :
    ofMem page = ofMem file :=
  ofMem_congr fun x hx => by rw [hpage, if_pos hx]

include hP hA in
/-- A file that is loaded has been examined, and its segments fit; it is loaded if that is so and
everything is to be had. -/
theorem Stable.runs_elfLoadExStream (hlen : len < 2 ^ 63)
    (hfine : StreamExamined file len → (∀ a, A a) ∨ StreamFine file len)
    (hM : ∀ page, SeesHeaders file page → ∀ k < (ofMem file).phnum,
      ((ofMem file).prog page k).type = ptLoad →
      ((ofMem file).prog page k).memsz ≠ 0 →
      ∀ i < ((ofMem file).prog page k).pages ((ofMem file).base hint rand), ∀ fill,
        M ⟨((ofMem file).prog page k).firstPage ((ofMem file).base hint rand) + 4096 * i,
          ((ofMem file).prog page k).prot, fill⟩)
    (hm : may ∨ env = plentyEnv ∧ rd.Complete ∧ Loadable file len hint rand) :
    Runs P may (elfLoadExStream env rd hint rand) fun info =>
      info.loadBase = (ofMem file).base hint rand ∧ StreamExamined file len ∧
      ((ofMem file).phoff = 0 ∨ (ofMem file).phEnd ≤ len) ∧
      ∃ page, SeesHeaders file page ∧ ∀ j < (ofMem file).phnum,
        wrap64 ((ofMem file).phAt j + phdrSize) ≤ (ofMem file).phEnd ∧
          (((ofMem file).prog page j).type = ptLoad →
            ((ofMem file).prog page j).Fits len ((ofMem file).base hint rand)) := by
  have hsize : ehdrSize = 64 := rfl
  refine (hP.runs_alloc (hm.imp_right And.left)).bind fun _ _ => (hP.runs_call rd _ _).bind
    fun r hr => ?_
  obtain ⟨k, rfl⟩ := hr
  have hle := (length_result_le rd k 0 ehdrSize).1
  refine (hP.runs_touch (hA _ (inside_of_le (by omega)))).bind fun _ _ =>
    .ite (fun hrc => runs_fail (hm.resolve_right fun h => ?_)) fun hrc => ?_
  · have hlong := h.2.2.long
    rw [Complete.rc_eq h.2.1 (by omega)] at hrc
    omega
  obtain ⟨h64, hpage⟩ := firstRead hrc
  simp only [ofMem_firstRead hpage]
  have hload : may ∨ env = plentyEnv ∧ rd.Complete ∧ Loadable file len hint rand ∧
      (ofMem file).phEnd ≤ 4096 := hm.imp_right fun h => ⟨h.1, h.2.1, h.2.2, by
    have := h.2.2.whole
    unfold phEnd phAt
    rwa [wrap64_of_lt (by omega)]⟩
  have hsized := sized file
  refine .ite (fun hacc => runs_fail (hload.resolve_right fun h => ?_)) fun hacc => ?_
  · exact hacc.elim (fun hno => hno h.2.2.1.accepted) fun hno => absurd h.2.2.2 (not_le.2 hno)
  rw [not_or, not_not, not_lt] at hacc
  obtain ⟨hacc, hend⟩ := hacc
  have hnum : (ofMem file).phnum ≤ 64 := hacc.2.2.2.2
  refine (hP.runs_readHeaders h64 hend hpage (fun hpos n hn1 hn2 => ?_)
    (hm.imp_right fun h => ⟨h.2.1, h.2.2.present⟩)).bind fun page hpage' => ?_
  · rcases hfine ⟨h64, hacc, hend⟩ with hall | hfine
    · exact hall _
    refine hA _ (inside_of_le ?_)
    by_cases hlong : ehdrSize ≤ (ofMem file).phEnd
    · have := readLen_eq hend hlong
      omega
    · have := hfine.page hpos (by omega)
      omega
  obtain ⟨hpresent, hseen⟩ := hpage'
  have hhead : ∀ k < (ofMem file).phnum,
      (ofMem file).Checked (ofMem file).phEnd k →
      A ⟨4096, (ofMem file).phAt k, 4⟩ ∧ A ⟨4096, (ofMem file).phAt k, 48⟩ := by
    intro k hk hall
    rcases hfine ⟨h64, hacc, hend⟩ with hany | hfine
    · exact ⟨hany _, hany _⟩
    obtain ⟨h4, h48⟩ := hsized.inside_of_checked (hfine.first_of_present (by omega) hpresent)
      (by omega) hend (by omega) hall
    exact ⟨hA _ h4, hA _ h48⟩
  refine (hP.runs_scanInterp hhead (zero_add _) (by simp)).bind fun o _ =>
    (hP.runs_interpStream hA o).bind fun interp _ => (hP.runs_loadImage
      (Q := fun ph => ph.Fits len ((ofMem file).base hint rand)) (hm.imp_right fun h j hj =>
        (checked_of_whole hacc.2.2.2.1 (by decide) h.2.2.whole hj).2) hhead fun k hk hall _ hty =>
          hP.runs_segment_stream hA (hM page hseen k hk hty) hlen (ProgHeader.offset_lt _ _)
            (hm.imp_right fun h => ⟨h.1, h.2.1, ?_⟩)).imp fun info h =>
        ⟨h.1, ⟨h64, hacc, hend⟩, hpresent, page, hseen, h.2⟩
  have hbelow := (checked_of_whole hacc.2.2.2.1 (by decide) h.2.2.whole hk).1
  have hsize : phdrSize = 56 := rfl
  have hsame : (ofMem file).prog page k =
      (ofMem file).prog (seenPage file (ofMem file)) k :=
    ProgHeader.ofMem_congr fun x _ hx => hseen x (.inr (by omega))
  have hty' : ((ofMem file).prog (seenPage file (ofMem file)) k).type = ptLoad :=
    hsame ▸ hty
  have := h.2.2.segments k hk hty'
  rwa [← hsame] at this

theorem elfLoadExStream_safe (hlen : len < 2 ^ 63)
    (h : StreamExamined file len → StreamFine file len) :
    Maintains LoadLog.Safe (elfLoadExStream env rd hint rand) :=
  (stable_safe.runs_elfLoadExStream (fun _ h => h) hlen (fun hex => .inr (h hex))
    (fun _ _ _ _ _ _ _ _ _ => trivial) (.inl trivial)).maintains

theorem loadable_of_loads (hlen : len < 2 ^ 63)
    (hfine : StreamExamined file len → StreamFine file len)
    {l l' : LoadLog} {info : LoadInfo} (h : elfLoadExStream env rd hint rand l = (.ok info, l')) :
    Loadable file len hint rand ∧ info.loadBase = (ofMem file).base hint rand := by
  obtain ⟨-, hbase, hex, hpresent, page, hseen, hall⟩ := (stable_true.runs_elfLoadExStream
    (fun _ _ => trivial) hlen (fun _ => .inl fun _ => trivial) (fun _ _ _ _ _ _ _ _ _ => trivial)
    (.inl trivial)).of_ok trivial h
  have hfirst := hfine hex
  obtain ⟨h64, hacc, hend⟩ := hex
  have hsized := sized file
  refine ⟨?_, hbase⟩
  unfold SeesHeaders at hseen
  set eh := ofMem file with hdef
  have hwhole : eh.phoff + eh.phnum * eh.phentsize ≤ 4096 := by
    have hmul := hsized.mul_lt hacc.2.2.2.2
    have hoff := hsized.phoff
    rcases eq_zero_or_pos eh.phnum with hzero | hone
    · unfold phEnd phAt at hend
      rw [hzero, zero_mul, add_zero, wrap64_of_lt hoff] at hend
      rwa [hzero, zero_mul]
    · have hlt : eh.phoff + phdrSize < 2 ^ 64 := hfirst.first_of_present hone hpresent
      have h0 := (hall 0 hone).1
      rw [hsized.phAt_zero, wrap64_of_lt hlt] at h0
      unfold phEnd phAt at h0 hend
      rwa [wrap64_of_lt (by omega)] at hend
  refine ⟨h64, hdef ▸ hacc, hdef ▸ hwhole, hdef ▸ hpresent, ?_⟩
  intro j hj
  have hbelow := (checked_of_whole hacc.2.2.2.1 (by decide) hwhole hj).1
  have hsize : phdrSize = 56 := rfl
  have hsame : eh.prog (seenPage file eh) j = eh.prog page j :=
    ProgHeader.ofMem_congr fun x _ hx => (hseen x (.inr (by omega))).symm
  rw [hsame]
  exact (hall j hj).2

theorem loads_of_loadable (hlen : len < 2 ^ 63) (hrd : rd.Complete)
    (hload : Loadable file len hint rand) (l : LoadLog) :
    ∃ info l', elfLoadExStream plentyEnv rd hint rand l = (.ok info, l') := by
  obtain ⟨info, l', h, -⟩ := (stable_true.runs_elfLoadExStream (fun _ _ => trivial) hlen
    (fun _ => .inl fun _ => trivial) (fun _ _ _ _ _ _ _ _ _ => trivial)
    (.inr ⟨rfl, hrd, hload⟩)).ok (s := l) trivial
  exact ⟨info, l', h⟩

theorem elfLoadExStream_strays (hrd : rd.Complete) (hex : StreamExamined file len)
    (h : ∀ page l, (∀ x, page x = if x < ehdrSize then file x else 0) →
      ((readHeaders rd (ofMem file) page >>=
        loadFromPage plentyEnv rd hint rand (ofMem file)) l).2.Strays) (l : LoadLog) :
    (elfLoadExStream plentyEnv rd hint rand l).2.Strays := by
  obtain ⟨h64, hacc, hend⟩ := hex
  refine (stable_true.runs_alloc (.inr rfl)).reaches fun _ l _ =>
    (stable_true.runs_call rd _ _).reaches fun r l hr => (stable_true.runs_touch trivial).reaches
      fun _ l _ => ?_
  obtain ⟨k, rfl⟩ := hr
  have hrc : ¬(rd.result k 0 ehdrSize).rc < ehdrSize := by
    rw [Complete.rc_eq hrd (by omega)]
    omega
  obtain ⟨-, hpage⟩ := firstRead hrc
  rw [if_neg hrc]
  simp only [ofMem_firstRead hpage]
  rw [if_neg (by rw [not_or, not_not]; exact ⟨hacc, not_lt.2 hend⟩)]
  exact h _ _ hpage

theorem streamFine_of_safe (hlen : len < 2 ^ 63) (hrd : rd.Complete) (hex : StreamExamined file len)
    {l : LoadLog} (hsafe : (elfLoadExStream plentyEnv rd hint rand l).2.Safe) :
    StreamFine file len := by
  have hsize : ehdrSize = 64 := rfl
  obtain ⟨h64, hacc, hend⟩ := id hex
  have hsized := sized file
  have hrest : ∀ page o, Runs LoadLog.Strays True (interpStream rd o >>= fun interp =>
      loadImage plentyEnv (copyStream rd) ⟨page, 4096⟩ (ofMem file).phEnd len
        ((ofMem file).base hint rand) (ofMem file) interp) fun _ => True :=
    fun page o => (stable_strays.runs_interpStream (fun _ _ => trivial) o).bind fun _ _ =>
      strays_loadImage fun ph brkEnd => (stable_strays.runs_mapSegment (F := fun _ => True) hlen
        (fun _ _ _ _ => trivial) (.inl trivial) (fun _ _ _ _ _ _ => .ite (fun _ =>
          (stable_strays.runs_copyStream (fun _ _ => trivial) (.inl trivial)).imp
            fun _ _ => trivial) fun _ => runs_pure trivial) brkEnd).imp fun _ _ => trivial
  refine ⟨fun hpos hshort => by_contra fun hlong => elfLoadExStream_strays hrd hex
    (fun page l1 hpage => strays_bind ?_ fun page' => ?_) l hsafe,
    fun hone hin => by_contra fun hoff =>
      elfLoadExStream_strays hrd hex (fun page l1 hpage => ?_) l hsafe⟩
  · have hread : (ofMem file).phoff > 0 ∧
        wrap64 ((ofMem file).phEnd + 2 ^ 64 - ehdrSize) > 0 := by
      refine ⟨hpos, ?_⟩
      unfold wrap64
      omega
    rw [readHeaders, if_pos hread]
    refine (stable_true.runs_call rd _ _).reaches fun r l hr => ?_
    refine strays_bind ?_ fun _ => Runs.ite ?_ ?_
    · obtain ⟨k, rfl⟩ := hr
      -- the reader delivers the rest of the file
      obtain ⟨m, hm1, hm2, hbytes, hrc⟩ := rd.serves k ehdrSize
        (wrap64 ((ofMem file).phEnd + 2 ^ 64 - ehdrSize))
      have hall := hrd k ehdrSize (wrap64 ((ofMem file).phEnd + 2 ^ 64 - ehdrSize))
      have hm : m = len - ehdrSize := by
        unfold wrap64 at hall hrc
        omega
      rw [hbytes, length_read]
      exact touch_strays (by omega) (by omega) l
    · exact fun _ => runs_fail trivial
    · exact fun _ => runs_pure trivial
  · exact (stable_strays.runs_scanInterp (fun _ _ _ => ⟨trivial, trivial⟩) (Nat.zero_add _)
      (by simp)).bind fun o _ => hrest page' o
  · refine (stable_true.runs_readHeaders h64 hend hpage (fun _ _ _ _ => trivial)
      (.inr ⟨hrd, .inr hin⟩)).reaches fun page' l2 _ =>
        strays_bind (scanInterp_strays hone hsized hoff (by simp) ?_ l2) fun o => hrest page' o
    have hmul : 1 * (ofMem file).phentsize ≤
        (ofMem file).phnum * (ofMem file).phentsize := Nat.mul_le_mul_right _ hone
    have hmul' := hsized.mul_lt hacc.2.2.2.2
    have hent : phdrSize ≤ (ofMem file).phentsize := hacc.2.2.2.1
    have := hsized.phoff
    unfold phEnd phAt wrap64 at hend ⊢
    omega

end Stream

/-! ## `create_elf_vmas` -/

/-- The headers of the segments that take up memory, among `n` headers from `i` on. -/
def ElfHeader.loads (eh : ElfHeader) (m : Mem) (i n : ℕ) : List ProgHeader :=
  ((range' i n).map (eh.prog m)).filter fun ph => ph.type = ptLoad ∧ ph.memsz ≠ 0

/-- The pages of a segment, as an area. -/
def ProgHeader.area (ph : ProgHeader) (base : ℕ) : ImageArea :=
  ⟨ph.firstPage base, ph.endPage base, ph.prot⟩

/-- The areas of all segments of a file. -/
def segmentAreas (file : Mem) (base : ℕ) : List ImageArea :=
  ((ofMem file).loads file 0 (ofMem file).phnum).map (·.area base)

theorem ElfHeader.loads_succ (eh : ElfHeader) (m : Mem) (i n : ℕ) :
    eh.loads m i (n + 1) = (if (eh.prog m i).type = ptLoad ∧ (eh.prog m i).memsz ≠ 0 then
      [eh.prog m i] else []) ++ eh.loads m (i + 1) n := by
  rw [loads, range'_succ, map_cons]
  split_ifs <;> simp_all [loads]

section Areas

variable {b : Buffer} {eh : ElfHeader} {base total i n : ℕ}

/-- The part of a program header that `create_elf_vmas` reads lies inside the buffer. -/
def Buffer.Holds (b : Buffer) (eh : ElfHeader) (k : ℕ) : Prop :=
  eh.phAt k + 4 ≤ b.size ∧ ((eh.prog b.mem k).type = ptLoad → eh.phAt k + 48 ≤ b.size)

theorem Stable.runs_createAreas (hP : Stable A M P) (h : ∀ k < total, A ⟨b.size, eh.phAt k, 4⟩ ∧
      ((eh.prog b.mem k).type = ptLoad → A ⟨b.size, eh.phAt k, 48⟩)) (hi : i + n = total) :
    Runs P may (createAreas b eh base i n) fun areas =>
      areas = (eh.loads b.mem i n).map (·.area base) := by
  induction n generalizing i with
  | zero => exact runs_pure rfl
  | succ n ih =>
    obtain ⟨h4, h48⟩ := h i (by omega)
    refine (hP.runs_fetch h4 h48).bind fun o ho => ?_
    rw [eh.loads_succ]
    rcases ho with ⟨hty, rfl⟩ | ⟨hty, rfl⟩
    · refine .ite (fun hmem => ?_) fun hmem => ?_
      · rw [if_neg (by simp [hmem])]
        exact ih (by omega)
      · rw [if_pos ⟨hty, hmem⟩]
        exact (ih (by omega)).bind fun areas hareas => runs_pure (by rw [hareas]; rfl)
    · rw [if_neg (by simp [hty])]
      exact ih (by omega)

variable {k elfLen : ℕ}

theorem createAreas_strays (hk : k < total) (hbad : ¬b.Holds eh k)
    (hi : i + n = total) (hik : i ≤ k) (l : LoadLog) : (createAreas b eh base i n l).2.Strays := by
  induction n generalizing i l with
  | zero => omega
  | succ n ih =>
    rcases lt_or_eq_of_le hik with hlt | rfl
    · refine (stable_true.runs_fetch trivial fun _ => trivial).reaches fun o l _ => ?_
      cases o with
      | none => exact ih (by omega) hlt l
      | some ph =>
        dsimp only
        split_ifs
        · exact ih (by omega) hlt l
        · exact strays_bind (ih (by omega) hlt l) fun _ => runs_pure trivial
    · have hkeep : Runs LoadLog.Strays True (createAreas b eh base (i + 1) n) fun _ => True :=
        (stable_strays.runs_createAreas (fun _ _ => ⟨trivial, fun _ => trivial⟩) rfl).imp
          fun _ _ => trivial
      refine strays_bind ?_ fun o => ?_
      · by_cases h4 : eh.phAt i + 4 ≤ b.size
        · -- the type is inside, the rest is not
          obtain ⟨hty, h48⟩ : (eh.prog b.mem i).type = ptLoad ∧ ¬eh.phAt i + 48 ≤ b.size := by
            unfold Buffer.Holds at hbad
            push Not at hbad
            exact (hbad h4).imp_right not_le.2
          refine (stable_true.runs_touch trivial).reaches fun _ l _ => ?_
          rw [if_pos hty]
          exact strays_bind (touch_strays (by omega) (by omega) l) fun _ => runs_pure trivial
        · exact strays_bind (touch_strays (by omega) (by omega) l) fun _ =>
            .ite (fun _ => (stable_strays.runs_touch trivial).bind fun _ _ => runs_pure trivial)
              fun _ => runs_pure trivial
      · cases o with
        | none => exact hkeep
        | some ph => exact .ite (fun _ => hkeep) fun _ => hkeep.bind fun _ _ => runs_pure trivial

theorem Stable.runs_createElfVmas (hP : Stable A M P)
    (h : 64 ≤ elfLen → A ⟨b.size, 32, 26⟩ ∧ ∀ k < b.eh.phnum, A ⟨b.size, b.eh.phAt k, 4⟩ ∧
      ((b.eh.prog b.mem k).type = ptLoad → A ⟨b.size, b.eh.phAt k, 48⟩)) :
    Runs P may (createElfVmas b elfLen base) fun areas =>
      areas = if elfLen < 64 then [] else segmentAreas b.mem base := by
  refine .ite (fun hlt => runs_pure (by rw [if_pos hlt])) fun h64 => ?_
  rw [if_neg h64]
  exact (hP.runs_touch (h (by omega)).1).bind fun _ _ =>
    hP.runs_createAreas (h (by omega)).2 (zero_add _)

theorem createElfVmas_safe (hsize : 64 ≤ b.size)
    (h : 64 ≤ elfLen → ∀ k < b.eh.phnum, b.Holds b.eh k) :
    Maintains LoadLog.Safe (createElfVmas b elfLen base) :=
  Runs.maintains (stable_safe.runs_createElfVmas (fun h64 => ⟨inside_of_le (by omega), fun k hk =>
    ⟨inside_of_le (h h64 k hk).1, fun hty =>
      inside_of_le ((h h64 k hk).2 hty)⟩⟩) : Runs _ True _ _)

theorem holds_of_createElfVmas_safe (h64 : 64 ≤ elfLen) {l : LoadLog}
    (h : (createElfVmas b elfLen base l).2.Safe) (hk : k < b.eh.phnum) : b.Holds b.eh k := by
  by_contra hbad
  rw [createElfVmas, if_neg (by omega)] at h
  exact (stable_true.runs_touch trivial).reaches (T := LoadLog.Strays)
    (fun _ l _ => createAreas_strays hk hbad (Nat.zero_add _) (Nat.zero_le _) l) h

end Areas

/-! ## The headers in `do_execve_kpath` -/

section Headers

variable {file : Mem} {len : ℕ} {rd : FileReader file len} {ext4 : Bool} {hdr : Mem}

/-- On tmpfs a read delivers what there is; on ext4 it may fail, and is looked at. -/
def FileReader.Suits (rd : FileReader file len) (ext4 : Bool) : Prop := ext4 = false → rd.Complete

include hP hA in
theorem Stable.runs_readHdrBuf {off n : ℕ}
    (hin : off + n ≤ hdrSize) (hn : n ≤ len - off) (hrd : rd.Suits ext4) (hm : may ∨ rd.Complete) :
    Runs P may (readHdrBuf rd ext4 hdr off n) fun hdr' =>
      hdr' = write hdr off (read file off n) := by
  refine (hP.runs_call rd _ _).bind fun r hr => ?_
  obtain ⟨k, rfl⟩ := hr
  have hle := (length_result_le rd k off n).1
  refine (hP.runs_touch (hA _ (inside_of_le (by omega)))).bind fun _ _ =>
    .ite (fun hrc => runs_fail (hm.resolve_right fun h => ?_)) fun hrc => runs_pure ?_
  · rw [Complete.rc_eq h hn] at hrc
    omega
  have hfull : ¬(rd.result k off n).rc < n := fun hlt => by
    cases hext : ext4 with
    | true => exact hrc ⟨hext, hlt⟩
    | false =>
      have := Complete.rc_eq (hrd hext) (k := k) hn
      omega
  rw [(result_of_rc hfull).1]

/-- The checks that `do_execve_kpath` makes on the header. -/
structure ScanExamined (file : Mem) (len : ℕ) : Prop where
  long : ehdrSize ≤ len
  few : (ofMem file).phnum ≤ 64
  fits : (ofMem file).phEnd ≤ hdrSize
  present : (ofMem file).phEnd ≤ len

/-- `hdr_buf` holds the header and the program headers of the file. -/
def HoldsHeaders (file hdr : Mem) : Prop :=
  ∀ x, x < ehdrSize ∨ x < (ofMem file).phEnd → hdr x = file x

theorem HoldsHeaders.eh_eq (h : HoldsHeaders file hdr) : ofMem hdr = ofMem file :=
  ofMem_congr fun x hx => h x (.inl hx)

include hP hA in
theorem Stable.runs_fillHdrBuf (hrd : rd.Suits ext4)
    (hm : may ∨ rd.Complete ∧ ScanExamined file len) :
    Runs P may (fillHdrBuf rd ext4 hdr) fun hdr' => ScanExamined file len ∧
      HoldsHeaders file hdr' := by
  have hsize : ehdrSize = 64 := rfl
  have hhdr : hdrSize = 3648 := rfl
  refine .ite (fun h64 => runs_fail (hm.resolve_right fun h => ?_)) fun h64 =>
    (hP.runs_readHdrBuf hA (by omega) (by omega) hrd (hm.imp_right And.left)).bind
      fun hdr1 hone => ?_
  · have := h.2.long
    omega
  have hheader : ∀ x < ehdrSize, hdr1 x = file x := fun x hx => by
    rw [hone, write_read_apply, if_pos (by omega)]
  simp only [ofMem_congr hheader]
  refine .ite (fun hno => runs_fail (hm.resolve_right fun h => ?_)) fun hchecks => ?_
  · obtain ⟨-, -, hnum, hfits, hpresent⟩ := h
    omega
  have hex : ScanExamined file len := ⟨by omega, by omega, by omega, by omega⟩
  refine .ite (fun hmore => ?_) fun hmore => runs_pure ⟨hex, fun x hx => hheader x (by omega)⟩
  refine (hP.runs_readHdrBuf hA (by omega) (by omega) hrd (hm.imp_right And.left)).imp
    fun hdr' htwo => ⟨hex, fun x hx => ?_⟩
  rw [htwo, write_read_apply]
  split_ifs with hlow
  · rfl
  · exact hheader x (by omega)

include hP hA in
/-- The interpreter's path is copied from inside `hdr_buf`. -/
theorem Stable.runs_interpPath {phdrsEnd : ℕ} {o : Option ProgHeader}
    (h : ∀ ph, o = some ph → wrap64 (ph.offset + ph.pathLen) ≤ phdrsEnd →
      A ⟨hdrSize, ph.offset, ph.pathLen⟩) :
    Runs P may (interpPath rd hdr phdrsEnd o) fun _ => True := by
  cases o with
  | none => exact runs_pure trivial
  | some ph =>
    have hlt := ph.pathLen_lt
    refine Runs.bind (Q := fun _ => True) (.ite (fun hcheck => ?_) fun _ => ?_) fun path _ =>
      (hP.runs_touch (hA _ (inside_of_le (by omega)))).bind fun _ _ => runs_pure trivial
    · exact (hP.runs_touch (h ph rfl hcheck)).bind fun _ _ =>
        (hP.runs_touch (hA _ (inside_of_le (by omega)))).bind fun _ _ => runs_pure trivial
    · refine (hP.runs_call rd _ _).bind fun r hr => ?_
      obtain ⟨k, rfl⟩ := hr
      have hle := (length_result_le rd k ph.offset ph.pathLen).1
      exact (hP.runs_touch (hA _ (inside_of_le (by omega)))).bind fun _ _ => runs_pure trivial

/-- What has to hold of a file for the scan. -/
structure ScanFine (file : Mem) : Prop where
  first : phdrSize ≤ (ofMem file).phnum * (ofMem file).phentsize →
    (ofMem file).phoff + phdrSize < 2 ^ 64
  interp : ∀ k < (ofMem file).phnum,
    (ofMem file).InterpAt file (ofMem file).phEnd k →
      ((ofMem file).prog file k).PathFine (ofMem file).phEnd

/-- The file is of a type for which an interpreter is looked for. -/
def ElfHeader.Scanned (eh : ElfHeader) : Prop := eh.type = etDyn ∨ eh.type = etExec

/-- A header that wraps and passes the check needs a table of the size of a header. -/
theorem ElfHeader.Sized.table_of_check {eh : ElfHeader} (h : eh.Sized) (hnum : eh.phnum ≤ 64)
    (hend : eh.phEnd ≤ hdrSize) (hoff : ¬eh.phoff + phdrSize < 2 ^ 64) :
    wrap64 (eh.phoff + phdrSize) ≤ eh.phEnd ↔ phdrSize ≤ eh.phnum * eh.phentsize := by
  have hph : phdrSize = 56 := rfl
  have hhdr : hdrSize = 3648 := rfl
  have hmul := h.mul_lt hnum
  have := h.phoff
  unfold phEnd phAt wrap64 at *
  omega

/-- Where the table is not noticed to wrap, it does not. -/
theorem ScanExamined.first_of_check (hex : ScanExamined file len)
    (hfirst : phdrSize ≤ (ofMem file).phnum * (ofMem file).phentsize →
      (ofMem file).phoff + phdrSize < 2 ^ 64)
    (hcheck : wrap64 ((ofMem file).phAt 0 + phdrSize) ≤ (ofMem file).phEnd) :
    (ofMem file).phoff + phdrSize < 2 ^ 64 := by
  by_contra hnot
  have hsized := sized file
  rw [hsized.phAt_zero, hsized.table_of_check hex.few hex.fits hnot] at hcheck
  exact hnot (hfirst hcheck)

theorem interpAt_congr {eh : ElfHeader} {m m' : Mem} {limit k : ℕ}
    (h : ∀ j ≤ k, eh.prog m' j = eh.prog m j) : eh.InterpAt m' limit k ↔ eh.InterpAt m limit k :=
  ⟨fun hat => ⟨by rw [← h k (le_refl _)]; exact hat.type,
    fun j hj => by rw [← h j (by omega)]; exact hat.first j hj, hat.checked⟩,
    fun hat => ⟨by rw [h k (le_refl _)]; exact hat.type,
      fun j hj => by rw [h j (by omega)]; exact hat.first j hj, hat.checked⟩⟩

/-- The program headers that the scan looks at are those of the file. -/
theorem prog_eq_of_checked (hhdr : HoldsHeaders file hdr) (hex : ScanExamined file len)
    (hoff : (ofMem file).phoff + phdrSize < 2 ^ 64) {k : ℕ} (hk : k ≤ 64)
    (hall : ∀ j ≤ k, wrap64 ((ofMem file).phAt j + phdrSize) ≤
      (ofMem file).phEnd) : ∀ j ≤ k, (ofMem file).prog hdr j = (ofMem file).prog file j := by
  intro j hj
  have hsize : hdrSize = 3648 ∧ phdrSize = 56 := ⟨rfl, rfl⟩
  have hfits := hex.fits
  have hbelow := ((sized file).phAt_of_checked hoff (by omega) (hj.trans hk)
    fun i hi => hall i (hi.trans hj)).2
  exact ProgHeader.ofMem_congr fun x _ hx => hhdr x (.inr (by omega))

include hP hA in
theorem Stable.runs_scanHeaders (hrd : rd.Suits ext4)
    (hfine : ScanExamined file len → (ofMem file).Scanned → (∀ a, A a) ∨ ScanFine file)
    (hm : may ∨ rd.Complete ∧ ScanExamined file len) :
    Runs P may (scanHeaders rd ext4 hdr) fun scan => ScanExamined file len ∧
      HoldsHeaders file scan.hdr ∧ scan.phdrsEnd = (ofMem file).phEnd := by
  refine (hP.runs_fillHdrBuf hA hrd hm).bind fun hdr' hfill => ?_
  obtain ⟨hex, hhdr⟩ := hfill
  simp only [hhdr.eh_eq]
  have hsize : hdrSize = 3648 := rfl
  have hfits := hex.fits
  have hnum := hex.few
  refine Runs.bind (Q := fun o => ∀ ph, o = some ph → (ofMem file).Scanned ∧
      ∃ k < (ofMem file).phnum, ph = (ofMem file).prog hdr' k ∧
        (ofMem file).InterpAt hdr' (ofMem file).phEnd k) ?_ fun o ho => ?_
  · refine .ite (fun hty => ?_) fun _ => runs_pure (by simp)
    rw [min_eq_left hnum]
    refine (hP.runs_scanInterp (fun k hk hall => ?_) (Nat.zero_add _) (by simp)).imp
      fun o ho ph hph => ⟨hty, ?_⟩
    · rcases hfine hex hty with hany | hfine
      · exact ⟨hany _, hany _⟩
      obtain ⟨h4, h48⟩ := (sized file).inside_of_checked
        (hex.first_of_check hfine.first (hall 0 (Nat.zero_le _))) (by omega) hfits (by omega) hall
      exact ⟨hA _ h4, hA _ h48⟩
    · rcases ho (by simp) with ⟨k, hk, rfl, hat⟩ | ⟨rfl, -⟩
      · exact ⟨k, hk, (Option.some.inj hph).symm, hat⟩
      · cases hph
  · refine (hP.runs_interpPath hA fun ph hph hcheck => ?_).bind fun _ _ =>
      runs_pure ⟨hex, hhdr, rfl⟩
    obtain ⟨hty, k, hk, rfl, hat⟩ := ho ph hph
    rcases hfine hex hty with hany | hfine
    · exact hany _
    have hsame := prog_eq_of_checked hhdr hex
      (hex.first_of_check hfine.first (hat.checked 0 (Nat.zero_le _))) (by omega) hat.checked
    have hpath := hfine.interp k hk ((interpAt_congr hsame).1 hat)
    rw [hsame k (Nat.le_refl _)] at hcheck ⊢
    exact hA _ (inside_of_le
      (((pathFine_iff (by omega) (ProgHeader.offset_lt _ _)).1 hpath hcheck).trans hfits))

theorem scanFine_of_safe (hrd : rd.Complete) (hex : ScanExamined file len)
    (hty : (ofMem file).Scanned) {l : LoadLog} (hsafe : (scanHeaders rd ext4 hdr l).2.Safe) :
    ScanFine file := by
  unfold ElfHeader.Scanned at hty
  obtain ⟨hdr', l1, h1, -, -, hhdr⟩ := (stable_true.runs_fillHdrBuf (fun _ _ => trivial)
    (fun _ => hrd) (.inr ⟨hrd, hex⟩)).ok (s := l) trivial
  have hsized := sized file
  have hsize : hdrSize = 3648 := rfl
  have hfits := hex.fits
  rw [scanHeaders, bind_of_ok h1] at hsafe
  simp only [hhdr.eh_eq] at hsafe
  rw [findInterp, if_pos hty, min_eq_left hex.few] at hsafe
  have hfirst : phdrSize ≤ (ofMem file).phnum * (ofMem file).phentsize →
      (ofMem file).phoff + phdrSize < 2 ^ 64 := fun htable => by
    by_contra hoff
    have hone : 0 < (ofMem file).phnum := pos_of_ne_zero fun hzero => by
      rw [hzero] at htable
      simp [phdrSize] at htable
    exact strays_bind (scanInterp_strays hone hsized hoff (by show hdrSize < 2 ^ 63; omega)
        ((hsized.table_of_check hex.few hex.fits hoff).2 htable) _)
      (fun o => (stable_strays.runs_interpPath (fun _ _ => trivial) fun _ _ _ => trivial).bind
        fun _ _ => runs_pure trivial) hsafe
  refine ⟨hfirst, fun k hk hat => ?_⟩
  have hoff := hex.first_of_check hfirst (hat.checked 0 (Nat.zero_le _))
  have hsame := prog_eq_of_checked hhdr hex hoff (by have := hex.few; omega) hat.checked
  have hlt : ((ofMem file).prog hdr' k).offset < 2 ^ 64 := ProgHeader.offset_lt _ _
  rw [← hsame k (Nat.le_refl _), pathFine_iff (by omega) hlt]
  intro hcheck
  by_contra hout
  refine (scanInterp_of_interpAt (b := ⟨hdr', hdrSize⟩) hk ((interpAt_congr hsame).2 hat)).reaches
    (T := LoadLog.Strays) (fun o l ho => ?_) hsafe
  obtain rfl : o = some ((ofMem file).prog hdr' k) := ho
  refine strays_bind (strays_bind ?_ fun _ => (stable_strays.runs_touch trivial).bind fun _ _ =>
    runs_pure trivial) fun _ => runs_pure trivial
  rw [readPath, if_pos hcheck]
  unfold wrap64 at hcheck
  exact strays_bind (touch_strays (by omega) (by omega) l) fun _ =>
    (stable_strays.runs_touch trivial).bind fun _ _ => runs_pure trivial

theorem scanHeaders_returns (hrd : rd.Suits ext4) {l l' : LoadLog} {scan : HeaderScan}
    (h : scanHeaders rd ext4 hdr l = (.ok scan, l')) : ScanExamined file len ∧
      HoldsHeaders file scan.hdr ∧ scan.phdrsEnd = (ofMem file).phEnd :=
  ((stable_true.runs_scanHeaders (fun _ _ => trivial) hrd (fun _ _ => .inl fun _ => trivial)
    (.inl trivial)).of_ok trivial h).2

end Headers

/-! ## Loading a file -/

/-- Loading the file, as program or as interpreter, from a buffer or through a reader, makes no
access outside the buffers and maps no page outside the user half, whatever memory is to be had
and whatever the reads deliver.  `ihdr` is what the buffer for the interpreter's headers holds
when `create_elf_vmas` is called; the result of the read into it is not looked at. -/
structure LoadsSafely (file : Mem) (len hint rand : ℕ) (ihdr : Mem) : Prop where
  buffer : ∀ env, Maintains LoadLog.Safe (elfLoadEx env ⟨file, len⟩ hint rand)
  stream : ∀ env (rd : FileReader file len),
    Maintains LoadLog.Safe (elfLoadExStream env rd hint rand)
  scan : ∀ (rd : FileReader file len) ext4 hdr, rd.Suits ext4 →
    Maintains LoadLog.Safe (scanHeaders rd ext4 hdr)
  program : ∀ (rd : FileReader file len) ext4 hdr scan l l', rd.Suits ext4 →
    scanHeaders rd ext4 hdr l = (.ok scan, l') →
    ∀ env (rd' : FileReader file len) info m m',
    elfLoadExStream env rd' 0 rand m = (.ok info, m') →
    Maintains LoadLog.Safe (createElfVmas ⟨scan.hdr, hdrSize⟩ scan.phdrsEnd info.loadBase)
  interpreter : ∀ env (rd : FileReader file len) info l l',
    elfLoadExStream env rd hint rand l = (.ok info, l') →
    Maintains LoadLog.Safe (createElfVmas ⟨ihdr, hdrSize⟩ (min hdrSize len) info.loadBase)

/-- No offset of the file wraps where it is not noticed, and the program headers of an interpreter
lie inside the buffer for them. -/
structure Benign (file : Mem) (len hint rand : ℕ) (ihdr : Mem) : Prop where
  buffer : Buffer.Examined ⟨file, len⟩ → BufferFine ⟨file, len⟩ hint rand
  stream : StreamExamined file len → StreamFine file len
  scan : ScanExamined file len → (ofMem file).Scanned → ScanFine file
  interpreter : Loadable file len hint rand → ∀ k < (ofMem ihdr).phnum,
    Buffer.Holds ⟨ihdr, hdrSize⟩ (ofMem ihdr) k

/-- The header of an executable with `phnum` program headers at `phoff`. -/
def headerBytes (phoff : BitVec 64) (phnum : BitVec 16) : List Byte :=
  [0x7f#8, 0x45#8, 0x4c#8, 0x46#8, 2#8] ++ replicate 11 0 ++ toBytes 2 2#16 ++ toBytes 2 62#16 ++
    replicate 12 0 ++ toBytes 8 phoff ++ replicate 14 0 ++ toBytes 2 56#16 ++
    toBytes 2 phnum ++ replicate 6 0

/-- A file with that header and zeros behind it. -/
def bareImage (phoff : BitVec 64) (phnum : BitVec 16) : Mem :=
  write (fun _ => 0) 0 (headerBytes phoff phnum)

/-- A file of one segment that is the whole file of 120 bytes, at 0x400000. -/
def smallImage : Mem :=
  write (bareImage 64 1) 64 (toBytes 4 1#32 ++ toBytes 4 5#32 ++ toBytes 8 0#64 ++
    toBytes 8 0x400000#64 ++ toBytes 8 0#64 ++ toBytes 8 120#64 ++ toBytes 8 120#64)

theorem smallImage_prog : ProgHeader.ofMem smallImage 64 = ⟨1, 5, 0, 0x400000, 120, 120⟩ := by
  congr 1

end CosmoRT.Proc
