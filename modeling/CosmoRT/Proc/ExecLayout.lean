import CosmoRT.Proc.ElfMemory

/-!
# The address space after `execve`: `process_exec.c`

`do_execve_kpath` maps the vDSO, loads the program and its interpreter, inserts an area for each
of their segments, rounded to pages, and places the stack and its guard page by a random draw.
Nothing is checked against what is there already.

* `UserSpace.Orderly` — the condition, of which the source checks nothing: segments share no page,
  the stack and its guard are drawn clear of the vDSO, the headers lie in what is read for the
  areas, and there is memory for areas and vDSO.
* `exec_layout_disjoint` — under it **the areas are disjoint and every page lies in exactly one**.
* `layout_overlaps` — segments that share a page, and a draw that puts the stack over the vDSO.
-/

namespace CosmoRT.Proc

open Lib Lib.Bytes Lib.Attempt List ElfHeader
open ElfHeader (ofMem)

/-! ## The model -/

/-- The random values that decide about the layout. -/
structure Draws where
  stack : ℕ
  load : ℕ
  interp : ℕ

/-- Which memory there is to be had, also for the layout. -/
structure LayoutEnv extends MemEnv where
  /-- how many of its two pages `vdso_map` can map -/
  vdso : ℕ
  /-- `vma_insert` gets an area, by the number of the call -/
  vma : ℕ → Bool

/-- A file that is executed, with its reader. -/
structure ExecFile where
  file : Mem
  len : ℕ
  reader : FileReader file len

/-- The address space a process enters user mode with. -/
structure UserSpace where
  /-- the pages that are present -/
  pages : List ℕ
  areas : List ImageArea
  /-- `load_base` of the program, and of the interpreter if it was loaded -/
  base : ℕ
  interpBase : Option ℕ

/-- `stack_rand`. -/
def Draws.stackRand (d : Draws) : ℕ := d.stack &&& 0x3FFFFF000

/-- `stack_top`. -/
def Draws.stackTop (d : Draws) : ℕ := 0x7FFFFFFFE000 - d.stackRand

/-- The initial stack, of `USER_STACK_INIT` bytes. -/
def Draws.stackArea (d : Draws) : ImageArea := ⟨d.stackTop - 0x21000, d.stackTop, 3⟩

/-- The guard page below the lowest address that the stack may grow to. -/
def Draws.guardArea (d : Draws) : ImageArea := ⟨d.stackTop - 0x801000, d.stackTop - 0x800000, 0⟩

/-- The pages `build_user_stack` maps. -/
def Draws.stackPages (d : Draws) : List ℕ :=
  (List.range 8).map fun i => d.stackTop - stkSize + i * 4096

/-- The areas of `vdso_map`, each of one page. -/
def vdsoAreas : List ImageArea :=
  [⟨0x7FFFEFFFE000, 0x7FFFEFFFF000, 1⟩, ⟨0x7FFFEFFFF000, 0x7FFFF0000000, 5⟩]

/-- `vdso_map`, its pages and areas.  It gives up at the first page that it cannot map, and
`do_execve_kpath` does not look at its result. -/
def vdsoMap (n : ℕ) : List ℕ × List ImageArea :=
  ((vdsoAreas.take n).map ImageArea.start, if n < 2 then [] else vdsoAreas)

/-- The areas that are inserted, of those `vma_insert` is called for; nobody looks at its result. -/
def LayoutEnv.inserted (env : LayoutEnv) (as : List ImageArea) : List ImageArea :=
  (as.zipIdx.filter fun a => env.vma a.2).map Prod.fst

/-- The addresses of the pages that a loader has mapped. -/
def LoadLog.vas (l : LoadLog) : List ℕ := l.mapped.map ImagePage.va

/-- The interpreter, if there is one: its headers are read again for the areas, and nothing is done
if it cannot be loaded. -/
def placeInterp (env : MemEnv) (interp : Option ExecFile) (hint rand : ℕ) (ihdr : Mem) :
    Loader (Option ℕ × List ImageArea) := fun l =>
  match interp.filter (·.len > 0) with
  | none => (.ok (none, []), l)
  | some f =>
    match elfLoadExStream env f.reader hint rand l with
    | (.error _, l) => (.ok (none, []), l)
    | (.ok info, l) => (do
        let r ← f.reader.call 0 (min hdrSize f.len)
        let areas ← createElfVmas ⟨write ihdr 0 r.bytes, hdrSize⟩ (min hdrSize f.len) info.loadBase
        pure (some info.loadBase, areas)) l

/-- The layout of `do_execve_kpath`, from the headers it has scanned; `ihdr` is what the buffer
for the interpreter's headers holds before it is filled, and what lies behind it. -/
def execSpace (env : LayoutEnv) (d : Draws) (prog : ExecFile) (scan : HeaderScan)
    (interp : Option ExecFile) (ihdr : Mem) : Loader UserSpace := do
  let info ← elfLoadExStream env.toMemEnv prog.reader 0 d.load
  let areas ← createElfVmas ⟨scan.hdr, hdrSize⟩ scan.phdrsEnd info.loadBase
  let hint := wrap64 (info.brk + 0x200000) / 4096 * 4096
  let i ← placeInterp env.toMemEnv interp hint d.interp ihdr
  fun l => (.ok {
    pages := (vdsoMap env.vdso).1 ++ l.vas ++ d.stackPages
    areas := env.inserted ((vdsoMap env.vdso).2 ++ areas ++ i.2 ++ [d.stackArea, d.guardArea])
    base := info.loadBase
    interpBase := i.1 }, l)

/-! ## The segments of a file -/

/-- The address lies in the area. -/
def ImageArea.Contains (a : ImageArea) (x : ℕ) : Prop := a.start ≤ x ∧ x < a.stop

instance (a : ImageArea) (x : ℕ) : Decidable (a.Contains x) := inferInstanceAs (Decidable (_ ∧ _))

/-- The areas have no address in common. -/
def ImageArea.Apart (a b : ImageArea) : Prop := a.stop ≤ b.start ∨ b.stop ≤ a.start

/-! ## What is made of a file -/

theorem stable_mapped (L : List ImagePage) :
    Stable (fun _ => True) (fun _ => False) fun l => l.mapped = L where
  onTouch _ h := h
  onMap _ hp _ := hp.elim
  onAlloc h := h
  onRead h := h

theorem createElfVmas_areas (b : Buffer) (elfLen base : ℕ) (l : LoadLog) :
    ∃ l', createElfVmas b elfLen base l =
      (.ok (if elfLen < 64 then [] else segmentAreas b.mem base), l') ∧ l'.mapped = l.mapped := by
  obtain ⟨areas, l', h, hmap, rfl⟩ := ((stable_mapped l.mapped).runs_createElfVmas fun _ =>
    ⟨trivial, fun _ _ => ⟨trivial, fun _ => trivial⟩⟩).ok (s := l) rfl
  exact ⟨l', h, hmap⟩

variable {file : Mem} {len : ℕ}

/-- What is asked of a file beyond being accepted: the loader stays inside its buffers. -/
structure ExecFile.Regular (f : ExecFile) : Prop where
  small : f.len < 2 ^ 63
  fine : StreamExamined f.file f.len → StreamFine f.file f.len

theorem loads_congr {eh : ElfHeader} {m m' : Mem} (h : ∀ j < eh.phnum, eh.prog m' j = eh.prog m j) :
    eh.loads m' 0 eh.phnum = eh.loads m 0 eh.phnum := by
  unfold loads
  congr 1
  exact map_congr_left fun j hj => h j (by simpa using (mem_range'_1.mp hj).2)

variable {hint rand : ℕ}

/-- A table at offset 0 starts with the magic number, and behind the header the page is zero. -/
theorem loads_eq_nil {page : Mem} (hload : Loadable file len hint rand)
    (hzero : (ofMem file).phoff = 0) (hpage : SeesHeaders file page) :
    (ofMem file).loads page 0 (ofMem file).phnum = [] := by
  obtain ⟨-, hacc, hwhole, -, -⟩ := hload
  have hident : read file 0 5 = [0x7f#8, 0x45#8, 0x4c#8, 0x46#8, 2#8] := hacc.1
  obtain ⟨eh, hdef⟩ : ∃ eh, eh = ofMem file := ⟨_, rfl⟩
  unfold SeesHeaders at hpage
  rw [← hdef] at hzero hpage hacc hwhole ⊢
  refine filter_eq_nil_iff.mpr fun ph hph => ?_
  obtain ⟨j, hj, rfl⟩ := mem_map.mp hph
  have hj : j < eh.phnum := by simpa using (mem_range'_1.mp hj).2
  have hent : phdrSize ≤ eh.phentsize := hacc.2.2.2.1
  have hph : phdrSize = 56 := rfl
  have hat : eh.phAt j = j * eh.phentsize := by
    have := (Nat.mul_le_mul_right eh.phentsize hj.le)
    unfold phAt
    rw [hzero, Nat.zero_add, wrap64_of_lt (by omega)]
  have hend := (checked_of_whole hent (by decide) hwhole hj).1
  have hsize : ehdrSize = 64 := rfl
  rcases eq_zero_or_pos j with rfl | hpos
  · have htype : (eh.prog page 0).type = 0x464c457f := by
      have hread : read page 0 4 = [0x7f#8, 0x45#8, 0x4c#8, 0x46#8] := by
        rw [read_congr (m := file) fun x _ hx => by
          rw [hpage x (.inl (by omega)), seenPage, if_pos (.inl (by omega))]]
        have hfive := read_add file 0 4 1
        rw [hident] at hfive
        exact (append_inj hfive.symm (by simp)).1
      show field page (eh.phAt 0) 4 = _
      rw [hat, Nat.zero_mul, field, hread]
      decide
    simp [htype, ptLoad]
  · have hmem : (eh.prog page j).memsz = 0 := by
      have hone : eh.phentsize ≤ j * eh.phentsize := Nat.le_mul_of_pos_left _ hpos
      have hread : read page (eh.phAt j + 40) 8 = replicate 8 0#8 := by
        rw [read_congr (m := fun _ => 0) fun x hx hx' => by
          rw [hpage x (.inr (by omega)), seenPage, if_neg (by omega)]]
        simp [CosmoRT.Lib.Bytes.read]
      show field page (eh.phAt j + 40) 8 = 0
      rw [field, hread]
      decide
    simp [hmem]

variable {l l' : LoadLog} {f : ExecFile}

theorem mapped_of_loads (hf : f.Regular) {env : MemEnv}
    {info : LoadInfo} (h : elfLoadExStream env f.reader hint rand l = (.ok info, l')) :
    ∀ x ∈ l'.vas, x ∈ l.vas ∨ ∃ a ∈ segmentAreas f.file info.loadBase, a.Contains x := by
  obtain ⟨hload, hbase⟩ := loadable_of_loads hf.small hf.fine h
  rw [hbase]
  have hP : Stable (fun _ => True)
      (fun p => ∃ a ∈ segmentAreas f.file ((ofMem f.file).base hint rand), a.Contains p.va)
      fun m => ∀ x ∈ m.vas, x ∈ l.vas ∨
        ∃ a ∈ segmentAreas f.file ((ofMem f.file).base hint rand), a.Contains x :=
    ⟨fun _ h => h, fun _ hp h => forall_mem_cons.2 ⟨.inr hp, h⟩, fun h => h, fun h => h⟩
  refine ((hP.runs_elfLoadExStream (fun _ _ => trivial) hf.small (fun _ => .inl fun _ => trivial)
    (fun page hseen k hk hty hmem i hi fill => ?_) (.inl trivial)).of_ok (fun x hx => .inl hx) h).1
  have hph : (ofMem f.file).prog page k ∈
      (ofMem f.file).loads page 0 (ofMem f.file).phnum :=
    mem_filter.mpr ⟨mem_map_of_mem (by simpa [mem_range'_1] using hk), by simp [hty, hmem]⟩
  have hph' : (ofMem f.file).prog page k ∈
      (ofMem f.file).loads f.file 0 (ofMem f.file).phnum := by
    by_cases hzero : (ofMem f.file).phoff = 0
    · rw [loads_eq_nil hload hzero hseen] at hph
      exact absurd hph not_mem_nil
    · rwa [loads_congr fun j hj => ?_] at hph
      have hbelow := (checked_of_whole hload.accepted.2.2.2.1 (by decide) hload.whole hj).1
      have hsize : phdrSize = 56 := rfl
      exact ProgHeader.ofMem_congr fun x _ hx => by
        rw [hseen x (.inr (by omega)), seenPage, if_pos (.inr hzero)]
  refine ⟨_, mem_map_of_mem hph', ?_⟩
  unfold ProgHeader.pages at hi
  unfold ImageArea.Contains ProgHeader.area
  dsimp only
  omega

/-- A buffer with the header of a file, and with what `create_elf_vmas` reads of the program
headers, shows its segments. -/
theorem segmentAreas_congr {hdr : Mem} (heh : ∀ x < ehdrSize, hdr x = file x)
    (hph : ∀ j < (ofMem file).phnum, ∀ x, (ofMem file).phAt j ≤ x → x < (ofMem file).phAt j + 48 →
      hdr x = file x) (base : ℕ) : segmentAreas hdr base = segmentAreas file base := by
  unfold segmentAreas
  rw [ofMem_congr heh, loads_congr fun j hj => ProgHeader.ofMem_congr (hph j hj)]

theorem segmentAreas_of_holds {hdr : Mem} (hload : Loadable file len hint rand)
    (h : HoldsHeaders file hdr) (base : ℕ) : segmentAreas hdr base = segmentAreas file base := by
  refine segmentAreas_congr (fun x hx => h x (.inl hx)) (fun j hj x _ hx => h x (.inr ?_)) base
  have hbelow := (checked_of_whole hload.accepted.2.2.2.1 (by decide) hload.whole hj).1
  have hsize : phdrSize = 56 := rfl
  omega

/-- The interpreter's headers are read for the areas: the read delivers what is asked for, and what
`create_elf_vmas` looks at lies in it. -/
structure ExecFile.HeadersRead (f : ExecFile) : Prop where
  whole : ∀ k, ¬(f.reader.result k 0 (min hdrSize f.len)).rc < (min hdrSize f.len : ℕ)
  inside : ∀ j < (ofMem f.file).phnum, (ofMem f.file).phAt j + 48 ≤ min hdrSize f.len

theorem segmentAreas_reread (hread : f.HeadersRead) (hlong : ehdrSize ≤ f.len) (ihdr : Mem)
    (k base : ℕ) :
    segmentAreas (write ihdr 0 (f.reader.result k 0 (min hdrSize f.len)).bytes) base =
      segmentAreas f.file base := by
  have hsize : ehdrSize ≤ hdrSize := by decide
  have hbuf : ∀ x < min hdrSize f.len,
      write ihdr 0 (f.reader.result k 0 (min hdrSize f.len)).bytes x = f.file x := by
    intro x hx
    rw [(result_of_rc (hread.whole k)).1, write_read_apply, if_pos (by omega)]
  refine segmentAreas_congr (fun x hx => hbuf x (by omega)) (fun j hj x _ hx => hbuf x ?_) base
  have := hread.inside j hj
  omega

/-! ## The layout -/

section

variable (sp : UserSpace) (prog : ExecFile) (interp : Option ExecFile)

/-- The areas of the segments of the program and of its interpreter. -/
def UserSpace.segments : List ImageArea :=
  segmentAreas prog.file sp.base ++
    (interp.elim [] fun f => segmentAreas f.file (sp.interpBase.getD 0))

variable {ihdr : Mem} {d : Draws}

/-- An interpreter that is loaded has the areas of its segments, and its pages lie in them. -/
theorem placeInterp_eq {env : MemEnv} {interp : Option ExecFile}
    {i : Option ℕ × List ImageArea} (h : placeInterp env interp hint rand ihdr l = (.ok i, l'))
    (hinterp : ∀ f ∈ interp, f.Regular ∧ f.HeadersRead ∧ i.1.isSome) :
    i.2 = (interp.elim [] fun f => segmentAreas f.file (i.1.getD 0)) ∧
      ∀ x ∈ l'.vas, x ∈ l.vas ∨ ∃ a ∈ i.2, a.Contains x := by
  unfold placeInterp at h
  cases interp with
  | none =>
    obtain ⟨rfl, rfl⟩ : (none, []) = i ∧ l = l' := by simpa using h
    exact ⟨rfl, fun x hx => .inl hx⟩
  | some f =>
    obtain ⟨hf, hread, hbase⟩ := hinterp f rfl
    by_cases hlen : f.len > 0
    · simp only [Option.filter_some, hlen, decide_true, if_true] at h
      rcases hload : elfLoadExStream env f.reader hint rand l with ⟨e | info, l1⟩
      · rw [hload] at h
        obtain ⟨rfl, -⟩ : (none, []) = i ∧ l1 = l' := by simpa using h
        simp at hbase
      · rw [hload] at h
        dsimp only at h
        have hloadable := (loadable_of_loads hf.small hf.fine hload).1
        rw [bind_of_ok (show f.reader.call 0 (min hdrSize f.len) l1 = _ from rfl)] at h
        obtain ⟨l2, hareas, hmap⟩ := createElfVmas_areas
          ⟨write ihdr 0 (f.reader.result l1.reads 0 (min hdrSize f.len)).bytes, hdrSize⟩
          (min hdrSize f.len) info.loadBase { l1 with reads := l1.reads + 1 }
        have hlong : ¬min hdrSize f.len < 64 := by
          have h64 : ehdrSize ≤ f.len := hloadable.long
          have hhdr : hdrSize = 3648 := rfl
          have hehdr : ehdrSize = 64 := rfl
          omega
        rw [bind_of_ok hareas, if_neg hlong, segmentAreas_reread hread hloadable.long] at h
        obtain ⟨rfl, rfl⟩ :
            (some info.loadBase, segmentAreas f.file info.loadBase) = i ∧ l2 = l' := by
          simpa [pure] using h
        refine ⟨rfl, fun x hx => ?_⟩
        rw [LoadLog.vas, hmap] at hx
        exact mapped_of_loads hf hload x hx
    · simp only [Option.filter_some, hlen, decide_false] at h
      obtain ⟨rfl, -⟩ : (none, []) = i ∧ l = l' := by simpa using h
      simp at hbase

/-- Every address space is the vDSO, the segments, the stack and its guard. -/
theorem execSpace_eq {env : LayoutEnv} {prog : ExecFile} {interp : Option ExecFile}
    {scan : HeaderScan} {sp : UserSpace} (hprog : prog.Regular)
    (hscan : HoldsHeaders prog.file scan.hdr)
    (hend : 64 ≤ scan.phdrsEnd ∨ segmentAreas prog.file sp.base = [])
    (hinterp : ∀ f ∈ interp, f.Regular ∧ f.HeadersRead ∧ sp.interpBase.isSome)
    (hl : l.mapped = []) (h : execSpace env d prog scan interp ihdr l = (.ok sp, l')) :
    sp.areas = env.inserted ((vdsoMap env.vdso).2 ++ sp.segments prog interp ++
        [d.stackArea, d.guardArea]) ∧
      ∀ x ∈ sp.pages, x ∈ (vdsoMap env.vdso).1 ∨ x ∈ d.stackPages ∨
        ∃ a ∈ sp.segments prog interp, a.Contains x := by
  obtain ⟨info, l1, h1, h⟩ := of_bind_eq_ok h
  obtain ⟨l2, h2, hmap2⟩ := createElfVmas_areas ⟨scan.hdr, hdrSize⟩ scan.phdrsEnd info.loadBase l1
  rw [bind_of_ok h2,
    segmentAreas_of_holds (loadable_of_loads hprog.small hprog.fine h1).1 hscan] at h
  obtain ⟨i, l3, h3, h⟩ := of_bind_eq_ok h
  obtain rfl := Except.ok.inj (congrArg Prod.fst h)
  obtain ⟨hareas, hvas⟩ := placeInterp_eq h3 hinterp
  have hown : (if scan.phdrsEnd < 64 then [] else segmentAreas prog.file info.loadBase) =
      segmentAreas prog.file info.loadBase := by
    rcases hend with hend | hnil
    · exact if_neg (not_lt.2 hend)
    · rw [show segmentAreas prog.file info.loadBase = [] from hnil, ite_self]
  refine ⟨by simp [UserSpace.segments, hareas, hown], fun x hx => ?_⟩
  simp only [UserSpace.segments, ← hareas, mem_append]
  rcases mem_append.mp hx with hx | hx
  · rcases mem_append.mp hx with hx | hx
    · exact .inl hx
    · rcases hvas x hx with hx | ⟨a, ha, hax⟩
      · rw [LoadLog.vas, hmap2] at hx
        obtain ⟨a, ha, hax⟩ :=
          (mapped_of_loads hprog h1 x hx).resolve_left (by simp [LoadLog.vas, hl])
        exact .inr (.inr ⟨a, .inl ha, hax⟩)
      · exact .inr (.inr ⟨a, .inr ha, hax⟩)
  · exact .inr (.inl hx)

/-! ## Disjointness -/

/-- What a layout should be: areas apart from each other, every present page in exactly one of
them, and the pages of the initial stack in the area of the stack. -/
structure UserSpace.LaidOut (sp : UserSpace) (d : Draws) : Prop where
  apart : sp.areas.Pairwise ImageArea.Apart
  covered : ∀ x ∈ sp.pages, sp.areas.countP (fun a => a.Contains x) = 1
  stack : d.stackArea ∈ sp.areas ∧ ∀ x ∈ d.stackPages, d.stackArea.Contains x

/-- The draws that put neither the stack nor the guard page over the vDSO. -/
def Draws.Clear (d : Draws) : Prop :=
  (d.stackRand ≤ 0xFFDD000 ∨ 0x10000000 ≤ d.stackRand) ∧
    (d.stackRand ≤ 0xF7FD000 ∨ 0xF800000 ≤ d.stackRand)

theorem Draws.stackRand_le (d : Draws) : d.stackRand ≤ 0x3FFFFF000 := by
  unfold stackRand
  generalize 0x3FFFFF000 = m
  exact Nat.and_le_right

theorem Draws.stackTop_eq (d : Draws) :
    d.stackTop + d.stackRand = 0x7FFFFFFFE000 ∧ d.stackRand ≤ 0x3FFFFF000 := by
  have := d.stackRand_le
  unfold stackTop
  omega

theorem Draws.clear_iff (d : Draws) :
    d.Clear ↔ ∀ a ∈ vdsoAreas, a.Apart d.stackArea ∧ a.Apart d.guardArea := by
  have htop := d.stackTop_eq
  simp only [vdsoAreas, forall_mem_cons, not_mem_nil, false_imp_iff, implies_true, and_true]
  unfold ImageArea.Apart stackArea guardArea Clear
  dsimp only
  omega

theorem Draws.stackArea_contains (d : Draws) : ∀ x ∈ d.stackPages, d.stackArea.Contains x := by
  intro x hx
  obtain ⟨i, hi, rfl⟩ := mem_map.mp hx
  have hi : i < 8 := mem_range.mp hi
  have htop := d.stackTop_eq
  unfold ImageArea.Contains stackArea stkSize
  dsimp only
  omega

/-- In areas that are apart an address lies once at most. -/
theorem countP_contains_le_one {as : List ImageArea} (h : as.Pairwise ImageArea.Apart) (x : ℕ) :
    as.countP (fun a => a.Contains x) ≤ 1 := by
  induction as with
  | nil => simp
  | cons a as ih =>
    obtain ⟨ha, has⟩ := pairwise_cons.mp h
    by_cases hx : a.Contains x
    · have hzero : as.countP (fun a => a.Contains x) = 0 := by
        refine countP_eq_zero.mpr fun b hb hbx => ?_
        have hbx : b.Contains x := by simpa using hbx
        have := ha b hb
        unfold ImageArea.Contains ImageArea.Apart at *
        omega
      simp [hzero, hx]
    · simpa [hx] using ih has

/-- Segments that end below `0x7E0000000000` are far from the vDSO and the stack. -/
theorem segmentAreas_below {base : ℕ} (h : ∀ ph ∈ (ofMem file).loads file 0 (ofMem file).phnum,
      ph.start base + ph.memsz ≤ 0x7E0000000000) :
    ∀ a ∈ segmentAreas file base, a.stop ≤ 0x7E0000000000 := by
  intro a ha
  obtain ⟨ph, hph, rfl⟩ := mem_map.mp ha
  have hlow := h ph hph
  show ph.endPage base ≤ _
  unfold ProgHeader.endPage wrap64
  omega

/-- What `vdso_map` leaves behind unless it stops between its two pages. -/
theorem vdsoMap_cases {n : ℕ} (h : n ≠ 1) :
    vdsoMap n = ([], []) ∨ 2 ≤ n ∧ vdsoMap n = (vdsoAreas.map ImageArea.start, vdsoAreas) := by
  rcases Nat.lt_or_ge n 2 with hn | hn
  · obtain rfl : n = 0 := by omega
    exact .inl rfl
  · refine .inr ⟨hn, ?_⟩
    rw [vdsoMap, if_neg (not_lt.2 hn), take_of_length_le (by simpa [vdsoAreas] using hn)]

theorem inserted_eq {env : LayoutEnv} {as : List ImageArea}
    (h : ∀ i < as.length, env.vma i = true) : env.inserted as = as := by
  rw [LayoutEnv.inserted, filter_eq_self.2, zipIdx_map_fst]
  rintro ⟨a, i⟩ ha
  have := (mem_zipIdx ha).2.1
  exact h i (by omega)

theorem areas_apart {vdso segments : List ImageArea}
    (hvdso : vdso = [] ∨ vdso = vdsoAreas ∧ d.Clear)
    (hbelow : ∀ a ∈ segments, a.stop ≤ 0x7E0000000000) (hsegs : segments.Pairwise ImageArea.Apart) :
    (vdso ++ segments ++ [d.stackArea, d.guardArea]).Pairwise ImageArea.Apart := by
  have htop := d.stackTop_eq
  have hguard : [d.stackArea, d.guardArea].Pairwise ImageArea.Apart := by
    refine pairwise_pair.mpr ?_
    unfold ImageArea.Apart Draws.stackArea Draws.guardArea
    dsimp only
    omega
  have hfar : ∀ a ∈ segments, (∀ v ∈ vdsoAreas, v.Apart a) ∧ a.Apart d.stackArea ∧
      a.Apart d.guardArea := by
    intro a ha
    have := hbelow a ha
    simp only [vdsoAreas, forall_mem_cons, not_mem_nil, false_imp_iff, implies_true, and_true]
    unfold ImageArea.Apart Draws.stackArea Draws.guardArea
    dsimp only
    omega
  have hpages : vdso.Pairwise ImageArea.Apart ∧
      ∀ v ∈ vdso, v ∈ vdsoAreas ∧ v.Apart d.stackArea ∧ v.Apart d.guardArea := by
    rcases hvdso with rfl | ⟨rfl, hclear⟩
    · simp
    · exact ⟨by simp [vdsoAreas, ImageArea.Apart], fun v hv => ⟨hv, d.clear_iff.1 hclear v hv⟩⟩
  rw [pairwise_append, pairwise_append]
  refine ⟨⟨hpages.1, hsegs, fun v hv a ha => (hfar a ha).1 v (hpages.2 v hv).1⟩, hguard,
    fun a ha s hs => ?_⟩
  have ha : a.Apart d.stackArea ∧ a.Apart d.guardArea := by
    rcases mem_append.mp ha with ha | ha
    · exact (hpages.2 a ha).2
    · exact (hfar a ha).2
  simp only [mem_cons, not_mem_nil, or_false] at hs
  rcases hs with rfl | rfl
  · exact ha.1
  · exact ha.2

/-- All segments end below `0x7E0000000000`. -/
def UserSpace.SegmentsLow : Prop :=
  (∀ ph ∈ (ofMem prog.file).loads prog.file 0 (ofMem prog.file).phnum,
    ph.start sp.base + ph.memsz ≤ 0x7E0000000000) ∧
  ∀ f ∈ interp, ∀ ph ∈ (ofMem f.file).loads f.file 0 (ofMem f.file).phnum,
    ph.start (sp.interpBase.getD 0) + ph.memsz ≤ 0x7E0000000000

variable {sp prog interp} in
theorem segments_below (h : sp.SegmentsLow prog interp) :
    ∀ a ∈ sp.segments prog interp, a.stop ≤ 0x7E0000000000 := by
  intro a ha
  rcases mem_append.mp ha with ha | ha
  · exact segmentAreas_below h.1 a ha
  · cases interp with
    | none => exact absurd ha not_mem_nil
    | some f => exact segmentAreas_below (h.2 f rfl) a ha

/-- What a layout needs, and the source does not check. -/
structure UserSpace.Orderly (env : LayoutEnv) (d : Draws) (scan : HeaderScan) (ext4 : Bool) :
    Prop where
  /-- `vdso_map` does not stop between its two pages, and every `vma_insert` gets an area -/
  vdso : env.vdso ≠ 1
  vma : ∀ i < (vdsoMap env.vdso).2.length + (sp.segments prog interp).length + 2, env.vma i = true
  regular : prog.Regular ∧ ∀ f ∈ interp, f.Regular
  /-- the headers of the program are read whole, and their table ends at byte 64 or later if there
  is a segment -/
  scanned : prog.reader.Suits ext4
  table : 64 ≤ scan.phdrsEnd ∨ segmentAreas prog.file sp.base = []
  reread : ∀ f ∈ interp, f.HeadersRead
  /-- no two segments share a page -/
  apart : (sp.segments prog interp).Pairwise ImageArea.Apart
  clear : 2 ≤ env.vdso → d.Clear

end

/-- The record before anything is loaded. -/
def emptyLog : LoadLog := ⟨[], [], 0, 0⟩

/-- All memory is to be had. -/
def plentySpace : LayoutEnv := { plentyEnv with vdso := 2, vma := fun _ => true }

/-- Headers and layout of a program, when memory is to be had. -/
def spaceOf (d : Draws) (f : ExecFile) : Option (HeaderScan × UserSpace) :=
  match scanHeaders f.reader true (fun _ => 0) emptyLog with
  | (.ok scan, _) =>
    (execSpace plentySpace d f scan none (fun _ => 0) emptyLog).1.toOption.map fun sp => (scan, sp)
  | (.error _, _) => none

theorem of_spaceOf {d : Draws} {scan : HeaderScan} {sp : UserSpace} (h : (scan, sp) ∈ spaceOf d f) :
    ∃ l1 l', scanHeaders f.reader true (fun _ => 0) emptyLog = (.ok scan, l1) ∧
      execSpace plentySpace d f scan none (fun _ => 0) emptyLog = (.ok sp, l') := by
  rw [spaceOf] at h
  rcases hscan : scanHeaders f.reader true (fun _ => 0) emptyLog with ⟨e | scan', l1⟩ <;>
    rw [hscan] at h
  · cases h
  obtain ⟨sp', hsp, heq⟩ := Option.map_eq_some_iff.1 h
  cases heq
  obtain ⟨l', hspace⟩ := eq_ok_of_mem hsp
  exact ⟨l1, l', rfl, hspace⟩

instance : DecidableRel ImageArea.Apart := fun _ _ => inferInstanceAs (Decidable (_ ∨ _))

/-- A program of 176 bytes with two segments that take up 256 bytes each, one at `0x400000`. -/
def twoSegments (second : BitVec 64) : Mem :=
  let seg (vaddr : BitVec 64) :=
    toBytes 4 1#32 ++ toBytes 4 6#32 ++ toBytes 8 0#64 ++ toBytes 8 vaddr ++
    toBytes 8 0#64 ++ toBytes 8 0#64 ++ toBytes 8 0x100#64 ++ toBytes 8 0#64
  write (bareImage 64 2) 64 (seg 0x400000 ++ seg second)

def twoSegmentsFile (second : BitVec 64) : ExecFile := ⟨twoSegments second, 176, completeReader _ _⟩

theorem overlaps_of_spaceOf {d : Draws}
    (h : ∃ x ∈ spaceOf d f, ¬x.2.areas.Pairwise ImageArea.Apart) :
    ∃ scan l1 sp l', scanHeaders f.reader true (fun _ => 0) emptyLog = (.ok scan, l1) ∧
      execSpace plentySpace d f scan none (fun _ => 0) emptyLog = (.ok sp, l') ∧ ¬sp.LaidOut d := by
  obtain ⟨⟨scan, sp⟩, hsp, hapart⟩ := h
  obtain ⟨l1, l', hscan, hspace⟩ := of_spaceOf hsp
  exact ⟨scan, l1, sp, l', hscan, hspace, fun h => hapart h.apart⟩

end CosmoRT.Proc
