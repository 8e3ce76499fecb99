import CosmoRT.Proc.Execve

/-!
# Scripts and their interpreters

Each `#!` line makes `do_execve_kpath` start over with the interpreter, whose arguments are put in
front of the script's.  `kpath` and the vector of pointers are rewritten in place; script paths and
arguments of the lines are stored behind the strings of the caller, without a check.

* `scripts_vector_iff` — **the interpreter gets the arguments it should exactly when** no line that
  is reached stores behind the buffer.
-/

namespace CosmoRT.Proc

open Event Lib Lib.Bytes List

/-! ## Strings in memory -/

section

variable {m m' : Mem} {n a : ℕ} {s : List Byte}

theorem stringAt_succ (m : Mem) (n a : ℕ) : (stringAt m (n + 1) a).bytes =
    if m a = 0#8 then [] else m a :: (stringAt m n (a + 1)).bytes := by
  rw [stringAt]
  split_ifs <;> rfl

theorem stringAt_congr (h : ∀ x ≤ a + (stringAt m n a).bytes.length, m' x = m x) :
    stringAt m' n a = stringAt m n a := by
  induction n generalizing a with
  | zero => rfl
  | succ n ih =>
    have ha : m' a = m a := h a (Nat.le_add_right ..)
    refine CString.ext ?_
    rw [stringAt_succ] at h ⊢
    rw [stringAt_succ, ha]
    split_ifs with hz
    · rfl
    · rw [ih fun x hx => h x ?_]
      rw [if_neg hz, length_cons]
      omega

theorem stringAt_of_read (h : read m a (s.length + 1) = s ++ [0#8]) (hn : s.length < n) :
    stringAt m n a = .ofBytes s := by
  induction s generalizing n a with
  | nil =>
    obtain ⟨n, rfl⟩ := Nat.exists_eq_succ_of_ne_zero (Nat.ne_zero_of_lt hn)
    have ha : m a = 0#8 := by simpa [CosmoRT.Lib.Bytes.read] using h
    exact CString.ext (by simp [stringAt_succ, ha, CString.ofBytes])
  | cons c s ih =>
    obtain ⟨n, rfl⟩ := Nat.exists_eq_succ_of_ne_zero (Nat.ne_zero_of_lt hn)
    rw [length_cons, Nat.add_comm, read_add, cons_append] at h
    obtain ⟨rfl, hrest⟩ : m a = c ∧ read m (a + 1) (s.length + 1) = s ++ [0#8] := by
      simpa [CosmoRT.Lib.Bytes.read] using h
    refine CString.ext ?_
    rw [stringAt_succ, ih hrest (Nat.lt_of_succ_lt_succ hn)]
    split_ifs with hz <;> simp [CString.ofBytes, hz]

theorem CString.ofBytes_bytes (s : CString) : CString.ofBytes s.bytes = s :=
  CString.ext (takeWhile_eq_self_iff.2 fun c hc => by
    simpa using fun h : c = 0#8 => s.no_nul (h ▸ hc))

end

/-! ## The buffers -/

section

variable {b b' b'' : ArgBuf} {p : ArgPtr} {s : List Byte}

/-- What `strbuf` was filled with is still there. -/
structure ArgBuf.Extends (b b' : ArgBuf) : Prop where
  off : b.off ≤ b'.off
  same : ∀ x < b.off, b'.strbuf x = b.strbuf x

theorem ArgBuf.Extends.trans (h : b.Extends b') (h' : b'.Extends b'') : b.Extends b'' :=
  ⟨h.off.trans h'.off, fun x hx => (h'.same x (hx.trans_le h.off)).trans (h.same x hx)⟩

theorem ArgBuf.extends_store (b : ArgBuf) (s : List Byte) : b.Extends (b.store s) :=
  ⟨by simp only [store]; omega, fun _ hx => write_of_outside rfl (.inl hx)⟩

/-- The string lies in the filled part of `strbuf`. -/
def ArgBuf.Settled (b : ArgBuf) (p : ArgPtr) : Prop :=
  ∃ o, p = .strbuf o ∧ o + (b.string p).bytes.length < b.off

theorem ArgBuf.Settled.keep (h : b.Settled p) (hext : b.Extends b') :
    b'.string p = b.string p ∧ b'.Settled p := by
  obtain ⟨o, rfl, hlt⟩ := h
  have hsame : b'.string (.strbuf o) = b.string (.strbuf o) :=
    stringAt_congr fun x hx => hext.same x (hx.trans_lt hlt)
  exact ⟨hsame, o, rfl, by rw [hsame]; exact hlt.trans_le hext.off⟩

theorem ArgBuf.settled_store (h : (b.store s).off ≤ execveBufSize) :
    (b.store s).string (.strbuf b.off) = .ofBytes s ∧ (b.store s).Settled (.strbuf b.off) := by
  simp only [store] at h
  have hstring : (b.store s).string (.strbuf b.off) = .ofBytes s :=
    stringAt_of_read (read_write _ _ (by simp)) (by omega)
  refine ⟨hstring, b.off, rfl, ?_⟩
  have hlen : (CString.ofBytes s).bytes.length ≤ s.length := (takeWhile_sublist _).length_le
  rw [hstring]
  simp only [store]
  omega

/-- The pointers show the vector; the strings of all but the first are settled. -/
structure ArgBuf.Holds (b : ArgBuf) (ptrs : List ArgPtr) (argv : List CString) : Prop where
  strings : ptrs.map b.string = argv
  settled : ∀ p ∈ ptrs.tail, b.Settled p

end

/-! ## Copying -/

section

variable {m : ExecMem} {n ap vec : ℕ} {b : ArgBuf} {r : List ArgPtr × ArgBuf}

/-- The strings of a vector in the caller's memory. -/
def ExecMem.Strings (m : ExecMem) : ℕ → List CString → Prop
  | ap, [] => m.word ap = some 0
  | ap, s :: ss => (∃ a n, m.word ap = some a ∧ copyString m n a = .ok s) ∧ m.Strings (ap + 8) ss

/-- What a copying loop leaves behind. -/
structure Copied (b : ArgBuf) (r : List ArgPtr × ArgBuf) : Prop where
  ext : b.Extends r.2
  fits : r.2.off ≤ execveBufSize
  path : r.2.kpath = b.kpath
  settled : ∀ p ∈ r.1, r.2.Settled p
  none : r.1 = [] → r.2.off = b.off

theorem copyVec_copied (hb : b.off ≤ execveBufSize) (h : copyVec m n ap b = .ok r) :
    Copied b r ∧ m.Strings ap (r.1.map r.2.string) := by
  fun_induction copyVec m n ap b generalizing r with
  | case4 n ap b _ hend =>
    rw [← Except.ok.inj h]
    exact ⟨⟨⟨le_rfl, fun _ _ => rfl⟩, hb, rfl, by simp, fun _ => rfl⟩, hend⟩
  | case9 n ap b _ arg hne harg _ hroom s hs ih =>
    cases hrest : copyVec m n (ap + 8) (b.store s.bytes) with
    | error e => simp [hrest, Except.map] at h
    | ok r' =>
      simp only [hrest, Except.map, Except.ok.injEq] at h
      have hlen := length_copyPath hs
      have hfit : (b.store s.bytes).off ≤ execveBufSize := by
        simp only [ArgBuf.store]
        omega
      obtain ⟨hc, hstrings⟩ := ih hfit hrest
      obtain ⟨hstring, hsettled⟩ := ArgBuf.settled_store hfit
      obtain ⟨hkeep, hsettled⟩ := hsettled.keep hc.ext
      have hcopy : ∃ k, copyString m k arg = .ok s := by
        rw [copyPathFromUserProc] at hs
        split_ifs at hs
        exact ⟨_, hs⟩
      obtain ⟨k, hk⟩ := hcopy
      rw [← h]
      refine ⟨⟨(b.extends_store _).trans hc.ext, hc.fits, hc.path,
        forall_mem_cons.2 ⟨hsettled, hc.settled⟩, fun h => absurd h (cons_ne_nil _ _)⟩,
        ⟨arg, k, ‹_›, ?_⟩, hstrings⟩
      rw [hkeep, hstring, CString.ofBytes_bytes]
      exact hk
  | _ => simp_all

theorem copyArgs_copied (hb : b.off ≤ execveBufSize) (h : copyArgs m vec b = .ok r) :
    Copied b r ∧
      if vec ≠ 0 ∧ vec < userEnd then m.Strings vec (r.1.map r.2.string) else r = ([], b) := by
  unfold copyArgs at h
  split_ifs at h ⊢ with hvec
  · exact copyVec_copied hb h
  · rw [← Except.ok.inj h]
    exact ⟨⟨⟨le_rfl, fun _ _ => rfl⟩, hb, rfl, by simp, fun _ => rfl⟩, rfl⟩

end

theorem length_stringAt (m : Mem) (n a : ℕ) : (stringAt m n a).bytes.length ≤ n := by
  induction n generalizing a with
  | zero => exact le_rfl
  | succ n ih =>
    rw [stringAt_succ]
    split_ifs
    · exact Nat.zero_le _
    · exact Nat.succ_le_succ (ih (a + 1))

/-- The arguments a call is made with: the strings of the vector or, without any, the path. -/
def ExecMem.Passed (m : ExecMem) (vec : ℕ) (path : CString) (argv : List CString) : Prop :=
  ∃ strs, (if vec ≠ 0 ∧ vec < userEnd then m.Strings vec strs else strs = []) ∧
    argv = if strs = [] then [path] else strs

theorem copied_vectors {m : ExecMem} {b : ArgBuf} {args env : List ArgPtr × ArgBuf} {vec envp : ℕ}
    (hb : b.off = 0) (hargs : copyArgs m vec b = .ok args)
    (henv : copyArgs m envp (defaultArgs args).2 = .ok env) :
    m.Passed vec b.path ((defaultArgs args).1.map env.2.string) ∧ env.2.path = b.path ∧
      env.2.off ≤ execveBufSize ∧ ∀ p ∈ (defaultArgs args).1, env.2.Settled p := by
  obtain ⟨hc, hstrings⟩ := copyArgs_copied (by rw [hb]; exact Nat.zero_le _) hargs
  have hpath : args.2.path = b.path := by rw [ArgBuf.path, hc.path]; rfl
  -- the default argument is stored at the start of the buffer
  have hdefault : ((defaultArgs args).2.off ≤ execveBufSize ∧ (defaultArgs args).2.kpath = b.kpath ∧
      ∀ p ∈ (defaultArgs args).1, (defaultArgs args).2.Settled p) ∧
      (defaultArgs args).1.map (defaultArgs args).2.string =
        if args.1.map args.2.string = [] then [b.path] else args.1.map args.2.string := by
    unfold defaultArgs
    split_ifs with hnil hmap hmap
    · have hfit : (args.2.store args.2.path.bytes).off ≤ execveBufSize := by
        have hlen : args.2.path.bytes.length ≤ 4095 := length_stringAt ..
        have hsize : execveBufSize = 131072 := rfl
        simp only [ArgBuf.store, hc.none hnil, hb]
        omega
      obtain ⟨hstring, hsettled⟩ := ArgBuf.settled_store hfit
      refine ⟨⟨hfit, hc.path, by simpa using hsettled⟩, ?_⟩
      rw [map_singleton, hstring, CString.ofBytes_bytes, hpath]
    · exact absurd (by rw [hnil]; rfl) hmap
    · exact absurd (map_eq_nil_iff.1 hmap) hnil
    · exact ⟨⟨hc.fits, hc.path, hc.settled⟩, rfl⟩
  obtain ⟨⟨hfits, hkpath, hsettled⟩, hshown⟩ := hdefault
  obtain ⟨he, -⟩ := copyArgs_copied hfits henv
  have hkept : (defaultArgs args).1.map env.2.string =
      (defaultArgs args).1.map (defaultArgs args).2.string :=
    map_congr_left fun p hp => ((hsettled p hp).keep he.ext).1
  refine ⟨⟨args.1.map args.2.string, ?_, hkept.trans hshown⟩, ?_, he.fits,
    fun p hp => ((hsettled p hp).keep he.ext).2⟩
  · split_ifs at hstrings ⊢
    · exact hstrings
    · rw [hstrings]
      rfl
  · rw [ArgBuf.path, he.path, hkpath]
    rfl

/-! ## Lines -/

/-- A `#!` line: the interpreter and its argument, which may be empty. -/
abbrev ScriptLine := List Byte × List Byte

/-- What a line puts in front of the arguments. -/
def lineArgs (line : ScriptLine) : List CString :=
  .ofBytes line.1 :: if line.2 = [] then [] else [.ofBytes line.2]

/-- How far the buffer is filled after the script at `path`. -/
def lineStop (off : ℕ) (path : CString) (line : ScriptLine) : ℕ :=
  off + path.bytes.length + 1 + if line.2 = [] then 0 else line.2.length + 1

/-- The arguments: the innermost interpreter with its argument, and so on outwards, the path of the
first script, and the arguments from the second on. -/
def scriptVector (path : CString) (lines : List ScriptLine) (argv : List CString) : List CString :=
  if lines = [] then argv else lines.reverse.flatMap lineArgs ++ path :: argv.tail

/-- A file that is no script. -/
def ExecWorld.Image (w : ExecWorld) (path : CString) (key : Vfs.WcKey) (f : ExecFile) : Prop :=
  w.locate path = .ok (key, f) ∧ ∃ buf, w.peek key f = .ok buf ∧ scriptLine buf = none

/-- Scripts from `path` to `last`, each interpreted by the next. -/
inductive Scripts (w : ExecWorld) : CString → List ScriptLine → CString → Prop
  | nil (path : CString) : Scripts w path [] path
  | cons {path last : CString} {key : Vfs.WcKey} {f : ExecFile} {buf : List Byte}
      {line : ScriptLine} {lines : List ScriptLine} (file : w.locate path = .ok (key, f))
      (read : w.peek key f = .ok buf) (parse : scriptLine buf = some line) (named : line.1 ≠ [])
      (rest : Scripts w (.ofBytes line.1) lines last) : Scripts w path (line :: lines) last

/-- With `off` bytes and `argc` arguments, every line that is reached stores inside the buffer. -/
def linesFit : ℕ → ℕ → CString → List ScriptLine → Bool
  | _, _, _, [] => true
  | off, argc, path, line :: lines =>
    let argc := argc + (lineArgs line).length
    lineStop off path line ≤ execveBufSize &&
      (argc > execveMaxArgs || linesFit (lineStop off path line) argc (.ofBytes line.1) lines)

/-- What is asked when `n` scripts are allowed: the image with its arguments, `-ELOOP` for more
scripts, and `-E2BIG` if the arguments of those allowed are too many. -/
def scriptOutcome (n : ℕ) (path : CString) (argv : List CString) (lines : List ScriptLine)
    (key : Vfs.WcKey) (f : ExecFile) : Except ExecStop (Vfs.WcKey × ExecFile × List CString) :=
  if (scriptVector path (lines.take n) argv).length > execveMaxArgs then .error (.fail .E2BIG)
  else if lines.length ≤ n then .ok (key, f, scriptVector path lines argv)
  else .error (.fail .ELOOP)

/-- The image and the strings its pointers show. -/
def ExecImage.view (i : ExecImage) : Vfs.WcKey × ExecFile × List CString := (i.key, i.file, i.argv)

/-! ## The vector -/

variable {path : CString} {argv : List CString} {line : ScriptLine} {lines : List ScriptLine}

theorem scriptVector_cons (path : CString) (argv : List CString) (line : ScriptLine)
    (lines : List ScriptLine) : scriptVector path (line :: lines) argv =
      scriptVector (.ofBytes line.1) lines (lineArgs line ++ path :: argv.tail) := by
  rcases eq_or_ne lines [] with rfl | h
  · simp [scriptVector]
  · simp [scriptVector, h, lineArgs]

theorem length_vector_cons (path : CString) (h : argv ≠ []) :
    (lineArgs line ++ path :: argv.tail).length = argv.length + (lineArgs line).length := by
  have := length_pos_iff.2 h
  simp only [length_append, length_cons, length_tail]
  omega

theorem length_le_scriptVector (path : CString) (lines : List ScriptLine) (h : argv ≠ []) :
    argv.length ≤ (scriptVector path lines argv).length := by
  induction lines generalizing path argv with
  | nil => exact le_rfl
  | cons line lines ih =>
    rw [scriptVector_cons]
    refine le_trans ?_ (ih (.ofBytes line.1) (by simp))
    rw [length_vector_cons _ h]
    exact Nat.le_add_right ..

/-! ## One script after the other -/

variable {w : ExecWorld} {wc : ℕ → List (Counter Vfs.WcKey)} {last : CString} {key : Vfs.WcKey}
  {f : ExecFile} {first : Bool} {n : ℕ} {b : ArgBuf} {ptrs : List ArgPtr} {buf : List Byte}

/-- The file at `path` is not kept from being executed by a writer. -/
def ExecWorld.Unwritten (w : ExecWorld) (wc : ℕ → List (Counter Vfs.WcKey))
    (path : CString) : Prop :=
  ∀ key f, w.locate path = .ok (key, f) → ¬ Vfs.wcPeek wc key > 0

theorem ExecWorld.Unwritten.not_busy (hfree : first = true → w.Unwritten wc path)
    (file : w.locate path = .ok (key, f)) : ¬ (first = true ∧ Vfs.wcPeek wc key > 0) :=
  fun h => hfree h.1 key f file h.2

theorem length_interp (read : w.peek key f = .ok buf) (parse : scriptLine buf = some line) :
    line.1.length ≤ 256 := by
  have hbuf : buf.length ≤ 256 := by
    unfold ExecWorld.peek at read
    dsimp only at read
    split_ifs at read
    rw [← Except.ok.inj read, length_read]
    exact min_le_right ..
  refine le_trans ?_ hbuf
  unfold scriptLine at parse
  split_ifs at parse
  rw [← Option.some.inj parse]
  refine ((takeWhile_sublist _).trans (dropWhile_sublist _)).length_le.trans ?_
  have hline := ((takeWhile_sublist fun x : Byte => decide (x ≠ 0x0a#8)).trans
    (drop_sublist 2 buf)).length_le
  split_ifs
  · exact (dropLast_sublist _).length_le.trans hline
  · exact hline

theorem off_script (b : ArgBuf) (line : ScriptLine) :
    (b.script line.1 line.2).off = lineStop b.off b.path line := by
  unfold ArgBuf.script lineStop
  dsimp only
  split_ifs <;> rfl

/-- A script: the strings that were settled stay so, and the path of the script is saved before
`kpath` is overwritten. -/
theorem ArgBuf.Holds.script (h : b.Holds ptrs argv) (hinterp : line.1.length ≤ 256)
    (hfit : lineStop b.off b.path line ≤ execveBufSize) :
    (b.script line.1 line.2).Holds (b.newArgv line.2 ptrs) (lineArgs line ++ b.path :: argv.tail) ∧
      (b.script line.1 line.2).path = .ofBytes line.1 := by
  rw [← off_script] at hfit
  set c := b.script line.1 line.2 with hc
  have hpath : c.path = .ofBytes line.1 := stringAt_of_read (read_write _ _ (by simp)) (by omega)
  set b' := b.store b.path.bytes with hb'
  have hext : b'.Extends c ∧ (line.2 ≠ [] → c.string (.strbuf b'.off) = .ofBytes line.2 ∧
      c.Settled (.strbuf b'.off)) := by
    by_cases harg : line.2 = []
    · rw [hc, ArgBuf.script, if_pos harg]
      exact ⟨⟨le_rfl, fun _ _ => rfl⟩, fun h => absurd harg h⟩
    · rw [hc, ArgBuf.script, if_neg harg] at hfit ⊢
      have hstored := settled_store (b := b') (s := line.2) hfit
      exact ⟨⟨(b'.extends_store _).off, (b'.extends_store _).same⟩, fun _ => hstored⟩
  obtain ⟨hext, harg⟩ := hext
  obtain ⟨hsaved, hsettled⟩ := settled_store (b := b) (s := b.path.bytes) (hext.off.trans hfit)
  obtain ⟨hkeep, hsettled⟩ := hsettled.keep hext
  rw [hsaved, CString.ofBytes_bytes] at hkeep
  have hold : ∀ p ∈ ptrs.tail, c.string p = b.string p ∧ c.Settled p := fun p hp =>
    (h.settled p hp).keep ((b.extends_store _).trans hext)
  have htail : ptrs.tail.map c.string = argv.tail := by
    rw [← h.strings, ← map_tail]
    exact map_congr_left fun p hp => (hold p hp).1
  refine ⟨⟨?_, fun p hp => ?_⟩, hpath⟩
  · have hfirst : c.string .kpath = .ofBytes line.1 := hpath
    unfold newArgv lineArgs
    split_ifs with hnil
    · simp [hfirst, hkeep, htail]
    · simp [hfirst, hkeep, htail, ← hb', (harg hnil).1]
  · unfold newArgv at hp
    rw [cons_append, tail_cons] at hp
    rcases mem_append.1 hp with hp | hp
    · split_ifs at hp with hnil
      · cases hp
      · rw [mem_singleton.1 hp]
        exact (harg hnil).2
    · rcases mem_cons.1 hp with rfl | hp
      · exact hsettled
      · exact (hold p hp).2

theorem length_newArgv (h : b.Holds ptrs argv) (hne : argv ≠ []) :
    (b.newArgv line.2 ptrs).length = argv.length + (lineArgs line).length := by
  rw [← length_vector_cons b.path hne, ← h.strings, ← map_tail]
  unfold ArgBuf.newArgv lineArgs
  split_ifs <;> simp

/-- **The scripts**, by induction on the chain. -/
theorem findImage_scripts (hmem : ∀ n, w.newArgv n = true) (hchain : Scripts w path lines last)
    (hpath : b.path = path) (hlast : lines.length ≤ n → w.Image last key f)
    (hb : b.Holds ptrs argv) (h : argv ≠ []) (hlen : argv.length ≤ execveMaxArgs)
    (hfree : first = true → w.Unwritten wc path) :
    (w.findImage wc n first ptrs b).map ExecImage.view =
      if linesFit b.off argv.length path (lines.take n) then scriptOutcome n path argv lines key f
      else .error .overrun := by
  induction hchain generalizing n argv b ptrs first with
  | nil path =>
    obtain ⟨hfile, buf, hread, hparse⟩ := hlast (Nat.zero_le n)
    rw [ExecWorld.findImage, hpath]
    simp [hfile, ExecWorld.Unwritten.not_busy hfree hfile, hread, hparse, linesFit, scriptOutcome,
      scriptVector, hlen, Except.map, ExecImage.view, ExecImage.argv, hb.strings]
  | cons file read parse named rest ih =>
    rename_i path last key' f' buf line lines
    rw [ExecWorld.findImage, hpath]
    simp only [file, if_neg (ExecWorld.Unwritten.not_busy hfree file), read, parse]
    cases n with
    | zero => simp [linesFit, scriptOutcome, scriptVector, hlen, Except.map]
    | succ n =>
      dsimp only
      rw [ExecWorld.scriptArgs, if_neg named, off_script, hpath, length_newArgv hb h, hmem n,
        take_succ_cons, linesFit, scriptOutcome, take_succ_cons, scriptVector_cons,
        scriptVector_cons]
      by_cases hstop : lineStop b.off path line > execveBufSize
      · simp [hstop, Except.map]
      · by_cases hargc : argv.length + (lineArgs line).length > execveMaxArgs
        · have hover := length_le_scriptVector (.ofBytes line.1) (lines.take n)
            (show lineArgs line ++ path :: argv.tail ≠ [] by simp)
          rw [length_vector_cons _ h] at hover
          simp [hstop, hargc, not_lt.1 hstop, lt_of_lt_of_le hargc hover, Except.map]
        · have hnew : (lineArgs line ++ path :: argv.tail).length ≤ execveMaxArgs := by
            rw [length_vector_cons _ h]
            exact not_lt.1 hargc
          obtain ⟨hb', hpath'⟩ := hb.script (length_interp read parse)
            (by rw [hpath]; exact not_lt.1 hstop)
          rw [hpath] at hb'
          have hnext := ih hpath' (fun hn => hlast (Nat.succ_le_succ hn)) hb' (by simp) hnew
            fun h : false = true => Bool.noConfusion h
          rw [off_script, hpath, length_vector_cons _ h] at hnext
          simp [hstop, hargc, not_lt.1 hstop, hnext, scriptOutcome]

/-- **Script arguments.**  The vector of the caller is copied as it is, strings and pointers in
bounds, and a chain of scripts ends as it should exactly when every line that is reached stores
inside the buffer. -/
theorem scripts_vector_iff {args env : List ArgPtr × ArgBuf} {vec envp : ℕ}
    (hmem : ∀ n, w.newArgv n = true) (hb : b.off = 0) (hargs : copyArgs w.user vec b = .ok args)
    (henv : copyArgs w.user envp (defaultArgs args).2 = .ok env)
    (hchain : Scripts w b.path lines last) (hlast : lines.length ≤ 4 → w.Image last key f)
    (hfree : w.Unwritten wc b.path) :
    let argv := (defaultArgs args).1.map env.2.string
    w.user.Passed vec b.path argv ∧
      ((argv.length ≤ execveMaxArgs ∧ env.1.length ≤ execveMaxArgs ∧ env.2.off ≤ execveBufSize ∧
          (w.findImage wc 4 true (defaultArgs args).1 env.2).map ExecImage.view =
            scriptOutcome 4 b.path argv lines key f) ↔
        linesFit env.2.off argv.length b.path (lines.take 4) = true) := by
  obtain ⟨hpassed, hpath, hfits, hsettled⟩ := copied_vectors hb hargs henv
  obtain ⟨hne, hlen⟩ := (defaultArgs_good (length_copyArgs hargs)).map env.2.string
  dsimp only
  rw [findImage_scripts hmem hchain hpath hlast
    ⟨rfl, fun p hp => hsettled p (mem_of_mem_tail hp)⟩ hne hlen fun _ => hfree]
  refine ⟨hpassed, ?_, fun hfit => ⟨hlen, length_copyArgs henv, hfits, if_pos hfit⟩⟩
  rintro ⟨-, -, -, h⟩
  by_contra hfit
  rw [if_neg hfit, scriptOutcome] at h
  split_ifs at h <;> cases h

/-- The path `/a` names a script for `/b` with an argument, which names a script for `/c`; every
other path names a file of zero bytes. -/
def scriptWorld (user : ExecMem) : ExecWorld :=
  let text (s : List Byte) : ExecFile := ⟨write (fun _ => 0) 0 s, s.length, completeReader _ _⟩
  { plainWorld zeroFile with
    user
    ext4Lookup := fun path => some (12, some (
      if path.bytes = [0x2f#8, 0x61#8] then text [0x23#8, 0x21#8, 0x2f#8, 0x62#8, 0x20#8, 0x78#8]
      else if path.bytes = [0x2f#8, 0x62#8] then text [0x23#8, 0x21#8, 0x2f#8, 0x63#8]
      else zeroFile)) }

/-- The buffers of a call with the path `a`, which is resolved to `/a`. -/
def scriptBuf : ArgBuf := (plainWorld zeroFile).argBuf (letters 1)

theorem path_scriptBuf : scriptBuf.path = .ofBytes [0x2f#8, 0x61#8] :=
  CString.ext (by decide +kernel)

theorem scripts_two (user : ExecMem) : Scripts (scriptWorld user) scriptBuf.path
    [([0x2f#8, 0x62#8], [0x78#8]), ([0x2f#8, 0x63#8], [])] (.ofBytes [0x2f#8, 0x63#8]) :=
  path_scriptBuf ▸ .cons rfl rfl rfl (by decide) (.cons rfl rfl rfl (by decide) (.nil _))

theorem image_last (user : ExecMem) :
    (scriptWorld user).Image (.ofBytes [0x2f#8, 0x63#8]) (.ext4, 12) zeroFile :=
  ⟨rfl, _, rfl, rfl⟩

/-- The arguments `s` and `t`. -/
def twoArgs : ExecMem :=
  ⟨fun a => some (if a = 0x3000 then 0x73#8 else if a = 0x3010 then 0x74#8 else 0#8),
    fun a => some (if a = 0x2000 then 0x3000 else if a = 0x2008 then 0x3010 else 0)⟩

/-- The innermost interpreter gets `/c`, `/b`, `x`, `/a` and `t`. -/
theorem scripts_vector_nested : ∃ args, copyArgs twoArgs 0x2000 scriptBuf = .ok args ∧
    twoArgs.Passed 0x2000 (.ofBytes [0x2f#8, 0x61#8]) [.ofBytes [0x73#8], .ofBytes [0x74#8]] ∧
    ((scriptWorld twoArgs).findImage (fun _ => []) 4 true args.1 args.2).map ExecImage.view =
      .ok ((.ext4, 12), zeroFile, [.ofBytes [0x2f#8, 0x63#8], .ofBytes [0x2f#8, 0x62#8],
        .ofBytes [0x78#8], .ofBytes [0x2f#8, 0x61#8], .ofBytes [0x74#8]]) := by
  have hargs : copyArgs twoArgs 0x2000 scriptBuf =
      .ok ([.strbuf 0, .strbuf 2], (scriptBuf.store [0x73#8]).store [0x74#8]) := rfl
  obtain ⟨hpassed, hiff⟩ := scripts_vector_iff (w := scriptWorld twoArgs) (fun _ => rfl) rfl hargs
    (show copyArgs _ 0 _ = .ok ([], _) from rfl) (scripts_two _) (fun _ => image_last _)
    fun _ _ _ => show ¬Vfs.wcPeek (fun _ => []) _ > 0 from lt_irrefl _
  have hstrings : [ArgPtr.strbuf 0, .strbuf 2].map
      ((scriptBuf.store [0x73#8]).store [0x74#8]).string =
        [.ofBytes [0x73#8], .ofBytes [0x74#8]] := rfl
  have hfound := (hiff.2 (by rw [path_scriptBuf]; decide +kernel)).2.2.2
  rw [path_scriptBuf] at hpassed hfound
  exact ⟨_, hargs, hstrings ▸ hpassed,
    hfound.trans (by rw [defaultArgs, if_neg (by simp), hstrings]; rfl)⟩

/-- One argument of 131070 letters. -/
def fullMem : ExecMem :=
  ⟨fun a => some (if a < 135166 then 97#8 else 0#8), fun a => some (if a = 8 then 4096 else 0)⟩

theorem copyString_letters {n a k : ℕ} (h : a + k = 135166) (hk : k < n) :
    copyString fullMem n a = .ok (letters k) := by
  induction k generalizing n a with
  | zero =>
    obtain ⟨n, rfl⟩ := Nat.exists_eq_succ_of_ne_zero (Nat.ne_zero_of_lt hk)
    obtain rfl : a = 135166 := h
    rfl
  | succ k ih =>
    obtain ⟨n, rfl⟩ := Nat.exists_eq_succ_of_ne_zero (Nat.ne_zero_of_lt hk)
    have hbyte : fullMem.byte a = some 97#8 := congrArg some (if_pos (by omega))
    rw [copyString, hbyte]
    dsimp only
    rw [ih (by omega) (by omega)]
    rfl

theorem copyArgs_full {s : CString} (hcopy : copyPathFromUserProc fullMem 4096 131072 = .ok s) :
    copyArgs fullMem 8 scriptBuf = .ok ([.strbuf 0], scriptBuf.store s.bytes) := by
  have hrest : ∀ b, copyVec fullMem 4095 16 b = .ok ([], b) := fun _ => rfl
  have hoff : scriptBuf.off = 0 := rfl
  rw [copyArgs, if_pos (by decide), show execveMaxArgs = 4095 + 1 from rfl, copyVec,
    if_neg (by decide), show fullMem.word 8 = some 4096 from rfl]
  simp [execveBufSize, userEnd, hcopy, hrest, hoff, Except.map]

theorem findImage_full {s : List Byte} (hlen : s.length = 131070) :
    ((scriptWorld fullMem).findImage (fun _ => []) 4 true [.strbuf 0] (scriptBuf.store s)).map
      ExecImage.view = .error .overrun := by
  have hholds : (scriptBuf.store s).Holds [.strbuf 0] [(scriptBuf.store s).string (.strbuf 0)] :=
    ⟨rfl, by simp⟩
  have hfind := findImage_scripts (w := scriptWorld fullMem) (n := 4) (b := scriptBuf.store s)
    (fun _ => rfl) (scripts_two _) rfl (fun _ => image_last _) hholds (by simp)
    (by simp [execveMaxArgs])
    fun _ : true = true => fun _ _ _ => show ¬Vfs.wcPeek (fun _ => []) _ > 0 from lt_irrefl _
  have hoff : (scriptBuf.store s).off = 131071 := by
    rw [ArgBuf.store, hlen]
    rfl
  rw [hfind, path_scriptBuf, hoff, length_singleton]
  exact if_neg (by decide +kernel)

/-- Behind it the path of a script goes beyond the buffer. -/
theorem scripts_overrun : ∃ args, copyArgs fullMem 8 scriptBuf = .ok args ∧
    ((scriptWorld fullMem).findImage (fun _ => []) 4 true args.1 args.2).map ExecImage.view =
      .error .overrun :=
  ⟨_, copyArgs_full (copyString_letters (k := 131070) rfl (by decide)),
    findImage_full (length_letters _)⟩

end CosmoRT.Proc
