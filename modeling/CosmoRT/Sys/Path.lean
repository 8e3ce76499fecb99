import CosmoRT.Abi
import CosmoRT.Lib.Components

/-!
# Path resolution: `resolve_path` of `sys/sys_file.c`

A C string is the list of its bytes before the terminating zero.  `resolve_path` first copies
the working directory and the path into the output buffer, then rewrites the text in place with
a pointer `r` that reads and a pointer `w` that writes.  `w` never overtakes `r`, so what `r` has
still to read is as it was copied: the loop here has the text written so far, last byte first,
and the text still to be read.

The loop is compared with the components of the text.  A dot-dot takes the component before it
back but leaves the slash before that component, so the next name is written behind two slashes:
the loop keeps the components that would be left if such a name had an empty one before it.

* `Tame` — the components for which this makes no difference.
* `resolves_lexically` — with these **the result is the lexical normal form** exactly when it is
  that of the text cut to the size of the buffer, whatever this size.
-/

namespace CosmoRT.Sys

open Lib List

/-- The bytes of a C string. -/
abbrev Text := List UInt8

def slash : UInt8 := 47
def dot : UInt8 := 46

/-- `PATH_MAX`. -/
def pathMax : ℕ := 4096

/-! ## The loop -/

/-- `while (w > out + 1 && w[-1] != '/') w--`. -/
def skipName : Text → Text
  | c :: d :: w => if c = slash then c :: d :: w else skipName (d :: w)
  | w => w

/-- `if (w > out + 1) { w--; while … }`. -/
def backUp : Text → Text
  | _ :: d :: w => skipName (d :: w)
  | w => w

/-- `t[0] == '/' || t[0] == '\0'`. -/
def atBreak (t : Text) : Bool := t = [] ∨ t.head? = some slash

/-- The rewriting loop; `skip` more bytes are jumped over by the last increment of `r`. -/
def rewriteLoop (w : Text) : ℕ → Text → Text
  | _, [] => w
  | skip + 1, _ :: r => rewriteLoop w skip r
  | 0, c :: r =>
    if c = slash ∧ r.head? = some slash then rewriteLoop w 0 r
    else if c = slash ∧ r.head? = some dot ∧ atBreak (r.drop 1) then rewriteLoop w 1 r
    else if c = slash ∧ r.head? = some dot ∧ (r.drop 1).head? = some dot ∧ atBreak (r.drop 2)
    then rewriteLoop (backUp w) 2 r
    else rewriteLoop (c :: w) 0 r

/-- What is done at the end of the loop, and the text from its beginning. -/
def closeText (w : Text) : Text :=
  let w := if w = [] then [slash] else w
  (if w.length > 1 ∧ w.head? = some slash then w.tail else w).reverse

/-! ## `resolve_path` -/

/-- What `resolve_path` reads of the current process; an empty `root` is the system's. -/
structure PathProc where
  cwd : Text
  root : Text
  deriving DecidableEq, Repr

/-- `while (*s && oi < limit) out[oi++] = *s++`. -/
def copyUpTo (limit : ℕ) (out s : Text) : Text := out ++ s.take (limit - out.length)

/-- The text that is rewritten. -/
def startText (p : Option PathProc) (path : Text) (outsize : ℕ) : Text :=
  let out :=
    if path.head? = some slash then []
    else
      let out := copyUpTo (outsize - 1) [] (p.elim [slash] PathProc.cwd)
      if out.length > 1 ∧ out.getLast? ≠ some slash ∧ out.length < outsize - 1 then out ++ [slash]
      else out
  copyUpTo (outsize - 1) out path

/-- The root of the process in front of an absolute path. -/
def applyRoot (p : Option PathProc) (out : Text) (outsize : ℕ) : Text :=
  match p with
  | none => out
  | some p =>
    if p.root = [] then out
    else
      let buf := copyUpTo (pathMax - 1) [] p.root
      let buf := if out = [slash] then buf else copyUpTo (pathMax - 1) buf out
      copyUpTo (outsize - 1) [] buf

/-- `resolve_path`. -/
def resolvePath (p : Option PathProc) (path : Text) (outsize : ℕ) : Except Errno Text :=
  if outsize < 2 then .error .EINVAL
  else .ok (applyRoot p (closeText (rewriteLoop [] 0 (startText p path outsize))) outsize)

/-! ## Components -/

abbrev Name := Text

def dotdot : Name := [dot, dot]

/-- A component that names a directory entry. -/
structure Plain (c : Name) : Prop where
  ne_nil : c ≠ []
  ne_dot : c ≠ [dot]
  ne_dotdot : c ≠ dotdot
  no_slash : slash ∉ c

/-- The absolute path with the given components. -/
def render (cs : List Name) : Text := if cs = [] then [slash] else joined slash cs

/-- An absolute path without empty, dot and dot-dot components and without a slash at its end,
or the root. -/
def Normal (t : Text) : Prop := ∃ cs, (∀ c ∈ cs, Plain c) ∧ t = render cs

/-- The components of the working directory, for a relative path, followed by those of the
path. -/
def components (cwd path : Text) : List Name :=
  (if path.head? = some slash then [] else cwd.splitOn slash) ++ path.splitOn slash

/-- Empty and dot components are dropped. -/
def kept (cs : List Name) : List Name := cs.filter fun c => c ≠ [] ∧ c ≠ [dot]

/-- The components left when each dot-dot has removed the one before it, last first. -/
def left (cs : List Name) : List Name := cs.foldl (climb dotdot) []

/-- The lexical normal form. -/
def normalForm (cwd path : Text) : Text := render (left (kept (components cwd path))).reverse

/-- The lexical normal form of a text. -/
def normalOf (t : Text) : Text := render (left (kept (t.splitOn slash))).reverse

/-- A component that is neither empty nor a dot nor a dot-dot. -/
def isName (c : Name) : Bool := c ≠ [] ∧ c ≠ [dot] ∧ c ≠ dotdot

/-- The components from the first dot-dot on that comes after a name. -/
def fromBack (cs : List Name) : List Name :=
  (cs.dropWhile fun c => !isName c).dropWhile (· ≠ dotdot)

/-- Behind a dot-dot that comes after a name there is neither a name nor a slash at the end. -/
def Tame (cs : List Name) : Prop :=
  (∀ c ∈ fromBack cs, isName c = false) ∧ (fromBack cs).getLast? ≠ some []

instance (cs : List Name) : Decidable (Tame cs) := inferInstanceAs (Decidable (_ ∧ _))

/-! ## What the loop makes of the components -/

/-- How the text written so far ends: nothing is written, in a name, or in the slash that a
dot-dot left. -/
inductive Mark where
  | start | name | back
  deriving DecidableEq, Repr

/-- The mark behind a dot-dot. -/
def Mark.up : Mark → Mark
  | .start => .start
  | .name => .back
  | .back => .back

/-- The components that a name adds. -/
def nameParts (m : Mark) (c : Name) : List Name := if m = .back then [[], c] else [c]

/-- The components as the loop counts them: a name written behind the slash of a dot-dot, or a
slash at the end written there, has an empty component before it. -/
def recount : Mark → List Name → List Name
  | _, [] => []
  | m, c :: cs =>
    if c = [dot] then recount m cs
    else if c = [] then (if cs = [] ∧ m = .back then [[]] else recount m cs)
    else if c = dotdot then c :: recount m.up cs
    else nameParts m c ++ recount .name cs

/-- The text of a stack of components, last byte first. -/
def backwards (st : List Name) : Text := st.flatMap fun c => c.reverse ++ [slash]

@[simp] theorem backwards_nil : backwards [] = [] := rfl

@[simp] theorem backwards_cons (c : Name) (st : List Name) :
    backwards (c :: st) = c.reverse ++ slash :: backwards st := by
  simp [backwards]

theorem reverse_backwards (st : List Name) : (backwards st).reverse = joined slash st.reverse := by
  induction st with
  | nil => rfl
  | cons c st ih => simp [ih]

/-- The written text `w` holds the components `st`. -/
def Written (st : List Name) (w : Text) : Mark → Prop
  | .start => st = [] ∧ w = []
  | .name => (∃ c st', st = c :: st' ∧ c ≠ []) ∧ w = backwards st
  | .back => w = slash :: backwards st

/-! ### Backing up -/

theorem backUp_cons {d : Text} (hd : slash ∉ d) (x : UInt8) (w : Text) :
    backUp (x :: (d ++ slash :: w)) = slash :: w := by
  have hskip : skipName (d ++ slash :: w) = slash :: w := by
    induction d with
    | nil => cases w <;> simp [skipName]
    | cons y d ih =>
      rw [mem_cons, not_or] at hd
      have := ih hd.2
      cases d <;> simpa [skipName, Ne.symm hd.1] using this
  cases d <;> exact hskip

variable {st : List Name} {w : Text} {m : Mark}

/-- A dot-dot takes the last component and leaves the slash before it. -/
theorem Written.backUp (h : Written st w m) (hst : ∀ c ∈ st, slash ∉ c) :
    Written st.tail (backUp w) m.up := by
  cases m with
  | start =>
    obtain ⟨rfl, rfl⟩ := h
    exact ⟨rfl, rfl⟩
  | name =>
    obtain ⟨⟨c, st', rfl, hne⟩, rfl⟩ := h
    have hc : slash ∉ c.reverse := by simpa using hst c (by simp)
    obtain ⟨x, d, hd⟩ := exists_cons_of_ne_nil (reverse_ne_nil_iff.2 hne)
    rw [hd, mem_cons, not_or] at hc
    rw [backwards_cons, hd]
    exact backUp_cons hc.2 x _
  | back =>
    obtain rfl : w = slash :: backwards st := h
    cases st with
    | nil => rfl
    | cons c st' =>
      have hc : slash ∉ c.reverse := by simpa using hst c (by simp)
      rw [backwards_cons]
      exact backUp_cons hc slash _

/-! ### One component -/

theorem atBreak_joined (cs : List Name) : atBreak (joined slash cs) = true := by
  cases cs <;> simp [atBreak]

variable {c : Name}

theorem rewriteLoop_copy (hc : slash ∉ c) (w r : Text) :
    rewriteLoop w 0 (c ++ r) = rewriteLoop (c.reverse ++ w) 0 r := by
  induction c generalizing w with
  | nil => rfl
  | cons x c ih =>
    rw [mem_cons, not_or] at hc
    rw [cons_append, rewriteLoop]
    simp only [Ne.symm hc.1, false_and, if_false]
    rw [ih hc.2]
    simp

theorem rewriteLoop_empty (w : Text) (c : Name) (cs : List Name) :
    rewriteLoop w 0 (slash :: joined slash (c :: cs)) =
      rewriteLoop w 0 (joined slash (c :: cs)) := by
  rw [rewriteLoop]
  simp

theorem rewriteLoop_dot (w : Text) (cs : List Name) :
    rewriteLoop w 0 (slash :: dot :: joined slash cs) = rewriteLoop w 0 (joined slash cs) := by
  simp [atBreak_joined, rewriteLoop, show dot ≠ slash by decide]

theorem rewriteLoop_dotdot (w : Text) (cs : List Name) :
    rewriteLoop w 0 (slash :: dot :: dot :: joined slash cs) =
      rewriteLoop (backUp w) 0 (joined slash cs) := by
  have hb : atBreak (dot :: joined slash cs) = false := by simp [atBreak]; decide
  simp [atBreak_joined, hb, rewriteLoop, show dot ≠ slash by decide]

theorem atBreak_append (hc : slash ∉ c) (cs : List Name) :
    atBreak (c ++ joined slash cs) = true ↔ c = [] := by
  cases c with
  | nil => simp [atBreak_joined]
  | cons x c =>
    rw [mem_cons, not_or] at hc
    simp [atBreak, Ne.symm hc.1]

theorem rewriteLoop_name (hc : Plain c) (w : Text) (cs : List Name) :
    rewriteLoop w 0 (slash :: (c ++ joined slash cs)) =
      rewriteLoop (c.reverse ++ slash :: w) 0 (joined slash cs) := by
  rw [rewriteLoop]
  have h1 : (c ++ joined slash cs).head? ≠ some slash := by
    obtain ⟨x, d, rfl⟩ := exists_cons_of_ne_nil hc.ne_nil
    have := hc.no_slash
    rw [mem_cons, not_or] at this
    simpa using Ne.symm this.1
  have h2 : ¬ ((c ++ joined slash cs).head? = some dot ∧
      atBreak ((c ++ joined slash cs).drop 1)) := by
    rintro ⟨hd, hb⟩
    obtain ⟨x, d, rfl⟩ := exists_cons_of_ne_nil hc.ne_nil
    have hn := hc.no_slash
    rw [mem_cons, not_or] at hn
    simp only [cons_append, head?_cons, Option.some.injEq, drop_succ_cons, drop_zero] at hd hb
    rw [atBreak_append hn.2] at hb
    exact hc.ne_dot (by rw [hd, hb])
  have h3 : ¬ ((c ++ joined slash cs).head? = some dot ∧
      ((c ++ joined slash cs).drop 1).head? = some dot ∧
      atBreak ((c ++ joined slash cs).drop 2)) := by
    rintro ⟨hd, hd', hb⟩
    obtain ⟨x, d, rfl⟩ := exists_cons_of_ne_nil hc.ne_nil
    have hn := hc.no_slash
    cases d with
    | nil =>
      cases cs with
      | nil => simp at hd'
      | cons e cs => simp [slash, dot] at hd'
    | cons y d =>
      simp only [mem_cons, not_or] at hn
      simp only [cons_append, head?_cons, Option.some.injEq, drop_succ_cons, drop_zero] at hd hd' hb
      rw [atBreak_append hn.2.2] at hb
      exact hc.ne_dotdot (by rw [hd, hd', hb]; rfl)
  rw [if_neg (by tauto), if_neg (by tauto), if_neg (by tauto), rewriteLoop_copy hc.no_slash]

/-! ### The whole text -/

theorem render_reverse (h : st ≠ []) : render st.reverse = (backwards st).reverse := by
  rw [render, if_neg (by simpa using h), reverse_backwards]

/-- One slash at the end is taken off, unless it is all there is. -/
theorem closeText_slash (st : List Name) :
    closeText (slash :: backwards st) = render st.reverse := by
  cases st with
  | nil => rfl
  | cons c st => rw [render_reverse (by simp)]; simp [closeText]

theorem Written.closeText (h : Written st w m)
    (hst : ∀ c ∈ st, slash ∉ c) : Sys.closeText w = render st.reverse := by
  cases m with
  | start =>
    obtain ⟨rfl, rfl⟩ := h
    rfl
  | name =>
    obtain ⟨⟨c, st', rfl, hne⟩, rfl⟩ := h
    have hc : slash ∉ c.reverse := by simpa using hst c (by simp)
    obtain ⟨x, d, hd⟩ := exists_cons_of_ne_nil (reverse_ne_nil_iff.2 hne)
    rw [hd, mem_cons, not_or] at hc
    rw [render_reverse (by simp), backwards_cons, hd]
    simp [Sys.closeText, Ne.symm hc.1]
  | back =>
    obtain rfl : w = slash :: backwards st := h
    exact closeText_slash st

theorem climb_nameParts (m : Mark) (hc : c ≠ dotdot) (st : List Name) :
    (nameParts m c).foldl (climb dotdot) st = (nameParts m c).reverse ++ st := by
  refine foldl_climb_of_notMem ?_ st
  unfold nameParts
  split
  · simp [Ne.symm hc, show dotdot ≠ [] by decide]
  · simp [Ne.symm hc]

/-- A name behind the slash of a dot-dot has an empty component before it. -/
theorem Written.name (h : Written st w m) (hc : c ≠ []) :
    Written ((nameParts m c).reverse ++ st) (c.reverse ++ slash :: w) .name := by
  cases m with
  | start =>
    obtain ⟨rfl, rfl⟩ := h
    exact ⟨⟨c, [], rfl, hc⟩, by simp [nameParts]⟩
  | name =>
    obtain ⟨-, rfl⟩ := h
    exact ⟨⟨c, st, rfl, hc⟩, by simp [nameParts]⟩
  | back =>
    obtain rfl : w = slash :: backwards st := h
    exact ⟨⟨c, [] :: st, rfl, hc⟩, by simp [nameParts]⟩

theorem closeText_last_slash (h : Written st w m) :
    closeText (slash :: w) = render ((recount m [[]]).foldl (climb dotdot) st).reverse := by
  cases m with
  | start =>
    obtain ⟨rfl, rfl⟩ := h
    rfl
  | name =>
    obtain ⟨-, rfl⟩ := h
    exact closeText_slash st
  | back =>
    obtain rfl : w = slash :: backwards st := h
    exact closeText_slash ([] :: st)

/-- The loop keeps the components that are left under its own count. -/
theorem closeText_rewriteLoop (cs : List Name)
    (h : Written st w m) (hst : ∀ c ∈ st, slash ∉ c) (hcs : ∀ c ∈ cs, slash ∉ c) :
    closeText (rewriteLoop w 0 (joined slash cs)) =
      render ((recount m cs).foldl (climb dotdot) st).reverse := by
  -- along the components, with the text written so far
  induction cs generalizing st w m with
  | nil => exact h.closeText hst
  | cons c cs ih =>
    rw [forall_mem_cons] at hcs
    rw [joined_cons, recount]
    by_cases hdot : c = [dot]
    · subst hdot
      exact (congrArg closeText (rewriteLoop_dot w cs)).trans (ih h hst hcs.2)
    rw [if_neg hdot]
    by_cases hnil : c = []
    · subst hnil
      cases cs with
      | nil => exact closeText_last_slash h
      | cons d cs =>
        exact (congrArg closeText (rewriteLoop_empty w d cs)).trans (ih h hst hcs.2)
    rw [if_neg hnil]
    by_cases hup : c = dotdot
    · subst hup
      have hst' : ∀ c ∈ st.tail, slash ∉ c := fun c hc => hst c (mem_of_mem_tail hc)
      exact (congrArg closeText (rewriteLoop_dotdot w cs)).trans (ih (h.backUp hst) hst' hcs.2)
    · rw [if_neg hup, foldl_append, rewriteLoop_name ⟨hnil, hdot, hup, hcs.1⟩,
        climb_nameParts m hup]
      refine ih (h.name hnil) ?_ hcs.2
      intro d hd
      rcases mem_append.1 hd with hd | hd
      · unfold nameParts at hd
        split at hd <;> simp at hd <;> rcases hd with rfl | rfl <;> simp [hcs.1]
      · exact hst d hd

theorem closeText_splitOn {t : Text} (h : t.head? = some slash) :
    closeText (rewriteLoop [] 0 t) = render (left (recount .start (t.splitOn slash))).reverse := by
  obtain ⟨u, rfl⟩ : ∃ u, t = slash :: u := by
    cases t with
    | nil => cases h
    | cons c u => exact ⟨u, by rw [Option.some.inj h]⟩
  rw [splitOn_sep_cons, recount, if_neg (by decide), if_pos rfl, if_neg (by simp), ← joined_splitOn]
  exact closeText_rewriteLoop _ ⟨rfl, rfl⟩ (by simp) sep_notMem_of_mem_splitOn

/-! ## Tame components -/

variable {cs : List Name}

theorem kept_cons : kept (c :: cs) = if c = [] ∨ c = [dot] then kept cs else c :: kept cs := by
  by_cases hnil : c = [] <;> by_cases hdot : c = [dot] <;> simp [kept, hnil, hdot]

/-- A component other than dot-dot that is not behind one is counted as it is. -/
theorem recount_cons {m : Mark} (hm : m ≠ .back) (hup : c ≠ dotdot)
    (ih : recount (if isName c then .name else m) cs = kept cs) :
    recount m (c :: cs) = kept (c :: cs) := by
  rw [recount, kept_cons]
  by_cases hdot : c = [dot]
  · rw [hdot, if_neg (by decide)] at ih
    rw [if_pos hdot, if_pos (.inr hdot), ih]
  by_cases hnil : c = []
  · rw [hnil, if_neg (by decide)] at ih
    rw [if_neg hdot, if_pos hnil, if_neg fun h => hm h.2, if_pos (.inl hnil), ih]
  · rw [if_pos (by simp [isName, hnil, hdot, hup])] at ih
    rw [if_neg hdot, if_neg hnil, if_neg hup, if_neg (by tauto), nameParts, if_neg hm, ih]
    rfl

theorem getLast?_of_cons (h : (c :: cs).getLast? ≠ some []) : cs.getLast? ≠ some [] := by
  rw [getLast?_cons] at h
  cases hl : cs.getLast? <;> simp_all

theorem recount_back (hnames : ∀ c ∈ cs, isName c = false) (hlast : cs.getLast? ≠ some []) :
    recount .back cs = kept cs := by
  induction cs with
  | nil => rfl
  | cons c cs ih =>
    rw [forall_mem_cons] at hnames
    have hrest := ih hnames.2 (getLast?_of_cons hlast)
    rw [recount, kept_cons]
    by_cases hdot : c = [dot]
    · rw [if_pos hdot, if_pos (.inr hdot), hrest]
    by_cases hnil : c = []
    · have hne : cs ≠ [] := by
        rintro rfl
        exact hlast (by rw [hnil]; rfl)
      rw [if_neg hdot, if_pos hnil, if_neg fun h => hne h.1, if_pos (.inl hnil), hrest]
    · have hup : c = dotdot := by simpa [isName, hdot, hnil] using hnames.1
      rw [if_neg hdot, if_neg hnil, if_pos hup, if_neg (by tauto), Mark.up, hrest]

theorem recount_name (hnames : ∀ c ∈ cs.dropWhile (· ≠ dotdot), isName c = false)
    (hlast : (cs.dropWhile (· ≠ dotdot)).getLast? ≠ some []) : recount .name cs = kept cs := by
  induction cs with
  | nil => rfl
  | cons c cs ih =>
    by_cases hup : c = dotdot
    · rw [dropWhile_cons_of_neg (by simpa using hup)] at hnames hlast
      rw [forall_mem_cons] at hnames
      rw [hup, recount, kept_cons, if_neg (by decide), if_neg (by decide), if_pos rfl,
        if_neg (by decide), Mark.up, recount_back hnames.2 (getLast?_of_cons hlast)]
    · rw [dropWhile_cons_of_pos (by simpa using hup)] at hnames hlast
      refine recount_cons (by decide) hup ?_
      rw [ite_self]
      exact ih hnames hlast

theorem Tame.recount (h : Tame cs) : recount .start cs = kept cs := by
  induction cs with
  | nil => rfl
  | cons c cs ih =>
    rw [Tame, fromBack] at h
    by_cases hc : isName c = true
    · have hup : c ≠ dotdot := by
        simp only [isName, decide_eq_true_eq] at hc
        exact hc.2.2
      rw [dropWhile_cons_of_neg (by simp [hc]), dropWhile_cons_of_pos (by simpa using hup)] at h
      refine recount_cons (by decide) hup ?_
      rw [if_pos hc]
      exact recount_name h.1 h.2
    · rw [dropWhile_cons_of_pos (by simpa using hc)] at h
      by_cases hup : c = dotdot
      · rw [hup, Sys.recount, kept_cons, if_neg (by decide), if_neg (by decide), if_pos rfl,
          if_neg (by decide), Mark.up, ih h]
      · refine recount_cons (by decide) hup ?_
        rw [if_neg hc]
        exact ih h

theorem tame_of_no_dotdot (h : dotdot ∉ cs) : Tame cs := by
  have hnil : fromBack cs = [] :=
    dropWhile_eq_nil_iff.2 fun c hc => by
      have hmem : c ∈ cs := (dropWhile_suffix _).subset hc
      simpa using fun he : c = dotdot => h (he ▸ hmem)
  simp [Tame, hnil]

/-! ## Resolution -/

/-- The text to be rewritten, were there room for all of it. -/
def fullText (cwd path : Text) : Text :=
  (if path.head? = some slash then []
    else if cwd.length > 1 ∧ cwd.getLast? ≠ some slash then cwd ++ [slash] else cwd) ++ path

/-- What there is room for. -/
def cutText (cwd path : Text) (n : ℕ) : Text := (fullText cwd path).take (n - 1)

theorem copyUpTo_eq_take {limit : ℕ} {out : Text} (h : out.length ≤ limit) (s : Text) :
    copyUpTo limit out s = (out ++ s).take limit := by
  rw [copyUpTo, take_append, take_of_length_le h]

theorem startText_eq (p : PathProc) (path : Text) (n : ℕ) :
    startText (some p) path n = cutText p.cwd path n := by
  unfold startText cutText fullText
  by_cases habs : path.head? = some slash
  · simp only [if_pos habs]
    exact copyUpTo_eq_take (Nat.zero_le _) path
  have hcopy : copyUpTo (n - 1) [] p.cwd = p.cwd.take (n - 1) :=
    copyUpTo_eq_take (Nat.zero_le _) p.cwd
  simp only [if_neg habs, Option.elim_some, hcopy]
  by_cases hlen : p.cwd.length < n - 1
  · -- the directory and its slash have room
    rw [take_of_length_le hlen.le]
    simp only [hlen, and_true]
    refine copyUpTo_eq_take ?_ path
    split
    · rw [length_append, length_singleton]
      omega
    · omega
  · have hfull : (p.cwd.take (n - 1)).length = n - 1 := by
      rw [length_take]
      omega
    rw [if_neg (by omega), copyUpTo_eq_take hfull.le, take_left' hfull]
    split
    · rw [append_assoc, take_append_of_le_length (by omega)]
    · rw [take_append_of_le_length (by omega)]

variable {cwd path t : Text} {n : ℕ}

theorem head_fullText (hcwd : cwd.head? = some slash) (path : Text) :
    (fullText cwd path).head? = some slash := by
  rw [fullText]
  split
  · assumption
  · split <;> simp [hcwd]

theorem head_cutText (hcwd : cwd.head? = some slash) (path : Text) (hn : 2 ≤ n) :
    (cutText cwd path n).head? = some slash := by
  rw [cutText, head?_take, if_neg (by omega), head_fullText hcwd]

theorem plain_left_kept (hsep : ∀ c ∈ cs, slash ∉ c) : ∀ c ∈ left (kept cs), Plain c := by
  intro c hc
  have hk : c ∈ kept cs := by simpa using (foldl_climb_sublist dotdot (kept cs) []).subset hc
  have hup : c ≠ dotdot := by
    rintro rfl
    exact up_notMem_foldl_climb (kept cs) (by simp) hc
  simp only [kept, mem_filter, decide_eq_true_eq] at hk
  exact ⟨hk.2.1, hk.2.2, hup, hsep c hk.1⟩

theorem normal_normalOf (t : Text) : Normal (normalOf t) :=
  ⟨_, fun c hc => plain_left_kept sep_notMem_of_mem_splitOn c (mem_reverse.1 hc), rfl⟩

theorem Normal.head (h : Normal t) : t.head? = some slash := by
  obtain ⟨cs, -, rfl⟩ := h
  unfold render
  split
  · rfl
  · obtain ⟨c, cs, rfl⟩ := exists_cons_of_ne_nil ‹_›
    simp

/-- The components of a normal form are its own. -/
theorem Normal.fixed (h : Normal t) : closeText (rewriteLoop [] 0 t) = t := by
  have hhead := h.head
  obtain ⟨cs, hcs, rfl⟩ := h
  have hkept : kept cs = cs := filter_eq_self.2 fun c hc => by
    simp [(hcs c hc).ne_nil, (hcs c hc).ne_dot]
  have hup : dotdot ∉ cs := fun hm => (hcs _ hm).ne_dotdot rfl
  by_cases hne : cs = []
  · rw [hne]
    rfl
  · have hsplit : (render cs).splitOn slash = [] :: cs := by
      rw [render, if_neg hne]
      exact splitOn_joined hne fun c hc => (hcs c hc).no_slash
    have htame : Tame ([] :: cs) := tame_of_no_dotdot (by simpa [dotdot] using hup)
    rw [closeText_splitOn hhead, hsplit, htame.recount, kept_cons, if_pos (.inl rfl), hkept, left,
      foldl_climb_of_notMem hup, append_nil, reverse_reverse]

theorem length_normalOf_le (h : t.head? = some slash) : (normalOf t).length ≤ t.length := by
  obtain ⟨u, rfl⟩ := head?_eq_some_iff.1 h
  have hkept : kept ([] :: u.splitOn slash) = kept (u.splitOn slash) := by
    rw [kept_cons, if_pos (.inl rfl)]
  rw [normalOf, render, splitOn_sep_cons, hkept]
  split
  · simp
  · rw [← joined_splitOn]
    refine length_joined_le_of_sublist ?_
    have := (foldl_climb_sublist dotdot (kept (u.splitOn slash)) []).reverse
    simp only [append_nil, reverse_reverse] at this
    exact this.trans filter_sublist

theorem normalOf_fullText (hcwd : cwd.head? = some slash) (path : Text) :
    normalOf (fullText cwd path) = normalForm cwd path := by
  rw [normalOf, normalForm, fullText, components]
  split
  · rfl
  split
  · rw [append_assoc, singleton_append, splitOn_append_cons_self]
  rename_i hlast
  obtain ⟨u, rfl⟩ : ∃ u, cwd = u ++ [slash] := by
    rcases eq_nil_or_concat' cwd with rfl | ⟨u, x, rfl⟩
    · cases hcwd
    · refine ⟨u, ?_⟩
      cases u with
      | nil => rw [Option.some.inj hcwd]
      | cons y u =>
        rw [getLast?_concat] at hlast
        simpa using hlast
  rw [append_assoc, singleton_append, splitOn_append_cons_self, splitOn_append_cons_self]
  simp [kept]

/-- What the claim of lexical resolution comes to for a size of the buffer: the normal form where
it fits, which is resolved to itself, and otherwise an error. -/
def ResolvesRight (cwd path : Text) (n : ℕ) : Prop :=
  if (normalForm cwd path).length < n then
    resolvePath (some ⟨cwd, []⟩) path n = .ok (normalForm cwd path) ∧ Normal (normalForm cwd path) ∧
      resolvePath (some ⟨cwd, []⟩) (normalForm cwd path) n = .ok (normalForm cwd path)
  else ∃ e, resolvePath (some ⟨cwd, []⟩) path n = .error e

theorem resolvePath_eq (cwd path : Text) (hn : 2 ≤ n) : resolvePath (some ⟨cwd, []⟩) path n =
    .ok (closeText (rewriteLoop [] 0 (cutText cwd path n))) := by
  rw [resolvePath, if_neg (by omega), startText_eq]
  rfl

/-- **Lexical resolution.**  A buffer of less than two bytes is refused.  With a larger one, and as
long as the text that there is room for is tame, the result is right exactly when this text has
the same normal form as the whole; so it has where there is room for the whole text. -/
theorem resolves_lexically (hcwd : Normal cwd) (path : Text) (n : ℕ) :
    (n < 2 → ResolvesRight cwd path n) ∧
    (2 ≤ n → Tame ((cutText cwd path n).splitOn slash) →
      (ResolvesRight cwd path n ↔ normalOf (cutText cwd path n) = normalForm cwd path)) ∧
    ((fullText cwd path).length < n → normalOf (cutText cwd path n) = normalForm cwd path) := by
  have hform := normalOf_fullText hcwd.head path
  have hnormal : Normal (normalForm cwd path) := hform ▸ normal_normalOf _
  refine ⟨fun hn => ?_, fun hn htame => ?_, fun hfit => ?_⟩
  · rw [ResolvesRight, if_neg]
    · exact ⟨.EINVAL, by rw [resolvePath, if_pos hn]⟩
    · obtain ⟨u, hu⟩ := head?_eq_some_iff.1 hnormal.head
      rw [hu, length_cons]
      omega
  · -- a text of less than `n` bytes is rewritten, which never fails
    have hres : resolvePath (some ⟨cwd, []⟩) path n = .ok (normalOf (cutText cwd path n)) := by
      rw [resolvePath_eq _ _ hn, closeText_splitOn (head_cutText hcwd.head path hn), htame.recount]
      rfl
    constructor
    · intro hright
      rw [ResolvesRight] at hright
      split at hright
      · exact Except.ok.inj (hres.symm.trans hright.1)
      · obtain ⟨e, he⟩ := hright
        rw [hres] at he
        cases he
    · intro hsame
      have hlen : (normalForm cwd path).length < n := by
        have hcut := length_normalOf_le (head_cutText hcwd.head path hn)
        have hle : (cutText cwd path n).length ≤ n - 1 := length_take_le _ _
        rw [← hsame]
        omega
      rw [ResolvesRight, if_pos hlen]
      refine ⟨by rw [hres, hsame], hnormal, ?_⟩
      have hwhole : cutText cwd (normalForm cwd path) n = normalForm cwd path := by
        rw [cutText, fullText, if_pos hnormal.head, nil_append, take_of_length_le (by omega)]
      rw [resolvePath_eq _ _ hn, hwhole, hnormal.fixed]
  · rw [cutText, take_of_length_le (by omega), hform]

/-- `b/../` in the directory `/a`, where the last slash has no room. -/
theorem resolves_lexically_parent :
    normalForm [47, 97] [98, 47, 46, 46, 47] = [47, 97] ∧
      ResolvesRight [47, 97] [98, 47, 46, 46, 47] 8 := by
  have hcwd : Normal [47, 97] := by
    refine ⟨[[97]], ?_, by decide⟩
    intro c hc
    obtain rfl := mem_singleton.1 hc
    exact ⟨by decide, by decide, by decide, by decide⟩
  exact ⟨by decide +kernel, ((resolves_lexically hcwd _ 8).2.1 (by decide) (by decide +kernel)).2
    (by decide +kernel)⟩

/-- `/a/b/../c` becomes `/a//c`.  Of `/a/./b`, whose normal form `/a/b` has room in six bytes,
only the first five bytes are resolved, and of `/abc`, which has no room in three, the first two;
no error is returned. -/
theorem resolves_with_doubled_slash :
    (normalForm [47] [47, 97, 47, 98, 47, 46, 46, 47, 99] = [47, 97, 47, 99] ∧
      resolvePath (some ⟨[47], []⟩) [47, 97, 47, 98, 47, 46, 46, 47, 99] 64 =
        .ok [47, 97, 47, 47, 99]) ∧ (normalForm [47] [47, 97, 47, 46, 47, 98] = [47, 97, 47, 98] ∧
      resolvePath (some ⟨[47], []⟩) [47, 97, 47, 46, 47, 98] 6 = .ok [47, 97]) ∧
    (normalForm [47] [47, 97, 98, 99] = [47, 97, 98, 99] ∧
      resolvePath (some ⟨[47], []⟩) [47, 97, 98, 99] 3 = .ok [47, 97]) := by
  decide +kernel

end CosmoRT.Sys
