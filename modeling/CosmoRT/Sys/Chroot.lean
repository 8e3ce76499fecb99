import CosmoRT.Sys.Path

/-!
# The paths of the system calls: `sys/sys_file.c`, `sys/sys_fs.c`, `process_exec.c`

Each call copies its path from user space and hands a resolved path to the file system.  What the
calls do between the two differs: `resolve_at_path` returns an absolute path as it was given, and
`do_openat` and `do_fstatat` resolve once more what it returns.  `resolve_path` puts the root of
the process in front, so the calls agree on a path when they pass it through `resolve_path` equally
often, or when the root is not seen, as `/` is not.

Only the path of a call is modelled; the checks on its other arguments can refuse it but do not
change the path.
-/

namespace CosmoRT.Sys

open Lib List Function

/-- What `fd_get` finds, as far as the path calls look at it. -/
inductive OpenFd where
  | file (isDir : Bool) (path : Text)
  | other
  deriving DecidableEq, Repr

/-- The directory argument: `AT_FDCWD` or a descriptor. -/
inductive DirFd where
  | cwd
  | fd (n : ℕ)
  deriving DecidableEq, Repr

/-- The process that makes the call. -/
structure Caller where
  proc : PathProc
  fds : ℕ → Option OpenFd

/-- `copy_path_from_user`; `none` is a pointer that faults. -/
def copyPathFromUser (upath : Option Text) (max : ℕ) : Except Errno Text :=
  match upath with
  | none => .error .EFAULT
  | some t =>
    if t = [] then .error .ENOENT else if t.length < max then .ok t else .error .ENAMETOOLONG

/-- `copy_path_from_user_proc`: an empty path is none the less a path. -/
def copyPathFromUserProc (upath : Option Text) (max : ℕ) : Except Errno Text :=
  match copyPathFromUser upath max with
  | .error .ENOENT => .ok []
  | r => r

/-- The path of a directory, a slash and the path below it. -/
def dirText (dir path : Text) : Text :=
  let tmp := copyUpTo (pathMax - 2) [] dir
  let tmp := if tmp ≠ [] ∧ tmp.getLast? ≠ some slash then tmp ++ [slash] else tmp
  copyUpTo (pathMax - 1) tmp path

section

variable (c : Caller)

/-- The path of the directory open at a descriptor. -/
def Caller.dirPath (n : ℕ) : Except Errno Text :=
  match c.fds n with
  | none => .error .EBADF
  | some .other => .error .ENOTDIR
  | some (.file isDir path) =>
    if !isDir then .error .ENOTDIR else if path = [] then .error .EBADF else .ok path

section

variable (dirfd : DirFd)

/-- How `resolve_at_path` and `do_execveat` resolve a relative path. -/
def resolveFrom (kpath : Text) (max : ℕ) : Except Errno Text :=
  match dirfd with
  | .cwd => resolvePath (some c.proc) kpath max
  | .fd n =>
    match c.dirPath n with
    | .error e => .error e
    | .ok dir => resolvePath (some c.proc) (dirText dir kpath) max

section

variable (upath : Option Text)

/-- `resolve_at_path`. -/
def resolveAtPath (max : ℕ) : Except Errno Text :=
  match copyPathFromUser upath max with
  | .error e => .error e
  | .ok kpath => if kpath.head? = some slash then .ok kpath else resolveFrom c dirfd kpath max

/-- The search for a component of more than 255 bytes; `comp` bytes of one have been seen. -/
def nameTooLong (comp : ℕ) : Text → Bool
  | [] => false
  | c :: t =>
    if c = slash then nameTooLong 0 t
    else if comp + 1 > 255 then true
    else nameTooLong (comp + 1) t

/-- The calls that take a path. -/
inductive PathCall where
  | openat | fstatat | mkdirat | unlinkat | renameat | execve | execveat | chdir | chroot
  deriving DecidableEq, Repr

/-- `do_openat` and `do_fstatat`: what `resolve_at_path` returns is resolved once more. -/
def pathTwice : Except Errno Text :=
  match resolveAtPath c dirfd upath pathMax with
  | .error e => .error e
  | .ok kpath => resolvePath (some c.proc) kpath pathMax

/-- `do_chdir` and `do_chroot`. -/
def pathNamed : Except Errno Text :=
  match copyPathFromUser upath pathMax with
  | .error e => .error e
  | .ok kpath =>
    if nameTooLong 0 kpath then .error .ENAMETOOLONG else resolvePath (some c.proc) kpath pathMax

/-- `do_execve`; every failure to copy is `EFAULT`. -/
def pathExecve : Except Errno Text :=
  match copyPathFromUserProc upath pathMax with
  | .error _ => .error .EFAULT
  | .ok kpath => resolvePath (some c.proc) kpath pathMax

/-- `do_execveat` without flags. -/
def pathExecveat : Except Errno Text :=
  match copyPathFromUserProc upath pathMax with
  | .error e => .error e
  | .ok kpath =>
    if kpath = [] then .error .ENOENT
    else if kpath.head? = some slash then resolvePath (some c.proc) kpath pathMax
    else resolveFrom c dirfd kpath pathMax

/-- The path that a call hands to the file system; the calls without a directory argument are
made with `AT_FDCWD`. -/
def PathCall.path : PathCall → Except Errno Text
  | .openat | .fstatat => pathTwice c dirfd upath
  | .mkdirat | .unlinkat | .renameat => resolveAtPath c dirfd upath pathMax
  | .execve => pathExecve c upath
  | .execveat => pathExecveat c dirfd upath
  | .chdir | .chroot => pathNamed c upath

end

end

/-- Whether a call can be made with this directory. -/
def PathCall.takes : PathCall → DirFd → Bool
  | .execve, .fd _ | .chdir, .fd _ | .chroot, .fd _ => false
  | _, _ => true

/-- How often a call passes the path through `resolve_path`. -/
def PathCall.passes (path : Text) : PathCall → ℕ
  | .openat | .fstatat => if path.head? = some slash then 1 else 2
  | .mkdirat | .unlinkat | .renameat => if path.head? = some slash then 0 else 1
  | .execve | .execveat | .chdir | .chroot => 1

/-- The path of the directory that a relative path starts at. -/
def Caller.base : DirFd → Text
  | .cwd => c.proc.cwd
  | .fd n => match c.fds n with
      | some (.file true path) => path
      | _ => []

/-- The absolute text that a call starts from, were there room for all of it. -/
def Caller.text (dirfd : DirFd) (path : Text) : Text :=
  match dirfd with
  | .cwd => fullText c.proc.cwd path
  | .fd _ =>
    if path.head? = some slash then path
    else if (c.base dirfd).getLast? ≠ some slash then c.base dirfd ++ [slash] ++ path
    else c.base dirfd ++ path

end

/-- The root alone stands for itself. -/
def belowRoot (out : Text) : Text := if out = [slash] then [] else out

/-- What one pass makes of an absolute text, were there room for it. -/
def onePass (root t : Text) : Text :=
  root ++ belowRoot (render (left (recount .start (t.splitOn slash))).reverse)

/-- What may follow the root: nothing or an absolute path without dot-dot. -/
structure Below (q : Text) : Prop where
  slash_first : q = [] ∨ q.head? = some slash
  no_dotdot : dotdot ∉ q.splitOn slash

/-- A process with a root of its own that makes calls with one directory and path: none of them
refuses the path, and nothing is cut for want of room, neither the text the calls start from nor
what a pass makes of it. -/
structure Jailed (c : Caller) (dirfd : DirFd) (path : Text) (calls : List PathCall) : Prop where
  root_abs : c.proc.root.head? = some slash
  cwd_abs : c.proc.cwd.head? = some slash
  base_abs : (c.base dirfd).head? = some slash
  path_ne : path ≠ []
  names : .chdir ∈ calls ∨ .chroot ∈ calls → nameTooLong 0 path = false
  takes : ∀ k ∈ calls, k.takes dirfd = true
  room : ∀ k ∈ calls, ∀ i ≤ k.passes path,
    ((onePass c.proc.root)^[i] (c.text dirfd path)).length < pathMax

/-- The calls pass the path through `resolve_path` equally often and at least once; or at least
once, and the root has no name, so that it does not show whether it is there twice; or never,
and the path is below the root as it stands. -/
def Alike (c : Caller) (dirfd : DirFd) (path : Text) (calls : List PathCall) : Prop :=
  (∃ n, 1 ≤ n ∧ ∀ k ∈ calls, k.passes path = n) ∨
    (kept (c.proc.root.splitOn slash) = [] ∧ Tame ((c.text dirfd path).splitOn slash) ∧
      ∀ k ∈ calls, 1 ≤ k.passes path) ∨
    (∀ k ∈ calls, k.passes path = 0) ∧ ∃ q, Below q ∧ path = c.proc.root ++ q

/-! ## One pass through `resolve_path` -/

theorem copyUpTo_eq {limit : ℕ} {out s : Text} (h : (out ++ s).length ≤ limit) :
    copyUpTo limit out s = out ++ s := by
  rw [length_append] at h
  rw [copyUpTo_eq_take (by omega), take_of_length_le (by rwa [length_append])]

variable {p : PathProc} {path t root : Text} {cs : List Name}

theorem resolvePath_onePass (hcwd : p.cwd.head? = some slash) (hroot : p.root ≠ [])
    (hfit : (fullText p.cwd path).length < pathMax)
    (hout : (onePass p.root (fullText p.cwd path)).length < pathMax) :
    resolvePath (some p) path pathMax = .ok (onePass p.root (fullText p.cwd path)) := by
  have hcut : cutText p.cwd path pathMax = fullText p.cwd path := take_of_length_le (by omega)
  rw [resolvePath, if_neg (by decide), startText_eq, hcut,
    closeText_splitOn (head_fullText hcwd path), applyRoot]
  rw [onePass] at hout ⊢
  generalize render (left (recount .start ((fullText p.cwd path).splitOn slash))).reverse =
    out at hout
  have hlen : p.root.length ≤ pathMax - 1 := by
    rw [length_append] at hout
    omega
  have h1 : copyUpTo (pathMax - 1) [] p.root = p.root := copyUpTo_eq (by simpa using hlen)
  simp only [if_neg hroot, h1]
  rw [belowRoot] at hout ⊢
  split at hout
  case isTrue hslash => rw [if_pos hslash, if_pos hslash, h1, append_nil]
  case isFalse hslash =>
    have h2 : copyUpTo (pathMax - 1) p.root out = p.root ++ out := copyUpTo_eq (by omega)
    have h3 : copyUpTo (pathMax - 1) [] (p.root ++ out) = p.root ++ out :=
      copyUpTo_eq (by rw [nil_append]; omega)
    rw [if_neg hslash, if_neg hslash, h2, h3]

theorem fullText_abs (h : t.head? = some slash) (cwd : Text) : fullText cwd t = t := by
  rw [fullText, if_pos h, nil_append]

theorem head_onePass (h : root.head? = some slash) (t : Text) :
    (onePass root t).head? = some slash := by
  rw [onePass, head?_append, h]
  rfl

/-- The components of what one pass leaves. -/
structure Loose (cs : List Name) : Prop where
  no_slash : ∀ c ∈ cs, slash ∉ c
  no_dotdot : dotdot ∉ cs

theorem slash_notMem_recount (h : ∀ c ∈ cs, slash ∉ c) (m : Mark) :
    ∀ c ∈ recount m cs, slash ∉ c := by
  induction cs generalizing m with
  | nil => simp [recount]
  | cons c cs ih =>
    rw [forall_mem_cons] at h
    have hparts : ∀ d ∈ nameParts m c, slash ∉ d := by
      unfold nameParts
      split <;> simp [h.1]
    rw [recount]
    split_ifs
    · exact ih h.2 m
    · simp
    · exact ih h.2 m
    · exact forall_mem_cons.2 ⟨h.1, ih h.2 _⟩
    · exact forall_mem_append.2 ⟨hparts, ih h.2 _⟩

theorem loose_left (t : Text) : Loose (left (recount .start (t.splitOn slash))).reverse := by
  have hsep : ∀ c ∈ t.splitOn slash, slash ∉ c := sep_notMem_of_mem_splitOn
  refine ⟨fun c hc => slash_notMem_recount hsep .start c ?_, ?_⟩
  · simpa using (foldl_climb_sublist dotdot (recount .start (t.splitOn slash)) []).subset
      (mem_reverse.1 hc)
  · rw [mem_reverse]
    exact up_notMem_foldl_climb _ (by simp)

theorem below_render (h : Loose cs) : Below (belowRoot (render cs)) := by
  have hnil : Below [] := ⟨.inl rfl, by decide⟩
  unfold belowRoot
  split
  · exact hnil
  rename_i hne
  unfold render at hne ⊢
  split
  · rename_i hcs
    simp [hcs] at hne
  · rename_i hcs
    obtain ⟨c, cs, rfl⟩ := exists_cons_of_ne_nil hcs
    refine ⟨.inr (by simp), ?_⟩
    rw [splitOn_joined hcs h.no_slash, mem_cons, not_or]
    exact ⟨by decide, h.no_dotdot⟩

/-- A root without a name is not seen by a second pass. -/
theorem onePass_onePass (hnone : kept (root.splitOn slash) = []) (htame : Tame (t.splitOn slash)) :
    onePass root (onePass root t) = onePass root t := by
  rw [onePass, onePass, htame.recount]
  set cs := (left (kept (t.splitOn slash))).reverse with hcs
  have hplain : ∀ c ∈ cs, Plain c := fun c hc =>
    plain_left_kept sep_notMem_of_mem_splitOn c (mem_reverse.1 hc)
  have hsplit : (root ++ belowRoot (render cs)).splitOn slash = root.splitOn slash ++ cs := by
    rw [belowRoot, render]
    by_cases hnil : cs = []
    · simp [hnil]
    · have hne : joined slash cs ≠ [slash] := by
        obtain ⟨c, ds, hc⟩ := exists_cons_of_ne_nil hnil
        have := (hplain c (by simp [hc])).ne_nil
        simp [hc, this]
      rw [if_neg hnil, if_neg hne, joined_eq_intercalate hnil, splitOn_append_cons_self,
        splitOn_intercalate _ (fun c hc => (hplain c hc).no_slash) hnil]
  have hkept : kept (root.splitOn slash ++ cs) = cs := by
    rw [kept, filter_append, ← kept, hnone, nil_append]
    exact filter_eq_self.2 fun c hc => by simp [(hplain c hc).ne_nil, (hplain c hc).ne_dot]
  have hup : dotdot ∉ cs := fun hm => (hplain _ hm).ne_dotdot rfl
  have hall : Tame (root.splitOn slash ++ cs) := by
    refine tame_of_no_dotdot fun hm => ?_
    have : dotdot ∈ kept (root.splitOn slash ++ cs) := mem_filter.2 ⟨hm, by decide⟩
    exact hup (hkept ▸ this)
  rw [hsplit, hall.recount, hkept, left, foldl_climb_of_notMem hup, append_nil, reverse_reverse]

/-! ## The calls -/

theorem text_of_abs {c : Caller} {dirfd : DirFd} (h : path.head? = some slash) :
    c.text dirfd path = path := by
  cases dirfd with
  | cwd => exact fullText_abs h _
  | fd n => exact if_pos h

theorem length_path_le (c : Caller) (dirfd : DirFd) (path : Text) :
    path.length ≤ (c.text dirfd path).length := by
  cases dirfd with
  | cwd =>
    rw [Caller.text, fullText, length_append]
    omega
  | fd n =>
    rw [Caller.text]
    split
    · exact le_rfl
    · split <;> rw [length_append] <;> omega

namespace Jailed

variable {c : Caller} {dirfd : DirFd} {calls : List PathCall} (hj : Jailed c dirfd path calls)

include hj

theorem root_ne : c.proc.root ≠ [] := by
  intro h
  simpa [h] using hj.root_abs

theorem text_fd {n : ℕ} (h : path.head? ≠ some slash)
    (hfit : (c.text (.fd n) path).length < pathMax) (hbase : (c.base (.fd n)).head? = some slash) :
    dirText (c.base (.fd n)) path = c.text (.fd n) path := by
  have hpos := length_pos_iff.2 hj.path_ne
  have hne : c.base (.fd n) ≠ [] := by
    intro hnil
    simp [hnil] at hbase
  rw [Caller.text, if_neg h] at hfit ⊢
  have hdir : copyUpTo (pathMax - 2) [] (c.base (.fd n)) = c.base (.fd n) := by
    refine copyUpTo_eq ?_
    rw [nil_append]
    split at hfit <;> simp only [length_append, length_singleton] at hfit <;> omega
  simp only [dirText, hdir, hne, not_false_eq_true, ne_eq, true_and]
  split <;> rename_i hlast
  · rw [if_pos hlast] at hfit
    exact copyUpTo_eq (by omega)
  · rw [if_neg hlast] at hfit
    exact copyUpTo_eq (by omega)

section

variable {k : PathCall} (hk : k ∈ calls)

include hk

theorem copy_eq : copyPathFromUser (some path) pathMax = .ok path := by
  have hlen : (c.text dirfd path).length < pathMax := hj.room k hk 0 (Nat.zero_le _)
  have hle := length_path_le c dirfd path
  rw [copyPathFromUser, if_neg hj.path_ne, if_pos (by omega)]

theorem copyProc_eq : copyPathFromUserProc (some path) pathMax = .ok path := by
  rw [copyPathFromUserProc, hj.copy_eq hk]

theorem resolve_once (hpass : 1 ≤ k.passes path) {s : Text}
    (hs : fullText c.proc.cwd s = c.text dirfd path) :
    resolvePath (some c.proc) s pathMax = .ok (onePass c.proc.root (c.text dirfd path)) := by
  rw [← hs]
  refine resolvePath_onePass hj.cwd_abs hj.root_ne ?_ ?_ <;> rw [hs]
  · exact hj.room k hk 0 (Nat.zero_le _)
  · exact hj.room k hk 1 hpass

theorem resolve_again (hpass : 2 ≤ k.passes path) :
    resolvePath (some c.proc) (onePass c.proc.root (c.text dirfd path)) pathMax =
      .ok (onePass c.proc.root (onePass c.proc.root (c.text dirfd path))) := by
  have habs := fullText_abs (head_onePass hj.root_abs (c.text dirfd path)) c.proc.cwd
  have hres := resolvePath_onePass hj.cwd_abs hj.root_ne
    (by rw [habs]; exact hj.room k hk 1 (by omega)) (by rw [habs]; exact hj.room k hk 2 hpass)
  rwa [habs] at hres

theorem resolveFrom_eq (h : path.head? ≠ some slash) (hpass : 1 ≤ k.passes path) :
    resolveFrom c dirfd path pathMax = .ok (onePass c.proc.root (c.text dirfd path)) := by
  have hbase := hj.base_abs
  cases dirfd with
  | cwd => exact hj.resolve_once hk hpass rfl
  | fd n =>
    have hdir : c.dirPath n = .ok (c.base (.fd n)) := by
      simp only [Caller.base] at hbase ⊢
      cases hfd : c.fds n with
      | none => simp [hfd] at hbase
      | some f =>
        rcases f with ⟨isDir, dir⟩ | _
        · cases isDir with
          | false => simp [hfd] at hbase
          | true =>
            have hne : dir ≠ [] := by
              rintro rfl
              simp [hfd] at hbase
            simp [Caller.dirPath, hfd, hne]
        · simp [hfd] at hbase
    rw [resolveFrom, hdir]
    dsimp only
    rw [hj.text_fd h (hj.room k hk 0 (Nat.zero_le _)) hbase]
    refine hj.resolve_once hk hpass (fullText_abs ?_ _)
    rw [Caller.text, if_neg h]
    split <;> simp [hbase]

theorem resolveAtPath_eq (hpass : path.head? ≠ some slash → 1 ≤ k.passes path) :
    resolveAtPath c dirfd (some path) pathMax =
      .ok ((onePass c.proc.root)^[if path.head? = some slash then 0 else 1]
        (c.text dirfd path)) := by
  rw [resolveAtPath, hj.copy_eq hk]
  by_cases h : path.head? = some slash
  · simp [h, text_of_abs h]
  · simpa [h] using hj.resolveFrom_eq hk h (hpass h)

/-- Every call passes the text it starts from through `resolve_path` so often. -/
theorem path_eq :
    k.path c dirfd (some path) =
      .ok ((onePass c.proc.root)^[k.passes path] (c.text dirfd path)) := by
  have htakes := hj.takes k hk
  -- the calls without a directory argument, and all with an absolute path
  have hdirect : dirfd = .cwd ∨ path.head? = some slash → 1 ≤ k.passes path →
      resolvePath (some c.proc) path pathMax = .ok (onePass c.proc.root (c.text dirfd path)) := by
    intro h hpass
    refine hj.resolve_once hk hpass ?_
    rcases h with rfl | h
    · rfl
    · rw [fullText_abs h, text_of_abs h]
  have hcwd : k = .execve ∨ k = .chdir ∨ k = .chroot → dirfd = .cwd := by
    cases dirfd with
    | cwd => exact fun _ => rfl
    | fd n => rintro (rfl | rfl | rfl) <;> simp [PathCall.takes] at htakes
  cases k with
  | mkdirat | unlinkat | renameat =>
    exact hj.resolveAtPath_eq hk fun h => by simp [PathCall.passes, h]
  | openat | fstatat =>
    have hat := hj.resolveAtPath_eq hk fun h => by simp [PathCall.passes, h]
    simp only [PathCall.path, pathTwice, hat, PathCall.passes]
    by_cases h : path.head? = some slash
    · simpa [h, text_of_abs h] using hdirect (.inr h) (by simp [PathCall.passes, h])
    · simpa [h] using hj.resolve_again hk (by simp [PathCall.passes, h])
  | execve =>
    simpa [PathCall.path, pathExecve, hj.copyProc_eq hk, PathCall.passes] using
      hdirect (.inl (hcwd (by simp))) le_rfl
  | chdir | chroot =>
    have hnames := hj.names (by simp [hk])
    simpa [PathCall.path, pathNamed, hj.copy_eq hk, hnames, PathCall.passes] using
      hdirect (.inl (hcwd (by simp))) le_rfl
  | execveat =>
    simp only [PathCall.path, pathExecveat, hj.copyProc_eq hk, PathCall.passes, if_neg hj.path_ne]
    by_cases h : path.head? = some slash
    · simpa [h] using hdirect (.inr h) le_rfl
    · simpa [h] using hj.resolveFrom_eq hk h le_rfl

end

end Jailed

theorem below_onePass (root t : Text) : ∃ q, Below q ∧ onePass root t = root ++ q :=
  ⟨_, below_render (loose_left t), rfl⟩

end CosmoRT.Sys
