import CosmoRT.Lib.Bytes
import Mathlib

/-!
# The initial user stack: `build_user_stack` of `proc/process_exec.c`

Eight pages are mapped below `stack_top`; the function fills them through their kernel addresses,
by offsets from the lowest page.  Sixteen random bytes stand at the top, below them the strings of
the environment and of the arguments, each checked to leave 256 bytes, and below these, at an
offset found by an unsigned subtraction without a check, the table of `argc`, the pointers and the
auxiliary vector.  A byte stored outside the eight pages is recorded in `escaped`.

Offsets are 64-bit numbers.  What the environment decides is in `StackEnv`: whether pages were to
be had, the random bytes, the credentials, the vDSO.
-/

namespace CosmoRT.Proc

open Lib.Bytes List Function Bool

/-- `STK_SIZE`. -/
def stkSize : ℕ := 8 * 4096

/-- A 64-bit sum. -/
def wrap64 (n : ℕ) : ℕ := n % 2 ^ 64

theorem wrap64_of_lt {n : ℕ} (h : n < 2 ^ 64) : wrap64 n = n := Nat.mod_eq_of_lt h

/-- A C string, without its terminating zero. -/
@[ext] structure CString where
  bytes : List Byte
  no_nul : 0#8 ∉ bytes

/-- The parts of `elf_info_t` that go into the auxiliary vector. -/
structure ElfInfo where
  progPhdr : BitVec 64
  progPhent : BitVec 16
  progPhnum : BitVec 16
  interpBase : BitVec 64
  progEntry : BitVec 64

/-- The credentials of the current process. -/
structure Cred where
  ruid : BitVec 32
  euid : BitVec 32
  rgid : BitVec 32
  egid : BitVec 32

structure StackEnv where
  /-- all eight pages were allocated and mapped -/
  pagesOk : Bool
  /-- both tables of addresses were allocated -/
  tablesOk : Bool
  /-- what `random_get` delivers, if it succeeds -/
  random : Option (Fin 16 → Byte)
  info : ElfInfo
  cred : Option Cred
  vdsoBase : BitVec 64

/-! ## The pages -/

/-- The bytes of the eight pages, and whether a byte was stored outside. -/
structure StackPages where
  mem : Mem
  escaped : Bool

namespace StackPages

/-- `STK_BYTE(off) = v`. -/
def setByte (s : StackPages) (off : ℕ) (v : Byte) : StackPages :=
  if off < stkSize then { s with mem := update s.mem off v } else { s with escaped := true }

/-- Bytes one after the other from `off` on. -/
def setBytes (s : StackPages) (off : ℕ) : List Byte → StackPages
  | [] => s
  | b :: bs => (s.setByte off b).setBytes (wrap64 (off + 1)) bs

/-- `STK_QWORD(wp, v); wp += 8`, word by word: every word puts its bytes behind the one before. -/
def setWords (s : StackPages) (wp : ℕ) (ws : List (BitVec 64)) : StackPages :=
  s.setBytes wp (wordsBytes ws)

/-- The loop over strings, from the last to the first: the offset reached and the offsets of the
strings, or nothing if a string does not leave 256 bytes. -/
def pushStrings (s : StackPages) (off : ℕ) : List CString → StackPages × Option (ℕ × List ℕ)
  | [] => (s, some (off, []))
  | x :: xs =>
    match pushStrings s off xs with
    | (s, none) => (s, none)
    | (s, some (off, offs)) =>
      if off < x.bytes.length + 1 + 256 then (s, none)
      else
        let off := off - (x.bytes.length + 1)
        (s.setBytes off (x.bytes ++ [0#8]), some (off, off :: offs))

end StackPages

/-! ## The function -/

section

variable (env : StackEnv)

/-- The sixteen bytes for `AT_RANDOM`. -/
def StackEnv.randomBytes : List Byte :=
  ofFn (env.random.getD fun _ => 0x42#8)

/-- The auxiliary vector. -/
def StackEnv.auxv (random execfn : BitVec 64) : List (BitVec 64) :=
  let uid := (env.cred.map Cred.ruid).getD 0 |>.setWidth 64
  let euid := (env.cred.map Cred.euid).getD 0 |>.setWidth 64
  let gid := (env.cred.map Cred.rgid).getD 0 |>.setWidth 64
  let egid := (env.cred.map Cred.egid).getD 0 |>.setWidth 64
  let secure : BitVec 64 := if uid ≠ euid ∨ gid ≠ egid then 1 else 0
  [3, env.info.progPhdr, 4, env.info.progPhent.setWidth 64, 5, env.info.progPhnum.setWidth 64,
    7, env.info.interpBase, 9, env.info.progEntry, 6, 4096, 25, random, 31, execfn,
    11, uid, 12, euid, 13, gid, 14, egid, 23, secure] ++
  (if env.vdsoBase ≠ 0 then [33, env.vdsoBase] else []) ++ [0, 0]

/-- `naux`. -/
def StackEnv.naux : ℕ := if env.vdsoBase ≠ 0 then 15 else 14

/-- `nqwords`. -/
def StackEnv.nqwords (argc envc : ℕ) : ℕ :=
  1 + (argc + 1) + (envc + 1) + env.naux * 2

/-- The words of the table, for strings at the given offsets. -/
def StackEnv.table (base random : ℕ) (argvOffs envpOffs : List ℕ) : List (BitVec 64) :=
  let addr := fun off : ℕ => BitVec.ofNat 64 (base + off)
  [BitVec.ofNat 64 argvOffs.length] ++ argvOffs.map addr ++ [0] ++ envpOffs.map addr ++ [0] ++
    env.auxv (addr random) (addr (argvOffs.headD 0))

/-- `build_user_stack`: the pages and the value returned. -/
def buildUserStack (mem : Mem) (stackTop : ℕ) (argv envp : List CString) : StackPages × ℕ :=
  let base := wrap64 (stackTop + 2 ^ 64 - stkSize)
  let s : StackPages := ⟨mem, false⟩
  if !env.pagesOk || !env.tablesOk then (s, 0)
  else
    let random := (stkSize - 16) / 8 * 8
    let s := s.setBytes random env.randomBytes
    match s.pushStrings random envp with
    | (s, none) => (s, 0)
    | (s, some (off, envpOffs)) =>
      match s.pushStrings off argv with
      | (s, none) => (s, 0)
      | (s, some (off, argvOffs)) =>
        let off := off / 8 * 8
        let off := wrap64 (off + 2 ^ 64 - wrap64 (env.nqwords argv.length envp.length * 8))
        let off := off / 16 * 16
        (s.setWords off (env.table base random argvOffs envpOffs), wrap64 (base + off))

end

/-! ## Storing inside the pages -/

namespace StackPages

variable {s : StackPages}

theorem setBytes_inside {off : ℕ} {bs : List Byte}
    (h : off + bs.length ≤ stkSize) : s.setBytes off bs = { s with mem := write s.mem off bs } := by
  induction bs generalizing s off with
  | nil => simp [setBytes, write_nil]
  | cons b bs ih =>
    rw [length_cons] at h
    have hlt : off < stkSize := by omega
    have hmod : wrap64 (off + 1) = off + 1 := wrap64_of_lt (by unfold stkSize at h; omega)
    have hone : update s.mem off b = write s.mem off [b] := by
      funext x
      by_cases hx : x = off
      · subst hx
        simp [write]
      · rw [update_of_ne hx, write, if_neg (by simp; omega)]
    rw [setBytes, setByte, if_pos hlt, hmod, ih (by omega), hone]
    rw [show off + 1 = off + [b].length from rfl, write_append]
    rfl

/-! ## Storing outside -/

theorem setByte_escaped (h : s.escaped = true) (off : ℕ) (v : Byte) :
    (s.setByte off v).escaped = true := by
  unfold setByte
  split
  · exact h
  · rfl

theorem setBytes_escaped (h : s.escaped = true) (off : ℕ) (bs : List Byte) :
    (s.setBytes off bs).escaped = true := by
  induction bs generalizing s off with
  | nil => exact h
  | cons b bs ih => exact ih (setByte_escaped h off b) _

theorem setBytes_outside {off : ℕ} (h : stkSize ≤ off) {bs : List Byte}
    (hbs : bs ≠ []) : (s.setBytes off bs).escaped = true := by
  obtain ⟨b, bs, rfl⟩ := exists_cons_of_ne_nil hbs
  rw [setBytes]
  refine setBytes_escaped ?_ _ _
  rw [setByte, if_neg (by omega)]

end StackPages

/-! ## Strings -/

/-- The bytes that strings take, with their zeros. -/
def totalSize (xs : List CString) : ℕ := (xs.map fun x => x.bytes.length + 1).sum

/-- The strings one after the other. -/
def stringBytes (xs : List CString) : List Byte := xs.flatMap fun x => x.bytes ++ [0#8]

/-- Where the strings stand when they end at `off`. -/
def offsets (off : ℕ) : List CString → List ℕ
  | [] => []
  | x :: xs => (off - totalSize (x :: xs)) :: offsets off xs

@[simp] theorem totalSize_nil : totalSize [] = 0 := rfl

@[simp] theorem totalSize_cons (x : CString) (xs : List CString) :
    totalSize (x :: xs) = x.bytes.length + 1 + totalSize xs := by
  simp [totalSize]

@[simp] theorem stringBytes_cons (x : CString) (xs : List CString) :
    stringBytes (x :: xs) = x.bytes ++ [0#8] ++ stringBytes xs := by
  simp [stringBytes]

@[simp] theorem length_stringBytes (xs : List CString) :
    (stringBytes xs).length = totalSize xs := by
  induction xs with
  | nil => rfl
  | cons x xs ih =>
    simp [ih]
    omega

@[simp] theorem length_offsets (off : ℕ) (xs : List CString) :
    (offsets off xs).length = xs.length := by
  induction xs with
  | nil => rfl
  | cons x xs ih => simp [offsets, ih]

variable {off : ℕ} {xs : List CString}

theorem pushStrings_of_fits {s : StackPages} (hoff : off ≤ stkSize)
    (h : xs = [] ∨ totalSize xs + 256 ≤ off) :
    s.pushStrings off xs = ({ s with mem := write s.mem (off - totalSize xs) (stringBytes xs) },
      some (off - totalSize xs, offsets off xs)) := by
  induction xs with
  | nil => simp [StackPages.pushStrings, stringBytes, write_nil, offsets]
  | cons x xs ih =>
    have hx : totalSize (x :: xs) + 256 ≤ off := by simpa using h
    rw [totalSize_cons] at hx
    rw [StackPages.pushStrings, ih (.inr (by omega))]
    simp only
    rw [if_neg (by omega), StackPages.setBytes_inside (by simp; omega)]
    simp only [totalSize_cons, stringBytes_cons, offsets]
    have hat : off - (x.bytes.length + 1 + totalSize xs) + (x.bytes ++ [0#8]).length =
        off - totalSize xs := by
      simp
      omega
    have hjoin := write_below s.mem (off - (x.bytes.length + 1 + totalSize xs)) (x.bytes ++ [0#8])
      (stringBytes xs)
    rw [hat] at hjoin
    rw [show off - totalSize xs - (x.bytes.length + 1) =
      off - (x.bytes.length + 1 + totalSize xs) by omega, hjoin]

theorem pushStrings_of_not_fits {s : StackPages} (hoff : off ≤ stkSize)
    (hne : xs ≠ []) (h : off < totalSize xs + 256) :
    ∃ m, s.pushStrings off xs = ({ s with mem := m }, none) := by
  induction xs with
  | nil => exact absurd rfl hne
  | cons x xs ih =>
    by_cases hxs : xs = [] ∨ totalSize xs + 256 ≤ off
    · refine ⟨write s.mem (off - totalSize xs) (stringBytes xs), ?_⟩
      rw [StackPages.pushStrings, pushStrings_of_fits hoff hxs]
      simp only
      rw [totalSize_cons] at h
      rw [if_pos]
      rcases hxs with rfl | hxs
      · simpa using h
      · omega
    · push Not at hxs
      obtain ⟨m, hm⟩ := ih hxs.1 hxs.2
      exact ⟨m, by rw [StackPages.pushStrings, hm]⟩

theorem copies_of_read {m : Mem} (hle : totalSize xs ≤ off)
    (h : read m (off - totalSize xs) (totalSize xs) = stringBytes xs) :
    List.Forall₂ (fun x o => read m o (x.bytes.length + 1) = x.bytes ++ [0#8]) xs
      (offsets off xs) := by
  induction xs with
  | nil => exact .nil
  | cons x xs ih =>
    rw [totalSize_cons] at hle
    rw [totalSize_cons, read_add] at h
    obtain ⟨h1, h2⟩ := append_inj h (by simp)
    refine .cons h1 (ih (by omega) ?_)
    rwa [show off - (x.bytes.length + 1 + totalSize xs) + (x.bytes.length + 1) =
      off - totalSize xs by omega] at h2

/-- The places that strings take. -/
def regions (offs : List ℕ) (xs : List CString) : List (ℕ × ℕ) :=
  zipWith (fun o x => (o, x.bytes.length + 1)) offs xs

/-- One region ends before the other begins. -/
def Before (a b : ℕ × ℕ) : Prop := a.1 + a.2 ≤ b.1

theorem regions_bounds (hle : totalSize xs ≤ off) :
    ∀ r ∈ regions (offsets off xs) xs, off - totalSize xs ≤ r.1 ∧ r.1 + r.2 ≤ off := by
  induction xs with
  | nil => simp [regions, offsets]
  | cons x xs ih =>
    rw [totalSize_cons] at hle ⊢
    intro r hr
    rw [regions, offsets, zipWith_cons_cons, mem_cons] at hr
    rcases hr with rfl | hr
    · rw [totalSize_cons]
      omega
    · have := ih (by omega) r hr
      omega

theorem regions_apart (hle : totalSize xs ≤ off) :
    (regions (offsets off xs) xs).Pairwise Before := by
  induction xs with
  | nil => exact .nil
  | cons x xs ih =>
    rw [totalSize_cons] at hle
    refine .cons (fun r hr => ?_) (ih (by omega))
    have hle' : totalSize xs ≤ off := by omega
    have := (regions_bounds hle' r hr).1
    unfold Before
    rw [totalSize_cons]
    simp only
    omega

/-! ## The stack -/

variable (mem : Mem) (env : StackEnv) (stackTop : ℕ)

@[simp] theorem length_randomBytes : env.randomBytes.length = 16 := by
  simp [StackEnv.randomBytes]

theorem length_table (base random : ℕ) (argvOffs envpOffs : List ℕ) :
    (env.table base random argvOffs envpOffs).length =
      env.nqwords argvOffs.length envpOffs.length := by
  unfold StackEnv.table StackEnv.auxv StackEnv.nqwords StackEnv.naux
  split <;> simp <;> omega

/-- The pages hold the table from `off` on, the strings and the random bytes, one above the
other. -/
structure StackLayout (env : StackEnv) (mem : Mem) (base off : ℕ) (argv envp : List CString)
    (argvOffs envpOffs : List ℕ) : Prop where
  table : read mem off (8 * (env.table base (stkSize - 16) argvOffs envpOffs).length) =
    wordsBytes (env.table base (stkSize - 16) argvOffs envpOffs)
  argvCopies : List.Forall₂
    (fun x o => read mem o (x.bytes.length + 1) = x.bytes ++ [0#8]) argv argvOffs
  envpCopies : List.Forall₂
    (fun x o => read mem o (x.bytes.length + 1) = x.bytes ++ [0#8]) envp envpOffs
  random : read mem (stkSize - 16) 16 = env.randomBytes
  apart : ((off, 8 * (env.table base (stkSize - 16) argvOffs envpOffs).length) ::
    (regions argvOffs argv ++ (regions envpOffs envp ++ [(stkSize - 16, 16)]))).Pairwise Before

/-- Nothing was stored outside the pages, and the value returned is 0 or the address of the
table. -/
def WellBuilt (env : StackEnv) (stackTop : ℕ) (argv envp : List CString)
    (r : StackPages × ℕ) : Prop :=
  r.1.escaped = false ∧ (r.2 = 0 ∨ r.2 % 16 = 0 ∧ ∃ off argvOffs envpOffs,
    r.2 = stackTop - stkSize + off ∧ off < stkSize ∧
      StackLayout env r.1.mem (stackTop - stkSize) off argv envp argvOffs envpOffs)

/-- The function gives up, or there is room for the table below the strings. -/
def StackFits (env : StackEnv) (argv envp : List CString) : Prop :=
  env.pagesOk = false ∨ env.tablesOk = false ∨
    stkSize - 16 - 256 < totalSize argv + totalSize envp ∨
    8 * env.nqwords argv.length envp.length ≤
      (stkSize - 16 - (totalSize argv + totalSize envp)) / 8 * 8

/-- The pages before the table is stored, when all strings fit. -/
def filledPages (env : StackEnv) (mem : Mem) (argv envp : List CString) : StackPages :=
  ⟨write mem (stkSize - 16 - (totalSize argv + totalSize envp))
    (stringBytes argv ++ (stringBytes envp ++ env.randomBytes)), false⟩

variable {argv envp : List CString}

theorem setBytes_randomBytes {env : StackEnv} :
    (⟨mem, false⟩ : StackPages).setBytes (stkSize - 16) env.randomBytes =
      ⟨write mem (stkSize - 16) env.randomBytes, false⟩ :=
  StackPages.setBytes_inside (by simp [stkSize])

theorem wrap64_table {env : StackEnv} (h : 8 * env.nqwords argv.length envp.length ≤
    (stkSize - 16 - (totalSize argv + totalSize envp)) / 8 * 8) :
    wrap64 ((stkSize - 16 - (totalSize argv + totalSize envp)) / 8 * 8 + 2 ^ 64 -
      wrap64 (env.nqwords argv.length envp.length * 8)) =
      (stkSize - 16 - (totalSize argv + totalSize envp)) / 8 * 8 -
        8 * env.nqwords argv.length envp.length := by
  unfold wrap64 stkSize at *
  omega

theorem buildUserStack_eq {env : StackEnv} (hpages : env.pagesOk = true)
    (htables : env.tablesOk = true) (hfit : totalSize argv + totalSize envp ≤ stkSize - 16 - 256) :
    buildUserStack env mem stackTop argv envp =
      (let base := wrap64 (stackTop + 2 ^ 64 - stkSize)
       let a := stkSize - 16 - (totalSize argv + totalSize envp)
       let off := wrap64 (a / 8 * 8 + 2 ^ 64 -
         wrap64 (env.nqwords argv.length envp.length * 8)) / 16 * 16
       ((filledPages env mem argv envp).setWords off (env.table base (stkSize - 16)
         (offsets (stkSize - 16 - totalSize envp) argv) (offsets (stkSize - 16) envp)),
         wrap64 (base + off))) := by
  have hround : (stkSize - 16) / 8 * 8 = stkSize - 16 := by decide
  have hsize : stkSize = 32768 := rfl
  set te := totalSize envp with hte
  set ta := totalSize argv with hta
  -- the three blocks join
  have hjoin : write (write (write mem (stkSize - 16) env.randomBytes) (stkSize - 16 - te)
      (stringBytes envp)) (stkSize - 16 - te - ta) (stringBytes argv) =
      (filledPages env mem argv envp).mem := by
    have h1 := write_below mem (stkSize - 16 - te) (stringBytes envp) env.randomBytes
    have h2 := write_below mem (stkSize - 16 - te - ta) (stringBytes argv)
      (stringBytes envp ++ env.randomBytes)
    rw [length_stringBytes, show stkSize - 16 - te + te = stkSize - 16 by omega] at h1
    rw [length_stringBytes, show stkSize - 16 - te - ta + ta = stkSize - 16 - te by omega] at h2
    rw [h1, h2, filledPages, ← hte, Nat.sub_sub _ te ta, Nat.add_comm te ta]
  have henv : (⟨write mem (stkSize - 16) env.randomBytes, false⟩ : StackPages).pushStrings
      (stkSize - 16) envp = _ := pushStrings_of_fits (by omega) (.inr (by omega))
  have harg : (⟨write (write mem (stkSize - 16) env.randomBytes) (stkSize - 16 - te)
      (stringBytes envp), false⟩ : StackPages).pushStrings (stkSize - 16 - te) argv = _ :=
    pushStrings_of_fits (by omega) (.inr (by omega))
  rw [← hte] at henv
  rw [hjoin] at harg
  unfold buildUserStack
  simp only [hpages, htables, Bool.not_true, Bool.or_self, Bool.false_eq_true, if_false, hround,
    setBytes_randomBytes, henv, harg]
  rw [Nat.sub_sub _ te ta, Nat.add_comm te ta]
  rfl

theorem buildUserStack_refused {env : StackEnv} (hargc : argv ≠ [])
    (hfit : stkSize - 16 - 256 < totalSize argv + totalSize envp) :
    (buildUserStack env mem stackTop argv envp).1.escaped = false ∧
      (buildUserStack env mem stackTop argv envp).2 = 0 := by
  have hround : (stkSize - 16) / 8 * 8 = stkSize - 16 := by decide
  unfold buildUserStack
  by_cases hok : (!env.pagesOk || !env.tablesOk) = true
  · simp [hok]
  simp only [hok, false_eq_true, if_false, hround, setBytes_randomBytes]
  by_cases henv : envp = [] ∨ totalSize envp + 256 ≤ stkSize - 16
  · rw [pushStrings_of_fits (by omega) henv]
    obtain ⟨m, hm⟩ := pushStrings_of_not_fits
      (s := ⟨write (write mem (stkSize - 16) env.randomBytes) (stkSize - 16 - totalSize envp)
        (stringBytes envp), false⟩) (show stkSize - 16 - totalSize envp ≤ stkSize by omega) hargc
      (by omega)
    simp [hm]
  · push Not at henv
    obtain ⟨m, hm⟩ := pushStrings_of_not_fits
      (s := ⟨write mem (stkSize - 16) env.randomBytes, false⟩)
      (show stkSize - 16 ≤ stkSize by omega) henv.1 henv.2
    simp [hm]

theorem stackLayout_of_room {env : StackEnv} (base : ℕ)
    (hfit : totalSize argv + totalSize envp ≤ stkSize - 16 - 256)
    (hoff : off + 8 * env.nqwords argv.length envp.length ≤
      stkSize - 16 - (totalSize argv + totalSize envp)) :
    StackLayout env (write (filledPages env mem argv envp).mem off
        (wordsBytes (env.table base (stkSize - 16) (offsets (stkSize - 16 - totalSize envp) argv)
          (offsets (stkSize - 16) envp))))
      base off argv envp (offsets (stkSize - 16 - totalSize envp) argv)
        (offsets (stkSize - 16) envp) := by
  set ws := env.table base (stkSize - 16)
    (offsets (stkSize - 16 - totalSize envp) argv) (offsets (stkSize - 16) envp) with hws
  have hlen : ws.length = env.nqwords argv.length envp.length := by
    rw [length_table]
    simp
  -- above the table the blocks are as they were
  have hblock : ∀ i n, i + n ≤ totalSize argv + totalSize envp + 16 →
      read (write (filledPages env mem argv envp).mem off (wordsBytes ws))
        (stkSize - 16 - (totalSize argv + totalSize envp) + i) n =
      ((stringBytes argv ++ (stringBytes envp ++ env.randomBytes)).drop i).take n := by
    intro i n hin
    rw [read_write_of_disjoint (.inr (by rw [length_wordsBytes]; omega)), filledPages,
      read_write_sub _ _ (by simp; omega)]
  have hargv : read (write (filledPages env mem argv envp).mem off (wordsBytes ws))
      (stkSize - 16 - totalSize envp - totalSize argv) (totalSize argv) = stringBytes argv := by
    have := hblock 0 (totalSize argv) (by omega)
    rw [drop_zero, take_left' (length_stringBytes argv)] at this
    rwa [show stkSize - 16 - totalSize envp - totalSize argv =
      stkSize - 16 - (totalSize argv + totalSize envp) by omega]
  have henvp : read (write (filledPages env mem argv envp).mem off (wordsBytes ws))
      (stkSize - 16 - totalSize envp) (totalSize envp) = stringBytes envp := by
    have := hblock (totalSize argv) (totalSize envp) (by omega)
    rw [drop_left' (length_stringBytes argv), take_left' (length_stringBytes envp)] at this
    rwa [show stkSize - 16 - totalSize envp =
      stkSize - 16 - (totalSize argv + totalSize envp) + totalSize argv by omega]
  have hrandom : read (write (filledPages env mem argv envp).mem off (wordsBytes ws))
      (stkSize - 16) 16 = env.randomBytes := by
    have := hblock (totalSize argv + totalSize envp) 16 (by omega)
    rw [← drop_drop, drop_left' (length_stringBytes argv),
      drop_left' (length_stringBytes envp)] at this
    rwa [show stkSize - 16 = stkSize - 16 - (totalSize argv + totalSize envp) +
      (totalSize argv + totalSize envp) by omega]
  have hta : totalSize argv ≤ stkSize - 16 - totalSize envp := by omega
  have hte : totalSize envp ≤ stkSize - 16 := by omega
  have hra := regions_bounds hta
  have hre := regions_bounds hte
  refine ⟨?_, copies_of_read hta hargv, copies_of_read hte henvp, hrandom, ?_⟩
  · exact read_write _ _ (length_wordsBytes ws)
  rw [← hws]
  refine .cons (fun r hr => ?_) (pairwise_append.2 ⟨regions_apart hta,
    pairwise_append.2 ⟨regions_apart hte, pairwise_singleton .., fun r hr q hq => ?_⟩,
    fun r hr q hq => ?_⟩)
  · rcases mem_append.1 hr with hr | hr
    · have := (hra r hr).1
      unfold Before
      omega
    · rcases mem_append.1 hr with hr | hr
      · have := (hre r hr).1
        unfold Before
        omega
      · obtain rfl := mem_singleton.1 hr
        unfold Before
        omega
  · obtain rfl := mem_singleton.1 hq
    exact (hre r hr).2
  · have h1 := (hra r hr).2
    unfold Before
    rcases mem_append.1 hq with hq | hq
    · have := (hre q hq).1
      omega
    · obtain rfl := mem_singleton.1 hq
      omega

theorem nqwords_le {argc envc : ℕ} (hargc : argc ≤ 4096) (henvc : envc ≤ 4096) :
    env.nqwords argc envc ≤ 8225 := by
  unfold StackEnv.nqwords StackEnv.naux
  split <;> omega

theorem buildUserStack_escapes {env : StackEnv}
    (hargs : argv.length ≤ 4096) (henvs : envp.length ≤ 4096) (hpages : env.pagesOk = true)
    (htables : env.tablesOk = true) (hfit : totalSize argv + totalSize envp ≤ stkSize - 16 - 256)
    (hroom : (stkSize - 16 - (totalSize argv + totalSize envp)) / 8 * 8 <
      8 * env.nqwords argv.length envp.length) :
    (buildUserStack env mem stackTop argv envp).1.escaped = true := by
  have hsize : stkSize = 32768 := rfl
  have hnq := nqwords_le env hargs henvs
  rw [buildUserStack_eq mem stackTop hpages htables hfit]
  refine StackPages.setBytes_outside ?_ ?_
  · rw [wrap64_of_lt (show env.nqwords argv.length envp.length * 8 < 2 ^ 64 by omega),
      wrap64_of_lt (by omega)]
    omega
  · intro h
    have hlen := congrArg length h
    rw [length_wordsBytes, length_table] at hlen
    unfold StackEnv.nqwords at hlen
    simp at hlen

/-- The stack is built as it should be, or refused, exactly when the table has room below the
strings. -/
theorem user_stack_built {env : StackEnv} {mem : Mem} {stackTop : ℕ} {argv envp : List CString}
    (hargc : 1 ≤ argv.length) (hargs : argv.length ≤ 4096) (henvs : envp.length ≤ 4096)
    (htop : stackTop % 4096 = 0) (hlow : stkSize ≤ stackTop) (hhigh : stackTop < 2 ^ 64) :
    WellBuilt env stackTop argv envp (buildUserStack env mem stackTop argv envp) ↔
      StackFits env argv envp := by
  have hsize : stkSize = 32768 := rfl
  have hne : argv ≠ [] := by
    rintro rfl
    simp at hargc
  by_cases hok : env.pagesOk = true ∧ env.tablesOk = true
  swap
  · have hgive : (!env.pagesOk || !env.tablesOk) = true := by
      rw [not_and_or, not_eq_true] at hok
      rcases hok with h | h <;> simp [h]
    refine ⟨fun _ => ?_, fun _ => ?_⟩
    · rw [not_and_or, not_eq_true, not_eq_true] at hok
      exact hok.imp id .inl
    · unfold buildUserStack
      simp only [hgive, if_true]
      exact ⟨rfl, .inl rfl⟩
  obtain ⟨hpages, htables⟩ := hok
  by_cases hfit : stkSize - 16 - 256 < totalSize argv + totalSize envp
  · exact ⟨fun _ => .inr (.inr (.inl hfit)), fun _ =>
      (buildUserStack_refused mem stackTop hne hfit).imp_right .inl⟩
  by_cases hroom : 8 * env.nqwords argv.length envp.length ≤
      (stkSize - 16 - (totalSize argv + totalSize envp)) / 8 * 8
  · refine ⟨fun _ => .inr (.inr (.inr hroom)), fun _ => ?_⟩
    rw [buildUserStack_eq mem stackTop hpages htables (by omega)]
    have hbase : wrap64 (stackTop + 2 ^ 64 - stkSize) = stackTop - stkSize := by
      unfold wrap64
      omega
    simp only [hbase, wrap64_table hroom]
    set off := ((stkSize - 16 - (totalSize argv + totalSize envp)) / 8 * 8 -
      8 * env.nqwords argv.length envp.length) / 16 * 16 with hoff
    have hend : off + 8 * env.nqwords argv.length envp.length ≤
        stkSize - 16 - (totalSize argv + totalSize envp) := by omega
    have hinside : (wordsBytes (env.table (stackTop - stkSize) (stkSize - 16)
        (offsets (stkSize - 16 - totalSize envp) argv) (offsets (stkSize - 16) envp))).length =
        8 * env.nqwords argv.length envp.length := by
      rw [length_wordsBytes, length_table]
      simp
    rw [StackPages.setWords, StackPages.setBytes_inside (by omega)]
    refine ⟨rfl, .inr ⟨?_, off, _, _, ?_, by omega,
      stackLayout_of_room mem (stackTop - stkSize) (by omega) hend⟩⟩
    · unfold wrap64
      omega
    · exact wrap64_of_lt (by omega)
  · have hesc : (buildUserStack env mem stackTop argv envp).1.escaped = true :=
      buildUserStack_escapes mem stackTop hargs henvs hpages htables (by omega) (by omega)
    refine ⟨fun h => absurd (hesc.symm.trans h.1) (by simp), fun h => ?_⟩
    rcases h with h | h | h | h
    · simp [hpages] at h
    · simp [htables] at h
    · exact absurd h hfit
    · exact absurd h hroom

/-- An environment in which all allocations succeed, without vDSO. -/
def plainEnv : StackEnv where
  pagesOk := true
  tablesOk := true
  random := none
  info := ⟨0x400040, 56, 2, 0, 0x401000⟩
  cred := none
  vdsoBase := 0

/-- A string of `n` letters. -/
def letters (n : ℕ) : CString := ⟨replicate n 97#8, by simp [mem_replicate]⟩

theorem length_letters (n : ℕ) : (letters n).bytes.length = n := length_replicate

theorem totalSize_letters (n : ℕ) : totalSize [letters n] = n + 1 := by
  simp [letters]

/-- One argument of five letters and no environment. -/
theorem user_stack_built_small :
    StackFits plainEnv [letters 5] [] ∧
      WellBuilt plainEnv 0x7FFFFFFFE000 [letters 5] []
        (buildUserStack plainEnv (fun _ => 0) 0x7FFFFFFFE000 [letters 5] []) := by
  refine ⟨?fits, (user_stack_built (by decide) (by decide) (by decide) (by decide) (by decide)
    (by decide)).2 ?fits⟩
  refine .inr (.inr (.inr ?_))
  decide

/-- Two arguments that take 32496 bytes leave 256, but the table takes 264. -/
theorem user_stack_escapes :
    (buildUserStack plainEnv (fun _ => 0) 0x7FFFFFFFE000 [letters 1, letters 32493] []).1.escaped =
      true := by
  have htotal : totalSize [letters 1, letters 32493] = 32496 := by
    rw [totalSize_cons, totalSize_letters]
    simp [letters]
  refine buildUserStack_escapes _ _ (by simp) (by simp) rfl rfl ?_ ?_ <;> rw [htotal] <;> decide

end CosmoRT.Proc
