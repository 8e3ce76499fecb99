import CosmoRT.Lib.Run
import Mathlib

/-!
# The vDSO data page: `vdso_data_update` and `vdso_read_data`

The kernel writes the page between two stores to `seq`, which is odd meanwhile; a reader in user
space loads the four values between two loads of `seq`.  Every load and store is one step, and the
steps of the writer and of one reader come in any order.  `seq` and the copies of the reader are not
cut to 32 bits but compared modulo `2 ^ 32`; `version`, which the reader does not look at, is left
out.

* `snapshot_consistent` — **a reader returns the values of one update**, as long as it does not meet
  again the odd number of its last turn, nor 2³¹ updates in one turn.
* `snapshot_torn` — `continue` goes on with the test of the loop, so a reader that meets the odd
  number again returns what it has.
-/

namespace CosmoRT.Sys

open Lib Function

/-- The values of `struct vdso_data`. -/
inductive VdsoField where
  | mult | shift | bootTsc | wallTimeOffsetNs
  deriving DecidableEq, Repr

/-- In the order of the stores, and of the loads. -/
def vdsoFields : List VdsoField := [.mult, .shift, .bootTsc, .wallTimeOffsetNs]

/-- What the page holds beside `seq`. -/
abbrev VdsoValues := VdsoField → BitVec 64

/-- Where `vdso_read_data` is. -/
inductive VdsoPc where
  /-- the first load of `seq` -/
  | enter
  /-- the values that are to be loaded, and then `seq` again -/
  | load (todo : List VdsoField)
  /-- `while (s1 != s2)` -/
  | test
  | returned

/-- The local variables of `vdso_read_data`; `out` is what its caller gets. -/
structure VdsoReader where
  pc : VdsoPc
  s1 : ℕ
  s2 : ℕ
  out : VdsoValues

/-- The data page with its writer and one reader.  `seq` is not reduced here. -/
structure Vdso where
  seq : ℕ
  page : VdsoValues
  /-- in `vdso_data_update`: the values, and the stores to come -/
  writer : Option (VdsoValues × List VdsoField)
  reader : VdsoReader
  /-- the complete updates -/
  updates : List VdsoValues

/-- One step of `vdso_data_update`, which begins with the values `v`. -/
def vdsoDataUpdate (s : Vdso) (v : VdsoValues) : Vdso :=
  match s.writer with
  | none => { s with seq := s.seq + 1, writer := some (v, vdsoFields) }
  | some (v, f :: fs) => { s with page := update s.page f (v f), writer := some (v, fs) }
  | some (v, []) => { s with seq := s.seq + 1, writer := none, updates := v :: s.updates }

/-- One step of `vdso_read_data`. -/
def vdsoReadData (s : Vdso) : VdsoReader :=
  match s.reader with
  -- `continue` goes on with the test
  | ⟨.enter, _, s2, out⟩ => ⟨if s.seq % 2 = 1 then .test else .load vdsoFields, s.seq, s2, out⟩
  | ⟨.load (f :: fs), s1, s2, out⟩ => ⟨.load fs, s1, s2, update out f (s.page f)⟩
  | ⟨.load [], s1, _, out⟩ => ⟨.test, s1, s.seq, out⟩
  | ⟨.test, s1, s2, out⟩ => ⟨if s1 ≡ s2 [MOD 2 ^ 32] then .returned else .enter, s1, s2, out⟩
  | ⟨.returned, s1, s2, out⟩ => ⟨.returned, s1, s2, out⟩

/-- A step of the writer or of the reader. -/
inductive VdsoOp where
  | write (v : VdsoValues)
  | read

/-- One step. -/
def vdsoNext (s : Vdso) : VdsoOp → Vdso
  | .write v => vdsoDataUpdate s v
  | .read => { s with reader := vdsoReadData s }

/-- `vdso_init` has made the first update; the variables of the reader hold `out`. -/
def vdsoStart (v out : VdsoValues) : Vdso := ⟨2, v, none, ⟨.enter, 0, 0, out⟩, [v]⟩

/-- The reader does not load the odd number that `s2` is left with, and less than 2³¹ updates come
between its two loads of `seq`. -/
def vdsoUndisturbed (s : Vdso) : VdsoOp → Prop
  | .write _ => True
  | .read =>
    match s.reader.pc with
    | .enter => s.seq % 2 = 1 → ¬ s.seq ≡ s.reader.s2 [MOD 2 ^ 32]
    | .load [] => s.seq < s.reader.s1 + 2 ^ 32
    | _ => True

/-! ## The invariant -/

/-- During an update `seq` is odd. -/
def Vdso.Writes (s : Vdso) : Prop :=
  match s.writer with
  | none => s.seq % 2 = 0 ∧ s.page ∈ s.updates
  | some (v, todo) => s.seq % 2 = 1 ∧ ∀ f ∉ todo, s.page f = v f

/-- What a reader has, by where it is; nothing has disturbed it as long as `seq` is `s1`. -/
def VdsoReader.Reads (s : Vdso) (r : VdsoReader) : Prop :=
  match r.pc with
  | .enter => True
  | .load todo => r.s1 % 2 = 0 ∧ r.s1 ≤ s.seq ∧ (r.s1 = s.seq → ∀ f ∉ todo, r.out f = s.page f)
  | .test => r.s1 ≡ r.s2 [MOD 2 ^ 32] → r.out ∈ s.updates
  | .returned => r.out ∈ s.updates

/-- Writer and reader are in order. -/
structure Vdso.Steady (s : Vdso) : Prop where
  writes : s.Writes
  reads : s.reader.Reads s

theorem mem_vdsoFields (f : VdsoField) : f ∈ vdsoFields := by cases f <;> decide

theorem update_eq_of_forall {a b : VdsoValues} {f : VdsoField} {fs : List VdsoField}
    (h : ∀ g ∉ f :: fs, a g = b g) : ∀ g ∉ fs, update a f (b f) g = b g := by
  intro g hg
  by_cases hgf : g = f
  · rw [hgf, update_self]
  · rw [update_of_ne hgf, h g (by simp [hgf, hg])]

/-- What the writer does leaves a reader what it has, or disturbs it. -/
theorem VdsoReader.Reads.mono {s s' : Vdso} {r : VdsoReader} (h : r.Reads s) (hle : s.seq ≤ s'.seq)
    (hseq : s'.seq = s.seq → s.seq % 2 = 1) (hsub : s.updates ⊆ s'.updates) : r.Reads s' := by
  obtain ⟨pc, s1, s2, out⟩ := r
  cases pc with
  | enter => trivial
  | load todo =>
    obtain ⟨heven : s1 % 2 = 0, hs1 : s1 ≤ s.seq, -⟩ := h
    refine ⟨heven, hs1.trans hle, fun (heq : s1 = _) => ?_⟩
    omega
  | test => exact fun heq => hsub (h heq)
  | returned => exact hsub h

theorem Vdso.Steady.write {s : Vdso} (h : s.Steady) (v : VdsoValues) :
    (vdsoDataUpdate s v).Steady := by
  rcases s with ⟨seq, page, _ | ⟨v', _ | ⟨f, fs⟩⟩, r, ups⟩
  · obtain ⟨heven : seq % 2 = 0, -⟩ := h.writes
    refine ⟨⟨?_, fun f hf => absurd (mem_vdsoFields f) hf⟩,
      h.reads.mono (Nat.le_succ seq) (by simp [vdsoDataUpdate]) (List.Subset.refl _)⟩
    exact Nat.succ_mod_two_eq_one_iff.2 heven
  · obtain ⟨hodd : seq % 2 = 1, hstored⟩ := h.writes
    have hpage : page = v' := funext fun f => hstored f (by simp)
    refine ⟨⟨?_, hpage ▸ List.mem_cons_self ..⟩,
      h.reads.mono (Nat.le_succ seq) (by simp [vdsoDataUpdate]) (List.subset_cons_self ..)⟩
    exact Nat.succ_mod_two_eq_zero_iff.2 hodd
  · obtain ⟨hodd, hstored⟩ := h.writes
    exact ⟨⟨hodd, update_eq_of_forall hstored⟩,
      h.reads.mono le_rfl (fun _ => hodd) (List.Subset.refl _)⟩

theorem Vdso.Steady.read {s : Vdso} (h : s.Steady) (hok : vdsoUndisturbed s .read) :
    (vdsoReadData s).Reads s := by
  obtain ⟨hw, hr⟩ := h
  rcases s with ⟨seq, page, w, ⟨_ | ⟨_ | ⟨f, fs⟩⟩ | _ | _, s1, s2, out⟩, ups⟩
  · dsimp only [vdsoReadData]
    split_ifs with hodd
    · exact fun heq => absurd heq (hok hodd)
    · exact ⟨Nat.mod_two_ne_one.1 hodd, le_rfl, fun _ f hf => absurd (mem_vdsoFields f) hf⟩
  · -- the second load of `seq`
    obtain ⟨heven : s1 % 2 = 0, hle : s1 ≤ seq, hout⟩ := hr
    intro (heq : s1 ≡ seq [MOD 2 ^ 32])
    have hlt : seq < s1 + 2 ^ 32 := hok
    have hsame : s1 = seq := by
      rw [Nat.ModEq] at heq
      omega
    rcases w with _ | ⟨v, todo⟩
    · exact (funext fun f => hout hsame f (by simp) : out = page) ▸ hw.2
    · have hodd : seq % 2 = 1 := hw.1
      omega
  · exact ⟨hr.1, hr.2.1, fun heq => update_eq_of_forall (hr.2.2 heq)⟩
  · dsimp only [vdsoReadData]
    split_ifs with heq
    · exact hr heq
    · trivial
  · exact hr

/-- **A reader that returns has the values of one update**, in every run in which it does not load
the odd number that `s2` is left with, and less than 2³¹ updates come between two loads of `seq`. -/
theorem snapshot_consistent (v out : VdsoValues) (ops : List VdsoOp)
    (hok : Along vdsoNext vdsoUndisturbed (vdsoStart v out) ops) :
    let s := run vdsoNext (vdsoStart v out) ops
    s.reader.pc = .returned → s.reader.out ∈ s.updates := by
  intro s hpc
  have hsteady : s.Steady := by
    refine run_invariant (fun s op h hop => ?_)
      ⟨⟨Nat.mod_self 2, List.mem_singleton_self v⟩, trivial⟩ hok
    cases op with
    | write v => exact h.write v
    | read => exact ⟨h.writes, h.read hop⟩
  have hreads := hsteady.reads
  rw [VdsoReader.Reads, hpc] at hreads
  exact hreads

/-- An update from 5 to 1 comes between two loads of the reader, who goes round again. -/
def retriedRun : List VdsoOp :=
  [.read, .read] ++ .replicate 6 (.write fun _ => 1) ++ .replicate 12 .read

theorem snapshot_retried :
    let s := run vdsoNext (vdsoStart (fun _ => 5) fun _ => 0) retriedRun
    s.reader.pc = .returned ∧ s.reader.out ∈ s.updates := by
  refine ⟨rfl, snapshot_consistent _ _ retriedRun ?_ rfl⟩
  have heven : ∀ n s, n % 2 = 0 → n % 2 = 1 → ¬ n ≡ s [MOD 2 ^ 32] := by omega
  exact ⟨heven 2 0 rfl, trivial, trivial, trivial, trivial, trivial, trivial, trivial, trivial,
    trivial, trivial, (by decide : 4 < 2 + 2 ^ 32), trivial, heven 4 4 rfl, trivial, trivial,
    trivial, trivial, (by decide : 4 < 4 + 2 ^ 32), trivial, trivial⟩

/-- In the middle of an update from 0 to 1 the reader meets the number 3 twice. -/
def tornRun : List VdsoOp :=
  [.read, .read] ++ .replicate 3 (.write fun _ => 1) ++ .replicate 7 .read ++
    .replicate 3 (.write fun _ => 1)

/-- It returns the values of no update. -/
theorem snapshot_torn :
    let s := run vdsoNext (vdsoStart (fun _ => 0) fun _ => 0) tornRun
    s.reader.pc = .returned ∧ s.writer = none ∧ s.reader.out ∉ s.updates := by
  refine ⟨rfl, rfl, fun h => ?_⟩
  rcases List.mem_pair.1 h with h1 | h0
  · exact absurd (congrFun h1 .mult) (by decide)
  · exact absurd (congrFun h0 .shift) (by decide)

end CosmoRT.Sys
