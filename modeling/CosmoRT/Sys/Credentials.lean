import CosmoRT.Abi
import CosmoRT.Lib.Run
import Mathlib.Data.BitVec

/-!
# User ids and capabilities: `sys/sys_id.c`

The calls that change the four user ids of a process, with what they do to its capabilities.
Arguments are 64-bit registers; ids have 32 bits.

* `root_stays_dropped` — **root privilege that was dropped is never regained**, over every
  sequence of calls from a process that starts as root.
* `setuid_refused_keeps_capabilities` — a negative argument is refused, also of root, whose
  capabilities then stay.
-/

namespace CosmoRT.Sys

open Lib List

/-- The credentials of a process. -/
structure Cred where
  ruid : BitVec 32
  euid : BitVec 32
  suid : BitVec 32
  fsuid : BitVec 32
  capPermitted : BitVec 64
  capEffective : BitVec 64
  deriving DecidableEq, Repr

/-- One of the three ids that decide about capabilities is that of root. -/
def Cred.anyRoot (c : Cred) : Bool := c.ruid = 0 || c.euid = 0 || c.suid = 0

/-- `cap_emulate_setxuid`: the ids are set, `old` has those from before. -/
def capEmulateSetxuid (old c : Cred) : Cred :=
  let c := if old.anyRoot && !c.anyRoot then { c with capPermitted := 0, capEffective := 0 } else c
  let c := if old.euid ≠ 0 ∧ c.euid = 0 then { c with capEffective := 0 } else c
  if old.euid = 0 ∧ c.euid ≠ 0 then { c with capEffective := 0 } else c

/-- `do_setuid`. -/
def doSetuid (c : Cred) (uid : BitVec 64) : Except Errno Unit × Cred :=
  if uid.slt 0 then (.error .EINVAL, c)
  else
    let u := uid.setWidth 32
    if c.euid = 0 then
      (.ok (), capEmulateSetxuid c { c with ruid := u, euid := u, suid := u, fsuid := u })
    else if u = c.ruid ∨ u = c.suid then
      (.ok (), capEmulateSetxuid c { c with euid := u, fsuid := u })
    else (.error .EPERM, c)

/-- The id an argument asks for; `-1` leaves it as it is. -/
def newId (arg : BitVec 64) (old : BitVec 32) : BitVec 32 :=
  if arg = -1 then old else arg.setWidth 32

/-- An argument that is neither `-1` nor one of the ids that may be taken. -/
def refused (arg : BitVec 64) (new : BitVec 32) (allowed : List (BitVec 32)) : Bool :=
  arg ≠ -1 && new ∉ allowed

/-- `do_setreuid`. -/
def doSetreuid (c : Cred) (ruid euid : BitVec 64) : Except Errno Unit × Cred :=
  let newRuid := newId ruid c.ruid
  let newEuid := newId euid c.euid
  if c.euid ≠ 0 ∧ (refused ruid newRuid [c.ruid, c.euid] ∨
      refused euid newEuid [c.ruid, c.euid, c.suid]) then (.error .EPERM, c)
  else
    let setSaved := ruid ≠ -1 ∨ euid ≠ -1 ∧ newEuid ≠ c.ruid
    (.ok (), capEmulateSetxuid c { c with
      ruid := newRuid
      euid := newEuid
      fsuid := newEuid
      suid := if setSaved then newEuid else c.suid })

/-- `do_setresuid`. -/
def doSetresuid (c : Cred) (ruid euid suid : BitVec 64) : Except Errno Unit × Cred :=
  let newRuid := newId ruid c.ruid
  let newEuid := newId euid c.euid
  let newSuid := newId suid c.suid
  let allowed := [c.ruid, c.euid, c.suid]
  if c.euid ≠ 0 ∧ (refused ruid newRuid allowed ∨ refused euid newEuid allowed ∨
      refused suid newSuid allowed) then (.error .EPERM, c)
  else
    (.ok (), capEmulateSetxuid c { c with
      ruid := newRuid
      euid := newEuid
      suid := newSuid
      fsuid := newEuid })

/-- `do_setfsuid`: the previous id is returned in any case. -/
def doSetfsuid (c : Cred) (uid : BitVec 64) : BitVec 32 × Cred :=
  if uid.slt 0 then (c.fsuid, c)
  else
    let u := uid.setWidth 32
    if c.euid = 0 ∨ u = c.ruid ∨ u = c.euid ∨ u = c.suid ∨ u = c.fsuid then
      (c.fsuid, { c with fsuid := u })
    else (c.fsuid, c)

/-- The calls. -/
inductive UidCall where
  | setuid (uid : BitVec 64)
  | setreuid (ruid euid : BitVec 64)
  | setresuid (ruid euid suid : BitVec 64)
  | setfsuid (uid : BitVec 64)
  deriving DecidableEq, Repr

def uidNext (c : Cred) : UidCall → Cred
  | .setuid uid => (doSetuid c uid).2
  | .setreuid ruid euid => (doSetreuid c ruid euid).2
  | .setresuid ruid euid suid => (doSetresuid c ruid euid suid).2
  | .setfsuid uid => (doSetfsuid c uid).2

/-! ## What a call can do -/

/-- Capabilities are only taken away. -/
structure CapsWithin (c d : Cred) : Prop where
  permitted : d.capPermitted &&& c.capPermitted = d.capPermitted
  effective : d.capEffective &&& c.capEffective = d.capEffective

variable (c : Cred)

theorem CapsWithin.refl : CapsWithin c c := ⟨BitVec.and_self, BitVec.and_self⟩

theorem CapsWithin.trans {c d e : Cred} (h : CapsWithin c d) (h' : CapsWithin d e) :
    CapsWithin c e where
  permitted := by rw [← h'.permitted, BitVec.and_assoc, h.permitted]
  effective := by rw [← h'.effective, BitVec.and_assoc, h.effective]

theorem capEmulateSetxuid_within {old c : Cred} (h : CapsWithin old c) :
    CapsWithin old (capEmulateSetxuid old c) := by
  unfold capEmulateSetxuid
  obtain ⟨hp, he⟩ := h
  constructor
  · dsimp only
    split_ifs <;> first | exact hp | exact BitVec.zero_and
  · dsimp only
    split_ifs <;> first | exact he | exact BitVec.zero_and

theorem capEmulateSetxuid_ids (old c : Cred) :
    (capEmulateSetxuid old c).ruid = c.ruid ∧ (capEmulateSetxuid old c).euid = c.euid ∧
      (capEmulateSetxuid old c).suid = c.suid ∧ (capEmulateSetxuid old c).fsuid = c.fsuid := by
  unfold capEmulateSetxuid
  dsimp only
  split_ifs <;> exact ⟨rfl, rfl, rfl, rfl⟩

/-- One call: the ids stay, or only the one for files changes, or the one for files becomes the
effective one. -/
inductive IdStep (c d : Cred) : Prop where
  | same (h : d = c)
  | file (h : d = { c with fsuid := d.fsuid })
      (hfrom : c.euid = 0 ∨ d.fsuid ∈ [c.ruid, c.euid, c.suid, c.fsuid])
  | changed (hfs : d.fsuid = d.euid) (hcaps : CapsWithin c d)
      (hfrom : c.euid = 0 ∨ d.ruid ∈ [c.ruid, c.euid, c.suid] ∧ d.euid ∈ [c.ruid, c.euid, c.suid] ∧
        d.suid ∈ [c.ruid, c.euid, c.suid])

theorem IdStep.emulate {c d : Cred} (hfs : d.fsuid = d.euid)
    (hcaps : d.capPermitted = c.capPermitted ∧ d.capEffective = c.capEffective)
    (hfrom : c.euid = 0 ∨ d.ruid ∈ [c.ruid, c.euid, c.suid] ∧ d.euid ∈ [c.ruid, c.euid, c.suid] ∧
      d.suid ∈ [c.ruid, c.euid, c.suid]) : IdStep c (capEmulateSetxuid c d) := by
  obtain ⟨hr, he, hs, hf⟩ := capEmulateSetxuid_ids c d
  refine .changed ?_ (capEmulateSetxuid_within ?_) ?_
  · rw [hf, he, hfs]
  · constructor
    · rw [hcaps.1, BitVec.and_self]
    · rw [hcaps.2, BitVec.and_self]
  · rwa [hr, he, hs]

/-- An argument that is not refused asks for an id that may be taken. -/
theorem newId_mem {arg : BitVec 64} {old : BitVec 32} {allowed : List (BitVec 32)}
    (h : ¬refused arg (newId arg old) allowed = true) (hold : old ∈ allowed) :
    newId arg old ∈ allowed := by
  by_cases harg : arg = -1
  · rwa [newId, if_pos harg]
  · unfold refused at h
    simp only [Bool.and_eq_true, decide_eq_true_eq, not_and, not_not] at h
    exact h harg

theorem doSetuid_step (uid : BitVec 64) : IdStep c (doSetuid c uid).2 := by
  unfold doSetuid
  dsimp only
  split_ifs with hneg hroot hown
  · exact .same rfl
  · exact .emulate rfl ⟨rfl, rfl⟩ (.inl hroot)
  · refine .emulate rfl ⟨rfl, rfl⟩ (.inr ⟨by simp, ?_, by simp⟩)
    rcases hown with h | h <;> simp [h]
  · exact .same rfl

theorem doSetreuid_step (ruid euid : BitVec 64) : IdStep c (doSetreuid c ruid euid).2 := by
  unfold doSetreuid
  by_cases hno : c.euid ≠ 0 ∧ (refused ruid (newId ruid c.ruid) [c.ruid, c.euid] ∨
      refused euid (newId euid c.euid) [c.ruid, c.euid, c.suid])
  · rw [if_pos hno]
    exact .same rfl
  rw [if_neg hno]
  refine .emulate rfl ⟨rfl, rfl⟩ ?_
  by_cases hroot : c.euid = 0
  · exact .inl hroot
  have hok := not_and.1 hno hroot
  push Not at hok
  have hr : newId ruid c.ruid ∈ [c.ruid, c.euid] := newId_mem hok.1 (by simp)
  have he : newId euid c.euid ∈ [c.ruid, c.euid, c.suid] := newId_mem hok.2 (by simp)
  refine .inr ⟨?_, he, ?_⟩
  · exact subset_def.1 (by simp) hr
  · split_ifs
    · exact he
    · simp

theorem doSetresuid_step (ruid euid suid : BitVec 64) :
    IdStep c (doSetresuid c ruid euid suid).2 := by
  unfold doSetresuid
  dsimp only
  split_ifs with hno
  · exact .same rfl
  refine .emulate rfl ⟨rfl, rfl⟩ ?_
  by_cases hroot : c.euid = 0
  · exact .inl hroot
  have hok := not_and.1 hno hroot
  push Not at hok
  exact .inr ⟨newId_mem hok.1 (by simp), newId_mem hok.2.1 (by simp), newId_mem hok.2.2 (by simp)⟩

theorem doSetfsuid_step (uid : BitVec 64) : IdStep c (doSetfsuid c uid).2 := by
  unfold doSetfsuid
  dsimp only
  split_ifs with hneg hmay
  · exact .same rfl
  · refine .file rfl ?_
    rcases hmay with h | h | h | h | h
    · exact .inl h
    all_goals exact .inr (by simp [h])
  · exact .same rfl

theorem uidNext_step (call : UidCall) : IdStep c (uidNext c call) := by
  cases call with
  | setuid uid => exact doSetuid_step c uid
  | setreuid ruid euid => exact doSetreuid_step c ruid euid
  | setresuid ruid euid suid => exact doSetresuid_step c ruid euid suid
  | setfsuid uid => exact doSetfsuid_step c uid

/-! ## Over sequences of calls -/

/-- The id for files is that of root only while one of the other three is. -/
def Cred.FilesFollow (c : Cred) : Prop := c.fsuid = 0 → c.ruid = 0 ∨ c.euid = 0 ∨ c.suid = 0

theorem IdStep.filesFollow {c d : Cred} (h : IdStep c d) (hc : c.FilesFollow) : d.FilesFollow := by
  intro hzero
  cases h with
  | same h => rw [h] at hzero ⊢; exact hc hzero
  | changed hfs _ _ => exact .inr (.inl (hfs ▸ hzero))
  | file h hfrom =>
    rw [h]
    rcases hfrom with h0 | hmem
    · exact .inr (.inl h0)
    · rw [hzero] at hmem
      simp only [mem_cons, not_mem_nil, or_false] at hmem
      rcases hmem with h | h | h | h
      · exact .inl h.symm
      · exact .inr (.inl h.symm)
      · exact .inr (.inr h.symm)
      · exact hc h.symm

/-- No id is that of root. -/
structure Cred.Rootless (c : Cred) : Prop where
  ruid : c.ruid ≠ 0
  euid : c.euid ≠ 0
  suid : c.suid ≠ 0
  fsuid : c.fsuid ≠ 0

def Cred.ids (c : Cred) : List (BitVec 32) := [c.ruid, c.euid, c.suid, c.fsuid]

theorem Cred.Rootless.of_mem {c : Cred} (h : c.Rootless) {u : BitVec 32} (hu : u ∈ c.ids) :
    u ≠ 0 := by
  simp only [Cred.ids, mem_cons, not_mem_nil, or_false] at hu
  rcases hu with rfl | rfl | rfl | rfl
  · exact h.ruid
  · exact h.euid
  · exact h.suid
  · exact h.fsuid

/-- Nothing is gained: the ids are among those from before, the capabilities too. -/
structure Within (c d : Cred) : Prop where
  ids : d.ids ⊆ c.ids
  caps : CapsWithin c d

theorem Within.refl : Within c c := ⟨List.Subset.refl _, .refl c⟩

theorem Within.trans {c d e : Cred} (h : Within c d) (h' : Within d e) : Within c e :=
  ⟨List.Subset.trans h'.ids h.ids, h.caps.trans h'.caps⟩

theorem Within.rootless {c d : Cred} (h : Within c d) (hc : c.Rootless) : d.Rootless where
  ruid := hc.of_mem (h.ids (by simp [Cred.ids]))
  euid := hc.of_mem (h.ids (by simp [Cred.ids]))
  suid := hc.of_mem (h.ids (by simp [Cred.ids]))
  fsuid := hc.of_mem (h.ids (by simp [Cred.ids]))

theorem IdStep.within {c d : Cred} (h : IdStep c d) (hroot : c.euid ≠ 0) : Within c d := by
  have hsub : [c.ruid, c.euid, c.suid] ⊆ c.ids := by simp [Cred.ids]
  cases h with
  | same h => rw [h]; exact .refl c
  | file h hfrom =>
    have hmem := hfrom.resolve_left hroot
    rw [h]
    refine ⟨?_, BitVec.and_self, BitVec.and_self⟩
    simp [Cred.ids] at hmem ⊢
    exact hmem
  | changed hfs hcaps hfrom =>
    obtain ⟨hr, he, hs⟩ := hfrom.resolve_left hroot
    refine ⟨fun u hu => ?_, hcaps⟩
    simp only [Cred.ids, mem_cons, not_mem_nil, or_false] at hu
    rcases hu with rfl | rfl | rfl | rfl
    · exact hsub hr
    · exact hsub he
    · exact hsub hs
    · rw [hfs]
      exact hsub he

/-- Without an id of root nothing is gained by any sequence of calls. -/
theorem run_within {c : Cred} (hc : c.Rootless) (calls : List UidCall) :
    Within c (run uidNext c calls) :=
  run_keeps (fun d call (h : Within c d) =>
    h.trans ((uidNext_step d call).within (h.rootless hc).euid)) (Within.refl c) calls

/-- `setuid` by root to another id sets all ids and empties the capabilities. -/
theorem doSetuid_root {c : Cred} {uid : BitVec 64} (hroot : c.euid = 0)
    (hpos : uid.slt 0 = false) (hu : uid.setWidth 32 ≠ 0) :
    (doSetuid c uid).2 = ⟨uid.setWidth 32, uid.setWidth 32, uid.setWidth 32,
      uid.setWidth 32, 0, 0⟩ := by
  unfold doSetuid
  rw [hpos, if_neg Bool.false_ne_true]
  unfold capEmulateSetxuid
  have hhad : c.anyRoot = true := by simp [Cred.anyRoot, hroot]
  generalize uid.setWidth 32 = u at hu ⊢
  have hhas : Cred.anyRoot { c with ruid := u, euid := u, suid := u, fsuid := u } = false := by
    simpa [Cred.anyRoot] using hu
  simp [hhad, hhas, hroot]

/-- The credentials of a process that runs as root, with any capabilities. -/
def rootCred (permitted effective : BitVec 64) : Cred := ⟨0, 0, 0, 0, permitted, effective⟩

/-- What dropping root privilege means in a state: without an id of root among the first three
nothing is ever gained, and a successful `setuid` by root to another id leaves nothing. -/
structure DropsForGood (c : Cred) : Prop where
  kept : c.ruid ≠ 0 → c.euid ≠ 0 → c.suid ≠ 0 → ∀ calls,
    (run uidNext c calls).Rootless ∧ Within c (run uidNext c calls)
  setuid : ∀ uid : BitVec 64, c.euid = 0 → uid.slt 0 = false → uid.setWidth 32 ≠ 0 →
    (doSetuid c uid).2.capPermitted = 0 ∧ (doSetuid c uid).2.capEffective = 0 ∧
      ∀ calls, (run uidNext (doSetuid c uid).2 calls).Rootless

/-- **Root privilege that was dropped is never regained**, from every state that a process which
starts as root reaches by these calls. -/
theorem root_stays_dropped (permitted effective : BitVec 64) (calls : List UidCall) :
    DropsForGood (run uidNext (rootCred permitted effective) calls) := by
  have hfollow : (run uidNext (rootCred permitted effective) calls).FilesFollow :=
    run_keeps (fun c call hc => (uidNext_step c call).filesFollow hc) (fun _ => .inl rfl) calls
  refine ⟨fun hr he hs more => ?_, fun uid hroot hpos hu => ?_⟩
  · have hless : (run uidNext (rootCred permitted effective) calls).Rootless := by
      refine ⟨hr, he, hs, fun hzero => ?_⟩
      rcases hfollow hzero with h | h | h
      · exact hr h
      · exact he h
      · exact hs h
    exact ⟨(run_within hless more).rootless hless, run_within hless more⟩
  · rw [doSetuid_root hroot hpos hu]
    refine ⟨rfl, rfl, fun more => ?_⟩
    have hless : (⟨uid.setWidth 32, uid.setWidth 32, uid.setWidth 32, uid.setWidth 32, 0, 0⟩ :
        Cred).Rootless := ⟨hu, hu, hu, hu⟩
    exact (run_within hless more).rootless hless

/-- Root asks for the id `-1`, whose low half is not zero: the call is refused and all
capabilities stay. -/
theorem setuid_refused_keeps_capabilities :
    (-1 : BitVec 64).setWidth 32 ≠ 0 ∧ (rootCred (-1) (-1)).euid = 0 ∧
      (doSetuid (rootCred (-1) (-1)) (-1)).2.capPermitted ≠ 0 ∧
      (doSetuid (rootCred (-1) (-1)) (-1)).2.capEffective ≠ 0 := by
  decide

end CosmoRT.Sys
