import CosmoRT.Proc.SigRoundTrip

/-!
# Where the signal frame goes

The alternate stack of `sigaltstack`, and the areas of memory that `deliver_signal` writes.

* `signal_frame_placed_iff` — the areas lie apart, in one writable area, and below the red
  zone of the code that was interrupted.  **They lie in the alternate stack only if it has
  room for them:** nothing compares the frame with the size of the stack.
-/

namespace CosmoRT.Proc.SigFrame

open Lib.Bytes List

variable {n : ℕ} {env : FrameEnv n} {t t' : UserThread n} {m m' : Mem} {sa : SigAction}
  {signo : ℕ} {cause : Cause}

/-! ## The alternate stack -/

abbrev SS_ONSTACK : BitVec 32 := 1#32
abbrev SS_DISABLE : BitVec 32 := 2#32

/-- `struct k_stack_t`. -/
structure KStack where
  ssSp : BitVec 64
  ssFlags : BitVec 32
  ssSize : BitVec 64
  deriving DecidableEq

/-- The stack that `do_sigaltstack` reports. -/
def oldStack (t : UserThread n) : KStack where
  ssSp := t.sigaltSp
  ssFlags :=
    if t.sigaltSp ≠ 0#64 ∧ t.sigaltDisabled = false ∧ t.sigaltSp.toNat ≤ t.regs.rsp.toNat ∧
      t.regs.rsp.toNat < (t.sigaltSp + t.sigaltSize).toNat then SS_ONSTACK
    else if t.sigaltDisabled then SS_DISABLE else 0#32
  ssSize := t.sigaltSize

/-- `do_sigaltstack`: the result, the old stack if it was copied out, and the thread. -/
def doSigaltstack (t : UserThread n) (ss : UserPtr KStack) (oss : UserPtr Unit) :
    Except Errno Unit × Option KStack × UserThread n :=
  if oss = .fault then (.error .EFAULT, none, t)
  else
    let old := if oss = .null then none else some (oldStack t)
    match ss with
    | .null => (.ok (), old, t)
    | .fault => (.error .EFAULT, old, t)
    | .val kss =>
      if kss.ssFlags &&& ~~~SS_DISABLE ≠ 0#32 then (.error .EINVAL, old, t)
      else if kss.ssFlags &&& SS_DISABLE ≠ 0#32 then
        (.ok (), old, { t with sigaltSp := 0#64, sigaltSize := 0#64, sigaltDisabled := true })
      else if kss.ssSize.toNat < 2048 then (.error .ENOMEM, old, t)
      else
        (.ok (), old,
          { t with sigaltSp := kss.ssSp, sigaltSize := kss.ssSize, sigaltDisabled := false })

/-- `deliver_signal` chooses the alternate stack. -/
def OnAltStack (t : UserThread n) (sa : SigAction) : Prop :=
  saHas sa.flags SA_ONSTACK ∧ t.sigaltSp ≠ 0#64 ∧ t.sigaltDisabled = false ∧
    (t.regs.rsp.toNat < t.sigaltSp.toNat ∨ (t.sigaltSp + t.sigaltSize).toNat ≤ t.regs.rsp.toNat)

theorem stackRsp_of_alt (h : OnAltStack t sa) :
    stackRsp t sa = t.sigaltSp + t.sigaltSize := if_pos h

theorem stackRsp_of_not_alt (h : ¬OnAltStack t sa) : stackRsp t sa = t.regs.rsp := if_neg h

/-- The alternate stack has room for the frame: the part with the context, from the lowest
address on and up to the boundary where the image can begin, the image and the red zone. -/
def HasRoom (t : UserThread n) (sa : SigAction) : Prop :=
  (t.sigaltSp.toNat + 8 + (baseSize (hasRestorer sa) + 15) / 16 * 16 + 63) / 64 * 64 +
    fpstatePadded n + 128 ≤ (t.sigaltSp + t.sigaltSize).toNat

/-! ## The areas of the frame -/

/-- Where the frame begins: `new_rsp` for the stack that is chosen. -/
def frameLow (t : UserThread n) (sa : SigAction) : ℕ :=
  newRsp n (stackRsp t sa).toNat (hasRestorer sa)

/-- The areas `deliver_signal` writes, each with its length: return address, `siginfo`,
`ucontext`, FPU image and, without a restorer, the trampoline. -/
def frameAreas (t : UserThread n) (sa : SigAction) : List (ℕ × ℕ) :=
  [(frameLow t sa, 8), (frameLow t sa + 8, 128), (frameLow t sa + 136, 936),
    (fpstateAddr n (stackRsp t sa).toNat, n)] ++
    if hasRestorer sa then [] else [(frameLow t sa + 1072, 9)]

/-- The handler is entered with a frame that is where it should be. -/
structure FramePlaced (env : FrameEnv n) (t : UserThread n) (m : Mem) (sa : SigAction)
    (t' : UserThread n) (m' : Mem) : Prop where
  /-- Nothing else is written. -/
  written : ∀ x, (∀ a ∈ frameAreas t sa, x < a.1 ∨ a.1 + a.2 ≤ x) → m' x = m x
  apart : (frameAreas t sa).Pairwise fun a b => a.1 + a.2 ≤ b.1 ∨ b.1 + b.2 ≤ a.1
  mapped : ∃ lo hi, env.fits lo hi = true ∧ ∀ a ∈ frameAreas t sa, lo ≤ a.1 ∧ a.1 + a.2 ≤ hi
  below : ¬OnAltStack t sa → ∀ a ∈ frameAreas t sa, a.1 + a.2 + 128 ≤ t.regs.rsp.toNat
  inside : OnAltStack t sa → ∀ a ∈ frameAreas t sa, t.sigaltSp.toNat ≤ a.1 ∧
    a.1 + a.2 ≤ t.sigaltSp.toNat + t.sigaltSize.toNat
  entered : t'.regs.rsp.toNat = frameLow t sa
  aligned : t'.regs.rsp.toNat % 16 = 8

theorem length_siginfoBytes (signo : ℕ) (cause : Cause) :
    (siginfoBytes signo cause).length = 128 := by
  cases cause <;> simp [siginfoBytes, Cause.payload]

theorem writeFrame_of_outside (hn : 512 ≤ n) {x : ℕ}
    (h : ∀ a ∈ frameAreas t sa, x < a.1 ∨ a.1 + a.2 ≤ x) :
    writeFrame t m sa signo cause (fpstateAddr n (stackRsp t sa).toNat)
      (frameLow t sa) x = m x := by
  have hrest : ∀ m0 : Mem, (if hasRestorer sa then m0
      else write m0 (frameLow t sa + 1072) sigTrampoline) x = m0 x := by
    intro m0
    split
    · rfl
    · next hr => exact write_of_outside rfl (h (frameLow t sa + 1072, 9) (by simp [frameAreas, hr]))
  rw [writeFrame, hrest, write_of_outside t.xsaveArea.property
      (h (fpstateAddr n (stackRsp t sa).toNat, n) (by simp [frameAreas])),
    write_of_outside (k := 936) (by simp [ucontextWords, t.xsaveArea.property, hn])
      (h (frameLow t sa + 136, 936) (by simp [frameAreas])),
    write_of_outside (length_siginfoBytes signo cause)
      (h (frameLow t sa + 8, 128) (by simp [frameAreas])),
    write_of_outside (length_toBytes 8 _) (h (frameLow t sa, 8) (by simp [frameAreas]))]

section Layout

variable (hroom : frameLow t sa + 8 + baseSize (hasRestorer sa) ≤
    fpstateAddr n (stackRsp t sa).toNat)
include hroom

theorem frameAreas_between {a : ℕ × ℕ} (ha : a ∈ frameAreas t sa) :
    frameLow t sa ≤ a.1 ∧ a.1 + a.2 ≤ frameTop t sa := by
  cases hr : hasRestorer sa <;>
    simp only [frameAreas, hr, frameTop, baseSize, if_true, Bool.false_eq_true,
      if_false, append_nil, cons_append, nil_append, mem_cons, not_mem_nil, or_false] at ha hroom ⊢
  · rcases ha with rfl | rfl | rfl | rfl | rfl <;> omega
  · rcases ha with rfl | rfl | rfl | rfl <;> omega

theorem frameAreas_apart :
    (frameAreas t sa).Pairwise fun a b => a.1 + a.2 ≤ b.1 ∨ b.1 + b.2 ≤ a.1 := by
  cases hr : hasRestorer sa <;>
    simp [frameAreas, hr, baseSize] at hroom ⊢ <;> omega

end Layout

/-- The new stack pointer is not below the alternate stack if there is room above it. -/
theorem low_of_room_iff (hon : OnAltStack t sa) (hlow : frameLow t sa < userTop)
    (hroom : 128 + fpstatePadded n + baseSize (hasRestorer sa) + 64 ≤ (stackRsp t sa).toNat) :
    t.sigaltSp.toNat ≤ frameLow t sa ↔ HasRoom t sa := by
  rw [frameLow, stackRsp_of_alt hon] at hlow ⊢
  simp only [HasRoom, newRsp, fpstateAddr, userTop] at hlow hroom ⊢
  omega

/-- A frame goes where it should exactly if the alternate stack, when it is chosen, has room
for it. -/
theorem signal_frame_placed_iff (env : FrameEnv n) (t t' : UserThread n) (m m' : Mem)
    (sa : SigAction) (signo : ℕ) (cause : Cause)
    (h : deliverSignal env t m sa signo cause = some (t', m')) :
    FramePlaced env t m sa t' m' ↔ (OnAltStack t sa → HasRoom t sa) := by
  obtain ⟨hroom, hfits, hthread, hmem⟩ := deliverSignal_some h
  rw [← frameLow] at hfits hthread hmem
  have hlt := (env.user _ _ hfits).1
  constructor
  · intro hp hon
    have hlow := (hp.inside hon (frameLow t sa, 8) (by simp [frameAreas])).1
    exact (low_of_room_iff hon hlt hroom).mp hlow
  · intro hstack
    obtain ⟨lo, fp, hf⟩ := frame_geometry h
    have hrsp : t'.regs.rsp.toNat = frameLow t sa := by
      rw [hthread, enterHandler, BitVec.toNat_ofNat, Nat.mod_eq_of_lt]
      exact hlt.trans (by decide)
    have hapart := hf.apart
    rw [hf.image, ← hf.low, hrsp] at hapart
    -- the image ends below the red zone
    have htop : frameTop t sa + 128 ≤ (stackRsp t sa).toNat := by
      simp only [frameTop, fpstateAddr, fpstatePadded] at hroom ⊢
      omega
    refine ⟨fun x hx => ?_, frameAreas_apart hapart,
      ⟨_, _, hfits, fun a => frameAreas_between hapart⟩,
      fun hon a ha => ?_, fun hon a ha => ?_, hrsp, ?_⟩
    · rw [hmem]
      exact writeFrame_of_outside env.size hx
    · have hbetween := frameAreas_between hapart ha
      rw [stackRsp_of_not_alt hon] at htop
      omega
    · have hbetween := frameAreas_between hapart ha
      have hsum : (t.sigaltSp + t.sigaltSize).toNat ≤ t.sigaltSp.toNat + t.sigaltSize.toNat := by
        exact Nat.mod_le _ _
      have hlow := (low_of_room_iff hon hlt hroom).mpr (hstack hon)
      rw [stackRsp_of_alt hon] at htop
      exact ⟨hlow.trans hbetween.1, by omega⟩
    · rw [hrsp, frameLow, newRsp]
      omega

/-- A signal on the normal stack. -/
theorem signal_frame_placed_iff_work :
    FramePlaced workStack (workThread 7 8) (fun _ => 0#8) workAction (workInside 7 8)
      (workMem 7 8) := by
  refine (signal_frame_placed_iff _ _ _ _ _ _ _ _ (workThread_built 7 8)).mpr fun hon => ?_
  exact absurd hon.2.2.1 (by decide)

/-- A thread whose FPU image has the AVX-512 registers. -/
def wideThread : UserThread 2688 :=
  { workThread 0 0 with
    xsaveArea := ⟨replicate 2688 0#8, by rw [length_replicate]⟩ }

def wideStack : FrameEnv 2688 := { workStack with size := by decide }

/-- A handler on the alternate stack. -/
def altAction : SigAction := { workAction with flags := SA_RESTORER ||| SA_ONSTACK }

/-- An alternate stack of 2048 bytes is accepted, and the frame goes to the memory below it. -/
theorem signal_frame_leaves_stack :
    ∃ t r, doSigaltstack wideThread (.val ⟨0x70004000, 0, 2048⟩) .null = (.ok (), none, t) ∧
      deliverSignal wideStack t (fun _ => 0#8) altAction 10 .user = some r ∧
        OnAltStack t altAction ∧
      frameLow t altAction < t.sigaltSp.toNat ∧
      ¬FramePlaced wideStack t (fun _ => 0#8) altAction r.1 r.2 := by
  refine ⟨_, _, rfl, Option.eq_some_of_isSome (by decide +kernel),
    by unfold OnAltStack; decide +kernel, by decide +kernel, fun hp => ?_⟩
  have hinside := (hp.inside (by unfold OnAltStack; decide +kernel) (_, 8) (mem_cons_self ..)).1
  exact absurd hinside (by decide +kernel)

end CosmoRT.Proc.SigFrame
