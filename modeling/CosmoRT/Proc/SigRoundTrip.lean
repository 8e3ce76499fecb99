import CosmoRT.Proc.SigFrame

/-!
# A handler and back

What a thread gets back of its state after a signal handler that leaves its frame alone.

* `frame_words`, `frame_fpstate` — **what `deliver_signal` stored is what
  `do_rt_sigreturn` reads**, whatever the handler did elsewhere.
* `signal_transparent_iff` — the round trip is the identity exactly on states that meet
  `Restored`: the return goes through `sysret`, which loses `rcx` and `r11`, and through
  the restart arbitration, which takes some values of `rax` for requests.
-/

namespace CosmoRT.Proc.SigFrame

open Lib.Bytes List

variable {n : ℕ} {env : FrameEnv n} {t t' th : UserThread n} {m m' mh : Mem} {sa : SigAction}
  {signo : ℕ} {cause : Cause}

/-! ## The frame -/

/-- Where the frame is: the FPU image at `fp` and the rest at `lo`. -/
structure FrameAt (t : UserThread n) (m : Mem) (sa : SigAction) (signo : ℕ)
    (cause : Cause) (lo fp : ℕ) (t' : UserThread n) (m' : Mem) : Prop where
  thread : t' = enterHandler t sa signo lo
  mem : m' = writeFrame t m sa signo cause fp lo
  image : fp = fpstateAddr n (stackRsp t sa).toNat
  apart : lo + 8 + baseSize (hasRestorer sa) ≤ fp
  top : fp + n ≤ userTop

section

variable (h : deliverSignal env t m sa signo cause = some (t', m'))
include h

/-- What `deliver_signal` has checked and done when it enters a handler. -/
theorem deliverSignal_some :
    128 + fpstatePadded n + baseSize (hasRestorer sa) + 64 ≤ (stackRsp t sa).toNat ∧
      env.fits (newRsp n (stackRsp t sa).toNat (hasRestorer sa))
        (fpstateAddr n (stackRsp t sa).toNat + n) = true ∧
      t' = enterHandler t sa signo (newRsp n (stackRsp t sa).toNat (hasRestorer sa)) ∧
      m' = writeFrame t m sa signo cause (fpstateAddr n (stackRsp t sa).toNat)
        (newRsp n (stackRsp t sa).toNat (hasRestorer sa)) := by
  unfold deliverSignal at h
  split at h
  · cases h
  dsimp only at h
  split at h
  · cases h
  · next hroom =>
    split at h
    case isFalse => cases h
    case isTrue hfits =>
      obtain ⟨rfl, rfl⟩ := Prod.mk.inj (Option.some.inj h)
      exact ⟨by omega, hfits, rfl, rfl⟩

/-- With a frame `Proc.deliverSignal` gives the thread the same mask. -/
theorem deliverSignal_kernel {k : Kernel} {pid tid : ℕ} {p : Process} {u : Thread}
    (hp : k.procs pid = some p) (hsa : p.sigActions signo = sa) (hu : k.threads tid = some u)
    (hmask : u.sigBlocked = t.sigBlocked) :
    ((Proc.deliverSignal k pid tid signo true).threads tid).map (·.sigBlocked) =
      some t'.sigBlocked := by
  have hin : ¬(sa.handler ≤ 1 ∨ userTop ≤ sa.handler) := fun hno => by
    rw [deliverSignal, if_pos hno] at h
    cases h
  obtain ⟨hlow, htop⟩ := not_or.1 hin
  obtain ⟨-, -, rfl, -⟩ := deliverSignal_some h
  subst hsa
  simp only [Proc.deliverSignal, hp, hlow, htop, if_false, enterHandler]
  split_ifs <;> simp_all

theorem frame_geometry : ∃ lo fp, FrameAt t m sa signo cause lo fp t' m' := by
  obtain ⟨hroom, hfits, rfl, rfl⟩ := deliverSignal_some h
  obtain ⟨hlo, htop⟩ := env.user _ _ hfits
  refine ⟨_, _, rfl, rfl, rfl, ?_, htop⟩
  -- a frame at the very bottom would wrap around and is refused
  simp only [newRsp, fpstateAddr, fpstatePadded, userTop] at hlo htop hroom ⊢
  omega

end

theorem FrameAt.low {lo fp : ℕ} (h : FrameAt t m sa signo cause lo fp t' m') :
    t'.regs.rsp.toNat = lo := by
  have hapart := h.apart
  have htop := h.top
  rw [h.thread, enterHandler, BitVec.toNat_ofNat]
  simp only [userTop] at htop
  omega

theorem baseSize_ge (restorer : Bool) : 1072 ≤ baseSize restorer := by
  cases restorer <;> decide

section Frame

variable {lo fp : ℕ}

theorem frame_words (h : FrameAt t m sa signo cause lo fp t' m') {i : ℕ} (hi : i < 53) :
    readWord m' (lo + 136 + 8 * i) = (ucontextWords t (BitVec.ofNat 64 fp)).getD i 0#64 := by
  have hapart := h.apart
  have hbase := baseSize_ge (hasRestorer sa)
  rw [h.mem, writeFrame]
  have hrest : ∀ m0 : Mem,
      readWord (if hasRestorer sa then m0 else write m0 (lo + 1072) sigTrampoline)
      (lo + 136 + 8 * i) = readWord m0 (lo + 136 + 8 * i) := by
    intro m0
    split
    · rfl
    · exact congrArg (ofBytes 64) (read_write_of_disjoint (by omega))
  have hfpu : ∀ m0 : Mem, readWord (write m0 fp t.xsaveArea.val) (lo + 136 + 8 * i) =
      readWord m0 (lo + 136 + 8 * i) := fun m0 =>
    congrArg (ofBytes 64) (read_write_of_disjoint (by omega))
  rw [hrest, hfpu]
  exact readWord_write_words _ _ hi _

theorem frame_fpstate (h : FrameAt t m sa signo cause lo fp t' m') :
    read m' fp n = t.xsaveArea.val := by
  have hapart := h.apart
  rw [h.mem, writeFrame]
  have hrest : ∀ m0 : Mem, read (if hasRestorer sa then m0 else write m0 (lo + 1072) sigTrampoline)
      fp n = read m0 fp n := by
    intro m0
    cases hr : hasRestorer sa with
    | true => rfl
    | false =>
      rw [hr] at hapart
      refine read_write_of_disjoint (.inr ?_)
      simp only [baseSize, Bool.false_eq_true, if_false, sigTrampoline, length_cons,
        length_nil] at hapart ⊢
      omega
  rw [hrest]
  exact read_write _ _ t.xsaveArea.property

end Frame

/-! ## The handler -/

/-- The handler is done and calls `rt_sigreturn`: its stack pointer is back above the
return address, and the frame is as it was. -/
structure HandlerDone (t' : UserThread n) (m' : Mem) (lo hi : ℕ) (th : UserThread n) (mh : Mem) :
    Prop where
  rsp : th.regs.rsp = t'.regs.rsp + 8#64
  frame : ∀ x, lo ≤ x → x < hi → mh x = m' x

/-! ## The return -/

/-- The thread after the return, if it is one to user space. -/
def restoredThread (env : FrameEnv n) (t th : UserThread n) : UserThread n :=
  { th with
    xsaveArea := ⟨sanitize t.xsaveArea.val, by
      have hn := env.size
      have hl := t.xsaveArea.property
      rw [length_sanitize (by omega), hl]⟩
    fsBase := restoreBase t.fsBase th.fsBase
    gsBase := restoreBase t.gsBase th.gsBase
    sigBlocked := t.sigBlocked &&& maskable }

/-- Its registers. -/
def restoredRegs (r : Regs) : Regs :=
  { r with rcx := r.rip, r11 := safeFlags r.rflags, rflags := safeFlags r.rflags }

theorem firstHandler_zero (actions : ℕ → SigAction) : firstHandler 0#64 actions = none := by
  simp [firstHandler]

variable {result flags : BitVec 64}

theorem syscallPath_of_not_restart (t : UserThread n) (f : SyscallFrame)
    (actions : ℕ → SigAction) (h : hasRestart result = false) :
    checkSignalsSyscallPath t f result SYS_RT_SIGRETURN 0#64 actions id = (result, t, f) := by
  rw [checkSignalsSyscallPath, if_pos ⟨rfl, h⟩]

theorem syscallPath_of_restart (t : UserThread n) (f : SyscallFrame)
    (actions : ℕ → SigAction) (h : hasRestart result = true) :
    (checkSignalsSyscallPath t f result SYS_RT_SIGRETURN 0#64 actions id).2.2.rcx =
      f.rcx - 2#64 := by
  have hnr : (if result = -516#64 then SYS_RESTART_SYSCALL else SYS_RT_SIGRETURN) ≠ 0#64 := by
    split <;> decide
  simp only [checkSignalsSyscallPath, h, Bool.true_eq_false, and_false, if_false,
    if_true, arbitrate,
    applyRestart, firstHandler_zero, hnr, ne_eq, not_false_eq_true]
  rfl

theorem returnFromHandler_of {actions : ℕ → SigAction} {r : BitVec 64} {t1 : UserThread n}
    {f1 : SyscallFrame} (h : doRtSigreturn env th (syscallEntry th.regs) mh = (r, t1, f1)) :
    returnFromHandler env th mh actions =
      ((checkSignalsSyscallPath t1 f1 r SYS_RT_SIGRETURN 0#64 actions id).2.1,
        sysret (checkSignalsSyscallPath t1 f1 r SYS_RT_SIGRETURN 0#64 actions id).2.2
          (checkSignalsSyscallPath t1 f1 r SYS_RT_SIGRETURN 0#64 actions id).1) := by
  rw [returnFromHandler, h]

section Return

variable {lo fp : ℕ} (h : FrameAt t m sa signo cause lo fp t' m')
  (hd : HandlerDone t' m' lo (fp + n) th mh)

include h hd

theorem handlerDone_words {i : ℕ} (hi : i < 53) :
    readWord mh (lo + 136 + 8 * i) = (ucontextWords t (BitVec.ofNat 64 fp)).getD i 0#64 := by
  have hapart := h.apart
  have hbase := baseSize_ge (hasRestorer sa)
  rw [← frame_words h hi]
  exact readWord_congr fun x h1 h2 => hd.frame x (by omega) (by omega)

theorem handlerDone_fpstate : read mh fp n = t.xsaveArea.val := by
  have hapart := h.apart
  rw [← frame_fpstate h]
  exact read_congr fun x h1 h2 => hd.frame x (by omega) h2

theorem handlerDone_ucAddr :
    ((syscallEntry th.regs).userRsp - 8#64 + 136#64).toNat = lo + 136 ∧
      (syscallEntry th.regs).userRsp.toNat = lo + 8 := by
  have hapart := h.apart
  have htop := h.top
  have hrsp : (syscallEntry th.regs).userRsp = BitVec.ofNat 64 lo + 8#64 := by
    rw [syscallEntry, hd.rsp, h.thread]
    rfl
  simp only [userTop] at htop
  constructor
  · rw [hrsp, BitVec.add_sub_cancel, BitVec.toNat_add, BitVec.toNat_ofNat, BitVec.toNat_ofNat]
    omega
  · rw [hrsp, BitVec.toNat_add, BitVec.toNat_ofNat, BitVec.toNat_ofNat]
    omega

/-- The system-call frame with the registers that were saved. -/
def restoredFrame (f : SyscallFrame) (r : Regs) : SyscallFrame :=
  { f with
    r8 := r.r8, r9 := r.r9, r10 := r.r10, r12 := r.r12, r13 := r.r13, r14 := r.r14, r15 := r.r15
    rdi := r.rdi, rsi := r.rsi, rbp := r.rbp, rbx := r.rbx, rdx := r.rdx, rax := r.rax }

variable (hrip : t.regs.rip.toNat < userTop)

include hrip

theorem doRtSigreturn_eq (env : FrameEnv n) :
    doRtSigreturn env th (syscallEntry th.regs) mh =
      if userTop ≤ t.regs.rsp.toNat then
        (negEFAULT,
          { th with xsaveArea := (restoredThread env t th).xsaveArea },
          restoredFrame (syscallEntry th.regs) t.regs)
      else
        (t.regs.rax, restoredThread env t th,
          { restoredFrame (syscallEntry th.regs) t.regs with
            r11 := safeFlags t.regs.rflags, rcx := t.regs.rip, userRsp := t.regs.rsp }) := by
  have hapart := h.apart
  have htop := h.top
  have hbase := baseSize_ge (hasRestorer sa)
  obtain ⟨huc, -⟩ := handlerDone_ucAddr h hd
  have hw : ∀ i < 53, readWord mh (lo + 136 + 8 * i) =
      (ucontextWords t (BitVec.ofNat 64 fp)).getD i 0#64 := fun i hi => handlerDone_words h hd hi
  have hfp : (BitVec.ofNat 64 fp).toNat = fp := by
    rw [BitVec.toNat_ofNat]
    simp only [userTop] at htop
    omega
  have hsize := env.size
  have hok : ∀ a m, a < userTop → a + m ≤ userTop → userOk a m = true := fun a m h0 h1 => by
    simp [userOk, h0, h1]
  have hok1 := hok (lo + 136) 936 (by omega) (by omega)
  have hok2 := hok fp n (by omega) htop
  have hrip' : ¬userTop ≤ t.regs.rip.toNat := by omega
  simp (disch := decide) only [doRtSigreturn, restoreGregs, restoredFrame, restoredThread,
    huc, hok1, hw,
    ucontextWords, getD_cons_succ, getD_cons_zero, hfp, hok2, handlerDone_fpstate h hd,
    Bool.true_eq_false, if_false, hrip', false_or]

/-- After a frame with a stack pointer outside user space the thread keeps that of the
handler. -/
theorem returnFromHandler_refused (env : FrameEnv n) (hrsp : userTop ≤ t.regs.rsp.toNat)
    (actions : ℕ → SigAction) :
    (returnFromHandler env th mh actions).2.rsp = (syscallEntry th.regs).userRsp := by
  have hret := doRtSigreturn_eq h hd hrip env
  rw [if_pos hrsp] at hret
  rw [returnFromHandler_of hret]
  rfl

/-- A saved `rax` that looks like a restart code moves the instruction pointer. -/
theorem returnFromHandler_restart (env : FrameEnv n) (hrsp : t.regs.rsp.toNat < userTop)
    (hra : hasRestart t.regs.rax = true) (actions : ℕ → SigAction) :
    (returnFromHandler env th mh actions).2.rip = t.regs.rip - 2#64 := by
  have hret := doRtSigreturn_eq h hd hrip env
  rw [if_neg (Nat.not_le_of_lt hrsp)] at hret
  rw [returnFromHandler_of hret]
  exact syscallPath_of_restart _ _ actions hra

/-- Otherwise the state before comes back as far as `sysret` and the checks allow. -/
theorem returnFromHandler_eq (env : FrameEnv n) (hrsp : t.regs.rsp.toNat < userTop)
    (hra : hasRestart t.regs.rax = false) (actions : ℕ → SigAction) :
    returnFromHandler env th mh actions = (restoredThread env t th, restoredRegs t.regs) := by
  have hret := doRtSigreturn_eq h hd hrip env
  rw [if_neg (Nat.not_le_of_lt hrsp)] at hret
  rw [returnFromHandler_of hret, syscallPath_of_not_restart _ _ actions hra]
  rfl

end Return

/-! ## Flags and the FPU -/

/-- Flags as user mode has them: the low 16 bits, no `IOPL`, interrupts on. -/
structure UserFlags (flags : BitVec 64) : Prop where
  low : flags &&& 0xFFFF#64 = flags
  iopl : flags &&& 3#64 <<< 12 = 0#64
  interrupts : flags.getLsbD 9 = true

theorem or_twoPow_eq_iff {w : ℕ} (v : BitVec w) {i : ℕ} (hi : i < w) :
    v ||| 1#w <<< i = v ↔ v.getLsbD i = true := by
  rw [← BitVec.twoPow_eq]
  constructor
  · intro h
    rw [← h, BitVec.getLsbD_or]
    simp [hi]
  · intro h
    refine BitVec.eq_of_getLsbD_eq fun j hj => ?_
    by_cases hij : i = j
    · subst hij
      simp [h, -BitVec.getLsbD_eq_getElem]
    · simp [hij, -BitVec.getLsbD_eq_getElem]

theorem safeFlags_eq (h : UserFlags flags) : safeFlags flags = flags ||| 1#64 <<< 1 := by
  rw [safeFlags, h.low, and_not_of_and_eq_zero h.iopl,
    (or_twoPow_eq_iff flags (by decide)).mpr h.interrupts]

theorem safeFlags_eq_self_iff (h : UserFlags flags) :
    safeFlags flags = flags ↔ flags.getLsbD 1 = true := by
  rw [safeFlags_eq h, or_twoPow_eq_iff flags (by decide)]

/-- The image survives if `MXCSR` has no reserved bit. -/
theorem sanitize_eq_self_iff {l : List Byte} (h : 28 ≤ l.length) :
    sanitize l = l ↔ mxcsr l &&& mxcsrMask l = mxcsr l := by
  set field := (l.drop 24).take 4 with hfield
  have hlen : field.length = 4 := by
    rw [length_take, length_drop]
    omega
  have hsplit : l = l.take 24 ++ field ++ l.drop 28 := by
    conv_lhs => rw [← take_append_drop 24 l, ← take_append_drop 4 (l.drop 24)]
    rw [drop_drop, append_assoc]
  have hself : toBytes 4 (mxcsr l) = field := by
    have hback := toBytes_ofBytes (w := 32) (l := field) (by rw [hlen])
    rw [hlen] at hback
    exact hback
  constructor
  · intro hs
    have hmid : toBytes 4 (mxcsr l &&& mxcsrMask l) = field := by
      conv_rhs at hs => rw [hsplit]
      have hleft := append_inj_left' hs rfl
      exact append_inj_right hleft rfl
    have hval := congrArg (ofBytes 32) (hmid.trans hself.symm)
    rwa [ofBytes_toBytes _ (by decide), ofBytes_toBytes _ (by decide)] at hval
  · intro hm
    rw [sanitize, hm, hself]
    exact hsplit.symm

/-! ## The round trip -/

/-- Where the signal meets the thread. -/
inductive Interruption where
  /-- At the return of a system call. -/
  | syscall
  /-- At any instruction, by the timer. -/
  | preempt
  deriving DecidableEq, Repr

/-- What the user would see without the signal: `sysret` has put `rip` and the flags into
`rcx` and `r11`, which `thread_t` does not follow. -/
def interrupted (kind : Interruption) (r : Regs) : Regs :=
  match kind with
  | .syscall => { r with rcx := r.rip, r11 := r.rflags }
  | .preempt => r

/-- The states that survive a handler.  `fs` is the base the handler leaves behind. -/
structure Restored (kind : Interruption) (t : UserThread n) (fs : BitVec 64) : Prop where
  rsp : t.regs.rsp.toNat < userTop
  rax : hasRestart t.regs.rax = false
  reserved : t.regs.rflags.getLsbD 1 = true
  sysret : kind = .preempt → t.regs.rcx = t.regs.rip ∧ t.regs.r11 = t.regs.rflags
  mask : t.sigBlocked &&& maskable = t.sigBlocked
  fpu : mxcsr t.xsaveArea.val &&& mxcsrMask t.xsaveArea.val = mxcsr t.xsaveArea.val
  base : t.fsBase.toNat < userTop ∨ fs = t.fsBase

theorem restoreBase_eq_iff {saved current : BitVec 64} (h : saved ≠ 0#64) :
    restoreBase saved current = saved ↔ saved.toNat < userTop ∨ current = saved := by
  unfold restoreBase
  by_cases hs : saved.toNat < userTop
  · simp [h, hs, Nat.not_le_of_lt hs]
  · simp [hs, Nat.le_of_not_lt hs]

/-- The registers that come back are the interrupted ones if `sysret` could restore them. -/
theorem restoredRegs_eq_iff {kind : Interruption} {r : Regs} (h : UserFlags r.rflags) :
    restoredRegs r = interrupted kind r ↔
      r.rflags.getLsbD 1 = true ∧ (kind = .preempt → r.rcx = r.rip ∧ r.r11 = r.rflags) := by
  rw [← safeFlags_eq_self_iff h]
  cases kind with
  | syscall =>
    simp only [restoredRegs, interrupted, Regs.ext_iff, true_and, and_self]
    simp
  | preempt =>
    simp only [restoredRegs, interrupted, Regs.ext_iff, true_and]
    constructor
    · rintro ⟨hcx, h11, hf⟩
      exact ⟨hf, fun _ => ⟨hcx.symm, h11.symm.trans hf⟩⟩
    · rintro ⟨hf, hregs⟩
      obtain ⟨hcx, h11⟩ := hregs trivial
      exact ⟨hcx.symm, hf.trans h11.symm, hf⟩

/-- The end of the frame. -/
def frameTop (t : UserThread n) (sa : SigAction) : ℕ := fpstateAddr n (stackRsp t sa).toNat + n

/-- **Signal delivery and return.**  If a frame was built for a handler that leaves it and
its stack pointer alone, the thread goes on with the registers, the `FS` base, the FPU
image and the mask it was interrupted with exactly if they meet `Restored`. -/
theorem signal_transparent_iff (env : FrameEnv n) (t t' th : UserThread n) (m m' mh : Mem)
    (sa : SigAction) (signo : ℕ) (cause : Cause) (kind : Interruption) (actions : ℕ → SigAction)
    (hbuilt : deliverSignal env t m sa signo cause = some (t', m'))
    (hrip : t.regs.rip.toNat < userTop) (hflags : UserFlags t.regs.rflags) (hfs : t.fsBase ≠ 0#64)
    (hdone : HandlerDone t' m' t'.regs.rsp.toNat (frameTop t sa) th mh) :
    ((returnFromHandler env th mh actions).2 = interrupted kind t.regs ∧
      (returnFromHandler env th mh actions).1.fsBase = t.fsBase ∧
      (returnFromHandler env th mh actions).1.xsaveArea = t.xsaveArea ∧
      (returnFromHandler env th mh actions).1.sigBlocked = t.sigBlocked) ↔
    Restored kind t th.fsBase := by
  obtain ⟨lo, fp, h⟩ := frame_geometry hbuilt
  rw [h.low, frameTop, ← h.image] at hdone
  have hkept : (interrupted kind t.regs).rsp = t.regs.rsp ∧
      (interrupted kind t.regs).rip = t.regs.rip := by
    cases kind <;> exact ⟨rfl, rfl⟩
  by_cases hrsp : t.regs.rsp.toNat < userTop
  swap
  · -- the frame is refused, and the thread keeps the stack pointer of the handler
    have hback := returnFromHandler_refused h hdone hrip env (Nat.le_of_not_lt hrsp) actions
    refine iff_of_false ?_ fun hr => hrsp hr.rsp
    rintro ⟨hregs, -⟩
    rw [hregs, hkept.1] at hback
    rw [hback, (handlerDone_ucAddr h hdone).2] at hrsp
    have hapart := h.apart
    have htop := h.top
    have hbase := baseSize_ge (hasRestorer sa)
    omega
  cases hra : hasRestart t.regs.rax with
  | true =>
    have hrewound := returnFromHandler_restart h hdone hrip env hrsp hra actions
    refine iff_of_false ?_ fun hr => absurd hr.rax (by rw [hra]; decide)
    rintro ⟨hregs, -⟩
    rw [hregs] at hrewound
    bv_omega
  | false =>
    have hsize : 28 ≤ t.xsaveArea.val.length := by
      have hn := env.size
      rw [t.xsaveArea.property]
      omega
    rw [returnFromHandler_eq h hdone hrip env hrsp hra actions]
    simp only [restoredRegs_eq_iff hflags, restoredThread, restoreBase_eq_iff hfs, Subtype.ext_iff,
      sanitize_eq_self_iff hsize]
    constructor
    · rintro ⟨⟨hres, hsys⟩, hb, hf, hm⟩
      exact ⟨hrsp, hra, hres, hsys, hm, hf, hb⟩
    · intro hr
      exact ⟨⟨hr.reserved, hr.sysret⟩, hr.base, hr.fpu, hr.mask⟩

section

variable (rax rcx : BitVec 64)

/-- A thread at work, with two of its registers given. -/
def workThread : UserThread 512 where
  regs := ⟨rax, 1, rcx, 2, 3, 4, 5, 0x70008000, 6, 7, 8, 0x202, 9, 10, 11, 12, 0x400000, 0x202⟩
  fsBase := 0x60000000
  gsBase := 0
  xsaveArea := ⟨List.replicate 512 0#8, by rw [List.length_replicate]⟩
  sigBlocked := 0x1000#64
  sigaltSp := 0
  sigaltSize := 0
  sigaltDisabled := true

/-- Its stack. -/
def workStack : FrameEnv 512 where
  size := by decide
  fits lo hi := decide (0x70000000 ≤ lo ∧ lo < hi ∧ hi ≤ 0x70010000)
  user lo hi h := by
    simp only [decide_eq_true_eq] at h
    simp only [userTop]
    omega

/-- A handler with a restorer. -/
def workAction : SigAction := ⟨0x500000, SA_RESTORER, 0x600000, 0#64⟩

/-- The thread in the handler, and when the handler is done. -/
def workInside : UserThread 512 :=
  enterHandler (workThread rax rcx) workAction 10 0x70007948

def workDone : UserThread 512 :=
  { workInside rax rcx with regs := { (workInside rax rcx).regs with rsp := 0x70007950 } }

/-- The memory in the handler. -/
def workMem : Mem :=
  writeFrame (workThread rax rcx) (fun _ => 0#8) workAction 10 .user 0x70007d80 0x70007948

theorem workThread_stack : (stackRsp (workThread rax rcx) workAction).toNat = 0x70008000 := by
  rfl

theorem workThread_built :
    deliverSignal workStack (workThread rax rcx) (fun _ => 0#8) workAction 10 .user =
      some (workInside rax rcx, workMem rax rcx) := by
  have hfp : fpstateAddr 512 0x70008000 = 0x70007d80 := by decide
  have hnew : newRsp 512 0x70008000 (hasRestorer workAction) = 0x70007948 := by decide
  have hfits : workStack.fits 0x70007948 (0x70007d80 + 512) = true := by decide
  rw [deliverSignal]
  simp only [workThread_stack, hfp, hnew, hfits, if_true]
  rfl

end

/-- A thread that is interrupted with `rip` in `rcx` goes on as it was. -/
theorem signal_transparent_iff_work :
    (returnFromHandler workStack (workDone 7 0x400000) (workMem 7 0x400000) fun _ => workAction).2 =
      (workThread 7 0x400000).regs := by
  refine ((signal_transparent_iff workStack (workThread 7 0x400000) (workInside 7 0x400000)
    (workDone 7 0x400000) (fun _ => 0#8) (workMem 7 0x400000)
    (workMem 7 0x400000) workAction 10 .user
    .preempt (fun _ => workAction) (workThread_built _ _) (by decide)
      ⟨by decide, by decide, by decide⟩
    (by decide) ⟨by decide, fun _ _ _ => rfl⟩).mpr ?_).1
  exact ⟨by decide, by decide, by decide, fun _ => ⟨rfl, rfl⟩, by decide, by decide +kernel,
    .inl (by decide)⟩

/-- A thread that is interrupted with another value in `rcx` loses it, and one with -512 in
`rax` goes on two bytes before its next instruction. -/
theorem signal_not_transparent :
    (returnFromHandler workStack (workDone 7 8) (workMem 7 8) fun _ => workAction).2.rcx =
      0x400000#64 ∧
    (workThread 7 8).regs.rcx = 8#64 ∧
    (returnFromHandler workStack (workDone (-512#64) 0x400000) (workMem (-512#64) 0x400000)
      fun _ => workAction).2.rip = 0x3ffffe#64 ∧
    (workThread (-512#64) 0x400000).regs.rip = 0x400000#64 := by
  have hdone : ∀ rax rcx, HandlerDone (workInside rax rcx) (workMem rax rcx) 0x70007948
      (0x70007d80 + 512) (workDone rax rcx) (workMem rax rcx) := fun rax rcx =>
    ⟨rfl, fun _ _ _ => rfl⟩
  have hframe : ∀ rax rcx, FrameAt (workThread rax rcx) (fun _ => 0#8) workAction 10 .user
      0x70007948 0x70007d80 (workInside rax rcx) (workMem rax rcx) := fun rax rcx =>
    ⟨rfl, rfl, by rw [workThread_stack]; decide, by decide, by decide⟩
  refine ⟨?_, rfl, ?_, rfl⟩
  · rw [returnFromHandler_eq (hframe 7 8) (hdone 7 8) (by decide) workStack (by decide) (by decide)]
    rfl
  · rw [returnFromHandler_restart (hframe _ _) (hdone _ _) (by decide) workStack
      (by decide) (by decide)]
    rfl

end CosmoRT.Proc.SigFrame
