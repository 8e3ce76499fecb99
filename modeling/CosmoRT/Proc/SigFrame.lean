import CosmoRT.Lib.Bytes
import CosmoRT.Proc.Signal

/-!
# The signal frame

The registers, masks and memory that `deliver_signal` and `do_rt_sigreturn` of
`proc/signal_frame.c` move, and the return path of `proc/signal_handler.c` that every
system call takes, `rt_sigreturn` included.

* `checkSignalsSyscallPath`, `applyRestart` — **the return path takes a result between
  -516 and -512 for a request to restart the call**, whatever call it was.

User memory is a memory of bytes; the frame itself is mapped, so that copying it fails
only outside user space.
-/

namespace CosmoRT.Proc.SigFrame

open Lib.Bytes
open BitVec (ofNat)

/-! ## Registers -/

/-- The registers of user mode. -/
@[ext] structure Regs where
  rax : BitVec 64
  rbx : BitVec 64
  rcx : BitVec 64
  rdx : BitVec 64
  rsi : BitVec 64
  rdi : BitVec 64
  rbp : BitVec 64
  rsp : BitVec 64
  r8 : BitVec 64
  r9 : BitVec 64
  r10 : BitVec 64
  r11 : BitVec 64
  r12 : BitVec 64
  r13 : BitVec 64
  r14 : BitVec 64
  r15 : BitVec 64
  rip : BitVec 64
  rflags : BitVec 64
  deriving DecidableEq, Repr

/-- An image of the FPU state, of `xsave_size` bytes. -/
abbrev FpuImage (n : ℕ) := { l : List Byte // l.length = n }

/-- `thread_t`, as far as signals read and write it.  `xsaveArea` is also what is in the
FPU. -/
structure UserThread (n : ℕ) where
  regs : Regs
  fsBase : BitVec 64
  gsBase : BitVec 64
  xsaveArea : FpuImage n
  sigBlocked : SigSet
  sigaltSp : BitVec 64
  sigaltSize : BitVec 64
  sigaltDisabled : Bool

/-- What the process and the machine allow: the size of the FPU image, and which ranges
lie in one writable area whose pages can be had. -/
structure FrameEnv (n : ℕ) where
  size : 512 ≤ n
  fits : ℕ → ℕ → Bool
  /-- Areas lie in user space. -/
  user : ∀ lo hi, fits lo hi = true → lo < userTop ∧ hi ≤ userTop

/-! ## Delivery -/

/-- Why a signal is delivered: a fault, an `F_NOTIFY` event, or anything else. -/
inductive Cause where
  | fault (addr : BitVec 64)
  | poll (fd : BitVec 32)
  | user
  deriving DecidableEq, Repr

/-- `si_code` and what follows the header of `siginfo_t`. -/
def Cause.payload : Cause → BitVec 32 × List Byte
  | .fault addr => (1#32, toBytes 8 addr)
  | .poll fd => (-6#32, toBytes 8 0#64 ++ toBytes 4 fd)
  | .user => (0#32, [])

/-- `sig_siginfo_t`, 128 bytes. -/
def siginfoBytes (signo : ℕ) (cause : Cause) : List Byte :=
  let l := toBytes 4 (ofNat 32 signo) ++ toBytes 4 0#32 ++ toBytes 4 cause.payload.1 ++
    toBytes 4 0#32 ++ cause.payload.2
  l ++ List.replicate (128 - l.length) 0#8

section

variable {n : ℕ} (t : UserThread n)

/-- `sig_ucontext_t` up to `__fpregs_mem`: flags, link and stack, the 23 registers of
`gregset_t`, the pointer to the FPU image, `_reserved` and `uc_sigmask`. -/
def ucontextWords (fpstate : BitVec 64) : List (BitVec 64) :=
  [0#64, 0#64, 0#64, 0#64, 0#64,
    t.regs.r8, t.regs.r9, t.regs.r10, t.regs.r11, t.regs.r12, t.regs.r13, t.regs.r14, t.regs.r15,
    t.regs.rdi, t.regs.rsi, t.regs.rbp, t.regs.rbx, t.regs.rdx, t.regs.rax, t.regs.rcx, t.regs.rsp,
    t.regs.rip, t.regs.rflags, 0x33#64, 0#64, 0#64, 0#64, 0#64,
    fpstate,
    t.fsBase, t.gsBase, 0#64, 0#64, 0#64, 0#64, 0#64, 0#64,
    t.sigBlocked, 0#64, 0#64, 0#64, 0#64, 0#64, 0#64, 0#64,
    0#64, 0#64, 0#64, 0#64, 0#64, 0#64, 0#64, 0#64]

/-- `mov rax, 15; syscall`. -/
def sigTrampoline : List Byte := [0x48, 0xc7, 0xc0, 0x0f, 0x00, 0x00, 0x00, 0x0f, 0x05]

/-- `(sa->sa_flags & SA_RESTORER) && sa->sa_restorer`. -/
def hasRestorer (sa : SigAction) : Bool := saHas sa.flags SA_RESTORER && decide (sa.restorer ≠ 0)

/-- The stack the frame goes to: the alternate one if it is asked for and not in use. -/
def stackRsp (sa : SigAction) : BitVec 64 :=
  if saHas sa.flags SA_ONSTACK ∧ t.sigaltSp ≠ 0#64 ∧ t.sigaltDisabled = false ∧
      (t.regs.rsp.toNat < t.sigaltSp.toNat ∨ (t.sigaltSp + t.sigaltSize).toNat ≤ t.regs.rsp.toNat)
  then t.sigaltSp + t.sigaltSize else t.regs.rsp

/-- `fpstate_padded`. -/
def fpstatePadded (n : ℕ) : ℕ := (n + 63) / 64 * 64

/-- `base_size`: the frame without the FPU image. -/
def baseSize (restorer : Bool) : ℕ := if restorer then 1072 else 1081

/-- `fpstate_user_addr`, for a stack pointer that is high enough. -/
def fpstateAddr (n rsp : ℕ) : ℕ := (rsp - 128 - fpstatePadded n) / 64 * 64

/-- `new_rsp`. -/
def newRsp (n rsp : ℕ) (restorer : Bool) : ℕ :=
  ((fpstateAddr n rsp - baseSize restorer) / 16 * 16 + 2 ^ 64 - 8) % 2 ^ 64

/-- The frame is written to the user stack. -/
def writeFrame (m : Mem) (sa : SigAction) (signo : ℕ) (cause : Cause) (fpstate newRsp : ℕ) : Mem :=
  let restorer := if hasRestorer sa then sa.restorer else newRsp + 1072
  let m := write m newRsp (toBytes 8 (ofNat 64 restorer))
  let m := write m (newRsp + 8) (siginfoBytes signo cause)
  let m := write m (newRsp + 136)
    (wordsBytes (ucontextWords t (ofNat 64 fpstate)) ++ t.xsaveArea.val.take 512)
  let m := write m fpstate t.xsaveArea.val
  if hasRestorer sa then m else write m (newRsp + 1072) sigTrampoline

/-- The thread enters the handler. -/
def enterHandler (sa : SigAction) (signo newRsp : ℕ) : UserThread n :=
  { t with
    regs := { t.regs with
      rip := ofNat 64 sa.handler
      rsp := ofNat 64 newRsp
      rdi := ofNat 64 signo
      rsi := if saHas sa.flags SA_SIGINFO then ofNat 64 (newRsp + 8) else 0#64
      rdx := if saHas sa.flags SA_SIGINFO then ofNat 64 (newRsp + 136) else 0#64
      rcx := 0#64
      r11 := 0#64
      rflags := t.regs.rflags &&& ~~~(1#64 <<< 10) ||| 1#64 <<< 9 }
    sigBlocked := handlerMask t.sigBlocked sa signo }

/-- `deliver_signal`, if it builds a frame. -/
def deliverSignal {n : ℕ} (env : FrameEnv n) (t : UserThread n) (m : Mem) (sa : SigAction)
    (signo : ℕ) (cause : Cause) : Option (UserThread n × Mem) :=
  if sa.handler ≤ 1 ∨ userTop ≤ sa.handler then none
  else
    let rsp := (stackRsp t sa).toNat
    let restorer := hasRestorer sa
    if rsp < 128 + fpstatePadded n + baseSize restorer + 64 then none
    else
      let fpstate := fpstateAddr n rsp
      let new := newRsp n rsp restorer
      if env.fits new (fpstate + n) then
        some (enterHandler t sa signo new, writeFrame t m sa signo cause fpstate new)
      else none

/-! ## The system-call frame -/

/-- `syscall_frame_t` with `user_rsp`: `rcx` holds the user's `rip` and `r11` its flags. -/
structure SyscallFrame where
  r15 : BitVec 64
  r14 : BitVec 64
  r13 : BitVec 64
  r12 : BitVec 64
  rbp : BitVec 64
  rbx : BitVec 64
  r9 : BitVec 64
  r8 : BitVec 64
  r10 : BitVec 64
  rdx : BitVec 64
  rsi : BitVec 64
  rdi : BitVec 64
  rax : BitVec 64
  r11 : BitVec 64
  rcx : BitVec 64
  userRsp : BitVec 64

/-- `syscall_entry_asm` after the `syscall` instruction. -/
def syscallEntry (r : Regs) : SyscallFrame where
  r15 := r.r15
  r14 := r.r14
  r13 := r.r13
  r12 := r.r12
  rbp := r.rbp
  rbx := r.rbx
  r9 := r.r9
  r8 := r.r8
  r10 := r.r10
  rdx := r.rdx
  rsi := r.rsi
  rdi := r.rdi
  rax := r.rax
  r11 := r.rflags
  rcx := r.rip
  userRsp := r.rsp

/-- `syscall_return`: the registers are popped and `sysretq` takes `rip` from `rcx` and the
flags from `r11`. -/
def sysret (f : SyscallFrame) (result : BitVec 64) : Regs where
  rax := result
  rbx := f.rbx
  rcx := f.rcx
  rdx := f.rdx
  rsi := f.rsi
  rdi := f.rdi
  rbp := f.rbp
  rsp := f.userRsp
  r8 := f.r8
  r9 := f.r9
  r10 := f.r10
  r11 := f.r11
  r12 := f.r12
  r13 := f.r13
  r14 := f.r14
  r15 := f.r15
  rip := f.rcx
  rflags := f.r11

/-! ## Return from the handler -/

/-- The field `MXCSR` of an image and its mask, or the default mask. -/
def mxcsr (l : List Byte) : BitVec 32 := ofBytes 32 ((l.drop 24).take 4)

def mxcsrMask (l : List Byte) : BitVec 32 :=
  let mask := ofBytes 32 ((l.drop 28).take 4)
  if mask = 0#32 then 0xFFBF#32 else mask

/-- Reserved bits of `MXCSR` are cleared. -/
def sanitize (l : List Byte) : List Byte :=
  l.take 24 ++ toBytes 4 (mxcsr l &&& mxcsrMask l) ++ l.drop 28

theorem length_sanitize {l : List Byte} (h : 28 ≤ l.length) : (sanitize l).length = l.length := by
  simp only [sanitize, List.length_append, List.length_take, length_toBytes, List.length_drop]
  omega

/-- The flags that user mode may restore. -/
def safeFlags (flags : BitVec 64) : BitVec 64 :=
  (flags &&& 0xFFFF#64) &&& ~~~(3#64 <<< 12) ||| 1#64 <<< 9 ||| 1#64 <<< 1

/-- A base that lies in user space and is not zero is restored. -/
def restoreBase (saved current : BitVec 64) : BitVec 64 :=
  if userTop ≤ saved.toNat ∨ saved = 0#64 then current else saved

/-- The general registers go into the system-call frame. -/
def restoreGregs (f : SyscallFrame) (w : ℕ → BitVec 64) : SyscallFrame :=
  { f with
    r8 := w 5, r9 := w 6, r10 := w 7, r12 := w 9, r13 := w 10, r14 := w 11, r15 := w 12
    rdi := w 13, rsi := w 14, rbp := w 15, rbx := w 16, rdx := w 17, rax := w 18 }

abbrev negEFAULT : BitVec 64 := -14#64
abbrev negEINTR : BitVec 64 := -4#64

/-- `do_rt_sigreturn`: the result, the thread and the system-call frame. -/
def doRtSigreturn {n : ℕ} (env : FrameEnv n) (t : UserThread n) (f : SyscallFrame) (m : Mem) :
    BitVec 64 × UserThread n × SyscallFrame :=
  let ucAddr := (f.userRsp - 8#64 + 136#64).toNat
  if userOk ucAddr 936 = false then (negEFAULT, t, f)
  else
    let w := fun i => readWord m (ucAddr + 8 * i)
    let fpAddr := (w 28).toNat
    if userOk fpAddr n = false then (negEFAULT, t, f)
    else
      let t := { t with
        xsaveArea := ⟨sanitize (read m fpAddr n), by
          have hn := env.size
          rw [length_sanitize (by rw [length_read]; omega), length_read]⟩ }
      let f := restoreGregs f w
      let rip := w 21
      let rsp := w 20
      if userTop ≤ rip.toNat ∨ userTop ≤ rsp.toNat then (negEFAULT, t, f)
      else
        (w 18,
          { t with
            fsBase := restoreBase (w 29) t.fsBase
            gsBase := restoreBase (w 30) t.gsBase
            sigBlocked := w 37 &&& maskable },
          { f with r11 := safeFlags (w 22), rcx := rip, userRsp := rsp })

/-! ## The return path of system calls -/

/-- `-ERESTARTSYS >= ret >= -ERESTART_RESTARTBLOCK`. -/
def hasRestart (result : BitVec 64) : Bool :=
  decide (-516 ≤ result.toInt ∧ result.toInt ≤ -512)

/-- The first deliverable signal with a handler. -/
def firstHandler (deliverable : SigSet) (actions : ℕ → SigAction) : Option SigAction :=
  (allSignals.find? fun sig =>
    hasSig deliverable sig && decide (1 < (actions sig).handler)).map actions

abbrev SYS_RT_SIGRETURN : BitVec 64 := 15#64
abbrev SYS_RESTART_SYSCALL : BitVec 64 := 219#64

/-- `apply_restart`: the new result, and the number of the call to restart or 0. -/
def applyRestart (ret num : BitVec 64) (deliverable : SigSet) (actions : ℕ → SigAction) :
    BitVec 64 × BitVec 64 :=
  if hasRestart ret = false then (ret, 0#64)
  else
    match firstHandler deliverable actions with
    | some sa =>
      let again := if ret = -512#64 then saHas sa.flags SA_RESTART else decide (ret = -513#64)
      if again then (num, num) else (negEINTR, 0#64)
    | none =>
      let nr := if ret = -516#64 then SYS_RESTART_SYSCALL else num
      (nr, nr)

/-- `is_restartable_syscall`. -/
def isRestartableSyscall (num : BitVec 64) : Bool :=
  num ∈ ([0, 1, 19, 20, 61, 35, 230, 7, 45, 44, 47, 46, 43, 288, 42] : List (BitVec 64))

/-- The system-call frame is copied to `thread_t`; `rcx` and `r11` are not. -/
def frameToThread (f : SyscallFrame) (result : BitVec 64) (r : Regs) : Regs :=
  { sysret f result with rcx := r.rcx, r11 := r.r11 }

/-- `thread_t` is copied back to the system-call frame. -/
def threadToFrame (r : Regs) (f : SyscallFrame) : SyscallFrame :=
  { syscallEntry r with rax := f.rax }

/-- The instruction pointer goes back to the `syscall` instruction. -/
def rewind (r : Regs) (num : BitVec 64) : Regs := { r with rip := r.rip - 2#64, rax := num }

/-- The restart arbitration on the registers of the thread. -/
def arbitrate (r : Regs) (result num : BitVec 64) (deliverable : SigSet) (actions : ℕ → SigAction) :
    Regs :=
  if hasRestart result then
    let (newRax, restartNr) := applyRestart result num deliverable actions
    if restartNr ≠ 0#64 then rewind r restartNr else { r with rax := newRax }
  else if result = negEINTR ∧ deliverable ≠ 0#64 ∧ isRestartableSyscall num then
    match allSignals.find? (hasSig deliverable) with
    | some sig =>
      if 1 < (actions sig).handler ∧ saHas (actions sig).flags SA_RESTART then rewind r num else r
    | none => r
  else r

/-- `check_signals_syscall_path` without an alarm that is due and with the signals that are
deliverable; `checkPending` stands for `check_pending_signals`. -/
def checkSignalsSyscallPath (f : SyscallFrame) (result num : BitVec 64)
    (deliverable : SigSet) (actions : ℕ → SigAction) (checkPending : UserThread n → UserThread n) :
    BitVec 64 × UserThread n × SyscallFrame :=
  if deliverable = 0#64 ∧ hasRestart result = false then (result, t, f)
  else
    let t := { t with regs := frameToThread f result t.regs }
    let t := { t with regs := arbitrate t.regs result num deliverable actions }
    let t := if deliverable = 0#64 then t else checkPending t
    (t.regs.rax, t, threadToFrame t.regs f)

end

/-- `rt_sigreturn` from the restorer, with its return path when no signal is deliverable:
the thread and the registers it goes on with. -/
def returnFromHandler {n : ℕ} (env : FrameEnv n) (t : UserThread n) (m : Mem)
    (actions : ℕ → SigAction) : UserThread n × Regs :=
  let r := doRtSigreturn env t (syscallEntry t.regs) m
  let r := checkSignalsSyscallPath r.2.1 r.2.2 r.1 SYS_RT_SIGRETURN 0#64 actions id
  (r.2.1, sysret r.2.2 r.1)

end CosmoRT.Proc.SigFrame
