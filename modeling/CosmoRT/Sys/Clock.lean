import CosmoRT.Abi
import CosmoRT.Core.Clocksource

/-!
# Reading and setting the clocks: `core/hrtimer.c`, `sys/sys_time.c`, `user/vdso/vdso.c`

Time is read from the time stamp counter in two ways: by the system call, through
`hrtimer_now_ns`, and without one, by the code of the vDSO page from the data page the kernel
fills.  The wall clock is the monotonic one plus `rtc_epoch_sec` seconds, of which the data page
has a copy in nanoseconds.

* `Timer.Exact` — the reads whose value is the product of ticks and scale, rounded down.
* `system_time_is_one_clock` — **both ways read one clock**, over every sequence of calls,
  as long as reads are exact and no call shifts the wall clock by `ADJ_SETOFFSET`.
* `clocks_come_apart` — without the conditions: time steps back at the change of formulas, a
  product wraps, the two wall clocks differ.
-/

namespace CosmoRT.Sys

open CosmoRT.Core Lib

/-! ## Ticks to nanoseconds -/

/-- The calibration of the time stamp counter, in `timer.c`. -/
structure Timer where
  mult : ℕ
  shift : ℕ
  bootTsc : ℕ
  tscPerMs : ℕ
  deriving DecidableEq, Repr

/-- `timer_init` with a measured frequency: a window of 600 s, and a frequency of 1 GHz where
less than 1 kHz was measured. -/
def timerInit (hz bootTsc : ℕ) : Timer :=
  let tscHz := if hz / 1000 = 0 then 1000000000 else hz
  let scale := calcMultShift tscHz 1000000000 600
  { mult := scale.1, shift := scale.2, bootTsc := bootTsc, tscPerMs := tscHz / 1000 }

section

variable (c : Timer) (tsc : ℕ)

/-- Ticks since boot. -/
def Timer.delta : ℕ := (tsc + 2 ^ 64 - c.bootTsc) % 2 ^ 64

/-- `timer_ms`. -/
def Timer.ms : ℕ := if c.tscPerMs = 0 then 0 else c.delta tsc / c.tscPerMs

/-- `hrtimer_now_ns`: one product while it fits in 64 bits, milliseconds and a rest after that. -/
def hrtimerNowNs : ℕ :=
  if c.mult = 0 then 0
  else if c.delta tsc < (2 ^ 64 - 1) / c.mult then (c.delta tsc * c.mult % 2 ^ 64) >>> c.shift
  else if c.tscPerMs = 0 then 0
  else
    let ms := c.delta tsc / c.tscPerMs
    let residue := c.delta tsc - ms * c.tscPerMs
    (ms * 1000000 % 2 ^ 64 + (residue * c.mult % 2 ^ 64) >>> c.shift) % 2 ^ 64

/-- The products `hrtimer_now_ns` computes, before they are cut to 64 bits. -/
def hrtimerProducts : List ℕ :=
  if c.mult = 0 then []
  else if c.delta tsc < (2 ^ 64 - 1) / c.mult then [c.delta tsc * c.mult]
  else if c.tscPerMs = 0 then []
  else
    let ms := c.delta tsc / c.tscPerMs
    [ms * c.tscPerMs, ms * 1000000, (c.delta tsc - ms * c.tscPerMs) * c.mult]

end

/-- `scale_tsc_to_ns`: the two halves of the ticks are scaled apart. -/
def scaleTscToNs (tscDelta mult shift : ℕ) : ℕ :=
  let lo := tscDelta % 2 ^ 32
  let hi := tscDelta >>> 32
  let nsLo := (mult * lo % 2 ^ 64) >>> shift
  let nsHi := ((hi * mult % 2 ^ 64) <<< (32 - shift)) % 2 ^ 64
  (nsHi + nsLo) % 2 ^ 64

/-- The products `scale_tsc_to_ns` computes, the shift to the left among them. -/
def scaleProducts (tscDelta mult shift : ℕ) : List ℕ :=
  [mult * (tscDelta % 2 ^ 32), (tscDelta >>> 32) * mult,
    ((tscDelta >>> 32) * mult) <<< (32 - shift)]

/-! ## The two reads -/

/-- The clocks of `linux/time.h`. -/
inductive ClockId where
  | realtime | monotonic | processCputime | threadCputime | monotonicRaw | realtimeCoarse
  | monotonicCoarse | boottime | other
  deriving DecidableEq, Repr

/-- `struct timespec`. -/
structure Timespec where
  sec : ℤ
  nsec : ℤ
  deriving DecidableEq, Repr

/-- The value is not later than the other. -/
def Timespec.NotAfter (a b : Timespec) : Prop := a.sec < b.sec ∨ a.sec = b.sec ∧ a.nsec ≤ b.nsec

instance (a b : Timespec) : Decidable (a.NotAfter b) := inferInstanceAs (Decidable (_ ∨ _))

/-- Seconds and nanoseconds of a signed number of nanoseconds, as both reads compute them. -/
def toTimespec (ns : ℤ) : Timespec :=
  let sec := ns.tdiv 1000000000
  let nsec := ns - sec * 1000000000
  if nsec < 0 then ⟨sec - 1, nsec + 1000000000⟩ else ⟨sec, nsec⟩

/-- The offsets of a time namespace other than the initial one. -/
structure TimeNs where
  offMonotonicSec : ℤ
  offMonotonicNsec : ℤ
  offBoottimeSec : ℤ
  offBoottimeNsec : ℤ
  deriving DecidableEq, Repr

/-- What the calls read of the calling process; `none` is the initial time namespace. -/
structure ClockCaller where
  euid : ℕ
  cpuTimeTicks : ℕ
  timeNs : Option TimeNs
  deriving DecidableEq, Repr

/-- `time_ns_adjust_read`. -/
def timeNsAdjustRead (ns : Option TimeNs) (clk : ClockId) (rawNs : ℤ) : ℤ :=
  match ns, clk with
  | some ns, .monotonic | some ns, .monotonicRaw | some ns, .monotonicCoarse =>
    int64 (rawNs + ns.offMonotonicSec * 1000000000 + ns.offMonotonicNsec)
  | some ns, .boottime => int64 (rawNs + ns.offBoottimeSec * 1000000000 + ns.offBoottimeNsec)
  | _, _ => rawNs

/-- The page of the vDSO, as a reader finds it between two updates. -/
structure VdsoData where
  mult : ℕ
  shift : ℕ
  bootTsc : ℕ
  wallTimeOffsetNs : ℤ
  deriving DecidableEq, Repr

/-- The state `adjtimex` keeps. -/
structure NtpState where
  offset : ℤ
  freq : ℤ
  maxerror : ℤ
  esterror : ℤ
  status : BitVec 32
  constant : ℤ
  tick : ℤ
  tai : ℤ
  deriving DecidableEq, Repr

/-- The clocks of the system. -/
structure Clocks where
  timer : Timer
  rtcEpochSec : ℤ
  ntp : NtpState
  vdso : VdsoData
  deriving DecidableEq, Repr

section

variable (s : Clocks)

/-- `vdso_data_update`. -/
def Clocks.vdsoDataUpdate : Clocks :=
  { s with vdso :=
    { mult := s.timer.mult, shift := s.timer.shift, bootTsc := s.timer.bootTsc
      wallTimeOffsetNs := int64 (s.rtcEpochSec * 1000000000) } }

/-- The clocks after boot: timer and real time clock are read, then the vDSO page is filled. -/
def Clocks.boot (hz bootTsc : ℕ) (epoch : ℤ) : Clocks :=
  let ntp : NtpState := ⟨0, 0, 0, 0, 0x40, 0, 10000, 0⟩
  Clocks.vdsoDataUpdate ⟨timerInit hz bootTsc, epoch, ntp, ⟨0, 0, 0, 0⟩⟩

section

variable (p : ClockCaller) (clk : ClockId)

/-- `do_clock_gettime`, executed when the counter stands at `tsc`. -/
def doClockGettime (tp : UserPtr Unit) (tsc : ℕ) : Except Errno Timespec :=
  if tp = .null then .error .EFAULT
  else do
    let raw : ℤ := int64 (hrtimerNowNs s.timer tsc)
    let ns ← match clk with
      | .realtime | .realtimeCoarse => .ok (int64 (raw + int64 (s.rtcEpochSec * 1000000000)))
      | .monotonic | .monotonicRaw | .monotonicCoarse | .boottime =>
        .ok (timeNsAdjustRead p.timeNs clk raw)
      -- a thread is charged with the time of its process
      | .processCputime | .threadCputime => .ok (int64 (p.cpuTimeTicks * 1000000))
      | .other => .error .EINVAL
    if tp = .fault then .error .EFAULT else .ok (toTimespec ns)

/-- `__vdso_clock_gettime`; after `ENOSYS` the library makes the system call. -/
def vdsoClockGettime (d : VdsoData) (clk : ClockId) (ts : UserPtr Unit) (tsc : ℕ) :
    Except Errno Timespec :=
  if ts = .null then .error .EINVAL
  else if clk ∈ [.processCputime, .threadCputime, .other] then .error .ENOSYS
  else if d.mult = 0 then .error .ENOSYS
  else if tsc < d.bootTsc then .error .ENOSYS
  else
    let mono : ℤ := int64 (scaleTscToNs (tsc - d.bootTsc) d.mult d.shift)
    .ok (toTimespec
      (if clk = .realtime ∨ clk = .realtimeCoarse then int64 (mono + d.wallTimeOffsetNs) else mono))

/-! ## The calls that set the wall clock -/

/-- `do_clock_settime`.  An address out of the user's range is `null` here. -/
def doClockSettime (tp : UserPtr Timespec) (tsc : ℕ) : Except Errno Unit × Clocks :=
  match tp with
  | .null => (.error .EFAULT, s)
  | tp =>
    if clk ≠ .realtime ∧ clk ≠ .realtimeCoarse then (.error .EINVAL, s)
    else match tp with
      | .val kts =>
        if kts.nsec < 0 ∨ 1000000000 ≤ kts.nsec then (.error .EINVAL, s)
        else if kts.sec < 0 then (.error .EINVAL, s)
        else if p.euid ≠ 0 then (.error .EPERM, s)
        else
          let uptimeSec : ℤ := (s.timer.ms tsc / 1000 : ℕ)
          (.ok (), { s with rtcEpochSec := int64 (kts.sec - uptimeSec) }.vdsoDataUpdate)
      | _ => (.error .EFAULT, s)

/-- The fields of `struct k_timex` that are not always zero. -/
structure Timex where
  modes : BitVec 32
  offset : ℤ
  freq : ℤ
  maxerror : ℤ
  esterror : ℤ
  status : BitVec 32
  constant : ℤ
  precision : ℤ
  tolerance : ℤ
  timeSec : ℤ
  timeUsec : ℤ
  tick : ℤ
  tai : ℤ
  deriving DecidableEq, Repr

def ADJ_OFFSET : BitVec 32 := 0x0001#32
def ADJ_FREQUENCY : BitVec 32 := 0x0002#32
def ADJ_MAXERROR : BitVec 32 := 0x0004#32
def ADJ_ESTERROR : BitVec 32 := 0x0008#32
def ADJ_STATUS : BitVec 32 := 0x0010#32
def ADJ_TIMECONST : BitVec 32 := 0x0020#32
def ADJ_TAI : BitVec 32 := 0x0080#32
def ADJ_SETOFFSET : BitVec 32 := 0x0100#32
def ADJ_MICRO : BitVec 32 := 0x1000#32
def ADJ_NANO : BitVec 32 := 0x2000#32
def ADJ_TICK : BitVec 32 := 0x4000#32
def ADJ_OFFSET_SINGLESHOT : BitVec 32 := 0x8001#32
def ADJ_OFFSET_SS_READ : BitVec 32 := 0xa001#32
def STA_INS : BitVec 32 := 0x0010#32
def STA_DEL : BitVec 32 := 0x0020#32
def STA_UNSYNC : BitVec 32 := 0x0040#32
def STA_NANO : BitVec 32 := 0x2000#32
def STA_RONLY : BitVec 32 := 0xff00#32

/-- One of the bits is set in the mode of the call. -/
def Timex.has (tx : Timex) (bits : BitVec 32) : Bool := tx.modes &&& bits ≠ 0

/-- `ntp_fill_timex`. -/
def ntpFillTimex (tsc : ℕ) : Timex :=
  let ms := s.timer.ms tsc
  { modes := 0, offset := s.ntp.offset, freq := s.ntp.freq, maxerror := s.ntp.maxerror
    esterror := s.ntp.esterror, status := s.ntp.status, constant := s.ntp.constant
    precision := 1, tolerance := 32768000
    timeSec := int64 ((ms / 1000 : ℕ) + s.rtcEpochSec)
    timeUsec := (ms % 1000 * 1000 : ℕ), tick := s.ntp.tick, tai := s.ntp.tai }

/-- The mode bits `ntp_apply_modes` knows. -/
def validModes : BitVec 32 :=
  ADJ_OFFSET ||| ADJ_FREQUENCY ||| ADJ_MAXERROR ||| ADJ_ESTERROR ||| ADJ_STATUS |||
    ADJ_TIMECONST ||| ADJ_TICK ||| ADJ_TAI ||| ADJ_SETOFFSET ||| ADJ_MICRO ||| ADJ_NANO

/-- The fields `ntp_apply_modes` takes over, in its order. -/
def NtpState.take (n : NtpState) (tx : Timex) : NtpState :=
  let status := if tx.has ADJ_STATUS then n.status &&& STA_RONLY ||| tx.status &&& ~~~STA_RONLY
    else n.status
  let status := if tx.has ADJ_MICRO then status &&& ~~~STA_NANO else status
  { offset := if tx.has ADJ_OFFSET then tx.offset else n.offset
    freq := if tx.has ADJ_FREQUENCY then tx.freq else n.freq
    maxerror := if tx.has ADJ_MAXERROR then tx.maxerror else n.maxerror
    esterror := if tx.has ADJ_ESTERROR then tx.esterror else n.esterror
    status := if tx.has ADJ_NANO then status ||| STA_NANO else status
    constant := if tx.has ADJ_TIMECONST then tx.constant else n.constant
    tick := if tx.has ADJ_TICK then tx.tick else n.tick
    tai := if tx.has ADJ_TAI then tx.tai else n.tai }

/-- `ntp_apply_modes`. -/
def ntpApplyModes (tx : Timex) : Except Errno Clocks :=
  if tx.has 0x8000#32 then
    if tx.modes ≠ ADJ_OFFSET_SINGLESHOT ∧ tx.modes ≠ ADJ_OFFSET_SS_READ then .error .EINVAL
    else .ok s
  else if tx.has (~~~validModes) then .error .EINVAL
  else if tx.has ADJ_TICK ∧ (tx.tick < 9000 ∨ 11000 < tx.tick) then .error .EINVAL
  else if tx.has ADJ_FREQUENCY ∧ (32768000 < tx.freq ∨ tx.freq < -32768000) then .error .EINVAL
  else .ok { s with
    ntp := s.ntp.take tx
    rtcEpochSec :=
      if tx.has ADJ_SETOFFSET then int64 (s.rtcEpochSec + tx.timeSec) else s.rtcEpochSec }

/-- The states of the clock `do_clock_adjtime` returns. -/
inductive TimeState where
  | ok | ins | del | error
  deriving DecidableEq, Repr

/-- `do_clock_adjtime`; `writable` says whether the answer can be copied out. -/
def doClockAdjtime (tx : UserPtr Timex) (writable : Bool)
    (tsc : ℕ) : Except Errno (TimeState × Timex) × Clocks :=
  match tx with
  | .null => (.error .EFAULT, s)
  | tx =>
    if clk ≠ .realtime then (.error .EINVAL, s)
    else match tx with
      | .val ktx =>
        if ¬(ktx.modes = 0 ∨ ktx.modes = ADJ_OFFSET_SS_READ) ∧ p.euid ≠ 0 then (.error .EPERM, s)
        else match ntpApplyModes s ktx with
          | .error e => (.error e, s)
          | .ok s' =>
            let st : TimeState :=
              if s'.ntp.status &&& STA_INS ≠ 0 then .ins
              else if s'.ntp.status &&& STA_DEL ≠ 0 then .del
              else if s'.ntp.status &&& STA_UNSYNC ≠ 0 then .error else .ok
            -- what was applied stays when the answer cannot be written
            (if writable then .ok (st, ntpFillTimex s' tsc) else .error .EFAULT, s')
      | _ => (.error .EFAULT, s)

end

/-- A call that may set the wall clock. -/
inductive ClockOp where
  | settime (p : ClockCaller) (clk : ClockId) (tp : UserPtr Timespec) (tsc : ℕ)
  | adjtime (p : ClockCaller) (clk : ClockId) (tx : UserPtr Timex) (writable : Bool) (tsc : ℕ)

/-- One call. -/
def Clocks.next : ClockOp → Clocks
  | .settime p clk tp tsc => (doClockSettime s p clk tp tsc).2
  | .adjtime p clk tx writable tsc => (doClockAdjtime s p clk tx writable tsc).2

/-- The calls that do not shift the wall clock by seconds of their own. -/
def ClockOp.LeavesEpoch : ClockOp → Prop
  | .adjtime _ _ (.val tx) _ _ => tx.has ADJ_SETOFFSET = true → tx.timeSec = 0
  | _ => True

/-- The two ways to read a clock. -/
inductive ReadPath where
  | syscall | vdso
  deriving DecidableEq, Repr

/-- A process of the initial time namespace reads a clock. -/
def Clocks.read (path : ReadPath) (p : ClockCaller) (clk : ClockId) (tsc : ℕ) :
    Except Errno Timespec :=
  match path with
  | .syscall => doClockGettime s p clk (.val ()) tsc
  | .vdso => vdsoClockGettime s.vdso clk (.val ()) tsc

/-- The products a read computes. -/
def Clocks.products (path : ReadPath) (tsc : ℕ) : List ℕ :=
  match path with
  | .syscall => hrtimerProducts s.timer tsc
  | .vdso => scaleProducts (tsc - s.vdso.bootTsc) s.vdso.mult s.vdso.shift

end

/-! ## What calibration gives -/

/-- What the conversions need of a calibration. -/
structure Timer.Calibrated (c : Timer) : Prop where
  mult_pos : 0 < c.mult
  mult_lt : c.mult < 2 ^ 32
  shift_le : c.shift ≤ 32

theorem scaleAt_passes {hz : ℕ} (hlo : 10 ^ 8 ≤ hz) (hhi : hz ≤ 10 ^ 10) :
    scaleAt hz 1000000000 23 < 2 ^ sftaccAfter ((600 * hz % 2 ^ 64) >>> 32) 32 := by
  have hwin : 600 * hz % 2 ^ 64 = 600 * hz := Nat.mod_eq_of_lt (by omega)
  have hbits := two_pow_sftacc (n := 600 * hz) (by omega) (by omega)
  rw [hwin, scaleAt, Nat.div_lt_iff_lt_mul (by omega)]
  have hroom : 2 ^ 64 ≤ 1200 * (2 ^ sftaccAfter ((600 * hz) >>> 32) 32 * hz) := by
    calc 2 ^ 64 ≤ _ := hbits
      _ = _ := by ring
  omega

theorem timerInit_calibrated {hz bootTsc : ℕ} (hlo : 10 ^ 8 ≤ hz) (hhi : hz ≤ 10 ^ 10) :
    (timerInit hz bootTsc).Calibrated := by
  have hspec := searchShift_spec hz 1000000000 (sftaccAfter ((600 * hz % 2 ^ 64) >>> 32) 32) 32 0
  rcases hs : searchShift hz 1000000000
    (sftaccAfter ((600 * hz % 2 ^ 64) >>> 32) 32) 32 0 with ⟨m, s⟩
  simp only [hs] at hspec
  obtain ⟨hpass, hhigh, hfail⟩ := hspec
  have hlow : 23 ≤ s := by
    by_contra h
    refine hfail 23 (not_le.1 h) (by decide) ?_
    rw [Nat.shiftRight_eq_div_pow, Nat.div_eq_of_lt (scaleAt_passes hlo hhi)]
  obtain ⟨rfl, hlt⟩ := hpass (le_trans (by decide) hlow)
  have hacc : sftaccAfter ((600 * hz % 2 ^ 64) >>> 32) 32 ≤ 32 := by
    rw [sftaccAfter_eq]
    omega
  have hmult : scaleAt hz 1000000000 s < 2 ^ 32 :=
    hlt.trans_le (Nat.pow_le_pow_right (by decide) hacc)
  have hpos : 0 < scaleAt hz 1000000000 s := by
    have hpow : 2 ^ 23 ≤ 2 ^ s := Nat.pow_le_pow_right (by decide) hlow
    have hpow' : 2 ^ s ≤ 2 ^ 32 := Nat.pow_le_pow_right (by decide) hhigh
    have hfit : 1000000000 <<< s % 2 ^ 64 = 1000000000 * 2 ^ s := by
      rw [Nat.shiftLeft_eq, Nat.mod_eq_of_lt (by omega)]
    rw [scaleAt, Nat.mod_eq_of_lt (by omega)]
    exact Nat.div_pos (by omega) (by omega)
  have hinit : timerInit hz bootTsc = ⟨scaleAt hz 1000000000 s, s, bootTsc, hz / 1000⟩ := by
    have hkhz : ¬hz / 1000 = 0 := by omega
    simp only [timerInit, if_neg hkhz, calcMultShift, hs, Nat.mod_eq_of_lt hmult]
  rw [hinit]
  exact ⟨hpos, hmult, hhigh⟩

/-! ## The conversions are exact -/

namespace Timer

variable {c : Timer}

/-- The nanoseconds of some ticks. -/
def exactNs (c : Timer) (d : ℕ) : ℕ := d * c.mult / 2 ^ c.shift

/-- The reads that give the product of ticks and scale: the value fits in a signed word and,
for the system call, one product suffices or a millisecond is scaled without a rest. -/
def Exact (c : Timer) (path : ReadPath) (d : ℕ) : Prop :=
  c.exactNs d < 2 ^ 63 ∧
    (path = .syscall → d < (2 ^ 64 - 1) / c.mult ∨ c.tscPerMs * c.mult = 1000000 * 2 ^ c.shift)

variable {d tsc : ℕ}

theorem exactNs_mono {d' : ℕ} (h : d ≤ d') : c.exactNs d ≤ c.exactNs d' := by
  unfold exactNs
  gcongr

theorem delta_eq (h : c.bootTsc ≤ tsc) (ht : tsc < 2 ^ 64) : c.delta tsc = tsc - c.bootTsc := by
  unfold delta
  omega

theorem exactNs_halves (hc : c.Calibrated) (d : ℕ) :
    c.exactNs d =
      (d / 2 ^ 32 * c.mult) * 2 ^ (32 - c.shift) + c.mult * (d % 2 ^ 32) / 2 ^ c.shift := by
  have hpow : 2 ^ (32 - c.shift) * 2 ^ c.shift = 2 ^ 32 := by
    rw [← pow_add]
    congr 1
    have := hc.shift_le
    omega
  have hsplit : d * c.mult =
      c.mult * (d % 2 ^ 32) + (d / 2 ^ 32 * c.mult) * 2 ^ (32 - c.shift) * 2 ^ c.shift := by
    rw [mul_assoc _ (2 ^ (32 - c.shift)), hpow]
    conv_lhs => rw [← Nat.mod_add_div d (2 ^ 32)]
    ring
  rw [exactNs, hsplit, Nat.add_mul_div_right _ _ (by positivity), add_comm]

/-- No product of the vDSO wraps while the value fits in a word. -/
theorem scaleProducts_lt (hc : c.Calibrated) (hd : c.exactNs d < 2 ^ 64) :
    ∀ x ∈ scaleProducts d c.mult c.shift, x < 2 ^ 64 := by
  have hhalves := exactNs_halves hc d
  have hlo : c.mult * (d % 2 ^ 32) < 2 ^ 32 * 2 ^ 32 :=
    Nat.mul_lt_mul_of_lt_of_lt hc.mult_lt (Nat.mod_lt _ (by decide))
  have hshl : d / 2 ^ 32 * c.mult * 2 ^ (32 - c.shift) ≤ c.exactNs d :=
    hhalves ▸ Nat.le_add_right _ _
  have hhi : d / 2 ^ 32 * c.mult ≤ d / 2 ^ 32 * c.mult * 2 ^ (32 - c.shift) :=
    Nat.le_mul_of_pos_right _ Nat.one_le_two_pow
  intro x hx
  simp only [scaleProducts, Nat.shiftRight_eq_div_pow, Nat.shiftLeft_eq, List.mem_cons,
    List.not_mem_nil, or_false] at hx
  rcases hx with rfl | rfl | rfl
  · exact hlo
  · exact (hhi.trans hshl).trans_lt hd
  · exact hshl.trans_lt hd

theorem scaleTscToNs_eq (hc : c.Calibrated) (hd : c.exactNs d < 2 ^ 64) :
    scaleTscToNs d c.mult c.shift = c.exactNs d := by
  have hprod := scaleProducts_lt hc hd
  simp only [scaleProducts, List.forall_mem_cons] at hprod
  obtain ⟨hlo, hhi, hshl, -⟩ := hprod
  have hhalves := exactNs_halves hc d
  simp only [scaleTscToNs, Nat.mod_eq_of_lt hlo, Nat.mod_eq_of_lt hhi, Nat.mod_eq_of_lt hshl]
  rw [Nat.shiftRight_eq_div_pow, Nat.shiftLeft_eq, Nat.shiftRight_eq_div_pow, ← hhalves,
    Nat.mod_eq_of_lt hd]

theorem exactNs_split (hms : c.tscPerMs * c.mult = 1000000 * 2 ^ c.shift) (d : ℕ) :
    c.exactNs d = d / c.tscPerMs * 1000000 + (d % c.tscPerMs) * c.mult / 2 ^ c.shift := by
  have hsplit : d * c.mult = d % c.tscPerMs * c.mult + d / c.tscPerMs * 1000000 * 2 ^ c.shift := by
    rw [mul_assoc (d / c.tscPerMs), ← hms]
    conv_lhs => rw [← Nat.mod_add_div d c.tscPerMs]
    ring
  rw [exactNs, hsplit, Nat.add_mul_div_right _ _ (by positivity), add_comm]

/-- An exact system call: the value, and no product wraps. -/
theorem hrtimerNowNs_eq (hc : c.Calibrated) (h : c.Exact .syscall (c.delta tsc)) :
    hrtimerNowNs c tsc = c.exactNs (c.delta tsc) ∧ ∀ x ∈ hrtimerProducts c tsc, x < 2 ^ 64 := by
  have hmult : c.mult ≠ 0 := hc.mult_pos.ne'
  have hlt : c.delta tsc < 2 ^ 64 := Nat.mod_lt _ (by decide)
  unfold hrtimerNowNs hrtimerProducts
  rw [if_neg hmult, if_neg hmult]
  by_cases hfast : c.delta tsc < (2 ^ 64 - 1) / c.mult
  · have hprod : c.delta tsc * c.mult < 2 ^ 64 := by
      have := (Nat.lt_div_iff_mul_lt hc.mult_pos).mp hfast
      omega
    rw [if_pos hfast, if_pos hfast, Nat.mod_eq_of_lt hprod, Nat.shiftRight_eq_div_pow]
    exact ⟨rfl, by simpa using hprod⟩
  · have hms := (h.2 rfl).resolve_left hfast
    have htpms : 0 < c.tscPerMs := by
      rcases Nat.eq_zero_or_pos c.tscPerMs with h0 | h0
      · rw [h0, zero_mul] at hms
        exact absurd hms.symm (by positivity)
      · exact h0
    have hres : c.delta tsc - c.delta tsc / c.tscPerMs * c.tscPerMs = c.delta tsc % c.tscPerMs := by
      rw [Nat.mod_eq_sub_div_mul]
    have hsplit := exactNs_split hms (c.delta tsc)
    have hwhole : c.delta tsc / c.tscPerMs * 1000000 < 2 ^ 64 := by
      have hle : c.delta tsc / c.tscPerMs * 1000000 ≤ c.exactNs (c.delta tsc) :=
        hsplit ▸ Nat.le_add_right _ _
      have := h.1
      omega
    have hquot : c.delta tsc / c.tscPerMs * c.tscPerMs ≤ c.delta tsc := Nat.div_mul_le_self _ _
    have hrest : c.delta tsc % c.tscPerMs * c.mult < 2 ^ 64 := by
      have hpow : 2 ^ c.shift ≤ 2 ^ 32 := Nat.pow_le_pow_right (by decide) hc.shift_le
      have := Nat.mul_lt_mul_of_pos_right (Nat.mod_lt (c.delta tsc) htpms) hc.mult_pos
      omega
    rw [if_neg hfast, if_neg hfast, if_neg htpms.ne', if_neg htpms.ne']
    dsimp only
    rw [hres, Nat.mod_eq_of_lt hrest, Nat.shiftRight_eq_div_pow,
      Nat.mod_eq_of_lt hwhole, ← hsplit, Nat.mod_eq_of_lt (h.1.trans (by decide))]
    refine ⟨rfl, ?_⟩
    simp only [List.forall_mem_cons, List.not_mem_nil, false_imp_iff, implies_true, and_true]
    exact ⟨hquot.trans_lt hlt, hwhole, hrest⟩

end Timer

/-! ## What the calls keep -/

namespace Clocks

variable {s : Clocks}

/-- The vDSO page has the scale of the timer. -/
def ScaleShared (s : Clocks) : Prop :=
  s.vdso.mult = s.timer.mult ∧ s.vdso.shift = s.timer.shift ∧ s.vdso.bootTsc = s.timer.bootTsc

/-- The vDSO page has the offset of the wall clock. -/
def OffsetShared (s : Clocks) : Prop := s.vdso.wallTimeOffsetNs = int64 (s.rtcEpochSec * 1000000000)

/-- Setting the time moves the epoch and fills the page anew, or does nothing. -/
theorem doClockSettime_cases (s : Clocks) (p : ClockCaller) (clk : ClockId) (tp : UserPtr Timespec)
    (tsc : ℕ) : (doClockSettime s p clk tp tsc).2 = s ∨
      ∃ e, (doClockSettime s p clk tp tsc).2 = { s with rtcEpochSec := e }.vdsoDataUpdate := by
  unfold doClockSettime
  cases tp with dsimp only
  | null => exact .inl rfl
  | fault => exact .inl (by split_ifs <;> rfl)
  | val kts =>
    split_ifs
    · exact .inl rfl
    · exact .inl rfl
    · exact .inl rfl
    · exact .inl rfl
    · exact .inr ⟨_, rfl⟩

/-- The clocks after an adjustment that was accepted. -/
def adjusted (s : Clocks) (tx : Timex) : Clocks :=
  { s with
    ntp := s.ntp.take tx
    rtcEpochSec :=
      if tx.has ADJ_SETOFFSET then int64 (s.rtcEpochSec + tx.timeSec) else s.rtcEpochSec }

theorem ntpApplyModes_cases {s' : Clocks} {tx : Timex} (h : ntpApplyModes s tx = .ok s') :
    s' = s ∨ s' = s.adjusted tx := by
  unfold ntpApplyModes at h
  by_cases hadj : tx.has 0x8000#32 = true
  · split_ifs at h
    exact .inl (Except.ok.inj h).symm
  rw [if_neg hadj] at h
  split at h
  · exact nomatch h
  split at h
  · exact nomatch h
  split at h
  · exact nomatch h
  exact .inr (Except.ok.inj h).symm

/-- Adjusting the time changes the state of `adjtimex` and, with `ADJ_SETOFFSET`, the epoch;
the page is left as it is. -/
theorem doClockAdjtime_cases (s : Clocks) (p : ClockCaller) (clk : ClockId) (tx : UserPtr Timex)
    (writable : Bool) (tsc : ℕ) : (doClockAdjtime s p clk tx writable tsc).2 = s ∨
      ∃ ktx, tx = .val ktx ∧ (doClockAdjtime s p clk tx writable tsc).2 = s.adjusted ktx := by
  unfold doClockAdjtime
  cases tx with dsimp only
  | null => exact .inl rfl
  | fault => exact .inl (by split_ifs <;> rfl)
  | val ktx =>
    split
    · exact .inl rfl
    split
    · exact .inl rfl
    cases happly : ntpApplyModes s ktx with
    | error e => exact .inl rfl
    | ok s' =>
      rcases ntpApplyModes_cases happly with rfl | rfl
      · exact .inl rfl
      · exact .inr ⟨ktx, rfl, rfl⟩

@[simp] theorem next_timer (s : Clocks) (op : ClockOp) : (s.next op).timer = s.timer := by
  cases op with
  | settime p clk tp tsc =>
    rcases doClockSettime_cases s p clk tp tsc with h | ⟨e, h⟩
    · rw [next, h]
    · rw [next, h, vdsoDataUpdate]
  | adjtime p clk tx writable tsc =>
    rcases doClockAdjtime_cases s p clk tx writable tsc with h | ⟨ktx, -, h⟩
    · rw [next, h]
    · rw [next, h, adjusted]

theorem ScaleShared.next (h : s.ScaleShared) (op : ClockOp) : (s.next op).ScaleShared := by
  cases op with
  | settime p clk tp tsc =>
    rcases doClockSettime_cases s p clk tp tsc with h' | ⟨e, h'⟩
    · rwa [Clocks.next, h']
    · rw [Clocks.next, h']
      exact ⟨rfl, rfl, rfl⟩
  | adjtime p clk tx writable tsc =>
    rcases doClockAdjtime_cases s p clk tx writable tsc with h' | ⟨ktx, -, h'⟩
    · rwa [Clocks.next, h']
    · rw [Clocks.next, h']
      exact h

/-- A call that does not shift the epoch keeps the offset of the page that of the wall clock. -/
theorem OffsetShared.next (h : s.OffsetShared) {op : ClockOp} (hop : op.LeavesEpoch) :
    (s.next op).OffsetShared := by
  cases op with
  | settime p clk tp tsc =>
    rcases doClockSettime_cases s p clk tp tsc with h' | ⟨e, h'⟩
    · rwa [Clocks.next, h']
    · rw [Clocks.next, h']
      rfl
  | adjtime p clk tx writable tsc =>
    rcases doClockAdjtime_cases s p clk tx writable tsc with h' | ⟨ktx, rfl, h'⟩
    · rwa [Clocks.next, h']
    · rw [Clocks.next, h', OffsetShared, adjusted]
      by_cases hset : ktx.has ADJ_SETOFFSET = true
      · rw [if_pos hset, hop hset, add_zero, int64, int64, Int.bmod_mul_bmod]
        exact h
      · rw [if_neg hset]
        exact h

/-! ## What the reads give -/

variable {p : ClockCaller} {tsc : ℕ}

theorem read_monotonic {path : ReadPath} (hs : s.ScaleShared)
    (hc : s.timer.Calibrated) (hp : p.timeNs = none) (h0 : s.timer.bootTsc ≤ tsc)
    (ht : tsc < 2 ^ 64) (he : s.timer.Exact path (tsc - s.timer.bootTsc)) :
    s.read path p .monotonic tsc = .ok (toTimespec (s.timer.exactNs (tsc - s.timer.bootTsc))) ∧
      ∀ x ∈ s.products path tsc, x < 2 ^ 64 := by
  obtain ⟨hm, hsh, hb⟩ := hs
  have hword : int64 (s.timer.exactNs (tsc - s.timer.bootTsc)) =
      s.timer.exactNs (tsc - s.timer.bootTsc) := by
    have := he.1
    exact Int.bmod_eq_of_le (by omega) (by omega)
  cases path with
  | syscall =>
    rw [← Timer.delta_eq h0 ht] at he hword ⊢
    obtain ⟨hval, hprod⟩ := Timer.hrtimerNowNs_eq hc he
    refine ⟨?_, hprod⟩
    simp [read, doClockGettime, hval, hword, hp, timeNsAdjustRead, bind, Except.bind]
  | vdso =>
    have hfit : s.timer.exactNs (tsc - s.timer.bootTsc) < 2 ^ 64 := he.1.trans (by decide)
    refine ⟨?_, ?_⟩
    · simp [read, vdsoClockGettime, hm, hsh, hb, hc.mult_pos.ne', h0.not_gt,
        Timer.scaleTscToNs_eq hc hfit, hword]
    · simpa only [products, hm, hsh, hb] using Timer.scaleProducts_lt hc hfit

/-- At a counter value where both reads are exact they give one wall time. -/
theorem read_realtime (hs : s.ScaleShared) (ho : s.OffsetShared)
    (hc : s.timer.Calibrated) (h0 : s.timer.bootTsc ≤ tsc) (ht : tsc < 2 ^ 64)
    (he : s.timer.Exact .syscall (tsc - s.timer.bootTsc)) :
    ∃ t, s.read .syscall p .realtime tsc = .ok t ∧ s.read .vdso p .realtime tsc = .ok t := by
  obtain ⟨hm, hsh, hb⟩ := hs
  have hfit : s.timer.exactNs (tsc - s.timer.bootTsc) < 2 ^ 64 := he.1.trans (by decide)
  have hscale := Timer.scaleTscToNs_eq hc hfit
  rw [← Timer.delta_eq h0 ht] at he
  have hval := (Timer.hrtimerNowNs_eq hc he).1
  rw [Timer.delta_eq h0 ht] at hval
  refine ⟨toTimespec (int64 (int64 (s.timer.exactNs (tsc - s.timer.bootTsc)) +
    int64 (s.rtcEpochSec * 1000000000))), ?_, ?_⟩
  · simp [read, doClockGettime, hval, bind, Except.bind]
  · simp [read, vdsoClockGettime, hm, hsh, hb, hc.mult_pos.ne', h0.not_gt, hscale, ho.symm]

end Clocks

theorem toTimespec_notAfter {a b : ℕ} (h : a ≤ b) : (toTimespec a).NotAfter (toTimespec b) := by
  have ha : ¬((a : ℤ) - (a : ℤ).tdiv 1000000000 * 1000000000 < 0) := by
    rw [Int.tdiv_eq_ediv_of_nonneg (by omega)]
    omega
  have hb : ¬((b : ℤ) - (b : ℤ).tdiv 1000000000 * 1000000000 < 0) := by
    rw [Int.tdiv_eq_ediv_of_nonneg (by omega)]
    omega
  simp only [toTimespec, if_neg ha, if_neg hb, Timespec.NotAfter]
  rw [Int.tdiv_eq_ediv_of_nonneg (by omega), Int.tdiv_eq_ediv_of_nonneg (by omega)]
  omega

/-- **Both ways read one clock.**  After every sequence of calls that set the time, two exact
reads of the monotonic clock, by either way, at counter values that do not decrease do not
decrease either, and no product wraps; after calls that leave the epoch alone the wall time is
the same by both ways. -/
theorem system_time_is_one_clock {hz bootTsc : ℕ} (epoch : ℤ) (hlo : 10 ^ 8 ≤ hz)
    (hhi : hz ≤ 10 ^ 10)
    (ops ops' : List ClockOp) {p p' : ClockCaller} (hp : p.timeNs = none) (hp' : p'.timeNs = none)
    (path path' : ReadPath) {tsc tsc' : ℕ} (h0 : bootTsc ≤ tsc) (hle : tsc ≤ tsc')
    (ht : tsc' < 2 ^ 64) : let c := timerInit hz bootTsc
    let s := run Clocks.next (Clocks.boot hz bootTsc epoch) ops
    let s' := run Clocks.next s ops'
    (c.Exact path (tsc - bootTsc) → c.Exact path' (tsc' - bootTsc) →
      (∃ t t', s.read path p .monotonic tsc = .ok t ∧ s'.read path' p' .monotonic tsc' = .ok t' ∧
        t.NotAfter t') ∧ ∀ x ∈ s.products path tsc, x < 2 ^ 64) ∧
    ((∀ op ∈ ops, op.LeavesEpoch) → c.Exact .syscall (tsc - bootTsc) →
      ∃ t, s.read .syscall p .realtime tsc = .ok t ∧ s.read .vdso p .realtime tsc = .ok t) := by
  intro c s s'
  have hc : c.Calibrated := timerInit_calibrated hlo hhi
  have hkeep : ∀ s op, s.ScaleShared ∧ s.timer = c →
      (Clocks.next s op).ScaleShared ∧ (Clocks.next s op).timer = c := by
    intro s op h
    exact ⟨h.1.next op, (Clocks.next_timer s op).trans h.2⟩
  obtain ⟨hs, htimer⟩ : s.ScaleShared ∧ s.timer = c := run_keeps hkeep ⟨⟨rfl, rfl, rfl⟩, rfl⟩ ops
  obtain ⟨hs', htimer'⟩ : s'.ScaleShared ∧ s'.timer = c := run_keeps hkeep ⟨hs, htimer⟩ ops'
  have hb : s.timer.bootTsc = bootTsc := by rw [htimer]; rfl
  have hb' : s'.timer.bootTsc = bootTsc := by rw [htimer']; rfl
  have ht0 : tsc < 2 ^ 64 := hle.trans_lt ht
  rw [← htimer] at hc ⊢
  have hc' : s'.timer.Calibrated := by rwa [htimer', ← htimer]
  rw [← hb] at h0 ⊢
  refine ⟨fun he he' => ?_, fun hops he => ?_⟩
  · rw [hb, htimer, ← htimer', ← hb'] at he'
    obtain ⟨hread, hprod⟩ := Clocks.read_monotonic hs hc hp h0 ht0 he
    obtain ⟨hread', -⟩ := Clocks.read_monotonic hs' hc' hp' (by omega) ht he'
    refine ⟨⟨_, _, hread, hread', toTimespec_notAfter ?_⟩, hprod⟩
    rw [htimer', ← htimer]
    exact Timer.exactNs_mono (by omega)
  · have ho : s.OffsetShared :=
      run_invariant (fun s op h hop => h.next hop) rfl (along_of_forall hops)
    exact Clocks.read_realtime hs ho hc h0 ht0 he

theorem timerInit_eq_of_calc {hz mult shift : ℕ} (bootTsc : ℕ) (hhz : hz / 1000 ≠ 0)
    (h : calcMultShift hz 1000000000 600 = (mult, shift)) :
    timerInit hz bootTsc = ⟨mult, shift, bootTsc, hz / 1000⟩ := by
  rw [timerInit, if_neg hhz, h]

theorem calcMultShift_2400MHz : calcMultShift 2400000000 1000000000 600 = (6990507, 24) := by
  simp [calcMultShift, sftaccAfter, searchShift, scaleAt, Nat.shiftLeft_eq,
    Nat.shiftRight_eq_div_pow]

theorem calcMultShift_100MHz : calcMultShift 100000000 1000000000 600 = (167772160, 24) := by
  simp [calcMultShift, sftaccAfter, searchShift, scaleAt, Nat.shiftLeft_eq,
    Nat.shiftRight_eq_div_pow]

/-- A process of root in the initial time namespace. -/
def rootCaller : ClockCaller := ⟨0, 0, none⟩

/-- A system call, then a read without one after the time was set. -/
theorem system_time_is_one_clock_after_settime :
    let s := run Clocks.next (Clocks.boot 2400000000 0 0)
      [.settime rootCaller .realtime (.val ⟨1700000000, 0⟩) 7200000000]
    (∃ t t', s.read .syscall rootCaller .monotonic 8640000000 = .ok t ∧
      s.read .vdso rootCaller .monotonic 8640000001 = .ok t' ∧ t.NotAfter t') ∧
    ∃ t, s.read .syscall rootCaller .realtime 8640000000 = .ok t ∧
      s.read .vdso rootCaller .realtime 8640000000 = .ok t := by
  have hns : rootCaller.timeNs = none := rfl
  have hone := system_time_is_one_clock 0 (show 10 ^ 8 ≤ 2400000000 by decide) (by decide)
    [.settime rootCaller .realtime (.val ⟨1700000000, 0⟩) 7200000000] [] hns hns .syscall .vdso
    (Nat.zero_le 8640000000) (Nat.le_succ _) (by decide)
  rw [timerInit_eq_of_calc 0 (by decide) calcMultShift_2400MHz] at hone
  have hsys : (⟨6990507, 24, 0, 2400000000 / 1000⟩ : Timer).Exact .syscall 8640000000 :=
    ⟨by decide, fun _ => .inl (by decide)⟩
  exact ⟨(hone.1 hsys ⟨by decide, nofun⟩).1, hone.2 (by simp [ClockOp.LeavesEpoch]) hsys⟩

/-- **The clocks come apart.**  At 2.4 GHz the system call steps back when its formula changes;
at 100 MHz a product of the vDSO wraps; `ADJ_SETOFFSET` moves only one of the wall clocks. -/
theorem clocks_come_apart :
    (∃ t t', (Clocks.boot 2400000000 0 0).read .syscall rootCaller .monotonic
      2638827780832 = .ok t ∧
      (Clocks.boot 2400000000 0 0).read .syscall rootCaller .monotonic 2638827780833 = .ok t' ∧
      ¬t.NotAfter t') ∧ (∃ x ∈ (Clocks.boot 100000000 0 0).products .vdso (2 ^ 62), 2 ^ 64 ≤ x) ∧
    (let tx : Timex := ⟨ADJ_SETOFFSET, 0, 0, 0, 0, 0, 0, 0, 0, 1, 0, 0, 0⟩
     let s := run Clocks.next (Clocks.boot 2400000000 0 0)
       [.adjtime rootCaller .realtime (.val tx) true 0]
     s.read .syscall rootCaller .realtime 0 = .ok ⟨1, 0⟩ ∧
       s.read .vdso rootCaller .realtime 0 = .ok ⟨0, 0⟩) := by
  simp only [Clocks.boot, timerInit_eq_of_calc 0 (by decide) calcMultShift_2400MHz,
    timerInit_eq_of_calc 0 (by decide) calcMultShift_100MHz]
  refine ⟨⟨⟨1099, 511627775⟩, ⟨1099, 511575347⟩, by decide, by decide, by decide⟩, ?_, by decide,
    by decide⟩
  -- the high half of the ticks, scaled and shifted to the left
  exact ⟨2 ^ 30 * 167772160 <<< 8, .tail _ (.tail _ (.head _)), by decide⟩

end CosmoRT.Sys
