import CosmoRT.Abi
import CosmoRT.Lib.Ring
import CosmoRT.Net.Segment

/-!
# A TCP connection: `net/tcp.c` and `net/tcp6.c`

The state of one connection and the functions that change it: the receive ring and the
out-of-order queue, congestion control, the input paths for IPv4 and IPv6, and
`net_tcp_send`, `net_tcp_recv` and `net_tcp_retransmit`.  Sequence numbers are 32-bit words and
wrap.  What is sent is a list of segments.

The clock and the outcome of allocations come from outside (`TcpEnv`).  A call runs to its end
before the next one starts.  Left out: fast open cookies, keep-alive, waking of sleepers, the
hash table of connections, the bytes of the frame that is sent.
-/

namespace CosmoRT.Net

open Lib BitVec
open BitVec (ofNat)

/-- Sizes, times in milliseconds and limits, under the names of the source. -/
def MSS : ℕ := 1460

def NET_TCP_RXBUF : ℕ := 65536

def NET_TCP_OOO_MAX : ℕ := 64

def TCP_RTO_INITIAL_MS : ℕ := 1000

def TCP_RTO_DATA_MS : ℕ := 200

def TCP_RTO_MAX_MS : ℕ := 8000

def NET_TCP_MAX_RTO_MS : ℕ := 60000

def TCP_MAX_RETRIES : ℕ := 5

def RCV_WSCALE : ℕ := 7

/-- What the surroundings decide during a call. -/
structure TcpEnv where
  /-- `timer_ms()`. -/
  now : BitVec 64
  /-- Whether `timer_wheel_add` finds memory. -/
  timer : Bool
  /-- Whether `slab_alloc(&ooo_slab)` finds memory. -/
  slab : Bool
  deriving DecidableEq, Repr

/-- `(int32_t)(a - b) < 0`. -/
def before (a b : BitVec 32) : Bool := (a - b).slt 0

/-- `(int32_t)(a - b) > 0`. -/
def after (a b : BitVec 32) : Bool := (0 : BitVec 32).slt (a - b)

theorem after_iff {a b : BitVec 32} : after a b ↔ 0 < (a - b).toNat ∧ (a - b).toNat < 2 ^ 31 := by
  rw [after, slt_eq_decide, decide_eq_true_eq, toInt_eq_toNat_cond, toInt_eq_toNat_cond]
  simp only [ofNat_eq_ofNat, toNat_ofNat]
  split <;> omega

/-! ## The receive ring -/

/-- `tcp_rxring_t`; `buf` may be missing. -/
structure RxRing where
  buf : Option (List UInt8)
  head : ℕ
  tail : ℕ
  deriving DecidableEq, Repr

/-- `rxring_used`. -/
def rxringUsed (r : RxRing) : ℕ := (r.tail + NET_TCP_RXBUF - r.head) % NET_TCP_RXBUF

/-- `rxring_free`: one cell stays empty. -/
def rxringFree (r : RxRing) : ℕ := NET_TCP_RXBUF - 1 - rxringUsed r

/-- `rxring_push`: how many bytes were stored. -/
def rxringPush (r : RxRing) (data : List UInt8) : ℕ × RxRing :=
  match r.buf with
  | none => (0, r)
  | some buf =>
    let n := if data.length > rxringFree r then rxringFree r else data.length
    if n = 0 then (0, r)
    else
      (n, { r with
        buf := some (storeAll (data.take n) r.tail buf)
        tail := (r.tail + n) % NET_TCP_RXBUF })

/-- `rxring_pop`: the bytes. -/
def rxringPop (r : RxRing) (len : ℤ) : List UInt8 × RxRing :=
  match r.buf with
  | none => ([], r)
  | some buf =>
    let n := if len > rxringUsed r then rxringUsed r else len.toNat
    if n = 0 then ([], r)
    else (window buf r.head n, { r with head := (r.head + n) % NET_TCP_RXBUF })

/-! ## Congestion control -/

/-- The fields of `net_tcp_t` that congestion control owns. -/
structure Congestion where
  cwnd : BitVec 32
  ssthresh : BitVec 32
  dupAckCount : BitVec 16
  inRecovery : Bool
  recoverySeq : BitVec 32
  tEpoch : BitVec 64
  wMax : BitVec 32
  wLast : BitVec 32
  k : BitVec 32
  deriving DecidableEq, Repr

/-- The three loops of `integer_cbrt`. -/
def cbrtGrow (x : ℕ) : ℕ → ℕ → ℕ
  | 0, g => g
  | fuel + 1, g => if g * g * g < x then (if g > 100000 then g else cbrtGrow x fuel (2 * g)) else g

/-- Newton steps from above. -/
def cbrtNewton (x : ℕ) : ℕ → ℕ → ℕ
  | 0, g => g
  | n + 1, g =>
    if g * g = 0 then g
    else
      let next := (2 * g + x / (g * g)) / 3
      if next ≥ g then g else cbrtNewton x n next

/-- The last steps, by one. -/
def cbrtRefine (x : ℕ) : ℕ → ℕ → ℕ
  | 0, g => g
  | fuel + 1, g => if (g + 1) * (g + 1) * (g + 1) ≤ x then cbrtRefine x fuel (g + 1) else g

/-- `integer_cbrt`. -/
def integerCbrt (x : ℕ) : ℕ :=
  if x = 0 then 0 else cbrtRefine x x (cbrtNewton x 32 (cbrtGrow x 64 1))

/-- `cubic_k_ms`. -/
def cubicKMs (wMax : BitVec 32) : BitVec 32 :=
  let wSeg := wMax.toNat / MSS
  let wSeg := if wSeg = 0 then 1 else wSeg
  ofNat 32 (integerCbrt (wSeg * 750))

/-- `cubic_w`. -/
def cubicW (t : BitVec 64) (wMax k : BitVec 32) : BitVec 32 :=
  let dt := t.toInt - k.toNat
  let d := if dt.natAbs > 10000 then 10000 else dt.natAbs
  let inc := MSS * 4 * (d * d * d) / 10000000000
  if dt < 0 then
    if inc ≥ wMax.toNat then ofNat 32 MSS else wMax - ofNat 32 inc
  else
    let w := wMax.toNat + inc
    if w > 0x7FFFFFFF then 0x7FFFFFFF#32 else ofNat 32 w

/-- `reno_friendly_w`; the product is a 64-bit one. -/
def renoFriendlyW (wMax : BitVec 32) (rtoMs : ℕ) (t : BitVec 64) : BitVec 32 :=
  let rtt := if rtoMs = 0 then 100 else rtoMs
  let w := wMax.toNat * 307 / 1024 + 808 * t.toNat * MSS % 2 ^ 64 / (1000 * rtt)
  let w := if w > 0x7FFFFFFF then 0x7FFFFFFF else w
  ofNat 32 (if w < MSS then MSS else w)

/-- `cc_init`. -/
def ccInit (c : Congestion) : Congestion where
  cwnd := ofNat 32 (10 * MSS)
  ssthresh := 0x7FFFFFFF#32
  dupAckCount := 0
  inRecovery := false
  recoverySeq := c.recoverySeq
  tEpoch := 0
  wMax := 0
  wLast := 0
  k := 0

section

variable (env : TcpEnv)

/-- `cc_on_ack`, for an acknowledgement of new data. -/
def ccOnAck (c : Congestion) (sndUna : BitVec 32) (rtoMs : ℕ) : Congestion :=
  if c.inRecovery then
    if before sndUna c.recoverySeq then c
    else { c with inRecovery := false, cwnd := c.ssthresh, dupAckCount := 0 }
  else
    let c := { c with dupAckCount := 0 }
    if c.cwnd < c.ssthresh then { c with cwnd := c.cwnd + ofNat 32 MSS }
    else
      let c :=
        if c.tEpoch = 0 then
          let wMax := if c.wMax = 0 then c.cwnd else c.wMax
          { c with tEpoch := env.now, wMax := wMax, k := cubicKMs wMax }
        else c
      let t := env.now - c.tEpoch
      let wCub := cubicW t c.wMax c.k
      let wTcp := renoFriendlyW c.wMax rtoMs t
      let target := if wTcp < wCub then wCub else wTcp
      if c.cwnd < target then { c with cwnd := target }
      else
        let inc := MSS * MSS / c.cwnd.toNat
        { c with cwnd := c.cwnd + ofNat 32 (if inc < 1 then 1 else inc) }

/-- `cc_on_loss`. -/
def ccOnLoss (c : Congestion) : Congestion :=
  let wMax :=
    if c.wLast ≠ 0 ∧ c.cwnd < c.wLast then ofNat 32 (c.cwnd.toNat * (1024 + 717) / 2048)
    else c.cwnd
  let ssthresh := ofNat 32 (c.cwnd.toNat * 717 / 1024)
  let ssthresh := if ssthresh.toNat < 2 * MSS then ofNat 32 (2 * MSS) else ssthresh
  { c with
    wMax := wMax
    wLast := c.cwnd
    tEpoch := env.now
    k := cubicKMs wMax
    ssthresh := ssthresh
    cwnd := ssthresh }

/-! ## The connection -/

/-- `enum tcp_state`. -/
inductive TcpState where
  | closed | synSent | synRcvd | established | finWait1 | finWait2 | closeWait | closing | lastAck
  | timeWait
  deriving DecidableEq, Repr

/-- `state >= TCP_ESTABLISHED`. -/
def TcpState.synchronized : TcpState → Bool
  | .closed | .synSent | .synRcvd => false
  | _ => true

/-- `tcp_ooo_seg_t`. -/
structure OooSeg where
  seq : BitVec 32
  data : List UInt8
  deriving DecidableEq, Repr

/-- `net_tcp_t`.  `ooo_count`, `sack_count` and `retx_len` are lengths. -/
structure NetTcp where
  sndNxt : BitVec 32
  sndUna : BitVec 32
  rcvNxt : BitVec 32
  sndWnd : BitVec 32
  state : TcpState
  rx : RxRing
  ooo : List OooSeg
  cc : Congestion
  sack : List (BitVec 32 × BitVec 32)
  sndWscale : ℕ
  rcvWscale : ℕ
  wscaleOk : Bool
  rtoMs : ℕ
  retxBuf : List UInt8
  retxCount : ℕ
  retxArmed : Bool
  gotFin : Bool
  gotRst : Bool
  connectErr : ℤ
  tsEnabled : Bool
  tsRecent : BitVec 32
  ecnEnabled : Bool
  ecnCePending : Bool
  ecnCwrSent : Bool
  deriving DecidableEq, Repr

/-- A segment that was sent. -/
structure Emit where
  seq : BitVec 32
  ack : BitVec 32
  flags : UInt8
  wnd : BitVec 16
  sack : List (BitVec 32 × BitVec 32)
  ts : Option (BitVec 32 × BitVec 32)
  data : List UInt8
  deriving DecidableEq, Repr

section

variable (c : NetTcp)

/-- The window that `send_tcp_opts` advertises. -/
def advertised : BitVec 16 :=
  let free := rxringFree c.rx
  let wnd :=
    if c.wscaleOk then ofNat 16 (free / 2 ^ c.rcvWscale)
    else ofNat 16 (if free > 65535 then 65535 else free)
  if wnd = 0 ∧ free > 0 then 1 else wnd

/-- `send_tcp` for segments other than SYNs: the sequence number is `snd_nxt`, and CWR is sent
once. -/
def sendTcp (flags : UInt8) (data : List UInt8) : NetTcp × Emit :=
  let ece : UInt8 := if c.ecnEnabled && c.ecnCePending then 0x40 else 0
  let cwr : UInt8 := if c.ecnEnabled && c.ecnCwrSent then 0x80 else 0
  ({ c with ecnCwrSent := if c.ecnEnabled then false else c.ecnCwrSent },
    { seq := c.sndNxt
      ack := c.rcvNxt
      flags := flags ||| ece ||| cwr
      wnd := advertised c
      sack := if flags &&& 0x10 ≠ 0 ∧ data = [] then c.sack.take 4 else []
      ts := if c.tsEnabled then some (env.now.setWidth 32, c.tsRecent) else none
      data := data })

/-- `tcp_arm_retx`. -/
def tcpArmRetx : NetTcp :=
  if c.retxArmed then c
  else
    { c with
      rtoMs := if c.rtoMs = 0 then TCP_RTO_DATA_MS else c.rtoMs
      retxArmed := env.timer }

/-- `tcp_cancel_retx`. -/
def tcpCancelRetx : NetTcp :=
  if c.retxArmed then { c with retxArmed := false, retxCount := 0, retxBuf := [] } else c

/-! ## Options -/

/-- One option of `parse_tcp_options_ex`; beside the connection, the last timestamp. -/
def connOption (x : NetTcp × Option (BitVec 32 × BitVec 32)) (o : List UInt8) :
    NetTcp × Option (BitVec 32 × BitVec 32) :=
  let c := x.1
  let olen := (optByte o 1).toNat
  if optByte o 0 = 3 ∧ olen = 3 then
    ({ c with
        sndWscale := if (optByte o 2).toNat > 14 then 14 else (optByte o 2).toNat
        wscaleOk := true }, x.2)
  else if optByte o 0 = 5 ∧ olen ≥ 10 then
    let nblocks := if (olen - 2) / 8 > 4 then 4 else (olen - 2) / 8
    ({ c with sack := (List.range nblocks).map fun j =>
      (opt32 o (2 + j * 8), opt32 o (6 + j * 8)) }, x.2)
  else if optByte o 0 = 8 ∧ olen = 10 then
    let tsval := opt32 o 2
    ({ c with
        tsEnabled := true
        tsRecent := if before tsval c.tsRecent then c.tsRecent else tsval },
      some (tsval, opt32 o 6))
  else x

/-- `parse_tcp_options_ex`. -/
def parseTcpOptions (opts : List UInt8) : NetTcp × Option (BitVec 32 × BitVec 32) :=
  parseOptions connOption (c, none) opts

/-! ## The out-of-order queue -/

/-- The merging loop of `sack_update`. -/
def sackMerge (left right : BitVec 32) :
    List (BitVec 32 × BitVec 32) → Option (List (BitVec 32 × BitVec 32))
  | [] => none
  | b :: bs =>
    if !after left b.2 && !before right b.1 then
      some ((if before left b.1 then left else b.1, if after right b.2 then right else b.2) :: bs)
    else (sackMerge left right bs).map (b :: ·)

/-- `sack_update`. -/
def sackUpdate (sack : List (BitVec 32 × BitVec 32)) (seq : BitVec 32) (len : ℕ) :
    List (BitVec 32 × BitVec 32) :=
  let right := seq + ofNat 32 len
  match sackMerge seq right sack with
  | some merged => merged
  | none => if sack.length < 4 then sack ++ [(seq, right)] else sack.set 3 (seq, right)

/-- `sack_advance`. -/
def sackAdvance (sack : List (BitVec 32 × BitVec 32)) (ack : BitVec 32) :
    List (BitVec 32 × BitVec 32) := sack.filter fun b => after b.2 ack

/-- The place of a segment in the queue; `none` if its number is there already. -/
def oooPlace (s : OooSeg) : List OooSeg → Option (List OooSeg)
  | [] => some [s]
  | a :: q =>
    if before a.seq s.seq then (oooPlace s q).map (a :: ·)
    else if a.seq = s.seq then none
    else some (s :: a :: q)

/-- `ooo_insert`. -/
def oooInsert (seq : BitVec 32) (data : List UInt8) : NetTcp :=
  if data.length = 0 ∨ data.length > MSS then c
  else if c.ooo.length ≥ NET_TCP_OOO_MAX then c
  else
    match oooPlace ⟨seq, data⟩ c.ooo with
    | none => c
    | some ooo =>
      if env.slab then { c with ooo := ooo, sack := sackUpdate c.sack seq data.length } else c

end

end

/-- The loop of `ooo_drain`: `rcv_nxt` moves on by the whole segment, whatever the ring took. -/
def drainLoop : List OooSeg → RxRing → BitVec 32 → List OooSeg × RxRing × BitVec 32
  | [], rx, rcvNxt => ([], rx, rcvNxt)
  | s :: q, rx, rcvNxt =>
    if s.seq = rcvNxt then
      drainLoop q (rxringPush rx s.data).2 (rcvNxt + ofNat 32 s.data.length)
    else (s :: q, rx, rcvNxt)

/-- `ooo_drain`. -/
def oooDrain (c : NetTcp) : NetTcp :=
  let r := drainLoop c.ooo c.rx c.rcvNxt
  { c with ooo := r.1, rx := r.2.1, rcvNxt := r.2.2, sack := sackAdvance c.sack r.2.2 }

end CosmoRT.Net
