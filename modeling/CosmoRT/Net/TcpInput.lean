import CosmoRT.Lib.Run
import CosmoRT.Net.Tcp

/-!
# What reaches a TCP connection

The calls that act on a connection: `tcp_input` for a segment that finds its connection,
`process_v6_segment` for the same over IPv6, `net_tcp_send`, `net_tcp_recv` and the timer's
`net_tcp_retransmit`.  Each yields the connection after the call and the
segments it sent, in order.

The two input paths differ in more than addresses.  The IPv6 one reads no options, so it has
neither timestamps nor window scaling; it keeps no retransmission timer, no duplicate count and
no out-of-order queue.
-/

namespace CosmoRT.Net

/-- `send_tcp(c, flags, 0, 0)` as a call of its own. -/
def sendEmpty (env : TcpEnv) (c : NetTcp) (flags : UInt8) : NetTcp × List Emit :=
  ((sendTcp env c flags []).1, [(sendTcp env c flags []).2])

/-- One piece of a call after another. -/
def andThen (x : NetTcp × List Emit) (f : NetTcp → NetTcp × List Emit) : NetTcp × List Emit :=
  ((f x.1).1, x.2 ++ (f x.1).2)

/-- `send_syn(c, 0x02)`: the number is `snd_nxt`, CWR and ECE are set. -/
def sendSyn (env : TcpEnv) (c : NetTcp) : Emit where
  seq := c.sndNxt
  ack := c.rcvNxt
  flags := 0xC2
  wnd := advertised c
  sack := []
  ts := some (env.now.setWidth 32, 0)
  data := []

/-- A window field under the negotiated scale. -/
def scaledWnd (c : NetTcp) (wnd : BitVec 16) : BitVec 32 :=
  if c.wscaleOk then wnd.setWidth 32 <<< c.sndWscale else wnd.setWidth 32

/-! ## Opening -/

/-- A `net_tcp_t` after `mzero`. -/
def zeroTcp : NetTcp where
  sndNxt := 0
  sndUna := 0
  rcvNxt := 0
  sndWnd := 0
  state := .closed
  rx := ⟨none, 0, 0⟩
  ooo := []
  cc := ⟨0, 0, 0, false, 0, 0, 0, 0, 0⟩
  sack := []
  sndWscale := 0
  rcvWscale := 0
  wscaleOk := false
  rtoMs := 0
  retxBuf := []
  retxCount := 0
  retxArmed := false
  gotFin := false
  gotRst := false
  connectErr := 0
  tsEnabled := false
  tsRecent := 0
  ecnEnabled := false
  ecnCePending := false
  ecnCwrSent := false

section

variable (env : TcpEnv) (c : NetTcp)

/-- `net_tcp_connect` and `net_tcp6_connect`: `iss` is the random number, and `resolved` says
whether the peer's hardware address was found.  A missing ring goes unnoticed. -/
def netTcpConnect (iss : BitVec 32) (pages : Option (List UInt8))
    (resolved : Bool) : ℤ × NetTcp × List Emit :=
  if c.state.synchronized then (0, c, [])
  else if c.state = .synSent then (-11, c, [])
  else if c.gotRst then (-1, c, [])
  else
    let c := { zeroTcp with
      rx := ⟨pages, 0, 0⟩
      sndNxt := iss
      sndUna := iss
      rcvWscale := RCV_WSCALE
      cc := ccInit zeroTcp.cc }
    if !resolved then (-1, c, [])
    else
      let c := { c with state := .synSent }
      (-11, tcpArmRetx env { c with rtoMs := TCP_RTO_INITIAL_MS }, [sendSyn env c])

/-! ## `tcp_input` -/

/-- The PAWS test.  It runs on the connection that the options have already changed. -/
def pawsRejects (c : NetTcp) (ts : Option (BitVec 32 × BitVec 32)) (g : Segment) : Bool :=
  match ts with
  | none => false
  | some t => c.tsEnabled && c.state.synchronized && before t.1 c.tsRecent && !g.has 0x04

/-- The CE mark of the IP header. -/
def ecnMark (c : NetTcp) (ce : Bool) : NetTcp :=
  if c.ecnEnabled && c.state.synchronized && ce then { c with ecnCePending := true } else c

/-- The branch for a SYN-ACK in `SYN_SENT`; the acknowledgement number is not looked at. -/
def synAck4 (g : Segment) : NetTcp × List Emit :=
  let c := { c with rcvNxt := g.seq + 1, sndNxt := c.sndNxt + 1, sndUna := c.sndNxt + 1 }
  let c := (parseTcpOptions c g.opts).1
  let c := { c with rcvWscale := if c.wscaleOk then RCV_WSCALE else c.rcvWscale }
  let c := { c with sndWnd := scaledWnd c g.wnd, ecnEnabled := g.flags &&& 0xC0 = 0x40 }
  let r := sendEmpty env (tcpCancelRetx c) 0x10
  ({ r.1 with state := .established, connectErr := 0, cc := ccInit r.1.cc }, r.2)

/-- The branch for a reset. -/
def reset4 (c : NetTcp) : NetTcp :=
  { tcpCancelRetx c with state := .closed, gotRst := true, connectErr := -1 }

/-- The round-trip time taken from the echoed timestamp. -/
def measureRto (ts : Option (BitVec 32 × BitVec 32)) : NetTcp :=
  match ts with
  | none => c
  | some t =>
    let rtt := (env.now - t.2.setWidth 64).toNat
    if c.tsEnabled ∧ t.2 ≠ 0 ∧ 0 < rtt ∧ rtt < 120000 then
      let rto := if rtt * 2 < TCP_RTO_DATA_MS then TCP_RTO_DATA_MS else rtt * 2
      { c with rtoMs := if rto > NET_TCP_MAX_RTO_MS then NET_TCP_MAX_RTO_MS else rto }
    else c

/-- The timer after an acknowledgement: off when nothing is outstanding, else at its start. -/
def ackTimer (c : NetTcp) : NetTcp :=
  if c.sndUna = c.sndNxt then tcpCancelRetx c
  else { c with retxCount := 0, rtoMs := TCP_RTO_DATA_MS }

/-- ECE and CWR of an acknowledgement. -/
def ackEcn (g : Segment) : NetTcp :=
  let c :=
    if c.ecnEnabled && g.has 0x40 && !c.ecnCwrSent then
      { c with cc := ccOnLoss env c.cc, ecnCwrSent := true }
    else c
  if c.ecnEnabled && g.has 0x80 then { c with ecnCePending := false } else c

/-- An acknowledgement ahead of `snd_una`; how far ahead is not looked at. -/
def newAck (ts : Option (BitVec 32 × BitVec 32)) (g : Segment) : NetTcp :=
  let c := ackEcn env (ackTimer (measureRto env { c with sndUna := g.ack } ts)) g
  { c with cc := ccOnAck env c.cc c.sndUna c.rtoMs }

/-- A duplicate acknowledgement.  The third one sends a segment without data. -/
def dupAck : NetTcp × List Emit :=
  let cc := { c.cc with dupAckCount := c.cc.dupAckCount + 1 }
  if !cc.inRecovery && cc.dupAckCount == 3 then
    let cc := ccOnLoss env cc
    let cc := { cc with
      inRecovery := true
      recoverySeq := c.sndNxt
      cwnd := cc.cwnd + BitVec.ofNat 32 (3 * MSS) }
    sendEmpty env { c with cc := cc } 0x10
  else if cc.inRecovery then
    ({ c with cc := { cc with cwnd := cc.cwnd + BitVec.ofNat 32 MSS } }, [])
  else ({ c with cc := cc }, [])

/-- The changes of state that an acknowledgement of everything sent makes. -/
def ackState4 (c : NetTcp) (ack : BitVec 32) : NetTcp :=
  if c.state = .finWait1 ∧ ack = c.sndNxt then { c with state := .finWait2 }
  else if c.state = .closing ∧ ack = c.sndNxt then { c with state := .timeWait }
  else if c.state = .lastAck ∧ ack = c.sndNxt then { tcpCancelRetx c with state := .closed }
  else c

/-- "ACK processing" of `tcp_input`. -/
def ackInput4 (ts : Option (BitVec 32 × BitVec 32)) (g : Segment) : NetTcp × List Emit :=
  if g.has 0x10 then
    let r :=
      if after g.ack c.sndUna then (newAck env c ts g, [])
      else if g.ack = c.sndUna ∧ g.payload = [] then dupAck env c
      else (c, [])
    (ackState4 { r.1 with sndWnd := scaledWnd r.1 g.wnd } g.ack, r.2)
  else (c, [])

/-- "Data" of `tcp_input`. -/
def dataInput4 (g : Segment) : NetTcp × List Emit :=
  if g.payload = [] then (c, [])
  else if g.seq = c.rcvNxt then
    let p := rxringPush c.rx g.payload
    sendEmpty env (oooDrain { c with rx := p.2, rcvNxt := g.seq + BitVec.ofNat 32 p.1 }) 0x10
  else if after g.seq c.rcvNxt then sendEmpty env (oooInsert env c g.seq g.payload) 0x10
  else (c, [])

/-- "FIN", the same in both input paths. -/
def finInput (g : Segment) : NetTcp × List Emit :=
  if !g.has 0x01 then (c, [])
  else if g.seq + BitVec.ofNat 32 g.payload.length ≠ c.rcvNxt then (c, [])
  else
    let c := { c with gotFin := true, rcvNxt := c.rcvNxt + 1 }
    match c.state with
    | .established => sendEmpty env { c with state := .closeWait } 0x10
    | .finWait1 => sendEmpty env { c with state := .closing } 0x10
    | .finWait2 => sendEmpty env { c with state := .timeWait } 0x10
    | _ => (c, [])

/-- `tcp_input` from the options on; `ce` is the CE mark of the IP header. -/
def tcpInput4 (ce : Bool) (g : Segment) : NetTcp × List Emit :=
  let p := parseTcpOptions c g.opts
  if pawsRejects p.1 p.2 g then sendEmpty env p.1 0x10
  else
    let c := ecnMark p.1 ce
    if c.state = .synSent ∧ g.flags &&& 0x12 = 0x12 then synAck4 env c g
    else if g.has 0x04 then (reset4 c, [])
    else
      andThen (andThen (ackInput4 env c p.2 g) fun c => dataInput4 env c g) fun c =>
        finInput env c g

/-! ## `process_v6_segment` -/

/-- The branch for a SYN-ACK in `SYN_SENT`; neither timer nor window state is set up. -/
def synAck6 (g : Segment) : NetTcp × List Emit :=
  let r := sendEmpty env { c with
    rcvNxt := g.seq + 1
    sndNxt := c.sndNxt + 1
    sndUna := c.sndNxt + 1
    sndWnd := g.wnd.setWidth 32 } 0x10
  ({ r.1 with state := .established, connectErr := 0 }, r.2)

/-- The branch for a reset; the timer stays. -/
def reset6 (c : NetTcp) : NetTcp :=
  { c with state := .closed, gotRst := true, connectErr := -1 }

/-- "ACK processing" of `process_v6_segment`; `CLOSING` has no branch here. -/
def ackInput6 (c : NetTcp) (g : Segment) : NetTcp :=
  if g.has 0x10 then
    let c := { c with
      sndUna := if after g.ack c.sndUna then g.ack else c.sndUna
      sndWnd := g.wnd.setWidth 32 }
    if c.state = .finWait1 ∧ g.ack = c.sndNxt then { c with state := .finWait2 }
    else if c.state = .lastAck ∧ g.ack = c.sndNxt then { c with state := .closed }
    else c
  else c

/-- "Data" of `process_v6_segment`: only what comes in order. -/
def dataInput6 (g : Segment) : NetTcp × List Emit :=
  if g.payload ≠ [] ∧ g.seq = c.rcvNxt then
    let p := rxringPush c.rx g.payload
    sendEmpty env { c with rx := p.2, rcvNxt := g.seq + BitVec.ofNat 32 p.1 } 0x10
  else (c, [])

/-- `process_v6_segment`. -/
def tcpInput6 (g : Segment) : NetTcp × List Emit :=
  if c.state = .synSent ∧ g.flags &&& 0x12 = 0x12 then synAck6 env c g
  else if g.has 0x04 then (reset6 c, [])
  else andThen (dataInput6 env (ackInput6 c g) g) fun c => finInput env c g

/-! ## The user's calls -/

/-- `eff_wnd` of `net_tcp_send`; a window of 0 does not count. -/
def effWnd (c : NetTcp) : BitVec 32 :=
  let w := if c.sndWnd ≠ 0 ∧ c.sndWnd < c.cc.cwnd then c.sndWnd else c.cc.cwnd
  if w.toNat < MSS then BitVec.ofNat 32 MSS else w

/-- One turn of the loop in `net_tcp_send`. -/
def sendSegment (ch : List UInt8) : NetTcp × Emit :=
  let r := sendTcp env c 0x18 ch
  ({ r.1 with retxBuf := ch.take 1460, sndNxt := r.1.sndNxt + BitVec.ofNat 32 ch.length }, r.2)

/-- The loop of `net_tcp_send`: the first turn looks at no window.  The last component counts
the bytes. -/
def sendLoop (env : TcpEnv) (wnd : BitVec 32) : ℕ → NetTcp → List UInt8 → ℕ → NetTcp × List Emit × ℕ
  | 0, c, _, sent => (c, [], sent)
  | fuel + 1, c, rest, sent =>
    if rest = [] then (c, [], sent)
    else if wnd ≤ c.sndNxt - c.sndUna ∧ 0 < sent then (c, [], sent)
    else
      let ch := rest.take 1400
      let r := sendSegment env c ch
      let t := sendLoop env wnd fuel r.1 (rest.drop 1400) (sent + ch.length)
      (t.1, r.2 :: t.2.1, t.2.2)

/-- `net_tcp_send`; as many turns as there are bytes are enough. -/
def netTcpSend (data : List UInt8) : ℤ × NetTcp × List Emit :=
  if c.state ≠ .established then (-1, c, [])
  else
    let r := sendLoop env (effWnd c) data.length c data 0
    if 0 < r.2.2 then (r.2.2, tcpArmRetx env { r.1 with rtoMs := TCP_RTO_DATA_MS }, r.2.1)
    else (r.2.2, r.1, r.2.1)

/-- `net_tcp_recv`: the result, the bytes put into the buffer, the connection and what is sent. -/
def netTcpRecv (bufsize : ℤ) : ℤ × List UInt8 × NetTcp × List Emit :=
  if c.state ≠ .established ∧ c.state ≠ .closeWait then
    if c.state = .closed ∧ (c.gotFin || c.gotRst) then
      let p := rxringPop c.rx bufsize
      (if p.1 ≠ [] then p.1.length else if c.gotRst then -1 else 0, p.1, { c with rx := p.2 }, [])
    else (-1, [], c, [])
  else
    let p := rxringPop c.rx bufsize
    if p.1 ≠ [] then
      let c' := { c with rx := p.2 }
      -- the peer learns of the space once a full segment fits again
      if rxringFree c.rx < MSS ∧ MSS ≤ rxringFree p.2 then
        (p.1.length, p.1, sendEmpty env c' 0x10)
      else (p.1.length, p.1, c', [])
    else if c.gotFin then (0, [], c, [])
    else if c.gotRst then (-1, [], c, [])
    else (-11, [], c, [])

/-! ## The timer -/

/-- The end of `net_tcp_retransmit`: one more retry, twice the time. -/
def backoff : NetTcp :=
  tcpArmRetx env { c with
    retxCount := c.retxCount + 1
    rtoMs := if c.rtoMs * 2 > TCP_RTO_MAX_MS then TCP_RTO_MAX_MS else c.rtoMs * 2 }

/-- The cached segment under the number `snd_una`. -/
def resend : NetTcp × List Emit :=
  let cc := { ccOnLoss env c.cc with inRecovery := false, tEpoch := env.now }
  let r := sendTcp env { c with cc := cc, sndNxt := c.sndUna } 0x18 c.retxBuf
  ({ r.1 with sndNxt := c.sndNxt }, [r.2])

/-- `net_tcp_retransmit`. -/
def netTcpRetransmit : NetTcp × List Emit :=
  let c := { c with retxArmed := false }
  if c.state = .closed then (c, [])
  else if c.retxCount ≥ TCP_MAX_RETRIES then
    let r := if c.state ≠ .synSent then sendEmpty env c 0x14 else (c, [])
    ({ r.1 with state := .closed, gotRst := true, connectErr := -1 }, r.2)
  else if c.state = .synSent then (backoff env c, [sendSyn env c])
  else if (c.state = .established ∨ c.state = .closeWait) ∧ after c.sndNxt c.sndUna ∧
      c.retxBuf ≠ [] then
    let r := resend env c
    (backoff env r.1, r.2)
  else (c, [])

end

end CosmoRT.Net
