import CosmoRT.Net.TcpFrame

/-!
# The send window of a TCP connection

How far `snd_nxt` runs ahead of `snd_una`, over runs of `net_tcp_send` and of segments with any
acknowledgement numbers and windows.

* `send_window` — **the window is kept** in every run in which no segment acknowledges more than
  was sent, and no data is sent while the peer's window is 0 or exceeded.  The source checks
  neither, and `send_window_passed` has a run for each.
-/

namespace CosmoRT.Net

open Lib List

section

variable (c : NetTcp)

/-- Bytes in flight, as `net_tcp_send` computes them. -/
def inFlight : ℕ := (c.sndNxt - c.sndUna).toNat

/-- What may be in flight after a send. -/
def sendBound : ℕ := max (min c.cc.cwnd.toNat c.sndWnd.toNat) MSS + 1400

/-! ## The run -/

/-- What happens to the connection. -/
inductive WindowOp where
  | send (env : TcpEnv) (data : List UInt8)
  | input4 (env : TcpEnv) (ce : Bool) (g : Segment)
  | input6 (env : TcpEnv) (g : Segment)

/-- The connection afterwards. -/
def windowNext : WindowOp → NetTcp
  | .send env data => (netTcpSend env c data).2.1
  | .input4 env ce g => (tcpInput4 env c ce g).1
  | .input6 env g => (tcpInput6 env c g).1

/-- The segment acknowledges nothing that was not sent. -/
def AckOfSent (g : Segment) : Prop :=
  g.has 0x10 → after g.ack c.sndUna → (g.ack - c.sndUna).toNat ≤ inFlight c

/-- Acknowledgements are of what was sent, and data is sent into an open window. -/
def WindowOk : WindowOp → Prop
  | .send _ data =>
    c.state = .established → data ≠ [] → c.sndWnd ≠ 0 ∧ inFlight c ≤ (effWnd c).toNat
  | .input4 _ _ g => AckOfSent c g
  | .input6 _ g => AckOfSent c g

/-- A send leaves no more in flight than before it or than the window and one chunk. -/
def WithinBound : WindowOp → Prop
  | .send env data => inFlight (netTcpSend env c data).2.1 ≤ max (inFlight c) (sendBound c)
  | _ => True

end

/-- A connection as a handshake leaves it. -/
structure Opened (c : NetTcp) : Prop where
  established : c.state = .established
  una : c.sndUna = c.sndNxt
  scale : c.sndWscale ≤ 14
  wnd : c.sndWnd.toNat ≤ maxWnd

/-! ## The loop of `net_tcp_send` -/

variable {c : NetTcp}

variable (env : TcpEnv)

theorem inFlight_sendSegment {ch : List UInt8} (h : inFlight c + ch.length < 2 ^ 32) :
    inFlight (sendSegment env c ch).1 = inFlight c + ch.length := by
  have hnum : inFlight (sendSegment env c ch).1 =
      (c.sndNxt + BitVec.ofNat 32 ch.length - c.sndUna).toNat := rfl
  rw [hnum]
  rw [inFlight] at h ⊢
  bv_omega

/-- The loop sends on while less than the window is in flight, so it ends at most one chunk
beyond; `hfirst` is what the unchecked first turn needs. -/
theorem inFlight_sendLoop {wnd : BitVec 32} (hw : wnd.toNat + 1400 < 2 ^ 32) (fuel : ℕ)
    (rest : List UInt8) {sent : ℕ} (hfirst : sent = 0 → inFlight c ≤ wnd.toNat)
    (h : inFlight c ≤ wnd.toNat + 1400) :
    inFlight (sendLoop env wnd fuel c rest sent).1 ≤ wnd.toNat + 1400 := by
  induction fuel generalizing c rest sent with
  | zero => exact h
  | succ fuel ih =>
    rw [sendLoop]
    split
    · exact h
    case isFalse hrest =>
      split
      · exact h
      case isFalse hturn =>
        have hle : inFlight c ≤ wnd.toNat := by
          by_cases hs : sent = 0
          · exact hfirst hs
          · have : ¬ wnd ≤ c.sndNxt - c.sndUna := fun hle => hturn ⟨hle, by omega⟩
            rw [BitVec.le_def] at this
            rw [inFlight]
            omega
        have hch : (rest.take 1400).length ≤ 1400 := length_take_le _ _
        have hseg : inFlight (sendSegment env c (rest.take 1400)).1 = _ :=
          inFlight_sendSegment env (by omega)
        exact ih _ (fun hz => by omega) (by omega)

theorem sendLoop_keeps (wnd : BitVec 32) (fuel : ℕ) (c : NetTcp) (rest : List UInt8) (sent : ℕ) :
    let c' := (sendLoop env wnd fuel c rest sent).1
    c'.sndUna = c.sndUna ∧ c'.sndWnd = c.sndWnd ∧ c'.sndWscale = c.sndWscale ∧
      c'.state = c.state := by
  induction fuel generalizing c rest sent with
  | zero => exact ⟨rfl, rfl, rfl, rfl⟩
  | succ fuel ih =>
    rw [sendLoop]
    split
    · exact ⟨rfl, rfl, rfl, rfl⟩
    · split
      · exact ⟨rfl, rfl, rfl, rfl⟩
      · exact ih (sendSegment env c (rest.take 1400)).1 _ _

theorem SameSend.afterLoop (hc : c.state = .established) (data : List UInt8) :
    SameSend (sendLoop env (effWnd c) data.length c data 0).1 (netTcpSend env c data).2.1 := by
  rw [netTcpSend, if_neg (not_not.mpr hc)]
  generalize sendLoop env (effWnd c) data.length c data 0 = r
  dsimp only
  split
  · have h := (Untouched.arm env { r.1 with rtoMs := TCP_RTO_DATA_MS }).send
    exact ⟨h.nxt, h.una, h.wnd, h.scale, h.retx, h.live⟩
  · exact .refl _

theorem netTcpSend_of_ne (hc : c.state ≠ .established) (data : List UInt8)
    : (netTcpSend env c data).2.1 = c := by
  rw [netTcpSend, if_pos hc]

/-- While the peer's window is not 0, `eff_wnd` is the window of the bound. -/
theorem toNat_effWnd (h : c.sndWnd ≠ 0) : (effWnd c).toNat + 1400 = sendBound c := by
  have hmss : (BitVec.ofNat 32 MSS).toNat = MSS := rfl
  have hmin : (if c.sndWnd ≠ 0 ∧ c.sndWnd < c.cc.cwnd then c.sndWnd else c.cc.cwnd).toNat =
      min c.cc.cwnd.toNat c.sndWnd.toNat := by
    split
    case isTrue hlt =>
      have : c.sndWnd.toNat < c.cc.cwnd.toNat := hlt.2
      omega
    case isFalse hge =>
      have : ¬ c.sndWnd.toNat < c.cc.cwnd.toNat := fun hlt => hge ⟨h, hlt⟩
      omega
  rw [effWnd, sendBound, ← hmin]
  generalize (if c.sndWnd ≠ 0 ∧ c.sndWnd < c.cc.cwnd then c.sndWnd else c.cc.cwnd) = w
  split
  case isTrue hlt => rw [hmss, max_eq_right hlt.le]
  case isFalse hge => rw [max_eq_left (not_lt.mp hge)]

/-! ## The invariant -/

/-- After the handshake, with `snd_una` not past `snd_nxt`. -/
structure WindowInv (c : NetTcp) : Prop where
  live : c.state ≠ .synSent
  scale : c.sndWscale ≤ 14
  wnd : c.sndWnd.toNat ≤ maxWnd
  notPassed : inFlight c < 2 ^ 31

theorem Opened.inv (h : Opened c) : WindowInv c where
  live := by simp [h.established]
  scale := h.scale
  wnd := h.wnd
  notPassed := by simp [inFlight, h.una]

theorem SameSend.inFlight_eq {c' : NetTcp} (h : SameSend c c') : inFlight c' = inFlight c := by
  rw [inFlight, inFlight, h.nxt, h.una]

section

variable (h : WindowInv c)
include h

theorem sendBound_lt : sendBound c < 2 ^ 31 := by
  have hw := h.wnd
  rw [sendBound, MSS]
  rw [maxWnd] at hw
  omega

variable {data : List UInt8} {op : WindowOp}

theorem WindowInv.inFlight_send (hok : WindowOk c (.send env data)) :
    inFlight (netTcpSend env c data).2.1 ≤ max (inFlight c) (sendBound c) := by
  by_cases hc : c.state = .established
  · rw [(SameSend.afterLoop env hc data).inFlight_eq]
    by_cases hdata : data = []
    · subst hdata
      exact le_max_left _ _
    · obtain ⟨hw, hopen⟩ := hok hc hdata
      have hbound := toNat_effWnd hw
      have hlt := sendBound_lt h
      have hloop : inFlight (sendLoop env (effWnd c) data.length c data 0).1 ≤ _ :=
        inFlight_sendLoop env (by omega) data.length data (fun _ => hopen) (by omega)
      omega
  · rw [netTcpSend_of_ne env hc]
    exact le_max_left _ _

theorem WindowInv.send (hok : WindowOk c (.send env data))
    : WindowInv (netTcpSend env c data).2.1 := by
  have hle := h.inFlight_send env hok
  have hlt := sendBound_lt h
  have hpre := h.notPassed
  by_cases hc : c.state = .established
  · have hs := SameSend.afterLoop env hc data
    obtain ⟨-, hwnd, hscale, hstate⟩ := sendLoop_keeps env (effWnd c) data.length c data 0
    refine ⟨hs.live (by rw [hstate]; exact h.live), ?_, ?_, by omega⟩
    · rw [hs.scale, hscale]
      exact h.scale
    · rw [hs.wnd, hwnd]
      exact h.wnd
  · rwa [netTcpSend_of_ne env hc]

/-- An acknowledgement of what was sent only shortens the distance. -/
theorem WindowInv.received {c' : NetTcp} {g : Segment}
    (hr : Received c g c') (hok : AckOfSent c g) : WindowInv c' := by
  refine ⟨hr.live h.live, hr.scale h.scale, ?_, ?_⟩
  · rcases hr.wnd h.scale with heq | hle
    · rw [heq]
      exact h.wnd
    · exact hle
  · have hpre := h.notPassed
    rw [inFlight, hr.nxt]
    rcases hr.una with heq | ⟨hack, hnew, heq⟩
    · rw [heq]
      exact hpre
    · have hsent := hok hack hnew
      rw [inFlight] at hpre hsent
      bv_omega

theorem WindowInv.next (hok : WindowOk c op) : WindowInv (windowNext c op) := by
  cases op with
  | send env data => exact h.send env hok
  | input4 env ce g => exact h.received (.input4 env ce fun hc => absurd hc h.live) hok
  | input6 env g => exact h.received (.input6 env fun hc => absurd hc h.live) hok

theorem WindowInv.withinBound (hok : WindowOk c op) : WithinBound c op := by
  cases op with
  | send env data => exact h.inFlight_send env hok
  | input4 | input6 => trivial

end

/-- **The send window is kept.**  In every run from an opened connection whose steps all meet
the condition, `snd_una` never passes `snd_nxt`, and no send exceeds its bound. -/
theorem send_window {c : NetTcp} (hc : Opened c) {ops : List WindowOp}
    (hok : Along windowNext WindowOk c ops) :
    inFlight (run windowNext c ops) < 2 ^ 31 ∧ Along windowNext WithinBound c ops := by
  have hstep : ∀ (s : NetTcp) (op : WindowOp), WindowInv s → WindowOk s op →
      WindowInv (windowNext s op) := fun _ _ h hop => h.next hop
  constructor
  · exact (run_invariant hstep hc.inv hok).notPassed
  · exact along_of_invariant hstep (fun _ _ h hop => h.withinBound hop) hc.inv hok

/-! ## Runs -/

/-- A connection that a peer with a window of 8192 bytes has just opened. -/
def openedTcp : NetTcp :=
  { zeroTcp with
    state := .established
    sndNxt := 1000
    sndUna := 1000
    sndWnd := 8192
    cc := ccInit zeroTcp.cc
    rx := ⟨some (replicate NET_TCP_RXBUF 0), 0, 0⟩ }

theorem opened_openedTcp : Opened openedTcp := ⟨rfl, rfl, by decide, by decide⟩

def quietEnv : TcpEnv := ⟨0, true, true⟩

/-- An acknowledgement without data. -/
def pureAck (ack : BitVec 32) (wnd : BitVec 16) : Segment := ⟨80, 50000, 0, ack, 0x10, wnd, [], []⟩

instance (c : NetTcp) (g : Segment) : Decidable (AckOfSent c g) :=
  inferInstanceAs (Decidable (g.has 0x10 → after g.ack c.sndUna → _ ≤ _))

instance : (c : NetTcp) → (op : WindowOp) → Decidable (WindowOk c op)
  | c, .send _ data =>
    inferInstanceAs (Decidable (c.state = .established → data ≠ [] → c.sndWnd ≠ 0 ∧ _ ≤ _))
  | c, .input4 _ _ g => inferInstanceAs (Decidable (AckOfSent c g))
  | c, .input6 _ g => inferInstanceAs (Decidable (AckOfSent c g))

instance : (c : NetTcp) → (op : WindowOp) → Decidable (WithinBound c op)
  | _, .send _ _ => inferInstanceAs (Decidable (_ ≤ _))
  | _, .input4 .. => inferInstanceAs (Decidable True)
  | _, .input6 .. => inferInstanceAs (Decidable True)

/-- A send of 100 bytes that the peer acknowledges. -/
theorem send_window_acked :
    inFlight (run windowNext openedTcp
      [.send quietEnv (replicate 100 0), .input4 quietEnv false (pureAck 1100 8192)]) < 2 ^ 31 ∧
    Along windowNext WithinBound openedTcp
      [.send quietEnv (replicate 100 0), .input4 quietEnv false (pureAck 1100 8192)] := by
  exact send_window opened_openedTcp ⟨by decide +kernel, by decide +kernel, trivial⟩

/-- An acknowledgement of 1000 bytes that were never sent moves `snd_una` past `snd_nxt`, over
IPv4 and IPv6; 3000 bytes are sent into a window of 0; and a window that is full already takes
another 1400 bytes. -/
theorem send_window_passed :
    Opened openedTcp ∧
    2 ^ 31 ≤ inFlight (windowNext openedTcp (.input4 quietEnv false (pureAck 2000 8192))) ∧
    2 ^ 31 ≤ inFlight (windowNext openedTcp (.input6 quietEnv (pureAck 2000 8192))) ∧
    ¬ WithinBound (windowNext openedTcp (.input4 quietEnv false (pureAck 1000 0)))
      (.send quietEnv (replicate 3000 0)) ∧
    ¬ WithinBound (windowNext openedTcp (.send quietEnv (replicate 9000 0)))
      (.send quietEnv (replicate 1400 0)) :=
  ⟨⟨rfl, rfl, by decide, by decide⟩, by decide +kernel, by decide +kernel, by decide +kernel,
    by decide +kernel⟩

end CosmoRT.Net
