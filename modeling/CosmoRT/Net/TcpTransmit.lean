import CosmoRT.Net.TcpWindow

/-!
# The stream a TCP connection transmits

Beside the connection stands the stream that `net_tcp_send` has accepted so far.  A data segment
is right when it carries the bytes of that stream at the place its number says.

* `transmits_stream` — **every data segment is right, and every timer firing resends from
  `snd_una`**, in every run in which the cached segment is all that is outstanding when the timer
  fires, the retries last, and no third duplicate acknowledgement arrives.  The cache holds only
  the last segment, so with two in flight the timer sends the wrong bytes, and the third
  duplicate is answered without data (`transmits_wrong`).
-/

namespace CosmoRT.Net

open Lib List
open BitVec (ofNat)

/-! ## The loop of `net_tcp_send` -/

/-- What the loop did with `rest`: it sent `k` bytes. -/
structure LoopSent (c : NetTcp) (rest : List UInt8) (sent : ℕ) (r : NetTcp × List Emit × ℕ)
    (k : ℕ) : Prop where
  le : k ≤ rest.length
  count : r.2.2 = sent + k
  nxt : r.1.sndNxt = c.sndNxt + ofNat 32 k
  retx : k = 0 ∧ r.1.retxBuf = c.retxBuf ∨ r.1.retxBuf <:+ rest.take k
  short : c.retxBuf.length ≤ 1400 → r.1.retxBuf.length ≤ 1400
  emits : ∀ e ∈ r.2.1, ∃ p, p + e.data.length ≤ k ∧ e.seq = c.sndNxt + ofNat 32 p ∧
    (rest.drop p).take e.data.length = e.data

variable (env : TcpEnv) (c : NetTcp)

theorem LoopSent.stop (rest : List UInt8) (sent : ℕ) : LoopSent c rest sent (c, [], sent) 0 where
  le := Nat.zero_le _
  count := rfl
  nxt := by simp
  retx := .inl ⟨rfl, rfl⟩
  short := id
  emits := fun _ h => absurd h not_mem_nil

theorem LoopSent.turn {c : NetTcp} {rest : List UInt8} {sent k : ℕ} {r : NetTcp × List Emit × ℕ}
    (h : LoopSent (sendSegment env c (rest.take 1400)).1 (rest.drop 1400)
      (sent + (rest.take 1400).length) r k) :
    LoopSent c rest sent (r.1, (sendSegment env c (rest.take 1400)).2 :: r.2.1, r.2.2)
      ((rest.take 1400).length + k) := by
  set n := (rest.take 1400).length with hn
  have hlen : n = min 1400 rest.length := by rw [hn, length_take]
  have htake : rest.take 1400 = rest.take n := by
    rcases le_total 1400 rest.length with hle | hle
    · rw [hlen, min_eq_left hle]
    · rw [hlen, min_eq_right hle, take_of_length_le hle, take_length]
  have hdrop : rest.drop 1400 = rest.drop n := by
    rcases le_total 1400 rest.length with hle | hle
    · rw [hlen, min_eq_left hle]
    · rw [hlen, min_eq_right hle, drop_of_length_le hle, drop_length]
  have hnxt : (sendSegment env c (rest.take 1400)).1.sndNxt = c.sndNxt + ofNat 32 n := by
    rfl
  rw [hdrop] at h
  refine ⟨?_, ?_, ?_, .inr ?_, ?_, ?_⟩
  · have := h.le
    rw [length_drop] at this
    omega
  · rw [h.count, add_assoc]
  · rw [h.nxt, hnxt, BitVec.ofNat_add, BitVec.add_assoc]
  · -- the cache holds the chunk of the last turn
    rw [take_add]
    rcases h.retx with ⟨rfl, hsame⟩ | hsuf
    · have hcache : (sendSegment env c (rest.take 1400)).1.retxBuf = rest.take n := by
        rw [htake]
        exact take_of_length_le (by rw [length_take]; omega)
      have hall : rest.take n ++ (rest.drop n).take 0 = r.1.retxBuf := by
        rw [hsame, hcache, take_zero, append_nil]
      exact hall ▸ suffix_refl _
    · exact hsuf.trans (suffix_append _ _)
  · intro _
    refine h.short ?_
    show ((rest.take 1400).take 1460).length ≤ 1400
    rw [length_take]
    omega
  · intro e he
    rcases mem_cons.mp he with rfl | he
    · have hdata : (sendSegment env c (rest.take 1400)).2.data = rest.take n := htake
      have hdlen : (rest.take n).length = n := by rw [length_take]; omega
      refine ⟨0, by rw [hdata]; omega, ?_, ?_⟩
      · show c.sndNxt = _
        simp
      · rw [hdata, drop_zero, hdlen]
    · obtain ⟨p, hp, hseq, hbytes⟩ := h.emits e he
      refine ⟨n + p, by omega, ?_, ?_⟩
      · rw [hseq, hnxt, BitVec.ofNat_add, BitVec.add_assoc]
      · rwa [drop_drop] at hbytes

theorem sendLoop_spec (wnd : BitVec 32) (fuel : ℕ) (c : NetTcp) (rest : List UInt8) (sent : ℕ) :
    ∃ k, LoopSent c rest sent (sendLoop env wnd fuel c rest sent) k := by
  induction fuel generalizing c rest sent with
  | zero => exact ⟨0, .stop c rest sent⟩
  | succ fuel ih =>
    rw [sendLoop]
    split
    · exact ⟨0, .stop c rest sent⟩
    · split
      · exact ⟨0, .stop c rest sent⟩
      · obtain ⟨k, hk⟩ := ih (sendSegment env c (rest.take 1400)).1 (rest.drop 1400)
          (sent + (rest.take 1400).length)
        exact ⟨_, hk.turn env⟩

/-! ## The run -/

/-- The connection, what `net_tcp_send` has accepted, and how many duplicate acknowledgements
came since the last new one. -/
structure Transmit where
  conn : NetTcp
  accepted : List UInt8
  dups : ℕ

/-- What happens. -/
inductive TransmitOp where
  | send (env : TcpEnv) (data : List UInt8)
  | ack4 (env : TcpEnv) (ce : Bool) (g : Segment)
  | ack6 (env : TcpEnv) (g : Segment)
  | timer (env : TcpEnv)

/-- An acknowledgement that acknowledges nothing new and brings nothing. -/
def isDup (c : NetTcp) (g : Segment) : Bool := g.has 0x10 ∧ g.ack = c.sndUna ∧ g.payload = []

section

variable (s : Transmit)

/-- The count of duplicates. -/
def dupsAfter (g : Segment) : ℕ :=
  if g.has 0x10 ∧ after g.ack s.conn.sndUna then 0
  else if isDup s.conn g then s.dups + 1
  else s.dups

/-- The state afterwards and what was sent. -/
def transmitStep : TransmitOp → Transmit × List Emit
  | .send env data =>
    let r := netTcpSend env s.conn data
    (⟨r.2.1, s.accepted ++ data.take r.1.toNat, s.dups⟩, r.2.2)
  | .ack4 env ce g =>
    let r := tcpInput4 env s.conn ce g
    (⟨r.1, s.accepted, dupsAfter s g⟩, r.2)
  | .ack6 env g =>
    let r := tcpInput6 env s.conn g
    (⟨r.1, s.accepted, dupsAfter s g⟩, r.2)
  | .timer env =>
    let r := netTcpRetransmit env s.conn
    (⟨r.1, s.accepted, s.dups⟩, r.2)

def transmitNext (op : TransmitOp) : Transmit := (transmitStep s op).1

/-- Data is outstanding. -/
def Outstanding (c : NetTcp) : Prop := c.sndNxt ≠ c.sndUna

/-- The third duplicate in a row while data is outstanding. -/
def ThirdDup : TransmitOp → Prop
  | .ack4 _ _ g | .ack6 _ g => isDup s.conn g ∧ s.dups = 2 ∧ Outstanding s.conn
  | _ => False

/-- The acknowledgement number lies between `snd_una` and `snd_nxt`. -/
def AckBetween (c : NetTcp) (g : Segment) : Prop :=
  g.has 0x10 → (g.ack - c.sndUna).toNat ≤ inFlight c

/-- The runs spoken of: the length of a send is an `int`, and acknowledgements are of what was
sent. -/
def InScope : TransmitOp → Prop
  | .send _ data => data.length < 2 ^ 31
  | .ack4 _ _ g | .ack6 _ g => AckBetween s.conn g
  | .timer _ => True

/-- When the timer fires, the cached segment is all that is outstanding, and in `ESTABLISHED` a
retry is left; no third duplicate arrives. -/
def TransmitOk (op : TransmitOp) : Prop :=
  ¬ ThirdDup s op ∧
  match op with
  | .timer _ => Outstanding s.conn →
      (s.conn.state = .established ∨ s.conn.state = .closeWait →
        s.conn.retxBuf.length = inFlight s.conn) ∧
      (s.conn.state = .established → s.conn.retxCount < TCP_MAX_RETRIES)
  | _ => True

/-! ## The property -/

/-- The segment carries the bytes of the stream at its number; of the places with that number it
is the one among the last `2 ^ 32` bytes. -/
def Carries (base : BitVec 32) (accepted : List UInt8) (e : Emit) : Prop :=
  ∃ pos, accepted.length < pos + 2 ^ 32 ∧ e.seq = base + ofNat 32 pos ∧
    (accepted.drop pos).take e.data.length = e.data

/-- A data segment from `snd_una` on is among those sent. -/
def Resends (c : NetTcp) (es : List Emit) : Prop := ∃ e ∈ es, e.data ≠ [] ∧ e.seq = c.sndUna

/-- The timer fires in `ESTABLISHED` while data is outstanding. -/
def TimerDue : TransmitOp → Prop
  | .timer _ => s.conn.state = .established ∧ Outstanding s.conn
  | _ => False

end

/-- Every data segment is right, and a loss is answered from `snd_una` on. -/
structure TransmitsRight (base : BitVec 32) (s : Transmit) (op : TransmitOp) : Prop where
  carries : ∀ e ∈ (transmitStep s op).2, e.data ≠ [] →
    Carries base (transmitStep s op).1.accepted e
  dup : ThirdDup s op → Resends s.conn (transmitStep s op).2
  timer : TimerDue s op → Resends s.conn (transmitStep s op).2

/-! ## The invariant -/

/-- The connection and the stream belong together. -/
structure TransmitInv (base : BitVec 32) (s : Transmit) : Prop where
  live : s.conn.state ≠ .synSent
  nxt : s.conn.sndNxt = base + ofNat 32 s.accepted.length
  una : inFlight s.conn ≤ s.accepted.length
  retx : s.conn.retxBuf <:+ s.accepted
  short : s.conn.retxBuf.length ≤ 1400

/-- As a handshake leaves it: nothing sent, nothing cached, the first data byte has number
`iss + 1`. -/
structure TransmitStart (iss : BitVec 32) (s : Transmit) : Prop where
  live : s.conn.state ≠ .synSent
  nxt : s.conn.sndNxt = iss + 1
  una : s.conn.sndUna = iss + 1
  retx : s.conn.retxBuf = []
  accepted : s.accepted = []

variable {s : Transmit}

theorem TransmitStart.inv {iss : BitVec 32} (h : TransmitStart iss s) :
    TransmitInv (iss + 1) s where
  live := h.live
  nxt := by simp [h.nxt, h.accepted]
  una := by simp [inFlight, h.nxt, h.una]
  retx := by simp [h.retx]
  short := by simp [h.retx]

section

variable {base : BitVec 32}

/-- A segment shortens the outstanding part and may drop the cache. -/
theorem TransmitInv.received (h : TransmitInv base s)
    {g : Segment} {c' : NetTcp} (hr : Received s.conn g c') (hg : AckBetween s.conn g) (d : ℕ) :
    TransmitInv base ⟨c', s.accepted, d⟩ where
  live := hr.live h.live
  nxt := hr.nxt.trans h.nxt
  una := by
    have hle := h.una
    show (c'.sndNxt - c'.sndUna).toNat ≤ _
    rcases hr.una with heq | ⟨hack, -, heq⟩
    · rw [hr.nxt, heq]
      exact hle
    · have hsent := hg hack
      rw [hr.nxt]
      rw [inFlight] at hle hsent
      bv_omega
  retx := by
    rcases hr.retx with heq | heq
    · exact heq ▸ h.retx
    · exact heq ▸ nil_suffix
  short := by
    rcases hr.retx with heq | heq
    · exact heq ▸ h.short
    · simp [heq]

theorem netTcpSend_spec {c : NetTcp} (hc : c.state = .established) (data : List UInt8) :
    ∃ k : ℕ, (netTcpSend env c data).1 = (k : ℤ) ∧
      LoopSent c data 0 (sendLoop env (effWnd c) data.length c data 0) k ∧
      (netTcpSend env c data).2.2 = (sendLoop env (effWnd c) data.length c data 0).2.1 := by
  obtain ⟨k, hk⟩ := sendLoop_spec env (effWnd c) data.length c data 0
  have hcount : (sendLoop env (effWnd c) data.length c data 0).2.2 = k := by
    rw [hk.count, zero_add]
  refine ⟨k, ?_, hk, ?_⟩
  · rw [netTcpSend, if_neg (not_not.mpr hc)]
    dsimp only
    split <;> simp [hcount]
  · rw [netTcpSend, if_neg (not_not.mpr hc)]
    dsimp only
    split <;> rfl

theorem inFlight_add_le {nxt : BitVec 32} {k : ℕ} (h : nxt = c.sndNxt + ofNat 32 k)
    : (nxt - c.sndUna).toNat ≤ inFlight c + k := by
  rw [inFlight]
  bv_omega

theorem TransmitInv.send (h : TransmitInv base s) (data : List UInt8)
    : TransmitInv base (transmitNext s (.send env data)) := by
  by_cases hc : s.conn.state = .established
  · obtain ⟨k, hret, hk, -⟩ := netTcpSend_spec env hc data
    have hs := SameSend.afterLoop env hc data
    obtain ⟨huna, -, -, hstate⟩ := sendLoop_keeps env (effWnd s.conn) data.length s.conn data 0
    have hacc : (transmitNext s (.send env data)).accepted = s.accepted ++ data.take k := by
      show s.accepted ++ data.take (netTcpSend env s.conn data).1.toNat = _
      rw [hret, Int.toNat_natCast]
    have hlen : (s.accepted ++ data.take k).length = s.accepted.length + k := by
      have := hk.le
      rw [length_append, length_take]
      omega
    refine ⟨hs.live (by rw [hstate]; exact h.live), ?_, ?_, ?_, ?_⟩
    · rw [hacc, hlen, BitVec.ofNat_add, ← BitVec.add_assoc, ← h.nxt, ← hk.nxt]
      exact hs.nxt
    · rw [hacc]
      have hle := inFlight_add_le s.conn hk.nxt
      have hold := h.una
      show inFlight (netTcpSend env s.conn data).2.1 ≤ _
      rw [hs.inFlight_eq, inFlight, huna]
      omega
    · rw [hacc]
      show (netTcpSend env s.conn data).2.1.retxBuf <:+ _
      rcases hs.retx with heq | heq
      · rw [heq]
        rcases hk.retx with ⟨rfl, hsame⟩ | hsuf
        · rw [hsame, take_zero, append_nil]
          exact h.retx
        · exact hsuf.trans (suffix_append _ _)
      · rw [heq]
        exact nil_suffix
    · show (netTcpSend env s.conn data).2.1.retxBuf.length ≤ 1400
      rcases hs.retx with heq | heq
      · rw [heq]
        exact hk.short h.short
      · simp [heq]
  · have hnone : transmitNext s (.send env data) = s := by
      rw [transmitNext, transmitStep, netTcpSend, if_pos hc]
      simp
    rwa [hnone]

/-! ## The timer -/

theorem SameSend.resend : SameSend c (Net.resend env c).1 :=
  ⟨rfl, rfl, rfl, rfl, .inl rfl, id⟩

theorem SameSend.retransmit : SameSend c (netTcpRetransmit env c).1 := by
  have hoff : SameSend c { c with retxArmed := false } := ⟨rfl, rfl, rfl, rfl, .inl rfl, id⟩
  rw [netTcpRetransmit]
  split
  · exact hoff
  · split
    · split <;> exact ⟨rfl, rfl, rfl, rfl, .inl rfl, fun _ => by simp⟩
    · split
      · exact hoff.trans (.backoff env _)
      · split
        · exact (hoff.trans (.resend env _)).trans (.backoff env _)
        · exact hoff

/-- The firing resends the cache. -/
def Fires (c : NetTcp) : Prop :=
  c.retxCount < TCP_MAX_RETRIES ∧ (c.state = .established ∨ c.state = .closeWait) ∧
    after c.sndNxt c.sndUna ∧ c.retxBuf ≠ []

/-- What a firing sends: the cache under the number `snd_una`, or nothing with data. -/
theorem netTcpRetransmit_sent :
    (Fires c → ∃ e, (netTcpRetransmit env c).2 = [e] ∧ e.seq = c.sndUna ∧ e.data = c.retxBuf) ∧
    (¬ Fires c → Dataless (netTcpRetransmit env c).2) := by
  rw [netTcpRetransmit]
  dsimp only
  constructor
  · rintro ⟨hcount, hstate, hout, hbuf⟩
    rw [if_neg (by rcases hstate with h | h <;> simp [h]), if_neg (by omega),
      if_neg (by rcases hstate with h | h <;> simp [h]), if_pos ⟨hstate, hout, hbuf⟩]
    exact ⟨_, rfl, rfl, rfl⟩
  · intro hno
    split
    · exact dataless_nil
    split
    · split
      · exact dataless_sendEmpty env _ _
      · exact dataless_nil
    case isFalse hcount =>
      split
      · intro e he
        rw [mem_singleton.mp he]
        rfl
      · split
        case isTrue hfire => exact absurd ⟨by omega, hfire⟩ hno
        case isFalse => exact dataless_nil

theorem TransmitInv.timer (h : TransmitInv base s)
    : TransmitInv base (transmitNext s (.timer env)) := by
  have hs := SameSend.retransmit env s.conn
  have hr : Received s.conn ⟨0, 0, 0, s.conn.sndUna, 0, 0, [], []⟩ _ := hs.received _
  exact h.received hr (fun _ => by simp) s.dups

theorem TransmitInv.next (h : TransmitInv base s)
    {op : TransmitOp} (hop : InScope s op) : TransmitInv base (transmitNext s op) := by
  cases op with
  | send env data => exact h.send env data
  | ack4 env ce g => exact h.received (.input4 env ce fun hc => absurd hc h.live) hop _
  | ack6 env g => exact h.received (.input6 env fun hc => absurd hc h.live) hop _
  | timer env => exact h.timer env

/-! ## Every segment is right -/

theorem TransmitInv.carries_send (h : TransmitInv base s) {data : List UInt8}
    (hlen : data.length < 2 ^ 31) :
    ∀ e ∈ (transmitStep s (.send env data)).2,
      Carries base (transmitStep s (.send env data)).1.accepted e := by
  intro e he
  by_cases hc : s.conn.state = .established
  · obtain ⟨k, hret, hk, hsent⟩ := netTcpSend_spec env hc data
    have hacc : (transmitStep s (.send env data)).1.accepted = s.accepted ++ data.take k := by
      show s.accepted ++ data.take (netTcpSend env s.conn data).1.toNat = _
      rw [hret, Int.toNat_natCast]
    have hmem : e ∈ (netTcpSend env s.conn data).2.2 := he
    rw [hsent] at hmem
    obtain ⟨p, hp, hseq, hbytes⟩ := hk.emits e hmem
    rw [hacc]
    refine ⟨s.accepted.length + p, ?_, ?_, ?_⟩
    · rw [length_append, length_take]
      omega
    · rw [hseq, h.nxt, BitVec.ofNat_add, BitVec.add_assoc]
    · rw [drop_append, drop_eq_nil_of_le (by omega), nil_append,
        Nat.add_sub_cancel_left, drop_take, take_take, Nat.min_eq_left (by omega)]
      exact hbytes
  · rw [transmitStep, netTcpSend, if_pos hc] at he
    exact absurd he not_mem_nil

/-- A cache that is all that is outstanding is the stream from `snd_una` on. -/
theorem TransmitInv.carries_cache (h : TransmitInv base s)
    (hall : s.conn.retxBuf.length = inFlight s.conn) {e : Emit} (hseq : e.seq = s.conn.sndUna)
    (hdata : e.data = s.conn.retxBuf) : Carries base s.accepted e := by
  obtain ⟨old, hold⟩ := h.retx
  have hlen : old.length + inFlight s.conn = s.accepted.length := by
    rw [← hold, length_append, hall]
  refine ⟨old.length, ?_, ?_, ?_⟩
  · have hlt : inFlight s.conn < 2 ^ 32 := (s.conn.sndNxt - s.conn.sndUna).isLt
    omega
  · have hnxt := h.nxt
    rw [← hlen] at hnxt
    have hfl : ofNat 32 (inFlight s.conn) = s.conn.sndNxt - s.conn.sndUna := by
      rw [inFlight, BitVec.ofNat_toNat, BitVec.setWidth_eq]
    bv_omega
  · rw [← hold, drop_left, hdata, take_length]

theorem TransmitInv.right_timer (h : TransmitInv base s) (hok : TransmitOk s (.timer env)) :
    TransmitsRight base s (.timer env) := by
  obtain ⟨hfires, hquiet⟩ := netTcpRetransmit_sent env s.conn
  have hok' := hok.2
  refine ⟨?_, fun hd => absurd hd hok.1, ?_⟩
  · intro e he hne
    have hmem : e ∈ (netTcpRetransmit env s.conn).2 := he
    by_cases hf : Fires s.conn
    · obtain ⟨e', hsent, hseq, hdata⟩ := hfires hf
      rw [hsent] at hmem
      obtain rfl := mem_singleton.mp hmem
      have hout : Outstanding s.conn := by
        intro heq
        have hafter := hf.2.2.1
        rw [heq, after, BitVec.sub_self] at hafter
        exact absurd hafter (by decide)
      exact h.carries_cache ((hok' hout).1 hf.2.1) hseq hdata
    · exact absurd (hquiet hf e hmem) hne
  · rintro ⟨hest, hout⟩
    obtain ⟨hall, hcount⟩ := hok' hout
    have hlen := hall (.inl hest)
    -- something is outstanding, and it is short enough to count as ahead
    have hpos : 0 < inFlight s.conn := by
      rw [pos_iff_ne_zero, inFlight]
      intro hz
      apply hout
      bv_omega
    have hafter : after s.conn.sndNxt s.conn.sndUna := by
      have hshort := h.short
      rw [hlen, inFlight] at hshort
      exact after_iff.mpr ⟨hpos, by omega⟩
    have hf : Fires s.conn :=
      ⟨hcount hest, .inl hest, hafter, length_pos_iff.mp (by omega)⟩
    obtain ⟨e, hsent, hseq, hdata⟩ := hfires hf
    refine ⟨e, ?_, hdata ▸ hf.2.2.2, hseq⟩
    show e ∈ (netTcpRetransmit env s.conn).2
    rw [hsent]
    exact mem_singleton_self e

theorem TransmitInv.right (h : TransmitInv base s)
    {op : TransmitOp} (hop : InScope s op) (hok : TransmitOk s op) : TransmitsRight base s op := by
  cases op with
  | send env data =>
    exact ⟨fun e he _ => h.carries_send env hop e he, fun hd => absurd hd hok.1, False.elim⟩
  | ack4 env ce g =>
    exact ⟨fun e he hne => absurd (dataless_input4 env s.conn ce g e he) hne,
      fun hd => absurd hd hok.1, False.elim⟩
  | ack6 env g =>
    exact ⟨fun e he hne => absurd (dataless_input6 env s.conn g e he) hne,
      fun hd => absurd hd hok.1, False.elim⟩
  | timer env => exact h.right_timer env hok

/-- **The stream is transmitted.**  In every run from a handshake whose steps all meet the
condition, every data segment carries the bytes its number stands for, and losses are answered
from `snd_una` on. -/
theorem transmits_stream {iss : BitVec 32} {s : Transmit} (hs : TransmitStart iss s)
    {ops : List TransmitOp}
    (hok : Along transmitNext (fun s op => InScope s op ∧ TransmitOk s op) s ops) :
    Along transmitNext (TransmitsRight (iss + 1)) s ops := by
  have hstep : ∀ (s : Transmit) (op : TransmitOp), TransmitInv (iss + 1) s →
      InScope s op ∧ TransmitOk s op → TransmitInv (iss + 1) (transmitNext s op) :=
    fun _ _ h hop => h.next hop.1
  exact along_of_invariant hstep (fun _ _ h hop => h.right hop.1 hop.2) hs.inv hok

/-! ## Runs -/

/-- The connection of `openedTcp`, whose first data byte has number 1000. -/
def transmitStart : Transmit := ⟨openedTcp, [], 0⟩

theorem transmitStart_start : TransmitStart 999 transmitStart := ⟨by decide, rfl, rfl, rfl, rfl⟩

/-- One byte is sent, lost, sent again and acknowledged. -/
theorem transmits_stream_resent :
    Along transmitNext (TransmitsRight (999 + 1)) transmitStart
      [.send quietEnv [7], .timer quietEnv, .ack4 quietEnv false (pureAck 1001 8192)] := by
  refine transmits_stream transmitStart_start ⟨⟨?_, ?_⟩, ⟨?_, ?_⟩, ⟨?_, ?_⟩, trivial⟩
  · show [(7 : UInt8)].length < 2 ^ 31
    decide
  · exact ⟨id, trivial⟩
  · trivial
  · refine ⟨id, fun _ => ⟨fun _ => ?_, fun _ => ?_⟩⟩ <;> decide +kernel
  · intro _
    decide +kernel
  · refine ⟨?_, trivial⟩
    rintro ⟨-, h, -⟩
    exact absurd h (by decide +kernel)

/-- A byte at the start of a stream has one place only. -/
theorem not_carries_first {accepted : List UInt8} {e : Emit} {b b' : UInt8}
    (hlen : accepted.length < 2 ^ 32) (hfirst : accepted.head? = some b) (hseq : e.seq = base)
    (hdata : e.data = [b']) (hne : b ≠ b') : ¬ Carries base accepted e := by
  rintro ⟨pos, -, hpos, hbytes⟩
  rw [hdata] at hbytes
  have hlt : pos < accepted.length := by
    by_contra hge
    rw [drop_eq_nil_of_le (by omega)] at hbytes
    exact absurd hbytes (by simp)
  have hzero : pos = 0 := by
    bv_omega
  subst hzero
  cases accepted with
  | nil => exact absurd hlt (by simp)
  | cons a rest =>
    simp only [head?_cons, Option.some.injEq] at hfirst
    simp only [drop_zero, length_singleton, take_succ_cons, take_zero,
      List.cons.injEq, and_true] at hbytes
    exact hne (hfirst.symm.trans hbytes)

end

/-- Of two segments in flight the timer resends the second under the number of the first; and
the third duplicate acknowledgement is answered by a segment without data. -/
theorem transmits_wrong :
    TransmitStart 999 transmitStart ∧
    ¬ Along transmitNext (TransmitsRight (999 + 1)) transmitStart
      [.send quietEnv (List.replicate 1400 1 ++ [2]), .timer quietEnv] ∧
    ¬ Along transmitNext (TransmitsRight (999 + 1)) transmitStart
      [.send quietEnv [1], .ack4 quietEnv false (pureAck 1000 8192),
        .ack4 quietEnv false (pureAck 1000 8192), .ack4 quietEnv false (pureAck 1000 8192)] := by
  refine ⟨transmitStart_start, ?_, ?_⟩
  · rintro ⟨-, h, -⟩
    have hsent : ∃ e ∈ (transmitStep (transmitNext transmitStart
        (.send quietEnv (replicate 1400 1 ++ [2]))) (.timer quietEnv)).2,
        e.seq = 999 + 1 ∧ e.data = [2] := by decide +kernel
    obtain ⟨e, he, hseq, hdata⟩ := hsent
    refine not_carries_first ?_ ?_ hseq hdata ?_ (h.carries e he (by simp [hdata])) (b := 1)
    all_goals decide +kernel
  · rintro ⟨-, -, -, h, -⟩
    obtain ⟨e, he, hne, -⟩ := h.dup ⟨by decide +kernel, by decide +kernel, by
      rw [Outstanding]
      decide +kernel⟩
    exact hne (dataless_input4 quietEnv _ false (pureAck 1000 8192) e he)

end CosmoRT.Net
