import CosmoRT.Net.TcpInput

/-!
# What a segment can do to the send side

A segment that arrives may acknowledge data and set the window.  Everything else it does leaves
the numbers of the send side alone, and nothing it causes to be sent carries data.
-/

namespace CosmoRT.Net

open List

/-- The numbers of the send side are left alone; the cached segment may be dropped. -/
structure SameSend (c c' : NetTcp) : Prop where
  nxt : c'.sndNxt = c.sndNxt
  una : c'.sndUna = c.sndUna
  wnd : c'.sndWnd = c.sndWnd
  scale : c'.sndWscale = c.sndWscale
  retx : c'.retxBuf = c.retxBuf ∨ c'.retxBuf = []
  live : c.state ≠ .synSent → c'.state ≠ .synSent

theorem SameSend.refl (c : NetTcp) : SameSend c c := ⟨rfl, rfl, rfl, rfl, .inl rfl, id⟩

theorem keptOrDropped {a b c : List UInt8} (h : b = a ∨ b = []) (h' : c = b ∨ c = []) :
    c = a ∨ c = [] := by
  rcases h' with rfl | rfl
  · exact h
  · exact .inr rfl

variable {c c' : NetTcp}

variable {c'' d : NetTcp}

theorem SameSend.trans (h : SameSend c c') (h' : SameSend c' c'') : SameSend c c'' :=
  ⟨h'.nxt.trans h.nxt, h'.una.trans h.una, h'.wnd.trans h.wnd, h'.scale.trans h.scale,
    keptOrDropped h.retx h'.retx, fun hc => h'.live (h.live hc)⟩

variable (env : TcpEnv)

theorem SameSend.oooInsert (c : NetTcp) (seq : BitVec 32) (data : List UInt8) :
    SameSend c (Net.oooInsert env c seq data) := by
  rw [Net.oooInsert]
  repeat' split
  all_goals exact ⟨rfl, rfl, rfl, rfl, .inl rfl, id⟩

theorem SameSend.data4 (c : NetTcp) (g : Segment) : SameSend c (dataInput4 env c g).1 := by
  rw [dataInput4]
  split
  · exact .refl c
  · split
    · exact ⟨rfl, rfl, rfl, rfl, .inl rfl, id⟩
    · split
      · exact (SameSend.oooInsert env c g.seq g.payload).trans ⟨rfl, rfl, rfl, rfl, .inl rfl, id⟩
      · exact .refl c

theorem SameSend.data6 (c : NetTcp) (g : Segment) : SameSend c (dataInput6 env c g).1 := by
  rw [dataInput6]
  split
  · exact ⟨rfl, rfl, rfl, rfl, .inl rfl, id⟩
  · exact .refl c

theorem SameSend.fin (c : NetTcp) (g : Segment) : SameSend c (finInput env c g).1 := by
  rw [finInput]
  split
  · exact .refl c
  · split
    · exact .refl c
    · -- each of the three states moves on to another open one
      dsimp only
      split
      case h_4 => exact ⟨rfl, rfl, rfl, rfl, .inl rfl, id⟩
      all_goals exact ⟨rfl, rfl, rfl, rfl, .inl rfl, fun _ => by simp [Net.sendEmpty, sendTcp]⟩

/-! ## What leaves both sides alone -/

/-- Ring, queue and `rcv_nxt` are left alone. -/
structure SameReceive (c c' : NetTcp) : Prop where
  rx : c'.rx = c.rx
  ooo : c'.ooo = c.ooo
  nxt : c'.rcvNxt = c.rcvNxt

/-- Neither side is touched. -/
structure Untouched (c c' : NetTcp) : Prop where
  receive : SameReceive c c'
  send : SameSend c c'

namespace Untouched

theorem refl (c : NetTcp) : Untouched c c := ⟨⟨rfl, rfl, rfl⟩, .refl c⟩

theorem trans {c'' : NetTcp} (h : Untouched c c') (h' : Untouched c' c'') : Untouched c c'' :=
  ⟨⟨h'.receive.rx.trans h.receive.rx, h'.receive.ooo.trans h.receive.ooo,
    h'.receive.nxt.trans h.receive.nxt⟩, h.send.trans h'.send⟩

variable (env : TcpEnv)

section

variable (c : NetTcp)

theorem sendEmpty (flags : UInt8) :
    Untouched c (Net.sendEmpty env c flags).1 := ⟨⟨rfl, rfl, rfl⟩, rfl, rfl, rfl, rfl, .inl rfl, id⟩

theorem cancel : Untouched c (tcpCancelRetx c) := by
  rw [tcpCancelRetx]
  split
  · exact ⟨⟨rfl, rfl, rfl⟩, rfl, rfl, rfl, rfl, .inr rfl, id⟩
  · exact .refl c

theorem arm : Untouched c (tcpArmRetx env c) := by
  rw [tcpArmRetx]
  split <;> exact ⟨⟨rfl, rfl, rfl⟩, rfl, rfl, rfl, rfl, .inl rfl, id⟩

theorem ackState (ack : BitVec 32) : Untouched c (ackState4 c ack) := by
  rw [ackState4]
  split
  · exact ⟨⟨rfl, rfl, rfl⟩, rfl, rfl, rfl, rfl, .inl rfl, fun _ => by simp⟩
  · split
    · exact ⟨⟨rfl, rfl, rfl⟩, rfl, rfl, rfl, rfl, .inl rfl, fun _ => by simp⟩
    · split
      · obtain ⟨hr, hs⟩ := cancel c
        exact ⟨⟨hr.rx, hr.ooo, hr.nxt⟩, hs.nxt, hs.una, hs.wnd, hs.scale, hs.retx, fun _ => by simp⟩
      · exact .refl c

theorem withCc (cc : Congestion) : Untouched c { c with cc := cc } :=
  ⟨⟨rfl, rfl, rfl⟩, rfl, rfl, rfl, rfl, .inl rfl, id⟩

theorem dup : Untouched c (dupAck env c).1 := by
  rw [dupAck]
  split
  · exact (withCc c _).trans (.sendEmpty env _ _)
  · split <;> exact .withCc c _

theorem mark (ce : Bool) : Untouched c (ecnMark c ce) := by
  rw [ecnMark]
  split <;> exact ⟨⟨rfl, rfl, rfl⟩, rfl, rfl, rfl, rfl, .inl rfl, id⟩

theorem measure (ts : Option (BitVec 32 × BitVec 32)) : Untouched c (measureRto env c ts) := by
  unfold measureRto
  split
  · exact .refl c
  · dsimp only
    split <;> exact ⟨⟨rfl, rfl, rfl⟩, rfl, rfl, rfl, rfl, .inl rfl, id⟩

theorem timer : Untouched c (ackTimer c) := by
  rw [ackTimer]
  split
  · exact .cancel c
  · exact ⟨⟨rfl, rfl, rfl⟩, rfl, rfl, rfl, rfl, .inl rfl, id⟩

theorem ecn (g : Segment) : Untouched c (ackEcn env c g) := by
  rw [ackEcn]
  split <;> split <;> exact ⟨⟨rfl, rfl, rfl⟩, rfl, rfl, rfl, rfl, .inl rfl, id⟩

theorem newAck (ts : Option (BitVec 32 × BitVec 32)) (g : Segment) :
    Untouched { c with sndUna := g.ack } (Net.newAck env c ts g) :=
  (((measure env _ ts).trans (.timer _)).trans (.ecn env _ g)).trans (.withCc _ _)

end

end Untouched

theorem SameSend.backoff (c : NetTcp) : SameSend c (Net.backoff env c) := by
  have h := (Untouched.arm env { c with
    retxCount := c.retxCount + 1
    rtoMs := if c.rtoMs * 2 > TCP_RTO_MAX_MS then TCP_RTO_MAX_MS else c.rtoMs * 2 }).send
  exact ⟨h.nxt, h.una, h.wnd, h.scale, h.retx, h.live⟩

/-! ## A whole segment -/

/-- The largest window a segment can announce. -/
def maxWnd : ℕ := 65535 * 2 ^ 14

/-- What a segment `g` can do to the send side of `c`. -/
structure Received (c : NetTcp) (g : Segment) (c' : NetTcp) : Prop where
  nxt : c'.sndNxt = c.sndNxt
  una : c'.sndUna = c.sndUna ∨ g.has 0x10 ∧ after g.ack c.sndUna ∧ c'.sndUna = g.ack
  wnd : c.sndWscale ≤ 14 → c'.sndWnd = c.sndWnd ∨ c'.sndWnd.toNat ≤ maxWnd
  scale : c.sndWscale ≤ 14 → c'.sndWscale ≤ 14
  retx : c'.retxBuf = c.retxBuf ∨ c'.retxBuf = []
  live : c.state ≠ .synSent → c'.state ≠ .synSent

theorem SameSend.received (h : SameSend c c') (g : Segment) : Received c g c' :=
  ⟨h.nxt, .inl h.una, fun _ => .inl h.wnd, fun hs => h.scale ▸ hs, h.retx, h.live⟩

variable {g : Segment}

theorem Received.andSame (h : Received c g c') (h' : SameSend c' c'') : Received c g c'' :=
  ⟨h'.nxt.trans h.nxt, by rw [h'.una]; exact h.una, fun hs => by rw [h'.wnd]; exact h.wnd hs,
    fun hs => by rw [h'.scale]; exact h.scale hs, keptOrDropped h.retx h'.retx,
    fun hc => h'.live (h.live hc)⟩

theorem toNat_scaledWnd_le (h : c.sndWscale ≤ 14) (w : BitVec 16) :
    (scaledWnd c w).toNat ≤ maxWnd := by
  have hw : w.toNat ≤ 65535 := by omega
  rw [scaledWnd, maxWnd]
  split
  · rw [BitVec.toNat_shiftLeft, Nat.shiftLeft_eq]
    calc (w.setWidth 32).toNat * 2 ^ c.sndWscale % 2 ^ 32
        ≤ (w.setWidth 32).toNat * 2 ^ c.sndWscale := Nat.mod_le _ _
      _ ≤ 65535 * 2 ^ 14 :=
          Nat.mul_le_mul (by simpa using (Nat.mod_le _ _).trans hw)
            (Nat.pow_le_pow_right (by omega) h)
  · have : (w.setWidth 32).toNat ≤ 65535 := by simpa using (Nat.mod_le _ _).trans hw
    omega

/-- One option sets at most the scale, and that to at most 14. -/
theorem Received.option {x : NetTcp × Option (BitVec 32 × BitVec 32)}
    (h : Received c g x.1) (o : List UInt8) : Received c g (connOption x o).1 := by
  rw [connOption]
  split
  · refine ⟨h.nxt, h.una, h.wnd, fun _ => ?_, h.retx, h.live⟩
    dsimp only
    split <;> omega
  · repeat' split
    all_goals exact ⟨h.nxt, h.una, h.wnd, h.scale, h.retx, h.live⟩

theorem Received.options (c : NetTcp) (g : Segment) (opts : List UInt8) :
    Received c g (parseTcpOptions c opts).1 :=
  parseOptions_keeps (P := fun x : NetTcp × Option (BitVec 32 × BitVec 32) => Received c g x.1)
    (fun _ o h => h.option o)
    ((SameSend.refl c).received g) opts

theorem parse_keeps (c : NetTcp) (opts : List UInt8) :
    let d := (parseTcpOptions c opts).1
    d.state = c.state ∧ d.sndUna = c.sndUna ∧ d.sndWnd = c.sndWnd := by
  refine parseOptions_keeps (P := fun x : NetTcp × Option (BitVec 32 × BitVec 32) =>
    x.1.state = c.state ∧ x.1.sndUna = c.sndUna ∧ x.1.sndWnd = c.sndWnd) ?_ ⟨rfl, rfl, rfl⟩ opts
  intro x o hx
  rw [connOption]
  repeat' split
  all_goals exact hx

@[simp] theorem state_ecnMark (c : NetTcp) (ce : Bool) : (ecnMark c ce).state = c.state := by
  rw [ecnMark]
  split <;> rfl

theorem Received.ack4 {c0 : NetTcp} (h : Received c0 g c) (huna : c.sndUna = c0.sndUna)
    (ts : Option (BitVec 32 × BitVec 32)) : Received c0 g (ackInput4 env c ts g).1 := by
  rw [ackInput4]
  split
  case isFalse => exact h
  case isTrue hack =>
    -- the window and the state come after each of the three branches
    have hrest : ∀ d, Received c0 g d →
        Received c0 g (ackState4 { d with sndWnd := scaledWnd d g.wnd } g.ack) := by
      refine fun d hd => Received.andSame ?_ (Untouched.ackState _ _).send
      exact ⟨hd.nxt, hd.una, fun hc => .inr (toNat_scaledWnd_le (hd.scale hc) g.wnd), hd.scale,
        hd.retx, hd.live⟩
    split
    case isTrue hnew =>
      have hs := (Untouched.newAck env c ts g).send
      exact hrest _ ⟨hs.nxt.trans h.nxt, .inr ⟨hack, huna ▸ hnew, hs.una⟩,
        fun hc => by rw [hs.wnd]; exact h.wnd hc, fun hc => by rw [hs.scale]; exact h.scale hc,
        keptOrDropped h.retx hs.retx, fun hc => hs.live (h.live hc)⟩
    case isFalse =>
      split
      · exact hrest _ (h.andSame (Untouched.dup env c).send)
      · exact hrest _ h

theorem Received.ack6 (c : NetTcp) (g : Segment) : Received c g (ackInput6 c g) := by
  rw [ackInput6]
  split
  case isFalse => exact (SameSend.refl c).received g
  case isTrue hack =>
    have hwnd : (g.wnd.setWidth 32).toNat ≤ maxWnd := by
      have : (g.wnd.setWidth 32).toNat ≤ g.wnd.toNat := by simpa using Nat.mod_le _ _
      rw [maxWnd]
      omega
    have huna : (if after g.ack c.sndUna then g.ack else c.sndUna) = c.sndUna ∨
        g.has 0x10 ∧ after g.ack c.sndUna ∧
          (if after g.ack c.sndUna then g.ack else c.sndUna) = g.ack := by
      split
      case isTrue hnew => exact .inr ⟨hack, hnew, rfl⟩
      case isFalse => exact .inl rfl
    dsimp only
    split
    · exact ⟨rfl, huna, fun _ => .inr hwnd, id, .inl rfl, fun _ => by simp⟩
    · split
      · exact ⟨rfl, huna, fun _ => .inr hwnd, id, .inl rfl, fun _ => by simp⟩
      · exact ⟨rfl, huna, fun _ => .inr hwnd, id, .inl rfl, id⟩

theorem Received.input4 (ce : Bool) (hc : c.state = .synSent → g.flags &&& 0x12 ≠ 0x12)
    : Received c g (tcpInput4 env c ce g).1 := by
  have ho := Received.options c g g.opts
  obtain ⟨hstate, huna, -⟩ := parse_keeps c g.opts
  rw [tcpInput4]
  generalize parseTcpOptions c g.opts = p at ho hstate huna ⊢
  split
  · exact ho.andSame (Untouched.sendEmpty env _ _).send
  have hmark := Untouched.mark p.1 ce
  have hm := ho.andSame hmark.send
  rw [if_neg fun h => hc (by rw [← hstate, ← h.1, state_ecnMark]) h.2]
  split
  · have hcancel := hm.andSame (Untouched.cancel _).send
    exact ⟨hcancel.nxt, hcancel.una, hcancel.wnd, hcancel.scale, hcancel.retx,
      fun _ => by simp [reset4]⟩
  · have hack := hm.ack4 env (hmark.send.una.trans huna) p.2
    exact (hack.andSame (.data4 env _ g)).andSame (.fin env _ g)

theorem Received.input6 (hc : c.state = .synSent → g.flags &&& 0x12 ≠ 0x12)
    : Received c g (tcpInput6 env c g).1 := by
  rw [tcpInput6, if_neg fun h => hc h.1 h.2]
  split
  · exact ⟨rfl, .inl rfl, fun _ => .inl rfl, id, .inl rfl, fun _ => by simp [reset6]⟩
  · exact ((Received.ack6 c g).andSame (.data6 env _ g)).andSame (.fin env _ g)

/-! ## What is sent in answer -/

/-- No segment carries data. -/
def Dataless (es : List Emit) : Prop := ∀ e ∈ es, e.data = []

theorem dataless_nil : Dataless [] := fun _ h => absurd h not_mem_nil

theorem dataless_sendEmpty (c : NetTcp) (flags : UInt8) : Dataless (sendEmpty env c flags).2 := by
  intro e he
  rw [mem_singleton.mp he]
  rfl

theorem Dataless.andThen {x : NetTcp × List Emit} {f : NetTcp → NetTcp × List Emit}
    (h : Dataless x.2) (h' : Dataless (f x.1).2) : Dataless (Net.andThen x f).2 := by
  intro e he
  rcases mem_append.mp he with he | he
  · exact h e he
  · exact h' e he

theorem dataless_dup (c : NetTcp) : Dataless (dupAck env c).2 := by
  rw [dupAck]
  split
  · exact dataless_sendEmpty env _ _
  · split <;> exact dataless_nil

theorem dataless_ack4 (c : NetTcp) (ts : Option (BitVec 32 × BitVec 32)) (g : Segment)
    : Dataless (ackInput4 env c ts g).2 := by
  rw [ackInput4]
  split
  · split
    · exact dataless_nil
    · split
      · exact dataless_dup env c
      · exact dataless_nil
  · exact dataless_nil

theorem dataless_data4 (c : NetTcp) (g : Segment) : Dataless (dataInput4 env c g).2 := by
  rw [dataInput4]
  repeat' split
  all_goals first
    | exact dataless_nil
    | exact dataless_sendEmpty env _ _

theorem dataless_data6 (c : NetTcp) (g : Segment) : Dataless (dataInput6 env c g).2 := by
  rw [dataInput6]
  split
  · exact dataless_sendEmpty env _ _
  · exact dataless_nil

theorem dataless_fin (c : NetTcp) (g : Segment) : Dataless (finInput env c g).2 := by
  rw [finInput]
  repeat' split
  all_goals first
    | exact dataless_nil
    | (dsimp only; split <;> first | exact dataless_sendEmpty env _ _ | exact dataless_nil)

theorem dataless_input4 (c : NetTcp) (ce : Bool) (g : Segment) :
    Dataless (tcpInput4 env c ce g).2 := by
  rw [tcpInput4]
  dsimp only
  split
  · exact dataless_sendEmpty env _ _
  · split
    · exact dataless_sendEmpty env _ _
    · split
      · exact dataless_nil
      · exact ((dataless_ack4 env _ _ g).andThen (dataless_data4 env _ g)).andThen
          (dataless_fin env _ g)

theorem dataless_input6 (c : NetTcp) (g : Segment) : Dataless (tcpInput6 env c g).2 := by
  rw [tcpInput6]
  split
  · exact dataless_sendEmpty env _ _
  · split
    · exact dataless_nil
    · exact (dataless_data6 env _ g).andThen (dataless_fin env _ g)

end CosmoRT.Net
