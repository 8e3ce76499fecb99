import CosmoRT.Net.TcpFrame

/-!
# The stream a TCP connection receives

The peer sends a stream `S`; its segments arrive in any order, some not at all, some twice, and
overlap.  What `net_tcp_recv` has returned and what waits in the ring are the first bytes of `S`.

* `Reassembled` — what has been returned and what waits are the stream up to `rcv_nxt`, and every
  queued segment is a piece of it.
* `receives_stream` — **the returned bytes are a prefix of the stream, and `rcv_nxt` counts the
  bytes in the ring**, in every run in which the queued segments that become due fit into the
  ring.  `ooo_drain` does not look: `receive_loses` has a run in which a queued byte is dropped
  and counted.
-/

namespace CosmoRT.Net

open Lib List
open BitVec (ofNat)

/-! ## The ring -/

/-- The ring is there and its bytes are `content`. -/
def RingHolds (r : RxRing) (content : List UInt8) : Prop :=
  ∃ buf, r.buf = some buf ∧ buf.length = NET_TCP_RXBUF ∧ r.head < NET_TCP_RXBUF ∧
    r.tail = (r.head + content.length) % NET_TCP_RXBUF ∧ content.length < NET_TCP_RXBUF ∧
    window buf r.head content.length = content

/-- The bytes in the ring; a connection whose ring could not be allocated has none. -/
def RingIs (r : RxRing) (content : List UInt8) : Prop :=
  RingHolds r content ∨ r.buf = none ∧ r.head = r.tail ∧ r.head < NET_TCP_RXBUF ∧ content = []

variable {r : RxRing} {content : List UInt8}

theorem RingHolds.used (h : RingHolds r content) : rxringUsed r = content.length := by
  obtain ⟨buf, -, -, hhead, htail, hlen, -⟩ := h
  rw [rxringUsed]
  rw [NET_TCP_RXBUF] at *
  omega

theorem RingIs.used (h : RingIs r content) : rxringUsed r = content.length := by
  rcases h with h | ⟨-, heq, hlt, rfl⟩
  · exact h.used
  · rw [rxringUsed, heq]
    simp

theorem RingHolds.free (h : RingHolds r content) :
    rxringFree r = NET_TCP_RXBUF - 1 - content.length := by rw [rxringFree, h.used]

theorem RingHolds.push (h : RingHolds r content) (data : List UInt8) :
    (rxringPush r data).1 = min data.length (rxringFree r) ∧
    RingHolds (rxringPush r data).2 (content ++ data.take (min data.length (rxringFree r))) := by
  have hfree := h.free
  obtain ⟨buf, hbuf, hsize, hhead, htail, hlen, hwin⟩ := h
  have hn : (if data.length > rxringFree r then rxringFree r else data.length) =
      min data.length (rxringFree r) := by split <;> omega
  set n := min data.length (rxringFree r) with hndef
  have htake : (data.take n).length = n := by rw [length_take]; omega
  have hfit : content.length + n < NET_TCP_RXBUF := by omega
  rw [rxringPush, hbuf]
  dsimp only
  rw [hn]
  split
  case isTrue hz =>
    refine ⟨hz.symm, ?_⟩
    rw [hz, take_zero, append_nil]
    exact ⟨buf, hbuf, hsize, hhead, htail, hlen, hwin⟩
  case isFalse =>
    refine ⟨rfl, storeAll (data.take n) r.tail buf, rfl, ?_, hhead, ?_, ?_, ?_⟩
    · rw [length_storeAll, hsize]
    · rw [htail, length_append, htake, Nat.mod_add_mod, Nat.add_assoc]
    · rw [length_append, htake]
      exact hfit
    · have hstore : window (storeAll (data.take n) ((r.head + content.length) % buf.length) buf)
          r.head (content.length + (data.take n).length) = _ :=
        window_storeAll (data.take n) (by omega)
      rw [hsize, ← htail, hwin] at hstore
      rw [length_append]
      exact hstore

theorem RingIs.pop (h : RingIs r content) (len : ℤ) :
    ∃ k, (rxringPop r len).1 = content.take k ∧ RingIs (rxringPop r len).2 (content.drop k) := by
  rcases h with h | ⟨hbuf, heq, hlt, rfl⟩
  · have hused := h.used
    obtain ⟨buf, hbuf, hsize, hhead, htail, hlen, hwin⟩ := h
    obtain ⟨k, hk⟩ : ∃ k, k = if len > rxringUsed r then rxringUsed r else len.toNat := ⟨_, rfl⟩
    have hle : k ≤ content.length := by
      rw [hk]
      split <;> omega
    refine ⟨k, ?_⟩
    rw [rxringPop, hbuf]
    dsimp only
    rw [← hk]
    split
    case isTrue hz =>
      subst hz
      exact ⟨by simp, .inl ⟨buf, hbuf, hsize, hhead, htail, hlen, hwin⟩⟩
    case isFalse =>
      have hsplit := window_add buf r.head k (content.length - k)
      rw [Nat.add_sub_cancel' hle, hwin, hsize] at hsplit
      have hfst : window buf r.head k = content.take k := by
        rw [hsplit, take_left' (length_window buf r.head k)]
      have hsnd : window buf ((r.head + k) % NET_TCP_RXBUF) (content.length - k) =
          content.drop k := by
        conv_rhs => rw [hsplit]
        rw [drop_left' (length_window buf r.head k)]
      refine ⟨hfst, .inl ⟨buf, rfl, hsize, Nat.mod_lt _ (by decide), ?_, ?_, ?_⟩⟩
      · rw [htail, length_drop, Nat.mod_add_mod, Nat.add_assoc, Nat.add_sub_cancel' hle]
      · rw [length_drop]
        omega
      · rw [length_drop]
        exact hsnd
  · refine ⟨0, ?_⟩
    rw [rxringPop, hbuf]
    exact ⟨rfl, .inr ⟨hbuf, heq, hlt, rfl⟩⟩

theorem buf_rxringPop (r : RxRing) (len : ℤ) : (rxringPop r len).2.buf = r.buf := by
  unfold rxringPop
  split
  · rfl
  · dsimp only
    generalize (if len > rxringUsed r then rxringUsed r else len.toNat) = n
    split <;> rfl

/-! ## What leaves the receive side alone -/

variable {c : NetTcp}

theorem SameReceive.refl (c : NetTcp) : SameReceive c c := ⟨rfl, rfl, rfl⟩

variable {base seq : BitVec 32} {q : List OooSeg} {c' : NetTcp} {rx : RxRing}

theorem SameReceive.trans {c'' : NetTcp} (h : SameReceive c c') (h' : SameReceive c' c'') :
    SameReceive c c'' := ⟨h'.rx.trans h.rx, h'.ooo.trans h.ooo, h'.nxt.trans h.nxt⟩

theorem SameReceive.options (c : NetTcp) (opts : List UInt8) :
    SameReceive c (parseTcpOptions c opts).1 := by
  refine parseOptions_keeps
    (P := fun x : NetTcp × Option (BitVec 32 × BitVec 32) => SameReceive c x.1) ?_ (.refl c) opts
  intro x o h
  rw [connOption]
  repeat' split
  all_goals exact ⟨h.rx, h.ooo, h.nxt⟩

variable (env : TcpEnv)

theorem SameReceive.ack4 (c : NetTcp) (ts : Option (BitVec 32 × BitVec 32)) (g : Segment)
    : SameReceive c (ackInput4 env c ts g).1 := by
  rw [ackInput4]
  split
  · refine SameReceive.trans ?_ (Untouched.ackState _ _).receive
    split
    · have h := (Untouched.newAck env c ts g).receive
      exact ⟨h.rx, h.ooo, h.nxt⟩
    · split
      · have h := (Untouched.dup env c).receive
        exact ⟨h.rx, h.ooo, h.nxt⟩
      · exact ⟨rfl, rfl, rfl⟩
  · exact .refl c

variable {g : Segment}

/-- After the handshake a segment without FIN does to the receive side what "Data" does, or
nothing. -/
theorem tcpInput4_receive (hc : c.state ≠ .synSent) (ce : Bool) (hfin : g.has 0x01 = false) :
    SameReceive c (tcpInput4 env c ce g).1 ∨
      ∃ d, SameReceive c d ∧ SameReceive (dataInput4 env d g).1 (tcpInput4 env c ce g).1 := by
  have ho := SameReceive.options c g.opts
  have hstate := (parse_keeps c g.opts).1
  rw [tcpInput4]
  generalize parseTcpOptions c g.opts = p at ho hstate ⊢
  split
  · exact .inl (ho.trans (Untouched.sendEmpty env _ _).receive)
  have hm := ho.trans (Untouched.mark p.1 ce).receive
  rw [if_neg fun h => hc (by rw [← hstate, ← h.1, state_ecnMark])]
  split
  · have h := hm.trans (Untouched.cancel _).receive
    exact .inl ⟨h.rx, h.ooo, h.nxt⟩
  · refine .inr ⟨_, hm.trans (.ack4 env _ p.2 g), ?_⟩
    show SameReceive _ (finInput env _ g).1
    rw [finInput, if_pos (by simp [hfin])]
    exact .refl _

/-! ## The stream -/

/-- The bytes `data` stand in the stream `S` at the place of the number `seq`. -/
def OfStream (S : List UInt8) (base seq : BitVec 32) (data : List UInt8) : Prop :=
  ∃ pos, seq = base + ofNat 32 pos ∧ pos + data.length ≤ S.length ∧
    (S.drop pos).take data.length = data

variable {S : List UInt8} {n : ℕ}

/-- Streams are shorter than half the numbers, so a number has one place. -/
theorem OfStream.place (hS : S.length < 2 ^ 31)
    {data : List UInt8} (h : OfStream S base seq data) (hn : n ≤ S.length)
    (hseq : seq = base + ofNat 32 n) :
    n + data.length ≤ S.length ∧ (S.drop n).take data.length = data := by
  obtain ⟨pos, hpos, hle, hbytes⟩ := h
  have heq : pos = n := by
    have hlt : pos < 2 ^ 32 ∧ n < 2 ^ 32 := by omega
    bv_omega
  subst heq
  exact ⟨hle, hbytes⟩

theorem take_append_next {data : List UInt8} {m : ℕ}
    (hbytes : (S.drop n).take data.length = data) (hm : m ≤ data.length) :
    S.take n ++ data.take m = S.take (n + m) := by
  rw [take_add, ← hbytes, take_take, Nat.min_eq_left hm]

/-! ## The run -/

/-- The connection and what `net_tcp_recv` has returned so far. -/
structure Receive where
  conn : NetTcp
  got : List UInt8

/-- What happens. -/
inductive ReceiveOp where
  | input (env : TcpEnv) (ce : Bool) (g : Segment)
  | recv (env : TcpEnv) (bufsize : ℤ)

def receiveNext (s : Receive) : ReceiveOp → Receive
  | .input env ce g => ⟨(tcpInput4 env s.conn ce g).1, s.got⟩
  | .recv env bufsize =>
    let r := netTcpRecv env s.conn bufsize
    ⟨r.2.2.1, s.got ++ r.2.1⟩

/-- The runs spoken of: data segments carry the bytes of the stream, at most `MSS` of them. -/
def InStream (S : List UInt8) (base : BitVec 32) : ReceiveOp → Prop
  | .input _ _ g =>
    g.payload.length ≤ MSS ∧ (g.payload ≠ [] → OfStream S base g.seq g.payload)
  | .recv _ _ => True

/-- How many queued bytes follow `rcvNxt` without a gap. -/
def drainLen : List OooSeg → BitVec 32 → ℕ
  | [], _ => 0
  | s :: q, rcvNxt =>
    if s.seq = rcvNxt then s.data.length + drainLen q (rcvNxt + ofNat 32 s.data.length)
    else 0

/-- The queued bytes that a segment makes due fit into the ring behind it; no segment carries
FIN, which takes a number of its own. -/
def ReceiveOk (s : Receive) : ReceiveOp → Prop
  | .input _ _ g =>
    g.has 0x01 = false ∧
    (g.payload ≠ [] → g.seq = s.conn.rcvNxt →
      drainLen s.conn.ooo (g.seq + ofNat 32 (rxringPush s.conn.rx g.payload).1) ≤
        rxringFree (rxringPush s.conn.rx g.payload).2)
  | .recv _ _ => True

/-- The returned bytes are a prefix of the stream, and `rcv_nxt` counts the bytes put into the
ring: those returned and those still there. -/
structure ReceivesRight (S : List UInt8) (base : BitVec 32) (s : Receive) : Prop where
  got : s.got <+: S
  count : (s.conn.rcvNxt - base).toNat = s.got.length + rxringUsed s.conn.rx

/-! ## The invariant -/

/-- `old` and the bytes in the ring are the stream up to `rcv_nxt`. -/
structure Reassembled (S : List UInt8) (base : BitVec 32) (old : List UInt8) (c : NetTcp) :
    Prop where
  upTo : ∃ n content, n ≤ S.length ∧ c.rcvNxt = base + ofNat 32 n ∧
    RingIs c.rx content ∧ old ++ content = S.take n
  queue : ∀ q ∈ c.ooo, OfStream S base q.seq q.data
  noRing : c.rx.buf = none → ∀ q ∈ c.ooo, q.seq ≠ c.rcvNxt

variable {old : List UInt8}

theorem Reassembled.same
    (h : Reassembled S base old c) (hs : SameReceive c c') : Reassembled S base old c' := by
  refine ⟨?_, ?_, ?_⟩
  · rw [hs.rx, hs.nxt]
    exact h.upTo
  · rw [hs.ooo]
    exact h.queue
  · rw [hs.rx, hs.ooo, hs.nxt]
    exact h.noRing

theorem Reassembled.drainLoop (hS : S.length < 2 ^ 31) (q : List OooSeg) (hn : n ≤ S.length)
    (hring : RingHolds rx content) (hstream : old ++ content = S.take n)
    (hq : ∀ s ∈ q, OfStream S base s.seq s.data)
    (hfit : drainLen q (base + ofNat 32 n) ≤ rxringFree rx) :
    ∃ n' content', n' ≤ S.length ∧
      (Net.drainLoop q rx (base + ofNat 32 n)).2.2 = base + ofNat 32 n' ∧
      RingHolds (Net.drainLoop q rx (base + ofNat 32 n)).2.1 content' ∧
      old ++ content' = S.take n' ∧
      ∀ s ∈ (Net.drainLoop q rx (base + ofNat 32 n)).1, s ∈ q := by
  induction q generalizing rx content n with
  | nil => exact ⟨n, content, hn, rfl, hring, hstream, fun _ h => h⟩
  | cons s q ih =>
    rw [Net.drainLoop]
    by_cases hs : s.seq = base + ofNat 32 n
    · rw [if_pos hs]
      rw [drainLen, if_pos hs] at hfit
      obtain ⟨hle, hbytes⟩ := (hq s mem_cons_self).place hS hn hs
      obtain ⟨-, hpush⟩ := hring.push s.data
      have hall : min s.data.length (rxringFree rx) = s.data.length := by omega
      rw [hall, take_length] at hpush
      have hnext : base + ofNat 32 n + ofNat 32 s.data.length =
          base + ofNat 32 (n + s.data.length) := by
        rw [BitVec.ofNat_add, BitVec.add_assoc]
      rw [hnext] at hfit ⊢
      have hroom : rxringFree (rxringPush rx s.data).2 = rxringFree rx - s.data.length := by
        rw [hpush.free, hring.free, length_append]
        omega
      have hstream' : old ++ (content ++ s.data) = S.take (n + s.data.length) := by
        rw [← append_assoc, hstream, ← take_append_next hbytes le_rfl, take_length]
      obtain ⟨n', content', hn', hnxt, hr, hst, hsub⟩ := ih hle hpush hstream'
        (fun t ht => hq t (mem_cons_of_mem _ ht)) (by omega)
      exact ⟨n', content', hn', hnxt, hr, hst, fun t ht => mem_cons_of_mem _ (hsub t ht)⟩
    · rw [if_neg hs]
      exact ⟨n, content, hn, rfl, hring, hstream, fun _ h => h⟩

theorem drainLoop_none {nxt : BitVec 32}
    (h : ∀ s ∈ q, s.seq ≠ nxt) : drainLoop q rx nxt = (q, rx, nxt) := by
  cases q with
  | nil => rfl
  | cons s q => rw [drainLoop, if_neg (h s mem_cons_self)]

theorem mem_oooPlace {s : OooSeg} {q' : List OooSeg} (h : oooPlace s q = some q') :
    ∀ t ∈ q', t = s ∨ t ∈ q := by
  induction q generalizing q' with
  | nil =>
    obtain rfl := Option.some.inj h
    intro t ht
    exact .inl (mem_singleton.mp ht)
  | cons a q ih =>
    rw [oooPlace] at h
    split at h
    · obtain ⟨r, hr, rfl⟩ := Option.map_eq_some_iff.mp h
      intro t ht
      rcases mem_cons.mp ht with rfl | ht
      · exact .inr mem_cons_self
      · rcases ih hr t ht with hts | htq
        · exact .inl hts
        · exact .inr (mem_cons_of_mem _ htq)
    · split at h
      · exact absurd h (by simp)
      · obtain rfl := Option.some.inj h
        intro t ht
        exact mem_cons.mp ht

theorem Reassembled.insert (h : Reassembled S base old c)
    {data : List UInt8} (hdata : OfStream S base seq data) (hne : seq ≠ c.rcvNxt) :
    Reassembled S base old (oooInsert env c seq data) := by
  rw [oooInsert]
  split
  · exact h
  split
  · exact h
  split
  · exact h
  case h_2 q hq =>
    split
    · refine ⟨h.upTo, ?_, ?_⟩
      · intro t ht
        rcases mem_oooPlace hq t ht with rfl | hold
        · exact hdata
        · exact h.queue t hold
      · intro hnone t ht
        rcases mem_oooPlace hq t ht with rfl | hold
        · exact hne
        · exact h.noRing hnone t hold
    · exact h

/-- A segment in order is stored as far as it fits, and what it makes due follows. -/
theorem Reassembled.inOrder (hS : S.length < 2 ^ 31)
    (h : Reassembled S base old c) (hseq : g.seq = c.rcvNxt)
    (hdata : OfStream S base g.seq g.payload)
    (hfit : drainLen c.ooo (g.seq + ofNat 32 (rxringPush c.rx g.payload).1) ≤
      rxringFree (rxringPush c.rx g.payload).2) :
    Reassembled S base old (oooDrain { c with
      rx := (rxringPush c.rx g.payload).2
      rcvNxt := g.seq + ofNat 32 (rxringPush c.rx g.payload).1 }) := by
  obtain ⟨n, content, hn, hnxt, hring, hstream⟩ := h.upTo
  rcases hring with hring | hnone
  · obtain ⟨hle, hbytes⟩ := hdata.place hS hn (hseq.trans hnxt)
    obtain ⟨hstored, hpush⟩ := hring.push g.payload
    set m := min g.payload.length (rxringFree c.rx) with hm
    have hmle : m ≤ g.payload.length := by omega
    have hnum : g.seq + ofNat 32 (rxringPush c.rx g.payload).1 =
        base + ofNat 32 (n + m) := by
      rw [hstored, hseq, hnxt, BitVec.ofNat_add, BitVec.add_assoc]
    have hstream' : old ++ (content ++ g.payload.take m) = S.take (n + m) := by
      rw [← append_assoc, hstream, take_append_next hbytes hmle]
    rw [hnum] at hfit ⊢
    obtain ⟨n', content', hn', hnxt', hr, hst, hsub⟩ :=
      Reassembled.drainLoop hS c.ooo (by omega) hpush hstream' h.queue hfit
    refine ⟨⟨n', content', hn', hnxt', .inl hr, hst⟩, fun t ht => h.queue t (hsub t ht), ?_⟩
    -- the ring is there
    obtain ⟨buf, hbuf, -⟩ := hr
    intro hnone
    exact absurd (hbuf.symm.trans hnone) (by simp)
  · have hpush : rxringPush c.rx g.payload = (0, c.rx) := by rw [rxringPush, hnone.1]
    have hnum : g.seq + ofNat 32 (rxringPush c.rx g.payload).1 = c.rcvNxt := by
      rw [hpush, hseq]
      simp
    rw [hnum, hpush, oooDrain]
    rw [drainLoop_none (h.noRing hnone.1)]
    exact ⟨⟨n, content, hn, hnxt, .inr hnone, hstream⟩, h.queue, h.noRing⟩

theorem Reassembled.data (hS : S.length < 2 ^ 31) (env : TcpEnv) (h : Reassembled S base old c)
    (hdata : g.payload ≠ [] → OfStream S base g.seq g.payload)
    (hfit : g.payload ≠ [] → g.seq = c.rcvNxt →
      drainLen c.ooo (g.seq + ofNat 32 (rxringPush c.rx g.payload).1) ≤
        rxringFree (rxringPush c.rx g.payload).2) :
    Reassembled S base old (dataInput4 env c g).1 := by
  rw [dataInput4]
  split
  · exact h
  case isFalse hne =>
    split
    case isTrue hseq =>
      exact (h.inOrder hS hseq (hdata hne) (hfit hne hseq)).same ⟨rfl, rfl, rfl⟩
    case isFalse hseq =>
      split
      · exact (h.insert env (hdata hne) hseq).same ⟨rfl, rfl, rfl⟩
      · exact h

theorem Reassembled.recv (h : Reassembled S base old c) (bufsize : ℤ) :
    Reassembled S base (old ++ (netTcpRecv env c bufsize).2.1)
      (netTcpRecv env c bufsize).2.2.1 := by
  obtain ⟨n, content, hn, hnxt, hring, hstream⟩ := h.upTo
  obtain ⟨k, hpop, hring'⟩ := hring.pop bufsize
  -- the connection after the pop
  have hpopped : Reassembled S base (old ++ (rxringPop c.rx bufsize).1)
      { c with rx := (rxringPop c.rx bufsize).2 } := by
    refine ⟨⟨n, content.drop k, hn, hnxt, hring', ?_⟩, h.queue, fun hnone => h.noRing ?_⟩
    · rw [hpop, append_assoc, take_append_drop, hstream]
    · exact (buf_rxringPop c.rx bufsize).symm.trans hnone
  have hkeep : Reassembled S base (old ++ []) c := by rwa [append_nil]
  rw [netTcpRecv]
  split
  · split
    · exact hpopped
    · exact hkeep
  · dsimp only
    split
    · split
      · exact hpopped.same ⟨rfl, rfl, rfl⟩
      · exact hpopped
    · repeat' split
      all_goals exact hkeep

theorem recv_live (hc : c.state ≠ .synSent) (bufsize : ℤ) :
    (netTcpRecv env c bufsize).2.2.1.state ≠ .synSent := by
  rw [netTcpRecv]
  dsimp only
  repeat' split
  all_goals exact hc

/-- After the handshake, with the stream reassembled. -/
structure ReceiveInv (S : List UInt8) (base : BitVec 32) (s : Receive) : Prop where
  live : s.conn.state ≠ .synSent
  stream : Reassembled S base s.got s.conn

variable {s : Receive}

theorem ReceiveInv.next (hS : S.length < 2 ^ 31)
    (h : ReceiveInv S base s) {op : ReceiveOp} (hin : InStream S base op) (hok : ReceiveOk s op) :
    ReceiveInv S base (receiveNext s op) := by
  cases op with
  | input env ce g =>
    obtain ⟨hfin, hfit⟩ := hok
    refine ⟨(Received.input4 env ce fun hc => absurd hc h.live).live h.live, ?_⟩
    rcases tcpInput4_receive env h.live ce hfin with hsame | ⟨d, hd, hdata⟩
    · exact h.stream.same hsame
    · refine ((h.stream.same hd).data hS env hin.2 ?_).same hdata
      rw [hd.rx, hd.ooo, hd.nxt]
      exact hfit
  | recv env bufsize => exact ⟨recv_live env h.live bufsize, h.stream.recv env bufsize⟩

theorem ReceiveInv.right (hS : S.length < 2 ^ 31)
    (h : ReceiveInv S base s) : ReceivesRight S base s := by
  obtain ⟨n, content, hn, hnxt, hring, hstream⟩ := h.stream.upTo
  refine ⟨?_, ?_⟩
  · exact (prefix_append s.got content).trans (hstream ▸ take_prefix n S)
  have hlen : s.got.length + content.length = n := by
    rw [← length_append, hstream, length_take]
    omega
  rw [hring.used, hlen]
  bv_omega

/-- An established connection with nothing queued, whose ring holds the first bytes of the
stream; a connection that was just opened holds none, or those that came before `accept`. -/
structure ReceiveStart (S : List UInt8) (base : BitVec 32) (s : Receive) : Prop where
  established : s.conn.state = .established
  got : s.got = []
  queue : s.conn.ooo = []
  ring : ∃ n ≤ S.length, s.conn.rcvNxt = base + ofNat 32 n ∧ RingIs s.conn.rx (S.take n)

theorem ReceiveStart.inv (h : ReceiveStart S base s) : ReceiveInv S base s := by
  obtain ⟨n, hn, hnxt, hring⟩ := h.ring
  refine ⟨by simp [h.established], ⟨⟨n, S.take n, hn, hnxt, hring, by simp [h.got]⟩, ?_, ?_⟩⟩
  · simp [h.queue]
  · simp [h.queue]

/-- **The stream is received.**  In every run whose steps all meet the condition, what
`net_tcp_recv` returned is a prefix of the stream and `rcv_nxt` counts the bytes put into the
ring. -/
theorem receives_stream {S : List UInt8} (hS : S.length < 2 ^ 31) {irs : BitVec 32} {s : Receive}
    (hs : ReceiveStart S (irs + 1) s) {ops : List ReceiveOp}
    (hok : Along receiveNext (fun s op => InStream S (irs + 1) op ∧ ReceiveOk s op) s ops) :
    ReceivesRight S (irs + 1) (run receiveNext s ops) := by
  have hstep : ∀ (s : Receive) (op : ReceiveOp), ReceiveInv S (irs + 1) s →
      InStream S (irs + 1) op ∧ ReceiveOk s op → ReceiveInv S (irs + 1) (receiveNext s op) :=
    fun _ _ h hop => h.next hS hop.1 hop.2
  exact (run_invariant hstep hs.inv hok).right hS

/-! ## Runs -/

/-- A data segment. -/
def dataSegment (seq : BitVec 32) (data : List UInt8) : Segment :=
  ⟨80, 50000, seq, 0, 0, 512, [], data⟩

/-- An established connection that expects number 1000, with an empty ring. -/
def receiveStart : Receive :=
  ⟨{ zeroTcp with
      state := .established
      rcvNxt := 1000
      rx := ⟨some (replicate NET_TCP_RXBUF 0), 0, 0⟩ }, []⟩

/-- The second segment comes first; the reader gets both in order. -/
theorem receives_stream_swapped :
    ReceivesRight [5, 6, 7] (999 + 1) (run receiveNext receiveStart
      [.input ⟨0, true, true⟩ false (dataSegment 1002 [7]),
        .input ⟨0, true, true⟩ false (dataSegment 1000 [5, 6]), .recv ⟨0, true, true⟩ 10]) := by
  have hstart : ReceiveStart [5, 6, 7] (999 + 1) receiveStart :=
    ⟨rfl, rfl, rfl, 0, by decide, rfl, .inl ⟨_, rfl, length_replicate, by decide, rfl,
      by decide, rfl⟩⟩
  refine receives_stream (by decide) hstart
    ⟨⟨⟨by decide, fun _ => ⟨2, rfl, by decide, rfl⟩⟩, rfl, fun _ h => absurd h (by decide)⟩,
      ⟨⟨by decide, fun _ => ⟨0, rfl, by decide, rfl⟩⟩, rfl, fun _ _ => by decide +kernel⟩,
      ⟨trivial, trivial⟩, trivial⟩

/-- A connection with room for one byte, after 65534 bytes of a stream of 65536. -/
def nearlyFull : Receive :=
  ⟨{ zeroTcp with
      state := .established
      rcvNxt := 66534
      rx := ⟨some (replicate 65534 0 ++ [0, 0]), 0, 65534⟩ }, []⟩

/-- The last byte of the stream waits in the queue; the byte before it fills the ring and makes
it due.  It is dropped, and `rcv_nxt` counts it. -/
theorem receive_loses :
    ReceiveStart (replicate 65536 0) (999 + 1) nearlyFull ∧
    InStream (replicate 65536 0) (999 + 1)
      (.input ⟨0, true, true⟩ false (dataSegment 66535 [0])) ∧
    InStream (replicate 65536 0) (999 + 1)
      (.input ⟨0, true, true⟩ false (dataSegment 66534 [0])) ∧
    ¬ ReceivesRight (replicate 65536 0) (999 + 1) (run receiveNext nearlyFull
      [.input ⟨0, true, true⟩ false (dataSegment 66535 [0]),
        .input ⟨0, true, true⟩ false (dataSegment 66534 [0])]) := by
  refine ⟨⟨rfl, rfl, rfl, 65534, ?_, rfl, .inl ⟨_, rfl, ?_, by decide, ?_, ?_, ?_⟩⟩, ?_, ?_, ?_⟩
  · rw [length_replicate]
    decide
  · rw [length_append, length_replicate]
    decide
  · rw [take_replicate, length_replicate]
    decide
  · rw [take_replicate, length_replicate]
    decide
  · rw [take_replicate, length_replicate]
    have hwin := window_rebase (replicate 65534 (0 : UInt8)) [0, 0]
    rwa [length_replicate] at hwin
  · refine ⟨by decide, fun _ => ⟨65535, rfl, ?_, ?_⟩⟩
    · rw [length_replicate]
      decide
    · rw [drop_replicate]
      rfl
  · refine ⟨by decide, fun _ => ⟨65534, rfl, ?_, ?_⟩⟩
    · rw [length_replicate]
      decide
    · rw [drop_replicate]
      rfl
  · intro h
    exact absurd h.count (by decide +kernel)

end CosmoRT.Net
