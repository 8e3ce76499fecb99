import CosmoRT.Abi
import CosmoRT.Lib.Run
import CosmoRT.Net.Segment
import Mathlib.Data.List.Nodup

/-!
# The queues of a TCP listener

A listener keeps half-open requests in `syn_queue` and completed ones in `accept_queue`, with
a counter beside each.  SYNs and ACKs reach it through `tcp_input` (`net/tcp.c`) and
`tcp6_input` (`net/tcp6.c`); `tcp_listener_pop_accept` and `tcp_listener_drain` empty it.

* `QueuesOk` — the counters are the lengths, their sum is within the backlog, and no peer
  waits twice in `syn_queue`.
* `listener_queues` — over every run in which no ACK for a half-open request carries another
  number.  Such an ACK frees the request without counting it off, so `listener_leaks` fills the
  backlog of an empty listener.
-/

namespace CosmoRT.Net

open Lib List BitVec

/-! ## The model -/

/-- `tcp_request_t`; `early_len` is the length of `early`. -/
structure TcpRequest where
  isV6 : Bool
  srcIp : BitVec 32
  srcIp6 : BitVec 128
  localIp6 : BitVec 128
  srcMac : BitVec 48
  srcPort : BitVec 16
  localPort : BitVec 16
  iss : BitVec 32
  irs : BitVec 32
  wscaleOk : Bool
  sndWscale : ℕ
  tsEnabled : Bool
  ecnEnabled : Bool
  tsRecent : BitVec 32
  early : List UInt8
  deriving DecidableEq, Repr

def TCP_REQ_EARLY_DATA : ℕ := 1460

def TCP_SOMAXCONN_DEFAULT : ℕ := 4096

/-- The part of a listening `net_tcp_t` that its queues use. -/
structure Listener where
  synQueue : List TcpRequest
  acceptQueue : List TcpRequest
  synQlen : BitVec 32
  acceptQlen : BitVec 32
  backlog : BitVec 32
  deriving DecidableEq, Repr

/-- `do_listen`. -/
def doListen (backlog : ℤ) : Listener :=
  let bl := if backlog < 0 then 0 else backlog.toNat
  let bl := if bl > TCP_SOMAXCONN_DEFAULT then TCP_SOMAXCONN_DEFAULT else bl
  ⟨[], [], 0, 0, BitVec.ofNat 32 (bl + 1)⟩

/-- What is sent in answer. -/
inductive Reply where
  | nothing
  | synAck (r : TcpRequest)
  | ack (r : TcpRequest)
  deriving DecidableEq, Repr

/-- `tcp_req_remove`: the first request that matches, and the queue without it. -/
def tcpReqRemove (same : TcpRequest → Bool) :
    List TcpRequest → Option (TcpRequest × List TcpRequest)
  | [] => none
  | r :: q =>
    if same r then some (r, q) else (tcpReqRemove same q).map fun x => (x.1, r :: x.2)

/-- The first request that matches is changed in place. -/
def updateFirst (same : TcpRequest → Bool) (f : TcpRequest → TcpRequest) :
    List TcpRequest → List TcpRequest
  | [] => []
  | r :: q => if same r then f r :: q else r :: updateFirst same f q

/-- The options of a SYN that go into the request. -/
def synOption (r : TcpRequest) (o : List UInt8) : TcpRequest :=
  if optByte o 0 = 3 ∧ optByte o 1 = 3 then
    { r with
      sndWscale := if (optByte o 2).toNat > 14 then 14 else (optByte o 2).toNat
      wscaleOk := true }
  else if optByte o 0 = 8 ∧ optByte o 1 = 10 then
    { r with tsEnabled := true, tsRecent := opt32 o 2 }
  else r

section

variable (l : Listener)

/-- A SYN for the listener, in either version of IP: `same` finds an earlier request of its
peer and `fresh` is the new one.  `mem` says whether a request can be allocated. -/
def listenSyn (same : TcpRequest → Bool) (fresh : TcpRequest) (mem : Bool) : Listener × Reply :=
  match l.synQueue.find? same with
  | some dup => (l, .synAck dup)
  | none =>
    let cap := if l.backlog = 0 then BitVec.ofNat 32 TCP_SOMAXCONN_DEFAULT else l.backlog
    if cap ≤ l.synQlen + l.acceptQlen then (l, .nothing)
    else if mem = false then (l, .nothing)
    else
      ({ l with synQueue := l.synQueue ++ [fresh], synQlen := l.synQlen + 1 }, .synAck fresh)

/-- Payload that arrives with the ACK that completes the handshake. -/
def completed (r : TcpRequest) (g : Segment) : TcpRequest :=
  if g.payload.length > 0 ∧ g.seq = r.irs + 1 then
    let n := if g.payload.length > TCP_REQ_EARLY_DATA then TCP_REQ_EARLY_DATA else g.payload.length
    { r with iss := g.ack, early := g.payload.take n, irs := r.irs + BitVec.ofNat 32 n }
  else { r with iss := g.ack }

/-- Payload that arrives before the request is accepted. -/
def appendEarly (g : Segment) (r : TcpRequest) : TcpRequest :=
  if g.seq = r.irs + 1 then
    let free := TCP_REQ_EARLY_DATA - r.early.length
    let n := if g.payload.length > free then free else g.payload.length
    { r with early := r.early ++ g.payload.take n, irs := r.irs + BitVec.ofNat 32 n }
  else r

/-- An ACK for the listener, in either version of IP. -/
def listenAck (same : TcpRequest → Bool) (g : Segment) : Listener × Reply :=
  match tcpReqRemove same l.synQueue with
  | some (r, rest) =>
    -- a wrong number frees the request and leaves the counter alone
    if g.ack ≠ r.iss + 1 then ({ l with synQueue := rest }, .nothing)
    else
      ({ l with
          synQueue := rest
          synQlen := if 0 < l.synQlen then l.synQlen - 1 else l.synQlen
          acceptQueue := l.acceptQueue ++ [completed r g]
          acceptQlen := l.acceptQlen + 1 }, .nothing)
  | none =>
    match l.acceptQueue.find? same with
    | none => (l, .nothing)
    | some r =>
      if g.payload.length > 0 then
        ({ l with acceptQueue := updateFirst same (appendEarly g) l.acceptQueue },
          .ack (appendEarly g r))
      else (l, .nothing)

/-- The match of `tcp_req_find` and `tcp_req_remove`, which do not look at `is_v6`. -/
def samePeer4 (srcIp : BitVec 32) (sport : BitVec 16) (r : TcpRequest) : Bool :=
  r.srcPort = sport && r.srcIp = srcIp

/-- The match of the IPv6 code. -/
def samePeer6 (src : BitVec 128) (sport : BitVec 16) (r : TcpRequest) : Bool :=
  r.isV6 && r.srcIp6 = src && r.srcPort = sport

/-- The request of a SYN, but for the addresses. -/
def synRequest (g : Segment) (srcMac : BitVec 48) (iss : BitVec 32) : TcpRequest where
  isV6 := false
  srcIp := 0
  srcIp6 := 0
  localIp6 := 0
  srcMac := srcMac
  srcPort := g.sport
  localPort := g.dport
  iss := iss
  irs := g.seq
  wscaleOk := false
  sndWscale := 0
  tsEnabled := false
  ecnEnabled := g.flags &&& 0xC0 = 0xC0
  tsRecent := 0
  early := []

/-- The listener path of `tcp_input`; `iss` is what `net_random` returns. -/
def tcpListen4 (g : Segment) (srcIp : BitVec 32) (srcMac : BitVec 48)
    (iss : BitVec 32) (mem : Bool) : Listener × Reply :=
  if g.has 0x04 then (l, .nothing)
  else if g.isSyn then
    let r := { synRequest g srcMac iss with srcIp := srcIp }
    listenSyn l (samePeer4 srcIp g.sport) (parseOptions synOption r g.opts) mem
  else if g.has 0x10 then listenAck l (samePeer4 srcIp g.sport) g
  else (l, .nothing)

/-- The listener path of `tcp6_input`: `admit_v6_syn` and `promote_v6_request`.  There is no
look at RST. -/
def tcpListen6 (g : Segment) (src dst : BitVec 128) (srcMac : BitVec 48)
    (iss : BitVec 32) (mem : Bool) : Listener × Reply :=
  if g.isSyn then
    let r := { synRequest g srcMac iss with isV6 := true, srcIp6 := src, localIp6 := dst }
    listenSyn l (samePeer6 src g.sport) (parseOptions synOption r g.opts) mem
  else if g.has 0x10 then listenAck l (samePeer6 src g.sport) g
  else (l, .nothing)

/-- `tcp_listener_pop_accept`. -/
def tcpListenerPopAccept : Option TcpRequest × Listener :=
  match l.acceptQueue with
  | [] => (none, l)
  | r :: q =>
    (some r, { l with
      acceptQueue := q
      acceptQlen := if 0 < l.acceptQlen then l.acceptQlen - 1 else l.acceptQlen })

/-- `tcp_listener_drain`. -/
def tcpListenerDrain : Listener :=
  { l with synQueue := [], acceptQueue := [], synQlen := 0, acceptQlen := 0 }

/-- What can happen to a listener. -/
inductive ListenOp where
  | seg4 (g : Segment) (srcIp : BitVec 32) (srcMac : BitVec 48) (iss : BitVec 32) (mem : Bool)
  | seg6 (g : Segment) (src dst : BitVec 128) (srcMac : BitVec 48) (iss : BitVec 32) (mem : Bool)
  | popAccept
  | drain

/-- One step. -/
def listenNext : ListenOp → Listener
  | .seg4 g srcIp srcMac iss mem => (tcpListen4 l g srcIp srcMac iss mem).1
  | .seg6 g src dst srcMac iss mem => (tcpListen6 l g src dst srcMac iss mem).1
  | .popAccept => (tcpListenerPopAccept l).2
  | .drain => tcpListenerDrain l

/-- The segment of a step, with the match of its peer; over IPv4 a reset is dropped. -/
def ListenOp.segment : ListenOp → Option (Segment × (TcpRequest → Bool))
  | .seg4 g srcIp .. => if g.has 0x04 then none else some (g, samePeer4 srcIp g.sport)
  | .seg6 g src .. => some (g, samePeer6 src g.sport)
  | .popAccept | .drain => none

/-- The condition on one step: an ACK for a half-open request carries its `iss + 1`. -/
def AckRight (op : ListenOp) : Prop :=
  ∀ g same, op.segment = some (g, same) → g.isSyn = false → g.has 0x10 = true →
    ∀ r rest, tcpReqRemove same l.synQueue = some (r, rest) → g.ack = r.iss + 1

end

/-! ## The invariant -/

/-- Address and port of the peer. -/
def TcpRequest.peer (r : TcpRequest) : (BitVec 32 ⊕ BitVec 128) × BitVec 16 :=
  (if r.isV6 then .inr r.srcIp6 else .inl r.srcIp, r.srcPort)

/-- The queues and their counters agree. -/
structure QueuesOk (l : Listener) : Prop where
  syn : l.synQlen.toNat = l.synQueue.length
  accept : l.acceptQlen.toNat = l.acceptQueue.length
  within : l.synQueue.length + l.acceptQueue.length ≤ l.backlog.toNat
  peers : (l.synQueue.map TcpRequest.peer).Nodup
  /-- `do_listen` gives every listener a backlog, and not a large one. -/
  backlog_pos : 0 < l.backlog.toNat
  backlog_le : l.backlog.toNat ≤ TCP_SOMAXCONN_DEFAULT + 1

theorem queuesOk_doListen (backlog : ℤ) : QueuesOk (doListen backlog) := by
  obtain ⟨n, hn, hback⟩ : ∃ n, n ≤ TCP_SOMAXCONN_DEFAULT ∧
      doListen backlog = ⟨[], [], 0, 0, BitVec.ofNat 32 (n + 1)⟩ := by
    refine ⟨_, ?_, rfl⟩
    split_ifs <;> omega
  have hlt : (BitVec.ofNat 32 (n + 1)).toNat = n + 1 := by
    rw [BitVec.toNat_ofNat]
    simp only [TCP_SOMAXCONN_DEFAULT] at hn
    omega
  rw [hback]
  refine ⟨rfl, rfl, Nat.zero_le _, nodup_nil, ?_, ?_⟩ <;> dsimp only <;> omega

section Queue

variable {same : TcpRequest → Bool} {q : List TcpRequest}

theorem tcpReqRemove_some {r : TcpRequest} {rest : List TcpRequest}
    (h : tcpReqRemove same q = some (r, rest)) :
    same r = true ∧ ∃ before after, q = before ++ r :: after ∧ rest = before ++ after := by
  induction q generalizing rest with
  | nil => cases h
  | cons a q ih =>
    rw [tcpReqRemove] at h
    split at h
    · next hsame =>
      cases h
      exact ⟨hsame, [], _, rfl, rfl⟩
    · obtain ⟨⟨r', rest'⟩, hrest, heq⟩ := Option.map_eq_some_iff.mp h
      cases heq
      obtain ⟨hsame, before, after, hq, hr⟩ := ih hrest
      exact ⟨hsame, a :: before, after, by rw [hq]; rfl, by rw [hr]; rfl⟩

@[simp] theorem length_updateFirst (same : TcpRequest → Bool) (f : TcpRequest → TcpRequest)
    (q : List TcpRequest) : (updateFirst same f q).length = q.length := by
  induction q with
  | nil => rfl
  | cons r q ih =>
    rw [updateFirst]
    split
    · rfl
    · rw [length_cons, ih, length_cons]

end Queue

theorem synOption_peer (r : TcpRequest) (o : List UInt8) : (synOption r o).peer = r.peer := by
  unfold synOption
  split
  · rfl
  · split <;> rfl

theorem parseOptions_peer (r : TcpRequest) (opts : List UInt8) :
    (parseOptions synOption r opts).peer = r.peer :=
  parseOptions_keeps (P := fun s => s.peer = r.peer)
    (fun s o hs => (synOption_peer s o).trans hs) rfl opts

section Steps

variable {l : Listener} {same : TcpRequest → Bool} {g : Segment}

section

variable (h : QueuesOk l)
include h

theorem QueuesOk.sum :
    (l.synQlen + l.acceptQlen).toNat = l.synQueue.length + l.acceptQueue.length := by
  have hin := h.within
  rw [toNat_add, h.syn, h.accept, Nat.mod_eq_of_lt (by omega)]

theorem QueuesOk.cap :
    (if l.backlog = 0 then BitVec.ofNat 32 TCP_SOMAXCONN_DEFAULT else l.backlog) = l.backlog := by
  have hpos := h.backlog_pos
  refine if_neg fun h0 => ?_
  rw [h0] at hpos
  exact absurd hpos (by decide)

theorem QueuesOk.listenSyn {fresh : TcpRequest} (mem : Bool)
    (hsame : ∀ r, r.peer = fresh.peer → same r = true) :
    QueuesOk (listenSyn l same fresh mem).1 := by
  unfold Net.listenSyn
  split
  · exact h
  next hnone =>
  dsimp only
  rw [h.cap]
  split
  · exact h
  next hroom =>
  split
  · exact h
  have hsum := h.sum
  have hlt : l.synQueue.length + l.acceptQueue.length < l.backlog.toNat := by
    rw [← hsum]
    exact not_le.mp hroom
  refine ⟨?_, h.accept, ?_, ?_, h.backlog_pos, h.backlog_le⟩
  · rw [toNat_add, h.syn, length_append]
    exact Nat.mod_eq_of_lt (by simp; omega)
  · rw [length_append]
    dsimp only [length_singleton]
    omega
  · rw [map_append, nodup_append]
    refine ⟨h.peers, nodup_singleton _, ?_⟩
    rintro _ ha _ hb heq
    obtain ⟨r, hr, rfl⟩ := mem_map.mp ha
    rw [map_singleton, mem_singleton] at hb
    rw [hb] at heq
    exact absurd (hsame r heq) (by simpa using find?_eq_none.mp hnone r hr)

theorem QueuesOk.listenAck
    (hack : ∀ r rest, tcpReqRemove same l.synQueue = some (r, rest) → g.ack = r.iss + 1) :
    QueuesOk (listenAck l same g).1 := by
  unfold Net.listenAck
  split
  · next r rest hremove =>
    rw [if_neg (not_not.mpr (hack r rest hremove))]
    obtain ⟨-, before, after, hq, hrest⟩ := tcpReqRemove_some hremove
    have hlen : l.synQueue.length = rest.length + 1 := by
      rw [hq, hrest]
      simp only [length_append, length_cons]
      omega
    have hsyn := h.syn
    have hin := h.within
    have hpos : (0 : BitVec 32) < l.synQlen := by
      rw [lt_def, hsyn, hlen]
      simp
    refine ⟨?_, ?_, ?_, ?_, h.backlog_pos, h.backlog_le⟩
    · rw [if_pos hpos]
      bv_omega
    · rw [toNat_add, h.accept, length_append]
      exact Nat.mod_eq_of_lt (by simp; omega)
    · rw [length_append]
      dsimp only [length_singleton]
      omega
    · have hnodup := h.peers
      rw [hq, map_append] at hnodup
      rw [hrest, map_append]
      exact (nodup_middle.mp hnodup).of_cons
  · split
    · exact h
    · split
      · refine ⟨h.syn, ?_, ?_, h.peers, h.backlog_pos, h.backlog_le⟩
        · rw [length_updateFirst]
          exact h.accept
        · rw [length_updateFirst]
          exact h.within
      · exact h

theorem QueuesOk.popAccept : QueuesOk (tcpListenerPopAccept l).2 := by
  unfold tcpListenerPopAccept
  split
  · exact h
  next r q hq =>
  have hacc := h.accept
  have hin := h.within
  rw [hq, length_cons] at hacc hin
  have hpos : (0 : BitVec 32) < l.acceptQlen := by
    rw [lt_def, hacc]
    simp
  refine ⟨h.syn, ?_, ?_, h.peers, h.backlog_pos, h.backlog_le⟩
  · rw [if_pos hpos]
    bv_omega
  · dsimp only
    omega

/-- **One step** keeps the queues in order. -/
theorem QueuesOk.next {op : ListenOp} (hok : AckRight l op) : QueuesOk (listenNext l op) := by
  cases op with
  | seg4 g srcIp srcMac iss mem =>
    simp only [listenNext, tcpListen4]
    split
    · exact h
    next hrst =>
    split
    · refine h.listenSyn mem fun r hr => ?_
      rw [parseOptions_peer] at hr
      cases hv6 : r.isV6 <;> simp_all [TcpRequest.peer, synRequest, samePeer4]
    · next hsyn =>
      split
      · next hack => exact h.listenAck (hok g _ (if_neg hrst) (by simpa using hsyn) hack)
      · exact h
  | seg6 g src dst srcMac iss mem =>
    simp only [listenNext, tcpListen6]
    split
    · refine h.listenSyn mem fun r hr => ?_
      rw [parseOptions_peer] at hr
      cases hv6 : r.isV6 <;> simp_all [TcpRequest.peer, synRequest, samePeer6]
    · next hsyn =>
      split
      · next hack => exact h.listenAck (hok g _ rfl (by simpa using hsyn) hack)
      · exact h
  | popAccept => exact h.popAccept
  | drain =>
    exact ⟨rfl, rfl, Nat.zero_le _, nodup_nil, h.backlog_pos, h.backlog_le⟩

end

end Steps

/-! ## Whole runs -/

/-- A request comes into `accept_queue` only from `syn_queue`, by an ACK of its own
`iss + 1`. -/
def MovedByAck (l : Listener) (op : ListenOp) : Prop :=
  l.acceptQueue.length < (listenNext l op).acceptQueue.length →
    ∃ g same r, op.segment = some (g, same) ∧ r ∈ l.synQueue ∧ same r = true ∧
      g.has 0x10 = true ∧ g.ack = r.iss + 1 ∧
      (listenNext l op).acceptQueue = l.acceptQueue ++ [completed r g]

theorem listenSyn_accept (l : Listener) (same : TcpRequest → Bool) (fresh : TcpRequest)
    (mem : Bool) :
    (listenSyn l same fresh mem).1.acceptQueue = l.acceptQueue := by
  unfold listenSyn
  split
  · rfl
  · dsimp only
    split_ifs <;> rfl

/-- In whatever state a listener is, only the right ACK moves a request on. -/
theorem listenAck_moves {l : Listener} {same : TcpRequest → Bool} {g : Segment}
    (h : l.acceptQueue.length < (listenAck l same g).1.acceptQueue.length) :
    ∃ r ∈ l.synQueue, same r = true ∧ g.ack = r.iss + 1 ∧
      (listenAck l same g).1.acceptQueue = l.acceptQueue ++ [completed r g] := by
  unfold listenAck at h ⊢
  split at h
  · next r rest hremove =>
    obtain ⟨hsame, before, after, hq, -⟩ := tcpReqRemove_some hremove
    split at h
    · exact absurd h (lt_irrefl _)
    · next hack =>
      rw [if_neg hack]
      exact ⟨r, by simp [hq], hsame, not_not.mp hack, rfl⟩
  · split at h
    · exact absurd h (lt_irrefl _)
    · split at h
      · rw [length_updateFirst] at h
        exact absurd h (lt_irrefl _)
      · exact absurd h (lt_irrefl _)

theorem movedByAck (l : Listener) (op : ListenOp) : MovedByAck l op := by
  intro h
  cases op with
  | seg4 g srcIp srcMac iss mem =>
    simp only [listenNext, tcpListen4] at h ⊢
    split at h
    · exact absurd h (lt_irrefl _)
    next hrst =>
    split at h
    · rw [listenSyn_accept] at h
      exact absurd h (lt_irrefl _)
    · next hsyn =>
      split at h
      · next hack =>
        obtain ⟨r, hr, hsame, heq, hq⟩ := listenAck_moves h
        refine ⟨g, _, r, if_neg hrst, hr, hsame, hack, heq, ?_⟩
        rw [if_neg hrst, if_neg hsyn, if_pos hack, hq]
      · exact absurd h (lt_irrefl _)
  | seg6 g src dst srcMac iss mem =>
    simp only [listenNext, tcpListen6] at h ⊢
    split at h
    · rw [listenSyn_accept] at h
      exact absurd h (lt_irrefl _)
    · next hsyn =>
      split at h
      · next hack =>
        obtain ⟨r, hr, hsame, heq, hq⟩ := listenAck_moves h
        refine ⟨g, _, r, rfl, hr, hsame, hack, heq, ?_⟩
        rw [if_neg hsyn, if_pos hack, hq]
      · exact absurd h (lt_irrefl _)
  | popAccept =>
    exfalso
    simp only [listenNext, tcpListenerPopAccept] at h
    split at h
    · exact absurd h (Nat.lt_irrefl _)
    · next hq =>
      rw [hq, length_cons] at h
      dsimp only at h
      omega
  | drain => exact absurd h (Nat.not_lt_zero _)

theorem Segment.not_rst_of_isSyn {g : Segment} (h : g.isSyn = true) : g.has 0x04 = false := by
  simp only [Segment.isSyn, decide_eq_true_eq] at h
  have hmask : g.flags &&& 0x04 = g.flags &&& 0x3F &&& 0x04 := by rw [UInt8.and_assoc]; rfl
  rw [Segment.has, hmask, h]
  rfl

/-- A listener with empty queues takes a SYN, when a request can be allocated. -/
theorem QueuesOk.takes_syn {l : Listener} (h : QueuesOk l) (hsyn : l.synQueue = [])
    (hacc : l.acceptQueue = []) (same : TcpRequest → Bool) (fresh : TcpRequest) :
    (Net.listenSyn l same fresh true).1.synQueue = [fresh] := by
  have hsum := h.sum
  have hpos := h.backlog_pos
  rw [hsyn, hacc] at hsum
  have hroom : ¬ l.backlog ≤ l.synQlen + l.acceptQlen := by
    rw [BitVec.not_le, BitVec.lt_def, hsum]
    exact hpos
  simp only [Net.listenSyn, hsyn, find?_nil, h.cap, if_neg hroom]
  rfl

/-- **Listener queues.**  After every run from `listen` in which each ACK for a half-open
request carries its `iss + 1`, the counters are the lengths of the queues, their sum is within
the backlog and no peer waits twice; requests are moved on by their own ACK only; and if the
queues are empty, no SYN is dropped. -/
theorem listener_queues (backlog : ℤ) (ops : List ListenOp)
    (hok : Along listenNext AckRight (doListen backlog) ops) :
    QueuesOk (run listenNext (doListen backlog) ops) ∧
    (∀ op, MovedByAck (run listenNext (doListen backlog) ops) op) ∧
    ((run listenNext (doListen backlog) ops).synQueue = [] →
      (run listenNext (doListen backlog) ops).acceptQueue = [] →
      ∀ g : Segment, g.isSyn = true →
        (∀ srcIp srcMac iss, (listenNext (run listenNext (doListen backlog) ops)
          (.seg4 g srcIp srcMac iss true)).synQueue.length = 1) ∧
        ∀ src dst srcMac iss, (listenNext (run listenNext (doListen backlog) ops)
          (.seg6 g src dst srcMac iss true)).synQueue.length = 1) := by
  have hinv : QueuesOk (run listenNext (doListen backlog) ops) :=
    run_invariant (fun (l : Listener) op (h : QueuesOk l) hop => h.next hop)
      (queuesOk_doListen backlog) hok
  refine ⟨hinv, movedByAck _, fun hsyn hacc g hg => ⟨fun srcIp srcMac iss => ?_,
    fun src dst srcMac iss => ?_⟩⟩
  · simp [listenNext, tcpListen4, Segment.not_rst_of_isSyn hg, hg, hinv.takes_syn hsyn hacc]
  · simp [listenNext, tcpListen6, hg, hinv.takes_syn hsyn hacc]

/-- A segment from port 5 with the given flags and acknowledgement number. -/
def fromPort5 (flags : UInt8) (ack : BitVec 32) : Segment :=
  ⟨5, 80, 100, ack, flags, 0, [], []⟩

/-- A handshake: SYN, ACK, `accept`. -/
def handshake : List ListenOp :=
  [.seg4 (fromPort5 0x02 0) 1 0 1000 true, .seg4 (fromPort5 0x10 1001) 1 0 0 true, .popAccept]

theorem listener_queues_handshake : QueuesOk (run listenNext (doListen 0) handshake) := by
  refine (listener_queues 0 handshake ⟨?_, ?_, ?_, trivial⟩).1
  · intro g same h hsyn
    cases h
    cases hsyn
  · intro g same h _ _ r rest hremove
    cases h
    obtain ⟨-, before, after, hq, -⟩ := tcpReqRemove_some hremove
    have hmem : r ∈ (run listenNext (doListen 0) (handshake.take 1)).synQueue := by
      change r ∈ (listenNext (doListen 0) (.seg4 (fromPort5 0x02 0) 1 0 1000 true)).synQueue
      rw [hq]
      exact mem_append_right _ (mem_cons_self ..)
    have hall : ∀ r ∈ (run listenNext (doListen 0) (handshake.take 1)).synQueue,
        1001 = r.iss + 1 := by
      decide
    exact hall r hmem
  · intro g same h
    cases h

/-- A wrong ACK empties the queue but not its counter, and a listener with room for one
connection drops the next SYN. -/
theorem listener_leaks :
    let l := run listenNext (doListen 0)
      [.seg4 (fromPort5 0x02 0) 1 0 1000 true, .seg4 (fromPort5 0x10 7) 1 0 0 true]
    l.synQueue = [] ∧ l.acceptQueue = [] ∧ l.synQlen = 1 ∧
      listenNext l (.seg4 (fromPort5 0x02 0) 2 0 1000 true) = l := by
  decide

end CosmoRT.Net
