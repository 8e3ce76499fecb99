import CosmoRT.Lib.Ring
import CosmoRT.Lib.Run
import CosmoRT.Net.UnixSocket

/-!
# The byte stream between two connected sockets

Plain reads and writes are one step each; `sendmsg` and `recvmsg` take one step per chunk,
between which anything else may happen.  Beside the kernel's state, a run keeps books: every
byte put into a ring with the call that put it there, every byte handed to a receiver, and
every send that has returned.

* `unix_stream` — the rings stay within their bounds, every send that returns `n > 0` has put
  the first `n` bytes of its data there, and what is received is a prefix of what was sent.
-/

namespace CosmoRT.Net

open Function Lib List

/-! ## The ring is a queue -/

/-- The indices of a ring as the code means them. -/
structure RecvRing.Ok (r : RecvRing) : Prop where
  cells : r.buf.length = USOCK_BUF_SIZE
  head_lt : r.head < USOCK_BUF_SIZE
  count_nonneg : 0 ≤ r.count
  count_le : r.count ≤ USOCK_BUF_SIZE
  tail_eq : r.tail = (r.head + r.count.toNat) % USOCK_BUF_SIZE

/-- The bytes that wait in a ring, oldest first. -/
def RecvRing.contents (r : RecvRing) : List UInt8 := window r.buf r.head r.count.toNat

theorem ok_emptyRing : emptyRing.Ok where
  cells := length_replicate
  head_lt := by decide
  count_nonneg := Int.le_refl 0
  count_le := by decide
  tail_eq := by decide

theorem pushBytes_eq (bs : List UInt8) (r : RecvRing) (hcells : r.buf.length = USOCK_BUF_SIZE)
    (htail : r.tail < USOCK_BUF_SIZE) :
    pushBytes bs r =
      { r with
        buf := storeAll bs r.tail r.buf, tail := (r.tail + bs.length) % USOCK_BUF_SIZE } := by
  induction bs generalizing r with
  | nil => simp [pushBytes, storeAll, Nat.mod_eq_of_lt htail]
  | cons b bs ih =>
    rw [pushBytes, ih _ (by simpa using hcells) (Nat.mod_lt _ (by decide))]
    simp only [storeAll, hcells, Nat.mod_add_mod, length_cons]
    rw [Nat.add_assoc, Nat.add_comm 1]

theorem popBytes_eq (n : ℕ) (r : RecvRing) (hcells : r.buf.length = USOCK_BUF_SIZE)
    (hhead : r.head < USOCK_BUF_SIZE) :
    popBytes n r = (window r.buf r.head n, { r with head := (r.head + n) % USOCK_BUF_SIZE }) := by
  induction n generalizing r with
  | zero => simp [popBytes, Nat.mod_eq_of_lt hhead]
  | succ n ih =>
    have hrest := ih { r with head := (r.head + 1) % USOCK_BUF_SIZE } hcells
      (Nat.mod_lt _ (by decide))
    rw [popBytes, hrest, window_pop, hcells, Nat.mod_eq_of_lt hhead]
    simp only [Nat.mod_add_mod, Nat.add_assoc, Nat.add_comm 1]

/-- How many of `len` bytes a ring takes. -/
def RecvRing.room (r : RecvRing) (len : ℤ) : ℤ := min len (USOCK_BUF_SIZE - r.count)

variable {len total : ℤ}

variable {r : RecvRing} {writable : ℕ → Bool} {mem : ℕ → Option UInt8} {n : ℕ}

/-- **Writing** appends what fits. -/
theorem ringWrite_spec (h : r.Ok) (data : ℕ → UInt8) (hlen : 0 ≤ len) :
    (ringWrite r data len).1 = r.room len ∧ (ringWrite r data len).2.Ok ∧
      (ringWrite r data len).2.contents
        = r.contents ++ (range (r.room len).toNat).map data ∧
      (ringWrite r data len).2.count = r.count + r.room len := by
  have hsize : (USOCK_BUF_SIZE : ℤ) = 65536 := rfl
  have h0 := h.count_nonneg
  have hle := h.count_le
  have hspace : int32 (USOCK_BUF_SIZE - r.count) = USOCK_BUF_SIZE - r.count :=
    int32_of_range (by omega) (by omega)
  have hn : (if len < (USOCK_BUF_SIZE : ℤ) - r.count then len else USOCK_BUF_SIZE - r.count)
      = r.room len := by
    unfold RecvRing.room
    split <;> omega
  obtain ⟨n, hroom⟩ : ∃ n : ℕ, r.room len = n :=
    ⟨(r.room len).toNat, (Int.toNat_of_nonneg (by omega)).symm⟩
  have hfit : r.count.toNat + n ≤ USOCK_BUF_SIZE := by
    omega
  have hcount : int32 (r.count + n) = r.count + n := int32_of_range (by omega) (by omega)
  have htail : r.tail < USOCK_BUF_SIZE := h.tail_eq ▸ Nat.mod_lt _ (by decide)
  simp only [ringWrite, hspace, hn, hroom, Int.toNat_natCast]
  rw [pushBytes_eq _ _ h.cells htail]
  simp only [length_map, length_range, hcount, true_and, and_true]
  refine ⟨⟨by simpa using h.cells, h.head_lt, by dsimp only; omega, by dsimp only; omega, ?_⟩, ?_⟩
  · simp only [h.tail_eq, Nat.mod_add_mod]
    rw [Int.toNat_add h0 (by omega), Int.toNat_natCast, Nat.add_assoc]
  · simp only [RecvRing.contents]
    rw [Int.toNat_add h0 (by omega), h.tail_eq]
    have hlist := @window_storeAll _ _ ((range n).map data) r.buf r.head r.count.toNat
      (by simpa [h.cells] using hfit)
    simpa [h.cells] using hlist

/-- **Reading** takes from the front. -/
theorem ringRead_spec (h : r.Ok) (hlen : 0 ≤ len) :
    (ringRead r len).1 = min len r.count ∧ (ringRead r len).2.2.Ok ∧
      r.contents = (ringRead r len).2.1 ++ (ringRead r len).2.2.contents ∧
      (ringRead r len).2.1.length = (min len r.count).toNat ∧
      (ringRead r len).2.2.count = r.count - min len r.count := by
  have hsize : (USOCK_BUF_SIZE : ℤ) = 65536 := rfl
  have h0 := h.count_nonneg
  have hle := h.count_le
  have hn : (if len < r.count then len else r.count) = min len r.count := by
    split <;> omega
  obtain ⟨n, hmin⟩ : ∃ n : ℕ, min len r.count = n :=
    ⟨(min len r.count).toNat, (Int.toNat_of_nonneg (by omega)).symm⟩
  obtain ⟨k, hk⟩ : ∃ k : ℕ, r.count = n + k := ⟨(r.count - n).toNat, by omega⟩
  have hcount : int32 (r.count - n) = k := by rw [int32_of_range] <;> omega
  simp only [ringRead, hn, hmin, Int.toNat_natCast]
  rw [popBytes_eq _ _ h.cells h.head_lt]
  simp only [hcount, true_and]
  have htotal : r.count.toNat = n + k := by omega
  refine ⟨⟨h.cells, Nat.mod_lt _ (by decide), by simp, by dsimp only; omega, ?_⟩, ?_,
    length_window .., by omega⟩
  · simp only [h.tail_eq, htotal, Int.toNat_natCast, Nat.mod_add_mod, Nat.add_assoc]
  · simp only [RecvRing.contents, Int.toNat_natCast]
    rw [htotal, window_add, h.cells]

/-! ## Runs -/

/-- Bytes with the call they belong to. -/
def tag (id : ℕ) (bs : List UInt8) : List (ℕ × UInt8) := bs.map (id, ·)

/-- The bytes of one call. -/
def bytesOf (id : ℕ) (l : List (ℕ × UInt8)) : List UInt8 :=
  (l.filter fun e => e.1 = id).map Prod.snd

/-- A range of user memory. -/
def bytesAt (mem : ℕ → Option UInt8) (addr n : ℕ) : List UInt8 :=
  (range n).map fun i => (mem (addr + i)).getD 0

/-- The concatenated data of a vector. -/
def iovData (mem : ℕ → Option UInt8) (iovs : List Iovec) : List UInt8 :=
  iovs.flatMap fun v => bytesAt mem v.base v.len

/-- A `sendmsg` under way. -/
structure SendCall where
  id : ℕ
  /-- The end whose ring is written. -/
  dst : Bool
  data : List UInt8
  /-- How many bytes had been put into that ring before the call. -/
  start : ℕ
  /-- A chunk of the call did not fit as a whole. -/
  cut : Bool
  mem : ℕ → Option UInt8
  cur : Transfer

/-- A `recvmsg` under way. -/
structure RecvCall where
  id : ℕ
  src : Bool
  writable : ℕ → Bool
  cur : Transfer

/-- What a thread is doing between two chunks. -/
inductive Call where
  | send (c : SendCall)
  | recv (c : RecvCall)

/-- A send that returned `n`; the ring had taken `start` bytes before and `stop` after. -/
structure SendReturn where
  id : ℕ
  dst : Bool
  data : List UInt8
  n : ℤ
  start : ℕ
  stop : ℕ

/-- Two sockets, the calls under way, and the books of the run. -/
structure Stream where
  k : Unix
  ends : Bool → ℕ
  call : ℕ → Option Call
  calls : ℕ
  sent : Bool → List (ℕ × UInt8)
  received : Bool → List (ℕ × UInt8)
  returns : List SendReturn

section

variable (p : Stream)

/-- The receive buffer of an end. -/
def Stream.ring (d : Bool) : RecvRing := (p.k.sock (p.ends d)).ring

/-- What may happen; `d` is the end a call is made on. -/
inductive StreamOp where
  | write (d : Bool) (buf : ℕ → UInt8) (count : ℤ)
  | writeBlocking (d : Bool) (buf : ℕ → UInt8) (count : ℤ) (sig : Bool)
  | read (d : Bool) (count : ℤ)
  | readBlocking (d : Bool) (count : ℤ) (sig : Bool)
  | sendmsg (t : ℕ) (d : Bool) (msg : UserPtr MsgHdr) (mem : ℕ → Option UInt8)
  | recvmsg (t : ℕ) (d : Bool) (msg : UserPtr MsgHdr) (writable : ℕ → Bool)
  | chunk (t : ℕ) (stale : ℕ → UInt8)

/-- The entries of the vector in a message header. -/
def vector : UserPtr MsgHdr → List Iovec
  | .val m =>
    match m.iov with
    | .val iov => (range m.iovlen).map iov
    | .null | .fault => []
  | .null | .fault => []

/-- A write on end `d` that returned `n`. -/
def Stream.wrote (k' : Unix) (d : Bool) (buf : ℕ → UInt8) (count n : ℤ) : Stream :=
  let sent' := p.sent (!d) ++ tag p.calls ((range n.toNat).map buf)
  let ret : SendReturn := ⟨p.calls, !d, (range (sizeT count)).map buf, n,
    (p.sent (!d)).length, sent'.length⟩
  { p with
    k := k'
    calls := p.calls + 1
    sent := update p.sent (!d) sent'
    returns := ret :: p.returns }

/-- Bytes that a call on end `d` took from its ring. -/
def Stream.took (k' : Unix) (d : Bool) (id : ℕ) (bs : List UInt8) : Stream :=
  { p with k := k', received := update p.received d (p.received d ++ tag id bs) }

/-- One chunk of a `sendmsg`. -/
def Stream.sendStep (t : ℕ) (c : SendCall) (stale : ℕ → UInt8) : Stream :=
  let r := sendChunk p.k (p.ends c.dst) c.mem stale c.cur
  let sent' := p.sent c.dst ++ tag c.id r.2.1
  let p' := { p with k := r.2.2, sent := update p.sent c.dst sent' }
  match r.1 with
  | .more cur =>
    let cut := c.cut || decide (r.2.1.length < c.cur.chunk)
    { p' with call := update p.call t (some (.send { c with cur := cur, cut := cut })) }
  | .ret (.ok n) =>
    let ret : SendReturn := ⟨c.id, c.dst, c.data, n, c.start, sent'.length⟩
    { p' with call := update p.call t none, returns := ret :: p.returns }
  | .ret (.error _) => { p' with call := update p.call t none }

/-- One chunk of a `recvmsg`.  A call that fails has received nothing. -/
def Stream.recvStep (t : ℕ) (c : RecvCall) : Stream :=
  let r := recvChunk p.k (p.ends c.src) c.writable c.cur
  let p' := p.took r.2.2 c.src c.id r.2.1
  match r.1 with
  | .more cur => { p' with call := update p.call t (some (.recv { c with cur := cur })) }
  | .ret (.ok _) => { p' with call := update p.call t none }
  | .ret (.error _) =>
    let kept := (p'.received c.src).filter fun e => e.1 ≠ c.id
    { p' with
      call := update p.call t none
      received := update p'.received c.src kept }

/-- One step. -/
def streamNext : StreamOp → Stream
  | .write d buf count =>
    let r := usockWrite p.k (p.ends d) buf count
    match r.1 with
    | .ok n => p.wrote r.2 d buf count n
    | .error _ => { p with k := r.2 }
  | .writeBlocking d buf count sig =>
    let r := usockWriteBlocking p.k (p.ends d) buf count sig
    match r.1 with
    | some (.ok n) => p.wrote r.2 d buf count n
    | _ => { p with k := r.2 }
  | .read d count =>
    let r := usockRead p.k (p.ends d) count
    { p.took r.2.2 d p.calls r.2.1 with calls := p.calls + 1 }
  | .readBlocking d count sig =>
    let r := usockReadBlocking p.k (p.ends d) count sig
    { p.took r.2.2 d p.calls r.2.1 with calls := p.calls + 1 }
  | .sendmsg t d msg mem =>
    match p.call t, (usockSendmsg p.k (p.ends d) msg).1 with
    | none, .more cur =>
      let c : SendCall := ⟨p.calls, !d, iovData mem (vector msg), (p.sent (!d)).length, false,
        mem, cur⟩
      { p with call := update p.call t (some (.send c)), calls := p.calls + 1 }
    | _, _ => p
  | .recvmsg t d msg writable =>
    match p.call t, usockRecvmsg p.k (p.ends d) msg with
    | none, .more cur =>
      let c : RecvCall := ⟨p.calls, d, writable, cur⟩
      { p with call := update p.call t (some (.recv c)), calls := p.calls + 1 }
    | _, _ => p
  | .chunk t stale =>
    match p.call t with
    | none => p
    | some (.send c) => p.sendStep t c stale
    | some (.recv c) => p.recvStep t c

/-- The condition on one step.  The count of a plain call is not negative as an `int`; the
data of a `sendmsg` is mapped; the vector of a `recvmsg` lies in user space and can be
written; and when a chunk of a `sendmsg` did not fit as a whole, the ring is still full at its
next chunk. -/
def StreamOk : StreamOp → Prop
  | .write _ _ count | .writeBlocking _ _ count _ | .read _ count | .readBlocking _ count _ =>
    0 ≤ int32 count
  | .sendmsg _ _ msg mem => ∀ v ∈ vector msg, ∀ i < v.len, (mem (v.base + i)).isSome
  | .recvmsg _ _ msg writable =>
    ∀ v ∈ vector msg, v.len = 0 ∨
      userOk v.base v.len = true ∧ ∀ i < v.len, writable (v.base + i) = true
  | .chunk t _ => ∀ c, p.call t = some (.send c) → c.cut = true →
      (p.ring c.dst).count = USOCK_BUF_SIZE

/-- Two sockets that are each other's peer. -/
structure Connected (p : Stream) : Prop where
  ne : p.ends false ≠ p.ends true
  active : ∀ d, p.ends d ∈ p.k.active
  state : ∀ d, (p.k.sock (p.ends d)).state = .connected
  peer : ∀ d, (p.k.sock (p.ends d)).peer = some (p.ends (!d))

/-- The start of a run: two connected sockets with empty rings, and nothing under way. -/
structure Fresh (p : Stream) : Prop extends Connected p where
  ring : ∀ d, p.ring d = emptyRing
  call : ∀ t, p.call t = none
  sent : ∀ d, p.sent d = []
  received : ∀ d, p.received d = []
  returns : p.returns = []

/-! ## What flows through the rings -/

/-- What was received and what waits is what was sent. -/
structure Flow (p : Stream) : Prop extends Connected p where
  ok : ∀ d, (p.ring d).Ok
  flow : ∀ d, (p.received d).map Prod.snd ++ (p.ring d).contents = (p.sent d).map Prod.snd

@[simp] theorem map_snd_tag (id : ℕ) (bs : List UInt8) : (tag id bs).map Prod.snd = bs := by
  simp [tag]

/-- A new ring for end `e`. -/
def setRing (e : Bool) (r : RecvRing) : Unix :=
  p.k.modify (p.ends e) fun o => { o with ring := r }

end

section Flow

variable {p p' : Stream} {e : Bool} {r : RecvRing}

theorem Connected.ends_ne (h : Connected p) {d : Bool} (hd : d ≠ e) : p.ends d ≠ p.ends e := by
  cases d <;> cases e <;> first | exact absurd rfl hd | exact h.ne | exact h.ne.symm

section Refill

variable (h : Flow p) (hends : p'.ends = p.ends) (hk : p'.k = setRing p e r)
include h hends hk

theorem Flow.connected : Connected p' := by
  have hsame : ∀ d, ((setRing p e r).sock (p.ends d)).state = (p.k.sock (p.ends d)).state ∧
      ((setRing p e r).sock (p.ends d)).peer = (p.k.sock (p.ends d)).peer := by
    intro d
    by_cases hd : d = e
    · subst hd
      simp [setRing]
    · simp [setRing, h.toConnected.ends_ne hd]
  refine ⟨hends ▸ h.ne, fun d => ?_, fun d => ?_, fun d => ?_⟩
  · rw [hends, hk]
    exact h.active d
  · rw [hends, hk, (hsame d).1, h.state]
  · rw [hends, hk, (hsame d).2, h.peer]

/-- A step that gives end `e` a new ring, and leaves what the other end sent and received. -/
theorem Flow.refill (hok : r.Ok)
    (hother : ∀ d ≠ e, p'.sent d = p.sent d ∧ p'.received d = p.received d)
    (hself : (p'.received e).map Prod.snd ++ r.contents = (p'.sent e).map Prod.snd) : Flow p' := by
  have hring : p'.ring e = r := by simp [Stream.ring, hends, hk, setRing]
  have hsame : ∀ d ≠ e, p'.ring d = p.ring d := by
    intro d hd
    simp [Stream.ring, hends, hk, setRing, h.toConnected.ends_ne hd]
  refine ⟨h.connected hends hk, fun d => ?_, fun d => ?_⟩ <;> by_cases hd : d = e
  · rwa [hd, hring]
  · rw [hsame d hd]
    exact h.ok d
  · rwa [hd, hring]
  · rw [hsame d hd, (hother d hd).1, (hother d hd).2]
    exact h.flow d

theorem Flow.append (hok : r.Ok) {id : ℕ} {bs : List UInt8}
    (hcont : r.contents = (p.ring e).contents ++ bs)
    (hsent : p'.sent = update p.sent e (p.sent e ++ tag id bs))
    (hrecv : p'.received = p.received) : Flow p' := by
  refine h.refill hends hk hok (fun d hd => ⟨by rw [hsent, update_of_ne hd], by rw [hrecv]⟩) ?_
  rw [hsent, hrecv, update_self, hcont, map_append, map_snd_tag, ← h.flow, append_assoc]

theorem Flow.take (hok : r.Ok) {id : ℕ} {bs : List UInt8}
    (hcont : (p.ring e).contents = bs ++ r.contents) (hsent : p'.sent = p.sent)
    (hrecv : p'.received = update p.received e (p.received e ++ tag id bs)) : Flow p' := by
  refine h.refill hends hk hok (fun d hd => ⟨by rw [hsent], by rw [hrecv, update_of_ne hd]⟩) ?_
  rw [hsent, hrecv, update_self, map_append, map_snd_tag, append_assoc, ← hcont, h.flow]

end Refill

theorem Flow.congr (h : Flow p) (hends : p'.ends = p.ends) (hk : p'.k = p.k)
    (hsent : p'.sent = p.sent) (hrecv : p'.received = p.received) : Flow p' := by
  obtain ⟨hc, hok, hflow⟩ := h
  refine ⟨⟨hends ▸ hc.ne, ?_, ?_, ?_⟩, ?_, ?_⟩
  · simpa [hends, hk] using hc.active
  · simpa [hends, hk] using hc.state
  · simpa [hends, hk] using hc.peer
  · simpa [Stream.ring, hends, hk] using hok
  · simpa [Stream.ring, hends, hk, hsent, hrecv] using hflow

end Flow

/-! ## The vector -/

/-- All of a vector can be read. -/
def Mapped (mem : ℕ → Option UInt8) (iovs : List Iovec) : Prop :=
  ∀ v ∈ iovs, ∀ i < v.len, (mem (v.base + i)).isSome

/-- The entries of a vector that are used lie in user space and can be written. -/
def Writable (writable : ℕ → Bool) (iovs : List Iovec) : Prop :=
  ∀ v ∈ iovs, v.len = 0 ∨ userOk v.base v.len = true ∧ ∀ i < v.len, writable (v.base + i) = true

variable {rest : List Iovec} {addr : ℕ}

/-- The head of the loop skips only entries without data. -/
theorem nextIov_entry {iovs : List Iovec} {remaining : ℕ}
    (h : nextIov iovs = .entry addr remaining rest) (mem : ℕ → Option UInt8) :
    0 < remaining ∧ (∃ skipped, iovs = skipped ++ ⟨addr, remaining⟩ :: rest) ∧
      iovData mem (⟨addr, remaining⟩ :: rest) = iovData mem iovs := by
  induction iovs with
  | nil => cases h
  | cons v iovs ih =>
    rw [nextIov] at h
    split at h
    · next hlen =>
      obtain ⟨hpos, ⟨skipped, hsplit⟩, hdata⟩ := ih h
      refine ⟨hpos, ⟨v :: skipped, by rw [hsplit]; rfl⟩, ?_⟩
      rw [hdata]
      simp [iovData, bytesAt, hlen]
    · next hlen =>
      split at h
      · cases h
        exact ⟨pos_of_ne_zero hlen, ⟨[], rfl⟩, rfl⟩
      · cases h

theorem advance_more {c : Transfer} (h : advance total rest = .more c) (mem : ℕ → Option UInt8) :
    c.total = total ∧ 0 < c.remaining ∧
      (∃ skipped, rest = skipped ++ ⟨c.addr, c.remaining⟩ :: c.rest) ∧
      iovData mem (⟨c.addr, c.remaining⟩ :: c.rest) = iovData mem rest := by
  unfold advance at h
  split at h
  · cases h
  · cases h
  · next hnext =>
    cases h
    exact ⟨rfl, nextIov_entry hnext mem⟩

theorem advance_ok {n : ℤ} (h : advance total rest = .ret (.ok n)) : n = total := by
  unfold advance at h
  split at h <;> cases h
  rfl

theorem advance_error {e : Errno}
    (hw : Writable writable rest) : advance total rest ≠ .ret (.error e) := by
  have hnext : nextIov rest ≠ .fault := by
    induction rest with
    | nil => simp [nextIov]
    | cons v rest ih =>
      rw [nextIov]
      split
      · exact ih fun u hu => hw u (mem_cons_of_mem _ hu)
      · next hlen =>
        rcases hw v (mem_cons_self ..) with h0 | ⟨huser, -⟩
        · exact absurd h0 hlen
        · simp [huser]
  unfold advance
  split
  · simp
  · next hfault => exact absurd hfault hnext
  · simp

theorem copyFromUser_of_mapped {i : ℕ} (stale : ℕ → UInt8)
    (hm : ∀ j < n, (mem (addr + j)).isSome) (hi : i < n) :
    copyFromUser mem stale addr i = (mem (addr + i)).getD 0 := by
  refine if_pos (all_eq_true.mpr fun j hj => hm j ?_)
  have hlt := mem_range.mp hj
  omega

theorem map_copyFromUser {w : ℕ} (stale : ℕ → UInt8)
    (hm : ∀ j < n, (mem (addr + j)).isSome) (hw : w ≤ n) :
    (range w).map (copyFromUser mem stale addr) = (bytesAt mem addr n).take w := by
  rw [bytesAt, ← map_take, take_range, min_eq_left hw]
  refine map_congr_left fun i hi => ?_
  have hlt := mem_range.mp hi
  exact copyFromUser_of_mapped stale hm (by omega)

theorem bytesAt_add (mem : ℕ → Option UInt8) (addr n k : ℕ) :
    bytesAt mem addr (n + k) = bytesAt mem addr n ++ bytesAt mem (addr + n) k := by
  simp only [bytesAt, range_add, map_append, map_map]
  refine congrArg _ (map_congr_left fun i _ => ?_)
  simp only [comp, add_assoc]

@[simp] theorem length_bytesAt (mem : ℕ → Option UInt8) (addr n : ℕ) :
    (bytesAt mem addr n).length = n := by simp [bytesAt]

theorem copyToUser_of_writable {bs : List UInt8}
    (hw : ∀ i < bs.length, writable (addr + i) = true) : copyToUser writable addr bs = bs := by
  induction bs generalizing addr with
  | nil => rfl
  | cons b bs ih =>
    have h0 : writable addr = true := hw 0 (by simp)
    rw [copyToUser, if_pos h0, ih fun i hi => ?_]
    rw [add_assoc, add_comm 1]
    exact hw (i + 1) (by simpa using hi)

/-! ## The books -/

section Log

variable {id j : ℕ} {l : List (ℕ × UInt8)} {bs : List UInt8}

theorem bytesOf_append (id : ℕ) (l l' : List (ℕ × UInt8)) :
    bytesOf id (l ++ l') = bytesOf id l ++ bytesOf id l' := by
  simp [bytesOf]

theorem bytesOf_tag_self (id : ℕ) (bs : List UInt8) : bytesOf id (tag id bs) = bs := by
  simp [bytesOf, tag, filter_map, comp_def]

theorem bytesOf_eq_nil (h : ∀ e ∈ l, e.1 ≠ id) : bytesOf id l = [] := by
  simpa [bytesOf] using h

theorem mem_tag {e : ℕ × UInt8} (h : e ∈ tag id bs) : e.1 = id := by
  obtain ⟨b, -, rfl⟩ := mem_map.mp h
  rfl

theorem bytesOf_eq_map (h : ∀ e ∈ l, e.1 = id) : bytesOf id l = l.map Prod.snd := by
  rw [bytesOf, filter_eq_self.mpr (by simpa using h)]

end Log

/-- A send under way: so far it has put the beginning of its data into the ring, and unless
a chunk was cut the rest of the vector is the rest of the data. -/
structure SendOk (sent : Bool → List (ℕ × UInt8)) (c : SendCall) : Prop where
  total : 0 ≤ c.cur.total
  start : c.start ≤ (sent c.dst).length
  before : ∀ e ∈ (sent c.dst).take c.start, e.1 ≠ c.id
  bytes : bytesOf c.id (sent c.dst) = c.data.take c.cur.total.toNat
  mapped : Mapped c.mem (⟨c.cur.addr, c.cur.remaining⟩ :: c.cur.rest)
  rest : c.cut = false →
    c.data.drop c.cur.total.toNat = iovData c.mem (⟨c.cur.addr, c.cur.remaining⟩ :: c.cur.rest)

/-- A send that has returned: its bytes lie between `start` and `stop`. -/
structure ReturnOk (sent : Bool → List (ℕ × UInt8)) (r : SendReturn) : Prop where
  stop : r.stop ≤ (sent r.dst).length
  before : ∀ e ∈ (sent r.dst).take r.start, e.1 ≠ r.id
  after : ∀ e ∈ (sent r.dst).drop r.stop, e.1 ≠ r.id
  bytes : 0 < r.n → bytesOf r.id (sent r.dst) = r.data.take r.n.toNat

section Books

variable {sent : Bool → List (ℕ × UInt8)} {e : Bool} {id : ℕ} {bs : List UInt8}

/-- What is sent to an end grows by bytes of one call, or not at all. -/
theorem update_append (sent : Bool → List (ℕ × UInt8)) (e : Bool) (id : ℕ) (bs : List UInt8)
    (d : Bool) : ∃ more, update sent e (sent e ++ tag id bs) d = sent d ++ more ∧
      ∀ x ∈ more, x.1 = id := by
  by_cases hd : d = e
  · subst hd
    exact ⟨_, update_self .., fun x hx => mem_tag hx⟩
  · exact ⟨[], by rw [update_of_ne hd, append_nil], nofun⟩

/-- Bytes of other calls do not matter to a send. -/
theorem SendOk.append {c : SendCall} (h : SendOk sent c) (hid : c.id ≠ id) :
    SendOk (update sent e (sent e ++ tag id bs)) c := by
  obtain ⟨more, hmore, hother⟩ := update_append sent e id bs c.dst
  refine ⟨h.total, ?_, ?_, ?_, h.mapped, h.rest⟩ <;> rw [hmore]
  · rw [length_append]
    exact Nat.le_add_right_of_le h.start
  · rw [take_append_of_le_length h.start]
    exact h.before
  · rw [bytesOf_append, h.bytes, bytesOf_eq_nil fun x hx => hother x hx ▸ hid.symm, append_nil]

theorem ReturnOk.append {r : SendReturn} (h : ReturnOk sent r) (hid : r.id ≠ id)
    (hle : r.start ≤ r.stop) : ReturnOk (update sent e (sent e ++ tag id bs)) r := by
  obtain ⟨more, hmore, hother⟩ := update_append sent e id bs r.dst
  have hne : ∀ x ∈ more, x.1 ≠ r.id := fun x hx => hother x hx ▸ hid.symm
  refine ⟨?_, ?_, ?_, fun hn => ?_⟩ <;> rw [hmore]
  · rw [length_append]
    exact Nat.le_add_right_of_le h.stop
  · rw [take_append_of_le_length (Nat.le_trans hle h.stop)]
    exact h.before
  · rw [drop_append_of_le_length h.stop]
    intro x hx
    exact (mem_append.mp hx).elim (h.after x) (hne x)
  · rw [bytesOf_append, h.bytes hn, bytesOf_eq_nil hne, append_nil]

theorem ReturnOk.contiguous {r : SendReturn} (h : ReturnOk sent r) (hn : 0 < r.n)
    (hle : r.start ≤ r.stop)
    (hall : ∀ x ∈ ((sent r.dst).drop r.start).take (r.stop - r.start), x.1 = r.id) :
    (((sent r.dst).drop r.start).take (r.stop - r.start)).map Prod.snd = r.data.take r.n.toNat := by
  have hrest : ((sent r.dst).drop r.start).drop (r.stop - r.start) = (sent r.dst).drop r.stop := by
    rw [drop_drop, Nat.add_sub_cancel' hle]
  calc (((sent r.dst).drop r.start).take (r.stop - r.start)).map Prod.snd
      = bytesOf r.id (((sent r.dst).drop r.start).take (r.stop - r.start)) :=
        (bytesOf_eq_map hall).symm
    _ = bytesOf r.id ((sent r.dst).drop r.start) := by
        conv_rhs => rw [← take_append_drop (r.stop - r.start) ((sent r.dst).drop r.start)]
        rw [hrest, bytesOf_append, bytesOf_eq_nil h.after, append_nil]
    _ = bytesOf r.id (sent r.dst) := by
        conv_rhs => rw [← take_append_drop r.start (sent r.dst)]
        rw [bytesOf_append, bytesOf_eq_nil h.before, nil_append]
    _ = r.data.take r.n.toNat := h.bytes hn

end Books

/-- The invariant of a run. -/
structure StreamInv (p : Stream) : Prop extends Flow p where
  fresh : ∀ d, ∀ x ∈ p.sent d, x.1 < p.calls
  send : ∀ t c, p.call t = some (.send c) → c.id < p.calls ∧ SendOk p.sent c
  owner : ∀ t t' c c', p.call t = some (.send c) → p.call t' = some (.send c') → c.id = c'.id →
    t = t'
  recv : ∀ t c, p.call t = some (.recv c) →
    Writable c.writable (⟨c.cur.addr, c.cur.remaining⟩ :: c.cur.rest)
  returned : ∀ r ∈ p.returns, r.id < p.calls ∧ r.start ≤ r.stop ∧ ReturnOk p.sent r ∧
    ∀ t c, p.call t = some (.send c) → c.id ≠ r.id

theorem streamInv_fresh {p : Stream} (h : Fresh p) : StreamInv p := by
  have hidle : ∀ t c, p.call t ≠ some c := fun t c hc => by
    rw [h.call] at hc
    cases hc
  refine ⟨⟨h.toConnected, fun d => ?_, fun d => ?_⟩, ?_, fun t c hc => absurd hc (hidle _ _),
    fun t t' c c' hc => absurd hc (hidle _ _), fun t c hc => absurd hc (hidle _ _), ?_⟩
  · rw [h.ring]
    exact ok_emptyRing
  · rw [h.ring, h.sent, h.received]
    rfl
  · intro d x hx
    rw [h.sent] at hx
    cases hx
  · intro r hr
    rw [h.returns] at hr
    cases hr

/-! ## Steps -/

theorem int32_le_sizeT {x : ℤ} (h : 0 ≤ int32 x) : int32 x ≤ sizeT x := by
  have hmod : int32 x = x % 2 ^ 32 := by
    rw [int32, Int.bmod_def] at h ⊢
    omega
  rw [sizeT]
  omega

section Steps

variable {p : Stream} {d : Bool}

variable {count : ℤ}

variable {e : Bool} {id : ℕ} {bs : List UInt8} {r : RecvRing} {p' : Stream}

theorem StreamInv.fresh_append (h : StreamInv p) {calls : ℕ}
    (hcalls : p.calls ≤ calls) (hid : id < calls) {x : ℕ × UInt8}
    (hx : x ∈ update p.sent e (p.sent e ++ tag id bs) d) : x.1 < calls := by
  obtain ⟨more, hmore, hother⟩ := update_append p.sent e id bs d
  rw [hmore, mem_append] at hx
  rcases hx with hx | hx
  · exact lt_of_lt_of_le (h.fresh d x hx) hcalls
  · rwa [hother x hx]

variable {k' : Unix} {n : ℤ} {cur : Transfer} {w : ℕ}

theorem StreamInv.wrote (h : StreamInv p) {buf : ℕ → UInt8}
    (hk : k' = setRing p (!d) r) (hok : r.Ok)
    (hcont : r.contents = (p.ring (!d)).contents ++ (range n.toNat).map buf)
    (hn : n ≤ sizeT count) : StreamInv (p.wrote k' d buf count n) := by
  have hflow : Flow (p.wrote k' d buf count n) := h.toFlow.append rfl hk hok hcont rfl rfl
  refine ⟨hflow, fun e x hx => ?_, fun t c hc => ?_, h.owner, h.recv, fun r hr => ?_⟩
  · exact h.fresh_append (Nat.le_succ _) (Nat.lt_succ_self _) hx
  · obtain ⟨hlt, hsend⟩ := h.send t c hc
    exact ⟨Nat.lt_succ_of_lt hlt, hsend.append (Nat.ne_of_lt hlt)⟩
  · rcases mem_cons.mp hr with rfl | hr
    · refine ⟨Nat.lt_succ_self _, by simp, ⟨?_, ?_, ?_, fun _ => ?_⟩, fun t c hc => ?_⟩
      · simp [Stream.wrote]
      · simp only [Stream.wrote, update_self, take_left]
        exact fun x hx => Nat.ne_of_lt (h.fresh _ x hx)
      · simp [Stream.wrote]
      · simp only [Stream.wrote, update_self]
        rw [bytesOf_append, bytesOf_tag_self,
          bytesOf_eq_nil fun x hx => ne_of_lt (h.fresh _ x hx), nil_append, ← map_take,
          take_range, min_eq_left (by omega)]
      · exact Nat.ne_of_lt (h.send t c hc).1
    · obtain ⟨hlt, hle, hret, hother⟩ := h.returned r hr
      exact ⟨Nat.lt_succ_of_lt hlt, hle, hret.append (Nat.ne_of_lt hlt) hle, hother⟩

theorem StreamInv.refill (h : StreamInv p) (hok : r.Ok)
    (hcont : r.contents = (p.ring e).contents) : StreamInv { p with k := setRing p e r } := by
  refine ⟨?_, h.fresh, h.send, h.owner, h.recv, h.returned⟩
  have hnone : p.sent = update p.sent e (p.sent e ++ tag 0 []) := by simp [tag]
  exact h.toFlow.append rfl rfl hok (by simpa using hcont) hnone rfl

theorem StreamInv.took (h : StreamInv p) (hflow : Flow (p.took k' d p.calls bs)) :
    StreamInv { p.took k' d p.calls bs with calls := p.calls + 1 } := by
  refine ⟨hflow.congr rfl rfl rfl rfl, ?_, ?_, h.owner, h.recv, ?_⟩
  · exact fun e x hx => Nat.lt_succ_of_lt (h.fresh e x hx)
  · exact fun t c hc => ⟨Nat.lt_succ_of_lt (h.send t c hc).1, (h.send t c hc).2⟩
  · exact fun r hr => ⟨Nat.lt_succ_of_lt (h.returned r hr).1, (h.returned r hr).2⟩

theorem took_nil (p : Stream) (d : Bool) (id : ℕ) : p.took p.k d id [] = p := by
  simp [Stream.took, tag]

theorem Flow.took_nil (h : Flow p) (d : Bool) (id : ℕ) : Flow (p.took p.k d id []) := by
  rwa [Net.took_nil]

theorem Flow.read (h : Flow p) (d : Bool) (id : ℕ) {len : ℤ} (hlen : 0 ≤ len) :
    Flow (p.took (setRing p d (ringRead (p.ring d) len).2.2) d id
      (ringRead (p.ring d) len).2.1) := by
  obtain ⟨-, hok, hcont, -⟩ := ringRead_spec (h.ok d) hlen
  exact h.take rfl rfl hok hcont rfl rfl

/-! ### Plain calls -/

theorem usockWrite_eq (h : Connected p) (buf : ℕ → UInt8) (count : ℤ) :
    usockWrite p.k (p.ends d) buf count =
      let w := ringWrite (p.ring (!d)) buf (int32 count)
      (if w.1 = 0 then .error .EAGAIN else .ok w.1, setRing p (!d) w.2) := by
  simp only [usockWrite, h.active d, h.state d, h.peer d, not_true_eq_false, ne_eq, if_false]
  rfl

theorem usockWriteBlocking_eq (h : Connected p) (buf : ℕ → UInt8) (count : ℤ) (sig : Bool) :
    usockWriteBlocking p.k (p.ends d) buf count sig =
      let w := ringWrite (p.ring (!d)) buf (int32 count)
      (if w.1 > 0 then some (.ok w.1) else if sig then some (.error .ERESTARTSYS) else none,
        setRing p (!d) w.2) := by
  simp only [usockWriteBlocking, h.peer d]
  by_cases hw : (ringWrite (p.ring (!d)) buf (int32 count)).1 > 0
  · rw [if_pos hw]
    exact if_pos hw
  · rw [if_neg hw]
    refine (if_neg hw).trans ?_
    cases sig <;> rfl

theorem StreamInv.wrote_or_refill (h : StreamInv p) (buf : ℕ → UInt8) (hc : 0 ≤ int32 count) :
    let w := ringWrite (p.ring (!d)) buf (int32 count)
    StreamInv (p.wrote (setRing p (!d) w.2) d buf count w.1) ∧
      (w.1 ≤ 0 → StreamInv { p with k := setRing p (!d) w.2 }) := by
  obtain ⟨hn, hok, hcont, -⟩ := ringWrite_spec (h.ok (!d)) buf hc
  rw [← hn] at hcont
  constructor
  · refine h.wrote rfl hok hcont ?_
    rw [hn]
    exact le_trans (min_le_left _ _) (int32_le_sizeT hc)
  · intro h0
    refine h.refill hok ?_
    rw [hcont, Int.toNat_of_nonpos h0, range_zero, map_nil, append_nil]

theorem StreamInv.write (h : StreamInv p) (buf : ℕ → UInt8) (hc : 0 ≤ int32 count) :
    StreamInv (streamNext p (.write d buf count)) := by
  obtain ⟨hwrote, hfull⟩ := h.wrote_or_refill (d := d) buf hc
  simp only [streamNext, usockWrite_eq h.toConnected]
  by_cases h0 : (ringWrite (p.ring (!d)) buf (int32 count)).1 = 0
  · rw [if_pos h0]
    exact hfull (le_of_eq h0)
  · rw [if_neg h0]
    exact hwrote

theorem StreamInv.writeBlocking (h : StreamInv p) (buf : ℕ → UInt8) (sig : Bool)
    (hc : 0 ≤ int32 count) : StreamInv (streamNext p (.writeBlocking d buf count sig)) := by
  obtain ⟨hwrote, hfull⟩ := h.wrote_or_refill (d := d) buf hc
  simp only [streamNext, usockWriteBlocking_eq h.toConnected]
  by_cases h0 : (ringWrite (p.ring (!d)) buf (int32 count)).1 > 0
  · rw [if_pos h0]
    exact hwrote
  · rw [if_neg h0]
    cases sig <;> exact hfull (not_lt.mp h0)

theorem StreamInv.read (h : StreamInv p) (hc : 0 ≤ int32 count) :
    StreamInv (streamNext p (.read d count)) := by
  refine h.took ?_
  simp only [usockRead, h.active d, h.state d, h.peer d, not_true_eq_false, ne_eq, if_false]
  split
  · exact h.toFlow.took_nil d _
  · exact h.toFlow.read d _ hc

theorem StreamInv.readBlocking (h : StreamInv p) (sig : Bool) (hc : 0 ≤ int32 count) :
    StreamInv (streamNext p (.readBlocking d count sig)) := by
  refine h.took ?_
  simp only [usockReadBlocking, h.peer d]
  split
  · exact h.toFlow.read d _ hc
  · split
    · exact h.toFlow.took_nil d _
    · cases sig <;> exact h.toFlow.took_nil d _

/-! ### `sendmsg` -/

variable {msg : UserPtr MsgHdr} {k : Unix} {s : ℕ}

theorem usockSendmsg_more
    (h : (usockSendmsg k s msg).1 = .more cur) : advance 0 (vector msg) = .more cur := by
  unfold usockSendmsg at h
  repeat (first | cases h | split at h)
  · simpa only [vector, *] using h

theorem usockRecvmsg_more
    (h : usockRecvmsg k s msg = .more cur) : advance 0 (vector msg) = .more cur := by
  unfold usockRecvmsg at h
  repeat (first | cases h | split at h)
  · simp only [vector, *]

variable {t : ℕ} {x : Option Call}

theorem call_update {call : ℕ → Option Call} {t' : ℕ} {y : Call}
    (h : update call t x t' = some y) : t' = t ∧ x = some y ∨ t' ≠ t ∧ call t' = some y := by
  by_cases ht : t' = t
  · subst ht
    exact .inl ⟨rfl, by rwa [update_self] at h⟩
  · exact .inr ⟨ht, by rwa [update_of_ne ht] at h⟩

/-- A step of thread `t` in the send call `id`, which appends `bs` and leaves the thread with
the call `x`, or returns. -/
theorem StreamInv.sendStep (h : StreamInv p) (hflow : Flow p') (hcall : p'.call = update p.call t x)
    (hcalls : p.calls ≤ p'.calls) (hid : id < p'.calls)
    (hsent : p'.sent = update p.sent e (p.sent e ++ tag id bs))
    (hothers : ∀ t' c, t' ≠ t → p.call t' = some (.send c) → c.id ≠ id)
    (hrets : ∀ r ∈ p.returns, r.id ≠ id)
    (hsend : ∀ c, x = some (.send c) → c.id = id ∧ SendOk p'.sent c)
    (hrecv : ∀ c, x ≠ some (.recv c))
    (hret : p'.returns = p.returns ∨ x = none ∧ ∃ r, p'.returns = r :: p.returns ∧ r.id = id ∧
      r.start ≤ r.stop ∧ ReturnOk p'.sent r) : StreamInv p' := by
  have hold : ∀ r ∈ p.returns, r.id < p'.calls ∧ r.start ≤ r.stop ∧ ReturnOk p'.sent r ∧
      ∀ t' c, p'.call t' = some (.send c) → c.id ≠ r.id := by
    intro r hr
    obtain ⟨hlt, hle, hok, hother⟩ := h.returned r hr
    refine ⟨lt_of_lt_of_le hlt hcalls, hle, ?_, fun t' c hc => ?_⟩
    · rw [hsent]
      exact hok.append (hrets r hr) hle
    · rw [hcall] at hc
      rcases call_update hc with ⟨-, hx⟩ | ⟨-, hc⟩
      · rw [(hsend c hx).1]
        exact (hrets r hr).symm
      · exact hother t' c hc
  refine ⟨hflow, fun d y hy => ?_, fun t' c hc => ?_, fun t1 t2 c1 c2 h1 h2 heq => ?_,
    fun t' c hc => ?_, fun r hr => ?_⟩
  · exact h.fresh_append hcalls hid (hsent ▸ hy)
  · rw [hcall] at hc
    rcases call_update hc with ⟨-, hx⟩ | ⟨ht, hc⟩
    · exact ⟨(hsend c hx).1 ▸ hid, (hsend c hx).2⟩
    · obtain ⟨hlt, hok⟩ := h.send t' c hc
      rw [hsent]
      exact ⟨lt_of_lt_of_le hlt hcalls, hok.append (hothers t' c ht hc)⟩
  · rw [hcall] at h1 h2
    rcases call_update h1 with ⟨ht1, hx1⟩ | ⟨ht1, hc1⟩ <;>
      rcases call_update h2 with ⟨ht2, hx2⟩ | ⟨ht2, hc2⟩
    · rw [ht1, ht2]
    · rw [(hsend c1 hx1).1] at heq
      exact absurd heq.symm (hothers t2 c2 ht2 hc2)
    · rw [(hsend c2 hx2).1] at heq
      exact absurd heq (hothers t1 c1 ht1 hc1)
    · exact h.owner t1 t2 c1 c2 hc1 hc2 heq
  · rw [hcall] at hc
    rcases call_update hc with ⟨-, hx⟩ | ⟨-, hc⟩
    · exact absurd hx (hrecv c)
    · exact h.recv t' c hc
  · rcases hret with hret | ⟨hx, r', hret, hr', hle, hok⟩
    · exact hold r (hret ▸ hr)
    rw [hret] at hr
    rcases mem_cons.mp hr with rfl | hr
    · refine ⟨hr' ▸ hid, hle, hok, fun t' c hc => ?_⟩
      rw [hcall] at hc
      rcases call_update hc with ⟨-, hx'⟩ | ⟨ht, hc⟩
      · rw [hx] at hx'
        cases hx'
      · rw [hr']
        exact hothers t' c ht hc
    · exact hold r hr

variable {mem : ℕ → Option UInt8}

theorem StreamInv.sendmsg (h : StreamInv p)
    (hm : Mapped mem (vector msg)) : StreamInv (streamNext p (.sendmsg t d msg mem)) := by
  simp only [streamNext]
  split
  · next cur hcall hmore =>
    obtain ⟨htotal, -, ⟨skipped, hsplit⟩, hdata⟩ := advance_more (usockSendmsg_more hmore) mem
    have hnew : ∀ e, ∀ x ∈ p.sent e, x.1 ≠ p.calls := fun e x hx => Nat.ne_of_lt (h.fresh e x hx)
    have hnone : p.sent = update p.sent d (p.sent d ++ tag p.calls []) := by simp [tag]
    refine h.sendStep (h.toFlow.congr rfl rfl rfl rfl) rfl (Nat.le_succ _)
      (Nat.lt_succ_self p.calls) hnone (fun t' c _ hc => Nat.ne_of_lt (h.send t' c hc).1)
      (fun r hr => Nat.ne_of_lt (h.returned r hr).1) (fun c hc => ?_) nofun
      (.inl rfl)
    cases hc
    refine ⟨rfl, ⟨le_of_eq htotal.symm, le_refl _, ?_, ?_, ?_, fun _ => ?_⟩⟩
    · rw [take_length]
      exact hnew _
    · rw [htotal, bytesOf_eq_nil (hnew _)]
      rfl
    · exact fun v hv => hm v (hsplit ▸ mem_append_right _ hv)
    · rw [htotal, hdata]
      rfl
  · exact h

/-- Where `sendmsg` goes after a chunk of which `w` bytes fitted. -/
def sendProgress (c : Transfer) (w : ℤ) : Progress :=
  if w ≤ 0 then .ret (if c.total > 0 then .ok c.total else .error .EAGAIN)
  else if w < c.chunk then advance (c.total + w) c.rest
  else if c.remaining - w.toNat > 0 then
    .more ⟨c.addr + w.toNat, c.remaining - w.toNat, c.rest, c.total + w⟩
  else advance (c.total + w) c.rest

theorem sendChunk_eq (e : Bool) (mem : ℕ → Option UInt8) (stale : ℕ → UInt8) (c : Transfer) :
    sendChunk p.k (p.ends e) mem stale c =
      let w := ringWrite (p.ring e) (copyFromUser mem stale c.addr) c.chunk
      (sendProgress c w.1, (range w.1.toNat).map (copyFromUser mem stale c.addr),
        setRing p e w.2) := by
  unfold sendChunk sendProgress Stream.ring setRing
  dsimp only
  split_ifs <;> rfl

theorem chunk_le (c : Transfer) : c.chunk ≤ c.remaining := by
  unfold Transfer.chunk
  split <;> omega

theorem mapped_of_split {iovs skipped rest : List Iovec}
    (h : Mapped mem iovs) (hsplit : iovs = skipped ++ rest) : Mapped mem rest :=
  fun v hv => h v (hsplit ▸ mem_append_right _ hv)

variable {c : Transfer}

/-- The call goes on behind the bytes that fitted, and with the rest of the data if they were
the whole chunk. -/
theorem sendProgress_more {c' : Transfer}
    (hw : w ≤ c.chunk) (hm : Mapped mem (⟨c.addr, c.remaining⟩ :: c.rest))
    (h : sendProgress c w = .more c') :
    c'.total = c.total + w ∧ Mapped mem (⟨c'.addr, c'.remaining⟩ :: c'.rest) ∧
      (w = c.chunk → iovData mem (⟨c'.addr, c'.remaining⟩ :: c'.rest)
        = (iovData mem (⟨c.addr, c.remaining⟩ :: c.rest)).drop w) := by
  have hrest : Mapped mem c.rest := fun v hv => hm v (mem_cons_of_mem _ hv)
  have hle := chunk_le c
  unfold sendProgress at h
  simp only [Int.toNat_natCast] at h
  split at h
  · cases h
  split at h
  · next hshort =>
    obtain ⟨htotal, -, ⟨skipped, hsplit⟩, -⟩ := advance_more h mem
    exact ⟨htotal, mapped_of_split hrest hsplit, fun he => by omega⟩
  · split at h
    · next hleft =>
      cases h
      refine ⟨rfl, fun v hv => ?_, fun _ => ?_⟩
      · rcases mem_cons.mp hv with rfl | hv
        · intro i hi
          rw [Nat.add_assoc]
          dsimp only at hi
          exact hm _ (mem_cons_self ..) (w + i) (by dsimp only; omega)
        · exact hrest v hv
      · obtain ⟨k, hk⟩ : ∃ k, c.remaining = w + k := ⟨c.remaining - w, by omega⟩
        simp only [iovData, flatMap_cons, hk, bytesAt_add, Nat.add_sub_cancel_left, append_assoc]
        rw [drop_left' (length_bytesAt ..)]
    · next hleft =>
      obtain ⟨htotal, -, ⟨skipped, hsplit⟩, hdata⟩ := advance_more h mem
      refine ⟨htotal, mapped_of_split hrest hsplit, fun _ => ?_⟩
      have hall : c.remaining = w := by omega
      rw [hdata, hall]
      simp only [iovData, flatMap_cons]
      rw [drop_left' (length_bytesAt ..)]

theorem sendProgress_ok (h : sendProgress c w = .ret (.ok n)) : n = c.total + w := by
  unfold sendProgress at h
  split at h
  · split at h
    · cases h
      omega
    · cases h
  · split at h
    · exact advance_ok h
    · split at h
      · cases h
      · exact advance_ok h

theorem StreamInv.chunkSend (h : StreamInv p) {c : SendCall} (stale : ℕ → UInt8)
    (hc : p.call t = some (.send c))
    (hfull : c.cut = true → (p.ring c.dst).count = USOCK_BUF_SIZE) :
    StreamInv (p.sendStep t c stale) := by
  obtain ⟨hid, hs⟩ := h.send t c hc
  obtain ⟨hw, hok, hcont, -⟩ :=
    ringWrite_spec (h.ok c.dst) (copyFromUser c.mem stale c.cur.addr)
      (Int.natCast_nonneg c.cur.chunk)
  have hcount := (h.ok c.dst).count_le
  obtain ⟨w, hroom⟩ : ∃ w : ℕ, (p.ring c.dst).room c.cur.chunk = w :=
    ⟨((p.ring c.dst).room c.cur.chunk).toNat,
      (Int.toNat_of_nonneg (by unfold RecvRing.room; omega)).symm⟩
  have hle : w ≤ c.cur.chunk := by
    unfold RecvRing.room at hroom
    omega
  have hcut : c.cut = true → w = 0 := by
    intro hc
    have hc := hfull hc
    unfold RecvRing.room at hroom
    omega
  -- what is appended is the next part of the data
  have hbytes : (range w).map (copyFromUser c.mem stale c.cur.addr)
      = (c.data.drop c.cur.total.toNat).take w := by
    cases hc : c.cut with
    | true => rw [hcut hc, range_zero, map_nil, take_zero]
    | false =>
      have hall := le_trans hle (chunk_le c.cur)
      rw [hs.rest hc, map_copyFromUser stale (hs.mapped _ (mem_cons_self ..)) hall, iovData,
        flatMap_cons, take_append_of_le_length (by simpa using hall)]
  rw [hroom, Int.toNat_natCast, hbytes] at hcont
  obtain ⟨bs, hbs⟩ : ∃ bs, bs = (c.data.drop c.cur.total.toNat).take w := ⟨_, rfl⟩
  have hlen : bs.length = w := by rw [hbs, ← hbytes, length_map, length_range]
  have hnow : bytesOf c.id (p.sent c.dst ++ tag c.id bs)
      = c.data.take (c.cur.total + w).toNat := by
    rw [bytesOf_append, bytesOf_tag_self, hs.bytes, hbs, Int.toNat_add hs.total (by omega),
      Int.toNat_natCast, take_add]
  have hstart : c.start ≤ (p.sent c.dst ++ tag c.id bs).length := by
    rw [length_append]
    exact Nat.le_add_right_of_le hs.start
  have hbefore : ∀ x ∈ (p.sent c.dst ++ tag c.id bs).take c.start, x.1 ≠ c.id := by
    rw [take_append_of_le_length hs.start]
    exact hs.before
  have hothers : ∀ t' c', t' ≠ t → p.call t' = some (.send c') → c'.id ≠ c.id :=
    fun t' c' ht hc' he => ht (h.owner t' t c' c hc' hc he)
  have hrets : ∀ r ∈ p.returns, r.id ≠ c.id :=
    fun r hr => ((h.returned r hr).2.2.2 t c hc).symm
  simp only [Stream.sendStep, sendChunk_eq, hw, hroom, Int.toNat_natCast, hbytes, ← hbs]
  have hflow : ∀ p' : Stream, p'.ends = p.ends →
      p'.k = setRing p c.dst
        (ringWrite (p.ring c.dst) (copyFromUser c.mem stale c.cur.addr) c.cur.chunk).2 →
      p'.sent = update p.sent c.dst (p.sent c.dst ++ tag c.id bs) →
      p'.received = p.received → Flow p' :=
    fun p' hends hk hsent hrecv => h.toFlow.append hends hk hok (hbs ▸ hcont) hsent hrecv
  cases hprog : sendProgress c.cur w with
  | more cur =>
    obtain ⟨htotal, hmapped, hdata⟩ := sendProgress_more hle hs.mapped hprog
    refine h.sendStep (hflow _ rfl rfl rfl rfl) rfl (le_refl _) hid rfl hothers hrets
      (fun c' hc' => ?_) nofun (.inl rfl)
    cases hc'
    refine ⟨rfl, ⟨?_, ?_, ?_, ?_, hmapped, fun hnotcut => ?_⟩⟩
    · have h0 := hs.total
      dsimp only
      omega
    · dsimp only
      rwa [update_self]
    · dsimp only
      rwa [update_self]
    · dsimp only
      rw [update_self, htotal]
      exact hnow
    · simp only [Bool.or_eq_false_iff, decide_eq_false_iff_not, hlen] at hnotcut
      have hall : w = c.cur.chunk := by omega
      rw [hdata hall, ← hs.rest hnotcut.1, drop_drop, htotal, Int.toNat_add hs.total (by omega),
        Int.toNat_natCast]
  | ret r =>
    cases r with
    | ok n =>
      have hn := sendProgress_ok hprog
      refine h.sendStep (hflow _ rfl rfl rfl rfl) rfl (le_refl _) hid rfl hothers hrets
        nofun nofun (.inr ⟨rfl, _, rfl, rfl, hstart, ?_⟩)
      refine ⟨?_, ?_, ?_, fun _ => ?_⟩ <;> simp only [update_self]
      · exact le_refl _
      · exact hbefore
      · rw [drop_length]
        exact nofun
      · rw [hn]
        exact hnow
    | error err =>
      exact h.sendStep (hflow _ rfl rfl rfl rfl) rfl (le_refl _) hid rfl hothers hrets
        nofun nofun (.inl rfl)

/-! ### `recvmsg` -/

/-- A step of thread `t` that sends nothing and leaves it with the receive call `x`, or with
none. -/
theorem StreamInv.recvStep (h : StreamInv p)
    (hflow : Flow p') (hcall : p'.call = update p.call t x) (hcalls : p.calls ≤ p'.calls)
    (hsent : p'.sent = p.sent) (hreturns : p'.returns = p.returns) (hsend : ∀ c, x ≠ some (.send c))
    (hrecv : ∀ c, x = some (.recv c) →
      Writable c.writable (⟨c.cur.addr, c.cur.remaining⟩ :: c.cur.rest)) : StreamInv p' := by
  have hold : ∀ t' c, p'.call t' = some (.send c) → p.call t' = some (.send c) := by
    intro t' c hc
    rw [hcall] at hc
    rcases call_update hc with ⟨-, hx⟩ | ⟨-, hc⟩
    · exact absurd hx (hsend c)
    · exact hc
  refine ⟨hflow, fun d y hy => ?_, fun t' c hc => ?_, fun t1 t2 c1 c2 h1 h2 heq => ?_,
    fun t' c hc => ?_, fun r hr => ?_⟩
  · rw [hsent] at hy
    exact lt_of_lt_of_le (h.fresh d y hy) hcalls
  · obtain ⟨hlt, hok⟩ := h.send t' c (hold t' c hc)
    exact ⟨lt_of_lt_of_le hlt hcalls, hsent ▸ hok⟩
  · exact h.owner t1 t2 c1 c2 (hold _ _ h1) (hold _ _ h2) heq
  · rw [hcall] at hc
    rcases call_update hc with ⟨-, hx⟩ | ⟨-, hc⟩
    · exact hrecv c hx
    · exact h.recv t' c hc
  · obtain ⟨hlt, hle, hok, hother⟩ := h.returned r (hreturns ▸ hr)
    exact ⟨lt_of_lt_of_le hlt hcalls, hle, hsent ▸ hok, fun t' c hc => hother t' c (hold t' c hc)⟩

variable {writable : ℕ → Bool}

theorem StreamInv.recvmsg (h : StreamInv p)
    (hw : Writable writable (vector msg)) :
    StreamInv (streamNext p (.recvmsg t d msg writable)) := by
  simp only [streamNext]
  split
  · next cur hcall hmore =>
    obtain ⟨-, -, ⟨skipped, hsplit⟩, -⟩ := advance_more (usockRecvmsg_more hmore) fun _ => none
    refine h.recvStep (h.toFlow.congr rfl rfl rfl rfl) rfl (Nat.le_succ _) rfl rfl
      nofun (fun c hc => ?_)
    cases hc
    exact fun v hv => hw v (hsplit ▸ mem_append_right _ hv)
  · exact h

/-- Where `recvmsg` goes after a chunk: never to an error, and on within the vector. -/
theorem recvChunk_next (hw : Writable writable (⟨c.addr, c.remaining⟩ :: c.rest)) :
    (∃ n, (recvChunk k s writable c).1 = .ret (.ok n)) ∨
    ∃ c', (recvChunk k s writable c).1 = .more c' ∧
      Writable writable (⟨c'.addr, c'.remaining⟩ :: c'.rest) := by
  have hrest : Writable writable c.rest := fun v hv => hw v (mem_cons_of_mem _ hv)
  have hadv : ∀ total, (∃ n, advance total c.rest = .ret (.ok n)) ∨
      ∃ c', advance total c.rest = .more c' ∧
        Writable writable (⟨c'.addr, c'.remaining⟩ :: c'.rest) := by
    intro total
    cases ha : advance total c.rest with
    | more c' =>
      obtain ⟨-, -, ⟨skipped, hsplit⟩, -⟩ := advance_more ha fun _ => none
      exact .inr ⟨c', rfl, fun v hv => hrest v (hsplit ▸ mem_append_right _ hv)⟩
    | ret r =>
      cases r with
      | ok n => exact .inl ⟨n, rfl⟩
      | error e => exact absurd ha (advance_error hrest)
  unfold recvChunk
  dsimp only
  split
  · exact .inl ⟨c.total, rfl⟩
  split
  · exact hadv _
  split
  · exact hadv _
  split
  · next hleft =>
    refine .inr ⟨_, rfl, fun v hv => ?_⟩
    rcases mem_cons.mp hv with rfl | hv
    · rcases hw _ (mem_cons_self ..) with hz | ⟨huser, hwrite⟩
      · dsimp only at hz
        omega
      · right
        dsimp only at huser hwrite ⊢
        refine ⟨?_, fun i hi => ?_⟩
        · simp only [userOk, Bool.and_eq_true, decide_eq_true_eq] at huser ⊢
          omega
        · rw [add_assoc]
          exact hwrite _ (by omega)
    · exact hrest v hv
  · exact hadv _

theorem recvChunk_eq (e : Bool) (writable : ℕ → Bool) (c : Transfer) :
    (recvChunk p.k (p.ends e) writable c).2 =
      let r := ringRead (p.ring e) c.chunk
      if (p.ring e).count = 0 then ([], p.k)
      else (if r.1 ≤ 0 then [] else copyToUser writable c.addr r.2.1, setRing p e r.2.2) := by
  unfold recvChunk Stream.ring setRing
  dsimp only
  split_ifs <;> rfl

theorem Flow.recvChunk (h : Flow p) (e : Bool) (id : ℕ)
    (hw : Writable writable (⟨c.addr, c.remaining⟩ :: c.rest)) :
    Flow (p.took (recvChunk p.k (p.ends e) writable c).2.2 e id
      (recvChunk p.k (p.ends e) writable c).2.1) := by
  have hread := h.read e id (Int.natCast_nonneg c.chunk)
  obtain ⟨hn, -, -, hlen, -⟩ := ringRead_spec (h.ok e) (Int.natCast_nonneg c.chunk)
  have hchunk := chunk_le c
  have harrived : copyToUser writable c.addr (ringRead (p.ring e) c.chunk).2.1
      = (ringRead (p.ring e) c.chunk).2.1 := by
    refine copyToUser_of_writable fun i hi => ?_
    rcases hw _ (mem_cons_self ..) with hz | ⟨-, hwrite⟩
    · dsimp only at hz
      omega
    · exact hwrite i (by dsimp only; omega)
  rw [recvChunk_eq]
  dsimp only
  split
  · exact h.took_nil e id
  · split
    · next hle =>
      have hnil : (ringRead (p.ring e) c.chunk).2.1 = [] := by
        rw [← length_eq_zero_iff]
        omega
      rwa [hnil] at hread
    · rwa [harrived]

theorem StreamInv.chunkRecv (h : StreamInv p) {c : RecvCall}
    (hc : p.call t = some (.recv c)) : StreamInv (p.recvStep t c) := by
  have hw := h.recv t c hc
  have hflow := h.toFlow.recvChunk c.src c.id hw
  unfold Stream.recvStep
  dsimp only
  rcases recvChunk_next hw with ⟨n, hn⟩ | ⟨cur, hcur, hw'⟩
  · rw [hn]
    exact h.recvStep (hflow.congr rfl rfl rfl rfl) rfl (le_refl _) rfl rfl
      nofun nofun
  · rw [hcur]
    refine h.recvStep (hflow.congr rfl rfl rfl rfl) rfl (le_refl _) rfl rfl
      nofun (fun c' hc' => ?_)
    cases hc'
    exact hw'

/-- **One step** keeps the invariant. -/
theorem StreamInv.next (h : StreamInv p) {op : StreamOp} (hok : StreamOk p op) :
    StreamInv (streamNext p op) := by
  cases op with
  | write d buf count => exact h.write buf hok
  | writeBlocking d buf count sig => exact h.writeBlocking buf sig hok
  | read d count => exact h.read hok
  | readBlocking d count sig => exact h.readBlocking sig hok
  | sendmsg t d msg mem => exact h.sendmsg hok
  | recvmsg t d msg writable => exact h.recvmsg hok
  | chunk t stale =>
    simp only [streamNext]
    split
    · exact h
    · next c hc => exact h.chunkSend stale hc (hok c hc)
    · next c hc => exact h.chunkRecv hc

end Steps

/-! ## Whole runs -/

/-- A send that returned `n > 0` has put the first `n` bytes of its data into the ring, and
contiguously when no other send put bytes there between its start and its return. -/
def SentExactly (p : Stream) (r : SendReturn) : Prop :=
  bytesOf r.id (p.sent r.dst) = r.data.take r.n.toNat ∧
  ((∀ x ∈ ((p.sent r.dst).drop r.start).take (r.stop - r.start), x.1 = r.id) →
    (((p.sent r.dst).drop r.start).take (r.stop - r.start)).map Prod.snd = r.data.take r.n.toNat)

/-- **The stream.**  Between two connected sockets, in every run whose steps all meet the
condition, the rings stay within their bounds, every send appends exactly what it says, and
what has been received is a prefix of what has been sent. -/
theorem unix_stream (p : Stream) (ops : List StreamOp) (h : Fresh p)
    (hok : Along streamNext StreamOk p ops) :
    (∀ d, 0 ≤ ((run streamNext p ops).ring d).count ∧
      ((run streamNext p ops).ring d).count ≤ USOCK_BUF_SIZE ∧
      ((run streamNext p ops).received d).map Prod.snd <+:
        ((run streamNext p ops).sent d).map Prod.snd) ∧
    ∀ r ∈ (run streamNext p ops).returns, 0 < r.n → SentExactly (run streamNext p ops) r := by
  have hinv : StreamInv (run streamNext p ops) :=
    run_invariant (fun (q : Stream) op (hq : StreamInv q) hop => hq.next hop)
      (streamInv_fresh h) hok
  refine ⟨fun d => ⟨(hinv.ok d).count_nonneg, (hinv.ok d).count_le, ?_⟩, fun r hr hn => ?_⟩
  · rw [← hinv.flow d]
    exact prefix_append _ _
  · obtain ⟨-, hle, hret, -⟩ := hinv.returned r hr
    exact ⟨hret.bytes hn, hret.contiguous hn hle⟩

/-! ### Runs that break it -/

/-- Sockets 0 and 1, just connected. -/
def pair : Stream where
  k := ⟨fun s => { zeroSocket with
      state := .connected, refcount := 1, peer := if s = 0 then some 1 else some 0 }, [1, 0]⟩
  ends d := if d then 1 else 0
  call _ := none
  calls := 0
  sent _ := []
  received _ := []
  returns := []

theorem fresh_pair : Fresh pair where
  ne := by decide
  active d := by cases d <;> decide
  state _ := rfl
  peer d := by cases d <;> rfl
  ring _ := rfl
  call _ := rfl
  sent _ := rfl
  received _ := rfl
  returns := rfl

/-- Three bytes written, two of them read. -/
theorem unix_stream_pair :
    ((run streamNext pair [.write false (fun _ => 7) 3, .read true 2]).received true).map Prod.snd
      <+: ((run streamNext pair [.write false (fun _ => 7) 3, .read true 2]).sent true).map
        Prod.snd :=
  ((unix_stream pair [.write false (fun _ => 7) 3, .read true 2] fresh_pair
    ⟨by change 0 ≤ int32 3; decide, by change 0 ≤ int32 2; decide, trivial⟩).1 true).2.2

/-- A vector of two entries, `[1, 2]` at 16 and `[3]` at 24. -/
def twoEntries : UserPtr MsgHdr :=
  .val ⟨2, .val fun i => if i = 0 then ⟨16, 2⟩ else ⟨24, 1⟩⟩

def twoEntriesMem : ℕ → Option UInt8
  | 16 => some 1
  | 17 => some 2
  | 24 => some 3
  | _ => none

/-- `sendmsg` with room for one byte; a reader makes room for another one between the two
chunks.  The call returns 2, but the second byte that it sent is its third. -/
def cutRun : List StreamOp :=
  [.sendmsg 0 false twoEntries twoEntriesMem, .chunk 0 fun _ => 0, .read true 1,
    .chunk 0 fun _ => 0]

/-- A write of `2^31` bytes makes the fill of the ring negative, and a `sendmsg` may leave out
bytes in the middle of its data. -/
theorem unix_stream_broken :
    ((run streamNext pair [.write false (fun _ => 0) (2 ^ 31)]).ring true).count = -2 ^ 31 ∧
    ∃ r ∈ (run streamNext pair (.write false (fun _ => 0) 65535 :: cutRun)).returns, r.n = 2 ∧
      bytesOf r.id ((run streamNext pair (.write false (fun _ => 0) 65535 :: cutRun)).sent r.dst)
        ≠ r.data.take 2 :=
  ⟨by decide +kernel, by decide +kernel⟩

end CosmoRT.Net
