import CosmoRT.Abi
import Mathlib.Logic.Function.Basic

/-!
# AF_UNIX sockets: `net/unix_socket.c`

The sockets live in a slab; a pointer to one is its index there, and `active` is the
intrusive list of those in use.  Freed sockets keep their fields, except for the first
eight bytes, over which the slab lays its free-list link.

A system call names a socket by a descriptor, and every descriptor holds a reference, so
the calls below take the socket itself and answer `EBADF` for one that is not in use.
Whether a signal is deliverable is an argument.

Left out: making, naming, connecting and closing sockets (the calls here find them as they
are), out-of-band bytes, wait queues (a sleeper may go round its loop at any time) and epoll
call-backs.
-/

namespace CosmoRT.Net

open Function List

/-! ## The socket -/

/-- `USOCK_UNUSED` … `USOCK_CONNECTED`. -/
inductive UsockState where
  | unused | created | listening | connected
  deriving DecidableEq, Repr

def USOCK_BUF_SIZE : ℕ := 64 * 1024

/-- The receive buffer of a socket, into which its peer writes. -/
structure RecvRing where
  buf : List UInt8
  head : ℕ
  tail : ℕ
  count : ℤ
  deriving DecidableEq, Repr

/-- The buffer as `slab_alloc` zeroes it. -/
def emptyRing : RecvRing := ⟨replicate USOCK_BUF_SIZE 0, 0, 0, 0⟩

/-- `struct unix_socket`, as far as reading and writing use it. -/
structure UnixSocket where
  state : UsockState
  refcount : ℤ
  peer : Option ℕ
  ring : RecvRing
  deriving DecidableEq, Repr

/-- A socket of zero bytes. -/
def zeroSocket : UnixSocket where
  state := .unused
  refcount := 0
  peer := none
  ring := emptyRing

/-- All sockets, and those in use in the order of `usock_active_head`. -/
structure Unix where
  sock : ℕ → UnixSocket
  active : List ℕ

section

variable (k : Unix) (s : ℕ)

section

variable (f : UnixSocket → UnixSocket)

/-- Change one socket. -/
def Unix.modify : Unix :=
  { k with sock := update k.sock s (f (k.sock s)) }

@[simp] theorem Unix.active_modify : (k.modify s f).active = k.active := rfl

@[simp] theorem Unix.sock_modify_self : (k.modify s f).sock s = f (k.sock s) := update_self ..

end

@[simp] theorem Unix.sock_modify_of_ne (k : Unix) {s o : ℕ} (f : UnixSocket → UnixSocket)
    (h : o ≠ s) : (k.modify s f).sock o = k.sock o := update_of_ne h ..

/-! ## The ring -/

/-- The copy loop of `ring_write`. -/
def pushBytes : List UInt8 → RecvRing → RecvRing
  | [], r => r
  | b :: bs, r =>
    pushBytes bs { r with buf := r.buf.set r.tail b, tail := (r.tail + 1) % USOCK_BUF_SIZE }

/-- The copy loop of `ring_read`. -/
def popBytes : ℕ → RecvRing → List UInt8 × RecvRing
  | 0, r => ([], r)
  | n + 1, r =>
    let b := r.buf.getD r.head default
    let q := popBytes n { r with head := (r.head + 1) % USOCK_BUF_SIZE }
    (b :: q.1, q.2)

/-- `ring_write`: all of it is `int` arithmetic, and a negative `len` passes the
comparison. -/
def ringWrite (r : RecvRing) (data : ℕ → UInt8) (len : ℤ) : ℤ × RecvRing :=
  let space := int32 (USOCK_BUF_SIZE - r.count)
  let n := if len < space then len else space
  let q := pushBytes ((range n.toNat).map data) r
  (n, { q with count := int32 (q.count + n) })

/-- `ring_read`: how many bytes, and the bytes. -/
def ringRead (r : RecvRing) (len : ℤ) : ℤ × List UInt8 × RecvRing :=
  let avail := r.count
  let n := if len < avail then len else avail
  let q := popBytes n.toNat r
  (n, q.1, { q.2 with count := int32 (q.2.count - n) })

/-! ## Reading and writing -/

/-- `usock_read`: the result with the bytes that were copied. -/
def usockRead (count : ℤ) : Except Errno ℤ × List UInt8 × Unix :=
  if s ∉ k.active then (.error .EBADF, [], k)
  else if (k.sock s).state ≠ .connected then (.error .ENOTCONN, [], k)
  else if (k.sock s).ring.count = 0 then
    (if (k.sock s).peer = none then .ok 0 else .error .EAGAIN, [], k)
  else
    let r := ringRead (k.sock s).ring (int32 count)
    (.ok r.1, r.2.1, k.modify s fun o => { o with ring := r.2.2 })

/-- One turn of the loop of `usock_read_blocking`; no result when the reader sleeps. -/
def usockReadBlocking (count : ℤ) (sig : Bool) : Option (Except Errno ℤ) × List UInt8 × Unix :=
  if (k.sock s).ring.count > 0 then
    let r := ringRead (k.sock s).ring (int32 count)
    (some (.ok r.1), r.2.1, k.modify s fun o => { o with ring := r.2.2 })
  else if (k.sock s).peer = none then (some (.ok 0), [], k)
  else if sig then (some (.error .ERESTARTSYS), [], k)
  else (none, [], k)

/-- `usock_write`; `buf` is the user's buffer and `send_sigpipe` answers `EPIPE`. -/
def usockWrite (buf : ℕ → UInt8) (count : ℤ) : Except Errno ℤ × Unix :=
  if s ∉ k.active then (.error .EBADF, k)
  else if (k.sock s).state ≠ .connected then (.error .EPIPE, k)
  else
    match (k.sock s).peer with
    | none => (.error .EPIPE, k)
    | some peer =>
      let w := ringWrite (k.sock peer).ring buf (int32 count)
      let k' := k.modify peer fun o => { o with ring := w.2 }
      (if w.1 = 0 then .error .EAGAIN else .ok w.1, k')

/-- One turn of the loop of `usock_write_blocking`. -/
def usockWriteBlocking (buf : ℕ → UInt8) (count : ℤ) (sig : Bool) :
    Option (Except Errno ℤ) × Unix :=
  match (k.sock s).peer with
  | none => (some (.error .EPIPE), k)
  | some peer =>
    let w := ringWrite (k.sock peer).ring buf (int32 count)
    let k' := k.modify peer fun o => { o with ring := w.2 }
    if w.1 > 0 then (some (.ok w.1), k')
    else if sig then (some (.error .ERESTARTSYS), k')
    else (none, k')

/-! ## `sendmsg` and `recvmsg` -/

/-- `struct iovec`. -/
structure Iovec where
  base : ℕ
  len : ℕ
  deriving DecidableEq, Repr

/-- `struct k_msghdr`, as far as it is read. -/
structure MsgHdr where
  iovlen : ℕ
  iov : UserPtr (ℕ → Iovec)

/-- The bytes that `copy_from_user` leaves in a buffer: it copies up to the first byte that
is not mapped, and behind that the buffer keeps what it held. -/
def copyFromUser (mem : ℕ → Option UInt8) (stale : ℕ → UInt8) (src i : ℕ) : UInt8 :=
  if (range (i + 1)).all fun j => (mem (src + j)).isSome then (mem (src + i)).getD 0
  else stale i

/-- The bytes that arrive in user memory by `copy_to_user`: those before the first one that
cannot be written. -/
def copyToUser (writable : ℕ → Bool) : ℕ → List UInt8 → List UInt8
  | _, [] => []
  | dst, b :: bs => if writable dst then b :: copyToUser writable (dst + 1) bs else []

/-- Where the loop over the vector stands: behind it, at a bad entry, or at an entry of
which `remaining` bytes from `addr` on are left. -/
inductive Cursor where
  | finished
  | fault
  | entry (addr remaining : ℕ) (rest : List Iovec)
  deriving DecidableEq, Repr

/-- The head of the loop: empty entries are skipped, the others checked. -/
def nextIov : List Iovec → Cursor
  | [] => .finished
  | v :: rest =>
    if v.len = 0 then nextIov rest
    else if userOk v.base v.len then .entry v.base v.len rest
    else .fault

/-- A call between two chunks. -/
structure Transfer where
  addr : ℕ
  remaining : ℕ
  rest : List Iovec
  total : ℤ
  deriving DecidableEq, Repr

/-- What a chunk leads to: the call returns, or goes on. -/
inductive Progress where
  | ret (r : Except Errno ℤ)
  | more (c : Transfer)

/-- On to the next entry; the loop ends with `total`. -/
def advance (total : ℤ) (rest : List Iovec) : Progress :=
  match nextIov rest with
  | .finished => .ret (.ok total)
  | .fault => .ret (.error .EFAULT)
  | .entry addr remaining rest => .more ⟨addr, remaining, rest, total⟩

/-- `usock_sendmsg` up to the first chunk; what goes on is given with the peer it will
write to. -/
def usockSendmsg (msg : UserPtr MsgHdr) : Progress × Option ℕ :=
  if s ∉ k.active then (.ret (.error .EBADF), none)
  else if (k.sock s).state ≠ .connected then (.ret (.error .EPIPE), none)
  else
    match (k.sock s).peer with
    | none => (.ret (.error .EPIPE), none)
    | some peer =>
      match msg with
      | .null | .fault => (.ret (.error .EFAULT), none)
      | .val m =>
        if m.iovlen = 0 then (.ret (.ok 0), none)
        else if m.iovlen > 16 then (.ret (.error .EMSGSIZE), none)
        else
          match m.iov with
          | .null | .fault => (.ret (.error .EFAULT), none)
          | .val iov => (advance 0 ((range m.iovlen).map iov), some peer)

/-- The size of the next chunk. -/
def Transfer.chunk (c : Transfer) : ℕ := if c.remaining > 1024 then 1024 else c.remaining

/-- One chunk of `usock_sendmsg`, with the bytes it appends.  A chunk that does not fit ends
the entry, not the call, and a failed copy goes unnoticed. -/
def sendChunk (k : Unix) (peer : ℕ) (mem : ℕ → Option UInt8) (stale : ℕ → UInt8) (c : Transfer) :
    Progress × List UInt8 × Unix :=
  let kbuf := copyFromUser mem stale c.addr
  let w := ringWrite (k.sock peer).ring kbuf c.chunk
  let appended := (range w.1.toNat).map kbuf
  let k' := k.modify peer fun o => { o with ring := w.2 }
  if w.1 ≤ 0 then (.ret (if c.total > 0 then .ok c.total else .error .EAGAIN), appended, k')
  else
    let remaining := c.remaining - w.1.toNat
    if w.1 < c.chunk then (advance (c.total + w.1) c.rest, appended, k')
    else if remaining > 0 then
      (.more ⟨c.addr + w.1.toNat, remaining, c.rest, c.total + w.1⟩, appended, k')
    else (advance (c.total + w.1) c.rest, appended, k')

/-- `usock_recvmsg` up to the first chunk. -/
def usockRecvmsg (msg : UserPtr MsgHdr) : Progress :=
  if s ∉ k.active then .ret (.error .EBADF)
  else if (k.sock s).state ≠ .connected then .ret (.error .ENOTCONN)
  else
    match msg with
    | .null | .fault => .ret (.error .EFAULT)
    | .val m =>
      if m.iovlen = 0 then .ret (.ok 0)
      else if m.iovlen > 16 then .ret (.error .EINVAL)
      else
        match m.iov with
        | .null | .fault => .ret (.error .EFAULT)
        | .val iov =>
          if (k.sock s).ring.count = 0 then
            .ret (if (k.sock s).peer = none then .ok 0 else .error .EAGAIN)
          else advance 0 ((range m.iovlen).map iov)

/-- One chunk of `usock_recvmsg`, with the bytes that arrive in user memory. -/
def recvChunk (writable : ℕ → Bool) (c : Transfer) : Progress × List UInt8 × Unix :=
  if (k.sock s).ring.count = 0 then (.ret (.ok c.total), [], k)
  else
    let r := ringRead (k.sock s).ring c.chunk
    let k' := k.modify s fun o => { o with ring := r.2.2 }
    if r.1 ≤ 0 then (advance c.total c.rest, [], k')
    else
      let arrived := copyToUser writable c.addr r.2.1
      let remaining := c.remaining - r.1.toNat
      if r.2.2.count = 0 then (advance (c.total + r.1) c.rest, arrived, k')
      else if remaining > 0 then
        (.more ⟨c.addr + r.1.toNat, remaining, c.rest, c.total + r.1⟩, arrived, k')
      else (advance (c.total + r.1) c.rest, arrived, k')

end

end CosmoRT.Net
