import CosmoRT.Abi
import Mathlib.Data.List.Basic

/-!
# Advisory file locks of `sys_file.c`

One global list of lock entries serves `fcntl` byte ranges (POSIX and OFD),
`flock(2)` and leases.  Modelled here are the byte-range calls — the conflict
test, the unlock loop that trims and splits entries while it walks the list, the
merge loop, `flock_byterange_setlk` — and the three release calls, each as one
step under `flock_lock`.  The list is kept in its order: an entry is found, and
reported, by position.
-/

namespace CosmoRT.Sys

/-! ## Entries -/

/-- The `FL_*` kinds of an entry. -/
inductive FlKind where
  | POSIX | OFD | FLOCK | LEASE
  deriving DecidableEq, Repr

/-- The type of a lock that is held.  A request carries an `Option` of it, where
`none` is `F_UNLCK`. -/
inductive LockType where
  | RDLCK | WRLCK
  deriving DecidableEq, Repr

/-- `FLOCK_OFF_MAX`: the end of a lock that reaches to the end of the file. -/
abbrev flockOffMax : ℤ := 9223372036854775807

/-- Who asks for a lock or holds one: the `kind`, `pid` and `owner` that
`flock_same_owner` compares. -/
structure Locker where
  kind : FlKind
  pid : ℕ
  owner : ℕ
  deriving DecidableEq, Repr

/-- `struct flock_entry`, without its link. -/
structure FlockEntry where
  ino : ℕ
  holder : Locker
  type : LockType
  start : ℤ
  /-- `end`, inclusive. -/
  last : ℤ
  deriving DecidableEq, Repr

/-- The value of a 64-bit `long` computation: two's complement wrap-around. -/
def long (x : ℤ) : ℤ := Int.bmod x (2 ^ 64)

/-- `flock_range_overlap`. -/
def flockRangeOverlap (s1 e1 s2 e2 : ℤ) : Bool := decide (s1 ≤ e2) && decide (s2 ≤ e1)

/-- `flock_same_owner`: a POSIX lock belongs to a process, every other kind to an
open file description. -/
def flockSameOwner (e me : Locker) : Bool :=
  if e.kind ≠ me.kind then false
  else if me.kind = .POSIX then e.pid == me.pid else e.owner == me.owner

/-- Whether `flock_link` stops in front of `c` with the new entry `e`. -/
def linkStops (e c : FlockEntry) : Bool :=
  decide (c.ino > e.ino) || (decide (c.ino = e.ino) && decide (c.start > e.start))

/-- `flock_link`: in front of the first entry that stops it. -/
def flockLink (e : FlockEntry) : List FlockEntry → List FlockEntry
  | [] => [e]
  | c :: l => if linkStops e c then e :: c :: l else c :: flockLink e l

/-- Whether an allocation of a lock entry succeeds: the one for a split, and the
one for the new lock. -/
structure FlockMem where
  split : Bool
  entry : Bool
  deriving DecidableEq, Repr

/-- Memory for everything. -/
def FlockMem.ample : FlockMem := ⟨true, true⟩

/-! ## Byte ranges -/

/-- A byte range of an inode, asked for by `me`. -/
structure LockRange where
  ino : ℕ
  me : Locker
  start : ℤ
  last : ℤ
  deriving DecidableEq, Repr

/-- The test of the loop of `flock_byterange_conflict` on one entry. -/
def conflictsWith (q : LockRange) (type : LockType) (e : FlockEntry) : Bool :=
  decide (e.ino = q.ino) && (decide (e.holder.kind = .POSIX) || decide (e.holder.kind = .OFD)) &&
    !flockSameOwner e.holder q.me && flockRangeOverlap e.start e.last q.start q.last &&
    !(decide (e.type = .RDLCK) && decide (type = .RDLCK))

/-- `flock_byterange_conflict`: the first entry of the list in conflict. -/
def flockByterangeConflict (l : List FlockEntry) (q : LockRange) (type : LockType) :
    Option FlockEntry :=
  l.find? (conflictsWith q type)

/-- Whether the unlock loop has to cut an entry. -/
def cutBy (q : LockRange) (e : FlockEntry) : Bool :=
  decide (e.ino = q.ino) && flockSameOwner e.holder q.me &&
    flockRangeOverlap e.start e.last q.start q.last

/-- `flock_link` while the unlock loop stands between `done` and `rest`: the new
entry goes in front of the saved `next`, or into the part still to be walked. -/
def linkBetween (n : FlockEntry) (done rest : List FlockEntry) :
    List FlockEntry × List FlockEntry :=
  if done.any (linkStops n) then (flockLink n done, rest)
  else
    match rest with
    | [] => (done ++ [n], [])
    | c :: l => if linkStops n c then (done ++ [n], c :: l) else (done, flockLink n (c :: l))

/-- The loop of `flock_byterange_unlock`, with `done` behind it and `rest` ahead.
A split links a second entry into the list under the loop's feet; `fuel` bounds
the number of entries walked. -/
def unlockLoop (q : LockRange) (mem : FlockMem) :
    ℕ → List FlockEntry → List FlockEntry → Except Errno Unit × List FlockEntry
  | 0, done, rest => (.ok (), done ++ rest)
  | _ + 1, done, [] => (.ok (), done)
  | fuel + 1, done, e :: rest =>
    if cutBy q e then
      if e.start < q.start ∧ e.last > q.last then
        if mem.split = false then (.error .ENOLCK, done ++ e :: rest)
        else
          let n : FlockEntry := ⟨q.ino, q.me, e.type, long (q.last + 1), e.last⟩
          let s := linkBetween n (done ++ [{ e with last := long (q.start - 1) }]) rest
          unlockLoop q mem fuel s.1 s.2
      else if e.start < q.start then
        unlockLoop q mem fuel (done ++ [{ e with last := long (q.start - 1) }]) rest
      else if e.last > q.last then
        unlockLoop q mem fuel (done ++ [{ e with start := long (q.last + 1) }]) rest
      else unlockLoop q mem fuel done rest
    else unlockLoop q mem fuel (done ++ [e]) rest

/-- `flock_byterange_unlock`. -/
def flockByterangeUnlock (l : List FlockEntry) (q : LockRange) (mem : FlockMem) :
    Except Errno Unit × List FlockEntry :=
  unlockLoop q mem (2 * l.length) [] l

/-- Whether an entry takes part in a merge: a lock of `me` on `ino` of the type. -/
def mergeable (ino : ℕ) (me : Locker) (type : LockType) (e : FlockEntry) : Bool :=
  decide (e.ino = ino) && decide (e.type = type) && flockSameOwner e.holder me

/-- The inner loop of `flock_byterange_merge`: `a` takes in the entries behind it
that touch it, growing as it goes.  The sums wrap at the end of the file. -/
def absorb (ino : ℕ) (me : Locker) (type : LockType) (a : FlockEntry) :
    List FlockEntry → FlockEntry × List FlockEntry
  | [] => (a, [])
  | b :: l =>
    if mergeable ino me type b ∧ ¬ (long (a.last + 1) < b.start ∨ long (b.last + 1) < a.start) then
      absorb ino me type
        { a with start := if b.start < a.start then b.start else a.start
                 last := if b.last > a.last then b.last else a.last } l
    else
      let r := absorb ino me type a l
      (r.1, b :: r.2)

/-- The outer loop of `flock_byterange_merge`; `fuel` bounds the entries walked. -/
def mergeLoop (ino : ℕ) (me : Locker) (type : LockType) : ℕ → List FlockEntry → List FlockEntry
  | 0, l => l
  | _ + 1, [] => []
  | fuel + 1, a :: l =>
    if mergeable ino me type a then
      let r := absorb ino me type a l
      r.1 :: mergeLoop ino me type fuel r.2
    else a :: mergeLoop ino me type fuel l

section

variable (l : List FlockEntry)

/-- `flock_byterange_merge`. -/
def flockByterangeMerge (ino : ℕ) (me : Locker) (type : LockType) : List FlockEntry :=
  mergeLoop ino me type l.length l

/-- `flock_byterange_setlk`; a `type` of `none` is `F_UNLCK`. -/
def flockByterangeSetlk (q : LockRange) (type : Option LockType)
    (mem : FlockMem) : Except Errno Unit × List FlockEntry :=
  match type with
  | none => flockByterangeUnlock l q mem
  | some t =>
    if (flockByterangeConflict l q t).isSome then (.error .EAGAIN, l)
    else
      match flockByterangeUnlock l q mem with
      | (.error e, l) => (.error e, l)
      | (.ok _, l) =>
        if mem.entry = false then (.error .ENOLCK, l)
        else
          (.ok (), flockByterangeMerge (flockLink ⟨q.ino, q.me, t, q.start, q.last⟩ l) q.ino q.me t)

/-! ## Releases -/

/-- `flock_release`: the POSIX locks of a process on one inode, at close. -/
def flockRelease (ino pid : ℕ) : List FlockEntry :=
  l.filter fun e =>
    !(decide (e.ino = ino) && decide (e.holder.kind = .POSIX) && decide (e.holder.pid = pid))

/-- `flock_release_file`: the locks of an open file description, at its end. -/
def flockReleaseFile (file : ℕ) : List FlockEntry :=
  l.filter fun e => !(decide (e.holder.owner = file) && (decide (e.holder.kind = .OFD) ||
    decide (e.holder.kind = .FLOCK) || decide (e.holder.kind = .LEASE)))

/-- `flock_release_pid`: the POSIX locks of a process, at exit. -/
def flockReleasePid (pid : ℕ) : List FlockEntry :=
  l.filter fun e => !(decide (e.holder.kind = .POSIX) && decide (e.holder.pid = pid))

end

end CosmoRT.Sys
