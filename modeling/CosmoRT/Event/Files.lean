import CosmoRT.Ipc.Pipe
import CosmoRT.Proc.FdTable
import Mathlib.Data.List.AList

/-!
# Descriptors, pipes and epoll instances

The objects that descriptors and epoll watches refer to, as `sys_ipc.c`,
`event/epoll.c`, `process.c` and `process_fork.c` keep them: descriptor tables
with their reference counts, pipes with one open count per end, and epoll
instances with their list of watches.

* `fdObjIncref`, `fdCleanupEntry` — taking and dropping one reference, with the
  recursion of `epoll_destroy` through nested instances.

Objects other than pipes and epoll instances are counted elsewhere; dropping a
descriptor on one of them changes nothing here.  The ready list of an epoll
instance is only a hint that no call reads, and is left out.
-/

namespace CosmoRT.Event

open Proc Ipc Function

/-! ## The objects -/

/-- A `struct pipe` with the threads that sleep on its two wait queues. -/
structure PipeObj where
  pipe : Pipe
  readWq : List ℕ
  writeWq : List ℕ
  deriving DecidableEq, Repr

/-- The wait queue of a source, as `fd_get_poll_wq` names it. -/
inductive PollWq where
  | eventfd (obj : ℕ) (out : Bool)
  | timerfd (obj : ℕ)
  | pipe (obj : ℕ) (isWrite : Bool)
  | socket (obj : ℕ)
  | unixSock (obj : ℕ) (out : Bool)
  | epoll (obj : ℕ)
  deriving DecidableEq, Repr

/-- `epoll_entry_t`: one watch. -/
structure EpollEntry where
  fd : ℤ
  /-- `src_type`, `src_obj` and `src_flags`, cached when the watch was added. -/
  src : FdEntry
  events : BitVec 32
  data : BitVec 64
  etLast : BitVec 32
  srcWq : Option PollWq
  deriving DecidableEq, Repr

/-- `epoll_t`, with the threads that sleep in `epoll_wait` on it. -/
structure Epoll where
  entries : List EpollEntry
  refcount : ℤ
  wq : List ℕ
  deriving DecidableEq, Repr

/-- A heap-allocated `fd_table_t` with its reference count. -/
structure SharedTable where
  tab : FdTable
  refcount : ℤ
  deriving DecidableEq

/-- What a process says about its descriptors: `p->fds` and `p->rlim_nofile`. -/
structure Holder where
  fds : ℕ
  rlimNofile : ℕ
  deriving DecidableEq, Repr

/-- All descriptor tables, pipes and epoll instances; pointers are addresses. -/
structure Files where
  holders : ℕ → Option Holder
  tables : ℕ → Option SharedTable
  pipes : ℕ → Option PipeObj
  epolls : AList fun _ : ℕ => Epoll
  /-- The threads that `wake_up_all` has been called for, in order. -/
  woken : List ℕ

section

variable (s : Files)

/-- The address of a slab object: nothing lives there. -/
def Files.Vacant (a : ℕ) : Prop :=
  a ≠ 0 ∧ s.tables a = none ∧ s.pipes a = none ∧ s.epolls.lookup a = none

instance (s : Files) (a : ℕ) : Decidable (s.Vacant a) :=
  inferInstanceAs (Decidable (_ ∧ _ = none ∧ _ = none ∧ _ = none))

/-- `slab_alloc`: the address the allocator picks, which is never that of a live
object; `none` when memory is out. -/
def slabAlloc (slab : Option ℕ) : Option ℕ := slab.filter fun a => s.Vacant a

/-- The descriptor table of a process. -/
def Files.table (pid : ℕ) : Option FdTable :=
  (s.holders pid).bind fun h => (s.tables h.fds).map (·.tab)

/-- `fd_get(p->fds, fd)`. -/
def Files.get (pid : ℕ) (fd : ℤ) : Option FdEntry :=
  (s.table pid).bind fun t => fdGet t fd

/-- The table at an address, replaced in place. -/
def Files.setTable (a : ℕ) (t : FdTable) : Files :=
  { s with tables := update s.tables a ((s.tables a).map fun st => { st with tab := t }) }

/-- One process, with pid 1, a fresh table at address 1 and nothing else. -/
def bootFiles : Files where
  holders pid := if pid = 1 then some ⟨1, 0⟩ else none
  tables a := if a = 1 then some ⟨(fdTableInit (-1) .ample).2, 1⟩ else none
  pipes _ := none
  epolls := ∅
  woken := []

/-! ## References -/

/-- `fde->flags & O_WRONLY`: which end of a pipe an entry stands for. -/
def fdIsWrite (flags : ℤ) : Bool := flags % 2 = 1

/-- The open count of one end, changed. -/
def bumpOpen (pp : Pipe) (isWrite : Bool) : Pipe :=
  if isWrite then { pp with writeOpen := pp.writeOpen + 1 }
  else { pp with readOpen := pp.readOpen + 1 }

/-- `fd_obj_incref`. -/
def fdObjIncref (e : FdEntry) : Files :=
  match e.type with
  | .PIPE =>
    { s with pipes := update s.pipes e.obj ((s.pipes e.obj).map fun po =>
        { po with pipe := bumpOpen po.pipe (fdIsWrite e.flags) }) }
  | .EPOLL =>
    match s.epolls.lookup e.obj with
    | none => s
    | some ep => { s with epolls := s.epolls.insert e.obj { ep with refcount := ep.refcount + 1 } }
  | _ => s

/-- `pipe_close`: the count of the end goes down, the sleepers of the other end are
woken when it reaches zero, and the pipe is freed when both are zero. -/
def pipeCloseEntry (obj : ℕ) (isWrite : Bool) : Files :=
  match s.pipes obj with
  | none => s
  | some po =>
    let pp := pipeClose po.pipe isWrite
    let wakeReaders := isWrite && decide (pp.writeOpen ≤ 0)
    let wakeWriters := !isWrite && decide (pp.readOpen ≤ 0)
    { s with
      pipes := update s.pipes obj
        (if pp.readOpen ≤ 0 ∧ pp.writeOpen ≤ 0 then none else some { po with pipe := pp })
      woken := s.woken ++ (if wakeReaders then po.readWq else [])
        ++ (if wakeWriters then po.writeWq else []) }

/-- `fd_cleanup_entry` with `epoll_destroy`.  The fuel bounds how deep instances are
nested; `fdCleanupEntry` gives one unit for every instance there is.  The instance
leaves the store before its watches are dropped: at a count of zero nothing refers
to it. -/
def cleanupEntry : ℕ → FdEntry → Files → Files
  | fuel, e, s =>
    match e.type with
    | .PIPE => pipeCloseEntry s e.obj (fdIsWrite e.flags)
    | .EPOLL =>
      match fuel with
      | 0 => s
      | fuel + 1 =>
        match s.epolls.lookup e.obj with
        | none => s
        | some ep =>
          if ep.refcount - 1 ≤ 0 then
            ep.entries.foldl (fun s it => cleanupEntry fuel it.src s)
              { s with epolls := s.epolls.erase e.obj, woken := s.woken ++ ep.wq }
          else
            { s with epolls := s.epolls.insert e.obj { ep with refcount := ep.refcount - 1 } }
    | _ => s

/-- `fd_cleanup_entry`. -/
def fdCleanupEntry (e : FdEntry) : Files := cleanupEntry s.epolls.keys.length e s

end

/-! ## Tables: `fork` and `exit` -/

/-- `O_CLOEXEC`. -/
abbrev oCloexec : ℤ := 0x80000

/-- `O_NONBLOCK`. -/
abbrev oNonblock : ℤ := 0x800

/-- `flags & bit`, for a bit given by its value. -/
def hasFlag (flags bit : ℤ) : Bool := flags / bit % 2 = 1

/-- `flags & ~O_CLOEXEC`. -/
def clearCloexec (flags : ℤ) : ℤ := if hasFlag flags oCloexec then flags - oCloexec else flags

/-- One turn of the loop of `dup_fd_table`: the entry at `i`, if there is one, is
copied and its object gets one more reference.  `false` is out of memory for the
leaf page. -/
def dupFdStep (parent : FdTable) (leaf : ℕ → Bool) (acc : Bool × FdTable × Files) (i : ℕ) :
    Bool × FdTable × Files :=
  match acc with
  | (false, child, s) => (false, child, s)
  | (true, child, s) =>
    match (fdEntryAt parent i).filter (·.type ≠ .NONE) with
    | none => (true, child, s)
    | some e =>
      match fdLeafAlloc child i ⟨true, true, leaf i⟩ with
      | (.error _, child) => (false, child, s)
      | (.ok _, child) => (true, fdMarkUsed (setEntry child i e) i, fdObjIncref s e)

/-- How many slots `dup_fd_table` copies: those in use, as far as the limit goes. -/
def dupCopyEnd (parent : FdTable) (rlimNofile : ℕ) : ℕ :=
  min parent.maxFd (fdEffectiveNofile rlimNofile)

section

variable (s : Files)

/-- `dup_fd_table`: a fresh table with the parent's entries. -/
def dupFdTable (parent : FdTable) (rlimNofile : ℕ) (mem : FdMem) (leaf : ℕ → Bool) :
    Bool × FdTable × Files :=
  let copyEnd := dupCopyEnd parent rlimNofile
  let want := min (Lib.doubleUntil copyEnd 32 fdInitSlots) fdCeiling
  match fdTableGrow FdTable.empty want mem with
  | (.error _, child) => (false, child, s)
  | (.ok _, child) =>
    let r := (List.range copyEnd).foldl (dupFdStep parent leaf) (true, child, s)
    (r.1, if r.1 then { r.2.1 with maxFd := copyEnd } else r.2.1, r.2.2)

/-- `fd_table_drain`: every live entry is dropped. -/
def fdTableDrain (t : FdTable) : Files :=
  (List.range t.maxSlots).foldl (fun s i =>
    match fdEntryAt t i with
    | none => s
    | some e => fdCleanupEntry s e) s

/-- `fd_table_put`: the last reference closes every entry and frees the table. -/
def fdTablePut (a : ℕ) : Files :=
  match s.tables a with
  | none => s
  | some st =>
    if st.refcount = 1 then fdTableDrain { s with tables := update s.tables a none } st.tab
    else { s with
      tables := update s.tables a (some { st with refcount := st.refcount - 1 }) }

/-- The descriptors of a `fork`: the child gets a deep copy of the table at the
address `slab`; if memory runs out, what was copied is dropped again. -/
def forkFiles (pid child : ℕ) (slab : Option ℕ) (mem : FdMem) (leaf : ℕ → Bool) :
    Except Errno ℕ × Files :=
  match s.holders pid, s.table pid with
  | some h, some parent =>
    if (s.holders child).isSome then (.error .EAGAIN, s)
    else
      match slabAlloc s slab with
      | none => (.error .ENOMEM, s)
      | some a =>
        match dupFdTable s parent h.rlimNofile mem leaf with
        | (ok, t, s') =>
          let shared := { s' with tables := update s'.tables a (some ⟨t, 1⟩) }
          if ok then
            (.ok child, { shared with
              holders := update s'.holders child (some ⟨a, h.rlimNofile⟩) })
          else (.error .ENOMEM, fdTablePut shared a)
  | _, _ => (.error .EFAULT, s)

/-- The descriptors of a `clone(CLONE_FILES)`: the child holds the same table. -/
def shareFiles (pid child : ℕ) : Files :=
  match s.holders pid with
  | none => s
  | some h =>
    if (s.holders child).isSome then s
    else { s with
      holders := update s.holders child (some h)
      tables := update s.tables h.fds ((s.tables h.fds).map fun st =>
        { st with refcount := st.refcount + 1 }) }

section

variable (pid : ℕ)

/-- The descriptors at `exit`: the process lets go of its table. -/
def exitFiles : Files :=
  match s.holders pid with
  | none => s
  | some h => fdTablePut { s with holders := update s.holders pid none } h.fds

/-! ## The calls -/

/-- What `do_pipe2` meets outside the tables: whether the result can be stored, the
slab address, the initial buffer size and whether its pages are there, and the
memory for the two descriptors. -/
structure PipeEnv where
  userOk : Bool
  slab : Option ℕ
  initSize : ℤ
  buf : Bool
  rmem : FdMem
  wmem : FdMem
  deriving DecidableEq, Repr

/-- `do_pipe2`: the two descriptors, read end first. -/
def doPipe2 (flags : ℤ) (env : PipeEnv) : Except Errno (ℕ × ℕ) × Files :=
  if env.userOk = false then (.error .EFAULT, s)
  else
    match slabAlloc s env.slab with
    | none => (.error .ENOMEM, s)
    | some a =>
      let pages := pipePageCount env.initSize
      if pagesAllocOk pages env.buf = false then (.error .ENOMEM, s)
      else
        match s.holders pid, s.table pid with
        | some h, some t =>
          let extra := (if hasFlag flags oCloexec then oCloexec else 0)
            + (if hasFlag flags oNonblock then oNonblock else 0)
          match fdAlloc t h.rlimNofile .PIPE a extra env.rmem with
          | (.error _, t) => (.error .EMFILE, s.setTable h.fds t)
          | (.ok rfd, t) =>
            match fdAlloc t h.rlimNofile .PIPE a (extra + 1) env.wmem with
            | (.error _, t) => (.error .EMFILE, s.setTable h.fds (fdClose t rfd).2)
            | (.ok wfd, t) =>
              let s := s.setTable h.fds t
              (.ok (rfd, wfd), { s with
                pipes := update s.pipes a (some ⟨newPipe pages.toNat, [], []⟩) })
        | _, _ => (.error .EFAULT, s)

/-- `dup`: the lowest free descriptor, without `O_CLOEXEC`. -/
def doDup (fd : ℤ) (mem : FdMem) : Except Errno ℕ × Files :=
  match s.holders pid, s.table pid with
  | some h, some t =>
    match fdGet t fd with
    | none => (.error .EBADF, s)
    | some e =>
      match fdDupAt t h.rlimNofile 0 e (clearCloexec e.flags) mem with
      | (.error err, t) => (.error err, s.setTable h.fds t)
      | (.ok nfd, t) => (.ok nfd, fdObjIncref (s.setTable h.fds t) e)
  | _, _ => (.error .EFAULT, s)

/-- `do_close`: the object's reference goes, then the slot. -/
def doClose (fd : ℤ) : Except Errno Unit × Files :=
  match s.holders pid, s.table pid with
  | some h, some t =>
    match fdGet t fd with
    | none => (.error .EBADF, s)
    | some e => (.ok (), (fdCleanupEntry s e).setTable h.fds (fdClose t fd).2)
  | _, _ => (.error .EFAULT, s)

/-- `do_epoll_create1`. -/
def doEpollCreate1 (cloexec : Bool) (slab : Option ℕ) (mem : FdMem) : Except Errno ℕ × Files :=
  match s.holders pid, s.table pid with
  | some h, some t =>
    match slabAlloc s slab with
    | none => (.error .ENOMEM, s)
    | some a =>
      match fdAlloc t h.rlimNofile .EPOLL a (2 + if cloexec then oCloexec else 0) mem with
      | (.error _, t) => (.error .EMFILE, s.setTable h.fds t)
      | (.ok fd, t) =>
        let s := s.setTable h.fds t
        (.ok fd, { s with epolls := s.epolls.insert a ⟨[], 1, []⟩ })
  | _, _ => (.error .EFAULT, s)

/-- The pipe behind a descriptor, when it is the wanted end: `pipe_from_fd`. -/
def pipeFromFd (fd : ℤ) (isWrite : Bool) : Option (ℕ × PipeObj) :=
  match (s.get pid fd).filter fun e => e.type = .PIPE ∧ fdIsWrite e.flags = isWrite with
  | none => none
  | some e => (s.pipes e.obj).map fun po => (e.obj, po)

/-- `do_read` on a pipe, up to where it would block. -/
def doReadPipe (fd : ℤ) (count : ℕ) : Except Errno (List UInt8) × Files :=
  match pipeFromFd s pid fd false with
  | none => (.error .EBADF, s)
  | some (o, po) =>
    let r := pipeRead po.pipe count
    (r.1, { s with pipes := update s.pipes o (some { po with pipe := r.2 }) })

/-- `do_write` on a pipe, up to where it would block. -/
def doWritePipe (fd : ℤ) (data : List UInt8) : Except Errno ℕ × Files :=
  match pipeFromFd s pid fd true with
  | none => (.error .EBADF, s)
  | some (o, po) =>
    let r := pipeWrite po.pipe data
    (r.1, { s with pipes := update s.pipes o (some { po with pipe := r.2 }) })

end

end

/-! ### `epoll_ctl` -/

/-- `EPOLLIN`. -/
abbrev epollIn : BitVec 32 := 0x001#32
/-- `EPOLLOUT`. -/
abbrev epollOut : BitVec 32 := 0x004#32
/-- `EPOLLERR`. -/
abbrev epollErr : BitVec 32 := 0x008#32
/-- `EPOLLHUP`. -/
abbrev epollHup : BitVec 32 := 0x010#32
/-- `EPOLLRDHUP`. -/
abbrev epollRdhup : BitVec 32 := 0x2000#32
/-- `EPOLLONESHOT`. -/
abbrev epollOneshot : BitVec 32 := 0x40000000#32
/-- `EPOLLET`. -/
abbrev epollEt : BitVec 32 := 0x80000000#32

/-- `EP_MAX_NESTS`. -/
abbrev epMaxNests : ℕ := 5

/-- `struct epoll_event`. -/
structure EpollEvent where
  events : BitVec 32
  data : BitVec 64
  deriving DecidableEq, Repr

/-- `EPOLL_CTL_*`. -/
inductive EpollOp where
  | ADD | DEL | MOD
  deriving DecidableEq, Repr

/-- `fd_get_poll_wq` for an open entry.  Which queue of a socket is meant depends on
the socket's own state, which is not part of this model. -/
def fdGetPollWq (e : FdEntry) (events : BitVec 32) : Option PollWq :=
  let wantOut := decide (events &&& epollOut ≠ 0)
  match e.type with
  | .EVENTFD => some (.eventfd e.obj wantOut)
  | .TIMERFD => some (.timerfd e.obj)
  | .PIPE => some (.pipe e.obj (fdIsWrite e.flags))
  | .SOCKET => some (.socket e.obj)
  | .UNIX_SOCK => some (.unixSock e.obj wantOut)
  | .EPOLL => some (.epoll e.obj)
  | _ => none

section

variable (s : Files)

/-- The first watch of an instance whose descriptor is now an epoll one: the `next`
of the nesting walk. -/
def nextNest (pid : ℕ) (entries : List EpollEntry) : Option ℕ :=
  ((entries.filterMap fun it => s.get pid it.fd).find? (·.type = .EPOLL)).map (·.obj)

/-- The nesting walk of `EPOLL_CTL_ADD`, from the instance `walk` with `turns` turns
left: `none` when a watch under the number `epfd` is met, else how many instances
were passed. -/
def nestWalk (s : Files) (pid : ℕ) (epfd : ℤ) : ℕ → Option ℕ → Option ℕ
  | 0, _ => some 0
  | _ + 1, none => some 0
  | turns + 1, some walk =>
    let entries := ((s.epolls.lookup walk).map (·.entries)).getD []
    if entries.any (·.fd = epfd) then none
    else (nestWalk s pid epfd turns (nextNest s pid entries)).map (· + 1)

/-- The nesting check of `EPOLL_CTL_ADD` for a target that is an epoll instance. -/
def nestCheck (pid : ℕ) (epfd : ℤ) (tgt : ℕ) : Except Errno Unit :=
  match nestWalk s pid epfd (epMaxNests + 1) (some tgt) with
  | none => .error .ELOOP
  | some depth => if depth ≥ epMaxNests then .error .EINVAL else .ok ()

section

variable (a : ℕ) (ep : Epoll)

/-- The watches of the instance at an address, replaced. -/
def Files.setEntries (entries : List EpollEntry) : Files :=
  { s with epolls := s.epolls.insert a { ep with entries } }

/-- The end of `EPOLL_CTL_ADD`: the watch is chained in front and takes a reference on
its source. -/
def epInsert (fd : ℤ) (tgt : FdEntry) (ev : EpollEvent) : Files :=
  let ne : EpollEntry := ⟨fd, tgt, ev.events, ev.data, 0, fdGetPollWq tgt ev.events⟩
  fdObjIncref (s.setEntries a ep (ne :: ep.entries)) tgt

/-- `EPOLL_CTL_ADD` once the target has been validated. -/
def epollAdd (fd : ℤ) (tgt : FdEntry) (ev : Option EpollEvent)
    (mem : Bool) : Except Errno Unit × Files :=
  match ev with
  | none => (.error .EFAULT, s)
  | some ev =>
    if ep.entries.any (·.fd = fd) then (.error .EEXIST, s)
    else if mem = false then (.error .ENOMEM, s)
    else (.ok (), epInsert s a ep fd tgt ev)

/-- The first watch under a number, changed. -/
def modEntry (f : EpollEntry → EpollEntry) (fd : ℤ) : List EpollEntry → List EpollEntry
  | [] => []
  | it :: rest => if it.fd = fd then f it :: rest else it :: modEntry f fd rest

/-- `EPOLL_CTL_MOD` once the target has been validated. -/
def epollMod (fd : ℤ) (tgt : FdEntry) (ev : Option EpollEvent) : Except Errno Unit × Files :=
  match ev with
  | none => (.error .EFAULT, s)
  | some ev =>
    if ep.entries.any (·.fd = fd) then
      let change (it : EpollEntry) : EpollEntry :=
        { it with
          events := ev.events, data := ev.data, etLast := 0
          srcWq := fdGetPollWq tgt ev.events }
      (.ok (), s.setEntries a ep (modEntry change fd ep.entries))
    else (.error .ENOENT, s)

/-- `EPOLL_CTL_DEL`: the first watch under the number goes, with its reference. -/
def epollDel (fd : ℤ) : Except Errno Unit × Files :=
  match ep.entries.find? (·.fd = fd) with
  | none => (.error .ENOENT, s)
  | some victim =>
    (.ok (), fdCleanupEntry (s.setEntries a ep (ep.entries.eraseP (·.fd = fd))) victim.src)

end

/-- `do_epoll_ctl`; `ev` is `none` when the event cannot be read. -/
def doEpollCtl (pid : ℕ) (epfd : ℤ) (op : EpollOp) (fd : ℤ) (ev : Option EpollEvent)
    (mem : Bool) : Except Errno Unit × Files :=
  match (s.get pid epfd).filter (·.type = .EPOLL) with
  | none => (.error .EBADF, s)
  | some epfde =>
    match s.epolls.lookup epfde.obj with
    | none => (.error .EBADF, s)
    | some ep =>
      if fd = epfd then (.error .EINVAL, s)
      else
        match op with
        | .DEL => epollDel s epfde.obj ep fd
        | .MOD =>
          match s.get pid fd with
          | none => (.error .EBADF, s)
          | some tgt =>
            if tgt.type = .FILE then (.error .EPERM, s) else epollMod s epfde.obj ep fd tgt ev
        | .ADD =>
          match s.get pid fd with
          | none => (.error .EBADF, s)
          | some tgt =>
            if tgt.type = .FILE then (.error .EPERM, s)
            else if tgt.type = .EPOLL then
              match nestCheck s pid epfd tgt.obj with
              | .error e => (.error e, s)
              | .ok _ => epollAdd s epfde.obj ep fd tgt ev mem
            else epollAdd s epfde.obj ep fd tgt ev mem

/-! ### `epoll_wait` -/

/-- `fd_poll_readiness` of a pipe end. -/
def pipeReadiness (pp : Pipe) (isWrite : Bool) (interest : BitVec 32) : BitVec 32 :=
  if isWrite then
    if interest &&& epollOut ≠ 0 then
      (if pp.count < pp.bufSize ∧ pp.wasFull = false then epollOut else 0)
        ||| (if pp.readOpen = 0 then epollErr ||| epollHup else 0)
    else 0
  else
    (if interest &&& epollIn ≠ 0 then
      (if pp.count > 0 then epollIn else 0)
        ||| (if pp.writeOpen = 0 then epollIn ||| epollHup else 0)
    else 0) ||| (if pp.writeOpen = 0 then epollRdhup else 0)

section

variable (dev : FdEntry → BitVec 32 → BitVec 32) (pid : ℕ)

/-- `fd_poll_readiness`.  `dev` is the readiness of the objects that are not modelled
here. -/
def fdPollReadiness (fd : ℤ) (interest : BitVec 32) : BitVec 32 :=
  match s.get pid fd with
  | none => epollHup ||| epollErr
  | some e =>
    match e.type with
    | .PIPE =>
      match s.pipes e.obj with
      | none => epollErr
      | some po => pipeReadiness po.pipe (fdIsWrite e.flags) interest
    | .FILE => (interest &&& epollIn) ||| (interest &&& epollOut)
    | .EPOLL | .DEVICE | .PROCFS | .NSFS | .NONE => interest &&& epollOut
    | _ => dev e interest

/-- The bits `ep_send_events` finds for one watch, before edge triggering. -/
def epReadyBits (epi : EpollEntry) : BitVec 32 :=
  let interest := epi.events &&& ~~~(epollEt ||| epollOneshot)
  let always := epollHup ||| epollErr ||| epollRdhup
  let r := fdPollReadiness s dev pid epi.fd (interest ||| always)
  (r &&& interest) ||| (r &&& always)

/-- One turn of `ep_send_events`: what is reported for a watch, if anything, and the
watch afterwards. -/
def epSendOne (epi : EpollEntry) : Option EpollEvent × EpollEntry :=
  if epi.events &&& ~~~(epollEt ||| epollOneshot) = 0 then (none, epi)
  else
    let evbits := epReadyBits s dev pid epi
    let edge := decide (epi.events &&& epollEt ≠ 0)
    if evbits = 0 then (none, if edge then { epi with etLast := 0 } else epi)
    else
      let newBits := if edge then evbits &&& ~~~epi.etLast else evbits
      if newBits = 0 then (none, epi)
      else
        let epi := if edge then { epi with etLast := epi.etLast ||| newBits } else epi
        let after := if epi.events &&& epollOneshot ≠ 0 then
          { epi with events := epi.events &&& ~~~(epollIn ||| epollOut ||| epollRdhup) } else epi
        (some ⟨newBits, epi.data⟩, after)

/-- `ep_send_events`: the watches that are reported, each with its event, and the list
of watches afterwards, for at most `room` events. -/
def epSendEvents (s : Files) (dev : FdEntry → BitVec 32 → BitVec 32) (pid : ℕ) :
    ℕ → List EpollEntry → List (EpollEntry × EpollEvent) × List EpollEntry
  | 0, entries => ([], entries)
  | _, [] => ([], [])
  | room + 1, epi :: rest =>
    match epSendOne s dev pid epi with
    | (none, epi') =>
      let r := epSendEvents s dev pid (room + 1) rest
      (r.1, epi' :: r.2)
    | (some ev, epi') =>
      let r := epSendEvents s dev pid room rest
      ((epi, ev) :: r.1, epi' :: r.2)

/-- The scan of `epoll_wait` on a descriptor; the user's buffer takes `maxevents`
events. -/
def doEpollWait (epfd : ℤ)
    (maxevents : ℕ) : Except Errno (List (EpollEntry × EpollEvent)) × Files :=
  if maxevents = 0 then (.error .EINVAL, s)
  else
    match s.get pid epfd with
    | none => (.error .EBADF, s)
    | some epfde =>
      if epfde.type ≠ .EPOLL then (.error .EINVAL, s)
      else
        match s.epolls.lookup epfde.obj with
        | none => (.error .EINVAL, s)
        | some ep =>
          let r := epSendEvents s dev pid maxevents ep.entries
          (.ok r.1, s.setEntries epfde.obj ep r.2)

end

end

/-! ## What a dropped reference takes away -/

/-- Every watch of `s'` was there in `s`, in the same instance. -/
def Fewer (s s' : Files) : Prop :=
  ∀ a ep', s'.epolls.lookup a = some ep' → ∀ it ∈ ep'.entries,
    ∃ ep, s.epolls.lookup a = some ep ∧ it ∈ ep.entries

theorem Fewer.refl (s : Files) : Fewer s s := fun _ ep h _ hit => ⟨ep, h, hit⟩

variable {s s' : Files} {a : ℕ}

theorem Fewer.trans {t u : Files} (h : Fewer s t) (h' : Fewer t u) : Fewer s u := by
  intro a ep hu it hit
  obtain ⟨ep', ht, hit'⟩ := h' a ep hu it hit
  exact h a ep' ht it hit'

theorem Fewer.of_eq (h : s'.epolls = s.epolls) : Fewer s s' := by
  intro a ep hs it hit
  exact ⟨ep, h ▸ hs, hit⟩

theorem Fewer.insert {ep' : Epoll} (hs' : s'.epolls = s.epolls.insert a ep')
    (hsub : ∀ it ∈ ep'.entries, ∃ ep, s.epolls.lookup a = some ep ∧ it ∈ ep.entries) :
    Fewer s s' := by
  intro b e hb it hit
  rw [hs'] at hb
  by_cases hba : b = a
  · subst hba
    rw [AList.lookup_insert, Option.some_inj] at hb
    exact hsub it (hb ▸ hit)
  · rw [AList.lookup_insert_ne hba] at hb
    exact ⟨e, hb, hit⟩

theorem Fewer.erase (hs' : s'.epolls = s.epolls.erase a) : Fewer s s' := by
  intro b e hb it hit
  rw [hs'] at hb
  by_cases hba : b = a
  · subst hba
    simp at hb
  · rw [AList.lookup_erase_ne hba] at hb
    exact ⟨e, hb, hit⟩

theorem fewer_foldl {β : Type*} {f : Files → β → Files} (hf : ∀ s x, Fewer s (f s x)) (l : List β)
    (s : Files) : Fewer s (l.foldl f s) := by
  induction l generalizing s with
  | nil => exact .refl s
  | cons x l ih => exact (hf s x).trans (ih (f s x))

theorem epolls_pipeCloseEntry (s : Files) (obj : ℕ) (isWrite : Bool) :
    (pipeCloseEntry s obj isWrite).epolls = s.epolls := by
  unfold pipeCloseEntry
  split <;> rfl

theorem fewer_cleanupEntry (fuel : ℕ) (e : FdEntry) (s : Files) :
    Fewer s (cleanupEntry fuel e s) := by
  fun_induction cleanupEntry fuel e s with
  | case1 => exact .of_eq (epolls_pipeCloseEntry ..)
  | case2 | case3 | case6 => exact .refl _
  | case4 e s htype fuel ep hep hlast ih =>
    exact Fewer.trans (.erase (a := e.obj) rfl) (fewer_foldl ih _ _)
  | case5 e s htype fuel ep hep hmore => exact .insert rfl fun it hit => ⟨ep, hep, hit⟩

theorem fewer_fdObjIncref (s : Files) (e : FdEntry) : Fewer s (fdObjIncref s e) := by
  unfold fdObjIncref
  split
  · exact .of_eq rfl
  · split
    · exact .refl s
    · rename_i ep hep
      exact .insert rfl fun it hit => ⟨ep, hep, hit⟩
  · exact .refl s

end CosmoRT.Event
