import CosmoRT.Event.Files
import CosmoRT.Lib.Walk

/-!
# How epoll instances are nested

An epoll instance can watch another one.  `EPOLL_CTL_ADD` walks down from the new
target to refuse cycles and deep nesting; the walk follows one watch per instance
and compares descriptor numbers.

* `nestWalk_bound` — what the walk finds out when it can see every path: the
  instances below watch at most one other each, under numbers that still name them.
* `epoll_nesting_bounded` — **no cycle and at most `EP_MAX_NESTS` edges on a path**,
  in every run that only nests below an instance that is not itself watched, and
  where the walk sees every path.
* `epoll_nesting_cycle` — two instances that watch each other, through a second
  descriptor for one of them.
-/

namespace CosmoRT.Event

open Proc Lib List Option AList

/-- The instance at `a` watches the one at `b`. -/
def Watches (s : Files) (a b : ℕ) : Prop :=
  ∃ ep, s.epolls.lookup a = some ep ∧ ∃ it ∈ ep.entries, it.src.type = .EPOLL ∧ it.src.obj = b

instance (s : Files) (a b : ℕ) : Decidable (Watches s a b) :=
  decidable_of_iff (∃ ep ∈ s.epolls.lookup a, ∃ it ∈ ep.entries,
    it.src.type = .EPOLL ∧ it.src.obj = b) (by simp [Watches, Option.mem_def])

/-- The `ep_poll_callback` calls that a wake-up of a queue leads to, `depth` levels of
nested wake-ups deep: the instances called, in order. -/
def pollCallbacks (s : Files) : ℕ → PollWq → List ℕ
  | 0, _ => []
  | depth + 1, wq =>
    s.epolls.entries.flatMap fun p =>
      (p.2.entries.filter (·.srcWq = some wq)).flatMap fun _ =>
        p.1 :: pollCallbacks s depth (.epoll p.1)

/-! ## What the calls do to the graph -/

variable {s : Files}

theorem Fewer.watches {s' : Files} (h : Fewer s s') (a b : ℕ) (hw : Watches s' a b) :
    Watches s a b := by
  obtain ⟨ep', hs', it, hit, hsrc⟩ := hw
  obtain ⟨ep, hs, hit'⟩ := h a ep' hs' it hit
  exact ⟨ep, hs, it, hit', hsrc⟩

/-! ## The walk -/

/-- The watches of an instance all stand under numbers that still name their file in the
process. -/
def Current (s : Files) (pid : ℕ) (entries : List EpollEntry) : Prop :=
  ∀ it ∈ entries, ∃ e, s.get pid it.fd = some e ∧ e.type = it.src.type ∧ e.obj = it.src.obj

/-- The walk can see every way down from an instance: it watches at most one other, and
its watches are current. -/
def Visible (s : Files) (pid a : ℕ) : Prop :=
  (∀ b c, Watches s a b → Watches s a c → b = c) ∧
    ∀ ep, s.epolls.lookup a = some ep → Current s pid ep.entries

variable {pid a b : ℕ}

/-- In an instance the walk can see through, the next one is the one it watches. -/
theorem nextNest_of_watches (hv : Visible s pid a) (hw : Watches s a b) :
    nextNest s pid (((s.epolls.lookup a).map (·.entries)).getD []) = some b := by
  obtain ⟨ep, hep, it, hit, htype, rfl⟩ := hw
  have hcur := hv.2 ep hep
  rw [hep, map_some, getD_some, nextNest]
  obtain ⟨e, he, hety, heobj⟩ := hcur it hit
  have hmem : e ∈ ep.entries.filterMap fun it => s.get pid it.fd :=
    mem_filterMap.2 ⟨it, hit, he⟩
  -- some descriptor found is an epoll one, and whichever comes first is watched
  cases hfind : (ep.entries.filterMap fun it => s.get pid it.fd).find? (·.type = .EPOLL) with
  | none =>
    have hnot := find?_eq_none.1 hfind e hmem
    rw [hety, htype] at hnot
    simp at hnot
  | some f =>
    obtain ⟨it', hit', hf⟩ := mem_filterMap.1 (mem_of_find?_eq_some hfind)
    have hftype : f.type = .EPOLL := by simpa using find?_some hfind
    obtain ⟨f', hf', hty', hobj'⟩ := hcur it' hit'
    rw [hf, some_inj] at hf'
    subst hf'
    rw [map_some, some_inj]
    exact hv.1 _ _ ⟨ep, hep, it', hit', hty' ▸ hftype, hobj'.symm⟩ ⟨ep, hep, it, hit, htype, rfl⟩

variable {epfd : ℤ}

/-- **The walk is exact where it can see.**  When it ends before its turns are up,
every path down from its start is shorter than the number of instances it passed. -/
theorem nestWalk_bound (turns : ℕ) {depth : ℕ}
    (hv : ∀ c, Relation.ReflTransGen (Watches s) a c → Visible s pid c)
    (hwalk : nestWalk s pid epfd turns (some a) = some depth) (hlt : depth < turns) {n : ℕ}
    (hp : Steps (Watches s) n a b) : n < depth := by
  induction turns generalizing a depth n with
  | zero => omega
  | succ turns ih =>
    rw [nestWalk] at hwalk
    split at hwalk
    · cases hwalk
    obtain ⟨d, hd, rfl⟩ := map_eq_some_iff.1 hwalk
    cases n with
    | zero => omega
    | succ n =>
      obtain ⟨c, he, hp⟩ := hp
      rw [nextNest_of_watches (hv a .refl) he] at hd
      have hlt' := ih (fun c hc => hv c (.head he hc)) hd (by omega) hp
      omega

/-! ## Runs -/

/-- The calls that change what watches what. -/
inductive NestOp where
  | create (cloexec : Bool) (slab : Option ℕ) (mem : FdMem)
  | add (epfd fd : ℤ) (ev : Option EpollEvent) (mem : Bool)
  | del (epfd fd : ℤ)
  | dup (fd : ℤ) (mem : FdMem)
  | close (fd : ℤ)
  deriving DecidableEq, Repr

/-- One call of the process `pid`. -/
def nestNext (pid : ℕ) (s : Files) : NestOp → Files
  | .create cloexec slab mem => (doEpollCreate1 s pid cloexec slab mem).2
  | .add epfd fd ev mem => (doEpollCtl s pid epfd .ADD fd ev mem).2
  | .del epfd fd => (doEpollCtl s pid epfd .DEL fd none true).2
  | .dup fd mem => (doDup s pid fd mem).2
  | .close fd => (doClose s pid fd).2

/-- When an instance may be put under a watch: it is not the watching one itself, the
watching one is not watched, and the walk sees every way down. -/
def NestOk (pid : ℕ) (s : Files) : NestOp → Prop
  | .add epfd fd _ _ => ∀ e tgt, s.get pid epfd = some e → s.get pid fd = some tgt →
      tgt.type = .EPOLL →
        tgt.obj ≠ e.obj ∧ (∀ a, ¬ Watches s a e.obj) ∧
          ∀ c, Relation.ReflTransGen (Watches s) tgt.obj c → Visible s pid c
  | _ => True

/-- What is kept: short paths, and watches of an instance that hang in its queue. -/
structure NestInv (s : Files) : Prop where
  shallow : Shallow (Watches s) epMaxNests
  hooked : ∀ a ep, s.epolls.lookup a = some ep → ∀ it ∈ ep.entries, ∀ b,
    it.srcWq = some (.epoll b) → it.src.type = .EPOLL ∧ it.src.obj = b

theorem NestInv.fewer {s' : Files} (h : NestInv s) (hf : Fewer s s') : NestInv s' where
  shallow := h.shallow.mono hf.watches
  hooked a ep' hs' it hit b hb := by
    obtain ⟨ep, hs, hit'⟩ := hf a ep' hs' it hit
    exact h.hooked a ep hs it hit' b hb

theorem fdGetPollWq_epoll {e : FdEntry} {events : BitVec 32}
    (h : fdGetPollWq e events = some (.epoll b)) : e.type = .EPOLL ∧ e.obj = b := by
  unfold fdGetPollWq at h
  split at h <;> simp_all

variable {ep : Epoll} {fd : ℤ} {tgt : FdEntry}

theorem watches_epInsert (hep : s.epolls.lookup a = some ep) {ev : EpollEvent} {x y : ℕ}
    (hw : Watches (epInsert s a ep fd tgt ev) x y) :
    Watches s x y ∨ tgt.type = .EPOLL ∧ x = a ∧ y = tgt.obj := by
  obtain ⟨ep', hep', it, hit, htype, hobj⟩ := (fewer_fdObjIncref _ _).watches x y hw
  rw [Files.setEntries] at hep'
  by_cases hx : x = a
  · subst hx
    rw [lookup_insert, some_inj] at hep'
    subst hep'
    rcases mem_cons.1 hit with rfl | hit
    · exact .inr ⟨htype, rfl, hobj.symm⟩
    · exact .inl ⟨ep, hep, it, hit, htype, hobj⟩
  · rw [lookup_insert_ne hx] at hep'
    exact .inl ⟨ep', hep', it, hit, htype, hobj⟩

section

variable (h : NestInv s)
include h

theorem hooked_epInsert (hep : s.epolls.lookup a = some ep) {ev : EpollEvent} {x : ℕ}
    {ep' : Epoll} (hs' : (epInsert s a ep fd tgt ev).epolls.lookup x = some ep') {it : EpollEntry}
    (hit : it ∈ ep'.entries) (hb : it.srcWq = some (.epoll b)) :
    it.src.type = .EPOLL ∧ it.src.obj = b := by
  obtain ⟨ep', hep', hit⟩ := fewer_fdObjIncref _ _ x ep' hs' it hit
  rw [Files.setEntries] at hep'
  by_cases hx : x = a
  · subst hx
    rw [lookup_insert, some_inj] at hep'
    subst hep'
    rcases mem_cons.1 hit with rfl | hit
    · exact fdGetPollWq_epoll hb
    · exact h.hooked x ep hep it hit b hb
  · rw [lookup_insert_ne hx] at hep'
    exact h.hooked x ep' hep' it hit b hb

theorem NestInv.add_leaf (hep : s.epolls.lookup a = some ep) (htgt : tgt.type ≠ .EPOLL)
    (ev : Option EpollEvent) (mem : Bool) : NestInv (epollAdd s a ep fd tgt ev mem).2 := by
  unfold epollAdd
  split
  · exact h
  split
  · exact h
  · split
    · exact h
    · refine ⟨h.shallow.mono fun x y hw => ?_, fun x ep' hs' it hit b hb =>
        hooked_epInsert h hep hs' hit hb⟩
      rcases watches_epInsert hep hw with hw | ⟨htype, -⟩
      · exact hw
      · exact absurd htype htgt

theorem NestInv.add_nested
    (hep : s.epolls.lookup a = some ep) (hne : tgt.obj ≠ a) (hroot : ∀ x, ¬ Watches s x a)
    (hv : ∀ c, Relation.ReflTransGen (Watches s) tgt.obj c → Visible s pid c)
    (hcheck : nestCheck s pid epfd tgt.obj = .ok ()) (ev : Option EpollEvent) (mem : Bool) :
    NestInv (epollAdd s a ep fd tgt ev mem).2 := by
  have hbelow : ∀ n y, Steps (Watches s) n tgt.obj y → n < epMaxNests := by
    intro n y hp
    unfold nestCheck at hcheck
    split at hcheck
    · cases hcheck
    · rename_i depth hwalk
      split at hcheck
      · cases hcheck
      · have hlt := nestWalk_bound (epMaxNests + 1) hv hwalk (by omega) hp
        omega
  unfold epollAdd
  split
  · exact h
  split
  · exact h
  · split
    · exact h
    · refine ⟨h.shallow.addEdge hroot hne (fun x y hw => ?_) hbelow,
        fun x ep' hs' it hit b hb => hooked_epInsert h hep hs' hit hb⟩
      rcases watches_epInsert hep hw with hw | ⟨-, hxy⟩
      · exact .inl hw
      · exact .inr hxy

theorem NestInv.create (pid : ℕ) (cloexec : Bool) (slab : Option ℕ)
    (mem : FdMem) : NestInv (doEpollCreate1 s pid cloexec slab mem).2 := by
  unfold doEpollCreate1
  split
  · split
    · exact h
    · split
      · exact h.fewer (.of_eq rfl)
      · exact h.fewer (.insert rfl fun it hit => by cases hit)
  · exact h

theorem NestInv.add {ev : Option EpollEvent}
    {mem : Bool} (hok : NestOk pid s (.add epfd fd ev mem)) :
    NestInv (doEpollCtl s pid epfd .ADD fd ev mem).2 := by
  unfold doEpollCtl
  split
  · exact h
  rename_i epfde hget
  have hepfd := (filter_eq_some_iff.1 hget).1
  split
  · exact h
  rename_i ep hep
  split
  · exact h
  dsimp only
  split
  · exact h
  rename_i tgt htgt
  split
  · exact h
  split
  · rename_i htype
    obtain ⟨hne, hroot, hv⟩ := hok epfde tgt hepfd htgt htype
    split
    · exact h
    · exact h.add_nested hep hne hroot hv (by assumption) ev mem
  · rename_i htype
    exact h.add_leaf hep htype ev mem

theorem NestInv.del (pid : ℕ) (epfd fd : ℤ) :
    NestInv (doEpollCtl s pid epfd .DEL fd none true).2 := by
  unfold doEpollCtl
  split
  · exact h
  split
  · exact h
  rename_i ep hep
  split
  · exact h
  · dsimp only [epollDel]
    split
    · exact h
    · refine h.fewer (Fewer.trans ?_ (fewer_cleanupEntry _ _ _))
      exact .insert rfl fun it hit => ⟨ep, hep, mem_of_mem_eraseP hit⟩

theorem NestInv.dup (pid : ℕ) (fd : ℤ) (mem : FdMem) : NestInv (doDup s pid fd mem).2 := by
  unfold doDup
  split
  · split
    · exact h
    · split
      · exact h.fewer (.of_eq rfl)
      · exact h.fewer (Fewer.trans (.of_eq rfl) (fewer_fdObjIncref _ _))
  · exact h

theorem NestInv.close (pid : ℕ) (fd : ℤ) : NestInv (doClose s pid fd).2 := by
  unfold doClose
  split
  · split
    · exact h
    · exact h.fewer (Fewer.trans (fewer_cleanupEntry _ _ _) (.of_eq rfl))
  · exact h

omit h in
/-- **Step.**  A call that meets the condition keeps the invariant. -/
theorem nestNext_inv (pid : ℕ) (s : Files) (op : NestOp) (h : NestInv s) (hok : NestOk pid s op) :
    NestInv (nestNext pid s op) := by
  cases op with
  | create cloexec slab mem => exact h.create pid cloexec slab mem
  | add epfd fd ev mem => exact h.add hok
  | del epfd fd => exact h.del pid epfd fd
  | dup fd mem => exact h.dup pid fd mem
  | close fd => exact h.close pid fd

omit h in
theorem nestInv_of_empty (h : s.epolls = ∅) : NestInv s where
  shallow n a b hp := by
    cases n with
    | zero => omega
    | succ n =>
      obtain ⟨c, ⟨ep, hep, -⟩, -⟩ := hp
      rw [h] at hep
      simp at hep
  hooked a ep hs := by
    rw [h] at hs
    simp at hs

/-! ## What a wake-up leads to -/

/-- Deeper levels add no callback above an instance that no long path leads to. -/
theorem pollCallbacks_stable (n : ℕ) (hb : ∀ x, ¬ Steps (Watches s) n x b) (m : ℕ) :
    pollCallbacks s (n + m) (.epoll b) = pollCallbacks s n (.epoll b) := by
  induction n generalizing b with
  | zero => exact absurd (.nil b) (hb b)
  | succ n ih =>
    rw [Nat.add_right_comm, pollCallbacks]
    refine flatMap_congr fun p hp => flatMap_congr fun it hit => ?_
    obtain ⟨hit, hwq⟩ := mem_filter.1 hit
    have hlook : s.epolls.lookup p.1 = some p.2 := mem_lookup_iff.2 hp
    have hsrc := h.hooked p.1 p.2 hlook it hit b (by simpa using hwq)
    have hedge : Watches s p.1 b := ⟨p.2, hlook, it, hit, hsrc⟩
    rw [ih fun x hx => hb x (hx.snoc hedge)]

/-- A wake-up of any queue has made all its callbacks after `EP_MAX_NESTS + 2` levels. -/
theorem pollCallbacks_finite (wq : PollWq) (m : ℕ) :
    pollCallbacks s (epMaxNests + 2 + m) wq = pollCallbacks s (epMaxNests + 2) wq := by
  rw [Nat.add_right_comm (epMaxNests + 1) 1 m, pollCallbacks]
  refine flatMap_congr fun p _ => flatMap_congr fun it _ => ?_
  rw [pollCallbacks_stable h (epMaxNests + 1) fun x hx => ?_]
  have hle := h.shallow _ _ _ hx
  omega

end

/-- What is promised of a state: no instance watches itself, however indirectly, no path
is longer than `EP_MAX_NESTS`, and a wake-up of any queue comes to an end. -/
structure NestPromise (s : Files) : Prop where
  acyclic : ∀ a, ¬ Relation.TransGen (Watches s) a a
  bounded : ∀ n a b, Steps (Watches s) n a b → n ≤ epMaxNests
  finite : ∀ wq m, pollCallbacks s (epMaxNests + 2 + m) wq = pollCallbacks s (epMaxNests + 2) wq

/-- **Epoll nesting.**  From a state without instances, in every run of one process whose
calls all meet `NestOk`, the nesting is acyclic and bounded. -/
theorem epoll_nesting_bounded (pid : ℕ) (s : Files) (h0 : s.epolls = ∅) (ops : List NestOp)
    (hok : Along (nestNext pid) (NestOk pid) s ops) : NestPromise (run (nestNext pid) s ops) := by
  have h := run_invariant (nestNext_inv pid) (nestInv_of_empty h0) hok
  exact ⟨h.shallow.acyclic, h.shallow, pollCallbacks_finite h⟩

theorem not_watches_of_entries (h : ∀ p ∈ s.epolls.entries, p.2.entries = [])
    (a b : ℕ) : ¬ Watches s a b := by
  rintro ⟨ep, hep, it, hit, -⟩
  rw [h ⟨a, ep⟩ (mem_lookup_iff.1 hep)] at hit
  cases hit

/-- An instance put under another one. -/
theorem epoll_nesting_bounded_pair :
    NestPromise (run (nestNext 1) bootFiles
      [.create false (some 10) .ample, .create false (some 20) .ample,
        .add 3 4 (some ⟨epollIn, 0⟩) true]) := by
  refine epoll_nesting_bounded 1 bootFiles rfl _ ⟨trivial, trivial, ?_, trivial⟩
  intro e tgt he htgt _
  have hno := not_watches_of_entries (s := nestNext 1 (nestNext 1 bootFiles
    (.create false (some 10) .ample)) (.create false (some 20) .ample)) (by decide +kernel)
  have hobj : some e.obj = some 10 :=
    (congrArg (·.map FdEntry.obj) he).symm.trans (by decide +kernel)
  have htobj : some tgt.obj = some 20 :=
    (congrArg (·.map FdEntry.obj) htgt).symm.trans (by decide +kernel)
  rw [some_inj] at hobj htobj
  refine ⟨by omega, fun a => hno a _, fun c hc => ?_⟩
  refine ⟨fun b d hb => absurd hb (hno c b), fun ep hep it hit => ?_⟩
  have hnil : ep.entries = [] := by
    have hall : ∀ p ∈ (nestNext 1 (nestNext 1 bootFiles (.create false (some 10) .ample))
      (.create false (some 20) .ample)).epolls.entries, p.2.entries = [] := by decide +kernel
    exact hall ⟨c, ep⟩ (mem_lookup_iff.1 hep)
  rw [hnil] at hit
  cases hit

/-- Two instances, the second with two descriptors: the walk does not recognise the
instance it started from under its other number. -/
def crossedWatches : List NestOp :=
  [.create false (some 10) .ample, .create false (some 20) .ample, .dup 4 .ample,
    .add 3 4 (some ⟨epollIn, 0⟩) true, .add 5 3 (some ⟨epollIn, 0⟩) true]

/-- Seven instances, each put under the one before it, from the top down: the walk never
looks above the watching instance. -/
def stackedWatches : List NestOp :=
  (List.range 7).map (fun i => .create false (some (10 + i)) .ample)
    ++ (List.range 6).map fun i => .add (3 + i) (4 + i) (some ⟨epollIn, 0⟩) true

/-- The walk lets a cycle through, and a path of six edges. -/
theorem epoll_nesting_cycle :
    Relation.TransGen (Watches (run (nestNext 1) bootFiles crossedWatches)) 10 10 ∧
      Steps (Watches (run (nestNext 1) bootFiles stackedWatches)) 6 10 16 := by
  refine ⟨.tail (.single (b := 20) (by decide +kernel)) (by decide +kernel), ?_⟩
  have hedge : ∀ i < 6, Watches (run (nestNext 1) bootFiles stackedWatches) (10 + i) (11 + i) := by
    decide +kernel
  exact .cons (hedge 0 (by decide)) (.cons (hedge 1 (by decide)) (.cons (hedge 2 (by decide))
    (.cons (hedge 3 (by decide)) (.cons (hedge 4 (by decide)) (.cons (hedge 5 (by decide))
      (.nil _))))))

end CosmoRT.Event
