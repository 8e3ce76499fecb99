import CosmoRT.Event.Nesting
import CosmoRT.Event.RefLedger

/-!
# End of file on pipes, and what `epoll_wait` reports

The open count of a pipe end is one counter for descriptors and epoll watches.  It
says whether a descriptor is left as long as every watch stands beside a descriptor
for the same file; `FilesInv` is that condition, with the ledger behind the counters.

* `FilesInv` — the counters are right, tables are owned by one process each, every
  watch is current in every process that can see it, and no instance watches itself.
* `FilesInv.holder`, `FilesInv.openCount_eq_zero` — **an end is open exactly when a
  descriptor refers to it**.
* `pipe_eof_by_descriptors` — every run of calls that adds a watch only where all
  sharers see the same file, and closes no number that is still watched.
-/

namespace CosmoRT.Event

open Function Proc Ipc Lib List Option AList

/-! ## Tables and their processes -/

/-- Every table is in order and belongs to one process, whose limit its numbers meet. -/
structure TabInv (s : Files) : Prop where
  wf : ∀ a st, s.tables a = some st → FdWf st.tab
  owned : ∀ a st, s.tables a = some st →
    st.refcount = 1 ∧ ∃ pid p, s.holders pid = some p ∧ p.fds = a
  table : ∀ pid p, s.holders pid = some p → ∃ st, s.tables p.fds = some st
  sole : ∀ pid q p p', s.holders pid = some p → s.holders q = some p' → p.fds = p'.fds → pid = q
  limit : ∀ pid p st fd, s.holders pid = some p → s.tables p.fds = some st →
    fdMap st.tab fd ≠ none → fd < fdEffectiveNofile p.rlimNofile

variable {s : Files} {pid : ℕ} {p : Holder} {st : SharedTable}

theorem get_of_holder (hp : s.holders pid = some p) (hst : s.tables p.fds = some st) (fd : ℤ) :
    s.get pid fd = fdGet st.tab fd := by
  simp [Files.get, Files.table, hp, hst]

theorem get_of_no_holder (hp : s.holders pid = none) (fd : ℤ) : s.get pid fd = none := by
  simp [Files.get, Files.table, hp]

variable {u : Files}

theorem get_congr (hholder : u.holders pid = s.holders pid)
    (htable : ∀ p, s.holders pid = some p → u.tables p.fds = s.tables p.fds) (n : ℤ) :
    u.get pid n = s.get pid n := by
  cases hp : s.holders pid with
  | none => rw [get_of_no_holder hp, get_of_no_holder (hholder.trans hp)]
  | some p => simp [Files.get, Files.table, hholder, hp, htable p hp]

/-- What `TabInv` says of one process and its table. -/
structure TableOk (s : Files) (p : Holder) (st : SharedTable) : Prop where
  table : s.tables p.fds = some st
  wf : FdWf st.tab
  refcount : st.refcount = 1
  limit : ∀ fd, fdMap st.tab fd ≠ none → fd < fdEffectiveNofile p.rlimNofile

theorem TabInv.ok (h : TabInv s) (hp : s.holders pid = some p)
    (hsame : u.tables p.fds = s.tables p.fds) : ∃ st, TableOk u p st := by
  obtain ⟨st, hst⟩ := h.table pid p hp
  exact ⟨st, hsame.trans hst, h.wf _ st hst, (h.owned _ st hst).1,
    fun fd => h.limit pid p st fd hp hst⟩

theorem TabInv.of_ok (hok : ∀ pid p, s.holders pid = some p → ∃ st, TableOk s p st)
    (hheld : ∀ a st, s.tables a = some st → ∃ pid p, s.holders pid = some p ∧ p.fds = a)
    (hsole : ∀ pid q p p', s.holders pid = some p → s.holders q = some p' →
      p.fds = p'.fds → pid = q) :
    TabInv s := by
  have hof : ∀ pid p st, s.holders pid = some p → s.tables p.fds = some st → TableOk s p st := by
    intro pid p st hp hst
    obtain ⟨st', h⟩ := hok pid p hp
    exact some_inj.1 (h.table.symm.trans hst) ▸ h
  refine ⟨fun a st hst => ?_, fun a st hst => ?_, fun pid p hp => ?_, hsole,
    fun pid p st fd hp hst => ?_⟩
  · obtain ⟨pid, p, hp, rfl⟩ := hheld a st hst
    exact (hof pid p st hp hst).wf
  · obtain ⟨pid, p, hp, rfl⟩ := hheld a st hst
    exact ⟨(hof pid p st hp hst).refcount, pid, p, hp, rfl⟩
  · obtain ⟨st, h⟩ := hok pid p hp
    exact ⟨st, h.table⟩
  · exact (hof pid p st hp hst).limit fd

variable {fd : ℤ} {e : FdEntry}

theorem TabInv.of_get (h : TabInv s) (hget : s.get pid fd = some e) :
    ∃ p st n, s.holders pid = some p ∧ s.tables p.fds = some st ∧ fd = (n : ℕ) ∧
      fdMap st.tab n = some e := by
  cases hp : s.holders pid with
  | none =>
    rw [get_of_no_holder hp] at hget
    cases hget
  | some p =>
    obtain ⟨st, hst⟩ := h.table pid p hp
    rw [get_of_holder hp hst] at hget
    rcases Int.lt_or_le fd 0 with hneg | hnn
    · rw [fdGet_neg _ hneg] at hget
      cases hget
    · obtain ⟨n, rfl⟩ := Int.eq_ofNat_of_zero_le hnn
      rw [fdGet_eq (h.wf _ st hst)] at hget
      exact ⟨p, st, n, rfl, hst, rfl, hget⟩

variable {t : FdTable}

/-- One process and the table at `a` change, which is no other process's. -/
theorem TabInv.change (h : TabInv s) {a : ℕ} (hheld : ∀ q, q ≠ pid → u.holders q = s.holders q)
    (htab : ∀ b, b ≠ a → u.tables b = s.tables b) (hown : ∀ p, s.holders pid = some p → p.fds = a)
    (hfar : ∀ q p, q ≠ pid → s.holders q = some p → p.fds ≠ a)
    (hnew : ∀ p, u.holders pid = some p → p.fds = a ∧ ∃ st, TableOk u p st)
    (hkept : ∀ st, u.tables a = some st → ∃ p, u.holders pid = some p) :
    TabInv u ∧ ∀ q n, q ≠ pid → u.get q n = s.get q n := by
  have hother : ∀ q, q ≠ pid → ∀ p, s.holders q = some p → u.tables p.fds = s.tables p.fds :=
    fun q hne p hq => htab _ (hfar q p hne hq)
  refine ⟨.of_ok (fun q p hq => ?_) (fun b st hb => ?_) (fun q r p p' hq hr heq => ?_),
    fun q n hne => get_congr (hheld q hne) (hother q hne) n⟩
  · by_cases hqp : q = pid
    · exact (hnew p (hqp ▸ hq)).2
    · rw [hheld q hqp] at hq
      exact h.ok hq (hother q hqp p hq)
  · by_cases hba : b = a
    · obtain ⟨p, hp⟩ := hkept st (hba ▸ hb)
      exact ⟨pid, p, hp, (hnew p hp).1.trans hba.symm⟩
    · rw [htab b hba] at hb
      obtain ⟨-, q, p, hq, rfl⟩ := h.owned b st hb
      refine ⟨q, p, ?_, rfl⟩
      rwa [hheld]
      rintro rfl
      exact hba (hown p hq)
  · by_cases hqp : q = pid <;> by_cases hrp : r = pid
    · rw [hqp, hrp]
    · exact absurd (heq.symm.trans (hnew p (hqp ▸ hq)).1) (hfar r p' hrp (hheld r hrp ▸ hr))
    · exact absurd (heq.trans (hnew p' (hrp ▸ hr)).1) (hfar q p hqp (hheld q hqp ▸ hq))
    · exact h.sole q r p p' (hheld q hqp ▸ hq) (hheld r hrp ▸ hr) heq

theorem TabInv.far (h : TabInv s) (hp : s.holders pid = some p) (q : ℕ) (p' : Holder)
    (hne : q ≠ pid) (hq : s.holders q = some p') : p'.fds ≠ p.fds :=
  fun heq => hne (h.sole q pid p' p hq hp heq)

theorem TabInv.set (h : TabInv s) (hp : s.holders pid = some p) (hst : s.tables p.fds = some st)
    (htables : u.tables = update s.tables p.fds (some { st with tab := t }))
    (hholders : u.holders = s.holders) (hwf : FdWf t) {fd : ℕ} {o : Option FdEntry}
    (hmap : fdMap t = update (fdMap st.tab) fd o)
    (hlim : o ≠ none → fd < fdEffectiveNofile p.rlimNofile) :
    TabInv u ∧ ∀ q (n : ℤ), u.get q n = if q = pid ∧ n = fd then o else s.get q n := by
  have hp' : u.holders pid = some p := hholders ▸ hp
  have hst' : u.tables p.fds = some { st with tab := t } := by
    rw [htables, update_self]
  have hok : TableOk u p { st with tab := t } := by
    refine ⟨hst', hwf, (h.owned _ st hst).1, fun n hne => ?_⟩
    by_cases hn : n = fd
    · rw [hn, hmap, update_self] at hne
      exact hn ▸ hlim hne
    · rw [hmap, update_of_ne hn] at hne
      exact h.limit pid p st n hp hst hne
  obtain ⟨htab, hget⟩ := h.change (fun q _ => by rw [hholders])
    (fun b hb => by rw [htables, update_of_ne hb])
    (fun p' hp' => some_inj.1 (hp.symm.trans hp') ▸ rfl) (h.far hp)
    (fun p2 hp2 => some_inj.1 (hp'.symm.trans hp2) ▸ ⟨rfl, _, hok⟩) fun _ _ => ⟨p, hp'⟩
  refine ⟨htab, fun q n => ?_⟩
  by_cases hq : q = pid
  · rw [hq, get_of_holder hp' hst', get_of_holder hp hst, fdGet_update (h.wf _ st hst) hwf hmap]
    simp
  · rw [if_neg fun hand => hq hand.1, hget q n hq]

theorem TabInv.grow (h : TabInv s) (hp : s.holders pid = some p) (hst : s.tables p.fds = some st)
    (htables : u.tables = update s.tables p.fds (some { st with tab := t }))
    (hholders : u.holders = s.holders) (hwf : FdWf t) (hmap : fdMap t = fdMap st.tab) :
    TabInv u ∧ ∀ q (n : ℤ), u.get q n = s.get q n := by
  have hsame : fdMap t = update (fdMap st.tab) 0 (fdMap st.tab 0) := by
    rw [update_eq_self, hmap]
  obtain ⟨htab, hget⟩ := h.set hp hst htables hholders hwf hsame (h.limit pid p st 0 hp hst)
  refine ⟨htab, fun q n => ?_⟩
  rw [hget]
  split
  · rename_i heq
    obtain ⟨rfl, rfl⟩ := heq
    rw [get_of_holder hp hst]
    exact (fdGet_eq (h.wf _ st hst) 0).symm
  · rfl

/-! ## The invariant -/

/-- Two entries stand for the same file, and the same end of it. -/
def SameFile (e e' : FdEntry) : Prop :=
  e.type = e'.type ∧ e.obj = e'.obj ∧ (e.type = .PIPE → fdIsWrite e.flags = fdIsWrite e'.flags)

instance (e e' : FdEntry) : Decidable (SameFile e e') :=
  inferInstanceAs (Decidable (_ ∧ _ ∧ (_ → _)))

theorem SameFile.entryRef_eq {e' : FdEntry} (h : SameFile e e') : entryRef e = entryRef e' := by
  obtain ⟨htype, hobj, hend⟩ := h
  unfold entryRef
  rw [← htype]
  split
  · rename_i hp
    rw [hobj, hend hp]
  · rw [hobj]
  · rfl

/-- The instance at `a` is open in the process. -/
def Holds (s : Files) (pid a : ℕ) : Prop :=
  ∃ fd e, s.get pid fd = some e ∧ e.type = .EPOLL ∧ e.obj = a

/-- Every watch stands beside a descriptor for the same file, in every process that has
the instance open, and no instance watches itself. -/
structure WatchInv (s : Files) : Prop where
  current : ∀ a ep, s.epolls.lookup a = some ep → ∀ it ∈ ep.entries, ∀ pid, Holds s pid a →
    ∃ e, s.get pid it.fd = some e ∧ SameFile e it.src
  acyclic : ∀ a, ¬ Relation.TransGen (Watches s) a a

/-- What the calls keep. -/
structure FilesInv (s : Files) : Prop extends WatchInv s where
  refs : RefInv s fun _ => 0
  tabs : TabInv s

variable {f : Ref}

/-- An object with a reference is referred to by a descriptor or by a watch. -/
theorem RefInv.exists_slot (h : RefInv s fun _ => 0)
    (hf : s.openCount f ≠ 0) : ∃ r, s.slot r = some f := by
  have hcount := h.counted.count f
  obtain ⟨r, hr⟩ := (Set.ncard_pos (h.counted.finite f)).1 (by omega)
  exact ⟨r, hr⟩

variable {a : ℕ}

theorem TabInv.of_slot (h : TabInv s) {fd : ℕ} (hslot : s.slot (.desc a fd) = some f) :
    ∃ pid e, s.get pid fd = some e ∧ entryRef e = some f := by
  obtain ⟨st, hst, hbind⟩ := bind_eq_some_iff.1 hslot
  obtain ⟨e, he, href⟩ := bind_eq_some_iff.1 hbind
  obtain ⟨-, pid, p, hp, rfl⟩ := h.owned a st hst
  refine ⟨pid, e, ?_, href⟩
  rw [get_of_holder hp hst, fdGet_eq (h.wf _ st hst), he]

theorem watch_of_slot (hslot : s.slot (.watch a fd) = some f) :
    ∃ ep it, s.epolls.lookup a = some ep ∧ it ∈ ep.entries ∧ entryRef it.src = some f := by
  obtain ⟨ep, hep, hbind⟩ := bind_eq_some_iff.1 hslot
  obtain ⟨it, hit, href⟩ := bind_eq_some_iff.1 hbind
  exact ⟨ep, it, hep, mem_of_find?_eq_some hit, href⟩

variable {b n child o : ℕ} {it : EpollEntry}

theorem entryRef_eq_epoll (h : entryRef e = some (.epoll b)) : e.type = .EPOLL ∧ e.obj = b := by
  unfold entryRef at h
  split at h <;> simp_all

/-- A process that has an instance open has whatever it watches open. -/
theorem FilesInv.holds_below (h : FilesInv s) (hpid : Holds s pid a)
    (hw : Watches s a b) : Holds s pid b := by
  obtain ⟨ep, hep, it, hit, htype, hobj⟩ := hw
  obtain ⟨e, he, hsame⟩ := h.current a ep hep it hit pid hpid
  exact ⟨it.fd, e, he, hsame.1.trans htype, hsame.2.1.trans hobj⟩

variable {ep : Epoll}

/-- **Every live instance is open in some process.**  Going up from one that is only
watched ends at one with a descriptor, because nothing watches itself. -/
theorem FilesInv.holder (h : FilesInv s)
    (hep : s.epolls.lookup a = some ep) : ∃ pid, Holds s pid a := by
  have hwf : WellFounded fun x y : { x // x ∈ s.epolls.keys } =>
      Relation.TransGen (Watches s) x.1 y.1 := by
    have hirrefl : Std.Irrefl fun x y : { x // x ∈ s.epolls.keys } =>
        Relation.TransGen (Watches s) x.1 y.1 := ⟨fun x => h.acyclic x.1⟩
    exact Finite.wellFounded_of_trans_of_irrefl _
  have hall : ∀ x : { x // x ∈ s.epolls.keys }, ∃ pid, Holds s pid x.1 := by
    intro x
    induction x using hwf.induction with
    | _ x ih =>
      obtain ⟨ep, hep⟩ := isSome_iff_exists.1 (lookup_isSome.2 x.2)
      have halive := h.refs.alive x.1 ep hep
      obtain ⟨r, hr⟩ := h.refs.exists_slot (f := .epoll x.1) (by rw [openCount_epoll hep]; omega)
      cases r with
      | desc b fd =>
        obtain ⟨pid, e, he, href⟩ := h.tabs.of_slot hr
        exact ⟨pid, fd, e, he, entryRef_eq_epoll href⟩
      | watch b fd =>
        obtain ⟨ep', it, hep', hit, href⟩ := watch_of_slot hr
        have hw : Watches s b x.1 := ⟨ep', hep', it, hit, entryRef_eq_epoll href⟩
        obtain ⟨pid, hpid⟩ := ih ⟨b, mem_keys_of_lookup hep'⟩ (.single hw)
        exact ⟨pid, h.holds_below hpid hw⟩
  exact hall ⟨a, mem_keys_of_lookup hep⟩

/-- A descriptor of some process refers to the object. -/
def Referred (s : Files) (f : Ref) : Prop :=
  ∃ pid fd e, s.get pid fd = some e ∧ entryRef e = some f

theorem FilesInv.live_of_get (h : FilesInv s)
    (hget : s.get pid fd = some e) (hf : entryRef e = some f) : s.openCount f ≠ 0 := by
  obtain ⟨p, st, n, hp, hst, rfl, hmap⟩ := h.tabs.of_get hget
  have hslot : s.slot (.desc p.fds n) = some f := by
    rw [slot_desc hst, hmap, bind_some, hf]
  exact Nat.ne_of_gt (h.refs.counted.pos hslot)

/-- **A counter is zero exactly when no descriptor refers to its object.** -/
theorem FilesInv.openCount_eq_zero (h : FilesInv s) (f : Ref) :
    s.openCount f = 0 ↔ ¬ Referred s f := by
  constructor
  · rintro hzero ⟨pid, fd, e, hget, href⟩
    exact h.live_of_get hget href hzero
  intro hno
  by_contra hne
  obtain ⟨r, hr⟩ := h.refs.exists_slot hne
  refine hno ?_
  cases r with
  | desc a fd =>
    obtain ⟨pid, e, he, href⟩ := h.tabs.of_slot hr
    exact ⟨pid, fd, e, he, href⟩
  | watch a fd =>
    obtain ⟨ep, it, hep, hit, href⟩ := watch_of_slot hr
    obtain ⟨pid, hpid⟩ := h.holder hep
    obtain ⟨e, he, hsame⟩ := h.current a ep hep it hit pid hpid
    exact ⟨pid, it.fd, e, he, hsame.entryRef_eq.trans href⟩

/-! ## Watches under a change of descriptors -/

variable {s' : Files}

theorem WatchInv.keep (h : WatchInv s) (hfew : Fewer s s')
    (hsee : ∀ a ep, s.epolls.lookup a = some ep → ∀ it ∈ ep.entries, ∀ pid, Holds s' pid a →
      (∃ ep', s'.epolls.lookup a = some ep' ∧ it ∈ ep'.entries) →
        Holds s pid a ∧ s'.get pid it.fd = s.get pid it.fd) : WatchInv s' where
  current a ep' hep' it hit pid hpid := by
    obtain ⟨ep, hep, hit'⟩ := hfew a ep' hep' it hit
    obtain ⟨hpid', hget⟩ := hsee a ep hep it hit' pid hpid ⟨ep', hep', hit⟩
    rw [hget]
    exact h.current a ep hep it hit' pid hpid'
  acyclic a hcyc := h.acyclic a (Relation.TransGen.mono hfew.watches _ _ hcyc)

theorem WatchInv.same (h : WatchInv s) (hfew : Fewer s s')
    (hget : ∀ q n, s'.get q n = s.get q n) : WatchInv s' := by
  refine h.keep hfew fun a ep hep it hit pid hpid _ => ⟨?_, hget pid it.fd⟩
  obtain ⟨fd, e, he, htype⟩ := hpid
  exact ⟨fd, e, hget pid fd ▸ he, htype⟩

/-- A free number is taken, by a file other than an instance with watches the process
could not see before. -/
theorem WatchInv.opened (h : WatchInv s) (hfew : Fewer s s')
    (hget : ∀ q n, s'.get q n = if q = pid ∧ n = fd then some e else s.get q n)
    (hfree : s.get pid fd = none) (hnew : e.type = .EPOLL → Holds s pid e.obj ∨
      ∀ ep, s'.epolls.lookup e.obj = some ep → ep.entries = []) : WatchInv s' := by
  refine h.keep hfew fun a ep hep it hit q hq hstill => ?_
  have hbefore : Holds s q a := by
    obtain ⟨n, e', he', htype, hobj⟩ := hq
    rw [hget] at he'
    split at he'
    · rename_i heq
      obtain ⟨rfl, rfl⟩ := heq
      obtain rfl := some_inj.1 he'
      subst hobj
      rcases hnew htype with hold | hempty
      · exact hold
      · obtain ⟨ep', hep', hit'⟩ := hstill
        rw [hempty ep' hep'] at hit'
        cases hit'
    · exact ⟨n, e', he', htype, hobj⟩
  refine ⟨hbefore, ?_⟩
  rw [hget, if_neg]
  rintro ⟨rfl, hn⟩
  obtain ⟨e', he', -⟩ := h.current a ep hep it hit q hbefore
  rw [hn, hfree] at he'
  cases he'

/-- A number is given up that no instance of the process watches. -/
theorem WatchInv.closed (h : WatchInv s) (hfew : Fewer s s')
    (hget : ∀ q n, s'.get q n = if q = pid ∧ n = fd then none else s.get q n)
    (hok : ∀ a, Holds s pid a → ∀ ep, s.epolls.lookup a = some ep → ∀ it ∈ ep.entries, it.fd ≠ fd) :
    WatchInv s' := by
  refine h.keep hfew fun a ep hep it hit q hq _ => ?_
  have hbefore : Holds s q a := by
    obtain ⟨n, e', he', htype⟩ := hq
    rw [hget] at he'
    split at he'
    · cases he'
    · exact ⟨n, e', he', htype⟩
  refine ⟨hbefore, ?_⟩
  rw [hget, if_neg]
  rintro ⟨rfl, hn⟩
  exact hok a hbefore ep hep it hit hn

/-! ## The calls -/

theorem TabInv.congr (h : TabInv s) (hsame : SameTables s u) :
    TabInv u ∧ ∀ q n, u.get q n = s.get q n := by
  obtain ⟨holders, tables, pipes, epolls, woken⟩ := u
  obtain ⟨rfl, rfl⟩ : holders = s.holders ∧ tables = s.tables := hsame
  exact ⟨⟨h.wf, h.owned, h.table, h.sole, h.limit⟩, fun _ _ => rfl⟩

/-- A call that changes no descriptor and adds no watch. -/
theorem FilesInv.frame (h : FilesInv s) (hsame : SameTables s u) (hfew : Fewer s u)
    (hrefs : RefInv u fun _ => 0) : FilesInv u := by
  obtain ⟨htab, hget⟩ := h.tabs.congr hsame
  exact ⟨h.toWatchInv.same hfew hget, hrefs, htab⟩

theorem Files.setTable_eq (hst : s.tables a = some st) (t : FdTable) : s.setTable a t
      = s.withTables s.holders (update s.tables a (some { st with tab := t })) := by
  simp [Files.setTable, Files.withTables, hst]

theorem holder_of_table (hp : s.holders pid = some p) (ht : s.table pid = some t) :
    ∃ st, s.tables p.fds = some st ∧ st.tab = t := by
  rw [Files.table, hp] at ht
  exact map_eq_some_iff.1 ht

theorem FilesInv.grown (h : FilesInv s)
    (hp : s.holders pid = some p) (hst : s.tables p.fds = some st) (hwf : FdWf t)
    (hmap : fdMap t = fdMap st.tab) : FilesInv (s.setTable p.fds t) := by
  rw [Files.setTable_eq hst]
  obtain ⟨htab, hget⟩ := h.tabs.grow (u := s.withTables s.holders _) hp hst rfl rfl hwf hmap
  have hsame : fdMap t = update (fdMap st.tab) 0 (fdMap st.tab 0) := by
    rw [update_eq_self, hmap]
  exact ⟨h.toWatchInv.same (.of_eq rfl) hget,
    h.refs.setDesc (u := s.withTables s.holders _) hst rfl rfl rfl hsame fun _ => rfl, htab⟩

theorem vacant_of_slabAlloc {slab : Option ℕ} (h : slabAlloc s slab = some a) : s.Vacant a := by
  have hfilter := (filter_eq_some_iff.1 h).2
  simpa using hfilter

theorem fdIsWrite_pipe2 (flags : ℤ) :
    fdIsWrite ((if hasFlag flags oCloexec then oCloexec else 0)
        + if hasFlag flags oNonblock then oNonblock else 0) = false ∧
      fdIsWrite ((if hasFlag flags oCloexec then oCloexec else 0)
        + (if hasFlag flags oNonblock then oNonblock else 0) + 1) = true := by
  cases hasFlag flags oCloexec <;> cases hasFlag flags oNonblock <;> decide

theorem get_of_free (h : TabInv s) {fd : ℕ}
    (hp : s.holders pid = some p) (hst : s.tables p.fds = some st)
    (hfree : fdMap st.tab fd = none) : s.get pid fd = none := by
  rw [get_of_holder hp hst, fdGet_eq (h.wf _ st hst), hfree]

variable {po : PipeObj}

/-- A free number is taken for an object that counts the reference already. -/
theorem placed {s0 : Files} {x : Ref → ℕ} (hw : WatchInv s) (htab : TabInv s)
    (hp : s.holders pid = some p) (hst : s.tables p.fds = some st) (htables : s0.tables = s.tables)
    (hfew : Fewer s s0) (hrefs : RefInv s0 fun f => x f + one (entryRef e) f) (hwf : FdWf t)
    (hlt : n < fdEffectiveNofile p.rlimNofile) (hfree : fdMap st.tab n = none)
    (hmap : fdMap t = update (fdMap st.tab) n (some e))
    (hnew : e.type = .EPOLL → Holds s pid e.obj ∨
      ∀ ep, s0.epolls.lookup e.obj = some ep → ep.entries = [])
    (hu : u = s0.withTables s.holders (update s.tables p.fds (some { st with tab := t }))) :
    WatchInv u ∧ RefInv u x ∧ TabInv u := by
  subst hu
  obtain ⟨htab', hget⟩ := htab.set (u := s0.withTables s.holders _) hp hst rfl rfl hwf hmap
    fun _ => hlt
  refine ⟨hw.opened (hfew.trans (.of_eq rfl)) hget (get_of_free htab hp hst hfree) hnew, ?_, htab'⟩
  refine hrefs.setDesc (u := s0.withTables s.holders _) (htables ▸ hst) (by rw [htables]; rfl)
    rfl rfl hmap fun f => ?_
  rw [hfree]
  simp

theorem FilesInv.twoEnds (h : FilesInv s) {rfd wfd : ℕ} {t1 t2 : FdTable} {flags flags' : ℤ}
    (hp : s.holders pid = some p) (hst : s.tables p.fds = some st) (hnone : s.pipes a = none)
    (hwf1 : FdWf t1) (hwf2 : FdWf t2) (hrlt : rfd < fdEffectiveNofile p.rlimNofile)
    (hwlt : wfd < fdEffectiveNofile p.rlimNofile) (hrfree : fdMap st.tab rfd = none)
    (hwfree : fdMap t1 wfd = none)
    (hrmap : fdMap t1 = update (fdMap st.tab) rfd (some ⟨.PIPE, a, flags⟩))
    (hwmap : fdMap t2 = update (fdMap t1) wfd (some ⟨.PIPE, a, flags'⟩))
    (hread : fdIsWrite flags = false) (hwrite : fdIsWrite flags' = true)
    (hopen : po.pipe.readOpen = 1 ∧ po.pipe.writeOpen = 1) :
    FilesInv { s.withTables s.holders (update s.tables p.fds (some { st with tab := t2 }))
      with pipes := update s.pipes a (some po) } := by
  set s0 : Files := { s with pipes := update s.pipes a (some po) } with hs0
  set s1 : Files := s0.withTables s.holders
    (update s.tables p.fds (some { st with tab := t1 })) with hs1
  -- the pipe comes first, with both its references in hand; then the two descriptors
  have hrefs0 : RefInv s0 fun f =>
      one (some (.pipeEnd a true)) f + one (some (.pipeEnd a false)) f := by
    refine h.refs.setPipe (o := a) rfl rfl rfl (fun po' hpo => ?_)
      (fun w => ?_) fun f hf => ?_
    · cases hpo
      omega
    · rw [hnone]
      cases w <;> simp [endCount, endOpen, hopen, one_some]
    · simp [one_some, Ne.symm (hf true), Ne.symm (hf false)]
  obtain ⟨hwatch1, hrefs1, htab1⟩ :=
    placed (x := one (some (.pipeEnd a true))) h.toWatchInv h.tabs hp
    hst (by rw [hs0]) (.of_eq (by rw [hs0]))
      (by simpa [entryRef, hread] using hrefs0) hwf1 hrlt hrfree
    hrmap (fun htype => by cases htype) hs1
  have hst1 : s1.tables p.fds = some { st with tab := t1 } := by
    exact update_self ..
  obtain ⟨hwatch2, hrefs2, htab2⟩ :=
    placed (e := ⟨.PIPE, a, flags'⟩) (x := fun _ => 0) hwatch1 htab1
    hp hst1 rfl (.of_eq rfl) (by simpa [entryRef, hwrite] using hrefs1) hwf2 hwlt
    hwfree hwmap (fun htype => by cases htype) rfl
  have hfinal := FilesInv.mk hwatch2 hrefs2 htab2
  simp only [hs1, hs0, Files.withTables, update_idem] at hfinal
  exact hfinal

theorem FilesInv.pipe2 (h : FilesInv s) (pid : ℕ) (flags : ℤ) (env : PipeEnv) :
    FilesInv (doPipe2 s pid flags env).2 := by
  unfold doPipe2
  split
  · exact h
  split
  · exact h
  rename_i a ha
  obtain ⟨-, hatab, hapipe, -⟩ := vacant_of_slabAlloc ha
  dsimp only
  split
  · exact h
  split
  case h_2 => exact h
  rename_i p t hp ht
  obtain ⟨st, hst, rfl⟩ := holder_of_table hp ht
  have hwf := h.tabs.wf _ st hst
  obtain ⟨hread, hwrite⟩ := fdIsWrite_pipe2 flags
  set extra := (if hasFlag flags oCloexec then oCloexec else 0)
    + if hasFlag flags oNonblock then oNonblock else 0 with hextra
  obtain ⟨r1, t1, h1, hpl1⟩ :=
    fdAlloc_placed hwf p.rlimNofile (show FdType.PIPE ≠ .NONE by decide) a
    extra env.rmem
  rw [h1]
  cases r1 with
  | error err => exact h.grown hp hst hpl1.wf (hpl1.error err rfl)
  | ok rfd =>
    obtain ⟨hrlt, hrfree, hrmap⟩ := hpl1.ok rfd rfl
    obtain ⟨r2, t2, h2, hpl2⟩ := fdAlloc_placed hpl1.wf p.rlimNofile
      (show FdType.PIPE ≠ .NONE by decide) a (extra + 1) env.wmem
    dsimp only
    rw [h2]
    cases r2 with
    | error err =>
      obtain ⟨hwf', hmap'⟩ := fdClose_spec hpl2.wf rfd
      refine h.grown hp hst hwf' ?_
      rw [hmap', hpl2.error err rfl, hrmap, update_idem, ← hrfree, update_eq_self]
    | ok wfd =>
      obtain ⟨hwlt, hwfree, hwmap⟩ := hpl2.ok wfd rfl
      dsimp only
      rw [Files.setTable_eq hst]
      exact h.twoEnds hp hst hapipe hpl1.wf hpl2.wf hrlt hwlt hrfree hwfree hrmap hwmap hread hwrite
        ⟨rfl, rfl⟩

theorem fdObjIncref_withTables (e : FdEntry) (s : Files) (holders : ℕ → Option Holder)
    (tables : ℕ → Option SharedTable) : fdObjIncref (s.withTables holders tables) e
      = (fdObjIncref s e).withTables holders tables := by
  have hlook : (s.withTables holders tables).epolls.lookup e.obj = s.epolls.lookup e.obj := rfl
  unfold fdObjIncref
  split
  · rfl
  · rw [hlook]
    split <;> rfl
  · rfl

theorem fdIsWrite_clearCloexec (flags : ℤ) : fdIsWrite (clearCloexec flags) = fdIsWrite flags := by
  unfold clearCloexec
  split
  · simp only [fdIsWrite, oCloexec]
    congr 1
    rw [eq_iff_iff]
    omega
  · rfl

theorem FilesInv.dup (h : FilesInv s) (pid : ℕ) (fd : ℤ) (mem : FdMem) :
    FilesInv (doDup s pid fd mem).2 := by
  unfold doDup
  split
  case h_2 => exact h
  rename_i p t hp ht
  obtain ⟨st, hst, rfl⟩ := holder_of_table hp ht
  have hwf := h.tabs.wf _ st hst
  split
  · exact h
  rename_i e he
  have hget : s.get pid fd = some e := (get_of_holder hp hst fd).trans he
  have hne : e.type ≠ .NONE := by
    obtain ⟨p', st', n, -, -, -, hmap⟩ := h.tabs.of_get hget
    simpa using (filter_eq_some_iff.1 hmap).2
  obtain ⟨r, t, ht, hpl⟩ := fdDupAt_placed hwf p.rlimNofile 0 hne (clearCloexec e.flags) mem
  rw [ht]
  cases r with
  | error err => exact h.grown hp hst hpl.wf (hpl.error err rfl)
  | ok nfd =>
    obtain ⟨hlt, hfree, hmap⟩ := hpl.ok nfd rfl
    dsimp only
    rw [Files.setTable_eq hst, fdObjIncref_withTables]
    have href : entryRef { e with flags := clearCloexec e.flags } = entryRef e :=
      entryRef_flags (fdIsWrite_clearCloexec e.flags)
    have hrefs := h.refs.incref fun f hf => h.live_of_get hget hf
    obtain ⟨hwatch, hrefs, htab⟩ := placed h.toWatchInv h.tabs hp hst (tables_fdObjIncref s e).2
      (fewer_fdObjIncref s e) (href ▸ hrefs) hpl.wf hlt hfree hmap
      (fun htype => .inl ⟨fd, e, hget, htype, rfl⟩) rfl
    exact ⟨hwatch, hrefs, htab⟩

theorem FilesInv.create (h : FilesInv s) (pid : ℕ) (cloexec : Bool) (slab : Option ℕ)
    (mem : FdMem) : FilesInv (doEpollCreate1 s pid cloexec slab mem).2 := by
  unfold doEpollCreate1
  split
  case h_2 => exact h
  rename_i p t hp ht
  obtain ⟨st, hst, rfl⟩ := holder_of_table hp ht
  have hwf := h.tabs.wf _ st hst
  split
  · exact h
  rename_i a ha
  obtain ⟨-, -, -, hvacant⟩ := vacant_of_slabAlloc ha
  obtain ⟨r, t, ht, hpl⟩ := fdAlloc_placed hwf p.rlimNofile (show FdType.EPOLL ≠ .NONE by decide) a
    (2 + if cloexec then oCloexec else 0) mem
  rw [ht]
  cases r with
  | error err => exact h.grown hp hst hpl.wf (hpl.error err rfl)
  | ok nfd =>
    obtain ⟨hlt, hfree, hmap⟩ := hpl.ok nfd rfl
    dsimp only
    rw [Files.setTable_eq hst]
    set s0 : Files := { s with epolls := s.epolls.insert a ⟨[], 1, []⟩ } with hs0
    have hrefs : RefInv s0 fun f => 0 + one (some (.epoll a)) f := by
      refine h.refs.setEpoll (show s0.epolls = s.epolls.insert a ⟨[], 1, []⟩ by rw [hs0])
        rfl rfl (fun fd => ?_) nodup_nil (by decide) ?_ fun f hf => ?_
      · simp [Files.slot, hvacant, watchRef]
      · simp [Files.openCount, hvacant]
      · rw [one_some, if_neg (Ne.symm hf)]
    have hempty : ∀ ep, s0.epolls.lookup a = some ep → ep.entries = [] := by
      intro ep hep
      rw [lookup_insert, some_inj] at hep
      exact hep ▸ rfl
    obtain ⟨hwatch, hrefs, htab⟩ := placed h.toWatchInv h.tabs hp hst (by rw [hs0])
      (.insert (by rw [hs0]) fun it hit => by cases hit) hrefs hpl.wf hlt hfree hmap
      (fun _ => .inr hempty) rfl
    exact ⟨hwatch, hrefs, htab⟩

/-! ### `close`, `exit` and `fork` -/

theorem fdCleanupEntry_setTable (e : FdEntry) (s : Files) (a : ℕ) (t : FdTable) :
    (fdCleanupEntry s e).setTable a t = fdCleanupEntry (s.setTable a t) e := by
  obtain ⟨hholders, htables⟩ := tables_fdCleanupEntry e s
  have hcomm := fdCleanupEntry_withTables e s s.holders
    (update s.tables a ((s.tables a).map fun st => { st with tab := t }))
  rw [Files.setTable, htables]
  refine Eq.trans ?_ hcomm.symm
  rw [Files.withTables, hholders]

theorem FilesInv.close (h : FilesInv s)
    (hok : ∀ a, Holds s pid a → ∀ ep, s.epolls.lookup a = some ep → ∀ it ∈ ep.entries, it.fd ≠ fd) :
    FilesInv (doClose s pid fd).2 := by
  unfold doClose
  split
  case h_2 => exact h
  rename_i p t hp ht
  obtain ⟨st, hst, rfl⟩ := holder_of_table hp ht
  have hwf := h.tabs.wf _ st hst
  split
  · exact h
  rename_i e he
  have hget : s.get pid fd = some e := (get_of_holder hp hst fd).trans he
  obtain ⟨p', st', n, hp', hst', rfl, hmap⟩ := h.tabs.of_get hget
  obtain rfl : p = p' := some_inj.1 (hp.symm.trans hp')
  obtain rfl : st = st' := some_inj.1 (hst.symm.trans hst')
  obtain ⟨hwf', hmap'⟩ := fdClose_spec hwf n
  rw [fdCleanupEntry_setTable, Files.setTable_eq hst]
  set s1 := s.withTables s.holders
    (update s.tables p.fds (some { st with tab := (fdClose st.tab n).2 })) with hs1
  obtain ⟨htab1, hget1⟩ := h.tabs.set (u := s1) hp hst rfl rfl hwf'
    hmap' fun hne => absurd rfl hne
  obtain ⟨htab, hget'⟩ := htab1.congr (tables_fdCleanupEntry e s1)
  have hfew : Fewer s (fdCleanupEntry s1 e) :=
    Fewer.trans (.of_eq rfl) (fewer_cleanupEntry _ _ _)
  refine ⟨?_, ?_, htab⟩
  · refine h.toWatchInv.closed hfew (fun q m => ?_) hok
    rw [hget', hget1]
  · have hrefs : RefInv s1 fun f => 0 + one (entryRef e) f := by
      refine h.refs.setDesc hst rfl rfl rfl hmap'
        fun f => ?_
      rw [hmap, bind_some, bind_none, one_none]
      omega
    exact hrefs.fdCleanupEntry

theorem tables_foldl {β : Type*} {f : Files → β → Files} (hf : ∀ s b, SameTables s (f s b))
    (l : List β) (s : Files) : SameTables s (l.foldl f s) := by
  induction l generalizing s with
  | nil => exact ⟨rfl, rfl⟩
  | cons b l ih =>
    obtain ⟨hh, ht⟩ := ih (f s b)
    exact ⟨hh.trans (hf s b).1, ht.trans (hf s b).2⟩

theorem tables_fdTableDrain (s : Files) (t : FdTable) : SameTables s (fdTableDrain s t) := by
  refine tables_foldl (fun s i => ?_) _ s
  split
  · exact ⟨rfl, rfl⟩
  · exact tables_fdCleanupEntry _ _

theorem fewer_fdTableDrain (s : Files) (t : FdTable) : Fewer s (fdTableDrain s t) := by
  refine fewer_foldl (fun s i => ?_) _ s
  split
  · exact .refl s
  · exact fewer_cleanupEntry _ _ _

theorem TabInv.remove (h : TabInv s)
    (hp : s.holders pid = some p) (hholders : u.holders = update s.holders pid none)
    (htables : u.tables = update s.tables p.fds none) :
    TabInv u ∧ ∀ q n, u.get q n = if q = pid then none else s.get q n := by
  have hgone : u.holders pid = none := by rw [hholders, update_self]
  obtain ⟨htab, hget⟩ := h.change (fun q hq => by rw [hholders, update_of_ne hq])
    (fun b hb => by rw [htables, update_of_ne hb])
    (fun p' hp' => some_inj.1 (hp.symm.trans hp') ▸ rfl) (h.far hp)
    (fun p' hp' => by cases hgone.symm.trans hp')
    (fun st hst => by rw [htables, update_self] at hst; cases hst)
  refine ⟨htab, fun q n => ?_⟩
  split
  · rename_i hq
    exact get_of_no_holder (hq ▸ hgone) n
  · rename_i hq
    exact hget q n hq

theorem FilesInv.exit (h : FilesInv s) (pid : ℕ) : FilesInv (exitFiles s pid) := by
  unfold exitFiles
  split
  · exact h
  rename_i p hp
  obtain ⟨st, hst⟩ := h.tabs.table pid p hp
  have hone := (h.tabs.owned _ st hst).1
  unfold fdTablePut
  rw [hst]
  dsimp only
  rw [if_pos hone]
  set s1 := s.withTables (update s.holders pid none)
    (update s.tables p.fds none) with hs1
  obtain ⟨htab1, hget1⟩ := h.tabs.remove (u := s1) hp rfl rfl
  have hrefs := h.refs.takeTable (s := s1) (h.tabs.wf _ st hst) hst rfl
    rfl rfl
  obtain ⟨htab, hget⟩ := htab1.congr (tables_fdTableDrain s1 st.tab)
  have hfinal : FilesInv (fdTableDrain s1 st.tab) := by
    refine ⟨?_, hrefs.fdTableDrain, htab⟩
    refine h.toWatchInv.keep (Fewer.trans (.of_eq rfl) (fewer_fdTableDrain _ _))
      fun a ep hep it hit q hq _ => ?_
    obtain ⟨n, e, he, htype⟩ := hq
    rw [hget, hget1] at he
    split at he
    · cases he
    · rename_i hne
      refine ⟨⟨n, e, he, htype⟩, ?_⟩
      rw [hget, hget1, if_neg hne]
  exact hfinal

theorem TabInv.add (h : TabInv s)
    (hchild : s.holders child = none) (hnone : s.tables a = none) (hfds : p.fds = a) (hwf : FdWf t)
    (hlim : ∀ fd, fdMap t fd ≠ none → fd < fdEffectiveNofile p.rlimNofile)
    (hholders : u.holders = update s.holders child (some p))
    (htables : u.tables = update s.tables a (some ⟨t, 1⟩)) :
    TabInv u ∧ ∀ q n, u.get q n = if q = child then fdGet t n else s.get q n := by
  have hnew : u.holders child = some p := by rw [hholders, update_self]
  have hst : u.tables p.fds = some ⟨t, 1⟩ := by rw [htables, hfds, update_self]
  have hfar : ∀ q p', q ≠ child → s.holders q = some p' → p'.fds ≠ a := by
    rintro q p' - hq rfl
    obtain ⟨st, hst⟩ := h.table q p' hq
    cases hnone.symm.trans hst
  obtain ⟨htab, hget⟩ := h.change (fun q hq => by rw [hholders, update_of_ne hq])
    (fun b hb => by rw [htables, update_of_ne hb])
    (fun p' hp' => by cases hchild.symm.trans hp') hfar
    (fun p' hp' => some_inj.1 (hnew.symm.trans hp') ▸ ⟨hfds, _, hst, hwf, rfl, hlim⟩)
    fun _ _ => ⟨p, hnew⟩
  refine ⟨htab, fun q n => ?_⟩
  split
  · rename_i hq
    rw [hq, get_of_holder hnew hst]
  · rename_i hq
    exact hget q n hq

/-- The child of a `fork` sees what its parent sees. -/
theorem FilesInv.forked (h : FilesInv s) (hp : s.holders pid = some p)
    (hst : s.tables p.fds = some st) (hchild : s.holders child = none) (hatab : s.tables a = none)
    (hout : DupOutcome s st.tab (dupCopyEnd st.tab p.rlimNofile) (fun _ => 0) (true, t, s')) :
    FilesInv (s'.withTables (update s'.holders child (some ⟨a, p.rlimNofile⟩))
      (update s'.tables a (some ⟨t, 1⟩))) := by
  obtain ⟨hrefs, htables, hholders, hfew, hfull⟩ := hout
  obtain ⟨hwft, hmapt⟩ := hfull rfl
  have hwf := h.tabs.wf _ st hst
  -- every number of the parent is below its limit, so all of them are copied
  have hcopy : fdMap t = fdMap st.tab := by
    rw [hmapt]
    funext i
    split
    · rfl
    · rename_i hi
      by_contra hne
      have hlim := h.tabs.limit pid p st i hp hst (Ne.symm hne)
      have hmax := (hwf.used_lt i (Ne.symm hne)).2
      exact hi (by rw [dupCopyEnd]; omega)
  set s2 := s'.withTables
    (update s'.holders child (some ⟨a, p.rlimNofile⟩))
    (update s'.tables a (some ⟨t, 1⟩)) with hs2
  have hholders2 : s2.holders = update s.holders child (some ⟨a, p.rlimNofile⟩) := by
    rw [← hholders]
    rfl
  have htables2 : s2.tables = update s'.tables a (some ⟨t, 1⟩) := by
    rfl
  have hepolls2 : s2.epolls = s'.epolls := by
    rfl
  obtain ⟨htab, hget⟩ := h.tabs.add (p := ⟨a, p.rlimNofile⟩) hchild hatab rfl hwft
    (fun fd hne => h.tabs.limit pid p st fd hp hst (hcopy ▸ hne)) hholders2 (htables ▸ htables2)
  have hgetc : ∀ n, s2.get child n = s.get pid n := by
    intro n
    rw [hget, if_pos rfl, get_of_holder hp hst]
    exact fdGet_congr hwft hwf hcopy n
  have hfew2 : Fewer s s2 := hfew.trans (.of_eq hepolls2)
  refine ⟨⟨fun b ep hep it hit q hq => ?_, fun b hcyc => ?_⟩, ?_, htab⟩
  · obtain ⟨ep', hep', hit'⟩ := hfew2 b ep hep it hit
    obtain ⟨n, e, he, htype⟩ := hq
    by_cases hqc : q = child
    · subst hqc
      rw [hgetc] at he ⊢
      exact h.current b ep' hep' it hit' pid ⟨n, e, he, htype⟩
    · rw [hget, if_neg hqc] at he ⊢
      exact h.current b ep' hep' it hit' q ⟨n, e, he, htype⟩
  · exact h.acyclic b (Relation.TransGen.mono hfew2.watches _ _ hcyc)
  · exact hrefs.putTable hwft (htables ▸ hatab) htables2 hepolls2 rfl

/-- A `fork` that runs out of memory drops what it copied. -/
theorem FilesInv.unforked (h : FilesInv s) {parent : FdTable}
    (hatab : s.tables a = none) (hout : DupOutcome s parent n (fun _ => 0) (false, t, s')) :
    FilesInv (fdTablePut { s' with tables := update s'.tables a (some ⟨t, 1⟩) } a) := by
  obtain ⟨hrefs, htables, hholders, hfew, -⟩ := hout
  have hnone : s'.tables a = none := htables ▸ hatab
  have hput : fdTablePut { s' with tables := update s'.tables a (some ⟨t, 1⟩) } a
      = fdTableDrain s' t := by
    rw [fdTablePut]
    simp only [update_self, if_true, update_idem]
    rw [← hnone, update_eq_self]
  rw [hput]
  obtain ⟨hholders', htables'⟩ := tables_fdTableDrain s' t
  exact h.frame ⟨hholders'.trans hholders, htables'.trans htables⟩
    (hfew.trans (fewer_fdTableDrain _ _)) hrefs.fdTableDrain

theorem FilesInv.fork (h : FilesInv s) (pid child : ℕ) (slab : Option ℕ) (mem : FdMem)
    (leaf : ℕ → Bool) : FilesInv (forkFiles s pid child slab mem leaf).2 := by
  unfold forkFiles
  split
  case h_2 => exact h
  rename_i p t hp ht
  obtain ⟨st, hst, rfl⟩ := holder_of_table hp ht
  split
  · exact h
  rename_i hchild
  have hchild : s.holders child = none := by simpa using hchild
  split
  · exact h
  rename_i a ha
  obtain ⟨-, hatab, -, -⟩ := vacant_of_slabAlloc ha
  have hout := dupFdTable_outcome h.refs hst (h.tabs.wf _ st hst) p.rlimNofile mem leaf
  cases hdup : dupFdTable s st.tab p.rlimNofile mem leaf with
  | mk ok r =>
    rw [hdup] at hout
    cases ok with
    | true => exact h.forked hp hst hchild hatab hout
    | false => exact h.unforked hatab hout

/-! ### `epoll_ctl` and `epoll_wait` -/

variable {l : List EpollEntry}

theorem watchRef_congr {l' : List EpollEntry}
    (h : l'.map (fun it => (it.fd, it.src)) = l.map fun it => (it.fd, it.src)) (fd : ℤ) :
    watchRef l' fd = watchRef l fd := by
  have hview : ∀ l : List EpollEntry, watchRef l fd
      = ((l.map fun it => (it.fd, it.src)).find? (·.1 = fd)).bind fun v => entryRef v.2 := by
    intro l
    rw [watchRef]
    cases hfind : l.find? (·.fd = fd) with
    | none => simp [hfind]
    | some it => simp [hfind]
  rw [hview, hview, h]

theorem FilesInv.rewatch (h : FilesInv s)
    (hep : s.epolls.lookup a = some ep) {entries : List EpollEntry}
    (hsame : entries.map (fun it => (it.fd, it.src)) = ep.entries.map fun it => (it.fd, it.src)) :
    FilesInv (s.setEntries a ep entries) := by
  have hfds : entries.map (·.fd) = ep.entries.map (·.fd) := by
    have hfst := congrArg (map Prod.fst) hsame
    simpa [comp_def] using hfst
  -- a rewritten watch was there before, up to its events
  have hback : ∀ b ep', (s.setEntries a ep entries).epolls.lookup b = some ep' →
      ∀ it ∈ ep'.entries, ∃ ep0 it0, s.epolls.lookup b = some ep0 ∧ it0 ∈ ep0.entries ∧
        it0.fd = it.fd ∧ it0.src = it.src := by
    intro b ep' hb it hit
    rw [Files.setEntries] at hb
    by_cases hba : b = a
    · subst hba
      rw [lookup_insert, some_inj] at hb
      subst hb
      have hmem : (it.fd, it.src) ∈ ep.entries.map fun it => (it.fd, it.src) :=
        hsame ▸ mem_map.2 ⟨it, hit, rfl⟩
      obtain ⟨it0, hit0, heq⟩ := mem_map.1 hmem
      exact ⟨ep, it0, hep, hit0, (Prod.mk.inj heq).1, (Prod.mk.inj heq).2⟩
    · rw [lookup_insert_ne hba] at hb
      exact ⟨ep', it, hb, hit, rfl, rfl⟩
  refine ⟨⟨fun b ep' hb it hit pid hpid => ?_, fun b hcyc => ?_⟩, ?_,
    (h.tabs.congr (u := s.setEntries a ep entries) ⟨rfl, rfl⟩).1⟩
  · obtain ⟨ep0, it0, hep0, hit0, hfd, hsrc⟩ := hback b ep' hb it hit
    rw [← hfd, ← hsrc]
    exact h.current b ep0 hep0 it0 hit0 pid hpid
  · refine h.acyclic b (Relation.TransGen.mono (fun x y hw => ?_) _ _ hcyc)
    obtain ⟨ep', hb, it, hit, htype, hobj⟩ := hw
    obtain ⟨ep0, it0, hep0, hit0, -, hsrc⟩ := hback x ep' hb it hit
    exact ⟨ep0, hep0, it0, hit0, hsrc ▸ htype, hsrc ▸ hobj⟩
  · refine h.refs.setEpoll (a := a) rfl rfl rfl (fun fd => ?_) ?_ (h.refs.alive a ep hep) ?_
      fun _ _ => rfl
    · rw [slot_watch hep]
      exact watchRef_congr hsame fd
    · rw [hfds]
      exact h.refs.fds a ep hep
    · rw [openCount_epoll hep]

theorem map_modEntry {f : EpollEntry → EpollEntry}
    (hf : ∀ it, (f it).fd = it.fd ∧ (f it).src = it.src) (fd : ℤ) (l : List EpollEntry) :
    (modEntry f fd l).map (fun it => (it.fd, it.src)) = l.map fun it => (it.fd, it.src) := by
  induction l with
  | nil => rfl
  | cons it l ih =>
    rw [modEntry]
    split
    · simp [hf it]
    · simp [ih]

theorem epSendOne_keeps (s : Files) (dev : FdEntry → BitVec 32 → BitVec 32) (pid : ℕ)
    (epi : EpollEntry) : (epSendOne s dev pid epi).2.fd = epi.fd ∧
      (epSendOne s dev pid epi).2.src = epi.src := by
  unfold epSendOne
  dsimp only
  split_ifs <;> exact ⟨rfl, rfl⟩

theorem map_epSendEvents (s : Files) (dev : FdEntry → BitVec 32 → BitVec 32) (pid room : ℕ)
    (l : List EpollEntry) : (epSendEvents s dev pid room l).2.map (fun it => (it.fd, it.src))
      = l.map fun it => (it.fd, it.src) := by
  induction l generalizing room with
  | nil => cases room <;> rfl
  | cons epi l ih =>
    cases room with
    | zero => rfl
    | succ room =>
      have hkeep := epSendOne_keeps s dev pid epi
      rw [epSendEvents]
      split
      · rename_i epi' hone
        rw [hone] at hkeep
        simpa [ih] using hkeep
      · rename_i ev epi' hone
        rw [hone] at hkeep
        simpa [ih] using hkeep

theorem mem_epSendEvents {dev : FdEntry → BitVec 32 → BitVec 32} {room : ℕ} {ev : EpollEvent}
    (h : (it, ev) ∈ (epSendEvents s dev pid room l).1) : it ∈ l := by
  induction l generalizing room with
  | nil => cases room <;> simp [epSendEvents] at h
  | cons epi l ih =>
    cases room with
    | zero => simp [epSendEvents] at h
    | succ room =>
      rw [epSendEvents] at h
      split at h
      · exact mem_cons_of_mem _ (ih h)
      · rcases mem_cons.1 h with heq | h
        · rw [(Prod.mk.inj heq).1]
          exact mem_cons_self ..
        · exact mem_cons_of_mem _ (ih h)

theorem FilesInv.wait (h : FilesInv s) (dev : FdEntry → BitVec 32 → BitVec 32)
    (pid : ℕ) (epfd : ℤ) (maxevents : ℕ) : FilesInv (doEpollWait s dev pid epfd maxevents).2 := by
  unfold doEpollWait
  split
  · exact h
  split
  · exact h
  split
  · exact h
  split
  · exact h
  rename_i ep hep
  exact h.rewatch hep (map_epSendEvents ..)

theorem watchRef_cons : watchRef (it :: l) = update (watchRef l) it.fd (entryRef it.src) := by
  funext fd
  by_cases hfd : fd = it.fd
  · subst hfd
    simp [watchRef]
  · simp [watchRef, Ne.symm hfd, hfd]

theorem lookup_insert_eq (m : AList fun _ : ℕ => Epoll) (a : ℕ) (ep : Epoll) (b : ℕ) :
    (m.insert a ep).lookup b = if b = a then some ep else m.lookup b := by
  by_cases hb : b = a
  · rw [if_pos hb, hb, lookup_insert]
  · rw [if_neg hb, lookup_insert_ne hb]

variable {tgt : FdEntry}

/-- The store after `EPOLL_CTL_ADD`, by lookup: the watching instance has one watch more,
all others are as `fd_obj_incref` leaves them. -/
theorem lookup_epInsert (hne : tgt.type = .EPOLL → tgt.obj ≠ a) (ev : EpollEvent) (b : ℕ) :
    (epInsert s a ep fd tgt ev).epolls.lookup b
      = if b = a then some { ep with
          entries := ⟨fd, tgt, ev.events, ev.data, 0, fdGetPollWq tgt ev.events⟩ :: ep.entries }
        else (fdObjIncref s tgt).epolls.lookup b := by
  unfold epInsert fdObjIncref Files.setEntries
  dsimp only
  split
  · exact lookup_insert_eq ..
  · rename_i htype
    have hobj := hne htype
    rw [lookup_insert_ne hobj]
    cases s.epolls.lookup tgt.obj with
    | none => exact lookup_insert_eq ..
    | some epb =>
      simp only [lookup_insert_eq]
      by_cases hb : b = a
      · rw [if_pos hb, if_pos hb, if_neg (by rw [hb]; exact Ne.symm hobj)]
      · rw [if_neg hb, if_neg hb]
  · exact lookup_insert_eq ..

theorem fdObjIncref_lookup_ne (hne : tgt.type = .EPOLL → tgt.obj ≠ a) :
    (fdObjIncref s tgt).epolls.lookup a = s.epolls.lookup a := by
  unfold fdObjIncref
  split
  · rfl
  · rename_i htype
    split
    · rfl
    · exact lookup_insert_ne (Ne.symm (hne htype))
  · rfl

theorem epInsert_frame (s : Files) (a : ℕ) (ep : Epoll) (fd : ℤ) (tgt : FdEntry) (ev : EpollEvent) :
    SameTables s (epInsert s a ep fd tgt ev) ∧
      (epInsert s a ep fd tgt ev).pipes = (fdObjIncref s tgt).pipes := by
  unfold epInsert fdObjIncref Files.setEntries
  dsimp only
  split
  · exact ⟨⟨rfl, rfl⟩, rfl⟩
  · split <;> split <;> exact ⟨⟨rfl, rfl⟩, rfl⟩
  · exact ⟨⟨rfl, rfl⟩, rfl⟩

/-- A watch is added that every process with the instance open can see the file of. -/
theorem FilesInv.epInsert (h : FilesInv s)
    (hep : s.epolls.lookup a = some ep) (hget : s.get pid fd = some tgt)
    (hfresh : ¬ ep.entries.any (·.fd = fd))
    (hsee : ∀ q, Holds s q a → ∃ e, s.get q fd = some e ∧ SameFile e tgt)
    (hup : tgt.type = .EPOLL → ¬ Relation.ReflTransGen (Watches s) tgt.obj a) (ev : EpollEvent) :
    FilesInv (epInsert s a ep fd tgt ev) := by
  have hne : tgt.type = .EPOLL → tgt.obj ≠ a := fun htype heq => hup htype (heq ▸ .refl)
  have hnotin : fd ∉ ep.entries.map (·.fd) := by
    intro hmem
    obtain ⟨it, hit, hfd⟩ := mem_map.1 hmem
    exact hfresh (any_eq_true.2 ⟨it, hit, by simpa using hfd⟩)
  have hlook := @lookup_epInsert s fd a ep tgt hne ev
  obtain ⟨hsame, hpipes⟩ := epInsert_frame s a ep fd tgt ev
  set s' := CosmoRT.Event.epInsert s a ep fd tgt ev with hs'
  have hadd : ∀ x y, Watches s' x y → Watches s x y ∨ tgt.type = .EPOLL ∧ x = a ∧ y = tgt.obj :=
    fun x y hw => watches_epInsert hep (hs' ▸ hw)
  obtain ⟨htab, hget'⟩ := h.tabs.congr hsame
  refine ⟨⟨fun b ep' hb it hit q hq => ?_, fun b hcyc => ?_⟩, ?_, htab⟩
  · have hq' : Holds s q b := by
      obtain ⟨n, e, he, htype⟩ := hq
      exact ⟨n, e, hget' q n ▸ he, htype⟩
    rw [hget']
    rw [hlook] at hb
    split at hb
    · rename_i hba
      subst hba
      obtain rfl := some_inj.1 hb
      rcases mem_cons.1 hit with rfl | hit
      · exact hsee q hq'
      · exact h.current b ep hep it hit q hq'
    · obtain ⟨ep0, hep0, hit0⟩ := fewer_fdObjIncref s tgt b ep' hb it hit
      exact h.current b ep0 hep0 it hit0 q hq'
  · by_cases htype : tgt.type = .EPOLL
    · refine acyclic_addEdge h.acyclic (fun x y hw => ?_) (hup htype) b hcyc
      rcases hadd x y hw with hw | ⟨-, hxy⟩
      · exact .inl hw
      · exact .inr hxy
    · refine h.acyclic b (Relation.TransGen.mono (fun x y hw => ?_) _ _ hcyc)
      rcases hadd x y hw with hw | ⟨hty, -⟩
      · exact hw
      · exact absurd hty htype
  · have hrefs := h.refs.incref fun f hf => h.live_of_get hget hf
    refine hrefs.setWatch (fun b hb => (hlook b).trans (if_neg hb)) hpipes
      ((fdObjIncref_lookup_ne hne).trans hep) ((hlook a).trans (if_pos rfl))
      (hsame.2.trans (tables_fdObjIncref s tgt).2.symm) rfl ?_ watchRef_cons fun f => ?_
    · exact nodup_cons.2 ⟨hnotin, h.refs.fds a ep hep⟩
    · rw [watchRef_eq_none hnotin]
      simp

theorem watchRef_eraseP (hnd : (l.map (·.fd)).Nodup) (fd : ℤ) :
    watchRef (l.eraseP (·.fd = fd)) = update (watchRef l) fd none := by
  induction l with
  | nil =>
    funext n
    by_cases hn : n = fd <;> simp [watchRef, hn]
  | cons it l ih =>
    obtain ⟨hnot, hnd⟩ := nodup_cons.1 hnd
    by_cases hit : it.fd = fd
    · subst hit
      rw [eraseP_cons_of_pos (by simp), watchRef_cons, update_idem,
        ← watchRef_eq_none hnot, update_eq_self]
    · rw [eraseP_cons_of_neg (by simpa using hit), watchRef_cons, watchRef_cons, ih hnd,
        update_comm hit]

theorem FilesInv.epollDel (h : FilesInv s)
    (hep : s.epolls.lookup a = some ep) (fd : ℤ) : FilesInv (epollDel s a ep fd).2 := by
  unfold CosmoRT.Event.epollDel
  split
  · exact h
  rename_i victim hvictim
  have hnd := h.refs.fds a ep hep
  set s1 := s.setEntries a ep (ep.entries.eraseP (·.fd = fd)) with hs1
  have hlook : ∀ b, s1.epolls.lookup b = if b = a then
      some { ep with entries := ep.entries.eraseP (·.fd = fd) } else s.epolls.lookup b := by
    intro b
    exact lookup_insert_eq ..
  have hfew : Fewer s (fdCleanupEntry s1 victim.src) := by
    refine Fewer.trans (.insert rfl fun it hit => ?_) (fewer_cleanupEntry _ _ _)
    exact ⟨ep, hep, mem_of_mem_eraseP hit⟩
  refine h.frame (tables_fdCleanupEntry victim.src s1) hfew ?_
  have hrefs : RefInv s1 fun f => 0 + one (entryRef victim.src) f := by
    refine h.refs.setWatch (fun b hb => (hlook b).trans (if_neg hb)) rfl hep
      ((hlook a).trans (if_pos rfl)) rfl rfl ?_ (watchRef_eraseP hnd fd) fun f => ?_
    · exact hnd.sublist (eraseP_sublist.map _)
    · rw [watchRef, hvictim, bind_some, one_none]
      omega
  exact hrefs.fdCleanupEntry

/-- The proviso of `EPOLL_CTL_ADD`: every process that has the instance open has the same
file under the number, and the target does not lead back to the instance. -/
def AddOk (s : Files) (pid : ℕ) (epfd fd : ℤ) : Prop :=
  ∀ e tgt, s.get pid epfd = some e → e.type = .EPOLL → s.get pid fd = some tgt →
    (∀ q, Holds s q e.obj → ∃ e', s.get q fd = some e' ∧ SameFile e' tgt) ∧
      (tgt.type = .EPOLL → ¬ Relation.ReflTransGen (Watches s) tgt.obj e.obj)

theorem FilesInv.epollAdd (h : FilesInv s)
    (hep : s.epolls.lookup a = some ep) (hget : s.get pid fd = some tgt)
    (hsee : ∀ q, Holds s q a → ∃ e, s.get q fd = some e ∧ SameFile e tgt)
    (hup : tgt.type = .EPOLL → ¬ Relation.ReflTransGen (Watches s) tgt.obj a)
    (ev : Option EpollEvent) (mem : Bool) : FilesInv (epollAdd s a ep fd tgt ev mem).2 := by
  unfold CosmoRT.Event.epollAdd
  split
  · exact h
  split
  · exact h
  rename_i hfresh
  split
  · exact h
  exact h.epInsert hep hget hfresh hsee hup _

theorem FilesInv.epollMod (h : FilesInv s)
    (hep : s.epolls.lookup a = some ep) (fd : ℤ) (tgt : FdEntry) (ev : Option EpollEvent) :
    FilesInv (epollMod s a ep fd tgt ev).2 := by
  unfold CosmoRT.Event.epollMod
  split
  · exact h
  split
  · refine h.rewatch hep (map_modEntry (fun it => ?_) fd ep.entries)
    exact ⟨rfl, rfl⟩
  · exact h

theorem FilesInv.ctl (h : FilesInv s) {epfd : ℤ} {op : EpollOp}
    (hok : op = .ADD → AddOk s pid epfd fd) (ev : Option EpollEvent) (mem : Bool) :
    FilesInv (doEpollCtl s pid epfd op fd ev mem).2 := by
  unfold doEpollCtl
  split
  · exact h
  rename_i epfde hepfd
  obtain ⟨hget, htype⟩ := filter_eq_some_iff.1 hepfd
  have htype : epfde.type = .EPOLL := by simpa using htype
  split
  · exact h
  rename_i ep hep
  split
  · exact h
  cases op with
  | DEL => exact h.epollDel hep fd
  | MOD =>
    dsimp only
    split
    · exact h
    split
    · exact h
    exact h.epollMod hep fd _ ev
  | ADD =>
    dsimp only
    split
    · exact h
    rename_i tgt htgt
    obtain ⟨hsee, hup⟩ := hok rfl epfde tgt hget htype htgt
    split
    · exact h
    split
    · split
      · exact h
      · exact h.epollAdd hep htgt hsee hup ev mem
    · exact h.epollAdd hep htgt hsee hup ev mem

/-! ### Reading and writing -/

/-- As many ends of the pipe are open. -/
abbrev SameEnds (pp pp' : Pipe) : Prop :=
  pp'.readOpen = pp.readOpen ∧ pp'.writeOpen = pp.writeOpen

theorem copyOut_open (n : ℕ) (pp : Pipe) : SameEnds pp (copyOut n pp).2 := by
  induction n generalizing pp with
  | zero => exact ⟨rfl, rfl⟩
  | succ n ih => exact ih _

theorem copyIn_open (data : List UInt8) (pp : Pipe) : SameEnds pp (copyIn data pp) := by
  induction data generalizing pp with
  | nil => exact ⟨rfl, rfl⟩
  | cons b data ih => exact ih _

theorem pipeRead_open (pp : Pipe) (count : ℕ) : SameEnds pp (pipeRead pp count).2 := by
  unfold pipeRead
  split
  · exact ⟨rfl, rfl⟩
  · exact copyOut_open _ pp

theorem pipeWrite_open (pp : Pipe) (data : List UInt8) : SameEnds pp (pipeWrite pp data).2 := by
  unfold pipeWrite
  split
  · exact ⟨rfl, rfl⟩
  · dsimp only
    split
    · exact ⟨rfl, rfl⟩
    · exact copyIn_open _ pp

/-- What a read or write does to a pipe leaves its open counts alone. -/
theorem FilesInv.transfer (h : FilesInv s) (hpo : s.pipes o = some po) {pp : Pipe}
    (hopen : SameEnds po.pipe pp) :
    FilesInv { s with pipes := update s.pipes o (some { po with pipe := pp }) } := by
  refine h.frame ⟨rfl, rfl⟩ (.of_eq rfl) ?_
  refine h.refs.setPipe (o := o) rfl rfl rfl (fun po' hpo' => ?_)
    (fun w => ?_) fun _ _ => rfl
  · obtain rfl := some_inj.1 hpo'
    have hends := h.refs.ends o po hpo
    dsimp only
    omega
  · rw [hpo]
    cases w <;> simp [endCount, endOpen, hopen]

theorem pipe_of_pipeFromFd {w : Bool}
    (h : pipeFromFd s pid fd w = some (o, po)) : s.pipes o = some po := by
  unfold pipeFromFd at h
  split at h
  · cases h
  · obtain ⟨po', hpo', heq⟩ := map_eq_some_iff.1 h
    obtain ⟨rfl, rfl⟩ := Prod.mk.inj heq
    exact hpo'

theorem FilesInv.readPipe (h : FilesInv s) (pid : ℕ) (fd : ℤ) (count : ℕ) :
    FilesInv (doReadPipe s pid fd count).2 := by
  unfold doReadPipe
  split
  · exact h
  · rename_i o po hpo
    exact h.transfer (pipe_of_pipeFromFd hpo) (pipeRead_open po.pipe count)

theorem FilesInv.writePipe (h : FilesInv s) (pid : ℕ) (fd : ℤ) (data : List UInt8) :
    FilesInv (doWritePipe s pid fd data).2 := by
  unfold doWritePipe
  split
  · exact h
  · rename_i o po hpo
    exact h.transfer (pipe_of_pipeFromFd hpo) (pipeWrite_open po.pipe data)

/-! ## Whole runs -/

/-- The calls of all processes. -/
inductive FilesOp where
  | pipe2 (pid : ℕ) (flags : ℤ) (env : PipeEnv)
  | dup (pid : ℕ) (fd : ℤ) (mem : FdMem)
  | fork (pid child : ℕ) (slab : Option ℕ) (mem : FdMem) (leaf : ℕ → Bool)
  | close (pid : ℕ) (fd : ℤ)
  | exit (pid : ℕ)
  | read (pid : ℕ) (fd : ℤ) (count : ℕ)
  | write (pid : ℕ) (fd : ℤ) (data : List UInt8)
  | create (pid : ℕ) (cloexec : Bool) (slab : Option ℕ) (mem : FdMem)
  | ctl (pid : ℕ) (epfd : ℤ) (op : EpollOp) (fd : ℤ) (ev : Option EpollEvent) (mem : Bool)
  | wait (pid : ℕ) (epfd : ℤ) (maxevents : ℕ) (dev : FdEntry → BitVec 32 → BitVec 32)

/-- One call. -/
def filesNext (s : Files) : FilesOp → Files
  | .pipe2 pid flags env => (doPipe2 s pid flags env).2
  | .dup pid fd mem => (doDup s pid fd mem).2
  | .fork pid child slab mem leaf => (forkFiles s pid child slab mem leaf).2
  | .close pid fd => (doClose s pid fd).2
  | .exit pid => exitFiles s pid
  | .read pid fd count => (doReadPipe s pid fd count).2
  | .write pid fd data => (doWritePipe s pid fd data).2
  | .create pid cloexec slab mem => (doEpollCreate1 s pid cloexec slab mem).2
  | .ctl pid epfd op fd ev mem => (doEpollCtl s pid epfd op fd ev mem).2
  | .wait pid epfd maxevents dev => (doEpollWait s dev pid epfd maxevents).2

/-- When watches stay beside their descriptors: no number is closed that an instance open
in the process watches, and a watch is added only where `AddOk` holds. -/
def FilesOk (s : Files) : FilesOp → Prop
  | .close pid fd => ∀ a, Holds s pid a → ∀ ep, s.epolls.lookup a = some ep →
      ∀ it ∈ ep.entries, it.fd ≠ fd
  | .ctl pid epfd op fd _ _ => op = .ADD → AddOk s pid epfd fd
  | _ => True

/-- **Step.** -/
theorem filesNext_inv (s : Files) (op : FilesOp) (h : FilesInv s) (hok : FilesOk s op) :
    FilesInv (filesNext s op) := by
  cases op with
  | pipe2 pid flags env => exact h.pipe2 pid flags env
  | dup pid fd mem => exact h.dup pid fd mem
  | fork pid child slab mem leaf => exact h.fork pid child slab mem leaf
  | close pid fd => exact h.close hok
  | exit pid => exact h.exit pid
  | read pid fd count => exact h.readPipe pid fd count
  | write pid fd data => exact h.writePipe pid fd data
  | create pid cloexec slab mem => exact h.create pid cloexec slab mem
  | ctl pid epfd op fd ev mem => exact h.ctl hok ev mem
  | wait pid epfd maxevents dev => exact h.wait dev pid epfd maxevents

theorem boot_used {fd : ℕ} (h : fdMap (fdStart (-1)) fd ≠ none) : fd < 3 := by
  have hmax := ((fdWf_start (-1)).used_lt fd h).2
  have hthree : (fdStart (-1)).maxFd = 3 := by decide +kernel
  omega

theorem boot_table (h : bootFiles.tables a = some st) : a = 1 ∧ st = ⟨fdStart (-1), 1⟩ := by
  simp only [bootFiles, ite_none_right_eq_some, some_inj] at h
  exact ⟨h.1, h.2.symm⟩

theorem boot_holder (h : bootFiles.holders pid = some p) : pid = 1 ∧ p = ⟨1, 0⟩ := by
  simp only [bootFiles, ite_none_right_eq_some, some_inj] at h
  exact ⟨h.1, h.2.symm⟩

theorem boot_slot (r : RefSlot) : bootFiles.slot r = none := by
  cases r with
  | watch a fd => simp [Files.slot, bootFiles]
  | desc a fd =>
    by_contra hne
    obtain ⟨f, hf⟩ := ne_none_iff_exists'.1 hne
    obtain ⟨st, hst, hbind⟩ := bind_eq_some_iff.1 hf
    obtain ⟨-, rfl⟩ := boot_table hst
    have hlt := boot_used (show fdMap (fdStart (-1)) fd ≠ none from fun hnone => by
      rw [hnone] at hbind
      cases hbind)
    have hstd : ∀ i < 3, (fdMap (fdStart (-1)) i).bind entryRef = none := by decide +kernel
    rw [hstd fd hlt] at hbind
    cases hbind

theorem filesInv_boot : FilesInv bootFiles where
  current a ep hep := by simp [bootFiles] at hep
  acyclic a hcyc := by
    obtain ⟨b, hb, -⟩ := Relation.TransGen.head'_iff.1 hcyc
    obtain ⟨ep, hep, -⟩ := hb
    simp [bootFiles] at hep
  refs := by
    refine ⟨(counted_of_none boot_slot _).congr (fun _ => rfl) fun f => ?_, ?_, ?_, ?_⟩
    · cases f <;> simp [Files.openCount, bootFiles]
    · intro o po hpo
      simp [bootFiles] at hpo
    · intro a ep hep
      simp [bootFiles] at hep
    · intro a ep hep
      simp [bootFiles] at hep
  tabs := by
    refine ⟨fun a st ha => ?_, fun a st ha => ?_, fun pid p hp => ?_, ?_, ?_⟩
    · obtain ⟨-, rfl⟩ := boot_table ha
      exact fdWf_start (-1)
    · obtain ⟨rfl, rfl⟩ := boot_table ha
      exact ⟨rfl, 1, ⟨1, 0⟩, rfl, rfl⟩
    · obtain ⟨-, rfl⟩ := boot_holder hp
      exact ⟨_, rfl⟩
    · intro pid q p p' hp hq _
      rw [(boot_holder hp).1, (boot_holder hq).1]
    · intro pid p st fd hp hst hne
      obtain ⟨-, rfl⟩ := boot_table hst
      obtain ⟨-, rfl⟩ := boot_holder hp
      have hlt := boot_used hne
      have hlim : fdEffectiveNofile 0 = 1024 := rfl
      dsimp only
      omega

/-- What is promised of a state. -/
structure FilesPromise (s : Files) : Prop where
  /-- A counter is zero exactly when no descriptor refers to the end. -/
  open_iff : ∀ o po w, s.pipes o = some po →
    (endOpen po.pipe w = 0 ↔ ¬ Referred s (.pipeEnd o w))
  /-- Reading an empty pipe gives end of file exactly when no write descriptor is left. -/
  eof_iff : ∀ o po count, s.pipes o = some po → po.pipe.count = 0 →
    ((pipeRead po.pipe count).1 = .ok [] ↔ ¬ Referred s (.pipeEnd o true))
  /-- Writing fails with `EPIPE` exactly when no read descriptor is left. -/
  epipe_iff : ∀ o po data, s.pipes o = some po →
    ((pipeWrite po.pipe data).1 = .error .EPIPE ↔ ¬ Referred s (.pipeEnd o false))
  /-- What `epoll_wait` reports is about a number that still names the watched file. -/
  reports : ∀ dev pid epfd maxevents events, (doEpollWait s dev pid epfd maxevents).1 = .ok events →
    ∀ it ev, (it, ev) ∈ events → ∃ e, s.get pid it.fd = some e ∧ SameFile e it.src

theorem FilesInv.promise (h : FilesInv s) : FilesPromise s := by
  have hopen : ∀ o po w, s.pipes o = some po →
      (endOpen po.pipe w = 0 ↔ ¬ Referred s (.pipeEnd o w)) := by
    intro o po w hpo
    have hnn := endOpen_nonneg h.refs hpo w
    have hcount : s.openCount (.pipeEnd o w) = (endOpen po.pipe w).toNat := by
      simp [Files.openCount, hpo]
    rw [← h.openCount_eq_zero]
    omega
  refine ⟨hopen, fun o po count hpo hempty => ?_, fun o po data hpo => ?_, ?_⟩
  · rw [← hopen o po true hpo, pipeRead]
    dsimp only [endOpen]
    split_ifs <;> simp_all
  · rw [← hopen o po false hpo, pipeWrite]
    dsimp only [endOpen]
    split_ifs <;> simp_all
  · intro dev pid epfd maxevents events hwait it ev hit
    unfold doEpollWait at hwait
    split at hwait
    · cases hwait
    split at hwait
    · cases hwait
    rename_i e he
    split at hwait
    · cases hwait
    rename_i htype
    split at hwait
    · cases hwait
    rename_i ep hep
    obtain rfl := Except.ok.inj hwait
    exact h.current e.obj ep hep it (mem_epSendEvents hit) pid ⟨epfd, e, he, not_not.1 htype, rfl⟩

/-- **End of file depends only on descriptors**, from boot on, in every run whose calls all
meet `FilesOk`. -/
theorem pipe_eof_by_descriptors (ops : List FilesOp)
    (hok : Along filesNext FilesOk bootFiles ops) : FilesPromise (run filesNext bootFiles ops) :=
  (run_invariant filesNext_inv filesInv_boot hok).promise

/-- A pipe as it comes from `do_pipe2`, at an address. -/
def plainPipe (a : ℕ) : PipeEnv := ⟨true, some a, 4096, true, .ample, .ample⟩

/-- The write end of a pipe is watched; the instance and the pipe are then shared by a
`fork`, and the child closes its read end. -/
def watchedRun : List FilesOp :=
  [.pipe2 1 0 (plainPipe 10), .create 1 false (some 30) .ample,
    .ctl 1 5 .ADD 4 (some ⟨epollOut, 0⟩) true, .fork 1 2 (some 20) .ample fun _ => true, .close 2 3]

/-- The write end of a pipe is watched and then closed. -/
def closedRun : List FilesOp :=
  [.pipe2 1 0 (plainPipe 10), .create 1 false (some 30) .ample,
    .ctl 1 5 .ADD 4 (some ⟨epollOut, 0⟩) true, .close 1 4]

theorem get_of_ne_boot {s : Files} (hs : s.holders = bootFiles.holders) (hpid : pid ≠ 1) (fd : ℤ) :
    s.get pid fd = none := by
  refine get_of_no_holder ?_ fd
  rw [hs]
  simp [bootFiles, hpid]

/-- The run of `watchedRun`: the pipe's ends are open as long as a descriptor is left. -/
theorem pipe_eof_by_descriptors_watched : FilesPromise (run filesNext bootFiles watchedRun) := by
  refine pipe_eof_by_descriptors watchedRun ⟨trivial, trivial, ?_, trivial, ?_, trivial⟩
  · rintro - e tgt he htype htgt
    refine ⟨fun q hq => ?_, fun hty => ?_⟩
    · by_cases hq1 : q = 1
      · subst hq1
        exact ⟨tgt, htgt, rfl, rfl, fun _ => rfl⟩
      · obtain ⟨n, e', he', -⟩ := hq
        have hnone := get_of_ne_boot (s := run filesNext bootFiles (watchedRun.take 2)) rfl hq1 n
        exact absurd (hnone.symm.trans he') (by simp)
    · have hpipe : (some tgt).map FdEntry.type = some .PIPE :=
        (congrArg (·.map FdEntry.type) htgt).symm.trans (by decide +kernel)
      rw [map_some, hty] at hpipe
      cases hpipe
  · intro a _ ep hep it hit
    have hall : ∀ p ∈ (run filesNext bootFiles (watchedRun.take 4)).epolls.entries,
        ∀ it ∈ p.2.entries, it.fd ≠ 3 := by decide +kernel
    exact hall ⟨a, ep⟩ (mem_lookup_iff.1 hep) it hit

/-- **The failing run.**  No descriptor for the write end is left, yet its count is one, a
read of the empty pipe does not see end of file, and `epoll_wait` reports the closed
number. -/
theorem pipe_eof_watched_end :
    ¬ Referred (run filesNext bootFiles closedRun) (.pipeEnd 10 true) ∧
      (((run filesNext bootFiles closedRun).pipes 10).map fun po =>
        (po.pipe.writeOpen, po.pipe.count, (pipeRead po.pipe 1).1.toOption))
          = some (1, 0, none) ∧
      (run filesNext bootFiles closedRun).get 1 4 = none ∧
      ((doEpollWait (run filesNext bootFiles closedRun) (fun _ _ => 0) 1 5 1).1.toOption.map
        fun events => events.map fun r => (r.1.fd, r.2.events))
          = some [(4, epollHup ||| epollErr)] := by
  refine ⟨?_, by decide +kernel, by decide +kernel, by decide +kernel⟩
  rintro ⟨pid, fd, e, he, href⟩
  by_cases hpid : pid = 1
  · subst hpid
    obtain ⟨t, ht, hget⟩ := bind_eq_some_iff.1 he
    have hrange : 0 ≤ fd ∧ fd < t.maxSlots := by
      by_contra hout
      rw [fdGet, if_pos (by omega)] at hget
      cases hget
    have hslots : ((run filesNext bootFiles closedRun).table 1).map (·.maxSlots) = some 170 := by
      decide +kernel
    rw [ht, map_some, some_inj] at hslots
    obtain ⟨n, rfl⟩ := Int.eq_ofNat_of_zero_le hrange.1
    have hall : ∀ t ∈ (run filesNext bootFiles closedRun).table 1, ∀ n < 170,
        (fdGet t (n : ℕ)).bind entryRef ≠ some (.pipeEnd 10 true) := by decide +kernel
    refine hall t ht n (by omega) ?_
    rw [hget, bind_some, href]
  · rw [get_of_ne_boot (s := run filesNext bootFiles closedRun) rfl hpid] at he
    cases he

end CosmoRT.Event
