import CosmoRT.Vfs.FileRefs

/-!
# Writers and executables

`i_writecount` is one signed counter for two kinds of references: open file objects that write,
and processes that execute the file.  `WcBooks` says that every counter is the difference of the
two and that one of them is zero, with the references a call has in hand.

* `writers_exclude_images` — **writers and executables exclude each other** over every run of
  calls that count what they open, and whose memory for counters lasts.
* `writer_left_behind` — an open for reading with `O_TRUNC` leaves a writer in the books that
  nothing takes out again.
* `loop_backing_stays` — the file of a bound loop device is never released.
-/

namespace CosmoRT.Vfs

open Function Lib List Option VfsFile Bool

/-! ## The counters -/

theorem wcHash_lt (k : WcKey) : wcHash k < 128 := Nat.mod_lt _ (by decide)

/-- What `wc_apply` does to every counter, unless it needs memory and there is none. -/
theorem wcApply_spec {t : ℕ → List (Counter WcKey)} (hf : Filed 128 wcHash Counter.key t)
    {k : WcKey} {mem : Bool} (hmem : wcPeek t k = 0 → mem = true) (delta : ℤ) :
    Filed 128 wcHash Counter.key (wcApply t k delta mem) ∧
      ∀ k', wcPeek (wcApply t k delta mem) k' = wcPeek t k' + if k' = k then delta else 0 := by
  have hone : ∀ {t' val}, (∀ k', wcPeek t' k' = if k' = k then val else wcPeek t k') →
      val = wcPeek t k + delta → ∀ k',
        wcPeek t' k' = wcPeek t k' + if k' = k then delta else 0 := by
    rintro t' val hset rfl k'
    rw [hset]
    by_cases hk : k' = k
    · rw [if_pos hk, if_pos hk, hk]
    · rw [if_neg hk, if_neg hk, add_zero]
  unfold wcApply
  rcases hfind : bucketFind wcHash Counter.key t k with _ | e
  · have hzero := counterOf_of_find_none hfind
    rw [hmem hzero]
    refine ⟨hf.push wcHash_lt (bucketFind_none hf hfind), hone (fun k' => counterOf_push ..) ?_⟩
    rw [wcPeek, hzero, zero_add]
  · have hval := counterOf_of_find hfind
    dsimp only
    split_ifs with hzero
    · refine ⟨hf.erase wcHash_lt hfind, hone (fun k' => counterOf_erase hf wcHash_lt ..) ?_⟩
      rw [wcPeek, hval, hzero]
    · refine ⟨hf.counterSet wcHash_lt k _, hone (fun k' => counterOf_set hfind ..) ?_⟩
      rw [wcPeek, hval]

/-- Every counter is the number of writers `W` less the number of images `I`, of which there are
not both; `u` and `v` are in hand. -/
structure WcBooks (W I : ℕ → Option WcKey) (wc : ℕ → List (Counter WcKey)) (u v : WcKey → ℕ) :
    Prop where
  filed : Filed 128 wcHash Counter.key wc
  balance : ∃ w x : WcKey → ℕ, Counted W u w ∧ Counted I v x ∧
    ∀ k, wcPeek wc k = w k - x k ∧ (w k = 0 ∨ x k = 0)

namespace WcBooks

variable {W I : ℕ → Option WcKey} {wc : ℕ → List (Counter WcKey)} {u u' v v' : WcKey → ℕ}
  {k : WcKey} {mem : Bool}

theorem adjust (h : WcBooks W I wc u v) (hmem : wcPeek wc k = 0 → mem = true) {delta : ℤ}
    (hu : ∀ j, j ≠ k → u' j = u j) (hv : ∀ j, j ≠ k → v' j = v j)
    (hk : ∀ w x : ℕ, u k ≤ w → v k ≤ x → wcPeek wc k = w - x → w = 0 ∨ x = 0 →
      ∃ w' x' : ℕ, u k + w' = u' k + w ∧ v k + x' = v' k + x ∧ (w : ℤ) - x + delta = w' - x' ∧
        (w' = 0 ∨ x' = 0)) : WcBooks W I (wcApply wc k delta mem) u' v' := by
  obtain ⟨hfiled, w, x, hw, hx, hbal⟩ := h
  obtain ⟨hfiled', hval⟩ := wcApply_spec hfiled hmem delta
  have hwk := hw.count k
  have hxk := hx.count k
  obtain ⟨w', x', hw', hx', hdiff, hexcl⟩ :=
    hk (w k) (x k) (by omega) (by omega) (hbal k).1 (hbal k).2
  refine ⟨hfiled', update w k w', update x k x', hw.recount fun j => ?_,
    hx.recount fun j => ?_, fun j => ?_⟩
  all_goals by_cases hj : j = k
  · rwa [hj, update_self]
  · rw [update_of_ne hj, hu j hj]
  · rwa [hj, update_self]
  · rw [update_of_ne hj, hv j hj]
  · rw [hj, update_self, update_self, hval, if_pos rfl, (hbal k).1]
    exact ⟨hdiff, hexcl⟩
  · rw [update_of_ne hj, update_of_ne hj, hval, if_neg hj, add_zero]
    exact hbal j

theorem hand_of_ne {j : WcKey} (hj : j ≠ k) (hu : ∀ j, u' j = u j + one (some k) j) :
    u' j = u j := by
  rw [hu j, one_some, if_neg (Ne.symm hj), add_zero]

theorem hand_self (hu : ∀ j, u' j = u j + one (some k) j) : u' k = u k + 1 := by
  rw [hu k, one_self]

section

variable (h : WcBooks W I wc u v)
include h

theorem take (hpeek : 0 ≤ wcPeek wc k)
    (hmem : wcPeek wc k = 0 → mem = true) (hu : ∀ j, u' j = u j + one (some k) j) :
    WcBooks W I (wcApply wc k 1 mem) u' v := by
  refine h.adjust hmem (fun j hj => hand_of_ne hj hu) (fun _ _ => rfl)
    fun w x _ _ hval hexcl => ⟨w + 1, x, ?_, rfl, by omega, by omega⟩
  rw [hand_self hu]
  omega

theorem give (hu : ∀ j, u j = u' j + one (some k) j) :
    WcBooks W I (wcApply wc k (-1) mem) u' v := by
  have hself := hand_self hu
  have hpos : wcPeek wc k ≠ 0 := by
    obtain ⟨-, w, x, hw, -, hbal⟩ := h
    have := hw.count k
    have := hbal k
    omega
  refine h.adjust (fun h0 => absurd h0 hpos) (fun j hj => (hand_of_ne hj hu).symm) (fun _ _ => rfl)
    fun w x hle _ hval hexcl => ⟨w - 1, x, by omega, rfl, by omega, by omega⟩

theorem deny (hpeek : wcPeek wc k ≤ 0)
    (hmem : wcPeek wc k = 0 → mem = true) (hv : ∀ j, v' j = v j + one (some k) j) :
    WcBooks W I (wcApply wc k (-1) mem) u v' := by
  refine h.adjust hmem (fun _ _ => rfl) (fun j hj => hand_of_ne hj hv)
    fun w x _ _ hval hexcl => ⟨w, x + 1, rfl, ?_, by omega, by omega⟩
  rw [hand_self hv]
  omega

theorem allow (hv : ∀ j, v j = v' j + one (some k) j) : WcBooks W I (wcApply wc k 1 mem) u v' := by
  have hself := hand_self hv
  have hneg : wcPeek wc k ≠ 0 := by
    obtain ⟨-, w, x, -, hx, hbal⟩ := h
    have := hx.count k
    have := hbal k
    omega
  refine h.adjust (fun h0 => absurd h0 hneg) (fun _ _ => rfl) (fun j hj => (hand_of_ne hj hv).symm)
    fun w x _ hle hval hexcl => ⟨w, x - 1, rfl, by omega, by omega, by omega⟩

theorem deny_again {pid : ℕ} (hpid : I pid = some k)
    (hv : ∀ j, v' j = v j + one (some k) j) : WcBooks W I (wcApply wc k (-1) mem) u v' := by
  have hneg : wcPeek wc k < 0 := by
    obtain ⟨-, w, x, -, hx, hbal⟩ := h
    have := hx.pos hpid
    have := hbal k
    omega
  exact h.deny hneg.le (fun h0 => by omega) hv

theorem setWriter (a : ℕ) (o : Option WcKey)
    (hu : ∀ j, u j + one (W a) j = u' j + one o j) : WcBooks (update W a o) I wc u' v := by
  obtain ⟨hfiled, w, x, hw, hx, hbal⟩ := h
  exact ⟨hfiled, w, x, hw.set a o hu, hx, hbal⟩

theorem setImage (pid : ℕ) (o : Option WcKey) (hv : ∀ j, v j + one (I pid) j = v' j + one o j) :
    WcBooks W (update I pid o) wc u v' := by
  obtain ⟨hfiled, w, x, hw, hx, hbal⟩ := h
  exact ⟨hfiled, w, x, hw, hx.set pid o hv, hbal⟩

end

end WcBooks

/-! ## The books of a system -/

/-- The counter that an open file object is in as a writer. -/
def VfsFile.writes (f : VfsFile) : Option WcKey := if f.countsWrite then some f.id.key else none

/-- The counter that a process is in, by what it executes. -/
def Process.image (p : Process) : Option WcKey := if p.exeIno ≠ 0 then some p.exe else none

def System.writer (s : System) (a : ℕ) : Option WcKey := (s.files a).bind writes

def System.image (s : System) (pid : ℕ) : Option WcKey := (s.procs pid).bind Process.image

/-- The counters are right, and what is open for writing is counted. -/
structure Booked (s : System) (u v : WcKey → ℕ) : Prop where
  books : WcBooks s.writer s.image s.wc u v
  modes : ∀ a f, s.files a = some f → f.type = .file →
    f.accMode ≠ 3 ∧ f.id.ino ≠ 0 ∧ f.id.fs = 0

theorem countExe_setProc (s : System) (p : Process) (mem : Bool) (pid : ℕ) (o : Option Process) :
    (s.countExe p 1 mem).setProc pid o = (s.setProc pid o).countExe p 1 mem := by
  unfold System.countExe
  split_ifs <;> rfl

namespace Booked

variable {s : System} {u u' v v' : WcKey → ℕ} {mem : Bool}

section

variable (h : Booked s u v)
include h

theorem congr {s' : System} (hfiles : s'.files = s.files)
    (hprocs : s'.image = s.image) (hwc : s'.wc = s.wc) : Booked s' u v := by
  have hwriter : s'.writer = s.writer := by
    funext a
    rw [System.writer, System.writer, hfiles]
  refine ⟨?_, hfiles ▸ h.modes⟩
  rw [hwriter, hprocs, hwc]
  exact h.books

theorem setTable (a : ℕ) (t : Option DescTable) : Booked (s.setTable a t) u v :=
  h.congr rfl rfl rfl

theorem setFile (a : ℕ) (o : Option VfsFile)
    (hu : ∀ j, u j + one (s.writer a) j = u' j + one (o.bind writes) j)
    (hmodes : ∀ f ∈ o, f.type = .file → f.accMode ≠ 3 ∧ f.id.ino ≠ 0 ∧ f.id.fs = 0) :
    Booked { s with files := update s.files a o } u' v := by
  refine ⟨?_, fun b g hb => ?_⟩
  · have hwriter : ({ s with files := update s.files a o } : System).writer =
        update s.writer a (o.bind writes) := by
      funext b
      simp only [System.writer, update_apply]
      split_ifs <;> rfl
    rw [hwriter]
    exact h.books.setWriter a _ hu
  · simp only [update_apply] at hb
    split_ifs at hb
    · exact hmodes g hb
    · exact h.modes b g hb

theorem incref (a : ℕ) : Booked (s.incref a) u v := by
  refine h.setFile a _ (fun j => ?_) fun f hf => ?_
  · rw [System.writer]
    cases s.files a <;> rfl
  · obtain ⟨g, hg, rfl⟩ := map_eq_some_iff.1 hf
    exact h.modes a g hg

theorem drop (a : ℕ) (mem : Bool) : Booked (s.drop a mem) u v := by
  unfold System.drop
  rcases hf : s.files a with _ | f
  · exact h
  have hold : s.writer a = f.writes := by rw [System.writer, hf]; rfl
  dsimp only
  split_ifs
  · have hout : Booked _ (fun j => u j + one f.writes j) v :=
      h.setFile a none (fun j => by rw [hold, bind_none, one_none, add_zero]) (by simp)
    refine ⟨?_, hout.modes⟩
    show WcBooks _ s.image (if f.countsWrite then _ else _) u v
    by_cases hc : f.countsWrite
    · rw [if_pos hc]
      refine hout.books.give fun j => ?_
      rw [writes, if_pos hc]
    · rw [if_neg hc]
      rw [writes, if_neg hc] at hout
      exact hout.books
  · refine h.setFile a _ (fun j => by rw [hold]; rfl) fun g hg => ?_
    obtain rfl := some_inj.1 hg
    exact h.modes a f hf

theorem setProc (pid : ℕ) (p : Option Process)
    (hv : ∀ j, v j + one (s.image pid) j = v' j + one (p.bind Process.image) j) :
    Booked (s.setProc pid p) u v' := by
  refine ⟨?_, h.modes⟩
  have himage : (s.setProc pid p).image = update s.image pid (p.bind Process.image) := by
    funext q
    simp only [System.image, System.setProc, update_apply]
    split_ifs <;> rfl
  rw [himage]
  exact h.books.setImage pid _ hv

theorem setProc_same {pid : ℕ} {p : Process} (hp : s.procs pid = some p)
    (q : Process) (hexe : q.exe = p.exe) : Booked (s.setProc pid (some q)) u v := by
  refine h.setProc pid (some q) fun j => ?_
  have himage : q.image = p.image := by
    have hino : q.exeIno = p.exeIno := congrArg Prod.snd hexe
    rw [Process.image, Process.image, hexe, hino]
  rw [System.image, hp, bind_some, bind_some, himage]

theorem allowExe (p : Process) (mem : Bool)
    (hv : ∀ j, v j = v' j + one p.image j) : Booked (s.countExe p 1 mem) u v' := by
  unfold System.countExe
  rw [Process.image] at hv
  split_ifs at hv ⊢ with hexe
  · exact ⟨h.books.allow hv, h.modes⟩
  · obtain rfl : v = v' := funext hv
    exact h

end

end Booked

/-! ## Both ledgers -/

/-- The references and the books, with what a call in progress has in hand. -/
structure Ledgers (s : System) (x y : ℕ → ℕ) (u v : WcKey → ℕ) : Prop where
  refs : Refs s x y
  booked : Booked s u v

namespace Ledgers

variable {s s' : System} {x x' y y' : ℕ → ℕ} {u v v' : WcKey → ℕ} {mem : Bool} {a pid ta : ℕ}
  {p q : Process} {t : DescTable} {l : List (Option Desc)} {fds : Option ℕ}

section

variable (h : Ledgers s x y u v)
include h

theorem drop (hx : ∀ b, x b = x' b + one (some a) b) : Ledgers (s.drop a mem) x' y u v :=
  ⟨h.refs.drop hx, h.booked.drop a mem⟩

theorem dropAll (hx : ∀ b, x b = x' b + held l b) : Ledgers (s.dropAll mem l) x' y u v := by
  induction l generalizing s x with
  | nil =>
    obtain rfl : x = x' := funext hx
    exact h
  | cons d l ih =>
    refine ih (x := fun b => x' b + held l b) ?_ fun b => rfl
    cases d with
    | none =>
      obtain rfl : x = fun b => x' b + held l b := funext fun b => by
        rw [hx b, held_cons, map_none, one_none, zero_add]
      exact h
    | some d =>
      refine h.drop fun b => ?_
      rw [hx b, held_cons, map_some]
      omega

theorem increfAll (hlive : ∀ d, some d ∈ l → ∃ f, s.files d.file = some f)
    (hx : ∀ b, x' b = x b + held l b) : Ledgers (s.increfAll l) x' y u v := by
  induction l generalizing s x with
  | nil =>
    obtain rfl : x' = x := funext hx
    exact h
  | cons d l ih =>
    cases d with
    | none =>
      refine ih h (fun d hd => hlive d (mem_cons_of_mem _ hd)) fun b => ?_
      rw [hx b, held_cons, map_none, one_none, zero_add]
    | some d =>
      obtain ⟨f, hf⟩ := hlive d (mem_cons_self ..)
      refine ih (x := fun b => x b + one (some d.file) b)
        ⟨h.refs.incref hf fun b => rfl, h.booked.incref d.file⟩ (fun e he => ?_) fun b => ?_
      · obtain ⟨g, hg⟩ := hlive e (mem_cons_of_mem _ he)
        by_cases hed : e.file = d.file
        · exact ⟨_, by simp only [System.incref, hed, update_self, hf, map_some]; rfl⟩
        · exact ⟨g, by simp only [System.incref, update_of_ne hed, hg]⟩
      · rw [hx b, held_cons, map_some]
        omega

theorem fdTablePut (hy : ∀ b, y b = y' b + one (some a) b) :
    Ledgers (fdTablePut s a mem) x y' u v := by
  obtain ⟨t, ht⟩ := h.refs.table_of_hand (show 0 < y a by rw [hy a, one_self]; omega)
  have hkept := h.refs.kept a t ht
  rw [Vfs.fdTablePut, ht]
  dsimp only
  split_ifs with hlast
  · have hfreed : Ledgers (s.setTable a none) (fun b => x b + held t.slots b) y' u v :=
      ⟨h.refs.removeTable ht hlast hy, h.booked.setTable a none⟩
    exact hfreed.dropAll fun b => rfl
  · refine ⟨h.refs.recountTable ht (by omega) fun b => ?_, h.booked.setTable a _⟩
    rw [hy b, one_some]
    split_ifs <;> omega

theorem fdsPut (hy : ∀ b, y b = y' b + one fds b) : Ledgers (fdsPut s fds mem) x y' u v := by
  cases fds with
  | none =>
    obtain rfl : y = y' := funext hy
    exact h
  | some a => exact h.fdTablePut hy

theorem copyTable (ht : s.tables ta = some t) {slab : Option ℕ}
    {copyEnd leaves : ℕ} {ok : Bool} (hcopy : copyTable s t slab copyEnd leaves = (ok, fds, s')) :
    Ledgers s' x (fun b => y b + one fds b) u v ∧ s'.procs = s.procs := by
  unfold Vfs.copyTable at hcopy
  cases hfresh : freshAt s.tables slab with
  | none =>
    rw [hfresh] at hcopy
    obtain ⟨-, rfl, rfl⟩ : ok = false ∧ fds = none ∧ s' = s := by simpa using hcopy.symm
    exact ⟨h, rfl⟩
  | some a =>
    rw [hfresh] at hcopy
    obtain ⟨-, rfl, rfl⟩ := hcopy
    have hcopied : Ledgers (s.increfAll (t.slots.take (min copyEnd leaves)))
        (fun b => x b + held (t.slots.take (min copyEnd leaves)) b) y u v := by
      refine h.increfAll (fun d hd => ?_) fun b => rfl
      obtain ⟨i, hi, hget⟩ := mem_iff_getElem.1 (mem_of_mem_take hd)
      refine h.refs.file_of_slot (r := .desc ta i) ?_
      rw [System.slot, ht]
      simp [DescTable.get, getD_eq_getElem?_getD, hi, hget]
    obtain ⟨htables, hprocs⟩ := increfAll_frame s (t.slots.take (min copyEnd leaves))
    refine ⟨⟨hcopied.refs.addTable ?_ (fun b => rfl) fun b => rfl,
      hcopied.booked.setTable a _⟩, hprocs⟩
    rw [htables]
    exact of_freshAt hfresh

theorem setProc {o o' : Option Process} (hp : s.procs pid = o)
    (hy : ∀ b, y b + one (o.bind Process.fds) b = y' b + one (o'.bind Process.fds) b)
    (hv : ∀ j, v j + one (o.bind Process.image) j = v' j + one (o'.bind Process.image) j) :
    Ledgers (s.setProc pid o') x y' u v' := by
  subst hp
  exact ⟨h.refs.setProc hy, h.booked.setProc pid o' hv⟩

theorem setProc_same (hp : s.procs pid = some p) (hfds : q.fds = p.fds)
    (hexe : q.exe = p.exe) : Ledgers (s.setProc pid (some q)) x y u v :=
  ⟨h.refs.setProc_same hp hfds, h.booked.setProc_same hp q hexe⟩

theorem closeSlot (ht : s.tables a = some t) {fd : ℕ} {d : Desc} (hd : t.get fd = some d) :
    Ledgers ((s.drop d.file mem).setTable a (some (t.set fd none))) x y u v :=
  ⟨h.refs.closeSlot ht hd, (h.booked.drop d.file mem).setTable a _⟩

theorem openSlot (ht : s.tables a = some t) {fd : ℕ}
    (hfree : t.get fd = none) {d : Desc} {f : VfsFile} (hf : s.files d.file = some f) :
    Ledgers ((s.setTable a (some (t.set fd (some d)))).incref d.file) x y u v :=
  ⟨h.refs.openSlot ht hfree hf, (h.booked.setTable a _).incref d.file⟩

theorem allowExe (p : Process) (mem : Bool)
    (hv : ∀ j, v j = v' j + one p.image j) : Ledgers (s.countExe p 1 mem) x y u v' :=
  ⟨h.refs.countExe p 1, h.booked.allowExe p mem hv⟩

/-! ## The calls -/

theorem vfsClose (pid fd : ℕ) (mem : Bool) : Ledgers (vfsClose s pid fd mem).2 x y u v := by
  unfold Vfs.vfsClose
  rcases hr : s.running pid with _ | ⟨p, ta, t⟩
  · exact h
  dsimp only
  rcases hd : t.get fd with _ | d
  · exact h
  · exact h.closeSlot (of_running hr).2.2.1 hd

theorem doDup (fd : ℕ) (cloexec : Bool) (newfd : Option ℕ) :
    Ledgers (doDup s pid fd cloexec newfd).2 x y u v := by
  unfold Vfs.doDup
  rcases hr : s.running pid with _ | ⟨p, ta, t⟩
  · exact h
  dsimp only
  have ht := (of_running hr).2.2.1
  rcases hd : t.get fd with _ | d
  · exact h
  rcases hn : t.free newfd with _ | n
  · exact h
  obtain ⟨f, hf⟩ : ∃ f, s.files d.file = some f :=
    h.refs.file_of_slot (r := .desc ta fd) (by rw [System.slot, ht]; simp [hd])
  exact h.openSlot ht (of_free hn) (d := ⟨d.file, cloexec⟩) hf

theorem doDup3 (oldfd newfd : ℕ) (cloexec room : Bool) :
    Ledgers (doDup3 s pid oldfd newfd cloexec room mem).2 x y u v := by
  unfold Vfs.doDup3
  by_cases hne : oldfd = newfd
  · rw [if_pos hne]
    exact h
  rw [if_neg hne]
  rcases hr : s.running pid with _ | ⟨p, ta, t⟩
  · exact h
  dsimp only
  rcases hd : t.get oldfd with _ | d
  · exact h
  dsimp only
  have hclosed := h.vfsClose pid newfd mem
  split_ifs
  · obtain ⟨t', ht', hfree, hother, hset⟩ := tables_vfsClose hr newfd mem
    obtain ⟨f, hf⟩ : ∃ f, (Vfs.vfsClose s pid newfd mem).2.files d.file = some f := by
      refine hclosed.refs.file_of_slot (r := .desc ta oldfd) ?_
      rw [System.slot, ht']
      simp [hother oldfd hne, hd]
    rw [← hset]
    exact hclosed.openSlot ht' hfree (d := ⟨d.file, cloexec⟩) hf
  · exact hclosed

theorem exitKillProcess (pid : ℕ) : Ledgers (exitKillProcess s pid mem) x y u v := by
  unfold Vfs.exitKillProcess
  rcases hp : s.procs pid with _ | p
  · exact h
  dsimp only
  split_ifs
  · exact h
  · refine fdsPut (y := fun b => y b + one p.fds b) ?_ fun b => rfl
    exact h.setProc hp (fun b => rfl) fun j => rfl

theorem procCleanup (pid : ℕ) : Ledgers (procCleanup s pid mem) x y u v := by
  unfold Vfs.procCleanup
  rcases hp : s.procs pid with _ | p
  · exact h
  dsimp only
  split_ifs
  · refine fdsPut (y := fun b => y b + one p.fds b) ?_ fun b => rfl
    -- the process leaves first, with its image in hand
    rw [countExe_setProc]
    have hgone : Ledgers (s.setProc pid none) x (fun b => y b + one p.fds b) u
        (fun j => v j + one p.image j) := h.setProc hp (fun b => rfl) fun j => rfl
    exact hgone.allowExe p mem fun j => rfl
  · exact h

theorem closeOnExec (ta i : ℕ) : Ledgers (closeOnExec ta mem s i) x y u v := by
  unfold Vfs.closeOnExec
  rcases ht : s.tables ta with _ | t
  · exact h
  dsimp only
  split
  · exact h
  · rename_i d hd
    exact h.closeSlot ht (mem_filter_iff.1 (show d ∈ _ from hd)).1

theorem fdTableUnshare (hp : s.procs pid = some p) (hfds : p.fds = some ta)
    (ht : s.tables ta = some t)
    {env : ExecEnv} {r : Except Errno ℕ} (hun : fdTableUnshare s pid p ta t env = (r, s')) :
    Ledgers s' x y u v ∧ ∀ e, r = .error e → s'.procs pid = some p := by
  unfold Vfs.fdTableUnshare at hun
  split_ifs at hun with hsole
  · obtain ⟨rfl, rfl⟩ := Prod.mk.inj hun
    exact ⟨h, fun _ he => by simp at he⟩
  rcases hcopy : Vfs.copyTable s t env.slab t.slots.length env.leaves with ⟨ok, fds, w⟩
  obtain ⟨hw, hprocs⟩ := h.copyTable ht hcopy
  rw [hcopy] at hun
  cases ok with
  | false =>
    obtain ⟨rfl, rfl⟩ := Prod.mk.inj hun
    refine ⟨hw.fdsPut fun b => rfl, fun _ _ => ?_⟩
    rw [procs_fdsPut, hprocs, hp]
  | true =>
    cases fds with
    | none =>
      obtain ⟨rfl, rfl⟩ := Prod.mk.inj hun
      exact ⟨hw, fun _ _ => by rw [hprocs, hp]⟩
    | some a =>
      obtain ⟨rfl, rfl⟩ := Prod.mk.inj hun
      refine ⟨?_, fun _ he => by simp at he⟩
      refine fdTablePut (y := fun b => y b + one (some ta) b)
        (hw.setProc ((congrFun hprocs pid).trans hp) (fun b => ?_) fun j => rfl) fun b => rfl
      rw [bind_some, hfds]
      exact add_right_comm ..

end

theorem execCommitted (hset : Ledgers (s.setProc pid (some p)) x y u v) (hfds : p.fds = some ta)
    (ht : s.tables ta = some t) (env : ExecEnv) :
    Ledgers (execCommitted s pid p ta t env) x y u v := by
  unfold Vfs.execCommitted
  have hp : (s.setProc pid (some p)).procs pid = some p := by
    simp [System.setProc]
  dsimp only
  split_ifs
  · exact hset.setProc_same hp rfl rfl
  rcases hun : Vfs.fdTableUnshare (s.setProc pid (some p)) pid p ta t env with ⟨e | a, w⟩
  · obtain ⟨hw, hprocs⟩ := hset.fdTableUnshare hp hfds ht hun
    exact hw.setProc_same (hprocs e rfl) rfl rfl
  · have hw := (hset.fdTableUnshare hp hfds ht hun).1
    have hstep : ∀ w i, Ledgers w x y u v → Ledgers (Vfs.closeOnExec a env.wcMem w i) x y u v :=
      fun _ i h => h.closeOnExec a i
    exact run_keeps hstep hw (range t.slots.length)

end Ledgers

/-! ## Calls that count -/

/-- For the access modes, which are two bits. -/
local instance accModes_ne_zero : NeZero 4 := ⟨by decide⟩

theorem writable {acc : Fin 4} (h3 : acc ≠ 3) (h0 : acc ≠ 0) :
    (decide (acc = 1) || decide (acc = 2)) = true := by
  revert acc
  decide

/-- An open that counts what it opens: not the access mode 3, no `O_TRUNC` without write access,
no file of another ext4 file system than the default one, and memory for a new counter. -/
def OpenOk (s : System) (flags : OpenFlags) (target : Except Errno OpenTarget) (env : OpenEnv) :
    Prop :=
  ∀ tg, target = .ok tg → tg.type = .file →
    tg.id.ino ≠ 0 ∧ tg.id.fs = 0 ∧ flags.accMode ≠ 3 ∧ (flags.trunc = true → flags.accMode ≠ 0) ∧
      (wcPeek s.wc tg.id.key = 0 → env.wcMem = true)

/-- A fork of a process without an image, or one that does not fail after the image was counted
for the child. -/
def ForkOk (s : System) (pid : ℕ) (env : ForkEnv) : Prop :=
  ∀ p ta t, s.running pid = some (p, ta, t) → p.exeIno ≠ 0 → env.early = none →
    (env.thread = .made ∨ env.thread = .badTls) ∧
      (env.shareFiles = true ∨ (freshAt s.tables env.slab).isSome = true ∧
        min t.slots.length env.nofile ≤ env.leaves)

/-- An execution of a file with an inode number, with memory for a new counter. -/
def ExecOk (s : System) (env : ExecEnv) : Prop :=
  ∀ k, env.image = .ok k → k.2 ≠ 0 ∧ (wcPeek s.wc k = 0 → env.wcMem = true)

namespace Ledgers

variable {s s' : System} {x y : ℕ → ℕ} {u v : WcKey → ℕ} {pid ta : ℕ} {t : DescTable}

theorem putWrite {took : Bool} {k : WcKey}
    (h : Ledgers s x y (fun j => u j + one (if took then some k else none) j) v) (mem : Bool) :
    Ledgers (s.putWrite took k mem) x y u v := by
  cases took with
  | true => exact ⟨h.refs.counters _ s.opens, h.booked.books.give fun j => rfl, h.booked.modes⟩
  | false => exact h

variable {flags : OpenFlags} {tg : OpenTarget}

theorem writes_eq (hok : tg.type = .file → tg.id.ino ≠ 0 ∧ flags.accMode ≠ 3 ∧
      (flags.trunc = true → flags.accMode ≠ 0)) :
    writes ⟨tg.type, flags.accMode, tg.id, 1⟩ =
      if takesWrite flags tg then some tg.id.key else none := by
  have hcounts : countsWrite ⟨tg.type, flags.accMode, tg.id, 1⟩ = takesWrite flags tg := by
    unfold countsWrite takesWrite
    by_cases hfile : tg.type = .file
    · obtain ⟨hino, h3, h0⟩ := hok hfile
      rcases flags with ⟨acc, trunc, cloexec, directory⟩
      simp only [hfile, decide_true, Bool.true_and, hino, ne_eq, not_false_iff, Bool.and_true]
      cases trunc with
      | false => rw [Bool.or_false]
      | true => rw [writable h3 (h0 rfl), Bool.true_or]
    · simp [hfile]
  rw [writes, hcounts]

theorem openCounted {env : OpenEnv} (h : Ledgers s x y
      (fun j => u j + one (if takesWrite flags tg then some tg.id.key else none) j) v)
    (hok : tg.type = .file → tg.id.ino ≠ 0 ∧ tg.id.fs = 0 ∧ flags.accMode ≠ 3 ∧
      (flags.trunc = true → flags.accMode ≠ 0)) :
    Ledgers (openCounted s pid flags tg env).2 x y u v := by
  unfold Vfs.openCounted
  rcases hfresh : freshAt s.files env.slab with _ | a
  · exact h.putWrite env.wcMem
  rcases hr : s.running pid with _ | ⟨p, ta, t⟩
  · exact h.putWrite env.wcMem
  dsimp only
  rcases hfree : t.free env.fd with _ | fd
  · exact h.putWrite env.wcMem
  have hnone := of_freshAt hfresh
  rw [← writes_eq fun hf => ⟨(hok hf).1, (hok hf).2.2⟩] at h
  -- the new object takes over the writer in hand
  have hbooked := h.booked.setFile a (some ⟨tg.type, flags.accMode, tg.id, 1⟩)
    (fun j => by rw [System.writer, hnone, bind_none, one_none, add_zero, bind_some])
    (by rintro _ ⟨⟩ hf; exact ⟨(hok hf).2.2.1, (hok hf).1, (hok hf).2.1⟩)
  refine ⟨?_, hbooked.congr rfl rfl rfl⟩
  refine Refs.counters (s := { s with
    files := update s.files a (some ⟨tg.type, flags.accMode, tg.id, 1⟩)
    tables := update s.tables ta (some (t.set fd (some ⟨a, flags.cloexec⟩))) })
    ?_ s.wc _
  refine (h.refs.newFile hnone rfl).setSlot (show _ = some t from (of_running hr).2.2.1) fun b => ?_
  rw [of_free hfree, map_none, one_none, map_some, add_zero]

section

variable (h : Ledgers s x y u v)
include h

theorem vfsOpen {flags : OpenFlags} {target : Except Errno OpenTarget}
    {env : OpenEnv} (hok : OpenOk s flags target env) :
    Ledgers (vfsOpen s pid flags target env).2 x y u v := by
  unfold Vfs.vfsOpen
  rcases target with e | tg
  · exact h
  have hok := hok tg rfl
  dsimp only
  split_ifs with hdir hisdir hw
  · exact h
  · exact h
  · have hfile : tg.type = .file := by
      unfold takesWrite at hw
      simp only [and_eq_true, decide_eq_true_eq] at hw
      exact hw.1
    obtain ⟨hino, hfs, h3, h0, hmem⟩ := hok hfile
    unfold iWritecountGetWrite
    split_ifs with hneg
    · exact h
    · refine openCounted ⟨h.refs.counters _ s.opens,
        h.booked.books.take (by omega) hmem fun j => ?_, h.booked.modes⟩ fun _ =>
          ⟨hino, hfs, h3, h0⟩
      rw [if_pos hw]
  · refine openCounted ?_ fun hf => ?_
    · simp only [if_neg hw, one_none, add_zero]
      exact h
    · obtain ⟨hino, hfs, h3, h0, -⟩ := hok hf
      exact ⟨hino, hfs, h3, h0⟩

variable {env : ForkEnv}

theorem forkFiles (ht : s.tables ta = some t) {ok : Bool}
    {fds : Option ℕ} (hfork : forkFiles s ta t env = (ok, fds, s')) :
    Ledgers s' x (fun b => y b + one fds b) u v ∧ s'.procs = s.procs := by
  unfold Vfs.forkFiles at hfork
  split_ifs at hfork with hshare
  · obtain ⟨-, rfl, rfl⟩ := hfork
    have hkept := h.refs.kept ta t ht
    refine ⟨⟨h.refs.recountTable ht (by omega) fun b => ?_, h.booked.setTable ta _⟩, rfl⟩
    rw [one_some]
    split_ifs <;> omega
  · exact h.copyTable ht hfork

omit h in
theorem forkFiles_ready {t : DescTable} {a : ℕ}
    (h : env.shareFiles = true ∨ (freshAt s.tables env.slab).isSome = true ∧
      min t.slots.length env.nofile ≤ env.leaves) : (Vfs.forkFiles s a t env).1 = true := by
  unfold Vfs.forkFiles
  by_cases hshare : env.shareFiles = true
  · rw [if_pos hshare]
  · obtain ⟨hfresh, hleaves⟩ := h.resolve_left hshare
    obtain ⟨b, hb⟩ := isSome_iff_exists.1 hfresh
    rw [if_neg hshare, Vfs.copyTable, hb]
    simpa using hleaves

/-- The image that a process hands on to its child is in hand. -/
theorem denyExe {p : Process} (hp : s.procs pid = some p) (mem : Bool) :
    Ledgers (s.countExe p (-1) mem) x y u (fun j => v j + one p.image j) := by
  refine ⟨h.refs.countExe p (-1), ?_⟩
  unfold System.countExe
  rw [Process.image]
  split_ifs with hino
  · have hself : s.image pid = some p.exe := by
      rw [System.image, hp, bind_some, Process.image, if_pos hino]
    exact ⟨h.booked.books.deny_again hself fun j => rfl, h.booked.modes⟩
  · exact h.booked

theorem doFork {child : ℕ} (hok : ForkOk s pid env) :
    Ledgers (doFork s pid child env).2 x y u v := by
  unfold Vfs.doFork
  rcases hr : s.running pid with _ | ⟨p, ta, t⟩
  · exact h
  dsimp only
  split_ifs with hchild
  · exact h
  rcases hearly : env.early with _ | e
  swap
  · exact h
  obtain ⟨hp, -, ht, -⟩ := of_running hr
  obtain ⟨hprocs, htables⟩ := countExe_frame s p (-1) env.wcMem
  rcases hfork : Vfs.forkFiles (s.countExe p (-1) env.wcMem) ta t env with ⟨ok, fds, s'⟩
  obtain ⟨hs', hsame⟩ := (h.denyExe hp env.wcMem).forkFiles (by rw [htables, ht]) hfork
  have hchild : s'.procs child = none := by
    rw [hsame, hprocs]
    simpa using hchild
  -- only a child without an image is given up without `proc_cleanup`
  have hfail : p.exeIno = 0 → Ledgers (Vfs.fdsPut s' fds env.wcMem) x y u v := by
    intro hino
    have himage : p.image = none := by rw [Process.image, if_neg (by simpa using hino)]
    simp only [himage, one_none, add_zero] at hs'
    exact hs'.fdsPut fun b => rfl
  cases ok with
  | false =>
    refine hfail ?_
    by_contra hino
    have hready := (hok p ta t hr hino hearly).2
    rw [← htables] at hready
    have htrue := forkFiles_ready (s := s.countExe p (-1) env.wcMem) (a := ta) hready
    rw [hfork] at htrue
    exact false_ne_true htrue
  | true =>
    have hthread := fun hino => (hok p ta t hr hino hearly).1
    rcases hend : env.thread
    · exact hs'.setProc hchild (fun b => rfl) fun j => rfl
    · simp [hend] at hthread
      exact hfail hthread
    · exact (hs'.allowExe p env.wcMem fun j => rfl).fdsPut fun b => rfl
    · simp [hend] at hthread
      exact hfail hthread

theorem doExecve {env : ExecEnv} (hok : ExecOk s env) : Ledgers (doExecve s pid env).2 x y u v := by
  unfold Vfs.doExecve
  rcases hr : s.running pid with _ | ⟨p, ta, t⟩
  · exact h
  obtain ⟨hp, hfds, ht, -⟩ := of_running hr
  rcases env.found with e | first
  · exact h
  dsimp only
  split_ifs
  · exact h
  rcases himage : env.image with e | k
  · exact h
  obtain ⟨hino, hmem⟩ := hok k himage
  dsimp only
  split_ifs with hsame
  · exact (h.setProc_same hp rfl rfl).execCommitted hfds ht env
  unfold iWritecountDenyWrite
  split_ifs with hpos
  · exact h
  set s1 : System := { s with wc := wcApply s.wc k (-1) env.wcMem }
  set p1 : Process := { p with exeBackend := k.1, exeIno := k.2 }
  have hdeny : Ledgers s1 x y u (fun j => v j + one (some k) j) :=
    ⟨h.refs.counters _ s.opens, h.booked.books.deny (by omega) hmem fun j => rfl, h.booked.modes⟩
  -- the process takes the new image and has the old one in hand
  have hset : Ledgers (s1.setProc pid (some p1)) x y u (fun j => v j + one p.image j) := by
    refine hdeny.setProc hp (fun b => rfl) fun j => ?_
    have hnew : p1.image = some k := if_pos hino
    rw [bind_some, bind_some, hnew]
    omega
  refine execCommitted ?_ (show p1.fds = _ from hfds) ?_ env
  · rw [countExe_setProc]
    exact hset.allowExe p env.wcMem fun j => rfl
  · rw [(countExe_frame ..).2]
    exact ht

end

end Ledgers

/-! ## Runs -/

/-- The calls. -/
inductive FileOp where
  | openFile (pid : ℕ) (flags : OpenFlags) (target : Except Errno OpenTarget) (env : OpenEnv)
  | close (pid fd : ℕ) (mem : Bool)
  | dup (pid fd : ℕ) (cloexec : Bool) (newfd : Option ℕ)
  | dup3 (pid oldfd newfd : ℕ) (cloexec room mem : Bool)
  | fork (pid child : ℕ) (env : ForkEnv)
  | exec (pid : ℕ) (env : ExecEnv)
  | exit (pid : ℕ) (mem : Bool)
  | reap (pid : ℕ) (mem : Bool)

section

variable (s : System)

def fileNext : FileOp → System
  | .openFile pid flags target env => (vfsOpen s pid flags target env).2
  | .close pid fd mem => (vfsClose s pid fd mem).2
  | .dup pid fd cloexec newfd => (doDup s pid fd cloexec newfd).2
  | .dup3 pid oldfd newfd cloexec room mem => (doDup3 s pid oldfd newfd cloexec room mem).2
  | .fork pid child env => (doFork s pid child env).2
  | .exec pid env => (doExecve s pid env).2
  | .exit pid mem => exitKillProcess s pid mem
  | .reap pid mem => procCleanup s pid mem

/-- What keeps the books right. -/
def FileOk : FileOp → Prop
  | .openFile _ flags target env => OpenOk s flags target env
  | .fork pid _ env => ForkOk s pid env
  | .exec _ env => ExecOk s env
  | _ => True

variable {u v : WcKey → ℕ} {file : FileId}

/-- **Step.**  A call that counts what it opens keeps both ledgers. -/
theorem Ledgers.next {s : System} {x y : ℕ → ℕ} (h : Ledgers s x y u v)
    {op : FileOp} (hok : FileOk s op) : Ledgers (fileNext s op) x y u v := by
  cases op with
  | openFile pid flags target env => exact h.vfsOpen hok
  | close pid fd mem => exact h.vfsClose pid fd mem
  | dup pid fd cloexec newfd => exact h.doDup fd cloexec newfd
  | dup3 pid oldfd newfd cloexec room mem => exact h.doDup3 oldfd newfd cloexec room
  | fork pid child env => exact h.doFork hok
  | exec pid env => exact h.doExecve hok
  | exit pid mem => exact h.exitKillProcess pid
  | reap pid mem => exact h.procCleanup pid

/-- The open file objects with write access to a file: `do_write` refuses only `O_RDONLY`. -/
def System.writersOf (file : FileId) : Set ℕ :=
  {a | ∃ f, s.files a = some f ∧ f.type = .file ∧ f.accMode ≠ 0 ∧ f.id = file}

/-- The processes that execute a file; executables are read from the default file system. -/
def System.runnersOf (file : FileId) : Set ℕ :=
  {pid | ∃ p, s.procs pid = some p ∧ p.zombie = false ∧ p.exe = file.key}

/-- The processes that have executed a file to their end and are not reaped. -/
def System.unreapedOf (file : FileId) : Set ℕ :=
  {pid | ∃ p, s.procs pid = some p ∧ p.zombie = true ∧ p.exe = file.key}

/-- Writers and executables exclude each other, and the write count says how many there are. -/
def WritersExclude : Prop :=
  ∀ file : FileId, file.fs = 0 → file.ino ≠ 0 →
    (s.writersOf file).Finite ∧ (s.runnersOf file).Finite ∧
      (s.writersOf file = ∅ ∨ s.runnersOf file = ∅) ∧
      (s.unreapedOf file = ∅ →
        wcPeek s.wc file.key = (s.writersOf file).ncard - (s.runnersOf file).ncard)

theorem Booked.fiber_writer {s : System} (h : Booked s u v)
    (hfs : file.fs = 0) : fiber s.writer file.key = s.writersOf file := by
  ext a
  rw [mem_fiber, System.writer]
  constructor
  · intro ha
    obtain ⟨f, hf, hw⟩ := bind_eq_some_iff.1 ha
    unfold writes at hw
    split_ifs at hw with hc
    unfold countsWrite at hc
    simp only [and_eq_true, or_eq_true, decide_eq_true_eq] at hc
    obtain ⟨⟨htype, hacc⟩, -⟩ := hc
    have hkey := some_inj.1 hw
    refine ⟨f, hf, htype, ?_, ?_⟩
    · rcases hacc with hacc | hacc <;> rw [hacc] <;> decide
    have hback : f.id.backend = file.backend := congrArg Prod.fst hkey
    have hino : f.id.ino = file.ino := congrArg Prod.snd hkey
    have hfs' := (h.modes a f hf htype).2.2
    rcases hid : f.id with ⟨b, n, i⟩
    rcases file with ⟨b', n', i'⟩
    simp only [hid] at hback hino hfs'
    simp only at hfs
    rw [hback, hino, hfs', hfs]
  · rintro ⟨f, hf, htype, hacc, rfl⟩
    obtain ⟨h3, hino, -⟩ := h.modes a f hf htype
    rw [hf, bind_some, writes]
    rw [countsWrite, writable h3 hacc]
    simp [htype, hino]

theorem fiber_image {s : System} (hino : file.ino ≠ 0) :
    fiber s.image file.key = s.runnersOf file ∪ s.unreapedOf file := by
  ext pid
  rw [mem_fiber, System.image]
  constructor
  · intro h
    obtain ⟨p, hp, himage⟩ := bind_eq_some_iff.1 h
    unfold Process.image at himage
    split_ifs at himage
    have hexe := some_inj.1 himage
    cases hz : p.zombie with
    | false => exact .inl ⟨p, hp, hz, hexe⟩
    | true => exact .inr ⟨p, hp, hz, hexe⟩
  · intro h
    have hany : ∃ p, s.procs pid = some p ∧ p.exe = file.key := by
      rcases h with ⟨p, hp, -, hexe⟩ | ⟨p, hp, -, hexe⟩ <;> exact ⟨p, hp, hexe⟩
    obtain ⟨p, hp, hexe⟩ := hany
    have hne : p.exeIno ≠ 0 := by
      have : p.exeIno = file.ino := congrArg Prod.snd hexe
      rwa [this]
    rw [hp, bind_some, Process.image, if_pos hne, hexe]

theorem Booked.exclude {s : System} (h : Booked s (fun _ => 0) (fun _ => 0)) :
    WritersExclude s := by
  intro file hfs hino
  obtain ⟨-, w, x, hw, hx, hbal⟩ := h.books
  have hwf := hw.finite file.key
  have hxf := hx.finite file.key
  have hwc := hw.count file.key
  have hxc := hx.count file.key
  obtain ⟨hval, hzero⟩ := hbal file.key
  rw [h.fiber_writer hfs] at hwf hwc
  rw [fiber_image hino] at hxf hxc
  refine ⟨hwf, hxf.subset Set.subset_union_left, ?_, fun hnone => ?_⟩
  · rcases hzero with h0 | h0
    · exact .inl ((Set.ncard_eq_zero hwf).1 (by omega))
    · have hempty := (Set.ncard_eq_zero hxf).1 (by omega)
      exact .inr (Set.union_empty_iff.1 hempty).1
  · rw [hnone, Set.union_empty] at hxc
    omega

/-- Nothing is open or executed yet. -/
def System.Idle : Prop :=
  Settled s ∧ (∀ a, s.files a = none) ∧ (∀ i, s.wc i = []) ∧
    ∀ pid p, s.procs pid = some p → p.exeIno = 0

end

theorem System.Idle.booked {s : System} (h : s.Idle) : Booked s (fun _ => 0) (fun _ => 0) := by
  obtain ⟨-, hfiles, hwc, hprocs⟩ := h
  have hempty : s.wc = fun _ => [] := funext hwc
  refine ⟨⟨⟨fun i e he => ?_, ?_⟩, _, _, counted_of_none (fun a => ?_) _,
    counted_of_none (fun pid => ?_) _, fun k => ⟨?_, .inl rfl⟩⟩, fun a f hf => ?_⟩
  · rw [hwc i] at he
    exact absurd he (not_mem_nil)
  · rw [hempty]
    exact nodup_nil
  · rw [System.writer, hfiles a]
    rfl
  · rw [System.image]
    rcases hp : s.procs pid with _ | p
    · rfl
    · rw [bind_some, Process.image, if_neg (by simpa using hprocs pid p hp)]
  · rw [wcPeek, counterOf, bucketFind, hwc]
    rfl
  · rw [hfiles a] at hf
    simp at hf

/-- **Writers and executables exclude each other**: over every run of calls from an idle system
that count what they open and execute.  References stay right along the way, so no call meets an
object that is gone. -/
theorem writers_exclude_images {s : System} (hs : s.Idle) {ops : List FileOp}
    (hok : Along fileNext FileOk s ops) :
    Settled (run fileNext s ops) ∧ WritersExclude (run fileNext s ops) := by
  let Even t := Ledgers t (fun _ => 0) (fun _ => 0) (fun _ => 0) (fun _ => 0)
  have hstart : Even s := ⟨hs.1, hs.booked⟩
  have hstep : ∀ t op, Even t → FileOk t op → Even (fileNext t op) := fun _ _ h hop => h.next hop
  have hend := run_invariant hstep hstart hok
  exact ⟨hend.refs, hend.booked.exclude⟩

/-- One process with an empty table. -/
def bootSystem : System where
  procs pid := if pid = 1 then some ⟨some 1, .ram, 0, false⟩ else none
  tables a := if a = 1 then some ⟨[], 1⟩ else none
  files _ := none
  wc _ := []
  opens _ := []
  loops _ := none

theorem bootSystem_idle : bootSystem.Idle := by
  have hslot : ∀ r, bootSystem.slot r = none := by
    intro r
    cases r with
    | loop dev => rfl
    | desc a i =>
      simp only [System.slot, bootSystem]
      split_ifs <;> rfl
  have hholder : bootSystem.holder = update (fun _ => none) 1 (some 1) := by
    funext pid
    simp only [System.holder, bootSystem, update_apply]
    split_ifs <;> rfl
  have hrefs : bootSystem.tableRefs = one (some 1) := by
    funext a
    simp only [System.tableRefs, bootSystem, one_some, eq_comm (a := 1)]
    split_ifs <;> rfl
  refine ⟨⟨counted_of_none hslot _, fun a f hf => ?_, ?_, fun a t ht => ?_⟩,
    fun _ => rfl, fun _ => rfl, fun pid p hp => ?_⟩
  · exact absurd hf (by simp [bootSystem])
  · rw [hholder, hrefs]
    exact (counted_of_none (fun _ => rfl) _).set 1 (some 1) fun f => by simp
  · simp only [bootSystem] at ht
    split_ifs at ht
    obtain rfl := some_inj.1 ht
    exact le_refl 1
  · simp only [bootSystem] at hp
    split_ifs at hp
    obtain rfl := some_inj.1 hp
    rfl

/-- A process opens a file for writing, and another one that it then executes. -/
theorem writers_exclude_images_small :
    let ops : List FileOp :=
      [.openFile 1 ⟨1, true, false, false⟩ (.ok ⟨.file, ⟨.ram, 0, 7⟩⟩) ⟨true, true, some 5, some 0⟩,
        .fork 1 2 ⟨none, true, false, some 2, 64, 64, .made⟩,
        .exec 2 ⟨.ok (.ext4, 7), .ok (.ext4, 7), true, true, none, 0⟩, .exit 2 true, .reap 2 true]
    Settled (run fileNext bootSystem ops) ∧ WritersExclude (run fileNext bootSystem ops) := by
  intro ops
  refine writers_exclude_images bootSystem_idle ⟨?_, ?_, ?_, trivial, trivial, trivial⟩
  · intro tg htg _
    obtain rfl := Except.ok.inj htg
    exact ⟨by decide, rfl, by decide, by decide, fun _ => rfl⟩
  · intro p ta t hr hino
    have hp : some (⟨some 1, .ram, 0, false⟩ : Process) = some p := (of_running hr).1
    exact absurd (congrArg Process.exeIno (some_inj.1 hp)).symm hino
  · intro k hk
    obtain rfl := Except.ok.inj hk
    exact ⟨by decide, fun _ => rfl⟩

/-- After an open for reading with `O_TRUNC` and the close the file has no writer, but its counter
says one. -/
theorem writer_left_behind :
    ¬WritersExclude (run fileNext bootSystem
      [.openFile 1 ⟨0, true, false, false⟩ (.ok ⟨.file, ⟨.ram, 0, 7⟩⟩) ⟨true, true, some 5, some 0⟩,
        .close 1 0 true]) := by
  intro h
  set s := run fileNext bootSystem _ with hs
  have hprocs : s.procs = bootSystem.procs := rfl
  have hfiles : s.files = update (update (fun _ => none) 5
      (some ⟨.file, 0, ⟨.ram, 0, 7⟩, 1⟩)) 5 none := rfl
  have hvalue : wcPeek s.wc (.ram, 7) = 1 := by decide +kernel
  have hwriters : s.writersOf ⟨.ram, 0, 7⟩ = ∅ := by
    refine Set.eq_empty_of_forall_notMem ?_
    rintro a ⟨f, hf, -⟩
    rw [hfiles, update_idem, update_apply] at hf
    split_ifs at hf
  have hexe : ∀ pid p, s.procs pid = some p → p.exe ≠ (.ram, 7) := by
    intro pid p hp
    rw [hprocs] at hp
    simp only [bootSystem] at hp
    split_ifs at hp
    obtain rfl := some_inj.1 hp
    decide
  have hrunners : s.runnersOf ⟨.ram, 0, 7⟩ = ∅ :=
    Set.eq_empty_of_forall_notMem fun pid ⟨p, hp, _, he⟩ => hexe pid p hp he
  have hunreaped : s.unreapedOf ⟨.ram, 0, 7⟩ = ∅ :=
    Set.eq_empty_of_forall_notMem fun pid ⟨p, hp, _, he⟩ => hexe pid p hp he
  have hcount := (h ⟨.ram, 0, 7⟩ rfl (by decide)).2.2.2 hunreaped
  rw [hwriters, hrunners, Set.ncard_empty] at hcount
  exact absurd (hvalue.symm.trans hcount) (by decide)

/-! ## Loop devices -/

/-- The calls of before, `LOOP_SET_FD` and `LOOP_CLR_FD`. -/
inductive LoopOp where
  | file (op : FileOp)
  | setFd (pid fd dev : ℕ) (mem : Bool)
  | clrFd (dev : ℕ) (mounted mem : Bool)

def loopNext (s : System) : LoopOp → System
  | .file op => fileNext s op
  | .setFd pid fd dev mem => (loopSetFd s pid fd dev mem).2
  | .clrFd dev mounted mem => (loopClrFd s dev mounted mem).2

def LoopOk (s : System) : LoopOp → Prop
  | .file op => FileOk s op
  | _ => True

section

variable {s : System} {x x' y : ℕ → ℕ} {u v : WcKey → ℕ} (h : Ledgers s x y u v)
include h

theorem Ledgers.setLoop {dev : ℕ} {o : Option ℕ} (opens : ℕ → List (Counter ℕ))
    (hx : ∀ b, x b + one (s.loops dev) b = x' b + one o b) :
    Ledgers { s with loops := update s.loops dev o, opens } x' y u v := by
  have hslot : ({ s with loops := update s.loops dev o, opens } : System).slot =
      update s.slot (.loop dev) o := by
    funext r
    cases r <;> simp [System.slot, update_apply]
  refine ⟨⟨?_, h.refs.alive, h.refs.tables, h.refs.kept⟩, h.booked.congr rfl rfl rfl⟩
  rw [hslot]
  exact h.refs.files.set _ _ hx

/-- **Step.** -/
theorem Ledgers.loopNext {op : LoopOp} (hok : LoopOk s op) : Ledgers (loopNext s op) x y u v := by
  cases op with
  | file op => exact h.next hok
  | setFd pid fd dev mem =>
    rw [Vfs.loopNext, loopSetFd]
    iterate 4
      split
      on_goal 1 => exact h
    rename_i d _ _ f hf hfree
    have hin : Ledgers (s.incref d.file) (fun b => x b + one (some d.file) b) y u v :=
      ⟨h.refs.incref hf fun b => rfl, h.booked.incref d.file⟩
    refine hin.setLoop _ fun b => ?_
    have hnone : (s.incref d.file).loops dev = none := by simpa [System.incref] using hfree
    rw [hnone, one_none, add_zero]
  | clrFd dev mounted mem =>
    rw [Vfs.loopNext, loopClrFd]
    repeat' split
    any_goals exact h
    rename_i a ha _
    refine drop (x := fun b => x b + one (some a) b) (h.setLoop s.opens fun b => ?_) fun b => rfl
    rw [ha, one_none, add_zero]

end

/-- **The file behind a bound loop device stays open**, whatever becomes of the descriptor. -/
theorem loop_backing_stays {s : System} (hs : s.Idle) {ops : List LoopOp}
    (hok : Along loopNext LoopOk s ops) :
    let t := run loopNext s ops
    WritersExclude t ∧ ∀ dev a, t.loops dev = some a →
      ∃ f, t.files a = some f ∧ f.refcount = (fiber t.slot a).ncard := by
  let Even t := Ledgers t (fun _ => 0) (fun _ => 0) (fun _ => 0) (fun _ => 0)
  have hstep : ∀ t op, Even t → LoopOk t op → Even (loopNext t op) :=
    fun _ _ h hop => h.loopNext hop
  have hend := run_invariant hstep ⟨hs.1, hs.booked⟩ hok
  refine ⟨hend.booked.exclude, fun dev a ha => ?_⟩
  obtain ⟨f, hf⟩ := hend.refs.file_of_slot (r := .loop dev) ha
  have hcount := hend.refs.files.count a
  have halive := hend.refs.alive a f hf
  rw [refs_of_some hf] at hcount
  exact ⟨f, hf, by omega⟩

/-- The descriptor is closed while the device is bound. -/
theorem loop_backing_stays_closed :
    let ops : List LoopOp := [.file (.openFile 1 ⟨0, false, false, false⟩
      (.ok ⟨.file, ⟨.ram, 0, 7⟩⟩) ⟨true, true, some 5, some 0⟩), .setFd 1 0 3 true,
        .file (.close 1 0 true)]
    let t := run loopNext bootSystem ops
    t.loops 3 = some 5 ∧ ∃ f, t.files 5 = some f ∧ f.refcount = (fiber t.slot 5).ncard := by
  intro ops
  have hok : Along loopNext LoopOk bootSystem ops := by
    refine ⟨fun tg htg _ => ?_, trivial, trivial, trivial⟩
    obtain rfl := Except.ok.inj htg
    exact ⟨by decide, rfl, by decide, by decide, fun _ => rfl⟩
  exact ⟨rfl, (loop_backing_stays bootSystem_idle hok).2 3 5 rfl⟩

end CosmoRT.Vfs
