import CosmoRT.Event.Files
import CosmoRT.Lib.Ledger
import CosmoRT.Proc.FdShortage

/-!
# Who holds a pipe end or an epoll instance

One counter per pipe end and one per epoll instance serve as open count and as
lifetime at once.  The references behind a counter are the descriptors of all
tables and the watches of all instances; `RefInv` says that every counter is their
number, plus the references that a call in progress has in hand.
-/

namespace CosmoRT.Event

open Function Proc Ipc Lib List Option Files AList

/-- What is counted: an end of a pipe, or an epoll instance. -/
inductive Ref where
  | pipeEnd (obj : ℕ) (isWrite : Bool)
  | epoll (obj : ℕ)
  deriving DecidableEq

/-- What an entry refers to, if it is counted here. -/
def entryRef (e : FdEntry) : Option Ref :=
  match e.type with
  | .PIPE => some (.pipeEnd e.obj (fdIsWrite e.flags))
  | .EPOLL => some (.epoll e.obj)
  | _ => none

/-- Where a reference is kept: a descriptor of a table, or a watch of an instance. -/
inductive RefSlot where
  | desc (table fd : ℕ)
  | watch (ep : ℕ) (fd : ℤ)
  deriving DecidableEq

/-- What a watch list refers to under a number. -/
def watchRef (entries : List EpollEntry) (fd : ℤ) : Option Ref :=
  (entries.find? (·.fd = fd)).bind fun it => entryRef it.src

/-- The reference in a slot. -/
def Files.slot (s : Files) : RefSlot → Option Ref
  | .desc a fd => (s.tables a).bind fun st => (fdMap st.tab fd).bind entryRef
  | .watch a fd => (s.epolls.lookup a).bind fun ep => watchRef ep.entries fd

/-- The open count of one end. -/
def endOpen (pp : Pipe) (isWrite : Bool) : ℤ := if isWrite then pp.writeOpen else pp.readOpen

/-- The counter of a pipe end or an instance. -/
def Files.openCount (s : Files) : Ref → ℕ
  | .pipeEnd o w => ((s.pipes o).map fun po => (endOpen po.pipe w).toNat).getD 0
  | .epoll o => ((s.epolls.lookup o).map fun ep => ep.refcount.toNat).getD 0

/-- Every counter is the number of slots that refer to its object, plus the references
`x` in hand; nothing lives on with a count of zero. -/
structure RefInv (s : Files) (x : Ref → ℕ) : Prop where
  counted : Counted s.slot x s.openCount
  ends : ∀ o po, s.pipes o = some po → 0 ≤ po.pipe.readOpen ∧ 0 ≤ po.pipe.writeOpen
  alive : ∀ a ep, s.epolls.lookup a = some ep → 1 ≤ ep.refcount
  fds : ∀ a ep, s.epolls.lookup a = some ep → (ep.entries.map (·.fd)).Nodup

variable {e : FdEntry}

theorem entryRef_flags {flags : ℤ} (h : fdIsWrite flags = fdIsWrite e.flags) :
    entryRef { e with flags } = entryRef e := by
  unfold entryRef
  split <;> simp_all

theorem entryRef_pipe (h : e.type = .PIPE) :
    entryRef e = some (.pipeEnd e.obj (fdIsWrite e.flags)) := by simp [entryRef, h]

theorem entryRef_epoll (h : e.type = .EPOLL) : entryRef e = some (.epoll e.obj) := by
  simp [entryRef, h]

theorem entryRef_eq_none (hp : e.type ≠ .PIPE) (he : e.type ≠ .EPOLL) : entryRef e = none := by
  unfold entryRef
  split <;> simp_all

/-! ## One counter changes -/

/-- The counts of a pipe that may be gone. -/
def endCount (p : Option PipeObj) (isWrite : Bool) : ℕ :=
  (p.map fun po => (endOpen po.pipe isWrite).toNat).getD 0

variable {s s' : Files} {x x' : Ref → ℕ} {o : ℕ}

theorem RefInv.hand (h : RefInv s x) (hx : ∀ f, x' f = x f) : RefInv s x' := by
  obtain rfl : x' = x := funext hx
  exact h

theorem RefInv.setPipe (h : RefInv s x)
    {p : Option PipeObj} (hpipes : s'.pipes = update s.pipes o p)
    (htables : s'.tables = s.tables) (hepolls : s'.epolls = s.epolls)
    (hends : ∀ po, p = some po → 0 ≤ po.pipe.readOpen ∧ 0 ≤ po.pipe.writeOpen)
    (hx : ∀ w, x (.pipeEnd o w) + endCount p w = x' (.pipeEnd o w) + endCount (s.pipes o) w)
    (hrest : ∀ f, (∀ w, f ≠ .pipeEnd o w) → x f = x' f) : RefInv s' x' where
  counted := by
    have hslot : ∀ r, s'.slot r = s.slot r := by
      intro r
      cases r <;> simp only [slot, htables, hepolls]
    refine (h.counted.congr hslot fun _ => rfl).recount fun f => ?_
    cases f with
    | epoll a =>
      have hxf := hrest (.epoll a) (by simp)
      simp only [openCount, hepolls]
      omega
    | pipeEnd b w =>
      by_cases hb : b = o
      · subst hb
        have hxw := hx w
        simp only [openCount, hpipes, update_self]
        exact hxw
      · have hxf := hrest (.pipeEnd b w) (by simp [hb])
        simp only [openCount, hpipes, update_of_ne hb]
        omega
  ends b po hb := by
    rw [hpipes] at hb
    by_cases hbo : b = o
    · subst hbo
      rw [update_self] at hb
      exact hends po hb
    · rw [update_of_ne hbo] at hb
      exact h.ends b po hb
  alive := hepolls ▸ h.alive
  fds := hepolls ▸ h.fds

variable {a : ℕ} {ep : Epoll}

theorem slot_watch (hep : s.epolls.lookup a = some ep) (fd : ℤ) :
    s.slot (.watch a fd) = watchRef ep.entries fd := by
  simp [slot, hep]

theorem openCount_epoll (hep : s.epolls.lookup a = some ep) :
    s.openCount (.epoll a) = ep.refcount.toNat := by
  simp [openCount, hep]

/-! What follows is about two states that differ in the instance at `a` alone. -/

section Instance

variable (hrest : ∀ b, b ≠ a → s'.epolls.lookup b = s.epolls.lookup b)
  (hpipes : s'.pipes = s.pipes)

include hrest hpipes

theorem openCount_eq_of_ne {f : Ref} (hf : f ≠ .epoll a) : s'.openCount f = s.openCount f := by
  cases f with
  | pipeEnd b w => simp only [openCount, hpipes]
  | epoll b =>
    have hb : b ≠ a := fun hb => hf (by rw [hb])
    simp only [openCount, hrest b hb]

theorem RefInv.ofInstance (h : RefInv s x)
    (hgood : ∀ ep, s'.epolls.lookup a = some ep → 1 ≤ ep.refcount ∧ (ep.entries.map (·.fd)).Nodup)
    (hcounted : Counted s'.slot x' s'.openCount) : RefInv s' x' where
  counted := hcounted
  ends := hpipes ▸ h.ends
  alive b ep hb := by
    by_cases hba : b = a
    · exact (hgood ep (hba ▸ hb)).1
    · exact h.alive b ep (hrest b hba ▸ hb)
  fds b ep hb := by
    by_cases hba : b = a
    · exact (hgood ep (hba ▸ hb)).2
    · exact h.fds b ep (hrest b hba ▸ hb)

/-- One watch of an instance changes; its reference comes from the hand, or goes there. -/
theorem RefInv.setWatch (h : RefInv s x) {ep' : Epoll}
    (hep : s.epolls.lookup a = some ep) (hep' : s'.epolls.lookup a = some ep')
    (htables : s'.tables = s.tables) (hcount : ep'.refcount = ep.refcount)
    (hnd : (ep'.entries.map (·.fd)).Nodup) {fd : ℤ} {o : Option Ref}
    (hwatch : watchRef ep'.entries = update (watchRef ep.entries) fd o)
    (hx : ∀ f, x f + one (watchRef ep.entries fd) f = x' f + one o f) : RefInv s' x' := by
  have hslot : s'.slot = update s.slot (.watch a fd) o := by
    funext r
    cases r with
    | desc b n => simp [slot, htables]
    | watch b n =>
      by_cases hb : b = a
      · subst hb
        by_cases hn : n = fd
        · subst hn
          simp [slot, hep', hwatch]
        · simp [slot, hep', hwatch, hn, hep]
      · simp [slot, hrest b hb, hb]
  have hopen : s'.openCount = s.openCount := by
    funext f
    by_cases hf : f = .epoll a
    · rw [hf, openCount_epoll hep', openCount_epoll hep, hcount]
    · exact openCount_eq_of_ne hrest hpipes hf
  refine h.ofInstance hrest hpipes (fun ep1 hep1 => ?_) ?_
  · obtain rfl := some_inj.1 (hep'.symm.trans hep1)
    exact ⟨hcount ▸ h.alive a ep hep, hnd⟩
  · rw [hslot, hopen]
    refine h.counted.set _ _ fun f => ?_
    rw [slot_watch hep]
    exact hx f

end Instance

theorem RefInv.setEpoll (h : RefInv s x) {ep' : Epoll}
    (hepolls : s'.epolls = s.epolls.insert a ep') (htables : s'.tables = s.tables)
    (hpipes : s'.pipes = s.pipes) (hwatch : ∀ fd, watchRef ep'.entries fd = s.slot (.watch a fd))
    (hnd : (ep'.entries.map (·.fd)).Nodup) (hlive : 1 ≤ ep'.refcount)
    (hx : x (.epoll a) + ep'.refcount.toNat = x' (.epoll a) + s.openCount (.epoll a))
    (hxrest : ∀ f, f ≠ .epoll a → x f = x' f) : RefInv s' x' := by
  have hep' : s'.epolls.lookup a = some ep' := by rw [hepolls, lookup_insert]
  have hrest : ∀ b, b ≠ a → s'.epolls.lookup b = s.epolls.lookup b := by
    intro b hb
    rw [hepolls, lookup_insert_ne hb]
  have hslot : ∀ r, s'.slot r = s.slot r := by
    intro r
    cases r with
    | desc b fd => simp only [slot, htables]
    | watch b fd =>
      by_cases hb : b = a
      · rw [hb, slot_watch hep', hwatch fd]
      · simp only [slot, hrest b hb]
  refine h.ofInstance hrest hpipes (fun ep1 hep1 => ?_)
    ((h.counted.congr hslot fun _ => rfl).recount fun f => ?_)
  · obtain rfl := some_inj.1 (hep'.symm.trans hep1)
    exact ⟨hlive, hnd⟩
  · by_cases hf : f = .epoll a
    · rw [hf, openCount_epoll hep', ← hx]
    · rw [openCount_eq_of_ne hrest hpipes hf, hxrest f hf]

/-! ## Taking a reference -/

theorem endOpen_bumpOpen (pp : Pipe) (w v : Bool) :
    endOpen (bumpOpen pp w) v = endOpen pp v + if w = v then 1 else 0 := by
  cases w <;> cases v <;> simp [endOpen, bumpOpen]

theorem endOpen_nonneg (h : RefInv s x) {po : PipeObj}
    (hpo : s.pipes o = some po) (w : Bool) : 0 ≤ endOpen po.pipe w := by
  have hends := h.ends o po hpo
  cases w
  · exact hends.1
  · exact hends.2

variable {w : Bool}

theorem pipe_of_open (h : s.openCount (.pipeEnd o w) ≠ 0) : ∃ po, s.pipes o = some po := by
  cases hpo : s.pipes o with
  | none => simp [openCount, hpo] at h
  | some po => exact ⟨po, rfl⟩

theorem epoll_of_open (h : s.openCount (.epoll a) ≠ 0) : ∃ ep, s.epolls.lookup a = some ep := by
  cases hep : s.epolls.lookup a with
  | none => simp [openCount, hep] at h
  | some ep => exact ⟨ep, rfl⟩

/-- A live object gains a reference that is in hand. -/
theorem RefInv.incref (h : RefInv s x) (hlive : ∀ f, entryRef e = some f → s.openCount f ≠ 0) :
    RefInv (fdObjIncref s e) fun f => x f + one (entryRef e) f := by
  unfold fdObjIncref
  split
  · rename_i htype
    have href := entryRef_pipe htype
    obtain ⟨po, hpo⟩ := pipe_of_open (hlive _ href)
    refine h.setPipe (o := e.obj) rfl rfl rfl (fun po' hpo' => ?_) (fun w => ?_) fun f hf => ?_
    · rw [hpo, map_some, some_inj] at hpo'
      subst hpo'
      have hends := h.ends _ po hpo
      dsimp only [bumpOpen]
      split <;> dsimp only <;> omega
    · have hnn := endOpen_nonneg h hpo w
      simp only [hpo, endCount, map_some, getD_some, endOpen_bumpOpen, href, one_some,
        Ref.pipeEnd.injEq, true_and]
      split <;> omega
    · rw [href, one_some, if_neg (Ne.symm (hf _)), add_zero]
  · rename_i htype
    have href := entryRef_epoll htype
    obtain ⟨ep, hep⟩ := epoll_of_open (hlive _ href)
    have halive := h.alive _ ep hep
    simp only [hep]
    refine h.setEpoll (a := e.obj) rfl rfl rfl (fun fd => (slot_watch hep fd).symm) (h.fds _ ep hep)
      (by dsimp only; omega) ?_ fun f hf => ?_
    · rw [href, one_self, openCount_epoll hep]
      dsimp only
      omega
    · rw [href, one_some, if_neg (Ne.symm hf), add_zero]
  · rename_i hp he
    refine ⟨h.counted.congr (fun _ => rfl) fun f => ?_, h.ends, h.alive, h.fds⟩
    simp [entryRef_eq_none hp he]

/-! ## Dropping a reference -/

theorem endOpen_pipeClose {pp : Pipe} (h : 0 < endOpen pp w) (v : Bool) :
    endOpen (pipeClose pp w) v = endOpen pp v - if w = v then 1 else 0 := by
  cases w <;> cases v <;> simp_all [endOpen, pipeClose]

theorem RefInv.pipeCloseEntry (h : RefInv s fun f => x f + one (some (.pipeEnd o w)) f) :
    RefInv (pipeCloseEntry s o w) x := by
  have hcount := h.counted.count (.pipeEnd o w)
  rw [one_self] at hcount
  obtain ⟨po, hpo⟩ := pipe_of_open (s := s) (o := o) (w := w) (by omega)
  have hpos : 0 < endOpen po.pipe w := by
    simp only [openCount, hpo, map_some, getD_some] at hcount
    omega
  have hother : ∀ v, 0 ≤ endOpen (pipeClose po.pipe w) v := by
    intro v
    have hnn := endOpen_nonneg h hpo v
    rw [endOpen_pipeClose hpos]
    split
    · rename_i hwv
      subst hwv
      omega
    · omega
  have hread := hother false
  have hwrite := hother true
  -- whether the pipe is freed or stays, its counts are those of the closed one
  have hcounts : ∀ v, endCount (if (pipeClose po.pipe w).readOpen ≤ 0 ∧
      (pipeClose po.pipe w).writeOpen ≤ 0 then none
      else some { po with pipe := pipeClose po.pipe w }) v
        = (endOpen (pipeClose po.pipe w) v).toNat := by
    intro v
    split
    · cases v <;> simp only [endCount, endOpen, map_none, getD_none, if_true,
        Bool.false_eq_true, if_false] <;> omega
    · rfl
  unfold CosmoRT.Event.pipeCloseEntry
  rw [hpo]
  refine h.setPipe (o := o) rfl rfl rfl (fun po' hpo' => ?_) (fun v => ?_) fun f hf => ?_
  · split at hpo'
    · cases hpo'
    · cases hpo'
      exact ⟨hread, hwrite⟩
  · have hnn := endOpen_nonneg h hpo v
    have hv := hother v
    rw [hcounts v, hpo, endCount, map_some, one_some]
    rw [endOpen_pipeClose hpos] at hv ⊢
    split <;> simp_all
  · rw [one_some, if_neg (Ne.symm (hf _)), add_zero]

/-- The references of a list of watches. -/
def watchesRefs (entries : List EpollEntry) (f : Ref) : ℕ :=
  (entries.map fun it => one (entryRef it.src) f).sum

variable {entries : List EpollEntry} {u : Files} {fd : ℕ}

theorem watchRef_of_mem (hnd : (entries.map (·.fd)).Nodup)
    {it : EpollEntry} (hit : it ∈ entries) : watchRef entries it.fd = entryRef it.src := by
  have hfind : entries.find? (·.fd = it.fd) = some it := by
    induction entries with
    | nil => cases hit
    | cons e entries ih =>
      obtain ⟨hne, hnd⟩ := nodup_cons.1 hnd
      rcases mem_cons.1 hit with rfl | hit
      · simp
      · have hfd : e.fd ≠ it.fd := fun heq => hne (mem_map.2 ⟨it, hit, heq.symm⟩)
        simp [hfd, ih hnd hit]
  rw [watchRef, hfind, bind_some]

theorem watchRef_eq_none {fd : ℤ} (h : fd ∉ entries.map (·.fd)) : watchRef entries fd = none := by
  have hfind : entries.find? (·.fd = fd) = none := by
    refine find?_eq_none.2 fun it hit => ?_
    simp only [decide_eq_true_eq]
    exact fun hfd => h (mem_map.2 ⟨it, hit, hfd⟩)
  rw [watchRef, hfind, bind_none]

/-- The last reference on an instance is in hand: the instance leaves the store, and the
references of its watches are in hand instead. -/
theorem RefInv.eraseEpoll
    (h : RefInv s fun f => x f + one (some (.epoll a)) f) (hep : s.epolls.lookup a = some ep)
    (hlast : ep.refcount - 1 ≤ 0) (hepolls : s'.epolls = s.epolls.erase a)
    (htables : s'.tables = s.tables) (hpipes : s'.pipes = s.pipes) :
    RefInv s' fun f => x f + watchesRefs ep.entries f := by
  have hnd := h.fds a ep hep
  have hgone : s'.epolls.lookup a = none := by rw [hepolls, lookup_erase]
  have hrest : ∀ b, b ≠ a → s'.epolls.lookup b = s.epolls.lookup b := by
    intro b hb
    rw [hepolls, lookup_erase_ne hb]
  have hndw : (ep.entries.map fun it => RefSlot.watch a it.fd).Nodup := by
    have hinj : Injective fun fd : ℤ => RefSlot.watch a fd := by
      intro b c hbc
      simpa using hbc
    simpa [List.map_map, comp_def] using hnd.map hinj
  have hheld : ∀ f, heldBy s.slot (ep.entries.map fun it => RefSlot.watch a it.fd) f
      = watchesRefs ep.entries f := by
    intro f
    rw [heldBy, List.map_map]
    refine congrArg List.sum (map_congr_left fun it hit => ?_)
    rw [comp_apply, slot_watch hep, watchRef_of_mem hnd hit]
  have hslot : ∀ r, s'.slot r = overlay s.slot (fun _ => none)
      (ep.entries.map fun it => RefSlot.watch a it.fd) r := by
    intro r
    rw [overlay]
    split
    · rename_i hr
      obtain ⟨it, -, rfl⟩ := mem_map.1 hr
      simp [slot, hgone]
    · rename_i hr
      cases r with
      | desc b fd => simp only [slot, htables]
      | watch b fd =>
        by_cases hb : b = a
        · subst hb
          have hfd : fd ∉ ep.entries.map (·.fd) := by
            intro hfd
            obtain ⟨it, hit, rfl⟩ := mem_map.1 hfd
            exact hr (mem_map.2 ⟨it, hit, rfl⟩)
          rw [slot_watch hep, watchRef_eq_none hfd]
          simp [slot, hgone]
        · simp only [slot, hrest b hb]
  refine h.ofInstance hrest hpipes (fun ep' hep' => ?_)
    (((h.counted.evict hndw).congr hslot fun _ => rfl).recount fun f => ?_)
  · rw [hgone] at hep'
    cases hep'
  rw [hheld]
  have halive := h.alive a ep hep
  by_cases hf : f = .epoll a
  · have hzero : s'.openCount (.epoll a) = 0 := by simp [openCount, hgone]
    rw [hf, one_self, openCount_epoll hep]
    omega
  · rw [one_some, if_neg (Ne.symm hf), openCount_eq_of_ne hrest hpipes hf]
    omega

variable {β : Type*} {f : Files → β → Files}

theorem length_foldl_le
    (hf : ∀ s b, (f s b).epolls.keys.length ≤ s.epolls.keys.length) (l : List β) (s : Files) :
    (l.foldl f s).epolls.keys.length ≤ s.epolls.keys.length := by
  induction l generalizing s with
  | nil => exact le_refl _
  | cons b l ih => exact le_trans (ih (f s b)) (hf s b)

theorem mem_keys_of_lookup (h : s.epolls.lookup a = some ep) : a ∈ s.epolls.keys := by
  have hmem : a ∈ s.epolls := lookup_isSome.1 (by rw [h]; rfl)
  exact hmem

theorem length_cleanupEntry_le (fuel : ℕ) (e : FdEntry) (s : Files) :
    (cleanupEntry fuel e s).epolls.keys.length ≤ s.epolls.keys.length := by
  fun_induction cleanupEntry fuel e s with
  | case1 => rw [epolls_pipeCloseEntry]
  | case2 | case3 | case6 => exact le_refl _
  | case4 e s htype fuel ep hep hlast ih =>
    refine le_trans (length_foldl_le ih _ _) ?_
    rw [keys_erase]
    exact length_erase_le
  | case5 e s htype fuel ep hep hmore =>
    have hpos := length_pos_of_mem (mem_keys_of_lookup hep)
    rw [keys_insert, length_cons, length_erase_of_mem (mem_keys_of_lookup hep)]
    omega

variable {k : ℕ}

theorem RefInv.foldl {r : β → Option Ref}
    (hlen : ∀ s b, (f s b).epolls.keys.length ≤ s.epolls.keys.length)
    (hdrop : ∀ s b (x : Ref → ℕ), (RefInv s fun g => x g + one (r b) g) →
      s.epolls.keys.length ≤ k → RefInv (f s b) x)
    (l : List β) (h : RefInv s fun g => x g + (l.map fun b => one (r b) g).sum)
    (hfuel : s.epolls.keys.length ≤ k) : RefInv (l.foldl f s) x := by
  induction l generalizing s with
  | nil => exact h
  | cons b l ih =>
    refine ih (hdrop s b _ ?_ hfuel) (le_trans (hlen s b) hfuel)
    refine h.hand fun g => ?_
    rw [map_cons, sum_cons]
    omega

/-- **Dropping a reference.**  With fuel for every instance there is, the reference in hand
and all those that die with it are given back. -/
theorem RefInv.cleanupEntry (fuel : ℕ)
    (h : RefInv s fun f => x f + one (entryRef e) f) (hfuel : s.epolls.keys.length ≤ fuel) :
    RefInv (cleanupEntry fuel e s) x := by
  -- a reference in hand shows that its instance is there
  have hthere : ∀ {e : FdEntry} {s : Files} {x : Ref → ℕ},
      (RefInv s fun f => x f + one (entryRef e) f) →
      e.type = .EPOLL → s.epolls.lookup e.obj ≠ none := by
    intro e s x h htype hnone
    have hcount := h.counted.count (.epoll e.obj)
    rw [entryRef_epoll htype, one_self] at hcount
    obtain ⟨ep, hep⟩ := epoll_of_open (s := s) (a := e.obj) (by omega)
    rw [hnone] at hep
    cases hep
  fun_induction CosmoRT.Event.cleanupEntry fuel e s generalizing x with
  | case1 fuel e s htype =>
    rw [entryRef_pipe htype] at h
    exact h.pipeCloseEntry
  | case2 e s htype =>
    obtain ⟨ep, hep⟩ := ne_none_iff_exists'.1 (hthere h htype)
    have hpos := length_pos_of_mem (mem_keys_of_lookup hep)
    omega
  | case3 e s htype fuel hnone => exact absurd hnone (hthere h htype)
  | case4 e s htype fuel ep hep hlast ih =>
    rw [entryRef_epoll htype] at h
    refine RefInv.foldl (r := fun it : EpollEntry => entryRef it.src)
      (fun s it => length_cleanupEntry_le fuel it.src s) (fun s it x hx hle => ih s it hx hle)
      ep.entries (h.eraseEpoll hep hlast rfl rfl rfl) ?_
    rw [keys_erase, length_erase_of_mem (mem_keys_of_lookup hep)]
    omega
  | case5 e s htype fuel ep hep hmore =>
    rw [entryRef_epoll htype] at h
    refine h.setEpoll (a := e.obj) rfl rfl rfl (fun fd => (slot_watch hep fd).symm)
      (h.fds _ ep hep) (by dsimp only; omega) ?_ fun f hf => ?_
    · rw [one_self, openCount_epoll hep]
      dsimp only
      omega
    · rw [one_some, if_neg (Ne.symm hf), add_zero]
  | case6 fuel e s hp he =>
    rw [entryRef_eq_none hp he] at h
    exact h

theorem RefInv.fdCleanupEntry
    (h : RefInv s fun f => x f + one (entryRef e) f) : RefInv (fdCleanupEntry s e) x :=
  h.cleanupEntry _ (le_refl _)

/-! ## What dropping a reference leaves alone -/

theorem foldl_comm {g : Files → Files}
    (hf : ∀ s b, f (g s) b = g (f s b)) (l : List β) (s : Files) :
    l.foldl f (g s) = g (l.foldl f s) := by
  induction l generalizing s with
  | nil => rfl
  | cons b l ih => rw [foldl_cons, foldl_cons, hf, ih]

/-- The tables and their holders, replaced. -/
def Files.withTables (s : Files) (holders : ℕ → Option Holder) (tables : ℕ → Option SharedTable) :
    Files :=
  { s with holders, tables }

/-- Tables and processes play no part in dropping a reference. -/
theorem cleanupEntry_withTables (fuel : ℕ) (e : FdEntry) (s : Files)
    (holders : ℕ → Option Holder) (tables : ℕ → Option SharedTable) :
    cleanupEntry fuel e (s.withTables holders tables)
      = (cleanupEntry fuel e s).withTables holders tables := by
  have hpipe (s : Files) (o : ℕ) (w : Bool) : pipeCloseEntry (s.withTables holders tables) o w
      = (pipeCloseEntry s o w).withTables holders tables := by
    cases hpo : s.pipes o <;> simp [pipeCloseEntry, withTables, hpo]
  induction fuel generalizing e s with
  | zero =>
    unfold cleanupEntry
    split
    · exact hpipe _ _ _
    · rfl
    · rfl
  | succ fuel ih =>
    unfold cleanupEntry
    split
    · exact hpipe _ _ _
    · have hlook : (s.withTables holders tables).epolls.lookup e.obj = s.epolls.lookup e.obj := rfl
      rw [hlook]
      cases s.epolls.lookup e.obj with
      | none => rfl
      | some ep =>
        dsimp only
        split
        · exact foldl_comm (f := fun s (it : EpollEntry) => cleanupEntry fuel it.src s)
            (g := fun s => s.withTables holders tables) (fun s it => ih it.src s) ep.entries
            { s with epolls := s.epolls.erase e.obj, woken := s.woken ++ ep.wq }
        · rfl
    · rfl

theorem fdCleanupEntry_withTables (e : FdEntry) (s : Files) (holders : ℕ → Option Holder)
    (tables : ℕ → Option SharedTable) : fdCleanupEntry (s.withTables holders tables) e
      = (fdCleanupEntry s e).withTables holders tables :=
  cleanupEntry_withTables ..

/-- The processes and their tables are the same. -/
abbrev SameTables (s s' : Files) : Prop := s'.holders = s.holders ∧ s'.tables = s.tables

theorem tables_fdCleanupEntry (e : FdEntry) (s : Files) : SameTables s (fdCleanupEntry s e) := by
  have hsame := fdCleanupEntry_withTables e s s.holders s.tables
  rw [show s.withTables s.holders s.tables = s from rfl] at hsame
  rw [hsame]
  exact ⟨rfl, rfl⟩

/-! ## Tables -/

variable {st : SharedTable}

theorem slot_desc (h : s.tables a = some st) (fd : ℕ) :
    s.slot (.desc a fd) = (fdMap st.tab fd).bind entryRef := by
  simp [slot, h]

theorem RefInv.of_slots (h : RefInv s x)
    (hepolls : u.epolls = s.epolls) (hpipes : u.pipes = s.pipes)
    (hc : Counted u.slot x' s.openCount) : RefInv u x' where
  counted := by
    have hcount : u.openCount = s.openCount := by
      funext f
      cases f <;> simp only [openCount, hpipes, hepolls]
    exact hcount ▸ hc
  ends := hpipes ▸ h.ends
  alive := hepolls ▸ h.alive
  fds := hepolls ▸ h.fds

/-- One descriptor of a table changes; its reference comes from the hand, or goes there. -/
theorem RefInv.setDesc (h : RefInv s x) {st' : SharedTable} (hst : s.tables a = some st)
    (htables : u.tables = update s.tables a (some st')) (hepolls : u.epolls = s.epolls)
    (hpipes : u.pipes = s.pipes) {o : Option FdEntry}
    (hmap : fdMap st'.tab = update (fdMap st.tab) fd o)
    (hx : ∀ f, x f + one ((fdMap st.tab fd).bind entryRef) f = x' f + one (o.bind entryRef) f) :
    RefInv u x' := by
  have hslot : u.slot = update s.slot (.desc a fd) (o.bind entryRef) := by
    funext r
    cases r with
    | watch b n => simp [slot, hepolls]
    | desc b n =>
      by_cases hb : b = a
      · subst hb
        by_cases hn : n = fd
        · subst hn
          simp [slot, htables, hmap]
        · simp [slot, htables, hmap, hn, hst]
      · simp [slot, htables, hb]
  refine h.of_slots hepolls hpipes (hslot ▸ h.counted.set _ _ fun f => ?_)
  rw [slot_desc hst]
  exact hx f

/-- The references of a whole table. -/
def tableRefs (t : FdTable) (f : Ref) : ℕ :=
  ((range t.maxSlots).map fun i => one ((fdMap t i).bind entryRef) f).sum

theorem entryRef_fdMap (t : FdTable) (i : ℕ) :
    (fdMap t i).bind entryRef = (fdEntryAt t i).bind entryRef := by
  rw [fdMap]
  cases fdEntryAt t i with
  | none => rfl
  | some e =>
    by_cases he : e.type = .NONE
    · have href : entryRef e = none := entryRef_eq_none (by simp [he]) (by simp [he])
      simp [Option.filter, he, href]
    · simp [Option.filter, he]

variable {t : FdTable}

theorem RefInv.fdTableDrain
    (h : RefInv s fun f => x f + tableRefs t f) : RefInv (fdTableDrain s t) x := by
  refine RefInv.foldl (r := fun i => (fdEntryAt t i).bind entryRef)
    (k := s.epolls.keys.length) (fun s i => ?_) (fun s i x hx _ => ?_) _ ?_ (le_refl _)
  · split
    · exact le_refl _
    · exact length_cleanupEntry_le _ _ _
  · split
    · rename_i hnone
      simpa [hnone] using hx
    · rename_i e he
      rw [he] at hx
      exact hx.fdCleanupEntry
  · simpa only [tableRefs, entryRef_fdMap] using h

/-- The slots of a table. -/
def tableSlots (a : ℕ) (t : FdTable) : List RefSlot := (range t.maxSlots).map (.desc a)

theorem nodup_tableSlots (a : ℕ) (t : FdTable) : (tableSlots a t).Nodup := by
  refine List.Nodup.map (fun i j hij => ?_) nodup_range
  simpa using hij

theorem mem_tableSlots {b : ℕ} : RefSlot.desc b fd ∈ tableSlots a t ↔ fd < t.maxSlots ∧ b = a := by
  simp only [tableSlots, List.mem_map, mem_range, RefSlot.desc.injEq]
  constructor
  · rintro ⟨i, hi, rfl, rfl⟩
    exact ⟨hi, rfl⟩
  · rintro ⟨hi, rfl⟩
    exact ⟨fd, hi, rfl, rfl⟩

theorem heldBy_tableSlots (h : s.tables a = some st)
    (f : Ref) : heldBy s.slot (tableSlots a st.tab) f = tableRefs st.tab f := by
  rw [heldBy, tableSlots, List.map_map]
  refine congrArg List.sum (map_congr_left fun i _ => ?_)
  rw [comp_apply, slot_desc h]

theorem slot_overlay (hwf : FdWf st.tab)
    (hnone : s.tables a = none) (htables : s'.tables = update s.tables a (some st))
    (hepolls : s'.epolls = s.epolls) (r : RefSlot) :
    s'.slot r = overlay s.slot s'.slot (tableSlots a st.tab) r ∧
      s.slot r = overlay s'.slot (fun _ => none) (tableSlots a st.tab) r := by
  have hst : s'.tables a = some st := by rw [htables, update_self]
  have hin : r ∈ tableSlots a st.tab → s.slot r = none := by
    intro hr
    obtain ⟨i, -, rfl⟩ := mem_map.1 hr
    simp [slot, hnone]
  have hout : r ∉ tableSlots a st.tab → s'.slot r = s.slot r := by
    intro hr
    cases r with
    | watch b fd => simp only [slot, hepolls]
    | desc b fd =>
      by_cases hb : b = a
      · subst hb
        have hfree : fdMap st.tab fd = none := by
          by_contra hne
          exact hr (mem_tableSlots.2 ⟨(hwf.used_lt fd hne).1, rfl⟩)
        rw [slot_desc hst, hfree]
        simp [slot, hnone]
      · simp [slot, htables, hb]
  by_cases hr : r ∈ tableSlots a st.tab
  · simp [overlay, hr, hin hr]
  · simp [overlay, hr, hout hr]

theorem RefInv.takeTable (h : RefInv s' x) (hwf : FdWf st.tab) (hst : s'.tables a = some st)
    (htables : s.tables = update s'.tables a none) (hepolls : s.epolls = s'.epolls)
    (hpipes : s.pipes = s'.pipes) : RefInv s fun f => x f + tableRefs st.tab f := by
  have hnone : s.tables a = none := by rw [htables, update_self]
  have hback : s'.tables = update s.tables a (some st) := by
    rw [htables, update_idem, ← hst, update_eq_self]
  have hevict := h.counted.evict (nodup_tableSlots a st.tab)
  refine h.of_slots hepolls hpipes (hevict.congr
    (fun r => (slot_overlay hwf hnone hback hepolls.symm r).2) fun f => ?_)
  rw [heldBy_tableSlots hst]

theorem RefInv.putTable
    (h : RefInv s fun f => x f + tableRefs st.tab f) (hwf : FdWf st.tab) (hnone : s.tables a = none)
    (htables : s'.tables = update s.tables a (some st)) (hepolls : s'.epolls = s.epolls)
    (hpipes : s'.pipes = s.pipes) : RefInv s' x := by
  have hst : s'.tables a = some st := by rw [htables, update_self]
  have hin : Counted s.slot (fun f => x f + heldBy s'.slot (tableSlots a st.tab) f) s.openCount :=
    h.counted.congr (fun _ => rfl) fun f => by rw [heldBy_tableSlots hst]
  refine h.of_slots hepolls hpipes ((hin.install (nodup_tableSlots a st.tab) fun r hr => ?_).congr
    (fun r => (slot_overlay hwf hnone htables hepolls r).1) fun _ => rfl)
  obtain ⟨i, -, rfl⟩ := mem_map.1 hr
  simp [slot, hnone]

/-! ## Copying a table -/

/-- The references of the first `k` descriptors of a table. -/
def prefixRefs (t : FdTable) (k : ℕ) (f : Ref) : ℕ :=
  ((range k).map fun i => one ((fdMap t i).bind entryRef) f).sum

theorem prefixRefs_succ (t : FdTable) (k : ℕ) (f : Ref) :
    prefixRefs t (k + 1) f = prefixRefs t k f + one ((fdMap t k).bind entryRef) f := by
  simp [prefixRefs, range_succ]

variable {n : ℕ}

theorem sum_range_stable {g : ℕ → ℕ} {m : ℕ} (h : m ≤ n) (hz : ∀ i, m ≤ i → i < n → g i = 0) :
    ((range n).map g).sum = ((range m).map g).sum := by
  induction n, h using Nat.le_induction with
  | base => rfl
  | succ n hmn ih =>
    rw [range_succ, map_append, sum_append, ih fun i hi hin => hz i hi (by omega)]
    simp [hz n hmn (by omega)]

/-- Where the copy of a table stands: the first `k` entries are there, and the references
for them have been taken. -/
structure DupState (s : Files) (parent : FdTable) (n k : ℕ) (x : Ref → ℕ) (child : FdTable)
    (s' : Files) : Prop where
  le : k ≤ n
  wf : FdWf { child with maxFd := n }
  map : fdMap child = fun i => if i < k then fdMap parent i else none
  room : ∀ i < n, fdMap parent i ≠ none → i < child.maxSlots
  refs : RefInv s' fun f => x f + prefixRefs parent k f
  tables : s'.tables = s.tables
  holders : s'.holders = s.holders
  fewer : Fewer s s'

theorem tables_fdObjIncref (s : Files) (e : FdEntry) : SameTables s (fdObjIncref s e) := by
  unfold fdObjIncref
  split
  · exact ⟨rfl, rfl⟩
  · split <;> exact ⟨rfl, rfl⟩
  · exact ⟨rfl, rfl⟩

variable {child : FdTable}

theorem DupState.tableRefs_eq {parent : FdTable}
    (h : DupState s parent n k x child s') (f : Ref) :
    tableRefs child f = prefixRefs parent k f := by
  have hmap : ∀ i, i < k → fdMap child i = fdMap parent i := fun i hi => by simp [h.map, hi]
  have hnone : ∀ i, k ≤ i → fdMap child i = none := fun i hi => by
    simp [h.map, not_lt.2 hi]
  have hfull : ∀ i, i < k → child.maxSlots ≤ i → fdMap parent i = none := by
    intro i hik hi
    by_contra hne
    have hlt := h.room i (by have := h.le; omega) hne
    omega
  calc tableRefs child f
      = ((range (min child.maxSlots k)).map fun i =>
          one ((fdMap child i).bind entryRef) f).sum := by
        refine sum_range_stable (min_le_left _ _) fun i hi hlt => ?_
        rw [hnone i (by omega)]
        rfl
    _ = ((range (min child.maxSlots k)).map fun i =>
          one ((fdMap parent i).bind entryRef) f).sum := by
        refine congrArg sum (map_congr_left fun i hi => ?_)
        rw [hmap i (by have := mem_range.1 hi; omega)]
    _ = prefixRefs parent k f := by
        refine (sum_range_stable (min_le_right _ _) fun i hi hlt => ?_).symm
        rw [hfull i hlt (by omega)]
        rfl

theorem fdLeafAlloc_maxFd (t : FdTable) (n fd : ℕ) (mem : FdMem) :
    fdLeafAlloc { t with maxFd := n } fd mem
      = ((fdLeafAlloc t fd mem).1, { (fdLeafAlloc t fd mem).2 with maxFd := n }) := by
  unfold fdLeafAlloc
  dsimp only
  split
  · rfl
  · split <;> rfl

theorem fdLeafAlloc_slots (t : FdTable) (fd : ℕ) (mem : FdMem) :
    (fdLeafAlloc t fd mem).2.maxSlots = t.maxSlots ∧
      ∀ err, (fdLeafAlloc t fd mem).1 = .error err → (fdLeafAlloc t fd mem).2 = t := by
  unfold fdLeafAlloc
  dsimp only
  split
  · exact ⟨rfl, fun _ _ => rfl⟩
  · split
    · exact ⟨rfl, fun _ _ => rfl⟩
    · exact ⟨rfl, fun _ h => by cases h⟩

theorem DupState.step
    (h : DupState s st.tab n k x child s') (hst : s.tables a = some st) (hk : k < n)
    (leaf : ℕ → Bool) :
    ∃ ok child' s'', dupFdStep st.tab leaf (true, child, s') k = (ok, child', s'') ∧
      DupState s st.tab n (if ok then k + 1 else k) x child' s'' := by
  have hentry : (fdEntryAt st.tab k).filter (·.type ≠ .NONE) = fdMap st.tab k := rfl
  simp only [dupFdStep, hentry]
  cases he : fdMap st.tab k with
  | none =>
    refine ⟨true, child, s', rfl, ⟨hk, h.wf, ?_, h.room, ?_, h.tables, h.holders, h.fewer⟩⟩
    · funext i
      rw [h.map]
      by_cases hik : i = k
      · subst hik
        simp [he]
      · simp only [if_true]
        split_ifs <;> first | rfl | omega
    · refine h.refs.hand fun f => ?_
      rw [if_pos rfl, prefixRefs_succ, he]
      rfl
  | some e =>
    have hroom := h.room k hk (by simp [he])
    have hne : e.type ≠ .NONE := by
      have hfilter := filter_eq_some_iff.1 (hentry.trans he)
      simpa using hfilter.2
    have hslots := fdLeafAlloc_slots child k ⟨true, true, leaf k⟩
    have hshift := fdLeafAlloc_maxFd child n k ⟨true, true, leaf k⟩
    -- the turn is a store into the table whose `max_fd` is already the final one
    obtain ⟨r, t, ht, hwf, hok, -⟩ := fdStore_any h.wf hroom hne ⟨true, true, leaf k⟩
    rw [fdStore, hshift] at ht
    cases hc : fdLeafAlloc child k ⟨true, true, leaf k⟩ with
    | mk r0 c0 =>
      rw [hc] at ht hslots
      cases r0 with
      | error err =>
        obtain rfl : c0 = child := hslots.2 err rfl
        exact ⟨false, c0, s', rfl, h⟩
      | ok u =>
        simp only [fdMarkUsed, setEntry, ge_iff_le, not_le.2 hk, if_false] at ht
        obtain ⟨rfl, rfl⟩ := Prod.mk.inj ht
        refine ⟨true, _, _, rfl, ⟨hk, hwf, ?_, ?_, ?_, ?_, ?_, ?_⟩⟩
        · refine Eq.trans (fdMap_congr rfl) ((hok rfl).trans ?_)
          rw [fdMap_congr (show ({ child with maxFd := n } : FdTable).entriesDir = child.entriesDir
            from rfl), h.map]
          funext i
          by_cases hik : i = k
          · subst hik
            simp [he]
          · simp only [update_of_ne hik, if_true]
            split_ifs <;> first | rfl | omega
        · intro i hi hne
          have hlt := h.room i hi hne
          exact hslots.1 ▸ hlt
        · have hlive : ∀ f, entryRef e = some f → s'.openCount f ≠ 0 := by
            intro f hf
            have hslot : s'.slot (.desc a k) = some f := by
              rw [slot_desc (h.tables ▸ hst), he, bind_some, hf]
            exact ne_of_gt (h.refs.counted.pos hslot)
          refine (h.refs.incref hlive).hand fun f => ?_
          rw [if_pos rfl, prefixRefs_succ, he, bind_some, add_assoc]
        · exact (tables_fdObjIncref s' e).2.trans h.tables
        · exact (tables_fdObjIncref s' e).1.trans h.holders
        · exact h.fewer.trans (fewer_fdObjIncref s' e)

theorem DupState.loop
    (h : DupState s st.tab n 0 x child s') (hst : s.tables a = some st) (leaf : ℕ → Bool) (k : ℕ)
    (hk : k ≤ n) :
    ∃ ok child' s'', (range k).foldl (dupFdStep st.tab leaf) (true, child, s')
        = (ok, child', s'') ∧
      ∃ m, (ok = true → m = k) ∧ DupState s st.tab n m x child' s'' := by
  induction k with
  | zero => exact ⟨true, child, s', rfl, 0, fun _ => rfl, h⟩
  | succ k ih =>
    obtain ⟨ok, c, t, hfold, m, hm, hstate⟩ := ih (by omega)
    rw [range_succ, foldl_append, hfold]
    cases ok with
    | false => exact ⟨false, c, t, rfl, m, by simp, hstate⟩
    | true =>
      obtain rfl := hm rfl
      obtain ⟨ok, c', t', hstep, hstate'⟩ := hstate.step hst hk leaf
      refine ⟨ok, c', t', hstep, _, fun hok => ?_, hstate'⟩
      rw [hok, if_pos rfl]

/-- What `dup_fd_table` leaves: a table whose references are in hand, complete when it
reports success. -/
structure DupOutcome (s : Files) (parent : FdTable) (n : ℕ) (x : Ref → ℕ)
    (r : Bool × FdTable × Files) : Prop where
  refs : RefInv r.2.2 fun f => x f + tableRefs r.2.1 f
  tables : r.2.2.tables = s.tables
  holders : r.2.2.holders = s.holders
  fewer : Fewer s r.2.2
  full : r.1 = true → FdWf r.2.1 ∧ fdMap r.2.1 = fun i => if i < n then fdMap parent i else none

theorem tableRefs_of_unused (h : fdMap t = fun _ => none) (f : Ref) : tableRefs t f = 0 := by
  simp [tableRefs, h]

theorem dupFdTable_outcome (h : RefInv s x)
    (hst : s.tables a = some st) (hwf : FdWf st.tab) (rlim : ℕ) (mem : FdMem) (leaf : ℕ → Bool) :
    DupOutcome s st.tab (dupCopyEnd st.tab rlim) x (dupFdTable s st.tab rlim mem leaf) := by
  set n := dupCopyEnd st.tab rlim with hn
  set want := min (doubleUntil n 32 fdInitSlots) fdCeiling with hwant
  have hle : want ≤ fdCeiling := by omega
  obtain ⟨r, child, hgrow, hgrown, hroom⟩ := fdTableGrow_any fdWf_empty hle mem
  have hmap : fdMap child = fun _ => none := hgrown.map
  simp only [dupFdTable, ← hn, ← hwant, hgrow]
  cases r with
  | error err =>
    refine ⟨?_, rfl, rfl, .refl s, by simp⟩
    refine h.hand fun f => ?_
    rw [tableRefs_of_unused hmap, add_zero]
  | ok u =>
    have hfits : ∀ i < n, fdMap st.tab i ≠ none → i < child.maxSlots := by
      intro i hi hne
      have hceil := (hwf.used_lt i hne).1
      have hmax := hwf.ceil
      have hmin := hroom rfl
      have hdouble := min_le_doubleUntil n 32 fdInitSlots
      have hconst : fdInitSlots * 2 ^ 32 = 274877906944 ∧ fdCeiling = 1048576 := ⟨rfl, rfl⟩
      omega
    have hstart : DupState s st.tab n 0 x child s := by
      refine ⟨Nat.zero_le n, ?_, ?_, hfits, ?_, rfl, rfl, .refl s⟩
      · have hw := hgrown.wf
        refine ⟨hw.ceil, hw.dir, hw.dirSmall, hw.words, hw.free_iff, fun i hi => absurd ?_ hi⟩
        exact congrFun hmap i
      · simp [hmap]
      · exact h
    obtain ⟨ok, c, t, hfold, m, hm, hstate⟩ := hstart.loop hst leaf n (le_refl n)
    dsimp only
    rw [hfold]
    have hrefs : RefInv t fun f => x f + tableRefs c f :=
      hstate.refs.hand fun f => by rw [hstate.tableRefs_eq]
    cases ok with
    | false => exact ⟨hrefs, hstate.tables, hstate.holders, hstate.fewer, by simp⟩
    | true =>
      obtain rfl := hm rfl
      exact ⟨hrefs, hstate.tables, hstate.holders, hstate.fewer, fun _ => ⟨hstate.wf, hstate.map⟩⟩

end CosmoRT.Event
