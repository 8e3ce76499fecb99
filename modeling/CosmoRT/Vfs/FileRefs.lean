import CosmoRT.Event.Files
import CosmoRT.Lib.Ledger
import CosmoRT.Lib.Run
import CosmoRT.Proc.FdMap
import CosmoRT.Vfs.OpenFiles

/-!
# Who holds open file objects and descriptor tables

The reference count of an open file object is the number of descriptors and loop devices that
refer to it; that of a table is the number of processes that hold it.  `Refs` says so, with the
references that a call in progress has in hand.
-/

namespace CosmoRT.Vfs

open Function Lib List Option Desc

/-- Where a reference to an object is kept. -/
inductive Slot where
  | desc (table fd : ℕ)
  | loop (dev : ℕ)
  deriving DecidableEq

/-- The object a slot refers to. -/
def System.slot (s : System) : Slot → Option ℕ
  | .desc a fd => (s.tables a).bind fun t => (t.get fd).map file
  | .loop dev => s.loops dev

/-- The reference count of an object; 0 when there is none. -/
def System.refs (s : System) (a : ℕ) : ℕ := ((s.files a).map fun f => f.refcount.toNat).getD 0

/-- The table a process holds. -/
def System.holder (s : System) (pid : ℕ) : Option ℕ := (s.procs pid).bind Process.fds

def System.tableRefs (s : System) (a : ℕ) : ℕ :=
  ((s.tables a).map fun t => t.refcount.toNat).getD 0

/-- The references in hand, `x` to objects and `y` to tables, make the counts right. -/
structure Refs (s : System) (x y : ℕ → ℕ) : Prop where
  files : Counted s.slot x s.refs
  alive : ∀ a f, s.files a = some f → 1 ≤ f.refcount
  tables : Counted s.holder y s.tableRefs
  kept : ∀ a t, s.tables a = some t → 1 ≤ t.refcount

/-- The references that a list of slots makes. -/
def held (slots : List (Option Desc)) (a : ℕ) : ℕ :=
  (slots.map fun d => one (d.map file) a).sum

@[simp] theorem held_nil (a : ℕ) : held [] a = 0 := rfl

@[simp] theorem held_cons (d : Option Desc) (l : List (Option Desc)) (a : ℕ) :
    held (d :: l) a = one (d.map file) a + held l a := by
  simp [held]

section Counts

variable {s : System} {x x' y y' : ℕ → ℕ} {a : ℕ} {mem : Bool}

theorem refs_of_some {f : VfsFile} (h : s.files a = some f) : s.refs a = f.refcount.toNat := by
  rw [System.refs, h]
  rfl

theorem refs_of_none (h : s.files a = none) : s.refs a = 0 := by
  rw [System.refs, h]
  rfl

theorem Refs.file_of_slot (h : Refs s x y) {r : Slot} (hr : s.slot r = some a) :
    ∃ f, s.files a = some f := by
  have hpos := h.files.pos hr
  cases hf : s.files a with
  | none => rw [refs_of_none hf] at hpos; exact absurd hpos (lt_irrefl 0)
  | some f => exact ⟨f, rfl⟩

theorem Refs.file_of_hand (h : Refs s x y) (hx : 0 < x a) : ∃ f, s.files a = some f := by
  have hcount := h.files.count a
  cases hf : s.files a with
  | none => rw [refs_of_none hf] at hcount; omega
  | some f => exact ⟨f, rfl⟩

theorem Refs.setFile (h : Refs s x y) {o : Option VfsFile} {s' : System}
    (hfiles : s'.files = update s.files a o) (hslot : s'.slot = s.slot)
    (hholder : s'.holder = s.holder) (htables : s'.tables = s.tables)
    (halive : ∀ f, o = some f → 1 ≤ f.refcount)
    (hx : x a + (o.map fun f => f.refcount.toNat).getD 0 = x' a + s.refs a)
    (hrest : ∀ b, b ≠ a → x b = x' b) : Refs s' x' y where
  files := by
    rw [hslot]
    refine h.files.recount fun b => ?_
    by_cases hb : b = a
    · subst hb
      rw [System.refs, hfiles, update_self]
      exact hx
    · rw [System.refs, System.refs, hfiles, update_of_ne hb, hrest b hb]
  alive b f hb := by
    rw [hfiles, update_apply] at hb
    split at hb
    · exact halive f hb
    · exact h.alive b f hb
  tables := by
    have : s'.tableRefs = s.tableRefs := by
      funext b
      rw [System.tableRefs, System.tableRefs, htables]
    rw [hholder, this]
    exact h.tables
  kept := htables ▸ h.kept

theorem Refs.incref (h : Refs s x y) {f : VfsFile} (hf : s.files a = some f)
    (hx : ∀ b, x' b = x b + one (some a) b) : Refs (s.incref a) x' y := by
  have halive := h.alive a f hf
  refine h.setFile (a := a) (o := some { f with refcount := f.refcount + 1 }) ?_ rfl rfl rfl
    ?_ ?_ ?_
  · rw [System.incref, hf]
    rfl
  · intro g hg
    obtain rfl := some_inj.1 hg
    show 1 ≤ f.refcount + 1
    omega
  · have := hx a
    rw [one_self] at this
    rw [refs_of_some hf, map_some]
    show x a + (f.refcount + 1).toNat = _
    omega
  · intro b hb
    have := hx b
    rw [one_some, if_neg (Ne.symm hb)] at this
    omega

theorem Refs.drop (h : Refs s x y) (hx : ∀ b, x b = x' b + one (some a) b) :
    Refs (s.drop a mem) x' y := by
  have hxa : x a = x' a + 1 := by rw [hx a, one_self]
  have hrest : ∀ b, b ≠ a → x b = x' b := by
    intro b hb
    rw [hx b, one_some, if_neg (Ne.symm hb), add_zero]
  obtain ⟨f, hf⟩ := h.file_of_hand (show 0 < x a by omega)
  have halive := h.alive a f hf
  have hrefs := refs_of_some hf
  rw [System.drop, hf]
  dsimp only
  split_ifs with hlast
  · refine h.setFile (a := a) (o := none) rfl rfl rfl rfl (by simp) ?_ hrest
    simp only [map_none, getD_none]
    omega
  · refine h.setFile (a := a) (o := some { f with refcount := f.refcount - 1 }) rfl rfl rfl rfl
      ?_ ?_ hrest
    · intro g hg
      obtain rfl := some_inj.1 hg
      show 1 ≤ f.refcount - 1
      omega
    · show x a + (f.refcount - 1).toNat = _
      omega

variable {l : List (Option Desc)}

theorem increfAll_frame (s : System) (l : List (Option Desc)) :
    (s.increfAll l).tables = s.tables ∧ (s.increfAll l).procs = s.procs := by
  induction l generalizing s with
  | nil => exact ⟨rfl, rfl⟩
  | cons d l ih =>
    refine ⟨(ih _).1.trans ?_, (ih _).2.trans ?_⟩ <;> cases d <;> rfl

/-! ## Slots -/

theorem get_set (t : DescTable) (fd : ℕ) (d : Option Desc) (i : ℕ) :
    (t.set fd d).get i = if i = fd then d else t.get i := by
  unfold DescTable.get DescTable.set
  simp only [getD_eq_getElem?_getD, getElem?_set, length_append, length_replicate]
  by_cases hi : i = fd
  · subst hi
    rw [if_pos rfl, if_pos (by omega), if_pos rfl, getD_some]
  · rw [if_neg (Ne.symm hi), getElem?_append]
    split_ifs with hlt
    · rfl
    · rw [getElem?_replicate, getElem?_eq_none (by omega)]
      split_ifs <;> rfl

/-- A descriptor of `Proc.FdTable`. -/
def Desc.ofEntry (e : Proc.FdEntry) : Desc := ⟨e.obj, Event.hasFlag e.flags Event.oCloexec⟩

/-- A table of `Proc.FdTable` has these descriptors. -/
def DescTable.Shows (t : DescTable) (fdt : Proc.FdTable) : Prop :=
  ∀ fd, t.get fd = (Proc.fdMap fdt fd).map ofEntry

/-- What the calls of `Proc.FdTable` do to the list. -/
theorem DescTable.Shows.calls {t : DescTable} {fdt : Proc.FdTable} (h : t.Shows fdt)
    (hwf : Proc.FdWf fdt) (fd : ℕ) :
    t.get fd = (Proc.fdGet fdt fd).map ofEntry ∧ (t.set fd none).Shows (Proc.fdClose fdt fd).2 ∧
      ∀ e : Proc.FdEntry, e.type ≠ .NONE → fd < fdt.maxSlots → ∃ fdt',
        Proc.fdStore fdt fd e .ample = (.ok (), fdt') ∧
          (t.set fd (some (ofEntry e))).Shows fdt' := by
  have hset : ∀ {fdt' e}, Proc.fdMap fdt' = update (Proc.fdMap fdt) fd e →
      (t.set fd (e.map ofEntry)).Shows fdt' := by
    intro fdt' e hmap i
    rw [get_set, hmap, update_apply, h i]
    split_ifs <;> rfl
  refine ⟨by rw [Proc.fdGet_eq hwf, h], hset (Proc.fdClose_spec hwf fd).2, fun e he hfd => ?_⟩
  obtain ⟨fdt', heq, -, hmap⟩ := Proc.fdStore_spec hwf hfd he
  exact ⟨fdt', heq, hset hmap⟩

theorem slot_setTable (s : System) (a : ℕ) (o : Option DescTable) (r : Slot) :
    (s.setTable a o).slot r = match r with
      | .desc b fd => if b = a then o.bind fun t => (t.get fd).map file else s.slot (.desc b fd)
      | .loop dev => s.loops dev := by
  cases r with
  | loop dev => rfl
  | desc b fd =>
    simp only [System.slot, System.setTable, update_apply]
    split_ifs <;> rfl

variable {t : DescTable} {o : Option DescTable}

theorem Refs.setTable (h : Refs s x y) (hfiles : Counted (s.setTable a o).slot x' s.refs)
    (hkept : ∀ t, o = some t → 1 ≤ t.refcount)
    (hy : y a + (o.map fun t => t.refcount.toNat).getD 0 = y' a + s.tableRefs a)
    (hrest : ∀ b, b ≠ a → y b = y' b) : Refs (s.setTable a o) x' y' where
  files := hfiles
  alive := h.alive
  tables := by
    refine h.tables.recount fun b => ?_
    by_cases hb : b = a
    · subst hb
      simpa [System.tableRefs, System.setTable] using hy
    · simp [System.tableRefs, System.setTable, hb, hrest b hb]
  kept b t' hb := by
    simp only [System.setTable, update_apply] at hb
    split_ifs at hb with hba
    · exact hkept t' hb
    · exact h.kept b t' hb

theorem Refs.setSlot (h : Refs s x y) (ht : s.tables a = some t) {fd : ℕ} {d : Option Desc}
    (hx : ∀ b, x b + one ((t.get fd).map file) b = x' b + one (d.map file) b) :
    Refs (s.setTable a (some (t.set fd d))) x' y := by
  have hslot : (s.setTable a (some (t.set fd d))).slot =
      update s.slot (.desc a fd) (d.map file) := by
    funext r
    rw [slot_setTable]
    cases r with
    | loop dev => simp [System.slot]
    | desc b i =>
      by_cases hb : b = a
      · subst hb
        by_cases hi : i = fd
        · simp [hi, get_set]
        · simp [hi, get_set, System.slot, ht]
      · simp [hb]
  refine h.setTable ?_ (fun t' ht' => ?_) (by rw [System.tableRefs, ht]; rfl) fun _ _ => rfl
  · rw [hslot]
    refine h.files.set _ _ fun b => ?_
    rw [System.slot, ht]
    exact hx b
  · obtain rfl := some_inj.1 ht'
    exact h.kept a t ht

/-- The slots of a table. -/
def slotsOf (a : ℕ) (l : List (Option Desc)) : List Slot := (List.range l.length).map (Slot.desc a)

theorem nodup_slotsOf (a : ℕ) (l : List (Option Desc)) : (slotsOf a l).Nodup :=
  nodup_range.map fun _ _ h => (Slot.desc.inj h).2

theorem mem_slotsOf {r : Slot} : r ∈ slotsOf a l ↔ ∃ i < l.length, r = .desc a i := by
  simp only [slotsOf, List.mem_map, mem_range]
  constructor
  · rintro ⟨i, hi, rfl⟩
    exact ⟨i, hi, rfl⟩
  · rintro ⟨i, hi, rfl⟩
    exact ⟨i, hi, rfl⟩

theorem heldBy_slotsOf {σ : Slot → Option ℕ}
    (hσ : ∀ i, σ (.desc a i) = (l.getD i none).map file) (b : ℕ) :
    heldBy σ (slotsOf a l) b = held l b := by
  unfold heldBy held slotsOf
  congr 1
  refine ext_getElem (by simp) fun i h1 h2 => ?_
  have hi : i < l.length := by simpa using h2
  simp [hσ, getD_eq_getElem?_getD, hi]

theorem slot_overlay {τ : Slot → Option ℕ}
    (hin : ∀ i < l.length, (s.setTable a o).slot (.desc a i) = τ (.desc a i))
    (hout : ∀ i, l.length ≤ i → (s.setTable a o).slot (.desc a i) = s.slot (.desc a i)) :
    (s.setTable a o).slot = overlay s.slot τ (slotsOf a l) := by
  funext r
  rw [overlay]
  split_ifs with hr
  · obtain ⟨i, hi, rfl⟩ := mem_slotsOf.1 hr
    exact hin i hi
  · cases r with
    | loop dev => rfl
    | desc b i =>
      by_cases hb : b = a
      · subst hb
        exact hout i (Nat.le_of_not_lt fun hi => hr (mem_slotsOf.2 ⟨i, hi, rfl⟩))
      · simp [slot_setTable, hb]

theorem get_of_length_le {n : ℤ} {i : ℕ} (hi : l.length ≤ i) : (DescTable.mk l n).get i = none := by
  simp [DescTable.get, getElem?_eq_none hi]

section

variable (h : Refs s x y)
include h

theorem Refs.removeTable (ht : s.tables a = some t)
    (hlast : t.refcount = 1) (hy : ∀ b, y b = y' b + one (some a) b) :
    Refs (s.setTable a none) (fun b => x b + held t.slots b) y' := by
  have hslot : (s.setTable a none).slot = overlay s.slot (fun _ => none) (slotsOf a t.slots) := by
    refine slot_overlay (fun i _ => by simp [slot_setTable]) fun i hi => ?_
    simp [System.slot, System.setTable, ht, get_of_length_le hi]
  refine h.setTable ?_ (by simp) ?_ fun b hb => ?_
  · rw [hslot]
    refine (h.files.evict (nodup_slotsOf a t.slots)).congr (fun _ => rfl) fun b => ?_
    rw [heldBy_slotsOf fun i => ?_]
    rw [System.slot, ht]
    rfl
  · rw [hy a, System.tableRefs, ht]
    simp [hlast]
  · rw [hy b, one_some, if_neg (Ne.symm hb), add_zero]

theorem Refs.addTable (hnone : s.tables a = none)
    (hx : ∀ b, x b = x' b + held l b) (hy : ∀ b, y' b = y b + one (some a) b) :
    Refs (s.setTable a (some ⟨l, 1⟩)) x' y' := by
  have hslot := slot_overlay (s := s) (a := a) (o := some ⟨l, 1⟩) (l := l) (fun i _ => rfl)
    fun i hi => by simp [System.slot, System.setTable, hnone, get_of_length_le hi]
  refine h.setTable ?_ (fun t ht => ?_) ?_ fun b hb => ?_
  · rw [hslot]
    refine Counted.install (h.files.congr (fun _ => rfl) fun b => ?_) (nodup_slotsOf a l)
      fun r hr => ?_
    · rw [heldBy_slotsOf (fun i => by simp [slot_setTable, DescTable.get]), hx b]
    · obtain ⟨i, -, rfl⟩ := mem_slotsOf.1 hr
      rw [System.slot, hnone]
      rfl
  · obtain rfl := some_inj.1 ht
    exact Int.le_refl 1
  · rw [hy a, one_self, System.tableRefs, hnone]
    rfl
  · rw [hy b, one_some, if_neg (Ne.symm hb), add_zero]

theorem Refs.recountTable (ht : s.tables a = some t) {n : ℤ}
    (hn : 1 ≤ n) (hy : ∀ b,
      y b + one (some a) b * n.toNat = y' b + one (some a) b * t.refcount.toNat) :
    Refs (s.setTable a (some { t with refcount := n })) x y' := by
  have hslot : (s.setTable a (some { t with refcount := n })).slot = s.slot := by
    funext r
    rw [slot_setTable]
    cases r with
    | loop dev => rfl
    | desc b i =>
      by_cases hb : b = a
      · subst hb
        simp [System.slot, ht, DescTable.get]
      · simp [hb]
  refine h.setTable (hslot ▸ h.files) (fun t' ht' => ?_) ?_ fun b hb => ?_
  · obtain rfl := some_inj.1 ht'
    exact hn
  · simpa [System.tableRefs, ht] using hy a
  · simpa [one_some, Ne.symm hb] using hy b

theorem Refs.setProc {pid : ℕ} {p : Option Process}
    (hy : ∀ b, y b + one (s.holder pid) b = y' b + one (p.bind Process.fds) b) :
    Refs (s.setProc pid p) x y' where
  files := h.files
  alive := h.alive
  tables := by
    have hholder : (s.setProc pid p).holder =
        update s.holder pid (p.bind Process.fds) := by
      funext q
      simp only [System.holder, System.setProc, update_apply]
      split_ifs <;> rfl
    rw [hholder]
    exact h.tables.set pid _ hy
  kept := h.kept

theorem Refs.table_of_hand (hy : 0 < y a) : ∃ t, s.tables a = some t := by
  have hcount := h.tables.count a
  cases ht : s.tables a with
  | none =>
    rw [System.tableRefs, ht] at hcount
    simp only [map_none, getD_none] at hcount
    omega
  | some t => exact ⟨t, rfl⟩

end

end Counts

/-! ## Pieces of calls -/

/-- No references in hand: between calls. -/
def Settled (s : System) : Prop := Refs s (fun _ => 0) (fun _ => 0)

section Calls

variable {s : System} {pid : ℕ} {mem : Bool}

variable {p : Process} {ta : ℕ} {t : DescTable}

theorem of_running (h : s.running pid = some (p, ta, t)) :
    s.procs pid = some p ∧ p.fds = some ta ∧ s.tables ta = some t ∧ p.zombie = false := by
  unfold System.running at h
  cases hp : s.procs pid with
  | none => simp [hp] at h
  | some q =>
    cases hfds : q.fds with
    | none => simp [hp, hfds] at h
    | some b =>
      cases ht : s.tables b with
      | none => simp [hp, hfds, ht] at h
      | some u =>
        cases hz : q.zombie with
        | true => simp [hp, hfds, ht, hz] at h
        | false =>
          simp only [hp, hfds, ht, hz, Bool.false_eq_true, if_false, Option.some.injEq,
            Prod.mk.injEq] at h
          obtain ⟨rfl, rfl, rfl⟩ := h
          exact ⟨rfl, hfds, ht, hz⟩

theorem of_freshAt {α : Type} {at' : ℕ → Option α} {slab : Option ℕ} {a : ℕ}
    (h : freshAt at' slab = some a) : at' a = none := by
  have hmem := mem_filter_iff.1 (show a ∈ slab.filter _ from h)
  simpa using hmem.2

theorem of_free {fd : Option ℕ} {n : ℕ} (h : t.free fd = some n) : t.get n = none := by
  have hmem := mem_filter_iff.1 (show n ∈ fd.filter _ from h)
  simpa using hmem.2

theorem drop_setTable (s : System) (a : ℕ) (t : Option DescTable) (f : ℕ) (mem : Bool) :
    (s.setTable a t).drop f mem = (s.drop f mem).setTable a t := by
  unfold System.drop
  have hfiles : (s.setTable a t).files = s.files := rfl
  rw [hfiles]
  cases s.files f with
  | none => rfl
  | some g =>
    dsimp only
    split_ifs <;> rfl

section

variable {x y : ℕ → ℕ}

variable {fd : ℕ} {d : Desc} {f : VfsFile}

theorem Refs.closeSlot (h : Refs s x y) {a : ℕ}
    (ht : s.tables a = some t) (hd : t.get fd = some d) :
    Refs ((s.drop d.file mem).setTable a (some (t.set fd none))) x y := by
  rw [← drop_setTable]
  refine Refs.drop (x := fun b => x b + one (some d.file) b) ?_ fun b => rfl
  refine h.setSlot ht fun b => ?_
  rw [hd, map_some, map_none, one_none, add_zero]

theorem Refs.openSlot (h : Refs s x y) {a : ℕ} (ht : s.tables a = some t) (hfree : t.get fd = none)
    (hf : s.files d.file = some f) :
    Refs ((s.setTable a (some (t.set fd (some d)))).incref d.file) x y := by
  have hinc : Refs (s.incref d.file) (fun b => x b + one (some d.file) b) y :=
    h.incref hf fun b => rfl
  refine hinc.setSlot (show (s.incref d.file).tables a = some t from ht) fun b => ?_
  rw [hfree, map_none, one_none, map_some, add_zero]

theorem set_set (t : DescTable) (fd : ℕ) (d e : Option Desc) :
    (t.set fd d).set fd e = t.set fd e := by
  unfold DescTable.set
  simp only [length_set, length_append, length_replicate]
  rw [show fd + 1 - (t.slots.length + (fd + 1 - t.slots.length)) = 0 by omega,
    replicate_zero, append_nil, List.set_set]

theorem tables_vfsClose (hr : s.running pid = some (p, ta, t)) (fd : ℕ) (mem : Bool) :
    ∃ t', (vfsClose s pid fd mem).2.tables ta = some t' ∧ t'.get fd = none ∧
      (∀ i, i ≠ fd → t'.get i = t.get i) ∧ ∀ d, t'.set fd d = t.set fd d := by
  have ht := (of_running hr).2.2.1
  unfold Vfs.vfsClose
  rw [hr]
  dsimp only
  rcases hd : t.get fd with _ | d
  · exact ⟨t, ht, hd, fun _ _ => rfl, fun _ => rfl⟩
  · refine ⟨t.set fd none, ?_, ?_, fun i hi => ?_, fun e => set_set t fd none e⟩
    · simp [System.setTable]
    · rw [get_set, if_pos rfl]
    · rw [get_set, if_neg hi]

theorem Refs.counters (h : Refs s x y) (wc : ℕ → List (Counter WcKey))
    (opens : ℕ → List (Counter ℕ)) : Refs { s with wc, opens } x y :=
  ⟨h.files, h.alive, h.tables, h.kept⟩

theorem countExe_frame (s : System) (p : Process) (delta : ℤ) (mem : Bool) :
    (s.countExe p delta mem).procs = s.procs ∧ (s.countExe p delta mem).tables = s.tables := by
  unfold System.countExe
  split_ifs <;> exact ⟨rfl, rfl⟩

theorem Refs.countExe (h : Refs s x y) (p : Process) (delta : ℤ) :
    Refs (s.countExe p delta mem) x y := by
  unfold System.countExe
  split_ifs
  · exact h.counters _ s.opens
  · exact h

theorem procs_drop (s : System) (a : ℕ) (mem : Bool) : (s.drop a mem).procs = s.procs := by
  unfold System.drop
  rcases s.files a with _ | f
  · rfl
  · dsimp only
    split_ifs <;> rfl

theorem procs_dropAll (s : System) (mem : Bool) (l : List (Option Desc)) :
    (s.dropAll mem l).procs = s.procs := by
  induction l generalizing s with
  | nil => rfl
  | cons d l ih =>
    refine (ih _).trans ?_
    cases d with
    | none => rfl
    | some d => exact procs_drop s d.file mem

theorem procs_fdsPut (s : System) (fds : Option ℕ) (mem : Bool) :
    (fdsPut s fds mem).procs = s.procs := by
  unfold Vfs.fdsPut Vfs.fdTablePut
  rcases fds with _ | a
  · rfl
  dsimp only
  rcases s.tables a with _ | t
  · rfl
  dsimp only
  split_ifs
  · exact procs_dropAll _ mem t.slots
  · rfl

theorem Refs.setProc_same (h : Refs s x y) {q : Process} (hp : s.procs pid = some p)
    (hfds : q.fds = p.fds) : Refs (s.setProc pid (some q)) x y := by
  refine h.setProc fun b => ?_
  rw [System.holder, hp, bind_some, bind_some, hfds]

theorem Refs.newFile (h : Refs s x y) {a : ℕ} (hnone : s.files a = none) (hf : f.refcount = 1) :
    Refs { s with files := update s.files a (some f) } (fun b => x b + one (some a) b) y := by
  refine h.setFile (a := a) (o := some f) rfl rfl rfl rfl ?_ ?_ fun b hb => ?_
  · intro g hg
    obtain rfl := some_inj.1 hg
    exact hf.ge
  · rw [refs_of_none hnone, one_self, map_some, hf]
    rfl
  · rw [one_some, if_neg (Ne.symm hb), add_zero]

end

end Calls

end CosmoRT.Vfs
