import CosmoRT.Lib.HashTable
import CosmoRT.Lib.Run
import Mathlib.Data.List.Count
import Mathlib.Tactic.Ring

/-!
# The page cache of `page_cache.c`

A hash table from `(inode, offset)` to a page frame, with one reference of its own
on every frame it holds.  `page_cache_get_or_load` looks the page up under the
lock, loads it outside the lock when it is not there, and then, under the lock
again, inserts it or takes the page of a racing winner.  Each locked section is
one step here, so that any number of calls can be under way at once; eviction and
invalidation unlink entries under the lock and drop their references afterwards.

* `page_cache_identity` — as long as no inode number is loaded from two backends,
  every call returns the page it asked for, no key is cached twice and each entry
  holds one reference.
* `page_cache_other_backend` — two files with one inode number share an entry.
-/

namespace CosmoRT.Mm

open Function Lib List

/-! ## The table -/

/-- `pc_entry_t`, without its link. -/
structure PcEntry where
  ino : ℕ
  offset : ℕ
  phys : ℕ
  deriving DecidableEq, Repr

/-- `PC_HASH_SIZE`. -/
abbrev pcHashSize : ℕ := 4096

/-- The key the lookup compares. -/
def PcEntry.key (e : PcEntry) : ℕ × ℕ := (e.ino, e.offset)

/-- `pc_hash_fn`, in 64-bit arithmetic. -/
def pcHashFn (k : ℕ × ℕ) : ℕ :=
  (k.1 * 2654435761 + k.2 / 4096 * 2246822519) % 2 ^ 64 % pcHashSize

/-- `pc_find_locked`. -/
def pcFindLocked (t : ℕ → List PcEntry) (ino offset : ℕ) : Option PcEntry :=
  bucketFind pcHashFn PcEntry.key t (ino, offset)

/-- The entries of the table. -/
abbrev pcEntries (t : ℕ → List PcEntry) : List PcEntry := entries pcHashSize t

/-- `page_incref`: the counts are 16 bits wide. -/
def pageIncref (rc : ℕ → ℕ) (f : ℕ) : ℕ → ℕ := update rc f ((rc f + 1) % 2 ^ 16)

/-- `page_free` on the counts; a count that gets to 0 frees the frame. -/
def pageFree (rc : ℕ → ℕ) (f : ℕ) : ℕ → ℕ :=
  if rc f > 1 then update rc f (rc f - 1) else update rc f 0

/-! ## Calls under way -/

/-- The arguments of `page_cache_get_or_load`. -/
structure PcCall where
  backend : ℕ
  ino : ℕ
  offset : ℕ
  deriving DecidableEq, Repr

/-- The cache, the frames, and the calls under way. -/
structure PcSys where
  table : ℕ → List PcEntry
  /-- `page_refcounts`. -/
  rc : ℕ → ℕ
  /-- The bytes of the frames. -/
  mem : ℕ → List UInt8
  /-- Calls that missed and have not allocated yet. -/
  missed : List PcCall
  /-- Calls that have loaded their tentative page. -/
  loaded : List (PcCall × ℕ)
  /-- Frames of unlinked entries whose reference is still to be dropped. -/
  pending : List ℕ
  /-- What calls have returned, with the caller's reference, until it is dropped. -/
  returned : List (PcCall × ℕ)

/-- The steps of the calls. -/
inductive PcOp where
  /-- The first locked section of `page_cache_get_or_load`. -/
  | lookup (c : PcCall)
  /-- The allocation and the read, outside the lock. -/
  | load (c : PcCall) (frame : Option ℕ)
  /-- The second locked section; `slab` says whether there is memory for an entry. -/
  | finish (c : PcCall) (frame : ℕ) (slab : Bool)
  /-- The locked section of `page_cache_remove`. -/
  | remove (ino offset : ℕ)
  /-- The locked section of `page_cache_invalidate_ino`. -/
  | invalidateIno (ino : ℕ)
  /-- A `page_free` of an unlinked entry's frame. -/
  | drop (frame : ℕ)
  /-- A `page_free` by a caller of the page it got. -/
  | release (c : PcCall) (frame : ℕ)
  deriving DecidableEq, Repr

/-- The bytes a file gives to `vfs_pread_by_ino(backend, ino, …, offset, 4096)`, or
`none` for an error. -/
abbrev FileBytes := ℕ → ℕ → ℕ → Option (List UInt8)

/-- A loaded page: what was read, and zeros behind a short read. -/
def pageAt (file : FileBytes) (c : PcCall) : Option (List UInt8) :=
  (file c.backend c.ino c.offset).map fun bytes => bytes ++ replicate (4096 - bytes.length) 0

/-- One step.  A step of a call that is not there, or an allocation of a frame that
is in use, does nothing. -/
def pcNext (file : FileBytes) (s : PcSys) : PcOp → PcSys
  | .lookup c =>
    match pcFindLocked s.table c.ino c.offset with
    | some e =>
      { s with rc := pageIncref s.rc e.phys, returned := (c, e.phys) :: s.returned }
    | none => { s with missed := c :: s.missed }
  | .load c frame =>
    if c ∈ s.missed then
      match frame with
      | none => { s with missed := s.missed.erase c }
      | some f =>
        if s.rc f ≠ 0 then s
        else
          match pageAt file c with
          | none => { s with missed := s.missed.erase c
                             mem := update s.mem f (replicate 4096 0)
                             rc := pageFree (update s.rc f 1) f }
          | some bytes => { s with missed := s.missed.erase c
                                   mem := update s.mem f bytes
                                   rc := update s.rc f 1
                                   loaded := (c, f) :: s.loaded }
    else s
  | .finish c f slab =>
    if (c, f) ∈ s.loaded then
      let s := { s with loaded := s.loaded.erase (c, f) }
      if slab = false then
        -- no memory for an entry: the page goes to the caller past the cache
        { s with rc := pageFree (pageIncref s.rc f) f, returned := (c, f) :: s.returned }
      else
        match pcFindLocked s.table c.ino c.offset with
        | some winner =>
          { s with rc := pageFree (pageIncref s.rc winner.phys) f
                   returned := (c, winner.phys) :: s.returned }
        | none =>
          { s with rc := pageIncref s.rc f
                   table := bucketPush pcHashFn PcEntry.key s.table ⟨c.ino, c.offset, f⟩
                   returned := (c, f) :: s.returned }
    else s
  | .remove ino offset =>
    match pcFindLocked s.table ino offset with
    | some e => { s with table := bucketErase pcHashFn PcEntry.key s.table (ino, offset)
                         pending := e.phys :: s.pending }
    | none => s
  | .invalidateIno ino =>
    { s with table := fun i => (s.table i).filter fun e => !decide (e.ino = ino)
             pending := ((pcEntries s.table).filter fun e => decide (e.ino = ino)).map
               (·.phys) ++ s.pending }
  | .drop f =>
    if f ∈ s.pending then { s with rc := pageFree s.rc f, pending := s.pending.erase f } else s
  | .release c f =>
    if (c, f) ∈ s.returned then
      { s with rc := pageFree s.rc f, returned := s.returned.erase (c, f) }
    else s

/-! ## References -/

/-- The references on a frame that the cache and its calls hold. -/
def pcRefs (s : PcSys) (f : ℕ) : ℕ :=
  (pcEntries s.table).countP (·.phys = f) + s.loaded.countP (·.2 = f) + s.pending.count f +
    s.returned.countP (·.2 = f)

theorem pageIncref_apply {rc : ℕ → ℕ} {f : ℕ} (h : rc f < 65535) (g : ℕ) :
    pageIncref rc f g = rc g + if f = g then 1 else 0 := by
  rw [pageIncref, update_apply]
  by_cases hg : g = f
  · subst hg
    rw [if_pos rfl, if_pos rfl, Nat.mod_eq_of_lt (by omega)]
  · rw [if_neg hg, if_neg (fun h => hg h.symm), Nat.add_zero]

theorem pageFree_apply {rc : ℕ → ℕ} {f : ℕ} (h : 0 < rc f) (g : ℕ) :
    pageFree rc f g + (if f = g then 1 else 0) = rc g := by
  by_cases hg : f = g
  · subst hg
    rw [if_pos rfl, pageFree]
    split
    · rw [update_self]
      omega
    · rw [update_self]
      omega
  · rw [pageFree]
    split <;> rw [update_of_ne (fun h => hg h.symm), Nat.add_zero]

theorem countP_erase_of_mem {α : Type*} [BEq α] [LawfulBEq α] {l : List α} {a : α} (h : a ∈ l)
    (p : α → Bool) : (l.erase a).countP p + (if p a then 1 else 0) = l.countP p := by
  by_cases hp : p a = true
  · have hpos : 0 < l.countP p := countP_pos_iff.2 ⟨a, h, hp⟩
    rw [countP_erase, if_pos ⟨h, hp⟩, if_pos hp]
    omega
  · rw [countP_erase, if_neg (fun hap => hp hap.2), if_neg hp]
    omega

theorem pcHashFn_lt (k : ℕ × ℕ) : pcHashFn k < pcHashSize := Nat.mod_lt _ (by decide)

/-- The invariant of the cache, when `home ino` is the one backend that inode
number is loaded from and `base` counts the references held elsewhere. -/
structure PcInv (file : FileBytes) (home base : ℕ → ℕ) (s : PcSys) : Prop where
  filed : Filed pcHashSize pcHashFn PcEntry.key s.table
  count : ∀ f, s.rc f = base f + pcRefs s f
  cached : ∀ e ∈ pcEntries s.table,
    pageAt file ⟨home e.ino, e.ino, e.offset⟩ = some (s.mem e.phys)
  missed : ∀ c ∈ s.missed, c.backend = home c.ino
  loaded : ∀ c f, (c, f) ∈ s.loaded → c.backend = home c.ino ∧ pageAt file c = some (s.mem f)
  returned : ∀ c f, (c, f) ∈ s.returned → pageAt file c = some (s.mem f)

section Steps

variable {file : FileBytes} {home base : ℕ → ℕ} {s : PcSys}

section

variable (h : PcInv file home base s)
include h

variable {c : PcCall} {f : ℕ}

/-- The page of the entry that the lookup of a call finds is the page it asks for. -/
theorem PcInv.hit (hc : c.backend = home c.ino)
    {e : PcEntry} (he : pcFindLocked s.table c.ino c.offset = some e) :
    pageAt file c = some (s.mem e.phys) := by
  obtain ⟨hmem, hkey⟩ := bucketFind_some pcHashFn_lt he
  have hino : e.ino = c.ino ∧ e.offset = c.offset := by simpa [PcEntry.key] using hkey
  have hpage := h.cached e hmem
  rw [hino.1, hino.2, ← hc] at hpage
  exact hpage

/-- A frame that is free is not held by the cache or a call, and may be written to. -/
theorem PcInv.fill (hf : s.rc f = 0) (bytes : List UInt8) :
    (∀ e ∈ pcEntries s.table,
      pageAt file ⟨home e.ino, e.ino, e.offset⟩ = some (update s.mem f bytes e.phys)) ∧
    (∀ c g, (c, g) ∈ s.loaded →
      c.backend = home c.ino ∧ pageAt file c = some (update s.mem f bytes g)) ∧
    ∀ c g, (c, g) ∈ s.returned → pageAt file c = some (update s.mem f bytes g) := by
  have hzero := h.count f
  rw [pcRefs] at hzero
  have h1 : (pcEntries s.table).countP (·.phys = f) = 0 := by omega
  have h2 : s.loaded.countP (·.2 = f) = 0 := by omega
  have h3 : s.returned.countP (·.2 = f) = 0 := by omega
  rw [countP_eq_zero] at h1 h2 h3
  refine ⟨fun e he => ?_, fun c g hg => ?_, fun c g hg => ?_⟩
  · rw [update_of_ne (by simpa using h1 e he)]
    exact h.cached e he
  · rw [update_of_ne (by simpa using h2 (c, g) hg)]
    exact h.loaded c g hg
  · rw [update_of_ne (by simpa using h3 (c, g) hg)]
    exact h.returned c g hg

theorem PcInv.returned_cons (hpage : pageAt file c = some (s.mem f)) :
    ∀ c' g, (c', g) ∈ (c, f) :: s.returned → pageAt file c' = some (s.mem g) := by
  intro c' g hg
  rcases mem_cons.1 hg with heq | hold
  · obtain ⟨rfl, rfl⟩ := Prod.mk.inj heq
    exact hpage
  · exact h.returned c' g hold

theorem pcInv_lookup (hc : c.backend = home c.ino)
    (hroom : ∀ e, pcFindLocked s.table c.ino c.offset = some e → s.rc e.phys < 65535) :
    PcInv file home base (pcNext file s (.lookup c)) := by
  rw [pcNext]
  cases hfind : pcFindLocked s.table c.ino c.offset with
  | none =>
    refine ⟨h.filed, h.count, h.cached, fun c' hc' => ?_, h.loaded, h.returned⟩
    rcases mem_cons.1 hc' with rfl | hold
    · exact hc
    · exact h.missed c' hold
  | some e =>
    refine ⟨h.filed, fun f => ?_, h.cached, h.missed, h.loaded, h.returned_cons (h.hit hc hfind)⟩
    have hcount := h.count f
    simp only [pageIncref_apply (hroom e hfind), pcRefs, countP_cons, decide_eq_true_eq] at hcount ⊢
    omega

theorem pcInv_load (c : PcCall) (frame : Option ℕ) :
    PcInv file home base (pcNext file s (.load c frame)) := by
  unfold pcNext
  dsimp only
  split
  case isFalse => exact h
  case isTrue hmiss =>
    have hmissed : ∀ c' ∈ s.missed.erase c, c'.backend = home c'.ino :=
      fun c' hc' => h.missed c' (mem_of_mem_erase hc')
    cases frame with
    | none => exact ⟨h.filed, h.count, h.cached, hmissed, h.loaded, h.returned⟩
    | some f =>
      dsimp only
      split
      case isTrue => exact h
      case isFalse hfree =>
        have hf : s.rc f = 0 := by omega
        cases hpage : pageAt file c with
        | none =>
          obtain ⟨hcached, hloaded, hreturned⟩ := h.fill hf (replicate 4096 0)
          refine ⟨h.filed, fun g => ?_, hcached, hmissed, hloaded, hreturned⟩
          have hone : 0 < update s.rc f 1 f := by simp
          have hdrop := pageFree_apply hone g
          have hg := h.count g
          rw [update_apply] at hdrop
          simp only [pcRefs] at hg ⊢
          by_cases hgf : g = f
          · subst hgf
            simp only [if_true] at hdrop
            omega
          · rw [if_neg hgf, if_neg (fun h => hgf h.symm)] at hdrop
            omega
        | some bytes =>
          obtain ⟨hcached, hloaded, hreturned⟩ := h.fill hf bytes
          refine ⟨h.filed, fun g => ?_, hcached, hmissed, fun c' g hg => ?_, hreturned⟩
          · have hg := h.count g
            simp only [pcRefs, countP_cons, decide_eq_true_eq] at hg ⊢
            by_cases hgf : g = f
            · subst hgf
              rw [update_self, if_pos rfl]
              omega
            · rw [update_of_ne hgf, if_neg (fun h => hgf h.symm)]
              omega
          · rcases mem_cons.1 hg with heq | hold
            · obtain ⟨rfl, rfl⟩ := Prod.mk.inj heq
              dsimp only
              rw [update_self]
              exact ⟨h.missed c' hmiss, hpage⟩
            · exact hloaded c' g hold

theorem pcInv_finish {slab : Bool}
    (hroom : ∀ e, pcFindLocked s.table c.ino c.offset = some e → s.rc e.phys < 65535)
    (hroom' : s.rc f < 65535) : PcInv file home base (pcNext file s (.finish c f slab)) := by
  unfold pcNext
  dsimp only
  split
  case isFalse => exact h
  case isTrue hin =>
    have hloaded : ∀ c' g, (c', g) ∈ s.loaded.erase (c, f) →
        c'.backend = home c'.ino ∧ pageAt file c' = some (s.mem g) :=
      fun c' g hg => h.loaded c' g (mem_of_mem_erase hg)
    obtain ⟨hback, hpage⟩ := h.loaded c f hin
    have hcount : ∀ g, s.rc g = base g + ((pcEntries s.table).countP (·.phys = g) +
        (s.loaded.erase (c, f)).countP (·.2 = g) + s.pending.count g +
        s.returned.countP (·.2 = g)) + if f = g then 1 else 0 := by
      intro g
      have hg := h.count g
      have herase := countP_erase_of_mem hin fun x => decide (x.2 = g)
      simp only [pcRefs, decide_eq_true_eq] at hg herase
      omega
    have hheld : 0 < s.rc f := by
      have := hcount f
      rw [if_pos rfl] at this
      omega
    split
    case isTrue hslab =>
      refine ⟨h.filed, fun g => ?_, h.cached, h.missed, hloaded, h.returned_cons hpage⟩
      have hinc := pageIncref_apply hroom' g
      have hdec := @pageFree_apply (pageIncref s.rc f) f
        (by rw [pageIncref_apply hroom']; omega) g
      have hg := hcount g
      simp only [pcRefs, countP_cons, decide_eq_true_eq] at hg ⊢
      omega
    case isFalse hslab =>
      cases hfind : pcFindLocked s.table c.ino c.offset with
      | some winner =>
        refine ⟨h.filed, fun g => ?_, h.cached, h.missed, hloaded,
          h.returned_cons (h.hit hback hfind)⟩
        have hinc := pageIncref_apply (hroom winner hfind) g
        have hdec := @pageFree_apply (pageIncref s.rc winner.phys) f
          (by rw [pageIncref_apply (hroom winner hfind)]; omega) g
        have hg := hcount g
        simp only [pcRefs, countP_cons, decide_eq_true_eq] at hg ⊢
        omega
      | none =>
        have hnew := bucketFind_none h.filed hfind
        have hperm : (pcEntries (bucketPush pcHashFn PcEntry.key s.table
            ⟨c.ino, c.offset, f⟩)).Perm (⟨c.ino, c.offset, f⟩ :: pcEntries s.table) :=
          entries_push pcHashFn_lt _
        refine ⟨h.filed.push pcHashFn_lt hnew, fun g => ?_, fun e he => ?_, h.missed, hloaded,
          h.returned_cons hpage⟩
        · have hinc := pageIncref_apply hroom' g
          have hg := hcount g
          simp only [pcRefs, hperm.countP_eq, countP_cons, decide_eq_true_eq] at hg ⊢
          omega
        · rcases mem_cons.1 (hperm.mem_iff.1 he) with rfl | hold
          · rw [← hback]
            exact hpage
          · exact h.cached e hold

theorem pcInv_remove (ino offset : ℕ) :
    PcInv file home base (pcNext file s (.remove ino offset)) := by
  rw [pcNext]
  cases hfind : pcFindLocked s.table ino offset with
  | none => exact h
  | some e =>
    have hperm := entries_erase pcHashFn_lt hfind
    refine ⟨h.filed.erase pcHashFn_lt hfind, fun f => ?_, fun e' he' => ?_, h.missed, h.loaded,
      h.returned⟩
    · have hcount := h.count f
      simp only [pcRefs, pcEntries, hperm.countP_eq, countP_cons, count_cons,
        decide_eq_true_eq, beq_iff_eq] at hcount ⊢
      omega
    · exact h.cached e' (hperm.mem_iff.2 (mem_cons_of_mem _ he'))

theorem pcInv_invalidateIno (ino : ℕ) :
    PcInv file home base (pcNext file s (.invalidateIno ino)) := by
  rw [pcNext]
  refine ⟨h.filed.filter _, fun f => ?_, fun e he => ?_, h.missed, h.loaded, h.returned⟩
  · have hcount := h.count f
    have hsplit := countP_eq_countP_filter_add (pcEntries s.table)
      (fun e => decide (e.phys = f)) (fun e => decide (e.ino = ino))
    have hpend : (((pcEntries s.table).filter fun e => decide (e.ino = ino)).map (·.phys)).count f
        = ((pcEntries s.table).filter fun e => decide (e.ino = ino)).countP
          (fun e => decide (e.phys = f)) := by
      rw [count, countP_map]
      refine countP_congr fun e _ => ?_
      simp
    simp only [pcRefs, pcEntries, entries_filter, count_append] at hcount hsplit hpend ⊢
    omega
  · rw [pcEntries, entries_filter] at he
    exact h.cached e (mem_filter.1 he).1

theorem pcInv_drop (f : ℕ) : PcInv file home base (pcNext file s (.drop f)) := by
  rw [pcNext]
  split
  case isFalse => exact h
  case isTrue hin =>
    refine ⟨h.filed, fun g => ?_, h.cached, h.missed, h.loaded, h.returned⟩
    have hg := h.count g
    have herase := countP_erase_of_mem hin (· == g)
    have hheld : 0 < s.rc f := by
      have hf := h.count f
      have := count_pos_iff.2 hin
      simp only [pcRefs] at hf
      omega
    have hdec := pageFree_apply hheld g
    simp only [pcRefs, count, beq_iff_eq] at hg herase ⊢
    omega

theorem pcInv_release (c : PcCall) (f : ℕ) :
    PcInv file home base (pcNext file s (.release c f)) := by
  rw [pcNext]
  split
  case isFalse => exact h
  case isTrue hin =>
    refine ⟨h.filed, fun g => ?_, h.cached, h.missed, h.loaded,
      fun c' g hg => h.returned c' g (mem_of_mem_erase hg)⟩
    have hg := h.count g
    have herase := countP_erase_of_mem hin fun x => decide (x.2 = g)
    have hheld : 0 < s.rc f := by
      have hf := h.count f
      have hself := countP_erase_of_mem hin fun x => decide (x.2 = f)
      simp only [pcRefs, decide_true, if_true] at hf hself
      omega
    have hdec := pageFree_apply hheld g
    simp only [pcRefs, decide_eq_true_eq] at hg herase ⊢
    omega

end

end Steps

/-! ## Whole runs -/

/-- The conditions on a step: a call names the backend its inode number belongs to,
and no reference count is about to wrap. -/
def PcOpOk (home : ℕ → ℕ) (s : PcSys) : PcOp → Prop
  | .lookup c => c.backend = home c.ino ∧
      ∀ e, pcFindLocked s.table c.ino c.offset = some e → s.rc e.phys < 65535
  | .finish c f _ => s.rc f < 65535 ∧
      ∀ e, pcFindLocked s.table c.ino c.offset = some e → s.rc e.phys < 65535
  | _ => True

theorem pcInv_next {file : FileBytes} {home base : ℕ → ℕ} (s : PcSys) (op : PcOp)
    (h : PcInv file home base s) (hok : PcOpOk home s op) :
    PcInv file home base (pcNext file s op) := by
  cases op with
  | lookup c => exact pcInv_lookup h hok.1 hok.2
  | load c frame => exact pcInv_load h c frame
  | finish c f slab => exact pcInv_finish h hok.2 hok.1
  | remove ino offset => exact pcInv_remove h ino offset
  | invalidateIno ino => exact pcInv_invalidateIno h ino
  | drop f => exact pcInv_drop h f
  | release c f => exact pcInv_release h c f

/-- The empty cache, in a kernel whose other parts hold `base` references. -/
def pcStart (base : ℕ → ℕ) : PcSys := ⟨fun _ => [], base, fun _ => [], [], [], [], []⟩

/-- What the cache promises in every state. -/
structure PcPromise (file : FileBytes) (base : ℕ → ℕ) (s : PcSys) : Prop where
  /-- The frame a call returned holds the page it asked for. -/
  identity : ∀ c f, (c, f) ∈ s.returned → pageAt file c = some (s.mem f)
  /-- No two entries have one inode number and offset. -/
  unique : ((pcEntries s.table).map PcEntry.key).Nodup
  /-- Every entry, every tentative page, every reference still to be dropped and
  every returned page counts once. -/
  one_ref : ∀ f, s.rc f = base f + (pcEntries s.table).countP (·.phys = f) +
    s.loaded.countP (·.2 = f) + s.pending.count f + s.returned.countP (·.2 = f)

/-- **Page-cache identity.**  In every run of interleaved lookups, loads, inserts,
evictions and invalidations in which the calls for one inode number name one
backend and no 16-bit count is about to wrap, every returned frame holds the page
asked for, no key is cached twice, and each entry holds one reference. -/
theorem page_cache_identity (file : FileBytes) (home base : ℕ → ℕ) (ops : List PcOp)
    (hok : Along (pcNext file) (PcOpOk home) (pcStart base) ops) :
    PcPromise file base (run (pcNext file) (pcStart base) ops) := by
  have h0 : PcInv file home base (pcStart base) := by
    refine ⟨⟨?_, ?_⟩, ?_, ?_, ?_, ?_, ?_⟩ <;> simp [pcStart, pcRefs, pcEntries]
  have h := run_invariant pcInv_next h0 hok
  refine ⟨h.returned, h.filed.keys, fun f => ?_⟩
  rw [h.count f, pcRefs]
  omega

/-- A page loaded and then found again. -/
theorem page_cache_identity_hit :
    PcPromise (fun b _ _ => some [UInt8.ofNat b]) (fun _ => 0)
      (run (pcNext fun b _ _ => some [UInt8.ofNat b]) (pcStart fun _ => 0)
        [.lookup ⟨1, 5, 0⟩, .load ⟨1, 5, 0⟩ (some 7), .finish ⟨1, 5, 0⟩ 7 true,
          .lookup ⟨1, 5, 0⟩]) := by
  refine page_cache_identity _ (fun _ => 1) _ _ ⟨⟨rfl, ?_⟩, trivial, ⟨by decide, ?_⟩,
    ⟨rfl, ?_⟩, trivial⟩
  · exact fun e he => nomatch he
  · exact fun e he => nomatch he
  · intro e he
    obtain rfl : ⟨5, 0, 7⟩ = e := Option.some.inj he
    decide

/-- **Two backends, one inode number.**  Backend 1 loads inode 5; backend 2 asks for
its own inode 5 and is given backend 1's page. -/
theorem page_cache_other_backend :
    ¬ PcPromise (fun b _ _ => some [UInt8.ofNat b]) (fun _ => 0)
      (run (pcNext fun b _ _ => some [UInt8.ofNat b]) (pcStart fun _ => 0)
        [.lookup ⟨1, 5, 0⟩, .load ⟨1, 5, 0⟩ (some 7), .finish ⟨1, 5, 0⟩ 7 true,
          .lookup ⟨2, 5, 0⟩]) := by
  intro h
  have hid := congrArg (Option.map head?) (h.identity ⟨2, 5, 0⟩ 7 (by decide))
  exact absurd hid (by decide)

end CosmoRT.Mm
