import CosmoRT.Sys.Path

/-!
# Mounts: `vfs_mount_flags` and `vfs_resolve_mount` of `fs/vfs_mount.c`

The list of mounts is sorted by the length of the mount path, the newest first among equals, and
the first that matches is taken.  In terms of components that is the newest mount on the longest
prefix of the path.
-/

namespace CosmoRT.Vfs

open Lib Sys List

section Sorted

variable {α β : Type*} (key : α → ℕ)

/-- The largest key first. -/
abbrev Descends : α → α → Prop := Order.Preimage key (· ≥ ·)

/-- The first entry with `f` in a sorted list: none with `f` has a larger key, and none in front of
it in the list that was sorted has the same. -/
theorem exists_of_findSome_sort {f : α → Option β} {as : List α} {b : β}
    (h : (as.insertionSort (Descends key)).findSome? f = some b) :
    ∃ l a r, as = l ++ a :: r ∧ f a = some b ∧ (∀ x ∈ as, f x ≠ none → key x ≤ key a) ∧
      ∀ x ∈ l, f x ≠ none → key x < key a := by
  obtain ⟨l', a, r', hsplit, ha, hl'⟩ := findSome?_eq_some_iff.1 h
  have hsort := pairwise_insertionSort (Descends key) as
  have hperm := perm_insertionSort (Descends key) as
  have hle : ∀ x ∈ as, f x ≠ none → key x ≤ key a := fun x hx hfx => by
    rw [← hperm.mem_iff, hsplit, mem_append, mem_cons] at hx
    rw [hsplit, pairwise_append, pairwise_cons] at hsort
    rcases hx with hx | rfl | hx
    · exact absurd (hl' x hx) hfx
    · exact le_rfl
    · exact hsort.2.1.1 x hx
  -- the sort is stable
  let q x := decide (key x = key a ∧ f x ≠ none)
  have hq : as.filter q <+ as.insertionSort (Descends key) := by
    refine sublist_insertionSort ?_ filter_sublist
    refine pairwise_of_forall_mem_list fun x hx y hy => ?_
    simp_all [q, Descends, Order.Preimage]
  have hstable := (hq.filter q).eq_of_length (by simpa [q] using (hperm.filter q).length_eq.symm)
  have hfront : l'.filter q = [] := filter_eq_nil_iff.2 fun x hx => by simp [q, hl' x hx]
  have hpos : q a := by simp [q, ha]
  rw [filter_filter, hsplit, filter_append, hfront, filter_cons_of_pos hpos] at hstable
  obtain ⟨l, r, rfl, hl, -⟩ := filter_eq_cons_iff.1 (by simpa using hstable)
  refine ⟨l, a, r, rfl, ha, hle, fun x hx hfx => (hle x (by simp [hx]) hfx).lt_of_ne fun he => ?_⟩
  exact hl x hx (by simp [q, he, hfx])

end Sorted

/-! ## The mount list -/

variable {F : Type*}

/-- `struct mount`; `fs` stands for its flags, its operations and `fs_data`. -/
structure Mount (F : Type*) where
  path : Text
  pathlen : ℕ
  fs : F

/-- The path length without a slash at the end, unless it is the root. -/
def mountLen (path : Text) : ℕ :=
  if 1 < path.length ∧ path.getLast? = some slash then path.length - 1 else path.length

/-- `vfs_mount_flags`; `slab` says whether `slab_alloc` gives an entry.  It goes behind those with a
longer path. -/
def vfsMountFlags (slab : Bool) (path : Text) (fs : F) (ms : List (Mount F)) :
    Except Errno Unit × List (Mount F) :=
  if slab then
    (.ok (), ms.orderedInsert (Descends Mount.pathlen) ⟨path, mountLen path, fs⟩)
  else (.error .ENOMEM, ms)

/-- One turn of the loop of `vfs_resolve_mount`: `*relpath` if the mount is returned. -/
def Mount.relpath (m : Mount F) (abspath : Text) : Option Text :=
  if m.pathlen = 1 ∧ m.path.head? = some slash then some abspath
  else if abspath.take m.pathlen = m.path.take m.pathlen then
    let next := abspath.drop m.pathlen
    if next = [] then some [slash] else if next.head? = some slash then some next else none
  else none

/-- `vfs_resolve_mount`: the first entry of the table that matches. -/
def vfsResolveMount (abspath : Text) (ms : List (Mount F)) : Option (Mount F × Text) :=
  ms.findSome? fun m => (m.relpath abspath).map (m, ·)

/-! ## Components -/

/-- The components of a normalised absolute path. -/
abbrev Names := { cs : List Name // ∀ c ∈ cs, Plain c }

/-- A call of `vfs_mount`; `slab` says whether there is memory for the entry. -/
structure MountCall (F : Type*) where
  dir : Names
  fs : F
  slab : Bool

/-- The entry of the call. -/
def MountCall.mount (c : MountCall F) : Mount F := ⟨render c.dir, (render c.dir).length, c.fs⟩

/-- A sequence of calls, the last one first. -/
def mountAll : List (MountCall F) → List (Mount F)
  | [] => []
  | c :: cs => (vfsMountFlags c.slab (render c.dir) c.fs (mountAll cs)).2

theorem mountLen_render (cs : Names) : mountLen (render cs) = (render cs).length := by
  obtain ⟨cs, h⟩ := cs
  refine if_neg fun ⟨hlen, hlast⟩ => ?_
  rcases eq_nil_or_concat' cs with rfl | ⟨cs, c, rfl⟩
  · simp [render] at hlen
  · have hc := h c (by simp)
    obtain ⟨d, e, rfl⟩ := (eq_nil_or_concat' c).resolve_left hc.ne_nil
    refine hc.no_slash ?_
    have : e = slash := by simpa [render, getLast?_append, getLast?_cons] using hlast
    simp [this]

theorem mountAll_eq (calls : List (MountCall F)) :
    mountAll calls = ((calls.filter (·.slab)).map MountCall.mount).insertionSort
      (Descends Mount.pathlen) := by
  induction calls with
  | nil => rfl
  | cons c cs ih =>
    cases hc : c.slab
    · simp [mountAll, vfsMountFlags, hc, ih]
    · simp [mountAll, vfsMountFlags, hc, ih, MountCall.mount, mountLen_render]

theorem length_render_lt (cs : List Name) {ds : List Name} (hd : ∀ c ∈ ds, Plain c)
    (hne : ds ≠ []) : (render cs).length < (render (cs ++ ds)).length := by
  obtain ⟨d, ds, rfl⟩ := exists_cons_of_ne_nil hne
  have := length_pos_of_ne_nil (hd d (by simp)).ne_nil
  by_cases hcs : cs = [] <;> simp [render, hcs]
  omega

/-- A text that goes on behind some components at a separator goes on with components. -/
theorem exists_rest {cs ps : Names} {t : Text} (h : joined slash ps.1 = joined slash cs.1 ++ t)
    (ht : t = [] ∨ t.head? = some slash) : ∃ rest, ps.1 = cs.1 ++ rest ∧ t = joined slash rest := by
  obtain ⟨rest, rfl, hrest⟩ : ∃ rest, t = joined slash rest ∧ ∀ c ∈ rest, slash ∉ c := by
    rcases ht with rfl | ht
    · exact ⟨[], rfl, nofun⟩
    · obtain ⟨u, rfl⟩ := head?_eq_some_iff.1 ht
      exact ⟨_, (joined_splitOn u).symm, sep_notMem_of_mem_splitOn⟩
  rw [← joined_append] at h
  refine ⟨rest, joined_injective (fun c hc => (ps.2 c hc).no_slash) ?_ h, rfl⟩
  exact forall_mem_append.2 ⟨fun c hc => (cs.2 c hc).no_slash, hrest⟩

theorem relpath_mount (c : MountCall F) (path : Names) {rel : Text} :
    c.mount.relpath (render path) = some rel ↔
      ∃ rest, path.1 = c.dir ++ rest ∧ rel = render rest := by
  unfold Mount.relpath MountCall.mount
  by_cases hroot : c.dir.1 = []
  · simp [hroot, render, eq_comm]
  have hlong : (render []).length < (render c.dir).length := length_render_lt [] c.dir.2 hroot
  rw [if_neg fun h => hlong.ne' h.1, take_length]
  constructor
  · intro h
    have htext := take_append_drop (render c.dir).length (render path)
    dsimp only at h
    generalize (render path.1).drop (render c.dir).length = t at h htext
    obtain ⟨htake, hend, rfl⟩ : (render path).take (render c.dir).length = render c.dir ∧
        (t = [] ∨ t.head? = some slash) ∧ rel = if t = [] then [slash] else t := by
      split_ifs at h ⊢ <;> simp_all
    have hne : path.1 ≠ [] := fun hp => by
      have hlen := congrArg length htake
      rw [hp, length_take] at hlen
      omega
    rw [htake, render, if_neg hroot, render, if_neg hne] at htext
    obtain ⟨rest, hrest, rfl⟩ := exists_rest htext.symm hend
    refine ⟨rest, hrest, ?_⟩
    cases rest <;> simp [render]
  · rintro ⟨rest, hpath, rfl⟩
    have htext : render path.1 = render c.dir ++ joined slash rest := by
      simp [hpath, render, hroot]
    rw [htext, take_left, drop_left]
    cases rest <;> simp [render]

/-- **The innermost mount.** -/
theorem resolves_innermost (calls : List (MountCall F)) (path : Names) :
    (∀ m rel, vfsResolveMount (render path) (mountAll calls) = some (m, rel) →
      ∃ later c earlier rest, calls.filter (·.slab) = later ++ c :: earlier ∧ m = c.mount ∧
        path.1 = c.dir ++ rest ∧ rel = render rest ∧
        (∀ d ∈ calls, d.slab → d.dir.1 <+: path → d.dir.1.length ≤ c.dir.1.length) ∧
        ∀ d ∈ later, d.dir ≠ c.dir) ∧ (vfsResolveMount (render path) (mountAll calls) = none →
      ∀ d ∈ calls, d.slab → ¬ d.dir.1 <+: path) := by
  have hmatch (d : MountCall F) (hp : d.dir.1 <+: path) :
      (d.mount.relpath (render path)).map (d.mount, ·) ≠ none := by
    obtain ⟨rest, hrest⟩ := hp
    simp [(relpath_mount d path).2 ⟨rest, hrest.symm, rfl⟩]
  rw [mountAll_eq]
  refine ⟨fun m rel h => ?_, fun h d hd hslab hp => ?_⟩
  · obtain ⟨l, _, r, hsplit, hm, hlong, hlate⟩ := exists_of_findSome_sort _ h
    obtain ⟨rel', hrel, hpair⟩ := Option.map_eq_some_iff.1 hm
    obtain ⟨rfl, rfl⟩ := Prod.mk.inj hpair
    obtain ⟨later, rs, hcalls, rfl, hrs⟩ := map_eq_append_iff.1 hsplit
    obtain ⟨c, earlier, rfl, rfl, rfl⟩ := map_eq_cons_iff.1 hrs
    obtain ⟨rest, hpath, rfl⟩ := (relpath_mount c path).1 hrel
    have hpre : c.dir.1 <+: path := ⟨rest, hpath.symm⟩
    refine ⟨later, c, earlier, rest, hcalls, rfl, hpath, rfl, fun d hd hslab hp => ?_,
      fun d hd he => ?_⟩
    · rcases prefix_or_prefix_of_prefix hp hpre with hle | ⟨s, hs⟩
      · exact hle.length_le
      · have hle := hlong d.mount (mem_map_of_mem (mem_filter.2 ⟨hd, hslab⟩)) (hmatch d hp)
        have hnil : s = [] := by
          by_contra hne
          have hlt := length_render_lt c.dir (fun e he => d.dir.2 e (by simp [← hs, he])) hne
          rw [hs] at hlt
          exact hlt.not_ge hle
        simp [← hs, hnil]
    · have := hlate d.mount (mem_map_of_mem hd) (hmatch d (he ▸ hpre))
      simp [MountCall.mount, he] at this
  · refine hmatch d hp (findSome?_eq_none_iff.1 h _ ?_)
    exact (perm_insertionSort _ _).mem_iff.2 (mem_map_of_mem (mem_filter.2 ⟨hd, hslab⟩))

end CosmoRT.Vfs
