import CosmoRT.Fs.Bcache
import CosmoRT.Lib.Run

/-!
# The block cache is transparent

The cache with its backend behaves as a map from block numbers to contents.  `Sound` relates the
two: the chains file every valid entry under its block, the LRU list holds every entry (but for
one that is being re-keyed), no block has two entries, a valid entry holds the contents of its
block, and the backend differs from them only where a dirty entry exists.  Each call keeps it;
`evictOne` takes an entry out that nobody holds, so the clients' pointers stay good.
-/

namespace CosmoRT.Fs

open Function Lib List

variable {δ : Type*}

namespace Bcache

variable {c c' : Bcache δ} {store : ℕ → δ} {off : Option ℕ}

/-- The cache and its backend hold `store`; the entry `off` is out of the LRU list. -/
structure Sound (c : Bcache δ) (store : ℕ → δ) (off : Option ℕ) : Prop where
  chains : ∃ f, c.hash.Filed f ∧ ∀ h e, e ∈ f h ↔
    e < c.size ∧ c.blockNr e ≠ bcacheInvalid ∧ c.hashFn (c.blockNr e) = h
  order : ∃ xs, c.lru.Spells xs ∧ ∀ e, e ∈ xs ↔ e < c.size ∧ off ≠ some e
  unique : ∀ e < c.size, ∀ e' < c.size, c.blockNr e = c.blockNr e' →
    c.blockNr e ≠ bcacheInvalid → e = e'
  cached : ∀ e < c.size, c.blockNr e ≠ bcacheInvalid → c.data e = store (c.blockNr e)
  behind : ∀ b ≠ bcacheInvalid, c.disk b = store b ∨
    ∃ e < c.size, c.blockNr e = b ∧ c.dirty e = true
  free : ∀ e, off = some e → e < c.size ∧ c.blockNr e = bcacheInvalid

/-- Nothing that is held has changed. -/
structure Kept (c c' : Bcache δ) : Prop where
  size : c'.size = c.size
  refcount : c'.refcount = c.refcount
  block : ∀ e, c.refcount e ≠ 0 → c'.blockNr e = c.blockNr e

theorem Kept.refl (c : Bcache δ) : Kept c c := ⟨rfl, rfl, fun _ _ => rfl⟩

theorem Kept.trans {c1 c2 c3 : Bcache δ} (h : Kept c1 c2) (h' : Kept c2 c3) : Kept c1 c3 :=
  ⟨h'.size.trans h.size, h'.refcount.trans h.refcount, fun e he =>
    (h'.block e (h.refcount ▸ he)).trans (h.block e he)⟩

/-- The cache still holds `store` after a call, and the clients what they held. -/
abbrev Serves (store : ℕ → δ) (c c' : Bcache δ) : Prop := Sound c' store none ∧ Kept c c'

theorem Serves.trans {c1 c2 : Bcache δ} (hk : Kept c c1) (h : Serves store c1 c2) :
    Serves store c c2 :=
  ⟨h.1, hk.trans h.2⟩

/-! ## Finding -/

theorem length_le_of_lt {xs : List ℕ} {n : ℕ} (hnodup : xs.Nodup) (h : ∀ x ∈ xs, x < n) :
    xs.length ≤ n := by
  have := (hnodup.subperm fun x hx => mem_range.2 (h x hx)).length_le
  simpa using this

variable {b e : ℕ}

section

variable (h : Sound c store off)
include h

theorem Sound.hashFind_eq_some (hb : b ≠ bcacheInvalid) :
    c.hashFind b = some e ↔ e < c.size ∧ c.blockNr e = b := by
  obtain ⟨f, hf, hmem⟩ := h.chains
  have hlen : (f (c.hashFn b)).length ≤ c.size :=
    length_le_of_lt (hf.nodup _) fun x hx => ((hmem _ x).1 hx).1
  rw [hashFind, (hf.spells _).search _ hlen]
  constructor
  · intro hfind
    have hx := (hmem _ e).1 (mem_of_find?_eq_some hfind)
    exact ⟨hx.1, by simpa using find?_some hfind⟩
  · rintro ⟨he, rfl⟩
    cases hfind : (f (c.hashFn (c.blockNr e))).find? fun x => c.blockNr x = c.blockNr e with
    | none =>
      have := find?_eq_none.1 hfind e ((hmem _ e).2 ⟨he, hb, rfl⟩)
      simp at this
    | some x =>
      have hx := (hmem _ x).1 (mem_of_find?_eq_some hfind)
      have heq : c.blockNr x = c.blockNr e := by simpa using find?_some hfind
      rw [h.unique x hx.1 e he heq (heq ▸ hb)]

theorem Sound.hashFind_eq_none (hb : b ≠ bcacheInvalid) :
    c.hashFind b = none ↔ ∀ e < c.size, c.blockNr e ≠ b := by
  rw [Option.eq_none_iff_forall_ne_some]
  constructor
  · intro hn e he hbe
    exact hn e ((h.hashFind_eq_some hb).2 ⟨he, hbe⟩)
  · intro hn e he
    obtain ⟨hlt, hbe⟩ := (h.hashFind_eq_some hb).1 he
    exact hn e hlt hbe

theorem Sound.disk_eq (hb : b ≠ bcacheInvalid)
    (hn : ∀ e < c.size, c.blockNr e ≠ b) : c.disk b = store b := by
  rcases h.behind b hb with hd | ⟨e, he, hbe, -⟩
  · exact hd
  · exact absurd hbe (hn e he)

/-! ## Writing back -/

theorem Sound.writeBack (he : e < c.size) : Sound (c.writeBack e) store off := by
  unfold Bcache.writeBack
  split
  · refine ⟨h.chains, h.order, h.unique, h.cached, fun b hb => ?_, h.free⟩
    by_cases hbe : b = c.blockNr e
    · left
      subst hbe
      simp [setDirty, h.cached e he hb]
    · rcases h.behind b hb with hdisk | ⟨x, hx, hbx, hdx⟩
      · left
        simpa [setDirty, update_of_ne hbe] using hdisk
      · right
        have hxe : x ≠ e := by rintro rfl; exact hbe hbx.symm
        exact ⟨x, hx, hbx, by simpa [setDirty, update_of_ne hxe] using hdx⟩
  · exact h

end

@[simp] theorem writeBack_size (c : Bcache δ) (e : ℕ) : (c.writeBack e).size = c.size := by
  unfold Bcache.writeBack; split <;> rfl

@[simp] theorem writeBack_blockNr (c : Bcache δ) (e : ℕ) : (c.writeBack e).blockNr = c.blockNr := by
  unfold Bcache.writeBack; split <;> rfl

@[simp] theorem writeBack_refcount (c : Bcache δ) (e : ℕ) :
    (c.writeBack e).refcount = c.refcount := by
  unfold Bcache.writeBack; split <;> rfl

theorem writeBack_dirty (c : Bcache δ) (e x : ℕ) (hx : c.blockNr x ≠ bcacheInvalid)
    (h : (c.writeBack e).dirty x = true) : x ≠ e ∧ c.dirty x = true := by
  unfold Bcache.writeBack at h
  split at h
  · by_cases hxe : x = e
    · subst hxe
      simp [setDirty] at h
    · exact ⟨hxe, by simpa [setDirty, update_of_ne hxe] using h⟩
  · rename_i hd
    refine ⟨?_, h⟩
    rintro rfl
    exact hd ⟨h, hx⟩

/-! ## Evicting -/

theorem Sound.hashRemove_chains (h : Sound c store off) (he : e < c.size) :
    ∃ f, (if c.blockNr e ≠ bcacheInvalid then c.hashRemove e else c).hash.Filed f ∧
      ∀ k x, x ∈ f k ↔ x ≠ e ∧ x < c.size ∧ c.blockNr x ≠ bcacheInvalid ∧
        c.hashFn (c.blockNr x) = k := by
  obtain ⟨f, hf, hmem⟩ := h.chains
  split
  · rename_i hv
    have hin : e ∈ f (c.hashFn (c.blockNr e)) := (hmem _ e).2 ⟨he, hv, rfl⟩
    obtain ⟨as, bs, hsplit⟩ := append_of_mem hin
    have hlen : as.length < c.size := by
      have := length_le_of_lt (hf.nodup (c.hashFn (c.blockNr e))) fun x hx => ((hmem _ x).1 hx).1
      simp only [hsplit, length_append, length_cons] at this
      omega
    refine ⟨_, hf.unlink hsplit hlen, fun k x => ?_⟩
    have hnd := hf.nodup (c.hashFn (c.blockNr e))
    rw [hsplit] at hnd
    by_cases hk : k = c.hashFn (c.blockNr e)
    · subst hk
      rw [update_self, ← hmem, hsplit, mem_take_out hnd, and_comm]
    · rw [update_of_ne hk, hmem]
      refine ⟨fun hx => ⟨?_, hx⟩, fun hx => hx.2⟩
      rintro rfl
      exact hk hx.2.2.symm
  · rename_i hv
    refine ⟨f, hf, fun k x => ?_⟩
    rw [hmem]
    refine ⟨fun hx => ⟨?_, hx⟩, fun hx => hx.2⟩
    rintro rfl
    exact hv hx.2.1

theorem Sound.detach (h : Sound c store none) (he : e < c.size)
    (hclean : c.blockNr e ≠ bcacheInvalid → c.disk (c.blockNr e) = store (c.blockNr e)) :
    let c' := ((if c.blockNr e ≠ bcacheInvalid then c.hashRemove e else c).lruRemove e).setBlock e
      bcacheInvalid
    Sound c' store (some e) ∧ c'.size = c.size ∧ c'.refcount = c.refcount ∧
      c'.blockNr = update c.blockNr e bcacheInvalid := by
  obtain ⟨f, hf, hmem⟩ := h.hashRemove_chains he
  set c1 := if c.blockNr e ≠ bcacheInvalid then c.hashRemove e else c with hc1
  have hsame : c1 = { c with hash := c1.hash } := by
    rw [hc1]
    split <;> rfl
  rw [hsame]
  refine ⟨?_, rfl, rfl, rfl⟩
  have hother : ∀ x, x ≠ e → update c.blockNr e bcacheInvalid x = c.blockNr x :=
    fun x hx => update_of_ne hx _ _
  have hself : update c.blockNr e bcacheInvalid e = bcacheInvalid := update_self ..
  have hval : ∀ x, update c.blockNr e bcacheInvalid x ≠ bcacheInvalid → x ≠ e := by
    rintro x hx rfl
    exact hx hself
  refine ⟨⟨f, hf, fun k x => ?_⟩, ?_, fun x hx y hy hxy hv => ?_, fun x hx hv => ?_,
    fun b hb => ?_, ?_⟩
  · rw [hmem]
    by_cases hxe : x = e
    · subst hxe
      simp [setBlock, lruRemove]
    · simp [setBlock, lruRemove, hxe, hashFn]
  · obtain ⟨xs, hxs, hin⟩ := h.order
    obtain ⟨as, bs, rfl⟩ := append_of_mem ((hin e).2 ⟨he, by simp⟩)
    refine ⟨as ++ bs, hxs.remove, fun x => ?_⟩
    rw [mem_take_out hxs.nodup, hin]
    simp [setBlock, lruRemove, eq_comm]
  · have hxe := hval x hv
    have hye := hval y fun h0 => hv (hxy.trans h0)
    simp only [setBlock, lruRemove, hother x hxe, hother y hye] at hxy hv
    exact h.unique x hx y hy hxy hv
  · have hxe := hval x hv
    simp only [setBlock, lruRemove, hother x hxe] at hv ⊢
    exact h.cached x hx hv
  · by_cases hbe : b = c.blockNr e
    · subst hbe
      exact .inl (hclean hb)
    · rcases h.behind b hb with hd | ⟨x, hx, hbx, hdx⟩
      · exact .inl hd
      · have hxe : x ≠ e := by rintro rfl; exact hbe hbx.symm
        exact .inr ⟨x, hx, (hother x hxe).trans hbx, hdx⟩
  · rintro x hx
    cases hx
    exact ⟨he, hself⟩

/-- `evict_one` returns an entry that nobody holds, out of the lists, or there is none. -/
theorem Sound.evictOne (h : Sound c store none) :
    (c.evictOne = (none, c) ∧ ∀ e < c.size, c.refcount e ≠ 0) ∨
      ∃ e c', c.evictOne = (some e, c') ∧ c.refcount e = 0 ∧ Sound c' store (some e) ∧
        Kept c c' ∧ c'.blockNr = update c.blockNr e bcacheInvalid := by
  obtain ⟨xs, hxs, hin⟩ := h.order
  have hlen : xs.length ≤ c.size := length_le_of_lt hxs.nodup fun x hx => ((hin x).1 hx).1
  unfold Bcache.evictOne
  rw [hxs.searchBack _ hlen]
  cases hfind : xs.reverse.find? fun e => decide (c.refcount e = 0) with
  | none =>
    refine .inl ⟨rfl, fun e he h0 => ?_⟩
    have := find?_eq_none.1 hfind e (by simpa using (hin e).2 ⟨he, by simp⟩)
    simp [h0] at this
  | some e =>
    have he : e < c.size := ((hin e).1 (by simpa using mem_of_find?_eq_some hfind)).1
    have h0 : c.refcount e = 0 := by simpa using find?_some hfind
    have hw := h.writeBack (e := e) he
    have hclean : (c.writeBack e).blockNr e ≠ bcacheInvalid →
        (c.writeBack e).disk ((c.writeBack e).blockNr e) = store ((c.writeBack e).blockNr e) := by
      intro hv
      rcases hw.behind _ hv with hd | ⟨x, hx, hbx, hdx⟩
      · exact hd
      · have hxe : x = e := hw.unique x hx e (by simpa using he) hbx (hbx ▸ hv)
        rw [writeBack_blockNr] at hv hbx
        exact absurd hxe (writeBack_dirty c e x (hbx ▸ hv) hdx).1
    obtain ⟨hs, hsize, hr, hblock⟩ := hw.detach (by simpa using he) hclean
    replace hblock := hblock.trans (congrArg (update · e _) (writeBack_blockNr c e))
    refine .inr ⟨e, _, rfl, h0, hs,
      ⟨hsize.trans (writeBack_size c e), hr.trans (writeBack_refcount c e), fun x hx => ?_⟩, hblock⟩
    rw [hblock, update_of_ne]
    rintro rfl
    exact hx h0

/-! ## Installing -/

theorem Sound.install (h : Sound c store (some e)) (hb : b ≠ bcacheInvalid)
    (hn : ∀ x < c.size, c.blockNr x ≠ b) (n : ℤ) :
    Sound ((c.install e b n).setData e (store b)) store none := by
  obtain ⟨he, hinv⟩ := h.free e rfl
  set g := update c.blockNr e b with hg
  have hself : g e = b := by simp [hg]
  have hother : ∀ x, x ≠ e → g x = c.blockNr x := fun x hx => by simp [hg, hx]
  have heq : (c.install e b n).setData e (store b) = { c with
        blockNr := g
        data := update c.data e (store b)
        dirty := update c.dirty e false
        refcount := update c.refcount e n
        hash := c.hash.push (c.hashFn b) e
        lru := c.lru.pushFront e } := by
    simp [Bcache.install, setBlock, setDirty, Bcache.setRefcount, hashInsert, lruPushFront, setData,
      hashFn, hg]
  rw [heq]
  refine ⟨?_, ?_, fun x hx y hy hxy hv => ?_, fun x hx hv => ?_, fun k hk => ?_, by simp⟩
  · obtain ⟨f, hf, hmem⟩ := h.chains
    have hnot : ∀ k, e ∉ f k := fun k hx => ((hmem k e).1 hx).2.1 hinv
    refine ⟨_, hf.push (c.hashFn b) hnot, fun k x => ?_⟩
    show _ ↔ x < c.size ∧ g x ≠ bcacheInvalid ∧ c.hashFn (g x) = k
    by_cases hxe : x = e
    · subst hxe
      rw [hself]
      by_cases hk : k = c.hashFn b
      · subst hk
        simp [he, hb]
      · simp [hk, hnot k, Ne.symm hk]
    · rw [hother x hxe, ← hmem]
      by_cases hk : k = c.hashFn b
      · subst hk
        simp [hxe]
      · simp [hk]
  · obtain ⟨xs, hxs, hin⟩ := h.order
    have hnot : e ∉ xs := fun hx => ((hin e).1 hx).2 rfl
    refine ⟨e :: xs, hxs.pushFront hnot, fun x => ?_⟩
    rw [mem_cons, hin]
    constructor
    · rintro (rfl | hx)
      · exact ⟨he, by simp⟩
      · exact ⟨hx.1, by simp⟩
    · rintro ⟨hx, -⟩
      by_cases hxe : x = e
      · exact .inl hxe
      · exact .inr ⟨hx, by simpa using Ne.symm hxe⟩
  · replace hxy : g x = g y := hxy
    replace hv : g x ≠ bcacheInvalid := hv
    by_cases hxe : x = e
    · by_cases hye : y = e
      · exact hxe.trans hye.symm
      · rw [hxe, hself, hother y hye] at hxy
        exact absurd hxy.symm (hn y hy)
    · by_cases hye : y = e
      · rw [hye, hself, hother x hxe] at hxy
        exact absurd hxy (hn x hx)
      · rw [hother x hxe] at hxy hv
        rw [hother y hye] at hxy
        exact h.unique x hx y hy hxy hv
  · show update c.data e (store b) x = store (g x)
    by_cases hxe : x = e
    · simp [hxe, hself]
    · rw [update_of_ne hxe, hother x hxe]
      exact h.cached x hx (hother x hxe ▸ hv)
  · rcases h.behind k hk with hd | ⟨x, hx, hbx, hdx⟩
    · exact .inl hd
    · have hxe : x ≠ e := by
        rintro rfl
        exact hk (hbx.symm.trans hinv)
      refine .inr ⟨x, hx, (hother x hxe).trans hbx, ?_⟩
      simpa [hxe] using hdx

/-- Eviction and installing together: a block that is not cached takes the place of one that
nobody holds. -/
theorem Sound.replace (h : Sound c store none) (hb : b ≠ bcacheInvalid)
    (hfind : c.hashFind b = none) :
    (c.evictOne = (none, c) ∧ ∀ e < c.size, c.refcount e ≠ 0) ∨
      ∃ e c1, c.evictOne = (some e, c1) ∧ c.refcount e = 0 ∧ e < c.size ∧ c1.disk b = store b ∧
        c1.size = c.size ∧ c1.refcount = c.refcount ∧
        (∀ x, c.refcount x ≠ 0 → update c1.blockNr e b x = c.blockNr x) ∧
        ∀ n, Sound ((c1.install e b n).setData e (store b)) store none := by
  have hn := (h.hashFind_eq_none hb).1 hfind
  rcases h.evictOne with hev | ⟨e, c1, hev, h0, hs, hk, hblock⟩
  · exact .inl hev
  have he : e < c.size := hk.size ▸ (hs.free e rfl).1
  have hother : ∀ x, x ≠ e → c1.blockNr x = c.blockNr x := fun x hx => by
    rw [hblock, update_of_ne hx]
  have hn1 : ∀ x < c1.size, c1.blockNr x ≠ b := by
    intro x hx
    by_cases hxe : x = e
    · rw [hxe, (hs.free e rfl).2]
      exact Ne.symm hb
    · rw [hother x hxe]
      exact hn x (hk.size ▸ hx)
  refine .inr ⟨e, c1, hev, h0, he, hs.disk_eq hb hn1, hk.size, hk.refcount, fun x hx => ?_,
    hs.install hb hn1⟩
  have hxe : x ≠ e := by rintro rfl; exact hx h0
  rw [update_of_ne hxe, hother x hxe]

/-! ## Getting and putting back -/

theorem Sound.touch (h : Sound c store none) (he : e < c.size) :
    Sound ((c.lruRemove e).lruPushFront e) store none := by
  refine ⟨h.chains, ?_, h.unique, h.cached, h.behind, h.free⟩
  obtain ⟨xs, hxs, hin⟩ := h.order
  obtain ⟨as, bs, rfl⟩ := append_of_mem ((hin e).2 ⟨he, by simp⟩)
  refine ⟨e :: (as ++ bs), hxs.remove.pushFront (nodup_middle.1 hxs.nodup).notMem, fun x => ?_⟩
  have := hin x
  simp only [mem_append, mem_cons] at this ⊢
  exact ⟨fun hx => this.1 (by tauto), fun hx => by tauto⟩

theorem Sound.setRefcount (h : Sound c store off) (e : ℕ) (n : ℤ) :
    Sound (c.setRefcount e n) store off :=
  ⟨h.chains, h.order, h.unique, h.cached, h.behind, h.free⟩

/-- `bcache_get_inst` returns an entry of the block, held once more than before, or there is no
entry to be had. -/
theorem Sound.get (h : Sound c store none) (hb : b ≠ bcacheInvalid) :
    (c.get b true = (none, c) ∧ ∀ e < c.size, c.refcount e ≠ 0) ∨
      ∃ e c', c.get b true = (some e, c') ∧ e < c.size ∧ c'.blockNr e = b ∧ Sound c' store none ∧
        c'.size = c.size ∧ c'.refcount = update c.refcount e (int32 (c.refcount e + 1)) ∧
        ∀ x, c.refcount x ≠ 0 → c'.blockNr x = c.blockNr x := by
  unfold Bcache.get
  cases hfind : c.hashFind b with
  | some e =>
    obtain ⟨he, hbe⟩ := (h.hashFind_eq_some hb).1 hfind
    exact .inr ⟨e, _, rfl, he, hbe, (h.setRefcount e _).touch he, rfl, rfl, fun _ _ => rfl⟩
  | none =>
    rcases h.replace hb hfind with ⟨hev, hall⟩ | ⟨e, c1, hev, h0, he, hdisk, hsize, hr, hblock, hs⟩
    · exact .inl ⟨by simp [hev], hall⟩
    refine .inr ⟨e, (c1.install e b 1).setData e (store b), ?_, he, ?_, hs 1, hsize, ?_, hblock⟩
    · simp only [hev, if_true, ← hdisk]
      rfl
    · show update c1.blockNr e b e = b
      simp
    · show update c1.refcount e 1 = _
      rw [hr, h0]
      rfl

theorem Sound.put (h : Sound c store off) (e : ℕ) : Sound (c.put e) store off := by
  unfold Bcache.put
  split
  · exact h.setRefcount e _
  · exact h

/-- The counts are far from the end of their type. -/
def Modest (c : Bcache δ) : Prop := ∀ e, 0 ≤ c.refcount e ∧ c.refcount e + 1 < 2 ^ 31

theorem put_blockNr (c : Bcache δ) (e : ℕ) : (c.put e).blockNr = c.blockNr := by
  unfold Bcache.put; split <;> rfl

theorem put_size (c : Bcache δ) (e : ℕ) : (c.put e).size = c.size := by
  unfold Bcache.put; split <;> rfl

/-- Putting back what was just got leaves what is held as it was. -/
theorem kept_put_of_got (hm : Modest c) (hsize : c'.size = c.size)
    (hr : c'.refcount = update c.refcount e (int32 (c.refcount e + 1)))
    (hblock : ∀ x, c.refcount x ≠ 0 → c'.blockNr x = c.blockNr x) : Kept c (c'.put e) := by
  refine ⟨(put_size c' e).trans hsize, ?_, put_blockNr c' e ▸ hblock⟩
  obtain ⟨h0, h1⟩ := hm e
  have hself : c'.refcount e = c.refcount e + 1 := by
    rw [hr, update_self, int32_of_range (by omega) h1]
  rw [Bcache.put, if_pos (by omega)]
  show update c'.refcount e (c'.refcount e - 1) = c.refcount
  rw [hself, hr]
  simp

/-! ## Writing -/

/-- The contents of a cached block are replaced and the entry is marked. -/
theorem Sound.modify (h : Sound c store none) (he : e < c.size) (d : δ) :
    Sound ((c.setData e d).markDirty e) (update store (c.blockNr e) d) none := by
  refine ⟨h.chains, h.order, h.unique, fun x hx hvx => ?_, fun b hb => ?_, by simp⟩
  · show update c.data e d x = update store (c.blockNr e) d (c.blockNr x)
    by_cases hxe : x = e
    · simp [hxe]
    · have hne : c.blockNr x ≠ c.blockNr e := fun hbx => hxe (h.unique x hx e he hbx hvx)
      rw [update_of_ne hxe, update_of_ne hne]
      exact h.cached x hx hvx
  · by_cases hbe : b = c.blockNr e
    · exact .inr ⟨e, he, hbe.symm, by simp [markDirty, setDirty]⟩
    · rcases h.behind b hb with hd | ⟨x, hx, hbx, hdx⟩
      · exact .inl (by rw [update_of_ne hbe]; exact hd)
      · refine .inr ⟨x, hx, hbx, ?_⟩
        by_cases hxe : x = e
        · simp [hxe, markDirty, setDirty]
        · simpa [markDirty, setDirty, setData, hxe] using hdx

theorem Sound.writeBlock (h : Sound c store none) (hm : Modest c) (hb : b ≠ bcacheInvalid)
    (hfree : ∃ e < c.size, c.refcount e = 0) (d : δ) :
    (c.writeBlock b d).1 = true ∧ Serves (update store b d) c (c.writeBlock b d).2 := by
  rcases h.get hb with ⟨-, hall⟩ | ⟨e, c1, hget, he, hbe, hs, hsize, hr, hblock⟩
  · obtain ⟨e, he, h0⟩ := hfree
    exact absurd h0 (hall e he)
  · have hw : c.writeBlock b d = (true, ((c1.setData e d).markDirty e).put e) := by
      rw [Bcache.writeBlock, hget]
    have hs' := hs.modify (hsize ▸ he) d
    rw [hbe] at hs'
    rw [hw]
    exact ⟨rfl, hs'.put e, kept_put_of_got hm hsize hr hblock⟩

/-! ## Read-ahead -/

theorem Sound.fetchEach {bs : List ℕ} (h : Sound c store none) (hm : Modest c)
    (hbs : ∀ b ∈ bs, b ≠ bcacheInvalid) : Serves store c (c.fetchEach bs) := by
  induction bs generalizing c with
  | nil => exact ⟨h, Kept.refl c⟩
  | cons b bs ih =>
    rw [forall_mem_cons] at hbs
    rw [Bcache.fetchEach]
    rcases h.get hbs.1 with ⟨hget, -⟩ | ⟨e, c1, hget, -, -, hs, hsize, hr, hblock⟩
    · rw [hget]
      exact ih h hm hbs.2
    · rw [hget]
      have hk := kept_put_of_got hm hsize hr hblock
      have hm' : Modest (c1.put e) := fun x => hk.refcount ▸ hm x
      exact .trans hk (ih (hs.put e) hm' hbs.2)

theorem Sound.dispatch {bs : List (ℕ × δ)} (h : Sound c store none)
    (hbs : ∀ p ∈ bs, p.1 ≠ bcacheInvalid ∧ p.2 = store p.1) : Serves store c (c.dispatch bs) := by
  induction bs generalizing c with
  | nil => exact ⟨h, Kept.refl c⟩
  | cons p bs ih =>
    obtain ⟨b, d⟩ := p
    rw [forall_mem_cons] at hbs
    obtain ⟨⟨hb, hd⟩, hbs⟩ := hbs
    obtain rfl : d = store b := hd
    rw [Bcache.dispatch]
    cases hfind : c.hashFind b with
    | some e => exact ih h hbs
    | none =>
      rcases h.replace hb hfind with ⟨hev, -⟩ | ⟨e, c1, hev, h0, -, -, hsize, hr, hblock, hs⟩
      · simp only [hev, Option.isSome_none, Bool.false_eq_true, if_false]
        exact ⟨h, Kept.refl c⟩
      · simp only [hev, Option.isSome_none, Bool.false_eq_true, if_false]
        have hk : Kept c ((c1.install e b 0).setData e (store b)) := by
          refine ⟨hsize, ?_, hblock⟩
          show update c1.refcount e 0 = c.refcount
          rw [hr, ← h0, update_eq_self]
        exact .trans hk (ih (hs 0) hbs)

theorem runLength_spec (c : Bcache δ) (start n i : ℕ) :
    c.runLength start n i ≤ n ∧
      ∀ k < c.runLength start n i, c.hashFind ((start + i + k) % 2 ^ 64) = none := by
  induction n generalizing i with
  | zero => simp [runLength]
  | succ n ih =>
    rw [runLength]
    split
    · simp
    rename_i hn
    obtain ⟨h1, h2⟩ := ih (i + 1)
    refine ⟨by omega, fun k hk => ?_⟩
    cases k with
    | zero => simpa using hn
    | succ k =>
      have := h2 k (by omega)
      rwa [show start + (i + 1) + k = start + i + (k + 1) by omega] at this

theorem Sound.readaheadLoop {start count : ℕ} (hend : start + count ≤ bcacheInvalid) (bmax : ℕ)
    (fuel i : ℕ) (h : Sound c store none) (hm : Modest c) :
    Serves store c (c.readaheadLoop start count bmax fuel i) := by
  induction fuel generalizing c i with
  | zero => exact ⟨h, Kept.refl c⟩
  | succ fuel ih =>
    rw [Bcache.readaheadLoop]
    split
    swap
    · exact ⟨h, Kept.refl c⟩
    simp only
    generalize c.skipCached start (count - i) i = j
    split
    · exact ⟨h, Kept.refl c⟩
    obtain ⟨hlen, hnone⟩ := runLength_spec c start (min (count - j) bmax) j
    generalize c.runLength start (min (count - j) bmax) j = run at hlen hnone
    split
    · exact ih (j + 1) h hm
    -- every block of the run is a valid number and is on the disk
    have hblock : ∀ b ∈ (range run).map fun k => (start + j + k) % 2 ^ 64,
        b ≠ bcacheInvalid ∧ c.disk b = store b := by
      intro b hb
      obtain ⟨k, hk, rfl⟩ := mem_map.1 hb
      rw [mem_range] at hk
      have hb' : (start + j + k) % 2 ^ 64 ≠ bcacheInvalid := by
        omega
      exact ⟨hb', h.disk_eq hb' ((h.hashFind_eq_none hb').1 (hnone k hk))⟩
    have hstep : Serves store c (if c.bulkRead = true then
          c.dispatch (((range run).map fun k => (start + j + k) % 2 ^ 64).map
            fun b => (b, c.disk b))
        else c.fetchEach ((range run).map fun k => (start + j + k) % 2 ^ 64)) := by
      split
      · refine h.dispatch fun p hp => ?_
        obtain ⟨b, hb, rfl⟩ := mem_map.1 hp
        exact hblock b hb
      · exact h.fetchEach hm fun b hb => (hblock b hb).1
    exact .trans hstep.2 (ih (j + run) hstep.1 fun x => hstep.2.refcount ▸ hm x)

theorem Sound.readahead {start count : ℕ} (hend : start + count ≤ bcacheInvalid)
    (h : Sound c store none) (hm : Modest c) : Serves store c (c.readahead start count) := by
  unfold Bcache.readahead
  split
  · exact ⟨h, Kept.refl c⟩
  · exact h.readaheadLoop hend _ _ _ hm

/-! ## Synchronising -/

theorem Sound.foldl_writeBack (es : List ℕ) (h : Sound c store none) (hes : ∀ e ∈ es, e < c.size) :
    Sound (es.foldl Bcache.writeBack c) store none ∧
      (es.foldl Bcache.writeBack c).size = c.size ∧
      (es.foldl Bcache.writeBack c).refcount = c.refcount ∧
      (es.foldl Bcache.writeBack c).blockNr = c.blockNr ∧
      ∀ x, c.blockNr x ≠ bcacheInvalid → (es.foldl Bcache.writeBack c).dirty x = true →
        x ∉ es ∧ c.dirty x = true := by
  induction es generalizing c with
  | nil => exact ⟨h, rfl, rfl, rfl, fun x _ hd => ⟨by simp, hd⟩⟩
  | cons e es ih =>
    rw [forall_mem_cons] at hes
    obtain ⟨h1, h2, h3, h4, h5⟩ := ih (h.writeBack hes.1) (by simpa using hes.2)
    refine ⟨h1, by simpa using h2, by simpa using h3, by simpa using h4, fun x hx hd => ?_⟩
    obtain ⟨hn, hd'⟩ := h5 x (by simpa using hx) hd
    obtain ⟨hne, hd''⟩ := writeBack_dirty c e x hx hd'
    exact ⟨by simp [hne, hn], hd''⟩

theorem Sound.sync (h : Sound c store none) :
    Sound c.sync store none ∧ Kept c c.sync ∧ ∀ b ≠ bcacheInvalid, c.sync.disk b = store b := by
  obtain ⟨h1, h2, h3, h4, h5⟩ := h.foldl_writeBack (range c.size) (by simp)
  refine ⟨h1, ⟨h2, h3, fun e _ => congrFun h4 e⟩, fun b hb => ?_⟩
  rcases h1.behind b hb with hd | ⟨x, hx, hbx, hdx⟩
  · exact hd
  · rw [h4] at hbx
    rw [h2] at hx
    exact absurd (mem_range.2 hx) (h5 x (hbx ▸ hb) hdx).1

theorem sound_init (size hashBuckets : ℕ) (disk pages : ℕ → δ) (bulkRead : Bool)
    (bulkMax : Option ℕ) : Sound (init size hashBuckets disk pages bulkRead bulkMax) disk none := by
  have hlru : ∀ n, ∃ xs, ((range n).foldl Links.pushFront
      (⟨fun _ => none, fun _ => none, none⟩ : Links ℕ)).Spells xs ∧ ∀ e, e ∈ xs ↔ e < n := by
    intro n
    induction n with
    | zero => exact ⟨[], ⟨⟨rfl, rfl⟩, by simp⟩, by simp⟩
    | succ n ih =>
      obtain ⟨xs, hxs, hin⟩ := ih
      rw [range_succ, foldl_concat]
      refine ⟨n :: xs, hxs.pushFront (by simp [hin]), fun e => ?_⟩
      rw [mem_cons, hin]
      omega
  obtain ⟨xs, hxs, hin⟩ := hlru size
  refine ⟨⟨fun _ => [], ⟨fun _ => rfl, by simp, by simp⟩, ?_⟩, ⟨xs, hxs, ?_⟩, ?_, ?_, ?_, by simp⟩
  · intro k e
    simp [init]
  · intro e
    rw [hin]
    simp [init]
  · intro e _ x _ _ hv
    exact absurd rfl hv
  · intro e _ hv
    exact absurd rfl hv
  · intro b _
    exact .inl rfl

end Bcache

/-! ## Clients -/

/-- The cache and the entries that clients hold, each with the block it was got for. -/
structure CacheSys (δ : Type*) where
  cache : Bcache δ
  handles : List (ℕ × ℕ)

/-- What clients do.  A client changes the contents of a block through the pointer it was given and
marks the entry dirty; handles are named by their place in the list. -/
inductive CacheOp (δ : Type*) where
  | get (b : ℕ)
  | modify (i : ℕ) (d : δ)
  | put (i : ℕ)
  | writeBlock (b : ℕ) (d : δ)
  | readahead (start count : ℕ)
  | sync

def cacheNext (s : CacheSys δ) : CacheOp δ → CacheSys δ
  | .get b =>
    match s.cache.get b true with
    | (none, c) => { s with cache := c }
    | (some e, c) => ⟨c, s.handles ++ [(b, e)]⟩
  | .modify i d =>
    match s.handles[i]? with
    | none => s
    | some (_, e) => { s with cache := (s.cache.setData e d).markDirty e }
  | .put i =>
    match s.handles[i]? with
    | none => s
    | some (_, e) => ⟨s.cache.put e, s.handles.eraseIdx i⟩
  | .writeBlock b d => { s with cache := (s.cache.writeBlock b d).2 }
  | .readahead start count => { s with cache := s.cache.readahead start count }
  | .sync => { s with cache := s.cache.sync }

/-- The store that the cache stands for, and the blocks that are held. -/
structure BlockStore (δ : Type*) where
  store : ℕ → δ
  held : List ℕ

def storeNext (a : BlockStore δ) : CacheOp δ → BlockStore δ
  | .get b => { a with held := a.held ++ [b] }
  | .modify i d =>
    match a.held[i]? with
    | none => a
    | some b => { a with store := update a.store b d }
  | .put i => { a with held := a.held.eraseIdx i }
  | .writeBlock b d => { a with store := update a.store b d }
  | .readahead _ _ | .sync => a

/-- The number of entries that are held. -/
def Bcache.heldCount (c : Bcache δ) : ℕ := (List.range c.size).countP fun e => c.refcount e ≠ 0

/-- A call names valid blocks, fewer entries are held than there are, and the gets that have not
been put back fit into the counters. -/
def CacheOk (s : CacheSys δ) : CacheOp δ → Prop
  | .get b => b ≠ bcacheInvalid ∧ s.cache.heldCount < s.cache.size ∧ s.handles.length + 2 < 2 ^ 31
  | .writeBlock b _ => b ≠ bcacheInvalid ∧ s.cache.heldCount < s.cache.size
  | .readahead start count => start + count ≤ bcacheInvalid
  | _ => True

/-- The cache stands for the store, and every pointer that is held is good. -/
structure Transparent (s : CacheSys δ) (a : BlockStore δ) : Prop where
  sound : s.cache.Sound a.store none
  held : a.held = s.handles.map Prod.fst
  handle : ∀ p ∈ s.handles, p.2 < s.cache.size ∧ s.cache.blockNr p.2 = p.1 ∧ p.1 ≠ bcacheInvalid
  counts : ∀ e, s.cache.refcount e = s.handles.countP fun p => p.2 = e
  room : s.handles.length + 1 < 2 ^ 31

namespace Transparent

variable {s : CacheSys δ} {a : BlockStore δ}

section

variable (h : Transparent s a)
include h

theorem modest : s.cache.Modest := by
  intro e
  have h1 := h.room
  have h2 : (s.handles.countP fun p => p.2 = e) ≤ s.handles.length := countP_le_length
  rw [h.counts e]
  omega

omit h in
theorem exists_free {c : Bcache δ} (h : c.heldCount < c.size) : ∃ e < c.size, c.refcount e = 0 := by
  by_contra hn
  push Not at hn
  have : c.heldCount = (range c.size).length :=
    countP_eq_length.2 fun e he => by simpa using hn e (mem_range.1 he)
  simp at this
  omega

theorem refcount_ne_zero {p : ℕ × ℕ} (hp : p ∈ s.handles) : s.cache.refcount p.2 ≠ 0 := by
  rw [h.counts]
  have : 0 < s.handles.countP fun q => q.2 = p.2 := countP_pos_iff.2 ⟨p, hp, by simp⟩
  omega

theorem of_kept {c : Bcache δ} {store : ℕ → δ} (hs : c.Sound store none)
    (hk : s.cache.Kept c) : Transparent ⟨c, s.handles⟩ ⟨store, a.held⟩ := by
  refine ⟨hs, h.held, fun p hp => ?_, fun e => ?_, h.room⟩
  · obtain ⟨h1, h2, h3⟩ := h.handle p hp
    exact ⟨hk.size ▸ h1, (hk.block _ (h.refcount_ne_zero hp)).trans h2, h3⟩
  · rw [hk.refcount]
    exact h.counts e

theorem get {b : ℕ} (hok : CacheOk s (.get b)) :
    ∃ e c, s.cache.get b true = (some e, c) ∧
      Transparent ⟨c, s.handles ++ [(b, e)]⟩ { a with held := a.held ++ [b] } := by
  obtain ⟨hb, hheld, hroom⟩ := hok
  rcases h.sound.get hb with ⟨-, hall⟩ | ⟨e, c, hget, he, hbe, hs, hsize, hr, hblock⟩
  · obtain ⟨e, he, h0⟩ := exists_free hheld
    exact absurd h0 (hall e he)
  refine ⟨e, c, hget, hs, by simp [h.held], fun p hp => ?_, fun x => ?_, ?_⟩
  · rcases mem_append.1 hp with hp | hp
    · obtain ⟨h1, h2, h3⟩ := h.handle p hp
      exact ⟨hsize ▸ h1, (hblock _ (h.refcount_ne_zero hp)).trans h2, h3⟩
    · obtain rfl := mem_singleton.1 hp
      exact ⟨hsize ▸ he, hbe, hb⟩
  · rw [hr]
    by_cases hx : x = e
    · subst hx
      obtain ⟨h0, h1⟩ := h.modest x
      rw [int32_of_range (by omega) h1, h.counts x]
      simp
    · rw [update_of_ne hx, h.counts x]
      simp [Ne.symm hx]
  · simp
    omega

theorem modify (i : ℕ) (d : δ) :
    Transparent (cacheNext s (.modify i d)) (storeNext a (.modify i d)) := by
  simp only [cacheNext, storeNext, h.held, getElem?_map]
  cases hi : s.handles[i]? with
  | none => exact h
  | some p =>
    obtain ⟨b, e⟩ := p
    obtain ⟨he, hbe, -⟩ := h.handle (b, e) (mem_of_getElem? hi)
    obtain rfl : s.cache.blockNr e = b := hbe
    have hs := h.sound.modify he d
    have := h.of_kept hs ⟨rfl, rfl, fun _ _ => rfl⟩
    simpa [h.held] using this

theorem put (i : ℕ) : Transparent (cacheNext s (.put i)) (storeNext a (.put i)) := by
  simp only [cacheNext, storeNext]
  cases hi : s.handles[i]? with
  | none =>
    have hlen : s.handles.length ≤ i := by simpa using hi
    have : a.held.eraseIdx i = a.held := eraseIdx_of_length_le (by simpa [h.held] using hlen)
    rw [this]
    exact h
  | some p =>
    obtain ⟨b, e⟩ := p
    obtain ⟨hlt, hget⟩ := List.getElem?_eq_some_iff.1 hi
    have hperm := getElem_cons_eraseIdx_perm hlt
    rw [hget] at hperm
    have hpos : s.cache.refcount e ≠ 0 := h.refcount_ne_zero (mem_of_getElem? hi)
    have hsub := eraseIdx_sublist s.handles i
    refine ⟨h.sound.put e, by simp [h.held, eraseIdx_map], fun p hp => ?_, fun x => ?_, ?_⟩
    · rw [Bcache.put_size, Bcache.put_blockNr]
      exact h.handle p (hsub.subset hp)
    · have hcount := hperm.countP_eq fun q => decide (q.2 = x)
      rw [countP_cons] at hcount
      have h0 := h.counts e
      have hx := h.counts x
      have hput : (s.cache.put e).refcount = update s.cache.refcount e
          (s.cache.refcount e - 1) := by
        rw [Bcache.put, if_pos (by omega)]
        rfl
      show (s.cache.put e).refcount x = ((s.handles.eraseIdx i).countP fun q => q.2 = x : ℕ)
      rw [hput]
      by_cases hxe : x = e
      · subst hxe
        simp only [decide_true, if_true] at hcount
        rw [update_self]
        omega
      · simp only [Ne.symm hxe, decide_false, Bool.false_eq_true, if_false] at hcount
        rw [update_of_ne hxe]
        omega
    · have := hsub.length_le
      have := h.room
      simp only
      omega

theorem next {op : CacheOp δ} (hok : CacheOk s op) :
    Transparent (cacheNext s op) (storeNext a op) := by
  cases op with
  | get b =>
    obtain ⟨e, c, hget, ht⟩ := h.get hok
    simpa only [cacheNext, hget, storeNext] using ht
  | modify i d => exact h.modify i d
  | put i => exact h.put i
  | writeBlock b d =>
    obtain ⟨-, hs, hk⟩ := h.sound.writeBlock h.modest hok.1 (exists_free hok.2) d
    exact h.of_kept hs hk
  | readahead start count =>
    obtain ⟨hs, hk⟩ := h.sound.readahead hok h.modest
    exact h.of_kept hs hk
  | sync =>
    obtain ⟨hs, hk, -⟩ := h.sound.sync
    exact h.of_kept hs hk

end

end Transparent

/-- A cache just initialised, before any client has called. -/
def cacheStart (size hashBuckets : ℕ) (disk pages : ℕ → δ) (bulkRead : Bool) (bulkMax : Option ℕ) :
    CacheSys δ := ⟨.init size hashBuckets disk pages bulkRead bulkMax, []⟩

theorem transparent_start (size hashBuckets : ℕ) (disk pages : ℕ → δ) (bulkRead : Bool)
    (bulkMax : Option ℕ) :
    Transparent (cacheStart size hashBuckets disk pages bulkRead bulkMax) ⟨disk, []⟩ :=
  ⟨Bcache.sound_init .., rfl, by simp [cacheStart], by simp [cacheStart, Bcache.init],
    by simp [cacheStart]⟩

/-- After every run of the calls the cache stands for the store that the same calls make: a block
that is got has the contents stored last, no block has two entries, what is held stays in its
entry, and after a synchronisation the backend holds every block as it was stored. -/
theorem cache_transparent {size hashBuckets : ℕ} {disk pages : ℕ → δ} {bulkRead : Bool}
    {bulkMax : Option ℕ} {ops : List (CacheOp δ)}
    (hok : Along cacheNext CacheOk (cacheStart size hashBuckets disk pages bulkRead bulkMax) ops) :
    let s := run cacheNext (cacheStart size hashBuckets disk pages bulkRead bulkMax) ops
    let a := run storeNext ⟨disk, []⟩ ops
    (∀ b, CacheOk s (.get b) → ∃ e c, s.cache.get b true = (some e, c) ∧ c.blockNr e = b ∧
      c.data e = a.store b) ∧
    (∀ e < s.cache.size, ∀ e' < s.cache.size, s.cache.blockNr e = s.cache.blockNr e' →
      s.cache.blockNr e ≠ bcacheInvalid → e = e') ∧
    (a.held = s.handles.map Prod.fst ∧ ∀ p ∈ s.handles, s.cache.blockNr p.2 = p.1 ∧
      s.cache.data p.2 = a.store p.1) ∧
    ∀ b ≠ bcacheInvalid, s.cache.sync.disk b = a.store b := by
  have hinv : Transparent
      (run cacheNext (cacheStart size hashBuckets disk pages bulkRead bulkMax) ops)
      (run storeNext ⟨disk, []⟩ ops) :=
    run_simulation_along (fun s a op h hop => h.next hop) (transparent_start ..) hok
  intro s a
  refine ⟨fun b hb => ?_, hinv.sound.unique, ⟨hinv.held, fun p hp => ?_⟩, hinv.sound.sync.2.2⟩
  · obtain ⟨e, c, hget, ht⟩ := hinv.get hb
    obtain ⟨he, hbe, hv⟩ := ht.handle (b, e) (by simp)
    refine ⟨e, c, hget, hbe, ?_⟩
    have := ht.sound.cached e he (hbe ▸ hv)
    rwa [show c.blockNr e = b from hbe] at this
  · obtain ⟨he, hbe, hv⟩ := hinv.handle p hp
    exact ⟨hbe, (hinv.sound.cached _ he (hbe ▸ hv)).trans (by rw [hbe])⟩

/-- Block 5 is changed in place in a cache of 256 entries. -/
theorem cache_transparent_modified :
    let s := run cacheNext (cacheStart 256 256 (fun _ => 0) (fun _ => 0) false none)
      [.get 5, .modify 0 7, .put 0]
    Along cacheNext CacheOk (cacheStart 256 256 (fun _ => 0) (fun _ => 0) false none)
        [.get 5, .modify 0 7, .put 0] ∧
      s.cache.disk 5 = 0 ∧ s.cache.sync.disk 5 = 7 := by
  refine ⟨?ok, by decide +kernel, (cache_transparent ?ok).2.2.2 5 (by decide)⟩
  exact ⟨⟨by decide, by decide +kernel, by decide⟩, trivial, trivial, trivial⟩

/-- What is stored in the block with the number that marks an empty entry never reaches the
backend. -/
theorem cache_drops_marker :
    (run cacheNext (cacheStart 256 256 (fun _ => 0) (fun _ => 0) false none)
        [.writeBlock bcacheInvalid 7, .sync]).cache.disk bcacheInvalid = 0 ∧
      (run storeNext ⟨fun _ => 0, []⟩ [.writeBlock bcacheInvalid 7, .sync]).store
        bcacheInvalid = 7 := by
  decide +kernel

end CosmoRT.Fs
