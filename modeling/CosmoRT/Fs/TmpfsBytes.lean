import CosmoRT.Fs.ByteFile
import CosmoRT.Fs.Tmpfs
import CosmoRT.Lib.Run
import Mathlib

/-!
# tmpfs files as byte arrays

The contents of a tmpfs file are followed next to those of a `ByteFile`, to which every call that
succeeds does what it is for.

* `Beside.next` — a call that brings nothing old into the file keeps the two alike.
* `tmpfs_shows_bytes` — size and reads are those of the `ByteFile` after every run whose calls make
  no bytes part of the file that its pages still hold from before.
-/

namespace CosmoRT.Fs

open Lib List Function ByteFile

/-! ## What the calls do -/

/-- The byte that the pages hold at a position. -/
def TmpFile.byte (f : TmpFile) (p : ℕ) : UInt8 := flat 4096 f.pages p

/-- Pages for all of the file, and not too many. -/
structure TmpFile.Sound (f : TmpFile) : Prop where
  covered : f.size ≤ 4096 * f.npages
  few : f.npages < 2 ^ 31

section Calls

variable {env : GrowEnv} {f f' : TmpFile}

theorem has_div_iff (f : TmpFile) (p : ℕ) : f.has (p / 4096) = true ↔ p < 4096 * f.npages := by
  rw [TmpFile.has, decide_eq_true_iff]
  omega

/-- What a file is after it has grown. -/
structure PagesAdded (f f' : TmpFile) (needed : ℕ) : Prop where
  size : f'.size = f.size
  enough : needed ≤ 4096 * f'.npages
  more : f.npages ≤ f'.npages
  few : f'.npages < 2 ^ 31
  byte : ∀ p, f'.byte p =
    if 4096 * f.npages ≤ p ∧ p < 4096 * f'.npages then 0 else f.byte p

variable {needed : ℕ} {call : CallEnv}

theorem growFile_ok (hf : f.Sound) (hmax : env.maxPages < 2 ^ 31)
    (hneeded : needed + 4095 < 2 ^ 64) (h : growFile env f needed = (.ok (), f')) :
    PagesAdded f f' needed := by
  unfold growFile at h
  simp only [Nat.mod_eq_of_lt hneeded] at h
  by_cases hle : (needed + 4095) / 4096 ≤ f.npages
  · rw [if_pos hle] at h
    obtain rfl : f = f' := by simpa using h
    exact ⟨rfl, by omega, Nat.le_refl _, hf.few, fun p => by rw [if_neg (by omega)]⟩
  rw [if_neg hle] at h
  rcases hcap : pagesArrayGrow f.cap ((needed + 4095) / 4096) env.container with e | cap
  · simp [hcap] at h
  simp only [hcap] at h
  split_ifs at h with hbudget hpages
  · simp at h
  swap
  · simp at h
  obtain rfl := (Prod.mk.inj h).2
  refine ⟨rfl, by show needed ≤ 4096 * ((needed + 4095) / 4096); omega,
    by show f.npages ≤ (needed + 4095) / 4096; omega,
      by show (needed + 4095) / 4096 < _; omega, fun p => ?_⟩
  unfold TmpFile.byte flat
  show (if f.npages ≤ p / 4096 ∧ p / 4096 < (needed + 4095) / 4096 then fun _ => 0
    else f.pages (p / 4096)) (p % 4096) = _
  by_cases hnew : f.npages ≤ p / 4096 ∧ p / 4096 < (needed + 4095) / 4096
  · rw [if_pos hnew, if_pos
      (by show 4096 * f.npages ≤ p ∧ p < 4096 * ((needed + 4095) / 4096); omega)]
  · rw [if_neg hnew, if_neg
      (by show ¬(4096 * f.npages ≤ p ∧ p < 4096 * ((needed + 4095) / 4096)); omega)]

/-- Contents are kept, but for the capacity of the container. -/
def SameContent (f f' : TmpFile) : Prop :=
  f'.pages = f.pages ∧ f'.npages = f.npages ∧ f'.size = f.size

variable {e : Errno}

theorem growFile_error (h : growFile env f needed = (.error e, f')) : SameContent f f' := by
  unfold growFile at h
  by_cases hle : (needed + 4095) % 2 ^ 64 / 4096 ≤ f.npages
  · rw [if_pos hle] at h
    simp at h
  rw [if_neg hle] at h
  rcases hcap : pagesArrayGrow f.cap ((needed + 4095) % 2 ^ 64 / 4096) env.container with e' | cap
  · simp only [hcap] at h
    obtain rfl := (Prod.mk.inj h).2
    exact ⟨rfl, rfl, rfl⟩
  simp only [hcap] at h
  split_ifs at h with hbudget hpages
  · obtain rfl := (Prod.mk.inj h).2
    exact ⟨rfl, rfl, rfl⟩
  · simp at h
  · obtain rfl := (Prod.mk.inj h).2
    exact ⟨rfl, rfl, rfl⟩

theorem byte_ramfsWrite (f : TmpFile) (src : List UInt8) (off p : ℕ) :
    (ramfsWrite f src off).byte p =
      if off ≤ p ∧ p < off + src.length ∧ p < 4096 * f.npages then src.getD (p - off) 0
      else f.byte p := by
  unfold ramfsWrite TmpFile.byte
  rw [flat_writePages (by decide) _ (le_refl _)]
  simp only [has_div_iff]

/-- What a file is after bytes were stored. -/
structure Stored (f f' : TmpFile) (off : ℕ) (src : List UInt8) : Prop where
  sound : f'.Sound
  size : f'.size = max f.size (off + src.length)
  byte : ∀ p, f'.byte p =
    if off ≤ p ∧ p < off + src.length then src.getD (p - off) 0
    else if 4096 * f.npages ≤ p ∧ p < 4096 * f'.npages then 0 else f.byte p

variable {src : List UInt8} {off : ℕ}

theorem tmpfsStore_ok (hf : f.Sound) (hmax : env.maxPages < 2 ^ 31) {n : ℕ}
    (hstop : off + src.length + 4095 < 2 ^ 64) (h : tmpfsStore env f src off = (.ok n, f')) :
    n = src.length ∧ Stored f f' off src := by
  unfold tmpfsStore at h
  simp only [Nat.mod_eq_of_lt (show off + src.length < 2 ^ 64 by omega)] at h
  split at h
  · simp at h
  rename_i g hgrow
  obtain ⟨hsize, henough, hmore, hfew, hbyte⟩ := growFile_ok hf hmax hstop hgrow
  obtain ⟨hn, rfl⟩ := Prod.mk.inj h
  have hcov := hf.covered
  have hbytes := byte_ramfsWrite g src off
  have hsizes : (if off + src.length > (ramfsWrite g src off).size then off + src.length
      else (ramfsWrite g src off).size) = max f.size (off + src.length) := by
    show (if off + src.length > g.size then _ else g.size) = _
    split_ifs <;> omega
  have hcovered : max f.size (off + src.length) ≤ 4096 * g.npages := by omega
  refine ⟨(Except.ok.inj hn).symm, ⟨hsizes.le.trans hcovered, hfew⟩, hsizes,
    fun p => (hbytes p).trans ?_⟩
  show _ = if _ then _ else if 4096 * f.npages ≤ p ∧ p < 4096 * g.npages then 0 else f.byte p
  rw [hbyte p]
  by_cases hin : off ≤ p ∧ p < off + src.length
  · rw [if_pos ⟨hin.1, hin.2, by omega⟩, if_pos hin]
  · rw [if_neg (by omega), if_neg hin]

theorem tmpfsStore_error (h : tmpfsStore env f src off = (.error e, f')) : SameContent f f' := by
  unfold tmpfsStore at h
  simp only at h
  split at h
  · rename_i hgrow
    obtain rfl := (Prod.mk.inj h).2
    exact growFile_error hgrow
  · simp at h

/-- What a file is after its size was set. -/
structure Resized (f f' : TmpFile) (newSize : ℕ) : Prop where
  sound : f'.Sound
  size : f'.size = newSize
  byte : ∀ p < newSize, f'.byte p =
    if f.size ≤ p ∧ (p < (f.size + 4095) / 4096 * 4096 ∨ 4096 * f.npages ≤ p) then 0 else f.byte p

variable {length : ℤ}

theorem tmpfsTruncate_ok (hf : f.Sound) (hmax : env.maxPages < 2 ^ 31)
    (hlength : length < 2 ^ 63) (h : tmpfsTruncate env f length = (.ok (), f')) :
    0 ≤ length ∧ Resized f f' length.toNat := by
  unfold tmpfsTruncate at h
  by_cases hneg : length < 0
  · simp [hneg] at h
  refine ⟨by omega, ?_⟩
  obtain ⟨n, hn⟩ : ∃ n, n = length.toNat := ⟨_, rfl⟩
  rw [if_neg hneg] at h
  simp only [sizeT_of_nonneg (by omega : 0 ≤ length) (by omega)] at h
  rw [← hn] at h ⊢
  have hcov := hf.covered
  have hfew := hf.few
  by_cases hgrow : n > f.size
  · rw [if_pos hgrow] at h
    rcases hg : growFile env f n with ⟨e | _, g⟩
    · simp [hg] at h
    simp only [hg] at h
    obtain ⟨hsize, henough, hmore, hfew', hbyte⟩ := growFile_ok hf hmax (by omega) hg
    obtain rfl := (Prod.mk.inj h).2
    rw [hsize] at *
    set stop := (f.size + 4095) / 4096 * 4096 with hstop
    by_cases htail : stop > f.size
    · simp only [if_pos htail]
      refine ⟨⟨henough, hfew'⟩, rfl, fun p hp => ?_⟩
      refine (byte_ramfsWrite g _ _ p).trans ?_
      rw [hbyte p, length_replicate]
      by_cases hzero : f.size ≤ p ∧ p < f.size + min (stop - f.size) (n - f.size) ∧
          p < 4096 * g.npages
      · rw [if_pos hzero, if_pos ⟨hzero.1, .inl (by omega)⟩]
        simp
      · rw [if_neg hzero]
        by_cases hnew : 4096 * f.npages ≤ p ∧ p < 4096 * g.npages
        · rw [if_pos hnew, if_pos ⟨by omega, .inr hnew.1⟩]
        · rw [if_neg hnew, if_neg (by omega)]
    · simp only [if_neg htail]
      refine ⟨⟨henough, hfew'⟩, rfl, fun p hp => (hbyte p).trans ?_⟩
      by_cases hnew : 4096 * f.npages ≤ p ∧ p < 4096 * g.npages
      · rw [if_pos hnew, if_pos ⟨by omega, .inr hnew.1⟩]
      · rw [if_neg hnew, if_neg (by omega)]
  · rw [if_neg hgrow] at h
    obtain rfl := (Prod.mk.inj h).2
    by_cases hshrink : n < f.size
    · simp only [if_pos hshrink]
      unfold shrinkFile
      by_cases hkeep : (n + 4095) / 4096 ≥ f.npages
      · simp only [if_pos hkeep]
        exact ⟨⟨by show n ≤ 4096 * f.npages; omega, hfew⟩, rfl,
          fun p hp => by rw [if_neg (by omega)]; rfl⟩
      · simp only [if_neg hkeep]
        exact ⟨⟨by show n ≤ 4096 * ((n + 4095) / 4096); omega,
          by show (n + 4095) / 4096 < 2 ^ 31; omega⟩, rfl,
          fun p hp => by rw [if_neg (by omega)]; rfl⟩
    · simp only [if_neg hshrink]
      exact ⟨⟨by show n ≤ 4096 * f.npages; omega, hfew⟩, rfl,
        fun p hp => by rw [if_neg (by omega)]; rfl⟩

theorem tmpfsTruncate_error
    (h : tmpfsTruncate env f length = (.error e, f')) : SameContent f f' := by
  unfold tmpfsTruncate at h
  by_cases hneg : length < 0
  · rw [if_pos hneg] at h
    obtain rfl := (Prod.mk.inj h).2
    exact ⟨rfl, rfl, rfl⟩
  rw [if_neg hneg] at h
  by_cases hgrow : sizeT length > f.size
  · rcases hg : growFile env f (sizeT length) with ⟨e' | _, g⟩
    · simp only [if_pos hgrow, hg] at h
      obtain rfl := (Prod.mk.inj h).2
      exact growFile_error hg
    · simp [hgrow, hg] at h
  · simp [hgrow] at h

variable {s : TmpSys}

theorem vfsTruncate_spec (hf : s.file.Sound)
    (hmax : call.grow.maxPages < 2 ^ 31) (hlength : length < 2 ^ 63) :
    (vfsTruncate call s length).2.fds = s.fds ∧
      match (vfsTruncate call s length).1 with
      | .ok () => Resized s.file (vfsTruncate call s length).2.file length.toNat
      | .error _ => SameContent s.file (vfsTruncate call s length).2.file := by
  unfold vfsTruncate
  split_ifs
  · exact ⟨rfl, rfl, rfl, rfl⟩
  · exact ⟨rfl, rfl, rfl, rfl⟩
  · exact ⟨rfl, rfl, rfl, rfl⟩
  · rcases htr : tmpfsTruncate call.grow s.file length with ⟨e | _, f⟩
    · exact ⟨rfl, tmpfsTruncate_error htr⟩
    · exact ⟨rfl, (tmpfsTruncate_ok hf hmax hlength htr).2⟩

theorem writeRequest_take {taken : List UInt8}
    (h : writeRequest call src off = .ok taken) : ∃ count, taken = src.take count := by
  unfold writeRequest at h
  split_ifs at h
  split at h
  · simp at h
  · exact ⟨_, (Except.ok.inj h).symm⟩

/-- What `vfs_pwrite` does: without an error and with a count the bytes are stored, otherwise the
contents stay. -/
theorem vfsPwrite_spec
    (hf : s.file.Sound) (hmax : call.grow.maxPages < 2 ^ 31)
    (hstop : off + src.length + 4095 < 2 ^ 64) :
    (vfsPwrite call s src off).2.fds = s.fds ∧
      match (vfsPwrite call s src off).1 with
      | .ok (n + 1) => Stored s.file (vfsPwrite call s src off).2.file off (src.take (n + 1))
      | _ => SameContent s.file (vfsPwrite call s src off).2.file := by
  unfold vfsPwrite
  rcases hreq : writeRequest call src off with e | taken
  · exact ⟨rfl, rfl, rfl, rfl⟩
  obtain ⟨count, rfl⟩ := writeRequest_take hreq
  rcases htake : src.take count with _ | ⟨b, bs⟩
  · exact ⟨rfl, rfl, rfl, rfl⟩
  simp only
  refine ⟨trivial, ?_⟩
  have hlen : min count src.length = bs.length + 1 := by
    simpa using congrArg length htake
  rcases hst : tmpfsStore call.grow s.file (b :: bs) off with ⟨e | n, f⟩
  · exact tmpfsStore_error hst
  · obtain ⟨rfl, hstored⟩ := tmpfsStore_ok hf hmax (by rw [length_cons]; omega) hst
    have heq : src.take (bs.length + 1) = b :: bs := by
      rw [← hlen, ← htake, ← take_eq_take_min]
    simp only [length_cons, heq]
    exact hstored

/-- `vfs_write` is `vfs_pwrite` at the offset of the open file, which moves. -/
theorem vfsWrite_eq (call : CallEnv) (s : TmpSys) (k : ℕ) (src : List UInt8) :
    (vfsWrite call s k src).1 = (vfsPwrite call s src (s.writeOffset k)).1 ∧
      (vfsWrite call s k src).2.file = (vfsPwrite call s src (s.writeOffset k)).2.file := by
  unfold vfsWrite vfsPwrite
  simp only
  rcases writeRequest call src (s.writeOffset k) with e | _ | ⟨b, bs⟩
  · exact ⟨rfl, rfl⟩
  · exact ⟨rfl, rfl⟩
  · simp only
    rcases tmpfsStore call.grow s.file (b :: bs) (s.writeOffset k) with ⟨e | n, f⟩ <;>
      exact ⟨rfl, rfl⟩

theorem vfsWrite_offset {k : ℕ} (hf : s.file.Sound) (hmax : call.grow.maxPages < 2 ^ 31)
    (hstop : s.writeOffset k + src.length + 4095 < 2 ^ 64) (i : ℕ) :
    ((vfsWrite call s k src).2.fds i).offset = (s.fds i).offset ∨
      ((vfsWrite call s k src).2.fds i).offset = s.writeOffset k ∨
      ((vfsWrite call s k src).2.fds i).offset ≤ (vfsWrite call s k src).2.file.size := by
  unfold vfsWrite
  simp only
  rcases hreq : writeRequest call src (s.writeOffset k) with e | _ | ⟨b, bs⟩
  · exact .inl rfl
  · exact .inl rfl
  have hlen : (b :: bs).length ≤ src.length := by
    obtain ⟨count, hcount⟩ := writeRequest_take hreq
    rw [hcount]
    exact length_take_le' ..
  simp only
  rcases hst : tmpfsStore call.grow s.file (b :: bs) (s.writeOffset k) with ⟨e | n, f⟩
  · by_cases hi : i = k
    · subst hi
      exact .inr (.inl (by simp))
    · exact .inl (by simp [hi])
  · by_cases hi : i = k
    · subst hi
      have hsize := (tmpfsStore_ok hf hmax (by omega) hst).2.size
      refine .inr (.inr ?_)
      simp only [update_self]
      rw [Nat.mod_eq_of_lt (by omega), hsize]
      exact le_max_right ..
    · exact .inl (by simp [hi])

end Calls

/-! ## A run next to a byte array -/

/-- The contents of the file are those of the byte array, which holds zeros behind its end. -/
structure Matches (f : TmpFile) (t : ByteFile) : Prop where
  sound : f.Sound
  size : f.size = t.size
  byte : ∀ p < f.size, f.byte p = t.byte p
  beyond : ∀ p ≥ t.size, t.byte p = 0

/-- No page of the file holds anything but zeros from `a` to `b`. -/
def TmpFile.Blank (f : TmpFile) (a b : ℕ) : Prop :=
  ∀ p, a ≤ p → p < b → p < 4096 * f.npages → f.byte p = 0

/-- A byte array after a write that returned `r`. -/
def ByteFile.wrote (t : ByteFile) (off : ℕ) (src : List UInt8) : Except Errno ℕ → ByteFile
  | .ok (n + 1) => t.write off (src.take (n + 1))
  | _ => t

/-- A byte array after a truncation that returned `r`. -/
def ByteFile.resized (t : ByteFile) (n : ℕ) : Except Errno Unit → ByteFile
  | .ok () => t.resize n
  | .error _ => t

namespace Matches

variable {f f' : TmpFile} {t : ByteFile}

section

variable (h : Matches f t)
include h

theorem same (hsame : SameContent f f') : Matches f' t := by
  obtain ⟨pages, npages, cap, size⟩ := f'
  obtain ⟨rfl, rfl, rfl⟩ := hsame
  exact ⟨⟨h.sound.covered, h.sound.few⟩, h.size, h.byte, h.beyond⟩

variable {off n : ℕ} {src : List UInt8}

theorem store (hst : Stored f f' off src)
    (hblank : f.Blank f.size off) : Matches f' (t.write off src) := by
  have hcov := h.sound.covered
  have hcov' := hst.sound.covered
  have hsize := h.size
  have hsize' := hst.size
  refine ⟨hst.sound, by rw [hsize', hsize]; rfl, fun p hp => ?_, fun p hp => ?_⟩
  · rw [hst.byte p]
    show _ = if off ≤ p ∧ p < off + src.length then src.getD (p - off) 0 else t.byte p
    by_cases hin : off ≤ p ∧ p < off + src.length
    · rw [if_pos hin, if_pos hin]
    rw [if_neg hin, if_neg hin]
    by_cases hold : p < f.size
    · rw [if_neg (by omega), h.byte p hold]
    · -- the gap between the old end and the bytes
      rw [h.beyond p (by omega)]
      split_ifs with hnew
      · rfl
      · exact hblank p (by omega) (by omega) (by omega)
  · have hge : max t.size (off + src.length) ≤ p := hp
    show (if off ≤ p ∧ p < off + src.length then src.getD (p - off) 0 else t.byte p) = 0
    rw [if_neg (by omega), h.beyond p (by omega)]

theorem resize (hre : Resized f f' n)
    (hblank : f.Blank ((f.size + 4095) / 4096 * 4096) n) : Matches f' (t.resize n) := by
  have hsize := h.size
  have hsize' := hre.size
  refine ⟨hre.sound, hsize', fun p hp => ?_, fun p hp => ?_⟩
  · rw [hre.byte p (by omega)]
    rw [show (t.resize n).byte p = t.byte p from if_pos (by omega)]
    by_cases hold : p < f.size
    · rw [if_neg (by omega), h.byte p hold]
    · rw [h.beyond p (by omega)]
      split_ifs with hnew
      · rfl
      · exact hblank p (by omega) (by omega) (by omega)
  · have hge : n ≤ p := hp
    show (if p < n then t.byte p else 0) = 0
    rw [if_neg (by omega)]

theorem wrote (hblank : f.Blank f.size off) {r : Except Errno ℕ} (hr : match r with
      | .ok (n + 1) => Stored f f' off (src.take (n + 1))
      | _ => SameContent f f') : Matches f' (t.wrote off src r) := by
  rcases r with e | _ | n
  · exact h.same hr
  · exact h.same hr
  · exact h.store hr hblank

theorem resized (hblank : f.Blank ((f.size + 4095) / 4096 * 4096) n) {r : Except Errno Unit}
    (hr : match r with
      | .ok () => Resized f f' n
      | .error _ => SameContent f f') : Matches f' (t.resized n r) := by
  rcases r with e | _
  · exact h.same hr
  · exact h.resize hr hblank

theorem clear : Matches { f with size := 0 } (t.resize 0) :=
  ⟨⟨Nat.zero_le _, h.sound.few⟩, rfl, fun p hp => absurd hp (Nat.not_lt_zero p), fun _ _ => rfl⟩

theorem read (off len : ℕ) : ramfsReadLocked f off len = t.read off len := by
  have hcov := h.sound.covered
  unfold ramfsReadLocked ramfsRead ByteFile.read
  rw [← h.size]
  split_ifs with hoff
  · rw [readPages_eq (by decide) _ (le_refl _)]
    refine map_congr_left fun k hk => ?_
    rw [mem_range] at hk
    rw [if_pos ((has_div_iff f _).2 (by omega))]
    exact h.byte _ (by omega)
  · rw [show f.size - off = 0 by omega, min_zero, range_zero, map_nil]

end

end Matches

/-- The calls on a tmpfs file. -/
inductive TmpOp where
  | write (env : CallEnv) (k : ℕ) (src : List UInt8)
  | pwrite (env : CallEnv) (src : List UInt8) (off : ℕ)
  | read (k count : ℕ)
  | pread (count off : ℕ)
  | lseek (k : ℕ) (offset : ℤ) (whence : Whence)
  | truncate (env : CallEnv) (length : ℤ)
  | reopen (k : ℕ) (trunc append fdOk : Bool)

/-- The system after a call. -/
def tmpNext (s : TmpSys) : TmpOp → TmpSys
  | .write env k src => (vfsWrite env s k src).2
  | .pwrite env src off => (vfsPwrite env s src off).2
  | .read k count => (vfsRead s k count).2
  | .pread _ _ => s
  | .lseek k offset whence => (vfsLseek s k offset whence).2
  | .truncate env length => (vfsTruncate env s length).2
  | .reopen k trunc append fdOk => (vfsOpen s k trunc append fdOk).2

/-- What a call is for. -/
def asked (s : TmpSys) (t : ByteFile) : TmpOp → ByteFile
  | .write env k src => t.wrote (s.writeOffset k) src (vfsWrite env s k src).1
  | .pwrite env src off => t.wrote off src (vfsPwrite env s src off).1
  | .truncate env length => t.resized length.toNat (vfsTruncate env s length).1
  | .reopen _ trunc _ _ => if trunc then t.resize 0 else t
  | _ => t

/-- The system next to the byte array. -/
def besideNext (st : TmpSys × ByteFile) (op : TmpOp) : TmpSys × ByteFile :=
  (tmpNext st.1 op, asked st.1 st.2 op)

/-- Size and every read are those of the byte array. -/
def ShowsBytes (st : TmpSys × ByteFile) : Prop :=
  st.1.file.size = st.2.size ∧
    (∀ count off, vfsPread st.1 count off = st.2.read off count) ∧
    ∀ k count, (vfsRead st.1 k count).1 = st.2.read (st.1.fds k).offset count

/-- Arguments as the system call interface lets them through; there are less than 2³¹ pages. -/
def TmpOp.Valid : TmpOp → Prop
  | .write env _ src => src.length < 2 ^ 47 ∧ env.grow.maxPages < 2 ^ 31
  | .pwrite env src off => src.length < 2 ^ 47 ∧ off < 2 ^ 63 ∧ env.grow.maxPages < 2 ^ 31
  | .lseek _ offset _ => offset < 2 ^ 63
  | .truncate env length => length < 2 ^ 63 ∧ env.grow.maxPages < 2 ^ 31
  | _ => True

/-- The pages hold only zeros where the call makes them part of the file without writing there. -/
def TmpOp.Clean (s : TmpSys) : TmpOp → Prop
  | .write _ k _ => s.file.Blank s.file.size (s.writeOffset k)
  | .pwrite _ _ off => s.file.Blank s.file.size off
  | .truncate _ length => s.file.Blank ((s.file.size + 4095) / 4096 * 4096) length.toNat
  | _ => True

/-- A system that matches a byte array, with offsets that are positions. -/
structure Beside (st : TmpSys × ByteFile) : Prop where
  contents : Matches st.1.file st.2
  offsets : ∀ k, (st.1.fds k).offset < 2 ^ 63

namespace Beside

variable {st : TmpSys × ByteFile} {op : TmpOp}

section

variable (h : Beside st)
include h

theorem shows : ShowsBytes st :=
  ⟨h.contents.size, fun count off => h.contents.read off count,
    fun _ count => h.contents.read _ count⟩

variable {env : CallEnv} {k off : ℕ} {src : List UInt8}

theorem write (hv : (TmpOp.write env k src).Valid) (hc : (TmpOp.write env k src).Clean st.1) :
    Beside (besideNext st (.write env k src)) := by
  obtain ⟨hlen, hmax⟩ := hv
  have hsound := h.contents.sound
  have hpos : st.1.writeOffset k < 2 ^ 63 := by
    unfold TmpSys.writeOffset
    split_ifs
    · have := hsound.covered
      have := hsound.few
      omega
    · exact h.offsets k
  obtain ⟨hres, hfile⟩ := vfsWrite_eq env st.1 k src
  have hstop : st.1.writeOffset k + src.length + 4095 < 2 ^ 64 := by omega
  have hmatch : Matches (vfsWrite env st.1 k src).2.file
      (st.2.wrote (st.1.writeOffset k) src (vfsWrite env st.1 k src).1) := by
    rw [hres, hfile]
    exact h.contents.wrote hc (vfsPwrite_spec hsound hmax hstop).2
  refine ⟨hmatch, fun i => ?_⟩
  have := hmatch.sound.covered
  have := hmatch.sound.few
  rcases vfsWrite_offset hsound hmax hstop i with hoff | hoff | hoff
  · exact hoff ▸ h.offsets i
  · exact hoff ▸ hpos
  · show ((vfsWrite env st.1 k src).2.fds i).offset < 2 ^ 63
    omega

theorem pwrite
    (hv : (TmpOp.pwrite env src off).Valid) (hc : (TmpOp.pwrite env src off).Clean st.1) :
    Beside (besideNext st (.pwrite env src off)) := by
  obtain ⟨hlen, hoff, hmax⟩ := hv
  have hstop : off + src.length + 4095 < 2 ^ 64 := by omega
  obtain ⟨hfds, hspec⟩ := vfsPwrite_spec h.contents.sound hmax hstop
  refine ⟨h.contents.wrote hc hspec, fun i => ?_⟩
  show ((vfsPwrite env st.1 src off).2.fds i).offset < _
  rw [hfds]
  exact h.offsets i

theorem seek (k : ℕ) (hoff : off < 2 ^ 63) :
    Beside ({ st.1 with fds := update st.1.fds k { st.1.fds k with offset := off } },
      st.2) := by
  refine ⟨h.contents, fun i => ?_⟩
  by_cases hi : i = k
  · subst hi
    simpa using hoff
  · simpa [hi] using h.offsets i

theorem read (k count : ℕ) : Beside (besideNext st (.read k count)) := by
  refine h.seek k ?_
  have hlen : (ramfsReadLocked st.1.file (st.1.fds k).offset count).length ≤
      st.1.file.size - (st.1.fds k).offset := by
    rw [h.contents.read, ByteFile.read, length_map, length_range, h.contents.size]
    exact min_le_right ..
  have := h.offsets k
  have := h.contents.sound.covered
  have := h.contents.sound.few
  omega

theorem lseek {offset : ℤ} {whence : Whence} (hv : (TmpOp.lseek k offset whence).Valid) :
    Beside (besideNext st (.lseek k offset whence)) := by
  have hoff : offset < 2 ^ 63 := hv
  show Beside ((vfsLseek st.1 k offset whence).2, st.2)
  unfold vfsLseek
  simp only
  split_ifs with hneg
  · exact h
  · refine h.seek k ?_
    cases whence <;> simp only [Int.bmod] at hneg ⊢ <;> omega

theorem truncate {length : ℤ}
    (hv : (TmpOp.truncate env length).Valid) (hc : (TmpOp.truncate env length).Clean st.1) :
    Beside (besideNext st (.truncate env length)) := by
  obtain ⟨hlength, hmax⟩ := hv
  obtain ⟨hfds, hspec⟩ := vfsTruncate_spec h.contents.sound hmax hlength
  refine ⟨h.contents.resized hc hspec, fun i => ?_⟩
  show ((vfsTruncate env st.1 length).2.fds i).offset < _
  rw [hfds]
  exact h.offsets i

theorem reopen (k : ℕ) (trunc append fdOk : Bool) :
    Beside (besideNext st (.reopen k trunc append fdOk)) := by
  have hfile : Matches (vfsOpen st.1 k trunc append fdOk).2.file
      (if trunc then st.2.resize 0 else st.2) := by
    cases trunc <;> cases fdOk
    · exact h.contents
    · exact h.contents
    · exact h.contents.clear
    · exact h.contents.clear
  refine ⟨hfile, fun i => ?_⟩
  show ((vfsOpen st.1 k trunc append fdOk).2.fds i).offset < _
  have hfds : (vfsOpen st.1 k trunc append fdOk).2.fds i = st.1.fds i ∨
      (vfsOpen st.1 k trunc append fdOk).2.fds i = ⟨0, append⟩ := by
    unfold vfsOpen
    by_cases hi : i = k <;> cases trunc <;> cases fdOk <;> simp [hi]
  rcases hfds with hfd | hfd
  · exact hfd ▸ h.offsets i
  · rw [hfd]
    exact Nat.two_pow_pos 63

theorem next (hv : op.Valid) (hc : op.Clean st.1) : Beside (besideNext st op) := by
  cases op with
  | write env k src => exact h.write hv hc
  | pwrite env src off => exact h.pwrite hv hc
  | read k count => exact h.read k count
  | pread count off => exact h
  | lseek k offset whence => exact h.lseek hv
  | truncate env length => exact h.truncate hv hc
  | reopen k trunc append fdOk => exact h.reopen k trunc append fdOk

end

end Beside

/-- A tmpfs file as `vfs_open` creates it, with any open files on it. -/
def TmpSys.Fresh (s : TmpSys) : Prop :=
  s.file.size = 0 ∧ s.file.npages = 0 ∧ ∀ k, (s.fds k).offset < 2 ^ 63

/-- What a run is about: valid arguments and clean pages. -/
def TmpOk (st : TmpSys × ByteFile) (op : TmpOp) : Prop := op.Valid ∧ op.Clean st.1

/-- **tmpfs files are byte arrays with zero holes**, as long as no call makes bytes part of the
file that its pages still hold from before it was cut: after every run from an empty file, size and
reads are those of the array. -/
theorem tmpfs_shows_bytes {s : TmpSys} (hs : s.Fresh) {ops : List TmpOp}
    (hok : Along besideNext TmpOk (s, empty) ops) : ShowsBytes (run besideNext (s, empty) ops) := by
  obtain ⟨hsize, hnpages, hoffsets⟩ := hs
  have hstart : Beside (s, empty) :=
    ⟨⟨⟨by show s.file.size ≤ _; omega, by show s.file.npages < _; omega⟩, hsize,
      fun p hp => by rw [hsize] at hp; omega, fun _ _ => rfl⟩, hoffsets⟩
  exact (run_invariant (fun _ _ h hop => Beside.next h hop.1 hop.2) hstart hok).shows

/-- A fresh file. -/
def freshTmp : TmpSys where
  file := { pages := fun _ _ => 0, npages := 0, cap := 0, size := 0 }
  fds := fun _ => ⟨0, false⟩

/-- Memory for everything, no limit. -/
def roomy : CallEnv where
  limit := none
  readOnly := false
  grow := { container := true, others := 0, maxPages := 1000, page := fun _ => true }

theorem tmpfs_shows_bytes_hole :
    ShowsBytes (run besideNext (freshTmp, empty)
      [.write roomy 0 [1, 2, 3], .pwrite roomy [9] 5, .truncate roomy 4, .read 0 8]) := by
  refine tmpfs_shows_bytes ⟨rfl, rfl, fun _ => Nat.two_pow_pos 63⟩
    ⟨⟨⟨by decide, by decide⟩, ?_⟩, ⟨⟨by decide, by decide, by decide⟩, ?_⟩,
      ⟨⟨by decide, by decide⟩, ?_⟩, ⟨trivial, trivial⟩, trivial⟩
  · intro p _ hp _
    exact absurd hp (Nat.not_lt_zero p)
  · intro p h3 h5 _
    have h3 : 3 ≤ p := h3
    interval_cases p <;> decide +kernel
  · intro p hge hlt _
    have hge : 4096 ≤ p := hge
    omega

/-- After an open with `O_TRUNC` the bytes from before are still in the page: a write behind the
new end brings them back. -/
theorem tmpfs_brings_back_bytes :
    ¬ShowsBytes (run besideNext (freshTmp, empty)
      [.write roomy 0 [1, 2, 3], .reopen 1 true false true, .pwrite roomy [9] 2]) := by
  intro h
  exact absurd (h.2.1 3 0) (by decide +kernel)

end CosmoRT.Fs
