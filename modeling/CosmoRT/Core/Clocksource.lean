import CosmoRT.Lib.Run
import Mathlib

/-!
# Clock scale factors: `core/clocksource.c`

A counter that runs at `from_hz` is read in units of `to_hz` as `(cycles * mult) >> shift`.

* `calcMultShift` — `clocksource_calc_mult_shift`: one loop counts the bits a window of
  `max_sec` seconds needs above 32, the other looks for the largest shift whose factor leaves
  that many bits free.
* `calcMultShift_accurate` — **the factor is rounded to the nearest and overflows nowhere** in the
  window.
* `readings_accurate` — **the readings are exact up to two and never decrease**, as long as what
  the shifts cut off adds up to less than two and the base is not reset.
-/

namespace CosmoRT.Core

open Lib List

/-- The loop `while (tmp) { tmp >>= 1; sftacc--; }`. -/
def sftaccAfter (tmp sftacc : ℕ) : ℕ :=
  if tmp = 0 then sftacc else sftaccAfter (tmp / 2) (sftacc - 1)

/-- The factor tried at the shift `sft`, rounded to the nearest. -/
def scaleAt (fromHz toHz sft : ℕ) : ℕ := ((toHz <<< sft % 2 ^ 64) + fromHz / 2) % 2 ^ 64 / fromHz

/-- The loop `for (sft = 32; sft > 0; sft--)`, with the value of `tmp` it leaves behind. -/
def searchShift (fromHz toHz sftacc : ℕ) : ℕ → ℕ → ℕ × ℕ
  | 0, tmp => (tmp, 0)
  | sft + 1, _ =>
    let tmp := scaleAt fromHz toHz (sft + 1)
    if tmp >>> sftacc = 0 then (tmp, sft + 1) else searchShift fromHz toHz sftacc sft tmp

/-- `clocksource_calc_mult_shift`: the factor and the shift. -/
def calcMultShift (fromHz toHz maxSec : ℕ) : ℕ × ℕ :=
  let sftacc := sftaccAfter ((maxSec * fromHz % 2 ^ 64) >>> 32) 32
  let r := searchShift fromHz toHz sftacc 32 0
  (r.1 % 2 ^ 32, r.2)

theorem sftaccAfter_eq (tmp sftacc : ℕ) : sftaccAfter tmp sftacc = sftacc - tmp.size := by
  induction tmp using Nat.strong_induction_on generalizing sftacc with
  | _ tmp ih =>
    rw [sftaccAfter]
    split
    case isTrue h => simp [h]
    case isFalse h =>
      have hsize : tmp.size = (tmp / 2).size + 1 := by
        conv_lhs => rw [← Nat.bit_bodd_div2 tmp, Nat.size_bit (by simpa using h)]
        rw [Nat.div2_val]
      rw [ih _ (by omega)]
      omega

/-- What is left of 32 bits, times the bits counted, covers the window twice at most. -/
theorem two_pow_sftacc {n : ℕ} (h0 : n / 2 ^ 32 ≠ 0) (h : n < 2 ^ 64) :
    2 ^ 64 ≤ 2 ^ sftaccAfter (n >>> 32) 32 * (2 * n) := by
  rw [sftaccAfter_eq, Nat.shiftRight_eq_div_pow]
  have hle : (n / 2 ^ 32).size ≤ 32 := Nat.size_le.mpr (by omega)
  have hpos : 0 < (n / 2 ^ 32).size := Nat.size_pos.mpr (by omega)
  have hlow : 2 ^ ((n / 2 ^ 32).size - 1) ≤ n / 2 ^ 32 := Nat.lt_size.mp (by omega)
  have hn : 2 ^ ((n / 2 ^ 32).size - 1) * 2 ^ 32 ≤ n :=
    (Nat.mul_le_mul_right _ hlow).trans (Nat.div_mul_le_self _ _)
  have hsplit : 2 ^ (32 - (n / 2 ^ 32).size) * (2 * 2 ^ ((n / 2 ^ 32).size - 1)) = 2 ^ 32 := by
    rw [← pow_succ', ← pow_add]
    congr 1
    omega
  have hle' := Nat.mul_le_mul_left (2 ^ (32 - (n / 2 ^ 32).size)) (Nat.mul_le_mul_left 2 hn)
  rwa [← mul_assoc 2, ← mul_assoc, hsplit] at hle'

/-- The search ends at the largest shift whose factor passes the test, with that factor, or at 0. -/
theorem searchShift_spec (fromHz toHz sftacc n tmp : ℕ) :
    let r := searchShift fromHz toHz sftacc n tmp
    (1 ≤ r.2 → r.1 = scaleAt fromHz toHz r.2 ∧ r.1 < 2 ^ sftacc) ∧ r.2 ≤ n ∧
      ∀ s, r.2 < s → s ≤ n → scaleAt fromHz toHz s >>> sftacc ≠ 0 := by
  induction n generalizing tmp with
  | zero => exact ⟨fun h => absurd h (by simp [searchShift]), le_rfl, fun s h h' => by omega⟩
  | succ n ih =>
    rw [searchShift]
    by_cases htest : scaleAt fromHz toHz (n + 1) >>> sftacc = 0
    · rw [if_pos htest]
      refine ⟨fun _ => ⟨rfl, ?_⟩, le_rfl, fun s h h' => absurd h (not_lt.2 h')⟩
      rwa [Nat.shiftRight_eq_div_pow, Nat.div_eq_zero_iff_lt (by positivity)] at htest
    · rw [if_neg htest]
      obtain ⟨hpass, hle, hfail⟩ := ih (scaleAt fromHz toHz (n + 1))
      refine ⟨hpass, hle.trans (Nat.le_succ n), fun s h h' => ?_⟩
      rcases Nat.le_succ_iff.1 h' with h' | rfl
      · exact hfail s h h'
      · exact htest

theorem mul_two_pow_sftacc {n : ℕ} (h : n < 2 ^ 64) :
    n * 2 ^ sftaccAfter (n >>> 32) 32 ≤ 2 ^ 64 := by
  rw [sftaccAfter_eq, Nat.shiftRight_eq_div_pow]
  have hle : (n / 2 ^ 32).size ≤ 32 := Nat.size_le.mpr (by omega)
  have hn : n < 2 ^ (n / 2 ^ 32).size * 2 ^ 32 :=
    (Nat.div_lt_iff_lt_mul (by positivity)).1 (Nat.lt_size_self _)
  generalize (n / 2 ^ 32).size = b at *
  have hpow : 2 ^ b * 2 ^ 32 * 2 ^ (32 - b) = 2 ^ 64 := by
    rw [mul_right_comm, ← pow_add, Nat.add_sub_cancel' hle, ← pow_add]
  rw [← hpow]
  gcongr

/-- Without overflow the factor is the nearest to the exact one. -/
theorem scaleAt_near {fromHz toHz s : ℕ} (hfrom : 1 ≤ fromHz)
    (hscale : toHz * 2 ^ 32 + fromHz / 2 < 2 ^ 64) (hs : s ≤ 32) :
    |((scaleAt fromHz toHz s * fromHz : ℕ) : ℤ) - (toHz * 2 ^ s : ℕ)| ≤ (fromHz / 2 : ℕ) := by
  have hle := Nat.mul_le_mul_left toHz (Nat.pow_le_pow_right (show 0 < 2 by decide) hs)
  rw [scaleAt, Nat.shiftLeft_eq, Nat.mod_eq_of_lt (a := toHz * 2 ^ s) (by omega),
    Nat.mod_eq_of_lt (by omega)]
  have hdiv := Nat.div_add_mod' (toHz * 2 ^ s + fromHz / 2) fromHz
  have hmod := Nat.mod_lt (toHz * 2 ^ s + fromHz / 2) hfrom
  rw [abs_le]
  omega

/-- **The scale factors.**  A search that ends at a shift gives a factor of 32 bits that no number
of cycles of the window takes out of 64 bits, rounded to the nearest; no larger shift passes. -/
theorem calcMultShift_accurate {fromHz toHz maxSec : ℕ} (hfrom : 1 ≤ fromHz)
    (hwindow : maxSec * fromHz < 2 ^ 64) (hscale : toHz * 2 ^ 32 + fromHz / 2 < 2 ^ 64)
    (hs : 1 ≤ (calcMultShift fromHz toHz maxSec).2) :
    let r := calcMultShift fromHz toHz maxSec
    r.1 < 2 ^ 32 ∧ (∀ d ≤ maxSec * fromHz, d * r.1 < 2 ^ 64) ∧
      |((r.1 * fromHz : ℕ) : ℤ) - (toHz * 2 ^ r.2 : ℕ)| ≤ (fromHz / 2 : ℕ) ∧
      ∀ s, r.2 < s → s ≤ 32 →
        scaleAt fromHz toHz s >>> sftaccAfter ((maxSec * fromHz) >>> 32) 32 ≠ 0 := by
  have hbits : sftaccAfter ((maxSec * fromHz) >>> 32) 32 ≤ 32 := by
    rw [sftaccAfter_eq]
    exact Nat.sub_le ..
  have hroom := mul_two_pow_sftacc hwindow
  simp only [calcMultShift, Nat.mod_eq_of_lt hwindow] at hs ⊢
  generalize sftaccAfter ((maxSec * fromHz) >>> 32) 32 = sftacc at *
  obtain ⟨hpass, hle, hfail⟩ := searchShift_spec fromHz toHz sftacc 32 0
  obtain ⟨hfactor, hlt⟩ := hpass hs
  have h32 := hlt.trans_le (Nat.pow_le_pow_right (by decide) hbits)
  rw [Nat.mod_eq_of_lt h32]
  refine ⟨h32, fun d hd => ?_, hfactor ▸ scaleAt_near hfrom hscale hle, hfail⟩
  rcases Nat.eq_zero_or_pos d with rfl | hpos
  · simp
  · calc d * _ < d * 2 ^ sftacc := Nat.mul_lt_mul_of_pos_left hlt hpos
      _ ≤ maxSec * fromHz * 2 ^ sftacc := Nat.mul_le_mul_right _ hd
      _ ≤ 2 ^ 64 := hroom

/-- A counter of 1 GHz read in nanoseconds, with a window of a second. -/
theorem calcMultShift_accurate_gigahertz : (calcMultShift (10 ^ 9) (10 ^ 9) 1).1 < 2 ^ 32 :=
  (calcMultShift_accurate (by decide) (by decide) (by decide)
    (by simp [calcMultShift, sftaccAfter, searchShift, scaleAt])).1

/-! ## The registry -/

/-- `struct clocksource`; `mask` is `2 ^ width - 1`. -/
structure Clocksource where
  id : ℕ
  rating : ℤ
  width : ℕ
  mult : ℕ
  shift : ℕ
  width_le : width ≤ 64

/-- The list, `cs_cycle_last` and `cs_ns_base`. -/
structure ClockRegistry where
  sources : List Clocksource
  cycleLast : ℕ
  nsBase : ℕ
  /-- the cycles since the last reset -/
  total : ℕ
  /-- what the shifts have cut off meanwhile -/
  cut : ℕ
  /-- the values returned, the last one first, with the exact ones -/
  values : List (ℕ × ℕ)

namespace ClockRegistry

section

variable (s : ClockRegistry)

/-- The current source counts from 0 again. -/
def reset (cs : Clocksource) (cycles : ℕ) : ClockRegistry :=
  { s with cycleLast := cycles % 2 ^ cs.width, nsBase := 0, total := 0, cut := 0 }

/-- `clocksource_register` with `cs_insert_locked`; the counter shows `cycles`. -/
def register (cs : Clocksource) (cycles : ℕ) : ClockRegistry :=
  let ahead (x : Clocksource) : Bool := cs.rating ≤ x.rating
  let s' := { s with sources := s.sources.takeWhile ahead ++ cs :: s.sources.dropWhile ahead }
  if s.sources.head?.all (·.rating < cs.rating) then s'.reset cs cycles else s'

/-- `clocksource_unregister`. -/
def unregister (id cycles : ℕ) : ClockRegistry :=
  match s.sources.eraseP (·.id == id) with
  | [] => { s with sources := [] }
  | cs :: rest => { s with sources := cs :: rest }.reset cs cycles

/-- `clocksource_read_ns`, `d` cycles after the counter was read last. -/
def readNs (d : ℕ) : ClockRegistry :=
  match s.sources with
  | [] => { s with values := (0, 0) :: s.values }
  | cs :: _ =>
    let cycles := (s.cycleLast + d) % 2 ^ cs.width
    let delta := (cycles + 2 ^ 64 - s.cycleLast) % 2 ^ 64 % 2 ^ cs.width
    let ns := (s.nsBase + (delta * cs.mult % 2 ^ 64) >>> cs.shift) % 2 ^ 64
    { s with
      cycleLast := cycles
      nsBase := ns
      total := s.total + d
      cut := s.cut + d * cs.mult % 2 ^ cs.shift
      values := (ns, (s.total + d) * cs.mult / 2 ^ cs.shift) :: s.values }

end

end ClockRegistry

inductive ClocksourceOp where
  | register (cs : Clocksource) (cycles : ℕ)
  | unregister (id cycles : ℕ)
  | read (d : ℕ)

def clocksourceNext (s : ClockRegistry) : ClocksourceOp → ClockRegistry
  | .register cs cycles => s.register cs cycles
  | .unregister id cycles => s.unregister id cycles
  | .read d => s.readNs d

def noClocksource : ClockRegistry := ⟨[], 0, 0, 0, 0, []⟩

/-- Nothing is reset once time has passed; the counter does not go round between two readings, what
is cut off stays below two, and 64 bits suffice. -/
def clocksourceFine (s : ClockRegistry) : ClocksourceOp → Prop
  | .register cs _ => s.nsBase = 0 ∨ ∃ x ∈ s.sources.head?, cs.rating ≤ x.rating
  | .unregister _ _ => s.nsBase = 0
  | .read d => ∃ x ∈ s.sources.head?, d < 2 ^ x.width ∧ d * x.mult < 2 ^ 64 ∧
      s.cut + d * x.mult % 2 ^ x.shift < 2 * 2 ^ x.shift ∧
      s.nsBase + d * x.mult / 2 ^ x.shift < 2 ^ 64

/-- The base and what was cut off are the exact time. -/
structure ClockRegistry.Sound (s : ClockRegistry) : Prop where
  last : ∀ x ∈ s.sources.head?, s.cycleLast < 2 ^ x.width
  exact : ∀ x ∈ s.sources.head?, s.nsBase * 2 ^ x.shift + s.cut = s.total * x.mult
  le : ∀ v ∈ s.values, v.1 ≤ s.nsBase
  sorted : s.values.Pairwise (·.1 ≥ ·.1)
  close : ∀ v ∈ s.values, v.1 ≤ v.2 ∧ v.2 < v.1 + 2

variable {s : ClockRegistry} {cs : Clocksource}

theorem ClockRegistry.Sound.reset (h : s.Sound) (h0 : s.nsBase = 0) (rest : List Clocksource)
    (cycles : ℕ) : ({ s with sources := cs :: rest }.reset cs cycles).Sound where
  last := by
    rintro x ⟨⟩
    exact Nat.mod_lt _ (by positivity)
  exact := by simp [ClockRegistry.reset]
  le v hv := h0 ▸ h.le v hv
  sorted := h.sorted
  close := h.close

theorem ClockRegistry.Sound.register (h : s.Sound) {cycles : ℕ}
    (hok : clocksourceFine s (.register cs cycles)) : (s.register cs cycles).Sound := by
  unfold ClockRegistry.register
  rcases hs : s.sources with _ | ⟨x, rest⟩
  · have h0 : s.nsBase = 0 := by simpa [clocksourceFine, hs] using hok
    exact h.reset h0 [] cycles
  by_cases hx : cs.rating ≤ x.rating
  · have hlast := h.last
    have hexact := h.exact
    rw [hs] at hlast hexact
    simp only [takeWhile_cons, head?_cons, Option.all_some, hx, decide_true, if_true,
      not_lt.2 hx, decide_false]
    exact ⟨hlast, hexact, h.le, h.sorted, h.close⟩
  · have h0 : s.nsBase = 0 := by simpa [clocksourceFine, hs, hx] using hok
    simpa [hx, not_le.1 hx] using h.reset h0 (x :: rest) cycles

/-- The counter may have gone round once. -/
theorem delta_eq_of_lt {l d w : ℕ} (hw : w ≤ 64) (hl : l < 2 ^ w) (hd : d < 2 ^ w) :
    ((l + d) % 2 ^ w + 2 ^ 64 - l) % 2 ^ 64 % 2 ^ w = d := by
  have hdvd : 2 ^ w ∣ 2 ^ 64 := Nat.pow_dvd_pow 2 hw
  have hle := Nat.le_of_dvd (by decide) hdvd
  rw [Nat.mod_mod_of_dvd _ hdvd]
  refine Nat.mod_eq_of_modEq (Nat.ModEq.add_right_cancel' l ?_) hd
  rw [Nat.sub_add_cancel (by omega), add_comm d]
  exact (Nat.mod_modEq ..).add (Nat.modEq_zero_iff_dvd.2 hdvd)

theorem ClockRegistry.Sound.read (h : s.Sound) {d : ℕ} (hok : clocksourceFine s (.read d)) :
    (s.readNs d).Sound := by
  obtain ⟨x, hx, hd, hprod, hcut, hns⟩ := hok
  obtain ⟨rest, hs⟩ := head?_eq_some_iff.1 hx
  have hpow : 0 < 2 ^ x.shift := by positivity
  -- the exact time is the new base with all that was cut off
  have hexact : (s.nsBase + d * x.mult / 2 ^ x.shift) * 2 ^ x.shift +
      (s.cut + d * x.mult % 2 ^ x.shift) = (s.total + d) * x.mult := by
    have hsplit := Nat.div_add_mod' (d * x.mult) (2 ^ x.shift)
    rw [add_mul, add_mul, ← h.exact x hx]
    omega
  have hle : ∀ v ∈ s.values, v.1 ≤ s.nsBase + d * x.mult / 2 ^ x.shift :=
    fun v hv => (h.le v hv).trans (Nat.le_add_right ..)
  unfold ClockRegistry.readNs
  rw [hs]
  dsimp only
  rw [delta_eq_of_lt x.width_le (h.last x hx) hd, Nat.mod_eq_of_lt hprod, Nat.shiftRight_eq_div_pow,
    Nat.mod_eq_of_lt hns]
  constructor
  · rintro y ⟨⟩
    exact Nat.mod_lt _ (by positivity)
  · rintro y ⟨⟩
    exact hexact
  · exact forall_mem_cons.2 ⟨le_rfl, hle⟩
  · exact pairwise_cons.2 ⟨hle, h.sorted⟩
  · refine forall_mem_cons.2 ⟨⟨?_, ?_⟩, h.close⟩
    · exact (Nat.le_div_iff_mul_le hpow).2 ((Nat.le_add_right ..).trans_eq hexact)
    · refine (Nat.div_lt_iff_lt_mul hpow).2 (hexact.symm.trans_lt ?_)
      rw [add_mul _ 2]
      exact Nat.add_lt_add_left hcut _

/-- **The readings.**  In every run in which nothing is reset once time has passed, what the shifts
cut off stays below two and 64 bits suffice, the values never decrease, and each is less than two
below the exact one. -/
theorem readings_accurate (ops : List ClocksourceOp)
    (hok : Along clocksourceNext clocksourceFine noClocksource ops) :
    let values := (run clocksourceNext noClocksource ops).values
    values.Pairwise (·.1 ≥ ·.1) ∧ ∀ v ∈ values, v.1 ≤ v.2 ∧ v.2 < v.1 + 2 := by
  have h : (run clocksourceNext noClocksource ops).Sound := by
    refine run_invariant (fun s op h hop => ?_) ?_ hok
    · cases op with
      | register cs cycles => exact h.register hop
      | unregister id cycles =>
        dsimp only [clocksourceNext, ClockRegistry.unregister]
        split
        · exact ⟨by simp, by simp, h.le, h.sorted, h.close⟩
        · exact h.reset hop ..
      | read d => exact h.read hop
    · constructor <;> simp [noClocksource]
  exact ⟨h.sorted, h.close⟩

/-- Half a nanosecond per cycle. -/
def halfNs : Clocksource := ⟨0, 100, 32, 1, 1, by decide⟩

theorem two_readings_accurate : (run clocksourceNext noClocksource
    [.register halfNs 0, .read 3, .read 3]).values.Pairwise (·.1 ≥ ·.1) :=
  (readings_accurate [.register halfNs 0, .read 3, .read 3]
    ⟨.inl rfl, ⟨halfNs, rfl, by decide⟩, ⟨halfNs, rfl, by decide⟩, trivial⟩).1

/-- Four readings one cycle apart lose two nanoseconds; a better source begins at 0. -/
theorem readings_lost :
    (run clocksourceNext noClocksource
      (.register halfNs 0 :: .replicate 4 (.read 1))).values.head? =
      some (0, 2) ∧ (run clocksourceNext noClocksource
      [.register halfNs 0, .read 10, .register { halfNs with rating := 300 } 0, .read 0]).values =
      [(0, 0), (5, 5)] := by
  decide

end CosmoRT.Core
