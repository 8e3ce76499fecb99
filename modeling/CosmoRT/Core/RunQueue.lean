import CosmoRT.Lib.Fifo
import CosmoRT.Proc.Thread

/-!
# The run queues: `sched_add`, `sched_pick`, `sched_dequeue`

32 singly linked queues, one for each priority, and a bitmap of those that are not empty.  The
functions look for a thread in the queue of its *present* priority only, and priorities are changed
by `pi_boost`, `pi_unboost` and `do_sched_setscheduler`.

* `Consistent` — the queues hold the lists `q`, each thread in the queue of its priority, and the
  bitmap says which are not empty.
* `run_queues_consistent` — **the queues stay consistent as long as no priority changes under a
  thread that is queued.**
* `boosted_thread_queued_twice` — a thread that is boosted while it is queued ends up in two queues.
-/

namespace CosmoRT.Core

open Function Lib List BitVec
open Proc (ThreadState clampPrio)

variable {ι : Type} [DecidableEq ι] [Fintype ι]

/-- `rq` (its heads are `first`, its tails `last`, and `rq_next` is `next`), `rq_bitmap` and the
fields of the threads. -/
structure RunQueues (ι : Type) extends Fifos ι where
  rqBitmap : BitVec 32
  state : ι → ThreadState
  priority : ι → ℤ
  savedPriority : ι → ℤ
  schedPolicy : ι → ℤ
  /-- added, and neither picked nor dequeued since -/
  waiting : ι → Bool

section

variable (s : RunQueues ι)

/-- The queue on which `sched_add` and `sched_dequeue` look for a thread. -/
def RunQueues.prio (t : ι) : ℕ := clampPrio (s.priority t)

/-- `sched_add`; `none` stands for a walk that does not end. -/
def schedAdd (t : ι) : Option (RunQueues ι) :=
  let prio := s.prio t
  let s := { s with
    state := update s.state t .RUNNABLE, waiting := update s.waiting t true }
  match s.walk t (Fintype.card ι) (s.first prio) with
  | none => none
  | some true => some s
  | some false =>
    some { s with toFifos := s.append prio t, rqBitmap := s.rqBitmap ||| 1#32 <<< prio }

/-- The first thread of a queue leaves it, in `sched_pick` and in `sched_dequeue`. -/
def RunQueues.takeFirst (prio : ℕ) (t : ι) : RunQueues ι :=
  { s with
    toFifos := s.pop prio t
    rqBitmap := if s.next t = none then s.rqBitmap &&& ~~~(1#32 <<< prio) else s.rqBitmap
    waiting := update s.waiting t false }

/-- `sched_pick`. -/
def schedPick : Option ι × RunQueues ι :=
  if s.rqBitmap = 0 then (none, s)
  else
    let prio := 31 - s.rqBitmap.clz.toNat
    match s.first prio with
    | none => (none, s)
    | some t => (some t, s.takeFirst prio t)

/-- `sched_dequeue`. -/
def schedDequeue : Option ι → Option (RunQueues ι)
  | none => some s
  | some t =>
    let prio := s.prio t
    if s.first prio = some t then some (s.takeFirst prio t)
    else
      match s.before t (Fintype.card ι) none (s.first prio) with
      | none => none
      | some prev =>
        let s := { s with waiting := update s.waiting t false }
        match prev with
        | some p =>
          if s.next p = some t then some { s with toFifos := s.excise prio p t }
          else some { s with next := update s.next t none }
        | none => some { s with next := update s.next t none }

/-- `pi_boost`. -/
def piBoost (owner : Option ι) (prio : ℤ) : RunQueues ι :=
  match owner with
  | none => s
  | some o =>
    if s.priority o ≥ prio then s
    else
      { s with
        savedPriority :=
          if s.savedPriority o < 0 then update s.savedPriority o (s.priority o)
          else s.savedPriority
        priority := update s.priority o prio }

/-- `pi_unboost`. -/
def piUnboost (owner : Option ι) : RunQueues ι :=
  match owner with
  | none => s
  | some o =>
    if s.savedPriority o < 0 then s
    else
      { s with
        priority := update s.priority o (s.savedPriority o)
        savedPriority := update s.savedPriority o (-1) }

/-- `do_sched_setscheduler` by the thread `t`: without a parameter, with one that cannot be read,
or with a priority. -/
def doSchedSetscheduler (t : ι) (policy : ℤ) (param : Option (Option ℤ)) : RunQueues ι :=
  if policy < 0 ∨ policy > 2 then s
  else
    let s := { s with schedPolicy := update s.schedPolicy t policy }
    match param with
    | none => s
    | some none => s
    | some (some prio) =>
      if prio < 0 ∨ prio ≥ 32 then s
      else { s with priority := update s.priority t prio }

/-- The steps. -/
inductive RqOp (ι : Type) where
  | add (t : ι)
  | pick
  | dequeue (t : Option ι)
  | boost (owner : Option ι) (prio : ℤ)
  | unboost (owner : Option ι)
  | setscheduler (t : ι) (policy : ℤ) (param : Option (Option ℤ))

def rqStep : RqOp ι → Option (RunQueues ι)
  | .add t => schedAdd s t
  | .pick => some (schedPick s).2
  | .dequeue t => schedDequeue s t
  | .boost owner prio => some (piBoost s owner prio)
  | .unboost owner => some (piUnboost s owner)
  | .setscheduler t policy param => some (doSchedSetscheduler s t policy param)

end

/-- A run ends where a walk does not. -/
def rqNext (s : Option (RunQueues ι)) (op : RqOp ι) : Option (RunQueues ι) :=
  s.bind (rqStep · op)

/-! ## What the functions do to the lists -/

/-- The queues hold the lists `q`. -/
structure Consistent (s : RunQueues ι) (q : ℕ → List ι) : Prop where
  holds : s.Holds q
  /-- every thread is in the queue of its priority -/
  placed : ∀ p, ∀ t ∈ q p, p = s.prio t
  bitmap : ∀ p < 32, s.rqBitmap.getLsbD p = true ↔ q p ≠ []
  waiting : ∀ t, s.waiting t = true ↔ ∃ p, t ∈ q p

variable {p i : ℕ} {s : RunQueues ι}

theorem getLsbD_setBit (b : BitVec 32) (hi : i < 32) :
    (b ||| 1#32 <<< p).getLsbD i = (b.getLsbD i || decide (i = p)) := by
  rw [getLsbD_or, ← twoPow_eq]
  by_cases h : i = p
  · subst h; simp [hi]
  · simp [h, Ne.symm h]

theorem getLsbD_clearBit (b : BitVec 32) (hi : i < 32) :
    (b &&& ~~~(1#32 <<< p)).getLsbD i = (b.getLsbD i && decide (i ≠ p)) := by
  rw [getLsbD_and, getLsbD_not, ← twoPow_eq]
  by_cases h : i = p
  · subst h; simp [hi]
  · simp [h, hi]

/-- `31 - __builtin_clz(b)` is the highest bit that is set. -/
theorem highest_bit {b : BitVec 32} (hb : b ≠ 0) :
    b.getLsbD (31 - b.clz.toNat) = true ∧ ∀ i, 31 - b.clz.toNat < i → b.getLsbD i = false := by
  refine ⟨getLsbD_true_clz_of_ne_zero (by decide) hb, fun i hi => ?_⟩
  have hlt := toNat_lt_two_pow_sub_clz (x := b)
  have hle : 32 - b.clz.toNat ≤ i := by omega
  exact Nat.testBit_lt_two_pow (hlt.trans_le (Nat.pow_le_pow_right (by decide) hle))

namespace Consistent

variable {s : RunQueues ι} {q : ℕ → List ι} {t : ι}

omit [DecidableEq ι] in
/-- No list is longer than the number of threads, so that no walk is cut short. -/
theorem length_le (h : Consistent s q) (p : ℕ) : (q p).length ≤ Fintype.card ι :=
  (h.holds.filed.nodup p).length_le_card

omit [DecidableEq ι] [Fintype ι] in
theorem notMem_of_notMem (h : Consistent s q) (ht : t ∉ q (s.prio t)) (p : ℕ) : t ∉ q p :=
  fun hp => ht (h.placed p t hp ▸ hp)

omit [Fintype ι] in
/-- The queues change by one thread, which now waits or not. -/
theorem change (h : Consistent s q) {s' : RunQueues ι} {q' : ℕ → List ι} {b : Bool}
    (hholds : s'.Holds q') (hother : ∀ p u, u ≠ t → (u ∈ q' p ↔ u ∈ q p))
    (hself : ∀ p, t ∈ q' p ↔ b = true ∧ p = s.prio t)
    (hbitmap : ∀ p < 32, s'.rqBitmap.getLsbD p = true ↔ q' p ≠ [])
    (hprio : s'.priority = s.priority) (hwaiting : s'.waiting = update s.waiting t b) :
    Consistent s' q' := by
  have hsame : ∀ u, s'.prio u = s.prio u := fun u => by rw [RunQueues.prio, hprio]; rfl
  refine ⟨hholds, fun p u hu => ?_, hbitmap, fun u => ?_⟩ <;> by_cases hut : u = t
  · subst hut
    rw [hsame]
    exact ((hself p).1 hu).2
  · rw [hsame]
    exact h.placed p u ((hother p u hut).1 hu)
  · subst hut
    simp [hwaiting, hself]
  · simpa [hwaiting, hother _ u hut, hut] using h.waiting u

/-- `sched_add` puts a thread that is in no queue at the end of that of its priority. -/
theorem schedAdd (h : Consistent s q) (t : ι) :
    ∃ s', schedAdd s t = some s' ∧
      Consistent s' (if t ∈ q (s.prio t) then q
        else update q (s.prio t) (q (s.prio t) ++ [t])) := by
  have hwalk := (h.holds.filed.spells (s.prio t)).walk t (h.length_le (s.prio t))
  rw [Core.schedAdd]
  rw [hwalk]
  by_cases ht : t ∈ q (s.prio t)
  · rw [if_pos ht, decide_eq_true ht]
    refine ⟨_, rfl, h.change h.holds (fun _ _ _ => Iff.rfl) (fun p => ?_) h.bitmap rfl rfl⟩
    refine ⟨fun hp => ⟨rfl, h.placed p t hp⟩, ?_⟩
    rintro ⟨-, rfl⟩
    exact ht
  · rw [if_neg ht, decide_eq_false ht]
    have hout := h.notMem_of_notMem ht
    refine ⟨_, rfl, h.change (h.holds.append _ hout) (fun p u hu => ?_) (fun p => ?_)
      (fun p hp => ?_) rfl rfl⟩
    · by_cases hp : p = s.prio t
      · simp [hp, hu]
      · simp [hp]
    · by_cases hp : p = s.prio t
      · simp [hp]
      · simp [hp, hout p]
    · rw [getLsbD_setBit _ hp]
      by_cases hpt : p = s.prio t
      · simp [hpt]
      · simpa [hpt] using h.bitmap p hp

/-- The lists are kept as `Proc.schedAdd` keeps them, with the threads under their numbers. -/
theorem schedAdd_kernel (h : Consistent s q) {tid : ι → ℕ} (htid : tid.Injective)
    {k : Proc.Kernel} {x : Proc.Thread} (hq : ∀ p, (q p).map tid = k.rq p)
    (hx : k.threads (tid t) = some x) (hprio : x.priority = s.priority t) :
    ∃ s' q', Core.schedAdd s t = some s' ∧ Consistent s' q' ∧
      ∀ p, (q' p).map tid = (Proc.schedAdd k (tid t)).rq p := by
  obtain ⟨s', heq, hs'⟩ := h.schedAdd t
  refine ⟨s', _, heq, hs', fun p => ?_⟩
  have hlevel : clampPrio x.priority = s.prio t := by rw [hprio, RunQueues.prio]
  have hmem : tid t ∈ k.rq (s.prio t) ↔ t ∈ q (s.prio t) := by
    rw [← hq, mem_map_of_injective htid]
  rw [Proc.schedAdd, hx]
  dsimp only
  rw [hlevel]
  by_cases ht : t ∈ q (s.prio t)
  · rw [if_pos ht, if_pos (hmem.2 ht)]
    exact hq p
  · rw [if_neg ht, if_neg (hmem.not.2 ht)]
    by_cases hp : p = s.prio t
    · simp [hp, hq]
    · simpa [hp] using hq p

omit [Fintype ι] in
theorem takeFirst (h : Consistent s q) {p : ℕ} {rest : List ι} (hq : q p = t :: rest) :
    Consistent (s.takeFirst p t) (update q p rest) := by
  have hnodup := h.holds.filed.nodup p
  rw [hq] at hnodup
  have hspells := h.holds.filed.spells p
  rw [hq] at hspells
  refine h.change (b := false) (h.holds.pop hq) (fun k u hu => ?_) (fun k => ?_) (fun k hk => ?_)
    rfl rfl
  · by_cases hkp : k = p
    · simp [hkp, hq, hu]
    · simp [hkp]
  · have hout : t ∉ update q p rest k := by
      by_cases hkp : k = p
      · rw [hkp, update_self]
        exact (nodup_cons.1 hnodup).1
      · rw [update_of_ne hkp]
        exact fun ht => hkp (h.holds.filed.apart k p t ht (by simp [hq]))
    simp [hout]
  · have hnext : s.next t = none ↔ rest = [] := by
      cases rest with
      | nil => exact iff_of_true hspells.2 rfl
      | cons b rest => simp [hspells.2.1]
    have hold := h.bitmap k hk
    by_cases hkp : k = p
    · subst hkp
      by_cases hr : rest = []
      · simp [RunQueues.takeFirst, hnext.2 hr, getLsbD_clearBit _ hk, hr]
      · have hnn : s.next t ≠ none := fun hn => hr (hnext.1 hn)
        simpa [RunQueues.takeFirst, hnn, hr, hq] using hold
    · rw [update_of_ne hkp, ← hold, RunQueues.takeFirst]
      split_ifs
      · rw [getLsbD_clearBit _ hk]
        simp [hkp]
      · rfl

omit [Fintype ι] in
/-- `sched_pick` takes the first thread of the highest queue that is not empty. -/
theorem schedPick (h : Consistent s q) :
    (schedPick s = (none, s) ∧ ∀ p < 32, q p = []) ∨
      ∃ p t rest, q p = t :: rest ∧ (∀ k < 32, p < k → q k = []) ∧
        schedPick s = (some t, s.takeFirst p t) := by
  rw [Core.schedPick]
  by_cases hb : s.rqBitmap = 0
  · left
    refine ⟨if_pos hb, fun p hp => ?_⟩
    have hbit := h.bitmap p hp
    rw [hb] at hbit
    simpa using hbit
  · right
    rw [if_neg hb]
    obtain ⟨hset, hhigh⟩ := highest_bit hb
    set p := 31 - s.rqBitmap.clz.toNat with hpdef
    have hne : q p ≠ [] := (h.bitmap p (by omega)).1 hset
    obtain ⟨t, rest, hq⟩ := exists_cons_of_ne_nil hne
    refine ⟨p, t, rest, hq, fun k hk hpk => ?_, ?_⟩
    · have hbit := h.bitmap k hk
      rw [hhigh k hpk] at hbit
      simpa using hbit
    · have hspells := h.holds.filed.spells p
      rw [hq] at hspells
      simp only [hspells.1]

theorem schedDequeue (h : Consistent s q) (t : ι) :
    ∃ s' q', schedDequeue s (some t) = some s' ∧ Consistent s' q' ∧ ∀ p, t ∉ q' p := by
  -- a thread that does not wait is in no queue
  suffices hw : ∃ s' q', Core.schedDequeue s (some t) = some s' ∧ Consistent s' q' ∧
      s'.waiting t = false by
    obtain ⟨s', q', heq, hs', hwait⟩ := hw
    refine ⟨s', q', heq, hs', fun p hp => ?_⟩
    have hin := (hs'.waiting t).2 ⟨p, hp⟩
    simp [hwait] at hin
  have hspells := h.holds.filed.spells (s.prio t)
  have hnodup := h.holds.filed.nodup (s.prio t)
  have hlen := h.length_le (s.prio t)
  rw [Core.schedDequeue]
  by_cases hfirst : s.first (s.prio t) = some t
  · rw [if_pos hfirst]
    cases hq : q (s.prio t) with
    | nil =>
      rw [hq, hfirst] at hspells
      cases hspells
    | cons x rest =>
      rw [hq, hfirst] at hspells
      obtain rfl : t = x := Option.some.inj hspells.1
      exact ⟨_, _, rfl, h.takeFirst hq, by simp [RunQueues.takeFirst]⟩
  · rw [if_neg hfirst]
    by_cases ht : t ∈ q (s.prio t)
    · obtain ⟨as, bs, hq, has⟩ := eq_append_cons_of_mem ht
      rw [hq] at hspells hlen hnodup
      have hne : as ≠ [] := by
        rintro rfl
        exact hfirst hspells.1
      obtain ⟨p, hp⟩ : ∃ p, as.getLast? = some p := ⟨_, getLast?_eq_some_getLast hne⟩
      have hnext : s.next p = some t := hspells.next_getLast hp
      rw [hspells.before has (Or.inr ⟨bs, rfl⟩) hlen none, hp]
      dsimp only [Option.some_or]
      rw [if_pos hnext]
      refine ⟨_, _, rfl, h.change (b := false) (h.holds.excise hq hp)
        (fun k u hu => ?_) (fun k => ?_) (fun k hk => ?_) rfl rfl, by simp⟩
      · by_cases hkp : k = s.prio t
        · simp [hkp, hq, hu]
        · simp [hkp]
      · have hbs : t ∉ bs := (nodup_cons.1 (nodup_append.1 hnodup).2.1).1
        by_cases hkp : k = s.prio t
        · simp [hkp, has, hbs]
        · simpa [hkp] using fun ht => hkp (h.placed k t ht)
      · have hold := h.bitmap k hk
        by_cases hkp : k = s.prio t
        · subst hkp
          simpa [hq, hne] using hold
        · rwa [update_of_ne hkp]
    · have hout := h.notMem_of_notMem ht
      have hgone : Consistent { s with
          next := update s.next t none, waiting := update s.waiting t false } q :=
        h.change (h.holds.forget hout) (fun _ _ _ => Iff.rfl) (fun k => by simp [hout k]) h.bitmap
          rfl rfl
      have hspells' : s.Spells (s.first (s.prio t)) (q (s.prio t) ++ []) := by
        rwa [append_nil]
      rw [hspells'.before ht (Or.inl rfl) (by simpa using hlen) none]
      cases hp : (q (s.prio t)).getLast? with
      | none => exact ⟨_, q, rfl, hgone, by simp⟩
      | some p =>
        have hnext : s.next p ≠ some t := by simp [hspells'.next_getLast hp]
        dsimp only [Option.some_or]
        rw [if_neg hnext]
        exact ⟨_, q, rfl, hgone, by simp⟩

omit [Fintype ι] in
/-- A priority may change when the thread is in no queue or stays on its level. -/
theorem reprioritise (h : Consistent s q) {s' : RunQueues ι} {prio : ℤ}
    (hlevel : s.waiting t = true → clampPrio prio = s.prio t) (hfifos : s'.toFifos = s.toFifos)
    (hbitmap : s'.rqBitmap = s.rqBitmap) (hwaiting : s'.waiting = s.waiting)
    (hprio : s'.priority = update s.priority t prio) : Consistent s' q := by
  refine ⟨hfifos ▸ h.holds, fun p u hu => ?_, hbitmap ▸ h.bitmap, hwaiting ▸ h.waiting⟩
  rw [h.placed p u hu, RunQueues.prio, RunQueues.prio, hprio]
  by_cases hut : u = t
  · subst hut
    rw [update_self, hlevel ((h.waiting u).2 ⟨p, hu⟩), RunQueues.prio]
  · rw [update_of_ne hut]

end Consistent

/-! ## Runs -/

/-- The condition on a step: a change of priority does not take a thread that waits to another
level. -/
def RqOk (s : RunQueues ι) : RqOp ι → Prop
  | .boost (some o) prio => s.waiting o = true → s.priority o < prio → clampPrio prio = s.prio o
  | .unboost (some o) =>
    s.waiting o = true → 0 ≤ s.savedPriority o → clampPrio (s.savedPriority o) = s.prio o
  | .setscheduler t policy (some (some prio)) =>
    s.waiting t = true → 0 ≤ policy ∧ policy ≤ 2 → 0 ≤ prio ∧ prio < 32 →
      clampPrio prio = s.prio t
  | _ => True

/-- Every step that meets the condition ends and keeps the queues consistent. -/
theorem Consistent.step {q : ℕ → List ι} (h : Consistent s q) {op : RqOp ι}
    (hok : RqOk s op) : ∃ s' q', rqStep s op = some s' ∧ Consistent s' q' := by
  cases op with
  | add t =>
    obtain ⟨s', heq, hs'⟩ := h.schedAdd t
    exact ⟨s', _, heq, hs'⟩
  | pick =>
    rcases h.schedPick with ⟨heq, -⟩ | ⟨p, t, rest, hq, -, heq⟩
    · exact ⟨s, q, by rw [rqStep, heq], h⟩
    · exact ⟨_, _, by rw [rqStep, heq], h.takeFirst hq⟩
  | dequeue t =>
    cases t with
    | none => exact ⟨s, q, rfl, h⟩
    | some t =>
      obtain ⟨s', q', heq, hs', -⟩ := h.schedDequeue t
      exact ⟨s', q', heq, hs'⟩
  | boost owner prio =>
    refine ⟨_, q, rfl, ?_⟩
    cases owner with
    | none => exact h
    | some o =>
      rw [piBoost]
      split_ifs with hge
      · exact h
      · exact h.reprioritise (fun hw => hok hw (not_le.1 hge)) rfl rfl rfl rfl
      · exact h.reprioritise (fun hw => hok hw (not_le.1 hge)) rfl rfl rfl rfl
  | unboost owner =>
    refine ⟨_, q, rfl, ?_⟩
    cases owner with
    | none => exact h
    | some o =>
      rw [piUnboost]
      split_ifs with hneg
      · exact h
      · exact h.reprioritise (fun hw => hok hw (not_lt.1 hneg)) rfl rfl rfl rfl
  | setscheduler t policy param =>
    refine ⟨_, q, rfl, ?_⟩
    rw [doSchedSetscheduler]
    split_ifs with hpol
    · exact h
    have hsame : Consistent { s with schedPolicy := update s.schedPolicy t policy } q :=
      ⟨h.holds, h.placed, h.bitmap, h.waiting⟩
    match param, hok with
    | none, _ => exact hsame
    | some none, _ => exact hsame
    | some (some prio), hok =>
      dsimp only
      split_ifs with hp
      · exact hsame
      · exact h.reprioritise (fun hw => hok hw (by omega) (by omega)) rfl rfl rfl rfl

/-- Nothing is queued; the links of the threads may be anything. -/
structure RunQueues.Empty (s : RunQueues ι) : Prop where
  first : ∀ p, s.first p = none
  last : ∀ p, s.last p = none
  bitmap : s.rqBitmap = 0
  waiting : ∀ t, s.waiting t = false

omit [DecidableEq ι] [Fintype ι] in
theorem RunQueues.Empty.consistent (h : s.Empty) : Consistent s fun _ => [] where
  holds := ⟨⟨h.first, fun _ => nodup_nil, by simp⟩, fun p => by simp [h.last p]⟩
  placed := by simp
  bitmap := by simp [h.bitmap]
  waiting := by simp [h.waiting]

/-- **The run queues stay consistent** in every run in which no priority changes under a thread
that waits: every walk ends, the queues hold lists in which every thread that waits, and no other,
is once; the bitmap is right; the next pick gives the first thread of the highest queue that is not
empty; and a thread that is dequeued is in no queue afterwards. -/
theorem run_queues_consistent {s : RunQueues ι} (hs : s.Empty) {ops : List (RqOp ι)}
    (hok : Along rqNext (fun s op => ∀ s₀, s = some s₀ → RqOk s₀ op) (some s) ops) :
    ∃ s' q, run rqNext (some s) ops = some s' ∧ Consistent s' q ∧
      (((schedPick s').1 = none ∧ ∀ p < 32, q p = []) ∨
        ∃ p t rest, q p = t :: rest ∧ (∀ k < 32, p < k → q k = []) ∧ (schedPick s').1 = some t) ∧
      ∀ t, ∃ s'' q'', schedDequeue s' (some t) = some s'' ∧ Consistent s'' q'' ∧
        ∀ p, t ∉ q'' p := by
  have hstep : ∀ (s : Option (RunQueues ι)) op, (∃ s₀ q, s = some s₀ ∧ Consistent s₀ q) →
      (∀ s₀, s = some s₀ → RqOk s₀ op) → ∃ s₀ q, rqNext s op = some s₀ ∧ Consistent s₀ q := by
    rintro _ op ⟨s₀, q, rfl, h⟩ hop
    exact h.step (hop s₀ rfl)
  obtain ⟨s', q, heq, h⟩ := run_invariant hstep ⟨s, _, rfl, hs.consistent⟩ hok
  refine ⟨s', q, heq, h, ?_, h.schedDequeue⟩
  rcases h.schedPick with ⟨hpick, hnone⟩ | ⟨p, t, rest, hq, hhigh, hpick⟩
  · exact Or.inl ⟨by rw [hpick], hnone⟩
  · exact Or.inr ⟨p, t, rest, hq, hhigh, by rw [hpick]⟩

/-- Two threads, of priorities 0 and 1, and no queue. -/
def twoThreads : RunQueues Bool where
  first _ := none
  last _ := none
  next _ := none
  rqBitmap := 0
  state _ := .BLOCKED
  priority t := if t then 1 else 0
  savedPriority _ := -1
  schedPolicy _ := 0
  waiting _ := false

theorem twoThreads_empty : twoThreads.Empty :=
  ⟨fun _ => rfl, fun _ => rfl, rfl, fun _ => rfl⟩

/-- Both are added, and the one that is picked is boosted. -/
theorem run_queues_consistent_boost :
    ∃ s' q, run rqNext (some twoThreads) [.add false, .add true, .pick, .boost (some true) 5] =
      some s' ∧ Consistent s' q := by
  have hok : Along rqNext (fun s op => ∀ s₀, s = some s₀ → RqOk s₀ op) (some twoThreads)
      [.add false, .add true, .pick, .boost (some true) 5] := by
    refine ⟨fun _ _ => trivial, fun _ _ => trivial, fun _ _ => trivial, fun s₀ hs hw => ?_, trivial⟩
    -- the thread of priority 1 was picked
    have hpicked : (rqNext (rqNext (rqNext (some twoThreads) (.add false)) (.add true)) .pick).map
        (fun s => s.waiting true) = some false := by decide
    rw [hs, Option.map_some, hw] at hpicked
    cases hpicked
  obtain ⟨s', q, heq, h, -⟩ := run_queues_consistent twoThreads_empty hok
  exact ⟨s', q, heq, h⟩

/-- A thread that is boosted while it waits and then added again is in two queues; one that is
boosted and then dequeued is still in a queue. -/
theorem boosted_thread_queued_twice :
    (∃ s', run rqNext (some twoThreads) [.add false, .boost (some false) 5, .add false] = some s' ∧
      s'.first 0 = some false ∧ s'.first 5 = some false) ∧
    ∃ s', run rqNext (some twoThreads) [.add false, .boost (some false) 5, .dequeue (some false)] =
      some s' ∧ s'.first 0 = some false :=
  ⟨⟨_, rfl, rfl, rfl⟩, _, rfl, rfl⟩

end CosmoRT.Core
