import Mathlib

/-!
# The timer wheel

`timer_wheel_tick` goes from slot to slot, and through a slot entry by entry.  The lock is dropped
for every callback, so calls of `timer_wheel_add` come in between; every entry is one step here, and
so is the beginning and the end of a slot.  A call of `timer_wheel_tick` is a row of such steps,
however many ticks it makes up for.  The 64 bits of `current_tick` are a number, as 256 divides
2⁶⁴, and `current_slot` is its remainder.  What is stored and not read here is left out.

* `TimerWheel.Due` — the tick at which an entry has been, or is going to be, fired.
* `fires_on_time_iff` — **an entry is fired at its tick exactly when** `PunctualAt` holds: all
  timeouts up to 256 and the multiples of 256 up to 2²⁴ are punctual, but the multiples are not
  while a slot is gone through.
* `fires_early` — a timeout of 300 ticks is over after 44.
-/

namespace CosmoRT.Core

open Function Relation

/-- `id` names the call of `timer_wheel_add`. -/
structure TwEntry where
  id : ℕ
  ctx : ℕ
  remainingRounds : ℕ
  deriving DecidableEq

structure TimerWheel where
  slots : ℕ → List TwEntry
  currentTick : ℕ
  /-- in `tw_process_slot`: `head` and `keep` -/
  work : Option (List TwEntry × List TwEntry)
  /-- the calls of `tw_fire`: the entry's `id` and `ctx`, and the tick -/
  fired : List (ℕ × ℕ × ℕ)

def twTicks (timeoutMs : BitVec 32) : ℕ := if timeoutMs = 0 then 1 else timeoutMs.toNat

/-- Cut to `uint16_t`. -/
def twRounds (ticks : ℕ) : ℕ := (if ticks > 256 then ticks / 256 - 1 else 0) % 2 ^ 16

def twSlotOffset (ticks : ℕ) : ℕ :=
  let slotOffset := if ticks ≤ 256 then ticks else ticks % 256
  if slotOffset = 0 then 256 else slotOffset

/-- `timer_wheel_add`, when there is memory for the entry. -/
def timerWheelAdd (w : TimerWheel) (id ctx : ℕ) (timeoutMs : BitVec 32) : TimerWheel :=
  let ticks := twTicks timeoutMs
  let targetSlot := (w.currentTick % 256 + twSlotOffset ticks) % 256
  { w with slots := update w.slots targetSlot (⟨id, ctx, twRounds ticks⟩ :: w.slots targetSlot) }

def timerWheelCancel (w : TimerWheel) (ctx : ℕ) : TimerWheel :=
  { w with slots := fun s => (w.slots s).filter (·.ctx ≠ ctx) }

/-- One step of `timer_wheel_tick`. -/
def timerWheelTick (w : TimerWheel) : TimerWheel :=
  match w.work with
  | none => { w with
      currentTick := w.currentTick + 1, work := some (w.slots ((w.currentTick + 1) % 256), []) }
  | some (e :: head, keep) =>
    if e.remainingRounds > 0 then
      { w with work := some (head, { e with remainingRounds := e.remainingRounds - 1 } :: keep) }
    else { w with work := some (head, keep), fired := (e.id, e.ctx, w.currentTick) :: w.fired }
  | some ([], keep) => { w with slots := update w.slots (w.currentTick % 256) keep, work := none }

/-- The steps after the call `id` of `timer_wheel_add`, as long as its context is not cancelled.
`timer_wheel_cancel` is called between two slots only: inside of one it follows links that
`tw_process_slot` is about to change. -/
inductive TwStep (id ctx : ℕ) (w : TimerWheel) : TimerWheel → Prop
  | add {id' : ℕ} (hid : id' ≠ id) (ctx' : ℕ) (timeoutMs : BitVec 32) :
    TwStep id ctx w (timerWheelAdd w id' ctx' timeoutMs)
  | cancel {ctx' : ℕ} (hctx : ctx' ≠ ctx) (hwork : w.work = none) :
    TwStep id ctx w (timerWheelCancel w ctx')
  | tick : TwStep id ctx w (timerWheelTick w)

abbrev TwRun (id ctx : ℕ) := ReflTransGen (TwStep id ctx)

/-! ## When an entry is fired -/

/-- The entry is fired in tick `x` if it is next looked at in tick `n`. -/
def TwEntry.FiresAt (e : TwEntry) (id ctx n x : ℕ) : Prop :=
  e.id = id ∧ e.ctx = ctx ∧ x = n + 256 * e.remainingRounds

/-- The call's entry has been, or is going to be, fired in tick `x`. -/
def TimerWheel.Due (w : TimerWheel) (id ctx x : ℕ) : Prop :=
  (id, ctx, x) ∈ w.fired ∨
    (∃ e ∈ (w.work.getD ([], [])).1, e.FiresAt id ctx w.currentTick x) ∨
    (∃ e ∈ (w.work.getD ([], [])).2, e.FiresAt id ctx (w.currentTick + 256) x) ∨
    -- the slot of the tick itself is going to be replaced by `keep`
    ∃ n, w.currentTick < n ∧ n ≤ w.currentTick + 256 ∧ (n = w.currentTick + 256 → w.work = none) ∧
      ∃ e ∈ w.slots (n % 256), e.FiresAt id ctx n x

variable {w w' : TimerWheel} {id ctx x : ℕ} {e : TwEntry}

theorem due_tick : (timerWheelTick w).Due id ctx x ↔ w.Due id ctx x := by
  rcases w with ⟨slots, t, _ | ⟨_ | ⟨e, head⟩, keep⟩, fired⟩
  · -- the entries of the next slot become `head`
    simp only [TimerWheel.Due, timerWheelTick]
    grind
  · simp only [TimerWheel.Due, timerWheelTick, update_apply]
    grind
  · -- 256 ticks and a round less come to the same
    dsimp only [timerWheelTick]
    split <;> simp only [TimerWheel.Due, Option.getD_some, List.mem_cons, exists_eq_or_imp,
      TwEntry.FiresAt] <;> grind

theorem twSlotOffset_range (ticks : ℕ) : 0 < twSlotOffset ticks ∧ twSlotOffset ticks ≤ 256 := by
  unfold twSlotOffset
  dsimp only
  split_ifs <;> omega

/-- An entry that is put into the slot gone through gets lost. -/
theorem due_put {o slot : ℕ} (hpos : 0 < o) (hle : o ≤ 256)
    (hslot : slot = (w.currentTick % 256 + o) % 256) :
    TimerWheel.Due { w with slots := update w.slots slot (e :: w.slots slot) } id ctx x ↔
      ((w.work = none ∨ o ≠ 256) ∧ e.FiresAt id ctx (w.currentTick + o) x) ∨ w.Due id ctx x := by
  simp only [TimerWheel.Due, update_apply]
  grind

/-- **Step.**  When the entry is fired does not change. -/
theorem due_step (h : TwStep id ctx w w') : w'.Due id ctx x ↔ w.Due id ctx x := by
  cases h with
  | add hid ctx' timeoutMs =>
    obtain ⟨hpos, hle⟩ := twSlotOffset_range (twTicks timeoutMs)
    rw [timerWheelAdd, due_put hpos hle rfl]
    simp [TwEntry.FiresAt, hid]
  | @cancel ctx' hctx hwork =>
    simp only [TimerWheel.Due, timerWheelCancel, hwork, List.mem_filter, TwEntry.FiresAt]
    grind
  | tick => exact due_tick

/-- **Run.** -/
theorem due_steps (h : TwRun id ctx w w') : w'.Due id ctx x ↔ w.Due id ctx x := by
  induction h with
  | refl => rfl
  | tail _ hstep ih => rw [due_step hstep, ih]

/-- Tick `x` has been gone through. -/
def TimerWheel.Past (w : TimerWheel) (x : ℕ) : Prop :=
  x < w.currentTick ∨ x = w.currentTick ∧ w.work = none

/-- The entry has not been fired but in tick `x`, and has been when that is over. -/
def TimerWheel.OnTime (w : TimerWheel) (id ctx x : ℕ) : Prop :=
  (∀ y, (id, ctx, y) ∈ w.fired → y = x) ∧ (w.Past x → (id, ctx, x) ∈ w.fired)

theorem fired_of_past (hdue : w.Due id ctx x) (hpast : w.Past x) : (id, ctx, x) ∈ w.fired := by
  unfold TimerWheel.Due TimerWheel.Past TwEntry.FiresAt at *
  grind

theorem exists_idle (id ctx : ℕ) (w : TimerWheel) :
    ∃ v, TwRun id ctx w v ∧ v.work = none ∧ v.currentTick = w.currentTick := by
  rcases w with ⟨slots, t, _ | ⟨head, keep⟩, fired⟩
  · exact ⟨_, .refl, rfl, rfl⟩
  induction head generalizing keep fired with
  | nil => exact ⟨_, .single .tick, rfl, rfl⟩
  | cons e head ih =>
    have hstep : TwStep id ctx ⟨slots, t, some (e :: head, keep), fired⟩ _ := .tick
    dsimp only [timerWheelTick] at hstep
    split at hstep
    · obtain ⟨v, hv, hrest⟩ := ih _ _
      exact ⟨v, .head hstep hv, hrest⟩
    · obtain ⟨v, hv, hrest⟩ := ih _ _
      exact ⟨v, .head hstep hv, hrest⟩

theorem exists_past (w : TimerWheel) (d : ℕ) :
    ∃ v, TwRun id ctx w v ∧ v.Past (w.currentTick + d) := by
  suffices h : ∃ v, TwRun id ctx w v ∧ v.work = none ∧
      v.currentTick = w.currentTick + d by
    obtain ⟨v, hv, hwork, htick⟩ := h
    exact ⟨v, hv, .inr ⟨htick.symm, hwork⟩⟩
  induction d with
  | zero => exact exists_idle id ctx w
  | succ d ih =>
    obtain ⟨v, hv, hwork, htick⟩ := ih
    obtain ⟨u, hu, hidle, hsame⟩ := exists_idle id ctx (timerWheelTick v)
    refine ⟨u, (hv.tail .tick).trans hu, hidle, ?_⟩
    simp only [hsame, timerWheelTick, hwork, htick, Nat.add_assoc]

/-- For which number of ticks an entry is fired on time. -/
def TimerWheel.PunctualAt (w : TimerWheel) (ticks : ℕ) : Prop :=
  (ticks ≤ 256 ∨ 256 ∣ ticks ∧ ticks ≤ 2 ^ 24) ∧ (w.work = none ∨ ¬256 ∣ ticks)

theorem punctualAt_iff {ticks : ℕ} (hpos : 0 < ticks) (hlt : ticks < 2 ^ 32) :
    w.PunctualAt ticks ↔ (w.work = none ∨ twSlotOffset ticks ≠ 256) ∧
      ticks = twSlotOffset ticks + 256 * twRounds ticks := by
  have hoff : twSlotOffset ticks = 256 ↔ 256 ∣ ticks := by
    unfold twSlotOffset
    dsimp only
    split_ifs <;> omega
  rw [TimerWheel.PunctualAt, Ne, hoff, and_comm, and_congr_right_iff]
  intro _
  unfold twSlotOffset twRounds
  dsimp only
  split_ifs <;> omega

theorem fires_on_time_iff (hnew : ∀ x, ¬w.Due id ctx x) (timeoutMs : BitVec 32) :
    (∀ v, TwRun id ctx (timerWheelAdd w id ctx timeoutMs) v →
      v.OnTime id ctx (w.currentTick + max timeoutMs.toNat 1)) ↔
        w.PunctualAt (max timeoutMs.toNat 1) := by
  have hticks : twTicks timeoutMs = max timeoutMs.toNat 1 := by
    unfold twTicks
    split
    · rename_i h
      simp [h]
    · rename_i h
      have : timeoutMs.toNat ≠ 0 := fun h0 => h (BitVec.eq_of_toNat_eq h0)
      omega
  obtain ⟨hpos, hle⟩ := twSlotOffset_range (twTicks timeoutMs)
  have hdue : ∀ v, TwRun id ctx (timerWheelAdd w id ctx timeoutMs) v → ∀ x,
      v.Due id ctx x ↔ _ := fun v hv x => by
    rw [due_steps hv, timerWheelAdd, due_put hpos hle rfl, or_iff_left (hnew x)]
  simp only [TwEntry.FiresAt, true_and] at hdue
  rw [← hticks, punctualAt_iff (by omega) (by omega)]
  constructor
  · intro h
    obtain ⟨v, hv, hpast⟩ := exists_past (timerWheelAdd w id ctx timeoutMs) (twTicks timeoutMs)
    obtain ⟨hlive, hx⟩ := (hdue v hv _).1 (.inl ((h v hv).2 hpast))
    exact ⟨hlive, by omega⟩
  · rintro ⟨hlive, heq⟩ v hv
    refine ⟨fun y hy => ?_, fired_of_past ((hdue v hv _).2 ⟨hlive, by omega⟩)⟩
    have := ((hdue v hv y).1 (.inl hy)).2
    omega

/-- `timer_wheel_init`. -/
def timerWheelInit : TimerWheel := ⟨fun _ => [], 0, none, []⟩

theorem fires_on_time_1024 : timerWheelInit.PunctualAt 1024 ∧
    ∀ v, TwRun 1 7 (timerWheelAdd timerWheelInit 1 7 1024) v → v.OnTime 1 7 1024 := by
  have h : timerWheelInit.PunctualAt 1024 := by simp [TimerWheel.PunctualAt, timerWheelInit]
  refine ⟨h, (fires_on_time_iff (fun x => ?_) 1024).2 h⟩
  simp [TimerWheel.Due, timerWheelInit]

theorem fires_early : ∃ v, TwRun 1 7 (timerWheelAdd timerWheelInit 1 7 300) v ∧
    (1, 7, 44) ∈ v.fired := by
  obtain ⟨v, hv, hpast⟩ := exists_past (timerWheelAdd timerWheelInit 1 7 300) 44
  refine ⟨v, hv, fired_of_past ((due_steps hv).2 (.inr (.inr (.inr ⟨44, ?_⟩)))) hpast⟩
  exact ⟨by decide, by decide, nofun, ⟨1, 7, 0⟩, by decide, rfl, rfl, rfl⟩

/-- **What is cancelled is not fired any more**, whatever is added and cancelled after it. -/
theorem cancelled_not_fired (hwork : w.work = none) (hnot : (id, ctx, x) ∉ w.fired)
    (hrun : ReflTransGen (fun u v => TwStep id ctx u v ∨ u.work = none ∧ v = timerWheelCancel u ctx)
      (timerWheelCancel w ctx) w') : (id, ctx, x) ∉ w'.fired := by
  have hcancel : ∀ u, u.work = none → (timerWheelCancel u ctx).Due id ctx x →
      (id, ctx, x) ∈ u.fired := by
    intro u hidle
    simp only [TimerWheel.Due, timerWheelCancel, hidle, List.mem_filter, TwEntry.FiresAt]
    grind
  have hdue : ¬w'.Due id ctx x := by
    induction hrun with
    | refl => exact fun h => hnot (hcancel w hwork h)
    | tail _ hstep ih =>
      rcases hstep with hstep | ⟨hidle, rfl⟩
      · rwa [due_step hstep]
      · exact fun h => ih (.inl (hcancel _ hidle h))
  exact fun h => hdue (.inl h)

theorem reflTransGen_ticks {r : TimerWheel → TimerWheel → Prop} (h : ∀ w, r w (timerWheelTick w))
    (n : ℕ) (w : TimerWheel) : ReflTransGen r w (timerWheelTick^[n] w) := by
  induction n generalizing w with
  | zero => exact .refl
  | succ n ih => exact .head (h w) (ih _)

/-- Twelve steps go past tick 5, in which the timer would be fired. -/
theorem cancelled_not_fired_ticks :
    (1, 7, 5) ∈ (timerWheelTick^[12] (timerWheelAdd timerWheelInit 1 7 5)).fired ∧
    (1, 7, 5) ∉ (timerWheelTick^[12] (timerWheelCancel (timerWheelAdd timerWheelInit 1 7 5)
      7)).fired := by
  exact ⟨by decide +kernel, cancelled_not_fired (w := timerWheelAdd timerWheelInit 1 7 5) rfl
    (by decide) (reflTransGen_ticks (fun w => .inl .tick) 12 _)⟩

end CosmoRT.Core
