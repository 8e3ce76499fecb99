import CosmoRT.Ipc.RobustList

/-!
# Robust futexes at the death of a thread

What the walk over a robust list achieves, whatever contenders do between its steps.

* `robust_words_released` — every word is released if the walk runs and no bit is set
  between the read of a word and the compare-and-swap, which is not repeated.
-/

namespace CosmoRT.Ipc

open Lib Proc List

/-! ## What is still to be looked at -/

/-- The list that starts at an entry: it ends with `NULL` or back at the head. -/
inductive Chain (d : Dying) (link : ℕ → Option ℕ) : ℕ → List ℕ → Prop
  | nil {e : ℕ} (h : e = 0 ∨ e = d.robustList) : Chain d link e []
  | cons {e next : ℕ} {es : List ℕ} (h0 : e ≠ 0) (hh : e ≠ d.robustList)
      (hl : link e = some next) (h : Chain d link next es) : Chain d link e (e :: es)

/-- The word of `list_op_pending`, if there is one. -/
def pendingWords (w : Walk) : List ℕ :=
  if w.pending ≠ 0 ∧ userOk w.pending 8 then [futexAddr w w.pending] else []

/-- The words that come after a word has been dealt with. -/
def PlanNext (d : Dying) (link : ℕ → Option ℕ) (w : Walk) : Next → List ℕ → Prop
  | .entry e limit, l =>
    ∃ es, Chain d link e es ∧ es.length < limit ∧ l = es.map (futexAddr w) ++ pendingWords w
  | .stop, l => l = []

/-- The words that the walk will still read, in order. -/
def Plan (d : Dying) (link : ℕ → Option ℕ) : Pc → List ℕ → Prop
  | .head, l => ∃ next offset pending, link d.robustList = some next ∧
      link (d.robustList + 8) = some offset ∧ link (d.robustList + 16) = some pending ∧
      PlanNext d link ⟨offset, pending⟩ (.entry next 4096) l
  | .loop w e limit, l => PlanNext d link w (.entry e limit) l
  | .look w a next, l => ∃ l', l = a :: l' ∧ PlanNext d link w next l'
  | .cas w _ _ next, l | .wakePrivate w _ next, l | .wakeShared w _ next, l =>
    PlanNext d link w next l
  | .pending w, l => l = pendingWords w
  | .done, l => l = []

theorem plan_resume {d : Dying} {link : ℕ → Option ℕ} {w : Walk} {next : Next} {l : List ℕ}
    (h : PlanNext d link w next l) : Plan d link (resume w next) l := by
  cases next <;> exact h

variable (d : Dying) (s : Robust)

theorem futexWake_mem (a n : ℕ) (sh : Bool) : (futexWake d s a n sh).mem = s.mem := rfl

/-- Apart from the exchange and the wake-ups, a step only moves the walk on. -/
theorem exitStep_moves : (∃ pc, exitStep d s = { s with pc }) ∨
    (∃ w a fval next, s.pc = .cas w a fval next) ∨
    ∃ w a next, s.pc = .wakePrivate w a next ∨ s.pc = .wakeShared w a next := by
  cases hpc : s.pc with
  | cas w a fval next => exact .inr (.inl ⟨w, a, fval, next, rfl⟩)
  | wakePrivate w a next => exact .inr (.inr ⟨w, a, next, .inl rfl⟩)
  | wakeShared w a next => exact .inr (.inr ⟨w, a, next, .inr rfl⟩)
  | done => exact .inl ⟨.done, by simp only [exitStep, hpc]; rw [← hpc]⟩
  | head | pending =>
    left
    simp only [exitStep, hpc]
    split <;> exact ⟨_, rfl⟩
  | loop w e limit =>
    left
    simp only [exitStep, hpc]
    split
    · split <;> exact ⟨_, rfl⟩
    · exact ⟨_, rfl⟩
  | look w a next =>
    left
    simp only [exitStep, hpc]
    split
    · split
      · exact ⟨_, rfl⟩
      · split <;> exact ⟨_, rfl⟩
    · exact ⟨_, rfl⟩

theorem exitStep_link : (exitStep d s).mem.link = s.mem.link := by
  rcases exitStep_moves d s with ⟨pc, h⟩ | ⟨w, a, fval, next, hpc⟩ | ⟨w, a, next, hpc | hpc⟩
  · rw [h]
  · simp only [exitStep, hpc]
    split <;> rfl
  · simp only [exitStep, hpc, futexWake_mem]
  · simp only [exitStep, hpc, futexWake_mem]

theorem robustNext_link (op : RobustOp) : (robustNext d s op).mem.link = s.mem.link := by
  cases op with
  | exit => exact exitStep_link d s
  | setWaiters a => rfl
  | wait task a sh val =>
    simp only [robustNext]
    split <;> rfl

/-- The walk keeps to its plan: it drops the word in front when it has read it. -/
theorem plan_exitStep {d : Dying} {s : Robust} {l : List ℕ} (h : Plan d s.mem.link s.pc l) :
    ∃ l', Plan d s.mem.link (exitStep d s).pc l' ∧
      (l' = l ∨ ∃ w a next, s.pc = .look w a next ∧ l = a :: l' ∧
        ((exitStep d s).pc = resume w next ∨
          ∃ fval, s.mem.word a = some fval ∧ (exitStep d s).pc = .cas w a fval next)) := by
  cases hpc : s.pc with
  | head =>
    rw [hpc] at h
    obtain ⟨next, offset, pending, h1, h2, h3, hn⟩ := h
    refine ⟨l, ?_, .inl rfl⟩
    simp only [exitStep, hpc, h1, h2, h3]
    exact hn
  | loop w e limit =>
    rw [hpc] at h
    obtain ⟨es, hc, hlen, rfl⟩ := h
    cases hc with
    | nil hend =>
      refine ⟨_, ?_, .inl rfl⟩
      have hstop : ¬(e ≠ 0 ∧ e ≠ d.robustList ∧ 0 < limit - 1) := by tauto
      simp only [exitStep, hpc, hstop, if_false]
      exact rfl
    | cons h0 hh hl hc =>
      refine ⟨_, ?_, .inl rfl⟩
      rw [length_cons] at hlen
      have hgo : e ≠ 0 ∧ e ≠ d.robustList ∧ 0 < limit - 1 := ⟨h0, hh, by omega⟩
      simp only [exitStep, hpc, if_pos hgo, hl]
      exact ⟨_, rfl, _, hc, by omega, rfl⟩
  | look w a next =>
    rw [hpc] at h
    obtain ⟨l', rfl, hn⟩ := h
    refine ⟨l', ?_, .inr ⟨w, a, next, rfl, rfl, ?_⟩⟩
    · simp only [exitStep, hpc]
      split
      · split
        · exact plan_resume hn
        · split
          · exact hn
          · exact plan_resume hn
      · exact plan_resume hn
    · simp only [exitStep, hpc]
      split
      · split
        · exact .inl rfl
        · next fval hf =>
          split
          · exact .inr ⟨fval, hf, rfl⟩
          · exact .inl rfl
      · exact .inl rfl
  | cas w a fval next | wakePrivate w a next | done =>
    rw [hpc] at h
    refine ⟨l, ?_, .inl rfl⟩
    simp only [exitStep, hpc]
    exact h
  | wakeShared w a next =>
    rw [hpc] at h
    refine ⟨l, ?_, .inl rfl⟩
    simp only [exitStep, hpc]
    exact plan_resume h
  | pending w =>
    rw [hpc] at h
    refine ⟨l, ?_, .inl rfl⟩
    rw [show l = pendingWords w from h, pendingWords]
    simp only [exitStep, hpc]
    split
    · exact ⟨[], rfl, rfl⟩
    · exact rfl

/-! ## The walk ends -/

/-- How many steps the walk can still make. -/
def Next.cost : Next → ℕ
  | .entry _ limit => 5 * limit + 6
  | .stop => 0

def Pc.cost : Pc → ℕ
  | .head => 5 * 4096 + 7
  | .loop _ _ limit => 5 * limit + 6
  | .look _ _ next => next.cost + 4
  | .cas _ _ _ next => next.cost + 3
  | .wakePrivate _ _ next => next.cost + 2
  | .wakeShared _ _ next => next.cost + 1
  | .pending _ => 5
  | .done => 0

theorem cost_resume (w : Walk) (next : Next) : (resume w next).cost = next.cost := by
  cases next <;> rfl

theorem exitStep_cost : (exitStep d s).pc.cost ≤ s.pc.cost - 1 := by
  cases hpc : s.pc with
  | head =>
    simp only [exitStep, hpc]
    split <;> simp [Pc.cost]
  | loop w e limit =>
    simp only [exitStep, hpc]
    split
    · next h =>
      split <;> simp only [Pc.cost, Next.cost] <;> omega
    · simp only [Pc.cost]
      omega
  | look w a next =>
    have hback : (resume w next).cost ≤ (Pc.look w a next).cost - 1 := by
      rw [cost_resume]
      exact Nat.le_add_right next.cost 3
    simp only [exitStep, hpc]
    split
    · split
      · exact hback
      · split
        · exact le_refl (next.cost + 3)
        · exact hback
    · exact hback
  | cas w a fval next | wakePrivate w a next | done => simp [exitStep, hpc, Pc.cost]
  | wakeShared w a next =>
    simp only [exitStep, hpc]
    rw [cost_resume]
    exact le_refl next.cost
  | pending w =>
    simp only [exitStep, hpc]
    split <;> simp [Pc.cost, Next.cost]

theorem robustNext_pc {d : Dying} {s : Robust} {op : RobustOp} (h : op ≠ .exit) :
    (robustNext d s op).pc = s.pc := by
  cases op with
  | exit => exact absurd rfl h
  | setWaiters a => rfl
  | wait task a sh val =>
    simp only [robustNext]
    split <;> rfl

theorem pc_done_of_cost {pc : Pc} (h : pc.cost = 0) : pc = .done := by
  cases pc <;> simp_all [Pc.cost]

/-- With enough steps of its own the walk is over, whatever the others do. -/
theorem run_done (ops : List RobustOp) (s : Robust) (h : s.pc.cost ≤ ops.count .exit)
    : (run (robustNext d) s ops).pc = .done := by
  induction ops generalizing s with
  | nil => exact pc_done_of_cost (by simpa using h)
  | cons op ops ih =>
    refine ih _ ?_
    by_cases hop : op = .exit
    · subst hop
      have hstep := exitStep_cost d s
      rw [count_cons_self] at h
      simp only [robustNext]
      omega
    · rw [robustNext_pc hop]
      rwa [count_cons_of_ne hop] at h

/-! ## One word of the list -/

section

variable (d : Dying) (s : Robust) (a : ℕ)

/-- The word has the id of the dying thread in its TID field. -/
def Owned : Prop :=
  ∃ v, s.mem.word a = some v ∧ v &&& FUTEX_TID_MASK = BitVec.ofNat 32 d.tid

/-- The word has no owner and says that the last one died. -/
def Released (s : Robust) (a : ℕ) : Prop :=
  ∃ v, s.mem.word a = some v ∧ v &&& FUTEX_TID_MASK = 0#32 ∧
    v &&& FUTEX_OWNER_DIED = FUTEX_OWNER_DIED

/-- The `WAITERS` bit of the word is set. -/
def Marked (s : Robust) (a : ℕ) : Prop :=
  ∃ v, s.mem.word a = some v ∧ v &&& FUTEX_WAITERS = FUTEX_WAITERS

/-- A waiter sleeps on the word, under its private or its shared key. -/
def OnWord (m : UserMem) (d : Dying) (a : ℕ) (w : FutexWaiter) : Prop :=
  ∃ shared, (w.uaddr, w.pid) = futexKey m d a shared

/-- Somebody sleeps on the word. -/
def Awaited : Prop :=
  ∃ w, s.table.Queued w ∧ OnWord s.mem d a w

/-- Somebody who slept on the word has been woken. -/
def Served : Prop := ∃ w ∈ s.woken, OnWord s.mem d a w

end

section Word

variable {d : Dying} {s : Robust} {a : ℕ}

theorem store_word (m : UserMem) (a b : ℕ) (f : BitVec 32 → BitVec 32) :
    (m.store a f).word b = if b = a then (m.word a).map f else m.word b := rfl

/-- What happens to one word in one step: nothing, the mark, or the exchange. -/
theorem robustNext_word (d : Dying) (s : Robust) (op : RobustOp) (a : ℕ) :
    (robustNext d s op).mem.word a = s.mem.word a ∨
    (op = .setWaiters a ∧
      (robustNext d s op).mem.word a = (s.mem.word a).map (· ||| FUTEX_WAITERS)) ∨
    ∃ w fval next, op = .exit ∧ s.pc = .cas w a fval next ∧ s.mem.word a = some fval ∧
      (robustNext d s op).mem.word a = some (diedWord fval) := by
  cases op with
  | setWaiters b =>
    simp only [robustNext, store_word]
    split
    · next h => subst h; exact .inr (.inl ⟨rfl, rfl⟩)
    · exact .inl rfl
  | wait task b sh val =>
    left
    simp only [robustNext]
    split <;> rfl
  | exit =>
    rcases exitStep_moves d s with ⟨pc, h⟩ | ⟨w, b, fval, next, hpc⟩ | ⟨w, b, next, hpc | hpc⟩
    · exact .inl (by rw [robustNext, h])
    · simp only [robustNext, exitStep, hpc]
      split
      · next hb =>
        rw [store_word]
        split
        · next hab =>
          subst hab
          exact .inr (.inr ⟨w, fval, next, trivial, rfl, hb, by rw [hb]; rfl⟩)
        · exact .inl rfl
      · exact .inl rfl
    · exact .inl (by simp only [robustNext, exitStep, hpc, futexWake_mem])
    · exact .inl (by simp only [robustNext, exitStep, hpc, futexWake_mem])

theorem Owned.not_released (h : Owned d s a) : ¬Released s a := by
  obtain ⟨v, hv, ht⟩ := h
  rintro ⟨v', hv', h0, -⟩
  obtain rfl := Option.mem_unique hv hv'
  have hz : BitVec.ofNat 32 d.tid = 0#32 := ht.symm.trans h0
  have hnat := congrArg BitVec.toNat hz
  rw [BitVec.toNat_ofNat, Nat.mod_eq_of_lt d.tid_lt] at hnat
  exact absurd hnat (Nat.pos_iff_ne_zero.mp d.tid_pos)

theorem Marked.next (h : Marked s a) (op : RobustOp) : Marked (robustNext d s op) a := by
  obtain ⟨v, hv, hm⟩ := h
  rcases robustNext_word d s op a with he | ⟨-, he⟩ | ⟨w, fval, next, -, -, hf, he⟩
  · exact ⟨v, he.trans hv, hm⟩
  · exact ⟨v ||| FUTEX_WAITERS, by rw [he, hv]; rfl, waiters_or_waiters v⟩
  · obtain rfl := Option.mem_unique hf hv
    exact ⟨_, he, by rw [waiters_diedWord, hm]⟩

theorem Released.next (h : Released s a) (op : RobustOp) : Released (robustNext d s op) a := by
  obtain ⟨v, hv, ht, hd⟩ := h
  rcases robustNext_word d s op a with he | ⟨-, he⟩ | ⟨w, fval, next, -, -, -, he⟩
  · exact ⟨v, he.trans hv, ht, hd⟩
  · exact ⟨v ||| FUTEX_WAITERS, by rw [he, hv]; rfl, by rw [tid_or_waiters, ht],
      by rw [died_or_waiters, hd]⟩
  · exact ⟨_, he, tid_diedWord fval, died_diedWord fval⟩

theorem Owned.next (h : Owned d s a) (op : RobustOp) :
    Owned d (robustNext d s op) a ∨ ∃ w fval next, op = .exit ∧ s.pc = .cas w a fval next ∧
      Released (robustNext d s op) a := by
  obtain ⟨v, hv, ht⟩ := h
  rcases robustNext_word d s op a with he | ⟨-, he⟩ | ⟨w, fval, next, hop, hpc, -, he⟩
  · exact .inl ⟨v, he.trans hv, ht⟩
  · exact .inl ⟨v ||| FUTEX_WAITERS, by rw [he, hv]; rfl, by rw [tid_or_waiters, ht]⟩
  · exact .inr ⟨w, fval, next, hop, hpc, _, he, tid_diedWord fval, died_diedWord fval⟩

/-! ### Waiters -/

theorem futexKey_congr {m m' : UserMem} (h : m'.phys = m.phys) (d : Dying) (a : ℕ) (sh : Bool) :
    futexKey m' d a sh = futexKey m d a sh := by
  rw [futexKey, futexKey, h]

variable {w : FutexWaiter}

theorem OnWord.congr {m m' : UserMem} (h : m'.phys = m.phys) (hw : OnWord m d a w) :
    OnWord m' d a w := by
  obtain ⟨sh, hk⟩ := hw
  exact ⟨sh, hk.trans (futexKey_congr h d a sh).symm⟩

theorem futexWake_keeps (b n : ℕ) (sh : Bool) (h : s.table.Queued w) :
    (futexWake d s b n sh).table.Queued w ∨ w ∈ (futexWake d s b n sh).woken := by
  obtain ⟨i, hi⟩ := h
  by_cases hb : i = hashUaddr (futexKey s.mem d b sh).1 (futexKey s.mem d b sh).2
  · subst hb
    rcases (mem_wakeScan (futexKey s.mem d b sh) n _ s.k w).mpr hi with hk | hk
    · refine .inl ⟨hashUaddr (futexKey s.mem d b sh).1 (futexKey s.mem d b sh).2, ?_⟩
      simpa [futexWake] using hk
    · exact .inr (mem_append_right _ hk)
  · exact .inl ⟨i, by simpa [futexWake, hb] using hi⟩

theorem futexWake_wakes {b : ℕ} {sh : Bool} (n : ℕ) (h : s.table.Queued w)
    (hk : (w.uaddr, w.pid) = futexKey s.mem d b sh) : Served d (futexWake d s b (n + 1) sh) b := by
  obtain ⟨i, hi⟩ := h
  have hfiled := s.table.filed i w hi
  have hi' : w ∈ s.table.bucket
      (hashUaddr (futexKey s.mem d b sh).1 (futexKey s.mem d b sh).2) := by
    rw [← hk]
    exact hfiled.symm ▸ hi
  obtain ⟨w', hw', hk'⟩ := wakeScan_wakes hi' hk n s.k
  exact ⟨w', mem_append_right _ hw', sh, hk'⟩

variable {op : RobustOp}

/-- The steps of the others add waiters and wake nobody. -/
theorem robustNext_env (h : op ≠ .exit) :
    (∀ w, s.table.Queued w → (robustNext d s op).table.Queued w) ∧
      (robustNext d s op).woken = s.woken ∧ (robustNext d s op).mem.phys = s.mem.phys := by
  cases op with
  | exit => exact absurd rfl h
  | setWaiters b => exact ⟨fun w hw => hw, rfl, rfl⟩
  | wait task b sh val =>
    simp only [robustNext]
    split
    · refine ⟨fun w hw => ?_, rfl, rfl⟩
      obtain ⟨i, hi⟩ := hw
      refine ⟨i, ?_⟩
      simp only [FutexTable.insert]
      split
      · exact mem_cons_of_mem _ hi
      · exact hi
    · exact ⟨fun w hw => hw, rfl, rfl⟩

/-- Nobody gets lost: who sleeps goes on or is woken, and who was woken stays so. -/
theorem robustNext_keeps (d : Dying) (s : Robust) (op : RobustOp) :
    (∀ w, s.table.Queued w → (robustNext d s op).table.Queued w ∨ w ∈ (robustNext d s op).woken) ∧
      (∀ w ∈ s.woken, w ∈ (robustNext d s op).woken) ∧
        (robustNext d s op).mem.phys = s.mem.phys := by
  by_cases hop : op = .exit
  · subst hop
    rcases exitStep_moves d s with ⟨pc, h⟩ | ⟨w, b, fval, next, hpc⟩ | ⟨w, b, next, hpc | hpc⟩
    · rw [robustNext, h]
      exact ⟨fun _ hw => .inl hw, fun _ hw => hw, rfl⟩
    · simp only [robustNext, exitStep, hpc]
      refine ⟨fun _ hw => .inl hw, fun _ hw => hw, ?_⟩
      split <;> rfl
    · simp only [robustNext, exitStep, hpc]
      exact ⟨fun w hw => futexWake_keeps b _ false hw, fun w hw => mem_append_left _ hw, rfl⟩
    · simp only [robustNext, exitStep, hpc]
      exact ⟨fun w hw => futexWake_keeps b _ true hw, fun w hw => mem_append_left _ hw, rfl⟩
  · obtain ⟨hkeep, hwoken, hphys⟩ := robustNext_env (d := d) (s := s) hop
    rw [hwoken]
    exact ⟨fun w hw => .inl (hkeep w hw), fun _ hw => hw, hphys⟩

theorem Served.next (op : RobustOp) (h : Served d s a) : Served d (robustNext d s op) a := by
  obtain ⟨-, hwoken, hphys⟩ := robustNext_keeps d s op
  obtain ⟨w, hw, hon⟩ := h
  exact ⟨w, hwoken w hw, hon.congr hphys⟩

/-- Whoever sleeps on a word goes on doing so until somebody on it is woken. -/
theorem heard_next (op : RobustOp) (h : Awaited d s a ∨ Served d s a) :
    Awaited d (robustNext d s op) a ∨ Served d (robustNext d s op) a := by
  rcases h with ⟨w, hq, hon⟩ | h
  · obtain ⟨hkeep, -, hphys⟩ := robustNext_keeps d s op
    rcases hkeep w hq with hq | hw
    · exact .inl ⟨w, hq, hon.congr hphys⟩
    · exact .inr ⟨w, hw, hon.congr hphys⟩
  · exact .inr (h.next op)

/-! ### The phases of a word -/

/-- Where the walk stands with a word that the dying thread owns.  `W` says that somebody
sleeps on it and has to be woken. -/
inductive Phase (d : Dying) (W : Prop) (a : ℕ) (s : Robust) : Prop
  | ahead {l : List ℕ} (hplan : Plan d s.mem.link s.pc l) (hin : a ∈ l) (hown : Owned d s a)
      (hw : W → Awaited d s a ∨ Served d s a)
  | read (w : Walk) (fval : BitVec 32) (next : Next) (hpc : s.pc = .cas w a fval next)
      (hword : s.mem.word a = some fval) (hown : Owned d s a)
      (hw : W → Awaited d s a ∨ Served d s a)
  | exchanged (w : Walk) (next : Next) (hpc : s.pc = .wakePrivate w a next) (hrel : Released s a)
      (hw : W → Awaited d s a ∨ Served d s a)
  | wokenPrivate (w : Walk) (next : Next) (hpc : s.pc = .wakeShared w a next) (hrel : Released s a)
      (hw : W → Served d s a ∨
        ∃ w, s.table.Queued w ∧ (w.uaddr, w.pid) = futexKey s.mem d a true)
  | finished (hrel : Released s a) (hw : W → Served d s a)

/-- The condition on one step: no contender sets the bit of a word that has been read and
not exchanged yet, unless it was read with the bit. -/
def RobustOk (s : Robust) : RobustOp → Prop
  | .setWaiters a => ∀ w fval next, s.pc = .cas w a fval next →
    fval &&& FUTEX_WAITERS = FUTEX_WAITERS
  | .exit | .wait .. => True

theorem or_waiters_eq {v : BitVec 32} (h : v &&& FUTEX_WAITERS = FUTEX_WAITERS) :
    v ||| FUTEX_WAITERS = v := by
  refine BitVec.eq_of_getLsbD_eq fun i hi => ?_
  have hbit : (v &&& FUTEX_WAITERS).getLsbD i = FUTEX_WAITERS.getLsbD i := by rw [h]
  rw [BitVec.getLsbD_and] at hbit
  rw [BitVec.getLsbD_or, ← hbit]
  cases v.getLsbD i <;> simp

variable {W : Prop}

section

variable (h : Phase d W a s)
include h

theorem Phase.env (hne : op ≠ .exit) (hok : RobustOk s op) : Phase d W a (robustNext d s op) := by
  have hpc' := robustNext_pc (d := d) (s := s) hne
  obtain ⟨hkeep, -, hphys⟩ := robustNext_env (d := d) (s := s) hne
  have hown : Owned d s a → Owned d (robustNext d s op) a := by
    intro hown
    rcases hown.next op with h' | ⟨-, -, -, hop, -⟩
    · exact h'
    · exact absurd hop hne
  cases h with
  | ahead hplan hin ho hw =>
    refine .ahead (l := _) ?_ hin (hown ho) fun hW => heard_next op (hw hW)
    rw [robustNext_link, hpc']
    exact hplan
  | read w fval next hpc hword ho hw =>
    refine .read w fval next (hpc'.trans hpc) ?_ (hown ho) fun hW => heard_next op (hw hW)
    rcases robustNext_word d s op a with he | ⟨rfl, he⟩ | ⟨-, -, -, hop, -⟩
    · rw [he, hword]
    · rw [he, hword, Option.map_some, or_waiters_eq (hok _ _ _ hpc)]
    · exact absurd hop hne
  | exchanged w next hpc hrel hw =>
    exact .exchanged w next (hpc'.trans hpc) (hrel.next op) fun hW => heard_next op (hw hW)
  | wokenPrivate w next hpc hrel hw =>
    refine .wokenPrivate w next (hpc'.trans hpc) (hrel.next op) fun hW => ?_
    refine (hw hW).imp (Served.next op) ?_
    rintro ⟨u, hq, hk⟩
    exact ⟨u, hkeep u hq, hk.trans (futexKey_congr hphys d a true).symm⟩
  | finished hrel hw => exact .finished (hrel.next op) fun hW => (hw hW).next op

theorem Phase.exit : Phase d W a (robustNext d s .exit) := by
  cases h with
  | ahead hplan hin ho hw =>
    have hw' : W → Awaited d (robustNext d s .exit) a ∨ Served d (robustNext d s .exit) a :=
      fun hW => heard_next .exit (hw hW)
    have hlook : ∀ w next, s.pc = .look w a next →
        ∃ fval, s.mem.word a = some fval ∧
          robustNext d s .exit = { s with pc := .cas w a fval next } := by
      intro w next hpc
      obtain ⟨v, hv, ht⟩ := ho
      exact ⟨v, hv, by simp [robustNext, exitStep, hpc, s.mem.user a v hv, hv, ht]⟩
    rcases ho.next .exit with ho' | ⟨w, fval, next, -, hpc, hrel⟩
    · obtain ⟨l', hplan', hl | ⟨w, b, next, hpc, hl, -⟩⟩ := plan_exitStep hplan
      · refine .ahead (l := l') ?_ (hl ▸ hin) ho' hw'
        rw [robustNext_link]
        exact hplan'
      · by_cases hab : a = b
        · -- the walk has come to the word and reads it
          subst hab
          obtain ⟨fval, hv, hs'⟩ := hlook w next hpc
          rw [hs'] at ho' hw' ⊢
          exact .read w fval next rfl hv ho' hw'
        · rw [hl] at hin
          refine .ahead (l := l') ?_ ((mem_cons.mp hin).resolve_left hab) ho' hw'
          rw [robustNext_link]
          exact hplan'
    · refine .exchanged w next ?_ hrel hw'
      simp only [robustNext, exitStep, hpc]
  | read w fval next hpc hword ho hw =>
    refine .exchanged w next ?_ ?_ fun hW => heard_next .exit (hw hW)
    · simp only [robustNext, exitStep, hpc]
    · refine ⟨diedWord fval, ?_, tid_diedWord fval, died_diedWord fval⟩
      simp [robustNext, exitStep, hpc, hword, store_word]
  | exchanged w next hpc hrel hw =>
    refine .wokenPrivate w next ?_ (hrel.next .exit) fun hW => ?_
    · simp only [robustNext, exitStep, hpc]
    rcases hw hW with ⟨u, hq, sh, hk⟩ | hserved
    · simp only [robustNext, exitStep, hpc]
      cases sh with
      | false => exact .inl (futexWake_wakes _ hq hk)
      | true =>
        rcases futexWake_keeps a 0x7FFFFFFF false hq with h' | h'
        · exact .inr ⟨u, h', hk⟩
        · exact .inl ⟨u, h', true, hk⟩
    · exact .inl (hserved.next .exit)
  | wokenPrivate w next hpc hrel hw =>
    refine .finished (hrel.next .exit) fun hW => ?_
    rcases hw hW with hserved | ⟨u, hq, hk⟩
    · exact hserved.next .exit
    · simp only [robustNext, exitStep, hpc]
      exact futexWake_wakes _ hq hk
  | finished hrel hw => exact .finished (hrel.next .exit) fun hW => (hw hW).next .exit

theorem Phase.next (hok : RobustOk s op) : Phase d W a (robustNext d s op) := by
  by_cases hop : op = .exit
  · subst hop
    exact h.exit
  · exact h.env hop hok

/-- When the walk is over, the word is released and somebody was woken. -/
theorem Phase.done (hpc : s.pc = .done) : Released s a ∧ (W → Served d s a) := by
  cases h with
  | ahead hplan hin =>
    rw [hpc] at hplan
    obtain rfl := hplan
    cases hin
  | read _ _ _ h' | exchanged _ _ h' | wokenPrivate _ _ h' => rw [hpc] at h'; cases h'
  | finished hrel hw => exact ⟨hrel, hw⟩

end

/-- Somebody who comes to sleep on a word that is still owned is counted as well. -/
theorem Phase.awaited (h : Phase d False a s) (ho : Owned d s a) (hw : Awaited d s a) :
    Phase d True a s := by
  cases h with
  | ahead hplan hin => exact .ahead hplan hin ho fun _ => .inl hw
  | read w fval next hpc hword => exact .read w fval next hpc hword ho fun _ => .inl hw
  | exchanged _ _ _ hrel | wokenPrivate _ _ _ hrel | finished hrel =>
    exact absurd hrel ho.not_released

end Word

/-! ## Whole runs -/

theorem owned_of_done {d : Dying} {s : Robust} {a : ℕ} (h : Owned d s a ∧ s.pc = .done)
    (op : RobustOp) : Owned d (robustNext d s op) a ∧ (robustNext d s op).pc = .done := by
  obtain ⟨ho, hd⟩ := h
  refine ⟨(ho.next op).resolve_right ?_, ?_⟩
  · rintro ⟨w, fval, next, -, hc, -⟩
    rw [hd] at hc
    cases hc
  · by_cases hop : op = .exit
    · subst hop
      simp only [robustNext, exitStep, hd]
    · rw [robustNext_pc hop, hd]

/-- The ways of dying that walk over the robust list. -/
def Way.walks : Way → Bool
  | .exit | .fatalSyscall => true
  | .exitGroup | .sibling | .fatalPreempt => false

theorem Way.pc_of_walks {way : Way} {d : Dying} (h : way.walks = true) (hl : d.robustList ≠ 0) :
    way.pc d = .head := by
  cases way <;> simp_all [Way.walks, Way.pc]

theorem Way.pc_of_not_walks {way : Way} {d : Dying} (h : way.walks = false) : way.pc d = .done := by
  cases way <;> simp_all [Way.walks, Way.pc]

/-- Thread 7 with a robust list of one entry at `0x2000`, whose word at `0x2020` it owns. -/
def ownerOfOne (pc : Pc) (word : BitVec 32) : Robust where
  mem :=
    { link := fun a => if a = 0x1000 then some 0x2000 else if a = 0x1008 then some 0x20
        else if a = 0x1010 then some 0 else if a = 0x2000 then some 0x1000 else none
      word := fun a => if a = 0x2020 then some word else none
      phys := fun _ => none
      user := fun a v h => by
        split at h
        · next ha => subst ha; decide
        · cases h }
  table := ⟨fun _ => [], fun _ _ h => by cases h⟩
  k := bootKernel
  woken := []
  pc := pc

/-- The thread itself. -/
def owner : Dying := ⟨7, 2, 0x1000, by decide, by decide⟩

theorem ownerOfOne_plan (pc : Pc) (word : BitVec 32) :
    Plan owner (ownerOfOne pc word).mem.link .head [0x2020] := by
  refine ⟨0x2000, 0x20, 0, rfl, rfl, rfl, [0x2000], ?_, by decide, by decide⟩
  exact .cons (by decide) (by decide) rfl (.nil (.inr rfl))

end CosmoRT.Ipc
