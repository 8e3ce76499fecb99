import CosmoRT.Event.Files

/-!
# Edge-triggered watches

Of a watch with `EPOLLET` a scan reports the event bits that `et_last` does not hold.  A bit stays
in `et_last` until some scan finds no event bit of the watch at all.

* `edge_reported_iff` — **an edge is reported exactly when, since the bit was last found, some scan
  found no event bit of the watch.**
* `edge_lost` — on a line that can always be written the second input is not reported.
-/

namespace CosmoRT.Event

open Lib Proc List BitVec

/-- A scan by a process: what it finds, and how many events the user's buffer takes. -/
structure Scan where
  files : Files
  dev : FdEntry → BitVec 32 → BitVec 32
  pid : ℕ
  room : ℕ

/-- `ep_send_events`. -/
def Scan.send (sc : Scan) : List EpollEntry → List (EpollEntry × EpollEvent) × List EpollEntry :=
  epSendEvents sc.files sc.dev sc.pid sc.room

/-- Its turn for one watch. -/
def Scan.sendOne (sc : Scan) : EpollEntry → Option EpollEvent × EpollEntry :=
  epSendOne sc.files sc.dev sc.pid

/-- `evbits` of a watch. -/
def Scan.word (sc : Scan) : EpollEntry → BitVec 32 := epReadyBits sc.files sc.dev sc.pid

/-- `interest` of a watch. -/
def EpollEntry.interest (epi : EpollEntry) : BitVec 32 :=
  epi.events &&& ~~~(epollEt ||| epollOneshot)

/-- The watches of an instance after a scan. -/
def scanNext (entries : List EpollEntry) (sc : Scan) : List EpollEntry := (sc.send entries).2

/-- One watch after a scan that gets to it. -/
def watchNext (epi : EpollEntry) (sc : Scan) : EpollEntry := (sc.sendOne epi).2

/-- What a run of scans finds for a watch. -/
def watchWords : EpollEntry → List Scan → List (BitVec 32)
  | _, [] => []
  | epi, sc :: scans => sc.word epi :: watchWords (watchNext epi sc) scans

/-- Whenever the bit `i` was found, a later scan found nothing at all. -/
def Forgotten (i : ℕ) : List (BitVec 32) → Prop
  | [] => True
  | word :: words => (word.getLsbD i = true → 0 ∈ words) ∧ Forgotten i words

/-- A scan of `entries` reports the bit `i` of a watch. -/
def Reports (sc : Scan) (entries : List EpollEntry) (epi : EpollEntry) (i : ℕ) : Prop :=
  ∃ r ∈ (sc.send entries).1, r.1 = epi ∧ r.2.events.getLsbD i = true

/-- A bit of the interest is off at the scan `a` and on at the next scan `b`. -/
structure Edge (epi : EpollEntry) (i : ℕ) (a b : Scan) : Prop where
  off : (a.word epi).getLsbD i = false
  interest : (watchNext epi a).interest.getLsbD i = true
  on : (b.word (watchNext epi a)).getLsbD i = true

theorem send_eq {sc : Scan} {l : List EpollEntry} (h : l.length ≤ sc.room) : sc.send l =
    (l.filterMap fun epi => (sc.sendOne epi).1.map (epi, ·), l.map (watchNext · sc)) := by
  rw [Scan.send]
  generalize sc.room = room at h
  induction l generalizing room with
  | nil => cases room <;> rfl
  | cons epi l ih =>
    obtain ⟨room, rfl⟩ : ∃ n, room = n + 1 := ⟨room - 1, by rw [length_cons] at h; omega⟩
    rw [length_cons] at h
    rw [epSendEvents]
    rcases hone : epSendOne sc.files sc.dev sc.pid epi with ⟨_ | ev, epi'⟩
    · simp [watchNext, Scan.sendOne, hone, ih (room + 1) (by omega)]
    · simp [watchNext, Scan.sendOne, hone, ih room (by omega)]

theorem run_scanNext {entries : List EpollEntry} {scans : List Scan}
    (h : ∀ sc ∈ scans, entries.length ≤ sc.room) :
    run scanNext entries scans = entries.map fun epi => run watchNext epi scans := by
  induction scans generalizing entries with
  | nil => simp
  | cons sc scans ih =>
    obtain ⟨hsc, h⟩ := forall_mem_cons.1 h
    rw [run_cons, scanNext, send_eq hsc, ih (by simpa using h), map_map]
    rfl

section Watch

variable {epi : EpollEntry} {sc : Scan} {i : ℕ}

theorem or_and_not (a e : BitVec 32) : a ||| (e &&& ~~~a) = a ||| e := by
  ext j hj
  simp only [getElem_or, getElem_and, getElem_not]
  cases a[j] <;> simp

/-- **One scan** of an edge-triggered watch. -/
theorem sendOne_edge (sc : Scan) (het : epi.events &&& epollEt ≠ 0) (hint : epi.interest ≠ 0) :
    ((sc.sendOne epi).1.map EpollEvent.events).getD 0 = sc.word epi &&& ~~~epi.etLast ∧
      (watchNext epi sc).etLast = if sc.word epi = 0 then 0 else epi.etLast ||| sc.word epi := by
  rw [EpollEntry.interest] at hint
  set e := sc.word epi with he
  have hold := or_and_not epi.etLast e
  rw [watchNext, Scan.sendOne, epSendOne, if_neg hint]
  simp only [decide_eq_true het, if_true,
    show epReadyBits sc.files sc.dev sc.pid epi = e from he.symm]
  by_cases hzero : e = 0
  · simp [hzero]
  · rw [if_neg hzero, if_neg hzero, ← hold]
    by_cases hnew : e &&& ~~~epi.etLast = 0
    · simp [hnew]
    · rw [if_neg hnew]
      exact ⟨rfl, by split <;> rfl⟩

theorem reports_iff {entries : List EpollEntry} (hroom : entries.length ≤ sc.room)
    (hmem : epi ∈ entries) (het : epi.events &&& epollEt ≠ 0) (hint : epi.interest ≠ 0) :
    Reports sc entries epi i ↔ (sc.word epi).getLsbD i = true ∧ epi.etLast.getLsbD i = false := by
  have hone : Reports sc entries epi i ↔ ∃ ev ∈ (sc.sendOne epi).1, ev.events.getLsbD i = true := by
    simp only [Reports, send_eq hroom, mem_filterMap, Option.map_eq_some_iff]
    constructor
    · rintro ⟨-, ⟨w, -, ev, hev, rfl⟩, rfl, hi⟩
      exact ⟨ev, hev, hi⟩
    · rintro ⟨ev, hev, hi⟩
      exact ⟨_, ⟨epi, hmem, ev, hev, rfl⟩, rfl, hi⟩
  have hbit := congrArg (·.getLsbD i) (sendOne_edge sc het hint).1
  cases hev : (sc.sendOne epi).1 <;> simp [hev] at hbit ⊢ <;> grind

theorem watchNext_events (epi : EpollEntry) (sc : Scan) :
    ∃ m, (watchNext epi sc).events = epi.events &&& m ∧ m &&& epollEt = epollEt := by
  have hall := (and_allOnes (x := epi.events)).symm
  unfold watchNext Scan.sendOne epSendOne
  dsimp only
  split_ifs
  all_goals first
    | exact ⟨_, hall, by decide⟩
    | exact ⟨_, rfl, by decide⟩

theorem edge_run (het : epi.events &&& epollEt ≠ 0) (scans : List Scan) :
    (run watchNext epi scans).events &&& epollEt ≠ 0 := by
  refine run_keeps (fun (epi : EpollEntry) sc (het : epi.events &&& epollEt ≠ 0) => ?_) het scans
  obtain ⟨m, hm, hkeep⟩ := watchNext_events epi sc
  rwa [hm, BitVec.and_assoc, hkeep]

theorem interest_of_run (scans : List Scan)
    (h : (run watchNext epi scans).interest.getLsbD i = true) : epi.interest.getLsbD i = true := by
  induction scans generalizing epi with
  | nil => exact h
  | cons sc scans ih =>
    obtain ⟨m, hm, -⟩ := watchNext_events epi sc
    have hnext := ih h
    simp only [EpollEntry.interest, hm, getLsbD_and, Bool.and_eq_true] at hnext ⊢
    exact ⟨hnext.1.1, hnext.2⟩

theorem interest_ne_zero (h : epi.interest.getLsbD i = true) : epi.interest ≠ 0 := by
  intro h0
  simp [h0] at h

/-- **A run of scans.**  A bit that is still of interest is held if it was at the start and every
scan found something, or if it has been found and not been forgotten. -/
theorem etLast_run (het : epi.events &&& epollEt ≠ 0) {scans : List Scan}
    (h : (run watchNext epi scans).interest.getLsbD i = true) :
    (run watchNext epi scans).etLast.getLsbD i = true ↔
      epi.etLast.getLsbD i = true ∧ 0 ∉ watchWords epi scans ∨
        ¬Forgotten i (watchWords epi scans) := by
  induction scans generalizing epi with
  | nil => simp [watchWords, Forgotten]
  | cons sc scans ih =>
    have hint := interest_of_run (sc :: scans) h
    have hnext : (watchNext epi sc).events &&& epollEt ≠ 0 := edge_run het [sc]
    rw [run_cons, ih hnext h, watchWords, Forgotten,
      (sendOne_edge sc het (interest_ne_zero hint)).2]
    by_cases hword : sc.word epi = 0
    · simp [hword]
    · rw [if_neg hword, getLsbD_or, Bool.or_eq_true, mem_cons]
      tauto

end Watch

/-- **Edges.**  After any scans with room for all events, an edge of an edge-triggered watch is
reported if and only if the bit has been forgotten. -/
theorem edge_reported_iff {entries : List EpollEntry} {epi : EpollEntry} (hmem : epi ∈ entries)
    (het : epi.events &&& epollEt ≠ 0) (hfresh : epi.etLast = 0) (scans : List Scan) {a b : Scan}
    (hroom : ∀ sc ∈ scans ++ [a, b], entries.length ≤ sc.room) (i : ℕ) :
    (Edge (run watchNext epi scans) i a b →
        Reports b (run scanNext entries (scans ++ [a])) (run watchNext epi (scans ++ [a])) i) ↔
      (Edge (run watchNext epi scans) i a b → Forgotten i (watchWords epi (scans ++ [a]))) := by
  refine forall_congr' fun hedge => ?_
  obtain ⟨-, hint, hon⟩ := hedge
  have hlast : run watchNext epi (scans ++ [a]) = watchNext (run watchNext epi scans) a := by
    simp [run_append]
  rw [← hlast] at hint hon
  have hrun : run scanNext entries (scans ++ [a]) = entries.map (run watchNext · (scans ++ [a])) :=
    run_scanNext fun sc hsc => hroom sc (by simp at hsc ⊢; tauto)
  have hwmem : run watchNext epi (scans ++ [a]) ∈ run scanNext entries (scans ++ [a]) := by
    rw [hrun]
    exact mem_map_of_mem hmem
  have hlen : (run scanNext entries (scans ++ [a])).length ≤ b.room := by
    rw [hrun, length_map]
    exact hroom b (by simp)
  rw [reports_iff hlen hwmem (edge_run het _) (interest_ne_zero hint), ← Bool.not_eq_true,
    etLast_run het hint]
  simp [hon, hfresh]

/-- A scan of the serial line, which can always be written. -/
def lineScan (data : Bool) : Scan where
  files := bootFiles
  dev _ interest := interest &&& (if data then epollIn ||| epollOut else epollOut)
  pid := 1
  room := 1

/-- A watch of the serial line. -/
def lineWatch (interest : BitVec 32) : EpollEntry :=
  ⟨0, ⟨.SERIAL, 0, 0⟩, interest ||| epollEt, 0, 0, none⟩

theorem edge_reported_iff_quiet :
    Reports (lineScan true) (run scanNext [lineWatch epollIn] [lineScan false])
      (run watchNext (lineWatch epollIn) [lineScan false]) 0 :=
  (edge_reported_iff (mem_singleton_self _) (by decide) rfl []
    (by simp [lineScan]) 0).2 (fun _ => ⟨by decide +kernel, trivial⟩)
    ⟨by decide +kernel, by decide +kernel, by decide +kernel⟩

/-- Input, its end and input again, on a watch that is also for writing. -/
theorem edge_lost :
    let w := lineWatch (epollIn ||| epollOut)
    Edge (run watchNext w [lineScan true]) 0 (lineScan false) (lineScan true) ∧
      ¬Reports (lineScan true) (run scanNext [w] [lineScan true, lineScan false])
        (run watchNext w [lineScan true, lineScan false]) 0 := by
  unfold Reports
  exact ⟨⟨by decide +kernel, by decide +kernel, by decide +kernel⟩, by decide +kernel⟩

end CosmoRT.Event
