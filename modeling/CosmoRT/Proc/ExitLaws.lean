import CosmoRT.Proc.Signal

/-!
# What the exit paths do, thread by thread and process by process

* `exitKillProcess_threads`, `exitKillProcess_zombie`, `exitKillProcess_orphans`,
  `exitKillProcess_vfork`, `exitKillProcess_files`, `exitKillProcess_parent` — **the
  postconditions of the teardown.**
-/

namespace CosmoRT.Proc

open Event Option

/-! ## Waking, thread by thread -/

/-- A sleeper covered by the mask becomes runnable. -/
def rouse (mask : WakeMask) (t : Thread) : Thread :=
  if mask.covers t.state then { t with state := .RUNNABLE } else t

theorem rouse_rouse (mask : WakeMask) (t : Thread) : rouse mask (rouse mask t) = rouse mask t := by
  unfold rouse
  by_cases h : mask.covers t.state
  · simp [h, not_covers_runnable]
  · simp [h]

variable {mask : WakeMask} {t : Thread} {k' k'' : Kernel} {c c' : Process}

theorem rouse_of_not_covers (h : mask.covers t.state = false) :
    rouse mask t = t := by simp [rouse, h]

variable (k : Kernel) (pid : ℕ) (u : ℕ) (parent sig : ℕ)

theorem tryToWakeUp_threads (mask : WakeMask) :
    (tryToWakeUp k u mask).2.threads = (k.modThread u (rouse mask)).threads := by
  funext v
  unfold tryToWakeUp
  by_cases hv : v = u
  · subst hv
    cases ht : k.threads v with
    | none => simp [ht]
    | some t =>
      by_cases hm : mask.covers t.state
      · simp [ht, hm, schedAdd_threads, Kernel.setState, rouse]
      · simp [ht, hm, rouse]
  · rw [modThread_ne hv]
    cases ht : k.threads u with
    | none => rfl
    | some t =>
      dsimp only
      split
      · rw [schedAdd_threads, Kernel.setState, modThread_ne hv]
      · rfl

theorem signalWakeUp_threads :
    (signalWakeUp k u).threads = (k.modThread u (rouse .INTERRUPTIBLE)).threads :=
  tryToWakeUp_threads k u .INTERRUPTIBLE

/-- A loop over threads that treats each of them by `g` treats each of them once. -/
theorem foldl_threads {f : Kernel → ℕ → Kernel} {g : Thread → Thread}
    (hf : ∀ k u, (f k u).threads = (k.modThread u g).threads) (hg : ∀ t, g (g t) = g t)
    (tids : List ℕ) (k : Kernel) (u : ℕ) :
    (tids.foldl f k).threads u = if u ∈ tids then (k.threads u).map g else k.threads u := by
  induction tids generalizing k with
  | nil => rfl
  | cons v tids ih =>
    rw [List.foldl_cons, ih, hf, modThread_threads]
    by_cases hu : u = v
    · have hgg : g ∘ g = g := funext hg
      subst hu
      by_cases hm : u ∈ tids <;> simp [hm, hgg]
    · simp [hu]

theorem foldl_procs {α : Type} {f : Kernel → α → Kernel} (hf : ∀ k a, (f k a).procs = k.procs)
    (l : List α) (k : Kernel) : (l.foldl f k).procs = k.procs := by
  induction l generalizing k with
  | nil => rfl
  | cons a l ih => rw [List.foldl_cons, ih, hf]

theorem wakeBlocked_threads (tids : List ℕ) (u : ℕ) :
    (wakeBlocked k tids).threads u =
      if u ∈ tids then (k.threads u).map (rouse .INTERRUPTIBLE) else k.threads u := by
  refine foldl_threads (fun k v => ?_) (rouse_rouse _) tids k u
  split
  · exact tryToWakeUp_threads ..
  next h =>
  funext w
  rw [modThread_threads]
  split
  · next hw =>
    subst hw
    cases ht : k.threads w with
    | none => rfl
    | some t =>
      have hst : t.state ≠ .BLOCKED := by simpa [ht] using h
      simp [rouse, WakeMask.covers, hst]
  · rfl

theorem wakeBlocked_woken (tids : List ℕ) : Woken .INTERRUPTIBLE k (wakeBlocked k tids) := by
  refine Woken.foldl (fun k u => ?_) tids k
  split
  · exact woken_signalWakeUp ..
  · exact Woken.refl ..

/-- `k'` comes from `k` by changes that only wake threads. -/
def Roused (k k' : Kernel) : Prop :=
  ∀ u, k'.threads u = k.threads u ∨
    ∃ t, k.threads u = some t ∧ WakeMask.NORMAL.covers t.state ∧
      k'.threads u = some { t with state := .RUNNABLE }

theorem Roused.of_eq {k : Kernel} (h : k'.threads = k.threads) : Roused k k' :=
  fun u => .inl (congrFun h u)

theorem Woken.roused {k : Kernel} (h : Woken mask k k') : Roused k k' :=
  h.normal.threads

theorem Roused.trans {k : Kernel} (h : Roused k k') (h' : Roused k' k'') : Roused k k'' := by
  intro u
  rcases h u with he | ⟨t, ht, hm, he⟩
  · rw [← he]; exact h' u
  · refine .inr ⟨t, ht, hm, ?_⟩
    rcases h' u with he' | ⟨t', ht', hm', -⟩
    · rw [he', he]
    · obtain rfl : { t with state := .RUNNABLE } = t' := mem_unique he ht'
      simp [not_covers_runnable] at hm'

theorem Roused.keep {k : Kernel} (h : Roused k k') {u : ℕ}
    (ht : k.threads u = some t) (hs : WakeMask.NORMAL.covers t.state = false) :
    k'.threads u = some t := by
  rcases h u with he | ⟨t', ht', hm, -⟩
  · rw [he, ht]
  · obtain rfl := mem_unique ht ht'
    rw [hs] at hm
    cases hm

/-- A thread is in none of the sleeping states. -/
def Awake (k : Kernel) (u : ℕ) : Prop :=
  ∀ t, k.threads u = some t → WakeMask.NORMAL.covers t.state = false

theorem Roused.awake {k : Kernel} (h : Roused k k') {u : ℕ} (hu : Awake k u) : Awake k' u := by
  intro t ht
  rcases h u with he | ⟨t', -, -, he⟩
  · exact hu t (he ▸ ht)
  · obtain rfl := mem_unique he ht
    rfl

/-- A thread is dead. -/
def Dead (k : Kernel) (u : ℕ) : Prop := ∀ t, k.threads u = some t → t.state = .DEAD

theorem dead_setState (k : Kernel) (tid : ℕ) : Dead (k.setState tid .DEAD) tid := by
  intro t ht
  rw [Kernel.setState, modThread_self] at ht
  obtain ⟨t', -, rfl⟩ := map_eq_some_iff.mp ht
  rfl

theorem Roused.dead {k : Kernel} (h : Roused k k') {u : ℕ} (hu : Dead k u) : Dead k' u := by
  intro t ht
  rcases h u with he | ⟨t', ht', hm, -⟩
  · exact hu t (he ▸ ht)
  · rw [hu t' ht'] at hm
    cases hm

/-- A thread is not blocked. -/
def Unblocked (k : Kernel) (u : ℕ) : Prop := ∀ t, k.threads u = some t → t.state ≠ .BLOCKED

theorem Awake.unblocked {k : Kernel} {u : ℕ} (h : Awake k u) : Unblocked k u := by
  intro t ht hb
  simpa [WakeMask.covers, hb] using h t ht

/-! ## The steps of the teardown -/

theorem tellParent_roused : Roused k (tellParent k parent sig) := by
  unfold tellParent
  split
  · exact .of_eq rfl
  · exact ((Roused.of_eq rfl : Roused k (k.modPending parent (·.raise sig))).trans
      (woken_wakeUp ..).roused).trans (wakeBlocked_woken ..).roused

theorem tellParent_procs (parent sig q : ℕ) :
    (tellParent k parent sig).procs q =
      if q = parent ∧ (procFind k parent).isSome then
        (k.procs q).map fun p => { p with pending := p.pending.raise sig }
      else k.procs q := by
  unfold tellParent
  cases h : procFind k parent with
  | none => simp
  | some p =>
    rw [(wakeBlocked_woken ..).procs, (woken_wakeUp ..).procs, Kernel.modPending, modProc_procs]
    simp

theorem tellParent_cap : (tellParent k parent sig).pidCapacity = k.pidCapacity := by
  unfold tellParent
  split
  · rfl
  · rw [(wakeBlocked_woken ..).cap, (woken_wakeUp ..).cap]
    rfl

theorem tellParent_files : (tellParent k parent sig).files = k.files := by
  unfold tellParent
  split
  · rfl
  · rw [(wakeBlocked_woken ..).files, (woken_wakeUp ..).files]
    rfl

theorem tellParent_unblocked {k : Kernel} {parent sig : ℕ} {p : Process}
    (hp : procFind k parent = some p) {u : ℕ} (hu : u ∈ p.threads) :
    Unblocked (tellParent k parent sig) u := by
  intro t ht
  rw [tellParent, hp] at ht
  rw [wakeBlocked_threads, if_pos hu] at ht
  obtain ⟨t', -, rfl⟩ := map_eq_some_iff.mp ht
  unfold rouse
  split
  · simp
  · next h =>
    intro hb
    exact h (by simp [WakeMask.covers, hb])

theorem closeFiles_woken :
    Woken .NORMAL { k with files := exitFiles k.files pid } (closeFiles k pid) :=
  Woken.foldl (fun k u => woken_schedWake k u) _ _

theorem wakeVfork_roused : Roused k (wakeVfork k pid) := by
  unfold wakeVfork
  split
  · exact .of_eq rfl
  · split
    · exact .of_eq rfl
    · split
      · exact .of_eq rfl
      · exact (woken_schedWake ..).roused

theorem wakeVfork_frame :
    (wakeVfork k pid).files = k.files ∧ (wakeVfork k pid).pidCapacity = k.pidCapacity := by
  unfold wakeVfork
  split
  · exact ⟨rfl, rfl⟩
  · split
    · exact ⟨rfl, rfl⟩
    · split
      · exact ⟨rfl, rfl⟩
      · exact ⟨(woken_schedWake ..).files, (woken_schedWake ..).cap⟩

theorem wakeVfork_procs (pid q : ℕ) :
    (wakeVfork k pid).procs q =
      if q = pid then (k.procs q).map fun p => { p with vforkParentTid := 0 } else k.procs q := by
  unfold wakeVfork
  cases hp : k.procs pid with
  | none =>
    by_cases hq : q = pid
    · simp [hq, hp]
    · simp [hq]
  | some p =>
    by_cases hv : p.vforkParentTid = 0
    · have hself : { p with vforkParentTid := 0 } = p := by rw [← hv]
      simp only [hv, if_true]
      split
      · next hq => rw [hq, hp, map_some, hself]
      · rfl
    · simp only [hv, if_false]
      rw [modProc_procs]
      split
      · next hq =>
        congr 1
        split
        · rfl
        · rw [(woken_schedWake ..).procs]
      · split
        · rfl
        · rw [(woken_schedWake ..).procs]

theorem wakeVfork_awake {k : Kernel} {pid : ℕ} {p : Process} (hp : k.procs pid = some p)
    (hv : p.vforkParentTid ≠ 0) : Awake (wakeVfork k pid) p.vforkParentTid := by
  intro t ht
  simp only [wakeVfork, hp, hv, if_false, modProc_threads] at ht
  cases hf : threadFindByTid k p.vforkParentTid with
  | none =>
    -- a thread that is not found is free or dead
    simp only [hf] at ht
    simp only [threadFindByTid, hv, if_false, ht, filter_eq_none_iff] at hf
    cases hs : t.state <;> simp_all [WakeMask.covers]
  | some t0 =>
    simp only [hf] at ht
    rw [schedWake, tryToWakeUp_threads, modThread_self] at ht
    obtain ⟨t', -, rfl⟩ := map_eq_some_iff.mp ht
    unfold rouse
    split
    · rfl
    · next h => simpa using h

/-- The function that `exit_kill_process` applies to the siblings. -/
def dieOrphan (t : Thread) : Thread := { t with state := .DEAD, proc := none }

theorem killSiblings_threads (tid : ℕ) (tids : List ℕ) (u : ℕ) :
    (killSiblings k tid tids).threads u =
      if u ∈ tids ∧ u ≠ tid then (k.threads u).map dieOrphan else k.threads u := by
  induction tids generalizing k with
  | nil => simp [killSiblings]
  | cons v tids ih =>
    rw [killSiblings, List.foldl_cons, ← killSiblings, ih]
    by_cases hv : v = tid
    · subst hv
      by_cases hu : u = v
      · simp [hu]
      · simp [hu]
    · rw [if_neg hv]
      by_cases hu : u = v
      · subst hu
        have hidem : dieOrphan ∘ dieOrphan = dieOrphan := rfl
        by_cases hm : u ∈ tids
        · simp only [hm, hv, ne_eq, not_false_eq_true, and_self, if_true, modThread_self,
            List.mem_cons, true_or, map_map]
          exact congrArg (Option.map · (k.threads u)) hidem
        · simp only [hm, hv, ne_eq, not_false_eq_true, and_true, if_false, modThread_self,
            List.mem_cons, true_or, if_true]
          rfl
      · simp [hu, modThread_ne hu]

theorem killSiblings_frame (tid : ℕ) (tids : List ℕ) :
    (killSiblings k tid tids).procs = k.procs ∧ (killSiblings k tid tids).files = k.files ∧
      (killSiblings k tid tids).pidCapacity = k.pidCapacity := by
  induction tids generalizing k with
  | nil => exact ⟨rfl, rfl, rfl⟩
  | cons v tids ih =>
    rw [killSiblings, List.foldl_cons, ← killSiblings]
    obtain ⟨hp, hf, hc⟩ := ih (if v = tid then k
      else k.modThread v fun t => { t with state := .DEAD, proc := none })
    rw [hp, hf, hc]
    split <;> exact ⟨rfl, rfl, rfl⟩

/-! ## Adoption -/

/-- What the loop over the process table does to a process: a child of `pid` becomes a
child of init, and pending signals may be added. -/
def Adopted (pid : ℕ) (c c' : Process) : Prop :=
  ∃ parent pending, c' = { c with parentPid := parent, pending } ∧
    (parent = c.parentPid ∨ c.parentPid = pid ∧ parent = 1) ∧
    ∀ sig, hasSig c.pending.set sig → hasSig pending.set sig

theorem Adopted.refl (c : Process) : Adopted pid c c :=
  ⟨c.parentPid, c.pending, rfl, .inl rfl, fun _ h => h⟩

theorem Adopted.trans {pid : ℕ} {c'' : Process} (h : Adopted pid c c')
    (h' : Adopted pid c' c'') : Adopted pid c c'' := by
  obtain ⟨par, pend, rfl, hpar, hpend⟩ := h
  obtain ⟨par', pend', rfl, hpar', hpend'⟩ := h'
  refine ⟨par', pend', rfl, ?_, fun sig hs => hpend' sig (hpend sig hs)⟩
  rcases hpar with rfl | ⟨hc, rfl⟩
  · exact hpar'
  · rcases hpar' with rfl | ⟨-, rfl⟩ <;> exact .inr ⟨hc, rfl⟩

theorem Adopted.parent_one {pid : ℕ} (h : Adopted pid c c')
    (hc : c.parentPid = 1) : c'.parentPid = 1 := by
  obtain ⟨par, pend, rfl, rfl | ⟨-, rfl⟩, -⟩ := h
  · exact hc
  · rfl

theorem adopted_raise (c : Process) (sig : ℕ) :
    Adopted pid c { c with pending := c.pending.raise sig } :=
  ⟨c.parentPid, c.pending.raise sig, rfl, .inl rfl, fun s h => by
    simp [Pending.raise, show hasSig c.pending.set s = true from h]⟩

/-- Every process of the table is kept, up to adoption. -/
def Keeps (pid : ℕ) (k k' : Kernel) : Prop :=
  ∀ q c, k.procs q = some c → ∃ c', k'.procs q = some c' ∧ Adopted pid c c'

theorem Keeps.refl (k : Kernel) : Keeps pid k k := fun _ c hc => ⟨c, hc, .refl pid c⟩

theorem Keeps.trans {pid : ℕ} {k : Kernel} (h : Keeps pid k k') (h' : Keeps pid k' k'') :
    Keeps pid k k'' := by
  intro q c hc
  obtain ⟨c', hc', ha⟩ := h q c hc
  obtain ⟨c'', hc'', ha'⟩ := h' q c' hc'
  exact ⟨c'', hc'', ha.trans ha'⟩

theorem keeps_tellParent (k : Kernel) (parent sig : ℕ) : Keeps pid k (tellParent k parent sig) := by
  intro q c hc
  rw [tellParent_procs]
  split
  · exact ⟨_, by rw [hc]; rfl, adopted_raise pid c sig⟩
  · exact ⟨c, hc, .refl pid c⟩

theorem reparent_frame (k : Kernel) (i : ℕ) :
    Roused k (reparent pid k i) ∧ (reparent pid k i).files = k.files ∧
      (reparent pid k i).pidCapacity = k.pidCapacity := by
  unfold reparent
  split
  · exact ⟨.of_eq rfl, rfl, rfl⟩
  · split
    · split
      · have hmod : Roused k (k.modProc i fun c => { c with parentPid := 1 }) := .of_eq rfl
        exact ⟨hmod.trans (tellParent_roused _ _ _), tellParent_files .., tellParent_cap ..⟩
      · exact ⟨.of_eq rfl, rfl, rfl⟩
    · exact ⟨.of_eq rfl, rfl, rfl⟩

/-- One turn of the loop adopts the process it looks at, if it is a child. -/
theorem reparent_adopts (k : Kernel) (i : ℕ) :
    Keeps pid k (reparent pid k i) ∧ ∀ c, k.procs i = some c → c.parentPid = pid →
      ∃ c', (reparent pid k i).procs i = some c' ∧ c'.parentPid = 1 := by
  unfold reparent
  cases hi : k.procs i with
  | none => exact ⟨.refl pid k, fun c hc => by cases hc⟩
  | some child =>
    by_cases hpar : child.parentPid = pid
    · simp only [hpar, if_true]
      have hmod : Keeps pid k (k.modProc i fun c => { c with parentPid := 1 }) := by
        intro q c hc
        rw [modProc_procs]
        split
        · next hq =>
          subst hq
          obtain rfl := mem_unique hi hc
          exact ⟨_, by rw [hi]; rfl, 1, child.pending, rfl, .inr ⟨hpar, rfl⟩, fun _ h => h⟩
        · exact ⟨c, hc, .refl pid c⟩
      have hone : (k.modProc i fun c => { c with parentPid := 1 }).procs i =
          some { child with parentPid := 1 } := by rw [modProc_self, hi]; rfl
      split
      · refine ⟨hmod.trans (keeps_tellParent _ _ _ _), fun c _ _ => ?_⟩
        obtain ⟨c', hc', ha⟩ := keeps_tellParent pid _ 1 SIGCHLD i _ hone
        exact ⟨c', hc', ha.parent_one rfl⟩
      · exact ⟨hmod, fun c _ _ => ⟨_, hone, rfl⟩⟩
    · simp only [hpar, if_false]
      refine ⟨.refl pid k, fun c hc hcp => ?_⟩
      obtain rfl := some.inj hc
      exact absurd hcp hpar

/-- **The loop over the process table.**  Every process is kept, every child in the list
is adopted, and threads are only woken. -/
theorem reparent_loop (l : List ℕ) (k : Kernel) :
    Keeps pid k (l.foldl (reparent pid) k) ∧ Roused k (l.foldl (reparent pid) k) ∧
      (l.foldl (reparent pid) k).files = k.files ∧
      (l.foldl (reparent pid) k).pidCapacity = k.pidCapacity ∧
      ∀ q ∈ l, ∀ c, k.procs q = some c → c.parentPid = pid →
        ∃ c', (l.foldl (reparent pid) k).procs q = some c' ∧ c'.parentPid = 1 := by
  induction l generalizing k with
  | nil => exact ⟨.refl pid k, .of_eq rfl, rfl, rfl, fun q hq => by cases hq⟩
  | cons i l ih =>
    obtain ⟨hkeep, hadopt⟩ := reparent_adopts pid k i
    obtain ⟨hrouse, hfiles, hcap⟩ := reparent_frame pid k i
    obtain ⟨hkeep', hrouse', hfiles', hcap', hadopt'⟩ := ih (reparent pid k i)
    refine ⟨hkeep.trans hkeep', hrouse.trans hrouse', hfiles'.trans hfiles, hcap'.trans hcap, ?_⟩
    intro q hq c hc hpar
    by_cases hqi : q = i
    · subst hqi
      obtain ⟨c', hc', hone⟩ := hadopt c hc hpar
      obtain ⟨c'', hc'', ha⟩ := hkeep' q c' hc'
      exact ⟨c'', hc'', ha.parent_one hone⟩
    · have hql : q ∈ l := (List.mem_cons.mp hq).resolve_left hqi
      obtain ⟨c', hc', ha⟩ := hkeep q c hc
      obtain ⟨par, pend, rfl, rfl | ⟨-, rfl⟩, -⟩ := ha
      · exact hadopt' q hql _ hc' hpar
      · obtain ⟨c'', hc'', ha''⟩ := hkeep' q _ hc'
        exact ⟨c'', hc'', ha''.parent_one rfl⟩

theorem notifyExit_frame (k : Kernel) (q : ℕ) :
    Keeps pid k (notifyExit k q) ∧ Roused k (notifyExit k q) ∧
      (notifyExit k q).files = k.files := by
  unfold notifyExit
  split
  · exact ⟨.refl pid k, .of_eq rfl, rfl⟩
  · exact ⟨keeps_tellParent _ _ _ _, tellParent_roused _ _ _, tellParent_files _ _ _⟩

/-! ## The teardown as a whole -/

/-- The exit signal of a process. -/
def exitNotify (p : Process) : ℕ := if p.notifySignal = 0 then SIGCHLD else p.notifySignal

/-- The state just before the loop over the process table. -/
def exitMiddle (k : Kernel) (tid pid status : ℕ) : Kernel :=
  let k := k.modProc pid fun p => { p with state := .ZOMBIE, exitCode := status }
  let k := closeFiles (wakeVfork k pid) pid
  killSiblings k tid ((k.procs pid).elim [] (·.threads))

section Teardown

variable {k : Kernel} {tid pid status : ℕ} {p : Process}

theorem exitKillProcess_eq : exitKillProcess k tid pid status =
    notifyExit ((pidRange (exitMiddle k tid pid status)).foldl (reparent pid)
      (exitMiddle k tid pid status)) pid := rfl

theorem exitMiddle_procs (q : ℕ) : (exitMiddle k tid pid status).procs q =
    if q = pid then (k.procs q).map fun p =>
      { p with state := .ZOMBIE, exitCode := status, vforkParentTid := 0 } else k.procs q := by
  simp only [exitMiddle]
  rw [(killSiblings_frame ..).1, (closeFiles_woken ..).procs]
  rw [wakeVfork_procs, modProc_procs]
  split
  · rw [map_map]; rfl
  · rfl

theorem exitMiddle_cap : (exitMiddle k tid pid status).pidCapacity = k.pidCapacity := by
  simp only [exitMiddle]
  rw [(killSiblings_frame ..).2.2, (closeFiles_woken ..).cap]
  rw [(wakeVfork_frame ..).2]
  rfl

theorem exitMiddle_files : (exitMiddle k tid pid status).files = exitFiles k.files pid := by
  simp only [exitMiddle]
  rw [(killSiblings_frame ..).2.1, (closeFiles_woken ..).files]
  rw [(wakeVfork_frame ..).1]
  rfl

/-- From the middle on, threads are only woken and processes are only adopted. -/
theorem exit_after_middle (k : Kernel) (tid pid status : ℕ) :
    Keeps pid (exitMiddle k tid pid status) (exitKillProcess k tid pid status) ∧
    Roused (exitMiddle k tid pid status) (exitKillProcess k tid pid status) ∧
    (exitKillProcess k tid pid status).files = exitFiles k.files pid := by
  obtain ⟨hkeep, hrouse, hfiles, -, -⟩ := reparent_loop pid
    (pidRange (exitMiddle k tid pid status)) (exitMiddle k tid pid status)
  obtain ⟨hkeep', hrouse', hfiles'⟩ := notifyExit_frame pid
    ((pidRange (exitMiddle k tid pid status)).foldl (reparent pid)
      (exitMiddle k tid pid status)) pid
  rw [exitKillProcess_eq]
  exact ⟨hkeep.trans hkeep', hrouse.trans hrouse', by rw [hfiles', hfiles, exitMiddle_files]⟩

/-- The threads of the process that are woken on the way are dead in the middle. -/
theorem exitMiddle_threads (tid status : ℕ) (hp : k.procs pid = some p) (u : ℕ) :
    ∃ k0, Roused k k0 ∧ (exitMiddle k tid pid status).threads u =
      if u ∈ p.threads ∧ u ≠ tid then (k0.threads u).map dieOrphan else k0.threads u := by
  refine ⟨closeFiles (wakeVfork (k.modProc pid fun p =>
    { p with state := .ZOMBIE, exitCode := status }) pid) pid, ?_, ?_⟩
  · refine Roused.trans ?_ (closeFiles_woken ..).roused
    have hmod : Roused k (k.modProc pid fun p => { p with state := .ZOMBIE, exitCode := status }) :=
      .of_eq rfl
    exact hmod.trans ((wakeVfork_roused _ _).trans (.of_eq rfl))
  · have hthreads : ((closeFiles (wakeVfork (k.modProc pid fun p =>
        { p with state := .ZOMBIE, exitCode := status }) pid) pid).procs pid).elim []
          (·.threads) = p.threads := by
      rw [(closeFiles_woken ..).procs]
      rw [wakeVfork_procs, if_pos rfl, modProc_self, hp]
      rfl
    simp only [exitMiddle]
    rw [killSiblings_threads, hthreads]

theorem exitKillProcess_threads (hp : k.procs pid = some p) (htid : Dead k tid) {u : ℕ}
    (hu : u ∈ p.threads) : Dead (exitKillProcess k tid pid status) u := by
  obtain ⟨-, hrouse, -⟩ := exit_after_middle k tid pid status
  apply hrouse.dead
  obtain ⟨k0, hr, hm⟩ := exitMiddle_threads tid status hp u
  intro t ht
  rw [hm] at ht
  split at ht
  · obtain ⟨t', -, rfl⟩ := map_eq_some_iff.mp ht
    rfl
  · next h =>
    have : u = tid := by
      by_contra hne
      exact h ⟨hu, hne⟩
    subst this
    exact hr.dead htid t ht

theorem exitKillProcess_zombie (tid status : ℕ) (hp : k.procs pid = some p) :
    ∃ p', (exitKillProcess k tid pid status).procs pid = some p' ∧ p'.state = .ZOMBIE ∧
      p'.exitCode = status ∧ p'.exitSignal = p.exitSignal ∧ p'.threads = p.threads := by
  obtain ⟨hkeep, -, -⟩ := exit_after_middle k tid pid status
  obtain ⟨p', hp', par, pend, rfl, -, -⟩ :=
    hkeep pid _ (by rw [exitMiddle_procs, if_pos rfl, hp]; rfl)
  exact ⟨_, hp', rfl, rfl, rfl, rfl⟩

theorem exitKillProcess_orphans (tid status : ℕ) {q : ℕ} (hq : q ∈ pidRange k) {c : Process}
    (hc : k.procs q = some c) (hpar : c.parentPid = pid) :
    ∃ c', (exitKillProcess k tid pid status).procs q = some c' ∧ c'.parentPid = 1 := by
  obtain ⟨-, -, -, -, hadopt⟩ := reparent_loop pid (pidRange (exitMiddle k tid pid status))
    (exitMiddle k tid pid status)
  have hmid : ∃ c', (exitMiddle k tid pid status).procs q = some c' ∧ c'.parentPid = pid := by
    rw [exitMiddle_procs]
    split
    · rw [hc]
      exact ⟨_, rfl, hpar⟩
    · exact ⟨c, hc, hpar⟩
  obtain ⟨c', hc', hpar'⟩ := hmid
  have hq' : q ∈ pidRange (exitMiddle k tid pid status) := by
    rw [pidRange, exitMiddle_cap]
    exact hq
  obtain ⟨c1, hc1, hone⟩ := hadopt q hq' c' hc' hpar'
  obtain ⟨c2, hc2, ha⟩ := (notifyExit_frame pid _ pid).1 q c1 hc1
  exact ⟨c2, hc2, ha.parent_one hone⟩

theorem exitKillProcess_vfork (tid status : ℕ) (hp : k.procs pid = some p)
    (hv : p.vforkParentTid ≠ 0) : Awake (exitKillProcess k tid pid status) p.vforkParentTid := by
  obtain ⟨-, hrouse, -⟩ := exit_after_middle k tid pid status
  apply hrouse.awake
  have hmod : (k.modProc pid fun p => { p with state := .ZOMBIE, exitCode := status }).procs pid =
      some { p with state := .ZOMBIE, exitCode := status } := by rw [modProc_self, hp]; rfl
  have hawake := wakeVfork_awake hmod hv
  intro t ht
  simp only [exitMiddle, killSiblings_threads] at ht
  split at ht
  · obtain ⟨t', -, rfl⟩ := map_eq_some_iff.mp ht
    rfl
  · refine (closeFiles_woken ..).roused.awake (fun t' ht' => ?_) t ht
    exact hawake t' ht'

theorem exitKillProcess_files (k : Kernel) (tid pid status : ℕ) :
    (exitKillProcess k tid pid status).files = exitFiles k.files pid :=
  (exit_after_middle k tid pid status).2.2

/-- The parent has the exit signal pending and none of its threads is blocked. -/
theorem exitKillProcess_parent (tid status : ℕ) (hp : k.procs pid = some p)
    (hne : p.parentPid ≠ pid) (hsig : p.notifySignal ≤ 64) {pp : Process}
    (hpp : procFind k p.parentPid = some pp) :
    (∃ pp', (exitKillProcess k tid pid status).procs p.parentPid = some pp' ∧
      hasSig pp'.pending.set (exitNotify p) = true) ∧
    ∀ u ∈ pp.threads, Unblocked (exitKillProcess k tid pid status) u := by
  obtain ⟨hkeep, -, -, hcap, -⟩ := reparent_loop pid (pidRange (exitMiddle k tid pid status))
    (exitMiddle k tid pid status)
  rw [exitMiddle_cap] at hcap
  rw [exitKillProcess_eq]
  set k5 := (pidRange (exitMiddle k tid pid status)).foldl (reparent pid)
      (exitMiddle k tid pid status) with hk5
  -- the process itself, still with its parent
  obtain ⟨p5, hp5, par, pend, rfl, hpar, -⟩ := hkeep pid _
    (by rw [exitMiddle_procs, if_pos rfl, hp]; rfl)
  have hpar' : par = p.parentPid := by
    rcases hpar with h | ⟨h, -⟩
    · exact h
    · exact absurd h hne
  subst hpar'
  -- the parent, still alive with the same threads
  have hrange : ¬(p.parentPid = 0 ∨ k.pidCapacity ≤ p.parentPid) := by
    intro h
    simp [procFind, h] at hpp
  simp only [procFind, hrange, if_false, filter_eq_some_iff] at hpp
  obtain ⟨hpk, hfree⟩ := hpp
  obtain ⟨pp5, hpp5, par', pend', rfl, -, -⟩ := hkeep p.parentPid pp
    (by rw [exitMiddle_procs, if_neg hne, hpk])
  have hfind : procFind k5 p.parentPid = some { pp with parentPid := par', pending := pend' } := by
    simp only [procFind, hcap, hrange, if_false, hpp5, filter_eq_some_iff]
    exact ⟨trivial, hfree⟩
  have hnotify : notifyExit k5 pid = tellParent k5 p.parentPid (exitNotify p) := by
    simp only [notifyExit, hp5]
    rfl
  rw [hnotify]
  refine ⟨⟨{ pp with parentPid := par', pending := pend'.raise (exitNotify p) }, ?_, ?_⟩, ?_⟩
  · rw [tellParent_procs, hpp5, hfind]
    simp
  · have hn : 1 ≤ exitNotify p ∧ exitNotify p ≤ 64 := by
      unfold exitNotify
      split
      · decide
      · next h0 => exact ⟨Nat.one_le_iff_ne_zero.mpr h0, hsig⟩
    simp [Pending.raise, hasSig_sigBit hn.1 hn.1 hn.2]
  · intro u hu
    exact tellParent_unblocked hfind hu

end Teardown

end CosmoRT.Proc
