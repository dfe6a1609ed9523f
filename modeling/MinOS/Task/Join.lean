import MinOS.Task.RunQueue

/-!
# Waiting for a task to finish

`Finish` leaves its exit code in `finish_tasks_` and wakes the registered
waiter; `WaitFinish` is a loop of atomic turns that take the code or register
and sleep.  The system below interleaves the turns of any number of waiters
with the tasks they wait for, with messages that wake them at any time, and
with the scheduler.
-/

namespace MinOS
namespace Join

open TaskManager

variable {Ctx Msg : Type}

/-- Where a task is: in its own code, or in the loop of `WaitFinish(id)`. -/
inductive Phase where
  | outside
  | waiting (id : ℕ)
deriving DecidableEq

/-- The manager and the history of the protocol: the exit codes passed to
`Finish`, the codes that `WaitFinish(id)` returned, and the tasks some
`WaitFinish` was called for. -/
structure State (Ctx Msg : Type) where
  manager : TaskManager Ctx Msg
  phase : ℕ → Phase
  finished : ℕ → Option ℤ
  returned : ℕ → List ℤ
  joined : ℕ → Bool

def init (idleCtx : Ctx) : State Ctx Msg where
  manager := TaskManager.init idleCtx
  phase := fun _ ↦ .outside
  finished := fun _ ↦ none
  returned := fun _ ↦ []
  joined := fun _ ↦ false

inductive Op (Ctx Msg : Type) where
  | newTask
  | wakeup (task : ℕ)
  | sendMessage (id : ℕ) (msg : Msg)
  | switchTask (ctx : Ctx)
  | sleep (ctx : Ctx)
  | finish (exitCode : ℤ)
  | waitFinish (id : ℕ) (ctx : Ctx)

/-- The effect of one turn of `WaitFinish(id)` by the task `t`. -/
def afterTurn (s : State Ctx Msg) (t id : ℕ) :
    Option ℤ × TaskManager Ctx Msg → State Ctx Msg
  | (some exitCode, m) =>
      { s with manager := m, phase := Function.update s.phase t .outside
               returned := Function.update s.returned id (s.returned id ++ [exitCode])
               joined := Function.update s.joined id true }
  | (none, m) =>
      { s with manager := m, phase := Function.update s.phase t (.waiting id)
               joined := Function.update s.joined id true }

/-- The steps of the system.  `Sleep`, `Finish` and the call of `WaitFinish` are
made by the current task in its own code; a waiter that runs again is back in
its loop.  A task waits for its own subtasks only, once for each. -/
inductive Step (parent : ℕ → ℕ) : State Ctx Msg → Op Ctx Msg → State Ctx Msg → Prop where
  | newTask {s : State Ctx Msg} :
      Step parent s .newTask { s with manager := s.manager.newTask }
  | wakeup {s : State Ctx Msg} (task : ℕ) :
      Step parent s (.wakeup task) { s with manager := s.manager.wakeup task none }
  | sendMessage {s : State Ctx Msg} (id : ℕ) (msg : Msg) :
      Step parent s (.sendMessage id msg)
        { s with manager := (s.manager.sendMessage id msg).2 }
  | switchTask {s : State Ctx Msg} (ctx : Ctx) :
      Step parent s (.switchTask ctx) { s with manager := s.manager.switchTask ctx }
  | sleep {s : State Ctx Msg} {t : ℕ} (ctx : Ctx) (hcurrent : s.manager.currentTask = some t)
      (hidle : t ≠ idleId) (hphase : s.phase t = .outside) :
      Step parent s (.sleep ctx) { s with manager := s.manager.sleep t ctx }
  | finish {s : State Ctx Msg} {t : ℕ} (exitCode : ℤ)
      (hcurrent : s.manager.currentTask = some t) (hidle : t ≠ idleId)
      (hphase : s.phase t = .outside) :
      Step parent s (.finish exitCode)
        { s with manager := s.manager.finish exitCode
                 finished := Function.update s.finished t (some exitCode) }
  | waitFinish {s : State Ctx Msg} {t id : ℕ} (ctx : Ctx)
      (hcurrent : s.manager.currentTask = some t) (hidle : t ≠ idleId)
      (hphase : s.phase t = .outside ∧ parent id = t ∧ s.joined id = false ∨
        s.phase t = .waiting id) :
      Step parent s (.waitFinish id ctx) (afterTurn s t id (s.manager.waitFinishTurn id ctx))

/-- The exit code of a finished task is either still in `finish_tasks_` or was
returned once; a waiter in the loop owns its subtask, and while it sleeps it is
registered and its subtask has not finished. -/
structure Invariant (parent : ℕ → ℕ) (s : State Ctx Msg) : Prop where
  manager : TaskManager.Invariant s.manager
  unfinished : ∀ id, s.finished id = none → s.manager.finishTasks id = none ∧ s.returned id = []
  finished : ∀ id exitCode, s.finished id = some exitCode →
    s.manager.tasks id = none ∧ id ≤ s.manager.latestId ∧
      (s.manager.finishTasks id = some exitCode ∧ s.returned id = [] ∨
        s.manager.finishTasks id = none ∧ s.returned id = [exitCode])
  joined : ∀ id, s.returned id ≠ [] → s.joined id = true
  waiting : ∀ t id, s.phase t = .waiting id →
    parent id = t ∧ s.joined id = true ∧ s.returned id = [] ∧ s.manager.tasks t ≠ none
  asleep : ∀ t id, s.phase t = .waiting id → s.manager.isRunning t = some false →
    s.manager.finishWaiter id = some t
  registered : ∀ t id, s.manager.finishWaiter id = some t →
    s.phase t = .waiting id ∧ s.finished id = none

theorem Invariant.init (parent : ℕ → ℕ) (idleCtx : Ctx) :
    Invariant parent (init idleCtx : State Ctx Msg) where
  manager := .init idleCtx
  unfinished _ _ := ⟨rfl, rfl⟩
  finished id exitCode h := by simp [Join.init] at h
  joined id h := absurd rfl h
  waiting t id h := by simp [Join.init] at h
  asleep t id h := by simp [Join.init] at h
  registered t id h := by simp [Join.init, TaskManager.init] at h

/-- A change of the manager that keeps the finish tables and the owned tasks and
puts no waiter to sleep keeps the invariant. -/
theorem Invariant.of_frame {parent : ℕ → ℕ} {s : State Ctx Msg} (hs : Invariant parent s)
    {m : TaskManager Ctx Msg} (hm : TaskManager.Invariant m)
    (hlatest : s.manager.latestId ≤ m.latestId) (hfinish : m.finishTasks = s.manager.finishTasks)
    (hwaiter : m.finishWaiter = s.manager.finishWaiter)
    (htasks : ∀ id, id ≤ s.manager.latestId → (m.tasks id = none ↔ s.manager.tasks id = none))
    (hasleep : ∀ t id, s.phase t = .waiting id → m.isRunning t = some false →
      s.manager.isRunning t = some false) :
    Invariant parent { s with manager := m } where
  manager := hm
  unfinished id h := by
    simpa [hfinish] using hs.unfinished id h
  finished id exitCode h := by
    obtain ⟨htask, hle, hcode⟩ := hs.finished id exitCode h
    exact ⟨(htasks id hle).mpr htask, hle.trans hlatest, by simpa [hfinish] using hcode⟩
  joined := hs.joined
  waiting t id h := by
    obtain ⟨hparent, hjoined, hreturned, htask⟩ := hs.waiting t id h
    have hle : t ≤ s.manager.latestId := by
      by_contra hlt
      exact htask (hs.manager.queue.fresh t (by omega))
    exact ⟨hparent, hjoined, hreturned, mt (htasks t hle).mp htask⟩
  asleep t id h hrun := by
    simpa [hwaiter] using hs.asleep t id h (hasleep t id h hrun)
  registered t id h := hs.registered t id (by simpa [hwaiter] using h)

theorem Invariant.alive_le {parent : ℕ → ℕ} {s : State Ctx Msg} (hs : Invariant parent s)
    {t id : ℕ} (h : s.phase t = .waiting id) : t ≤ s.manager.latestId := by
  by_contra hlt
  exact (hs.waiting t id h).2.2.2 (hs.manager.queue.fresh t (by omega))

theorem Invariant.newTask {parent : ℕ → ℕ} {s : State Ctx Msg} (hs : Invariant parent s) :
    Invariant parent { s with manager := s.manager.newTask } := by
  have hold : ∀ id, id ≤ s.manager.latestId → s.manager.newTask.tasks id = s.manager.tasks id := by
    intro id hle
    have hne : id ≠ s.manager.latestId + 1 := by omega
    simp [TaskManager.newTask, hne]
  apply hs.of_frame hs.manager.newTask (Nat.le_succ _) rfl rfl
  · intro id hle
    rw [hold id hle]
  · intro t id h hrun
    rwa [isRunning, hold t (hs.alive_le h)] at hrun

theorem Invariant.wakeup {parent : ℕ → ℕ} {s : State Ctx Msg} (hs : Invariant parent s)
    (task : ℕ) : Invariant parent { s with manager := s.manager.wakeup task none } := by
  obtain ⟨hlatest, hfinish, hwaiter⟩ := s.manager.wakeup_none_frame task
  apply hs.of_frame (hs.manager.wakeup_none task) hlatest.ge hfinish hwaiter
  · intro id _
    rw [← isRunning_eq_none, ← isRunning_eq_none, wakeup_none_isRunning]
    split_ifs with h
    · subst h
      simp
    · rfl
  · intro t id _ hrun
    rw [wakeup_none_isRunning] at hrun
    split_ifs at hrun with h
    · cases hflag : s.manager.isRunning task <;> simp [hflag] at hrun
    · exact hrun

theorem Invariant.sendMessage {parent : ℕ → ℕ} {s : State Ctx Msg} (hs : Invariant parent s)
    (id : ℕ) (msg : Msg) :
    Invariant parent { s with manager := (s.manager.sendMessage id msg).2 } := by
  cases ht : s.manager.tasks id with
  | none => simpa [TaskManager.sendMessage, ht] using hs
  | some τ =>
      have hsame := s.manager.isRunning_modifyTask_same id
        (fun t ↦ { t with msgs := t.msgs ++ [msg] }) fun _ ↦ rfl
      have hpush : Invariant parent { s with
          manager := s.manager.modifyTask id fun t ↦ { t with msgs := t.msgs ++ [msg] } } := by
        apply hs.of_frame (hs.manager.modifyTask_same id
          (fun t ↦ { t with msgs := t.msgs ++ [msg] }) fun _ ↦ ⟨rfl, rfl⟩) le_rfl rfl rfl
        · intro other _
          rw [← isRunning_eq_none, ← isRunning_eq_none, hsame]
        · intro t other _ hrun
          rwa [hsame] at hrun
      simpa [TaskManager.sendMessage, ht] using hpush.wakeup id

theorem Invariant.switchTask {parent : ℕ → ℕ} {s : State Ctx Msg} (hs : Invariant parent s)
    (ctx : Ctx) : Invariant parent { s with manager := s.manager.switchTask ctx } := by
  obtain ⟨hlatest, hfinish, hwaiter⟩ := s.manager.switchTask_frame ctx
  apply hs.of_frame (hs.manager.switchTask ctx) hlatest.ge hfinish hwaiter
  · intro id _
    rw [← isRunning_eq_none, ← isRunning_eq_none, switchTask_isRunning]
  · intro t id _ hrun
    rwa [switchTask_isRunning] at hrun

theorem Invariant.sleep {parent : ℕ → ℕ} {s : State Ctx Msg} (hs : Invariant parent s) {t : ℕ}
    (ctx : Ctx) (hidle : t ≠ idleId) (hphase : s.phase t = .outside) :
    Invariant parent { s with manager := s.manager.sleep t ctx } := by
  obtain ⟨hlatest, hfinish, hwaiter⟩ := s.manager.sleep_frame t ctx
  apply hs.of_frame (hs.manager.sleep ctx hidle) hlatest.ge hfinish hwaiter
  · intro id _
    rw [← isRunning_eq_none, ← isRunning_eq_none, sleep_isRunning]
    split_ifs with h
    · subst h
      simp
    · rfl
  · intro t' id h hrun
    have hne : t' ≠ t := by
      rintro rfl
      simp [hphase] at h
    rwa [sleep_isRunning, if_neg hne] at hrun

/-- The finishing task's waiter, if it sleeps, is the registered one, and that
one is running afterwards. -/
theorem Invariant.finish {parent : ℕ → ℕ} {s : State Ctx Msg} (hs : Invariant parent s) {t : ℕ}
    (exitCode : ℤ) (hcurrent : s.manager.currentTask = some t) (hidle : t ≠ idleId)
    (hphase : s.phase t = .outside) :
    Invariant parent { s with manager := s.manager.finish exitCode
                              finished := Function.update s.finished t (some exitCode) } := by
  obtain ⟨hlatest, hfinish, hwaiter, hrunning⟩ := s.manager.finish_frame exitCode hcurrent
  have halive : s.manager.tasks t ≠ none := by
    obtain ⟨_, τ, _, hτ, _⟩ := hs.manager.exists_currentTask hcurrent
    simp [hτ]
  have hfirst : s.finished t = none := by
    cases h : s.finished t with
    | none => rfl
    | some c => exact absurd (hs.finished t c h).1 halive
  have htasks : ∀ other, other ≠ t →
      ((s.manager.finish exitCode).tasks other = none ↔ s.manager.tasks other = none) := by
    intro other hne
    rw [← isRunning_eq_none, ← isRunning_eq_none, hrunning, if_neg hne]
    split_ifs <;> simp
  refine ⟨hs.manager.finish exitCode (by simpa [hcurrent] using hidle), ?_, ?_, hs.joined, ?_, ?_, ?_⟩
  · intro id h
    have hne : id ≠ t := by
      rintro rfl
      simp at h
    simp only [Function.update_of_ne hne, hfinish] at h ⊢
    exact hs.unfinished id h
  · intro id c h
    by_cases hid : id = t
    · subst hid
      obtain rfl : exitCode = c := by simpa using h
      refine ⟨?_, ?_, .inl ⟨by simp [hfinish], (hs.unfinished id hfirst).2⟩⟩
      · rw [← isRunning_eq_none, hrunning, if_pos rfl]
      · rw [hlatest]
        by_contra hlt
        exact halive (hs.manager.queue.fresh id (by omega))
    · simp only [Function.update_of_ne hid, hfinish, hlatest] at h ⊢
      obtain ⟨htask, hle, hcode⟩ := hs.finished id c h
      exact ⟨(htasks id hid).mpr htask, hle, hcode⟩
  · intro t' id h
    have hne : t' ≠ t := by
      rintro rfl
      simp [hphase] at h
    obtain ⟨hparent, hjoined, hreturned, htask⟩ := hs.waiting t' id h
    exact ⟨hparent, hjoined, hreturned, mt (htasks t' hne).mp htask⟩
  · intro t' id h hrun
    have hne : t' ≠ t := by
      rintro rfl
      simp [hphase] at h
    rw [hrunning, if_neg hne] at hrun
    split_ifs at hrun with hreg
    · cases hflag : s.manager.isRunning t' <;> simp [hflag] at hrun
    · have hold := hs.asleep t' id h hrun
      have hid : id ≠ t := by
        rintro rfl
        exact hreg hold
      simpa [hwaiter, hid] using hold
  · intro t' id h
    rw [hwaiter] at h
    have hid : id ≠ t := by
      rintro rfl
      simp at h
    simp only [Function.update_of_ne hid] at h ⊢
    exact hs.registered t' id h

/-- The task a turn is made for is the caller's own, and its code was not
returned before. -/
theorem Invariant.turn {parent : ℕ → ℕ} {s : State Ctx Msg} (hs : Invariant parent s)
    {t id : ℕ} (hphase : s.phase t = .outside ∧ parent id = t ∧ s.joined id = false ∨
      s.phase t = .waiting id) :
    parent id = t ∧ s.returned id = [] ∧ ∀ other, s.phase t = .waiting other → other = id := by
  rcases hphase with ⟨hout, hparent, hjoined⟩ | hwait
  · refine ⟨hparent, ?_, ?_⟩
    · by_contra hne
      simp [hs.joined id hne] at hjoined
    · intro other h
      simp [hout] at h
  · obtain ⟨hparent, _, hreturned, _⟩ := hs.waiting t id hwait
    refine ⟨hparent, hreturned, ?_⟩
    intro other h
    rw [hwait] at h
    exact (Phase.waiting.inj h).symm

theorem Invariant.returns {parent : ℕ → ℕ} {s : State Ctx Msg} (hs : Invariant parent s)
    {t id : ℕ} {exitCode : ℤ} (hparent : parent id = t) (hreturned : s.returned id = [])
    (hother : ∀ other, s.phase t = .waiting other → other = id)
    (hcode : s.manager.finishTasks id = some exitCode) :
    Invariant parent (afterTurn s t id (some exitCode,
      { s.manager with finishTasks := Function.update s.manager.finishTasks id none })) := by
  have hfinished : s.finished id = some exitCode := by
    cases h : s.finished id with
    | none => simp [(hs.unfinished id h).1] at hcode
    | some c =>
        rcases (hs.finished id c h).2.2 with ⟨htask, _⟩ | ⟨htask, _⟩
        · rw [← hcode, htask]
        · simp [htask] at hcode
  have hm : TaskManager.Invariant
      { s.manager with finishTasks := Function.update s.manager.finishTasks id none } :=
    ⟨⟨hs.manager.queue.placement, hs.manager.queue.fresh, hs.manager.queue.idle,
      hs.manager.queue.idle_le⟩, hs.manager.schedule.current, hs.manager.schedule.announced⟩
  have hold : ∀ t' id', Function.update s.phase t .outside t' = .waiting id' →
      t' ≠ t ∧ s.phase t' = .waiting id' ∧ id' ≠ id := by
    intro t' id' h
    have hne : t' ≠ t := by
      rintro rfl
      simp at h
    rw [Function.update_of_ne hne] at h
    refine ⟨hne, h, ?_⟩
    rintro rfl
    exact hne ((hs.waiting t' id' h).1.symm.trans hparent)
  refine ⟨hm, ?_, ?_, ?_, ?_, ?_, ?_⟩
  · intro id' h
    have hne : id' ≠ id := by
      rintro rfl
      simp [afterTurn, hfinished] at h
    simpa [afterTurn, hne] using hs.unfinished id' h
  · intro id' c h
    obtain ⟨htask, hle, hcodes⟩ := hs.finished id' c h
    refine ⟨htask, hle, ?_⟩
    by_cases hid : id' = id
    · subst hid
      obtain rfl : exitCode = c := Option.some.inj (hfinished.symm.trans h)
      exact .inr ⟨by simp [afterTurn], by simp [afterTurn, hreturned]⟩
    · simpa [afterTurn, hid] using hcodes
  · intro id' h
    by_cases hid : id' = id
    · subst hid
      simp [afterTurn]
    · simp only [afterTurn, Function.update_of_ne hid] at h ⊢
      exact hs.joined id' h
  · intro t' id' h
    obtain ⟨_, hphase, hid⟩ := hold t' id' h
    simpa [afterTurn, hid] using hs.waiting t' id' hphase
  · intro t' id' h hrun
    obtain ⟨_, hphase, _⟩ := hold t' id' h
    exact hs.asleep t' id' hphase hrun
  · intro t' id' h
    obtain ⟨hphase, hnone⟩ := hs.registered t' id' h
    have hne : t' ≠ t := by
      rintro rfl
      rw [hother id' hphase, hfinished] at hnone
      cases hnone
    exact ⟨by simpa [afterTurn, hne] using hphase, hnone⟩

theorem Invariant.registers {parent : ℕ → ℕ} {s : State Ctx Msg} (hs : Invariant parent s)
    {t id : ℕ} (ctx : Ctx) (hcurrent : s.manager.currentTask = some t) (hidle : t ≠ idleId)
    (hparent : parent id = t) (hreturned : s.returned id = [])
    (hother : ∀ other, s.phase t = .waiting other → other = id)
    (hcode : s.manager.finishTasks id = none) :
    Invariant parent (afterTurn s t id (none, { s.manager with
      finishWaiter := Function.update s.manager.finishWaiter id (some t) }.sleep t ctx)) := by
  have hunfinished : s.finished id = none := by
    cases h : s.finished id with
    | none => rfl
    | some c =>
        rcases (hs.finished id c h).2.2 with ⟨htask, _⟩ | ⟨_, hlist⟩
        · simp [htask] at hcode
        · simp [hlist] at hreturned
  set m := { s.manager with
    finishWaiter := Function.update s.manager.finishWaiter id (some t) } with hmdef
  have hm : TaskManager.Invariant m :=
    ⟨⟨hs.manager.queue.placement, hs.manager.queue.fresh, hs.manager.queue.idle,
      hs.manager.queue.idle_le⟩, hs.manager.schedule.current, hs.manager.schedule.announced⟩
  obtain ⟨hlatest, hfinish, hframe⟩ := m.sleep_frame t ctx
  have hwaiter : (m.sleep t ctx).finishWaiter =
      Function.update s.manager.finishWaiter id (some t) := hframe
  have hrunning : ∀ t', t' ≠ t → (m.sleep t ctx).isRunning t' = s.manager.isRunning t' := by
    intro t' hne
    rw [sleep_isRunning, if_neg hne]
    rfl
  have htasks : ∀ t', (m.sleep t ctx).tasks t' = none ↔ s.manager.tasks t' = none := by
    intro t'
    rw [← isRunning_eq_none, ← isRunning_eq_none, sleep_isRunning]
    split_ifs with h
    · subst h
      simp [isRunning, hmdef]
    · rfl
  have hold : ∀ t' id', t' ≠ t → Function.update s.phase t (.waiting id) t' = .waiting id' →
      s.phase t' = .waiting id' ∧ id' ≠ id := by
    intro t' id' hne h
    rw [Function.update_of_ne hne] at h
    refine ⟨h, ?_⟩
    rintro rfl
    exact hne ((hs.waiting t' id' h).1.symm.trans hparent)
  have hself : ∀ id', Function.update s.phase t (.waiting id) t = .waiting id' → id' = id := by
    intro id' h
    rw [Function.update_self] at h
    exact (Phase.waiting.inj h).symm
  have hjoined : ∀ id', s.joined id' = true → Function.update s.joined id true id' = true := by
    intro id' h
    by_cases hid : id' = id
    · subst hid
      simp
    · simpa [hid] using h
  refine ⟨hm.sleep ctx hidle, ?_, ?_, fun id' h ↦ hjoined id' (hs.joined id' h), ?_, ?_, ?_⟩
  · intro id' h
    simpa [afterTurn, hfinish] using hs.unfinished id' h
  · intro id' c h
    obtain ⟨htask, hle, hcodes⟩ := hs.finished id' c h
    exact ⟨(htasks id').mpr htask, by simpa [afterTurn, hlatest] using hle,
      by simpa [afterTurn, hfinish] using hcodes⟩
  · intro t' id' h
    by_cases hne : t' = t
    · subst hne
      obtain rfl := hself id' h
      obtain ⟨_, τ, _, hτ, _⟩ := hs.manager.exists_currentTask hcurrent
      exact ⟨hparent, by simp [afterTurn], hreturned, mt (htasks t').mp (by simp [hτ])⟩
    · obtain ⟨hphase, _⟩ := hold t' id' hne h
      obtain ⟨hp, hj, hr, htask⟩ := hs.waiting t' id' hphase
      exact ⟨hp, hjoined id' hj, hr, mt (htasks t').mp htask⟩
  · intro t' id' h hrun
    by_cases hne : t' = t
    · subst hne
      obtain rfl := hself id' h
      simp [afterTurn, hwaiter]
    · obtain ⟨hphase, hid⟩ := hold t' id' hne h
      have hreg := hs.asleep t' id' hphase ((hrunning t' hne).symm.trans hrun)
      simpa [afterTurn, hwaiter, hid] using hreg
  · intro t' id' h
    simp only [afterTurn, hwaiter] at h ⊢
    by_cases hid : id' = id
    · subst hid
      obtain rfl : t = t' := by simpa using h
      exact ⟨by simp, hunfinished⟩
    · rw [Function.update_of_ne hid] at h
      obtain ⟨hphase, hnone⟩ := hs.registered t' id' h
      have hne : t' ≠ t := by
        rintro rfl
        exact hid (hother id' hphase)
      exact ⟨by simpa [hne] using hphase, hnone⟩

theorem Invariant.step {parent : ℕ → ℕ} (s : State Ctx Msg) (op : Op Ctx Msg)
    (s' : State Ctx Msg) (hs : Invariant parent s) (hstep : Step parent s op s') :
    Invariant parent s' := by
  cases hstep with
  | newTask => exact hs.newTask
  | wakeup task => exact hs.wakeup task
  | sendMessage id msg => exact hs.sendMessage id msg
  | switchTask ctx => exact hs.switchTask ctx
  | sleep ctx hcurrent hidle hphase => exact hs.sleep ctx hidle hphase
  | finish exitCode hcurrent hidle hphase => exact hs.finish exitCode hcurrent hidle hphase
  | @waitFinish t id ctx hcurrent hidle hphase =>
      obtain ⟨hparent, hreturned, hother⟩ := hs.turn hphase
      cases hcode : s.manager.finishTasks id with
      | some exitCode =>
          simpa [waitFinishTurn, hcurrent, hcode] using
            hs.returns hparent hreturned hother hcode
      | none =>
          simpa [waitFinishTurn, hcurrent, hcode] using
            hs.registers ctx hcurrent hidle hparent hreturned hother hcode

/-- In every interleaving, every code that `WaitFinish(id)` returned is the one
the task `id` passed to `Finish`, no code is returned twice, a waiter is awake
once its task has finished, and its next turn then returns that code. -/
theorem join_protocol (parent : ℕ → ℕ) {idleCtx : Ctx} {ops : List (Op Ctx Msg)}
    {s : State Ctx Msg} (hrun : Transition.Run (Step parent) (Join.init idleCtx) ops s) :
    (∀ id exitCode, exitCode ∈ s.returned id → s.finished id = some exitCode) ∧
      (∀ id, (s.returned id).length ≤ 1) ∧
      (∀ t id, s.phase t = .waiting id → s.finished id ≠ none →
        s.manager.isRunning t = some true) ∧
      ∀ t id exitCode ctx, s.phase t = .waiting id → s.manager.currentTask = some t →
        s.finished id = some exitCode → (s.manager.waitFinishTurn id ctx).1 = some exitCode := by
  have hs : Invariant parent s := hrun.invariant Invariant.step (.init parent idleCtx)
  have hcodes : ∀ id, s.returned id = [] ∨
      ∃ exitCode, s.finished id = some exitCode ∧ s.returned id = [exitCode] := by
    intro id
    cases h : s.finished id with
    | none => exact .inl (hs.unfinished id h).2
    | some exitCode =>
        rcases (hs.finished id exitCode h).2.2 with ⟨_, hlist⟩ | ⟨_, hlist⟩
        · exact .inl hlist
        · exact .inr ⟨exitCode, rfl, hlist⟩
  refine ⟨?_, ?_, ?_, ?_⟩
  · intro id exitCode hmem
    rcases hcodes id with hlist | ⟨c, hfinished, hlist⟩
    · simp [hlist] at hmem
    · obtain rfl : exitCode = c := by simpa [hlist] using hmem
      exact hfinished
  · intro id
    rcases hcodes id with hlist | ⟨c, _, hlist⟩ <;> simp [hlist]
  · intro t id hphase hfinished
    cases hflag : s.manager.isRunning t with
    | none => exact absurd (isRunning_eq_none.mp hflag) (hs.waiting t id hphase).2.2.2
    | some running =>
        cases running with
        | true => rfl
        | false =>
            have hreg := hs.asleep t id hphase hflag
            exact absurd (hs.registered t id hreg).2 hfinished
  · intro t id exitCode ctx hphase hcurrent hfinished
    have hreturned := (hs.waiting t id hphase).2.2.1
    rcases (hs.finished id exitCode hfinished).2.2 with ⟨hcode, _⟩ | ⟨_, hlist⟩
    · simp [waitFinishTurn, hcurrent, hcode]
    · simp [hlist] at hreturned

/-- The main task waits for task 3, is woken by its `Finish` and returns with
its exit code. -/
theorem join_protocol_one_subtask :
    ∃ s : State Unit Unit, Transition.Run (Step fun _ ↦ 1) (Join.init ())
        [.newTask, .wakeup 3, .waitFinish 3 (), .finish 42, .switchTask (), .waitFinish 3 ()] s ∧
      s.returned 3 = [42] ∧ s.finished 3 = some 42 := by
  have hrun : Transition.Run (Step fun _ ↦ 1) (Join.init () : State Unit Unit)
      [.newTask, .wakeup 3, .waitFinish 3 (), .finish 42, .switchTask (), .waitFinish 3 ()] _ :=
    .snoc (.snoc (.snoc (.snoc (.snoc (.snoc (.nil _) .newTask) (.wakeup 3))
      (.waitFinish (t := 1) () (by decide) (by decide) (.inl ⟨rfl, rfl, rfl⟩)))
      (.finish (t := 3) 42 (by decide) (by decide) rfl)) (.switchTask ()))
      (.waitFinish (t := 1) () (by decide) (by decide) (.inr rfl))
  exact ⟨_, hrun, rfl, (join_protocol _ hrun).1 3 42 (List.mem_singleton.mpr rfl)⟩

end Join
end MinOS
