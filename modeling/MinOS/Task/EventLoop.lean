import MinOS.Task.RunQueue

/-!
# Event loops

A task's loop takes the oldest message of its own queue and sleeps when there
is none, in one step with interrupts off.  Senders append to the queue and wake
the task.  The system below interleaves the loops of any number of tasks with
senders, with the scheduler, and with the other place where a task sleeps, the
loop of `WaitFinish`.
-/

namespace MinOS
namespace TaskManager

variable {Ctx Msg : Type}

/-- `Task::ReceiveMessage`: the front of the task's own queue, removed. -/
def receiveMessage (m : TaskManager Ctx Msg) (task : ℕ) : Option Msg × TaskManager Ctx Msg :=
  match m.tasks task with
  | none => (none, m)
  | some t =>
      match t.msgs with
      | [] => (none, m)
      | msg :: rest => (some msg, m.modifyTask task fun t ↦ { t with msgs := rest })

/-- The atomic step of an event loop: `ReceiveMessage`, and `Sleep` if it
returned nothing. -/
def receiveTurn (m : TaskManager Ctx Msg) (task : ℕ) (ctx : Ctx) :
    Option Msg × TaskManager Ctx Msg :=
  match m.receiveMessage task with
  | (some msg, m') => (some msg, m')
  | (none, m') => (none, m'.sleep task ctx)

/-- The messages in a task's queue. -/
def queued (m : TaskManager Ctx Msg) (task : ℕ) : Option (List Msg) :=
  (m.tasks task).map Task.msgs

theorem queued_eq_none {m : TaskManager Ctx Msg} {task : ℕ} :
    m.queued task = none ↔ m.tasks task = none := by
  simp [queued]

theorem queued_modifyTask (m : TaskManager Ctx Msg) (task : ℕ)
    (f : Task Ctx Msg → Task Ctx Msg) (g : List Msg → List Msg)
    (hf : ∀ t, (f t).msgs = g t.msgs) :
    (m.modifyTask task f).queued =
      Function.update m.queued task ((m.queued task).map g) := by
  funext other
  by_cases h : other = task
  · subst h
    cases ht : m.tasks other <;> simp [queued, modifyTask, ht, hf]
  · simp [queued, modifyTask, h]

theorem queued_modifyTask_same (m : TaskManager Ctx Msg) (task : ℕ)
    (f : Task Ctx Msg → Task Ctx Msg) (hf : ∀ t, (f t).msgs = t.msgs) :
    (m.modifyTask task f).queued = m.queued := by
  rw [queued_modifyTask m task f id hf]
  simp

theorem rotateCurrentRunQueue_queued (m : TaskManager Ctx Msg) (currentSleep : Bool) :
    (m.rotateCurrentRunQueue currentSleep).2.queued = m.queued := by
  funext other
  simp only [queued, (m.rotateCurrentRunQueue_frame currentSleep).1]

theorem switchTask_queued (m : TaskManager Ctx Msg) (ctx : Ctx) :
    (m.switchTask ctx).queued = m.queued := by
  unfold switchTask
  split
  · rfl
  · rw [rotateCurrentRunQueue_queued]
    exact m.queued_modifyTask_same _ _ fun _ ↦ rfl

theorem sleep_queued (m : TaskManager Ctx Msg) (task : ℕ) (ctx : Ctx) :
    (m.sleep task ctx).queued = m.queued := by
  have hflag := m.queued_modifyTask_same task (fun t ↦ { t with running := false }) fun _ ↦ rfl
  unfold sleep
  split
  · rfl
  · dsimp only
    split_ifs
    · rfl
    · rw [queued_modifyTask_same _ task (fun t ↦ { t with context := some ctx }) fun _ ↦ rfl,
        rotateCurrentRunQueue_queued]
      exact hflag
    · exact hflag

theorem wakeup_none_queued (m : TaskManager Ctx Msg) (task : ℕ) :
    (m.wakeup task none).queued = m.queued := by
  cases ht : m.tasks task with
  | none => simp [wakeup, ht]
  | some t =>
      have hawake := m.queued_modifyTask_same task
        (fun t' ↦ { t' with level := t.level, running := true }) fun _ ↦ rfl
      cases hrun : t.running with
      | true => simp [wakeup, ht, hrun, changeLevelRunning]
      | false =>
          simp only [wakeup, ht, hrun, Bool.false_eq_true, if_false, Option.getD_none]
          split_ifs
          · exact hawake
          · exact hawake

theorem sendMessage_queued {m : TaskManager Ctx Msg} {id : ℕ} (msg : Msg)
    (hid : m.tasks id ≠ none) :
    (m.sendMessage id msg).2.queued =
      Function.update m.queued id ((m.queued id).map (· ++ [msg])) := by
  obtain ⟨t, ht⟩ := Option.ne_none_iff_exists'.mp hid
  simp only [sendMessage, ht]
  rw [wakeup_none_queued]
  exact m.queued_modifyTask id _ _ fun _ ↦ rfl

theorem sendMessage_isRunning {m : TaskManager Ctx Msg} {id : ℕ} (msg : Msg)
    (hid : m.tasks id ≠ none) (other : ℕ) :
    (m.sendMessage id msg).2.isRunning other =
      if other = id then some true else m.isRunning other := by
  obtain ⟨t, ht⟩ := Option.ne_none_iff_exists'.mp hid
  simp only [sendMessage, ht]
  rw [wakeup_none_isRunning, isRunning_modifyTask_same m id
    (fun t ↦ { t with msgs := t.msgs ++ [msg] }) fun _ ↦ rfl]
  simp [isRunning, ht]

theorem sendMessage_latestId (m : TaskManager Ctx Msg) (id : ℕ) (msg : Msg) :
    (m.sendMessage id msg).2.latestId = m.latestId := by
  cases ht : m.tasks id with
  | none => simp [sendMessage, ht]
  | some t =>
      simp only [sendMessage, ht]
      rw [(wakeup_none_frame _ _).1]
      rfl

theorem newTask_queued (m : TaskManager Ctx Msg) :
    m.newTask.queued = Function.update m.queued (m.latestId + 1) (some []) := by
  funext t
  by_cases h : t = m.latestId + 1
  · subst h
    simp [queued, newTask]
  · simp [queued, newTask, h]

theorem finish_queued (m : TaskManager Ctx Msg) (exitCode : ℤ) {task : ℕ}
    (hcurrent : m.currentTask = some task) :
    (m.finish exitCode).queued = Function.update m.queued task none := by
  obtain ⟨htasks, _, _, _, hfst⟩ := m.rotateCurrentRunQueue_frame true
  rw [hcurrent] at hfst
  have hgone : ∀ m' : TaskManager Ctx Msg, m'.tasks = Function.update m.tasks task none →
      m'.queued = Function.update m.queued task none := by
    intro m' h
    funext other
    by_cases hne : other = task
    · subst hne
      simp [queued, h]
    · simp [queued, h, hne]
  cases hrot : m.rotateCurrentRunQueue true with
  | mk front m₁ =>
      rw [hrot] at htasks hfst
      dsimp only at htasks hfst
      subst hfst
      simp only [finish, hrot]
      split
      · exact hgone _ (by simp [htasks])
      · rw [wakeup_none_queued]
        exact hgone _ (by simp [htasks])

theorem receiveTurn_latestId (m : TaskManager Ctx Msg) (task : ℕ) (ctx : Ctx) :
    (m.receiveTurn task ctx).2.latestId = m.latestId := by
  unfold receiveTurn receiveMessage
  cases ht : m.tasks task with
  | none => exact (m.sleep_frame task ctx).1
  | some t =>
      cases hmsgs : t.msgs with
      | nil => simpa [hmsgs] using (m.sleep_frame task ctx).1
      | cons msg rest => simp [hmsgs]

/-- A turn takes the front of the task's own queue and leaves the others alone. -/
theorem receiveTurn_queued (m : TaskManager Ctx Msg) (task : ℕ) (ctx : Ctx) :
    (m.receiveTurn task ctx).1 = (m.queued task).bind List.head? ∧
      (m.receiveTurn task ctx).2.queued =
        Function.update m.queued task ((m.queued task).map List.tail) := by
  unfold receiveTurn receiveMessage
  cases ht : m.tasks task with
  | none =>
      have hnone : m.queued task = none := queued_eq_none.mpr ht
      refine ⟨by simp [hnone], ?_⟩
      dsimp only
      rw [sleep_queued, hnone, Option.map_none, ← hnone, Function.update_eq_self]
  | some t =>
      have hsome : m.queued task = some t.msgs := by simp [queued, ht]
      cases hmsgs : t.msgs with
      | nil =>
          rw [hmsgs] at hsome
          refine ⟨by simp [hsome, hmsgs], ?_⟩
          simp only [hmsgs]
          rw [sleep_queued, hsome, Option.map_some, List.tail_nil, ← hsome,
            Function.update_eq_self]
      | cons msg rest =>
          rw [hmsgs] at hsome
          refine ⟨by simp [hsome, hmsgs], ?_⟩
          simp only [hmsgs]
          rw [m.queued_modifyTask task _ (fun _ ↦ rest) fun _ ↦ rfl, hsome]
          rfl

theorem waitFinishTurn_queued (m : TaskManager Ctx Msg) (id : ℕ) (ctx : Ctx) :
    (m.waitFinishTurn id ctx).2.queued = m.queued := by
  unfold waitFinishTurn
  cases m.currentTask with
  | none => rfl
  | some current =>
      cases m.finishTasks id with
      | some exitCode => rfl
      | none => exact sleep_queued _ _ _

theorem waitFinishTurn_latestId (m : TaskManager Ctx Msg) (id : ℕ) (ctx : Ctx) :
    (m.waitFinishTurn id ctx).2.latestId = m.latestId := by
  unfold waitFinishTurn
  cases m.currentTask with
  | none => rfl
  | some current =>
      cases m.finishTasks id with
      | some exitCode => rfl
      | none => exact (sleep_frame _ _ _).1

theorem Invariant.of_queues {m m' : TaskManager Ctx Msg} (hm : Invariant m)
    (htasks : m'.tasks = m.tasks) (hrunning : m'.running = m.running)
    (hlatest : m'.latestId = m.latestId) (hlevel : m'.currentLevel = m.currentLevel)
    (hchanged : m'.levelChanged = m.levelChanged) : Invariant m' := by
  have hplace : m'.place = m.place := by
    funext task
    simp only [place, htasks]
  refine ⟨⟨?_, ?_, ?_, ?_⟩, ?_, ?_⟩
  · rw [hplace, hrunning]
    exact hm.queue.placement
  · rw [hlatest, htasks]
    exact hm.queue.fresh
  · rw [hplace]
    exact hm.queue.idle
  · rw [hlatest]
    exact hm.queue.idle_le
  · rw [hrunning, hlevel]
    exact hm.schedule.current
  · rw [hrunning, hlevel, hchanged]
    exact hm.schedule.announced

theorem Invariant.receiveTurn {m : TaskManager Ctx Msg} (hm : Invariant m) {task : ℕ} (ctx : Ctx)
    (hidle : task ≠ idleId) : Invariant (m.receiveTurn task ctx).2 := by
  unfold TaskManager.receiveTurn receiveMessage
  cases ht : m.tasks task with
  | none => exact hm.sleep ctx hidle
  | some t =>
      cases hmsgs : t.msgs with
      | nil => simpa [hmsgs] using hm.sleep ctx hidle
      | cons msg rest =>
          simpa [hmsgs] using hm.modifyTask_same task (fun t ↦ { t with msgs := rest })
            fun _ ↦ ⟨rfl, rfl⟩

theorem Invariant.waitFinishTurn {m : TaskManager Ctx Msg} (hm : Invariant m) {task : ℕ}
    (id : ℕ) (ctx : Ctx) (hcurrent : m.currentTask = some task) (hidle : task ≠ idleId) :
    Invariant (m.waitFinishTurn id ctx).2 := by
  simp only [TaskManager.waitFinishTurn, hcurrent]
  cases m.finishTasks id with
  | some exitCode => exact hm.of_queues rfl rfl rfl rfl rfl
  | none =>
      have hregistered : Invariant { m with
          finishWaiter := Function.update m.finishWaiter id (some task) } :=
        hm.of_queues rfl rfl rfl rfl rfl
      exact hregistered.sleep ctx hidle

end TaskManager

namespace EventLoop

open TaskManager

variable {Ctx Msg : Type}

/-- The manager and the history of the mailboxes: the messages that `SendMessage`
accepted for a task, those its `ReceiveMessage` returned, and whether the loop
is the place where it last went to sleep. -/
structure State (Ctx Msg : Type) where
  manager : TaskManager Ctx Msg
  sent : ℕ → List Msg
  received : ℕ → List Msg
  inLoop : ℕ → Bool

def init (idleCtx : Ctx) : State Ctx Msg where
  manager := TaskManager.init idleCtx
  sent := fun _ ↦ []
  received := fun _ ↦ []
  inLoop := fun _ ↦ false

inductive Op (Ctx Msg : Type) where
  | newTask
  | wakeup (task : ℕ)
  | sendMessage (id : ℕ) (msg : Msg)
  | switchTask (ctx : Ctx)
  | receive (ctx : Ctx)
  | waitFinish (id : ℕ) (ctx : Ctx)
  | finish (exitCode : ℤ)

/-- The effect of `SendMessage(id, msg)`; only an accepted message is sent. -/
def afterSend (s : State Ctx Msg) (id : ℕ) (msg : Msg) :
    Except Error Unit × TaskManager Ctx Msg → State Ctx Msg
  | (.ok _, m) => { s with manager := m, sent := Function.update s.sent id (s.sent id ++ [msg]) }
  | (.error _, m) => { s with manager := m }

/-- The effect of one turn of the loop of the task `t`. -/
def afterReceive (s : State Ctx Msg) (t : ℕ) : Option Msg × TaskManager Ctx Msg → State Ctx Msg
  | (some msg, m) =>
      { s with manager := m, received := Function.update s.received t (s.received t ++ [msg]) }
  | (none, m) => { s with manager := m, inLoop := Function.update s.inLoop t true }

/-- The effect of one turn of `WaitFinish` by the task `t`. -/
def afterWait (s : State Ctx Msg) (t : ℕ) : Option ℤ × TaskManager Ctx Msg → State Ctx Msg
  | (some _, m) => { s with manager := m }
  | (none, m) => { s with manager := m, inLoop := Function.update s.inLoop t false }

/-- The steps of the system.  Messages come at any time and from anyone; the
turns and `Finish` are made by the current task, which is not the idle task. -/
inductive Step : State Ctx Msg → Op Ctx Msg → State Ctx Msg → Prop where
  | newTask {s : State Ctx Msg} : Step s .newTask { s with manager := s.manager.newTask }
  | wakeup {s : State Ctx Msg} (task : ℕ) :
      Step s (.wakeup task) { s with manager := s.manager.wakeup task none }
  | sendMessage {s : State Ctx Msg} (id : ℕ) (msg : Msg) :
      Step s (.sendMessage id msg) (afterSend s id msg (s.manager.sendMessage id msg))
  | switchTask {s : State Ctx Msg} (ctx : Ctx) :
      Step s (.switchTask ctx) { s with manager := s.manager.switchTask ctx }
  | receive {s : State Ctx Msg} {t : ℕ} (ctx : Ctx) (hcurrent : s.manager.currentTask = some t)
      (hidle : t ≠ idleId) : Step s (.receive ctx) (afterReceive s t (s.manager.receiveTurn t ctx))
  | waitFinish {s : State Ctx Msg} {t : ℕ} (id : ℕ) (ctx : Ctx)
      (hcurrent : s.manager.currentTask = some t) (hidle : t ≠ idleId) :
      Step s (.waitFinish id ctx) (afterWait s t (s.manager.waitFinishTurn id ctx))
  | finish {s : State Ctx Msg} {t : ℕ} (exitCode : ℤ)
      (hcurrent : s.manager.currentTask = some t) (hidle : t ≠ idleId) :
      Step s (.finish exitCode) { s with manager := s.manager.finish exitCode }

/-- What was sent to a task is what it received followed by its queue, and a
task that sleeps in its loop has an empty queue. -/
structure Invariant (s : State Ctx Msg) : Prop where
  manager : TaskManager.Invariant s.manager
  fresh : ∀ t, s.manager.latestId < t → s.sent t = [] ∧ s.received t = []
  history : ∀ t msgs, s.manager.queued t = some msgs → s.received t ++ msgs = s.sent t
  order : ∀ t, s.received t <+: s.sent t
  drained : ∀ t, s.inLoop t = true → s.manager.isRunning t = some false →
    s.manager.queued t = some []

theorem Invariant.init (idleCtx : Ctx) : Invariant (init idleCtx : State Ctx Msg) where
  manager := .init idleCtx
  fresh _ _ := ⟨rfl, rfl⟩
  history t msgs h := by
    simp only [queued, EventLoop.init, TaskManager.init] at h
    split_ifs at h <;> simp_all [EventLoop.init]
  order _ := List.prefix_refl _
  drained t h := by simp [EventLoop.init] at h

/-- A change of the manager that leaves the queues of the tasks alone, or drops
a task, and puts no task to sleep keeps the invariant. -/
theorem Invariant.of_frame {s : State Ctx Msg} (hs : Invariant s) {m : TaskManager Ctx Msg}
    (hm : TaskManager.Invariant m) (hlatest : m.latestId = s.manager.latestId)
    (hqueued : ∀ t msgs, m.queued t = some msgs → s.manager.queued t = some msgs)
    (hasleep : ∀ t, m.isRunning t = some false → s.manager.isRunning t = some false) :
    Invariant { s with manager := m } where
  manager := hm
  fresh t h := hs.fresh t (hlatest ▸ h)
  history t msgs h := hs.history t msgs (hqueued t msgs h)
  order := hs.order
  drained t hloop hrun := by
    have hold := hs.drained t hloop (hasleep t hrun)
    cases hq : m.queued t with
    | none =>
        have hnone := isRunning_eq_none.mpr (queued_eq_none.mp hq)
        rw [hnone] at hrun
        cases hrun
    | some msgs => rw [← hold, hqueued t msgs hq]

theorem Invariant.newTask {s : State Ctx Msg} (hs : Invariant s) :
    Invariant { s with manager := s.manager.newTask } := by
  refine ⟨hs.manager.newTask, ?_, ?_, hs.order, ?_⟩
  · intro t h
    exact hs.fresh t (lt_trans (Nat.lt_succ_self _) h)
  · intro t msgs h
    dsimp only at h
    rw [newTask_queued] at h
    by_cases ht : t = s.manager.latestId + 1
    · subst ht
      obtain ⟨hsent, hreceived⟩ := hs.fresh _ (Nat.lt_succ_self _)
      obtain rfl : [] = msgs := by simpa using h
      simp [hsent, hreceived]
    · rw [Function.update_of_ne ht] at h
      exact hs.history t msgs h
  · intro t hloop hrun
    dsimp only at hrun ⊢
    rw [newTask_queued]
    by_cases ht : t = s.manager.latestId + 1
    · subst ht
      simp
    · rw [Function.update_of_ne ht]
      apply hs.drained t hloop
      simpa [isRunning, TaskManager.newTask, ht] using hrun

theorem Invariant.wakeup {s : State Ctx Msg} (hs : Invariant s) (task : ℕ) :
    Invariant { s with manager := s.manager.wakeup task none } := by
  apply hs.of_frame (hs.manager.wakeup_none task) (s.manager.wakeup_none_frame task).1
  · intro t msgs h
    rwa [wakeup_none_queued] at h
  · intro t h
    rw [wakeup_none_isRunning] at h
    split_ifs at h with ht
    · cases hflag : s.manager.isRunning task <;> simp [hflag] at h
    · exact h

theorem Invariant.switchTask {s : State Ctx Msg} (hs : Invariant s) (ctx : Ctx) :
    Invariant { s with manager := s.manager.switchTask ctx } := by
  apply hs.of_frame (hs.manager.switchTask ctx) (s.manager.switchTask_frame ctx).1
  · intro t msgs h
    rwa [switchTask_queued] at h
  · intro t h
    rwa [switchTask_isRunning] at h

theorem Invariant.finish {s : State Ctx Msg} (hs : Invariant s) {t : ℕ} (exitCode : ℤ)
    (hcurrent : s.manager.currentTask = some t) (hidle : t ≠ idleId) :
    Invariant { s with manager := s.manager.finish exitCode } := by
  obtain ⟨hlatest, _, _, hrunning⟩ := s.manager.finish_frame exitCode hcurrent
  have hne : s.manager.currentTask ≠ some idleId := by simpa [hcurrent] using hidle
  apply hs.of_frame (hs.manager.finish exitCode hne) hlatest
  · intro other msgs h
    rw [finish_queued _ _ hcurrent] at h
    by_cases ho : other = t
    · simp [ho] at h
    · rwa [Function.update_of_ne ho] at h
  · intro other h
    rw [hrunning] at h
    split_ifs at h
    · cases hflag : s.manager.isRunning other <;> simp [hflag] at h
    · exact h

theorem Invariant.sendMessage {s : State Ctx Msg} (hs : Invariant s) (id : ℕ) (msg : Msg) :
    Invariant (afterSend s id msg (s.manager.sendMessage id msg)) := by
  by_cases hid : s.manager.tasks id = none
  · simpa [TaskManager.sendMessage, hid, afterSend] using hs
  · have hresult : afterSend s id msg (s.manager.sendMessage id msg) =
        { s with manager := (s.manager.sendMessage id msg).2
                 sent := Function.update s.sent id (s.sent id ++ [msg]) } := by
      obtain ⟨t, ht⟩ := Option.ne_none_iff_exists'.mp hid
      simp [TaskManager.sendMessage, ht, afterSend]
    rw [hresult]
    refine ⟨hs.manager.sendMessage id msg, ?_, ?_, ?_, ?_⟩
    · intro t h
      dsimp only at h ⊢
      rw [sendMessage_latestId] at h
      have hne : t ≠ id := by
        rintro rfl
        exact hid (hs.manager.queue.fresh t h)
      rw [Function.update_of_ne hne]
      exact hs.fresh t h
    · intro t msgs h
      dsimp only at h ⊢
      rw [sendMessage_queued msg hid] at h
      by_cases ht : t = id
      · subst ht
        rw [Function.update_self, Option.map_eq_some_iff] at h
        obtain ⟨before, hbefore, rfl⟩ := h
        rw [Function.update_self, ← hs.history t before hbefore, List.append_assoc]
      · rw [Function.update_of_ne ht] at h ⊢
        exact hs.history t msgs h
    · intro t
      dsimp only
      by_cases ht : t = id
      · subst ht
        rw [Function.update_self]
        exact (hs.order t).trans (List.prefix_append _ _)
      · rw [Function.update_of_ne ht]
        exact hs.order t
    · intro t hloop hrun
      dsimp only at hloop hrun ⊢
      rw [sendMessage_isRunning msg hid] at hrun
      split_ifs at hrun with ht
      · simp at hrun
      · rw [sendMessage_queued msg hid, Function.update_of_ne ht]
        exact hs.drained t hloop hrun

/-- Going to sleep keeps the invariant when the task's queue is empty or it
sleeps outside its loop. -/
theorem Invariant.sleep {s : State Ctx Msg} (hs : Invariant s) {m : TaskManager Ctx Msg}
    {t : ℕ} {ctx : Ctx} (hm : TaskManager.Invariant (m.sleep t ctx)) (hlatest : m.latestId = s.manager.latestId)
    (htasks : m.tasks = s.manager.tasks) {inLoop : Bool}
    (hempty : inLoop = true → s.manager.queued t = some []) :
    Invariant { s with manager := m.sleep t ctx
                       inLoop := Function.update s.inLoop t inLoop } := by
  have hqueued : (m.sleep t ctx).queued = s.manager.queued := by
    rw [sleep_queued]
    funext other
    simp only [queued, htasks]
  refine ⟨hm, ?_, ?_, hs.order, ?_⟩
  · intro other h
    rw [(m.sleep_frame t ctx).1, hlatest] at h
    exact hs.fresh other h
  · intro other msgs h
    dsimp only at h
    rw [hqueued] at h
    exact hs.history other msgs h
  · intro other hloop hrun
    dsimp only at hloop hrun ⊢
    rw [hqueued]
    by_cases ho : other = t
    · subst ho
      rw [Function.update_self] at hloop
      exact hempty hloop
    · rw [Function.update_of_ne ho] at hloop
      rw [sleep_isRunning, if_neg ho] at hrun
      apply hs.drained other hloop
      simpa [isRunning, htasks] using hrun

theorem Invariant.receive {s : State Ctx Msg} (hs : Invariant s) {t : ℕ} (ctx : Ctx)
    (hcurrent : s.manager.currentTask = some t) (hidle : t ≠ idleId) :
    Invariant (afterReceive s t (s.manager.receiveTurn t ctx)) := by
  obtain ⟨_, τ, _, hτ, hrunning, _⟩ := hs.manager.exists_currentTask hcurrent
  cases hmsgs : τ.msgs with
  | nil =>
      simp only [receiveTurn, receiveMessage, hτ, hmsgs, afterReceive]
      apply hs.sleep (hs.manager.sleep ctx hidle) rfl rfl
      intro _
      simp [queued, hτ, hmsgs]
  | cons msg rest =>
      simp only [receiveTurn, receiveMessage, hτ, hmsgs, afterReceive]
      have hqueued := s.manager.queued_modifyTask t (fun t ↦ { t with msgs := rest })
        (fun _ ↦ rest) fun _ ↦ rfl
      have hflag := s.manager.isRunning_modifyTask_same t (fun t ↦ { t with msgs := rest })
        fun _ ↦ rfl
      have hfront : s.received t ++ (msg :: rest) = s.sent t :=
        hs.history t _ (by simp [queued, hτ, hmsgs])
      refine ⟨hs.manager.modifyTask_same t _ fun _ ↦ ⟨rfl, rfl⟩, ?_, ?_, ?_, ?_⟩
      · intro other h
        have hne : other ≠ t := by
          rintro rfl
          rw [hs.manager.queue.fresh other h] at hτ
          cases hτ
        dsimp only
        rw [Function.update_of_ne hne]
        exact hs.fresh other h
      · intro other msgs h
        dsimp only at h ⊢
        rw [hqueued] at h
        by_cases ho : other = t
        · subst ho
          obtain rfl : rest = msgs := by simpa [queued, hτ] using h
          rw [Function.update_self, List.append_assoc]
          exact hfront
        · rw [Function.update_of_ne ho] at h ⊢
          exact hs.history other msgs h
      · intro other
        dsimp only
        by_cases ho : other = t
        · subst ho
          rw [Function.update_self, ← hfront]
          exact ⟨rest, by simp⟩
        · rw [Function.update_of_ne ho]
          exact hs.order other
      · intro other hloop hrun
        dsimp only at hloop hrun ⊢
        rw [hflag] at hrun
        have hne : other ≠ t := by
          rintro rfl
          simp [isRunning, hτ, hrunning] at hrun
        rw [hqueued, Function.update_of_ne hne]
        exact hs.drained other hloop hrun

theorem Invariant.waitFinish {s : State Ctx Msg} (hs : Invariant s) {t : ℕ} (id : ℕ) (ctx : Ctx)
    (hcurrent : s.manager.currentTask = some t) (hidle : t ≠ idleId) :
    Invariant (afterWait s t (s.manager.waitFinishTurn id ctx)) := by
  have hm := hs.manager.waitFinishTurn id ctx hcurrent hidle
  revert hm
  cases hcode : s.manager.finishTasks id with
  | some exitCode =>
      simp only [waitFinishTurn, hcurrent, hcode, afterWait]
      intro hm
      exact hs.of_frame hm rfl (fun _ _ h ↦ h) fun _ h ↦ h
  | none =>
      simp only [waitFinishTurn, hcurrent, hcode, afterWait]
      intro hm
      exact hs.sleep hm rfl rfl fun h ↦ by cases h

theorem Invariant.step (s : State Ctx Msg) (op : Op Ctx Msg) (s' : State Ctx Msg)
    (hs : Invariant s) (hstep : Step s op s') : Invariant s' := by
  cases hstep with
  | newTask => exact hs.newTask
  | wakeup task => exact hs.wakeup task
  | sendMessage id msg => exact hs.sendMessage id msg
  | switchTask ctx => exact hs.switchTask ctx
  | receive ctx hcurrent hidle => exact hs.receive ctx hcurrent hidle
  | waitFinish id ctx hcurrent hidle => exact hs.waitFinish id ctx hcurrent hidle
  | finish exitCode hcurrent hidle => exact hs.finish exitCode hcurrent hidle

/-- In every interleaving each task receives its messages in the order they were
sent, each exactly once, those not yet received being its queue; and a task
whose last sleep was in its loop and whose queue is not empty is awake and
stands in the run queue of its level. -/
theorem event_loop_delivery {idleCtx : Ctx} {ops : List (Op Ctx Msg)} {s : State Ctx Msg}
    (hrun : Transition.Run Step (EventLoop.init idleCtx) ops s) :
    (∀ t, s.received t <+: s.sent t) ∧
      (∀ t task, s.manager.tasks t = some task → s.received t ++ task.msgs = s.sent t) ∧
      ∀ t task, s.manager.tasks t = some task → s.inLoop t = true → task.msgs ≠ [] →
        task.running = true ∧ t ∈ s.manager.running task.level := by
  have hs : Invariant s := hrun.invariant Invariant.step (.init idleCtx)
  refine ⟨hs.order, ?_, ?_⟩
  · intro t task ht
    exact hs.history t task.msgs (by simp [queued, ht])
  · intro t task ht hloop hmsgs
    have hrunning : task.running = true := by
      by_contra hflag
      have hempty := hs.drained t hloop (by simpa [isRunning, ht] using hflag)
      rw [queued, ht] at hempty
      exact hmsgs (by simpa using hempty)
    refine ⟨hrunning, ?_⟩
    apply (hs.manager.queue.placement.mem_iff _ _).mpr
    simp [place, ht, hrunning]

/-- The main task drains its queue, sleeps, and is woken by the next message. -/
theorem event_loop_delivery_main_task :
    ∃ s : State Unit ℕ, Transition.Run Step (EventLoop.init ())
        [.sendMessage 1 7, .receive (), .receive (), .sendMessage 1 8] s ∧
      s.received 1 = [7] ∧ s.sent 1 = [7, 8] ∧ s.inLoop 1 = true ∧ 1 ∈ s.manager.running 3 := by
  have hrun : Transition.Run Step (EventLoop.init () : State Unit ℕ)
      [.sendMessage 1 7, .receive (), .receive (), .sendMessage 1 8] _ :=
    .snoc (.snoc (.snoc (.snoc (.nil _) (.sendMessage 1 7))
      (.receive (t := 1) () (by decide) (by decide)))
      (.receive (t := 1) () (by decide) (by decide))) (.sendMessage 1 8)
  exact ⟨_, hrun, rfl, rfl, rfl,
    ((event_loop_delivery hrun).2.2 1 _ rfl rfl (by decide)).2⟩

end EventLoop
end MinOS
