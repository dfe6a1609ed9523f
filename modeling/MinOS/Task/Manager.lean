import Mathlib.Data.Fin.Basic
import Mathlib.Tactic
import MinOS.Memory.Bitmap

/-!
# The task manager

`TaskManager` of `task.cpp`.  A `Task*` is the task's identifier, and the owned
objects of `tasks_` are a partial function of it; a pointer to a task that is
no longer owned has no object behind it.  The register context a task is
suspended with and the messages in its queue are parameters.
-/

namespace MinOS

def kMaxLevel : ℕ := 3

/-- An index of `running_`. -/
abbrev Level := Fin (kMaxLevel + 1)

def kDefaultLevel : Level := 1

/-- The fields of `Task` that the manager and the message functions use.  The
context is absent until `InitContext` or the first suspension. -/
structure Task (Ctx Msg : Type) where
  level : Level := kDefaultLevel
  running : Bool := false
  msgs : List Msg := []
  context : Option Ctx := none

structure TaskManager (Ctx Msg : Type) where
  tasks : ℕ → Option (Task Ctx Msg)
  latestId : ℕ
  running : Level → List ℕ
  currentLevel : Level
  levelChanged : Bool
  finishTasks : ℕ → Option ℤ
  finishWaiter : ℕ → Option ℕ

namespace TaskManager

variable {Ctx Msg : Type}

/-- Update the object behind a task pointer. -/
def modifyTask (m : TaskManager Ctx Msg) (task : ℕ) (f : Task Ctx Msg → Task Ctx Msg) :
    TaskManager Ctx Msg :=
  { m with tasks := Function.update m.tasks task ((m.tasks task).map f) }

def setQueue (m : TaskManager Ctx Msg) (level : Level) (queue : List ℕ) :
    TaskManager Ctx Msg :=
  { m with running := Function.update m.running level queue }

/-- `std::remove` followed by `erase`: every occurrence goes. -/
def erase (queue : List ℕ) (task : ℕ) : List ℕ :=
  queue.filter (· ≠ task)

def newTask (m : TaskManager Ctx Msg) : TaskManager Ctx Msg :=
  { m with
    latestId := m.latestId + 1
    tasks := Function.update m.tasks (m.latestId + 1) (some {}) }

/-- The task behind `CurrentTask()`; the front of an empty deque is none. -/
def currentTask (m : TaskManager Ctx Msg) : Option ℕ :=
  (m.running m.currentLevel).head?

/-- The scan from `kMaxLevel` down to the first non-empty queue, which leaves
the level alone when every queue is empty. -/
def highestLevel (running : Level → List ℕ) (currentLevel : Level) : Level :=
  (([3, 2, 1, 0] : List Level).find? fun level ↦ !(running level).isEmpty).getD currentLevel

def rotateCurrentRunQueue (m : TaskManager Ctx Msg) (currentSleep : Bool) :
    Option ℕ × TaskManager Ctx Msg :=
  match m.running m.currentLevel with
  | [] => (none, m)
  | current :: rest =>
      let levelQueue := if currentSleep then rest else rest ++ [current]
      let m₁ := m.setQueue m.currentLevel levelQueue
      if levelQueue.isEmpty || m.levelChanged then
        (some current,
          { m₁ with levelChanged := false
                    currentLevel := highestLevel m₁.running m.currentLevel })
      else (some current, m₁)

/-- `SwitchTask`, called with the context the timer interrupt saved. -/
def switchTask (m : TaskManager Ctx Msg) (currentCtx : Ctx) : TaskManager Ctx Msg :=
  match m.currentTask with
  | none => m
  | some current =>
      ((m.modifyTask current fun t ↦ { t with context := some currentCtx }).rotateCurrentRunQueue
        false).2

/-- `Sleep(Task*)`.  When the task is the current one its registers are saved by
`SwitchContext` after the queue has been rotated. -/
def sleep (m : TaskManager Ctx Msg) (task : ℕ) (ctx : Ctx) : TaskManager Ctx Msg :=
  match m.tasks task with
  | none => m
  | some t =>
      if !t.running then m
      else
        let m₁ := m.modifyTask task fun t ↦ { t with running := false }
        if m₁.currentTask = some task then
          (m₁.rotateCurrentRunQueue true).2.modifyTask task
            fun t ↦ { t with context := some ctx }
        else m₁.setQueue t.level (erase (m₁.running t.level) task)

/-- `ChangeLevelRunning`; a negative level is `none`. -/
def changeLevelRunning (m : TaskManager Ctx Msg) (task : ℕ) (level : Option Level) :
    TaskManager Ctx Msg :=
  match m.tasks task, level with
  | some t, some level =>
      if level = t.level then m
      else if m.currentTask ≠ some task then
        let m₁ := m.setQueue t.level (erase (m.running t.level) task)
        let m₂ := m₁.setQueue level (m₁.running level ++ [task])
        if level > m.currentLevel then { m₂ with levelChanged := true } else m₂
      else
        let m₁ := m.setQueue m.currentLevel (m.running m.currentLevel).tail
        let m₂ := m₁.setQueue level (task :: m₁.running level)
        let m₃ := m₂.modifyTask task fun t ↦ { t with level := level }
        if level ≥ m.currentLevel then { m₃ with currentLevel := level }
        else { m₃ with currentLevel := level, levelChanged := true }
  | _, _ => m

/-- `Wakeup(Task*, int)`; a negative level is `none`. -/
def wakeup (m : TaskManager Ctx Msg) (task : ℕ) (level : Option Level) : TaskManager Ctx Msg :=
  match m.tasks task with
  | none => m
  | some t =>
      if t.running then m.changeLevelRunning task level
      else
        let level := level.getD t.level
        let m₁ := m.modifyTask task fun t ↦ { t with level := level, running := true }
        let m₂ := m₁.setQueue level (m₁.running level ++ [task])
        if level > m.currentLevel then { m₂ with levelChanged := true } else m₂

/-- `SendMessage(id, msg)`: append to the task's queue, then wake it. -/
def sendMessage (m : TaskManager Ctx Msg) (id : ℕ) (msg : Msg) :
    Except Error Unit × TaskManager Ctx Msg :=
  match m.tasks id with
  | none => (.error .kNoSuchTask, m)
  | some _ =>
      (.ok (), (m.modifyTask id fun t ↦ { t with msgs := t.msgs ++ [msg] }).wakeup id none)

/-- `Finish`, called by the current task. -/
def finish (m : TaskManager Ctx Msg) (exitCode : ℤ) : TaskManager Ctx Msg :=
  match m.rotateCurrentRunQueue true with
  | (none, _) => m
  | (some task, m₁) =>
      let m₂ := { m₁ with
        tasks := Function.update m₁.tasks task none
        finishTasks := Function.update m₁.finishTasks task (some exitCode) }
      match m₂.finishWaiter task with
      | none => m₂
      | some waiter =>
          { m₂ with finishWaiter := Function.update m₂.finishWaiter task none }.wakeup waiter none

/-- One turn of the loop of `WaitFinish`, called by the current task: take the
exit code if the task has finished, else register and sleep. -/
def waitFinishTurn (m : TaskManager Ctx Msg) (taskId : ℕ) (ctx : Ctx) :
    Option ℤ × TaskManager Ctx Msg :=
  match m.currentTask with
  | none => (none, m)
  | some current =>
      match m.finishTasks taskId with
      | some exitCode =>
          (some exitCode, { m with finishTasks := Function.update m.finishTasks taskId none })
      | none =>
          (none, { m with
            finishWaiter := Function.update m.finishWaiter taskId (some current) }.sleep
              current ctx)

/-- The identifier of the task that the constructor creates second. -/
def idleId : ℕ := 2

/-- The constructor: the main task on the highest level and the idle task,
with its initial context, on the lowest. -/
def init (idleCtx : Ctx) : TaskManager Ctx Msg where
  tasks := fun id ↦
    if id = 1 then some { level := 3, running := true }
    else if id = idleId then some { level := 0, running := true, context := some idleCtx }
    else none
  latestId := 2
  running := fun level ↦ if level = 3 then [1] else if level = 0 then [idleId] else []
  currentLevel := 3
  levelChanged := false
  finishTasks := fun _ ↦ none
  finishWaiter := fun _ ↦ none

/-! ## What the updates leave alone -/

@[simp] theorem modifyTask_running (m : TaskManager Ctx Msg) (task : ℕ)
    (f : Task Ctx Msg → Task Ctx Msg) : (m.modifyTask task f).running = m.running := rfl

@[simp] theorem modifyTask_currentLevel (m : TaskManager Ctx Msg) (task : ℕ)
    (f : Task Ctx Msg → Task Ctx Msg) :
    (m.modifyTask task f).currentLevel = m.currentLevel := rfl

@[simp] theorem modifyTask_levelChanged (m : TaskManager Ctx Msg) (task : ℕ)
    (f : Task Ctx Msg → Task Ctx Msg) :
    (m.modifyTask task f).levelChanged = m.levelChanged := rfl

@[simp] theorem modifyTask_latestId (m : TaskManager Ctx Msg) (task : ℕ)
    (f : Task Ctx Msg → Task Ctx Msg) : (m.modifyTask task f).latestId = m.latestId := rfl

@[simp] theorem modifyTask_currentTask (m : TaskManager Ctx Msg) (task : ℕ)
    (f : Task Ctx Msg → Task Ctx Msg) : (m.modifyTask task f).currentTask = m.currentTask := rfl

theorem modifyTask_tasks (m : TaskManager Ctx Msg) (task other : ℕ)
    (f : Task Ctx Msg → Task Ctx Msg) :
    (m.modifyTask task f).tasks other =
      if other = task then (m.tasks task).map f else m.tasks other := by
  by_cases h : other = task
  · subst h
    simp [modifyTask]
  · simp [modifyTask, h]

theorem rotateCurrentRunQueue_frame (m : TaskManager Ctx Msg) (currentSleep : Bool) :
    (m.rotateCurrentRunQueue currentSleep).2.tasks = m.tasks ∧
      (m.rotateCurrentRunQueue currentSleep).2.latestId = m.latestId ∧
      (m.rotateCurrentRunQueue currentSleep).2.finishTasks = m.finishTasks ∧
      (m.rotateCurrentRunQueue currentSleep).2.finishWaiter = m.finishWaiter ∧
      (m.rotateCurrentRunQueue currentSleep).1 = m.currentTask := by
  unfold rotateCurrentRunQueue currentTask setQueue
  split
  · rename_i hqueue
    simp [hqueue]
  · rename_i current rest hqueue
    dsimp only
    split_ifs <;> simp [hqueue]

theorem switchTask_frame (m : TaskManager Ctx Msg) (ctx : Ctx) :
    (m.switchTask ctx).latestId = m.latestId ∧
      (m.switchTask ctx).finishTasks = m.finishTasks ∧
      (m.switchTask ctx).finishWaiter = m.finishWaiter := by
  unfold switchTask
  split
  · exact ⟨rfl, rfl, rfl⟩
  · obtain ⟨_, hlatest, htasks, hwaiter, _⟩ := rotateCurrentRunQueue_frame
      (m.modifyTask _ fun t ↦ { t with context := some ctx }) false
    exact ⟨hlatest, htasks, hwaiter⟩

theorem sleep_frame (m : TaskManager Ctx Msg) (task : ℕ) (ctx : Ctx) :
    (m.sleep task ctx).latestId = m.latestId ∧
      (m.sleep task ctx).finishTasks = m.finishTasks ∧
      (m.sleep task ctx).finishWaiter = m.finishWaiter := by
  unfold sleep
  split
  · exact ⟨rfl, rfl, rfl⟩
  · dsimp only
    split_ifs
    · exact ⟨rfl, rfl, rfl⟩
    · obtain ⟨_, hlatest, htasks, hwaiter, _⟩ := rotateCurrentRunQueue_frame
        (m.modifyTask task fun t ↦ { t with running := false }) true
      exact ⟨hlatest, htasks, hwaiter⟩
    · exact ⟨rfl, rfl, rfl⟩

theorem wakeup_none_frame (m : TaskManager Ctx Msg) (task : ℕ) :
    (m.wakeup task none).latestId = m.latestId ∧
      (m.wakeup task none).finishTasks = m.finishTasks ∧
      (m.wakeup task none).finishWaiter = m.finishWaiter := by
  unfold wakeup changeLevelRunning
  split
  · exact ⟨rfl, rfl, rfl⟩
  · dsimp only
    split_ifs <;> simp [setQueue, modifyTask]

/-- The running flag of a task, as `Running()` reads it. -/
def isRunning (m : TaskManager Ctx Msg) (task : ℕ) : Option Bool :=
  (m.tasks task).map Task.running

theorem isRunning_eq_none {m : TaskManager Ctx Msg} {task : ℕ} :
    m.isRunning task = none ↔ m.tasks task = none := by
  simp [isRunning]

theorem isRunning_modifyTask_same (m : TaskManager Ctx Msg) (task : ℕ)
    (f : Task Ctx Msg → Task Ctx Msg) (hf : ∀ t, (f t).running = t.running) :
    (m.modifyTask task f).isRunning = m.isRunning := by
  funext other
  simp only [isRunning, modifyTask_tasks]
  split_ifs with h
  · subst h
    cases m.tasks other <;> simp [hf]
  · rfl

theorem switchTask_isRunning (m : TaskManager Ctx Msg) (ctx : Ctx) :
    (m.switchTask ctx).isRunning = m.isRunning := by
  unfold switchTask
  split
  · rfl
  · rename_i current _
    have htasks := (rotateCurrentRunQueue_frame
      (m.modifyTask current fun t ↦ { t with context := some ctx }) false).1
    have hsame := m.isRunning_modifyTask_same current
      (fun t ↦ { t with context := some ctx }) fun _ ↦ rfl
    rw [← hsame]
    funext other
    simp only [isRunning, htasks]

theorem sleep_isRunning (m : TaskManager Ctx Msg) (task other : ℕ) (ctx : Ctx) :
    (m.sleep task ctx).isRunning other =
      if other = task then (m.isRunning task).map fun _ ↦ false else m.isRunning other := by
  cases ht : m.tasks task with
  | none =>
      simp only [sleep, ht, isRunning]
      split_ifs with h
      · subst h
        simp [ht]
      · rfl
  | some t =>
      have hfalse : ∀ m' : TaskManager Ctx Msg,
          m'.tasks = (m.modifyTask task fun t ↦ { t with running := false }).tasks →
          m'.isRunning other =
            if other = task then (m.isRunning task).map fun _ ↦ false else m.isRunning other := by
        intro m' htasks
        simp only [isRunning, htasks, modifyTask_tasks]
        split_ifs with h
        · simp [ht]
        · rfl
      cases hrun : t.running with
      | false =>
          simp only [sleep, ht, hrun, Bool.not_false, if_true]
          split_ifs with h
          · subst h
            simp [isRunning, ht, hrun]
          · rfl
      | true =>
          by_cases hcurrent : m.currentTask = some task
          · simp only [sleep, ht, hrun, Bool.not_true, Bool.false_eq_true, if_false,
              modifyTask_currentTask, hcurrent, if_true]
            rw [isRunning_modifyTask_same _ task
              (fun t ↦ { t with context := some ctx }) fun _ ↦ rfl]
            exact hfalse _ (rotateCurrentRunQueue_frame _ true).1
          · simp only [sleep, ht, hrun, Bool.not_true, Bool.false_eq_true, if_false,
              modifyTask_currentTask, hcurrent]
            exact hfalse _ rfl

theorem wakeup_none_isRunning (m : TaskManager Ctx Msg) (task other : ℕ) :
    (m.wakeup task none).isRunning other =
      if other = task then (m.isRunning task).map fun _ ↦ true else m.isRunning other := by
  cases ht : m.tasks task with
  | none =>
      simp only [wakeup, ht, isRunning]
      split_ifs with h
      · subst h
        simp [ht]
      · rfl
  | some t =>
      cases hrun : t.running with
      | true =>
          simp only [wakeup, ht, hrun, if_true, changeLevelRunning]
          split_ifs with h
          · subst h
            simp [isRunning, ht, hrun]
          · rfl
      | false =>
          simp only [wakeup, ht, hrun, Bool.false_eq_true, if_false, Option.getD_none]
          split_ifs with hgt h <;>
            simp_all [isRunning, setQueue, modifyTask]

/-- `Finish` by the task `task`: its object goes, its exit code is recorded, and
the waiter it had, if any, is unregistered and made running. -/
theorem finish_frame (m : TaskManager Ctx Msg) (exitCode : ℤ) {task : ℕ}
    (hcurrent : m.currentTask = some task) :
    (m.finish exitCode).latestId = m.latestId ∧
      (m.finish exitCode).finishTasks = Function.update m.finishTasks task (some exitCode) ∧
      (m.finish exitCode).finishWaiter = Function.update m.finishWaiter task none ∧
      ∀ other, (m.finish exitCode).isRunning other =
        if other = task then none
        else if m.finishWaiter task = some other then (m.isRunning other).map fun _ ↦ true
        else m.isRunning other := by
  obtain ⟨htasks, hlatest, hfinish, hwaiter, hfst⟩ := m.rotateCurrentRunQueue_frame true
  rw [hcurrent] at hfst
  cases hrot : m.rotateCurrentRunQueue true with
  | mk front m₁ =>
      rw [hrot] at htasks hlatest hfinish hwaiter hfst
      dsimp only at htasks hlatest hfinish hwaiter hfst
      subst hfst
      simp only [finish, hrot]
      cases hw : m.finishWaiter task with
      | none =>
          rw [show m₁.finishWaiter task = none by rw [hwaiter, hw]]
          refine ⟨hlatest, by simp [hfinish], ?_, ?_⟩
          · have hself : Function.update m.finishWaiter task none = m.finishWaiter := by
              rw [← hw, Function.update_eq_self]
            rw [hself]
            exact hwaiter
          · intro other
            simp only [isRunning, htasks]
            by_cases h : other = task <;> simp [h]
      | some waiter =>
          rw [show m₁.finishWaiter task = some waiter by rw [hwaiter, hw]]
          dsimp only
          refine ⟨?_, ?_, ?_, ?_⟩
          · rw [(wakeup_none_frame _ waiter).1]
            exact hlatest
          · rw [(wakeup_none_frame _ waiter).2.1]
            simp [hfinish]
          · rw [(wakeup_none_frame _ waiter).2.2]
            simp [hwaiter]
          · intro other
            rw [wakeup_none_isRunning]
            simp only [isRunning, htasks, Option.some.injEq]
            by_cases h : other = task
            · subst h
              by_cases h' : other = waiter
              · subst h'
                simp
              · simp [h']
            · by_cases h' : other = waiter
              · subst h'
                simp [h]
              · simp [h, h', Ne.symm h']

end TaskManager
end MinOS
