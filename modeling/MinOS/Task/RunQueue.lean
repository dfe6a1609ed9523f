import MinOS.Library.Placement
import MinOS.Library.Transition
import MinOS.Task.Manager

/-!
# The run queues

The queues of `running_` are a placement of the running tasks by their level,
and the scheduler's flag is raised whenever a queue above the current level is
not empty.  Both are invariants of every run that does not move a queued task
to another level: `ChangeLevelRunning` re-queues such a task without recording
its new level.
-/

namespace MinOS
namespace TaskManager

variable {Ctx Msg : Type}

/-- The level whose queue should hold the task: its own while it is running. -/
def place (m : TaskManager Ctx Msg) (task : ℕ) : Option Level :=
  (m.tasks task).bind fun t ↦ if t.running then some t.level else none

/-- The queues hold exactly the running tasks, each on its own level, and the
idle task never leaves level 0. -/
structure QueueInvariant (m : TaskManager Ctx Msg) : Prop where
  placement : Placement m.running m.place
  fresh : ∀ id, m.latestId < id → m.tasks id = none
  idle : m.place idleId = some 0
  idle_le : idleId ≤ m.latestId

/-- The scheduler's side of the invariant: there is a current task, and work
above the current level is announced by the flag. -/
structure ScheduleInvariant (m : TaskManager Ctx Msg) : Prop where
  current : m.running m.currentLevel ≠ []
  announced : ∀ level, m.currentLevel < level → m.running level ≠ [] → m.levelChanged = true

/-- The current level is the highest one with a non-empty queue. -/
def AtTop (m : TaskManager Ctx Msg) : Prop :=
  m.running m.currentLevel ≠ [] ∧ ∀ level, m.currentLevel < level → m.running level = []

theorem AtTop.scheduleInvariant {m : TaskManager Ctx Msg} (h : m.AtTop) :
    ScheduleInvariant m where
  current := h.1
  announced level hlt hne := absurd (h.2 level hlt) hne

theorem place_modifyTask (m : TaskManager Ctx Msg) (task : ℕ)
    (f : Task Ctx Msg → Task Ctx Msg) :
    (m.modifyTask task f).place = Function.update m.place task
      ((m.tasks task).bind fun t ↦ if (f t).running then some (f t).level else none) := by
  funext other
  by_cases h : other = task
  · subst h
    cases ht : m.tasks other <;> simp [place, modifyTask, ht]
  · simp [place, modifyTask, h]

/-- An update that keeps level and running flag does not move the task. -/
theorem place_modifyTask_same (m : TaskManager Ctx Msg) (task : ℕ)
    (f : Task Ctx Msg → Task Ctx Msg)
    (hf : ∀ t, (f t).running = t.running ∧ (f t).level = t.level) :
    (m.modifyTask task f).place = m.place := by
  rw [place_modifyTask]
  simp only [hf]
  exact Function.update_eq_self task m.place

theorem QueueInvariant.modifyTask_same {m : TaskManager Ctx Msg} (hm : QueueInvariant m)
    (task : ℕ) (f : Task Ctx Msg → Task Ctx Msg)
    (hf : ∀ t, (f t).running = t.running ∧ (f t).level = t.level) :
    QueueInvariant (m.modifyTask task f) where
  placement := by
    rw [place_modifyTask_same m task f hf]
    exact hm.placement
  fresh id hid := by
    rw [modifyTask_tasks, hm.fresh id hid]
    split_ifs with h
    · subst h
      simp [hm.fresh id hid]
    · rfl
  idle := by
    rw [place_modifyTask_same m task f hf]
    exact hm.idle
  idle_le := hm.idle_le

theorem QueueInvariant.exists_nonempty {m : TaskManager Ctx Msg} (hm : QueueInvariant m) :
    idleId ∈ m.running 0 :=
  (hm.placement.mem_iff 0 idleId).mpr hm.idle

/-! ## Rotating the current queue -/

theorem highestLevel_spec (running : Level → List ℕ) (currentLevel : Level)
    (h : ∃ level, running level ≠ []) :
    running (highestLevel running currentLevel) ≠ [] ∧
      ∀ level, highestLevel running currentLevel < level → running level = [] := by
  obtain ⟨level, hlevel⟩ := h
  unfold highestLevel
  cases hfind : ([3, 2, 1, 0] : List Level).find? fun level ↦ !(running level).isEmpty with
  | none =>
      rw [List.find?_eq_none] at hfind
      have hmem : level ∈ ([3, 2, 1, 0] : List Level) := by
        fin_cases level <;> decide
      exact absurd (hfind level hmem) (by simpa using hlevel)
  | some top =>
      obtain ⟨htop, before, after, hsplit, hbefore⟩ := List.find?_eq_some_iff_append.mp hfind
      refine ⟨by simpa using htop, ?_⟩
      intro other hother
      simp only [Option.getD_some] at hother
      have hmem : other ∈ before := by
        have hall : other ∈ ([3, 2, 1, 0] : List Level) := by
          fin_cases other <;> decide
        have hsorted : (before ++ top :: after).Pairwise (· > ·) := hsplit ▸ by decide
        rw [hsplit, List.mem_append, List.mem_cons] at hall
        rcases hall with hall | rfl | hall
        · exact hall
        · exact absurd hother (lt_irrefl _)
        · have htail := (List.pairwise_append.mp hsorted).2.1
          exact absurd ((List.pairwise_cons.mp htail).1 other hall) (not_lt_of_gt hother)
      simpa using hbefore other hmem

/-- The effect of a rotation: a new current queue and level, and the flag
lowered. -/
def reschedule (m : TaskManager Ctx Msg) (queue : List ℕ) (level : Level) :
    TaskManager Ctx Msg :=
  { m with running := Function.update m.running m.currentLevel queue
           currentLevel := level, levelChanged := false }

/-- `RotateCurrentRunQueue` ends on the highest non-empty level. -/
theorem rotateCurrentRunQueue_spec {m : TaskManager Ctx Msg} (hm : ScheduleInvariant m)
    (currentSleep : Bool) {current : ℕ} {rest : List ℕ}
    (hqueue : m.running m.currentLevel = current :: rest)
    (hsome : ∃ level, Function.update m.running m.currentLevel
      (if currentSleep then rest else rest ++ [current]) level ≠ []) :
    ∃ level, m.rotateCurrentRunQueue currentSleep =
        (some current, m.reschedule (if currentSleep then rest else rest ++ [current]) level) ∧
      (m.reschedule (if currentSleep then rest else rest ++ [current]) level).AtTop := by
  unfold rotateCurrentRunQueue
  rw [hqueue]
  simp only [setQueue, reschedule]
  generalize (if currentSleep then rest else rest ++ [current]) = levelQueue at hsome ⊢
  by_cases hscan : (levelQueue.isEmpty || m.levelChanged) = true
  · rw [if_pos hscan]
    exact ⟨_, rfl, highestLevel_spec _ _ hsome⟩
  · rw [if_neg hscan]
    simp only [Bool.or_eq_true, not_or, Bool.not_eq_true] at hscan
    refine ⟨m.currentLevel, by rw [hscan.2], ?_, ?_⟩
    · simpa using hscan.1
    · intro level hlt
      simp only [Function.update_of_ne (ne_of_gt hlt)]
      by_contra hne
      have hflag := hm.announced level hlt hne
      simp [hscan.2] at hflag

/-! ## One operation -/

/-- Both sides of the run-queue invariant. -/
structure Invariant (m : TaskManager Ctx Msg) : Prop where
  queue : QueueInvariant m
  schedule : ScheduleInvariant m

theorem Invariant.modifyTask_same {m : TaskManager Ctx Msg} (hm : Invariant m)
    (task : ℕ) (f : Task Ctx Msg → Task Ctx Msg)
    (hf : ∀ t, (f t).running = t.running ∧ (f t).level = t.level) :
    Invariant (m.modifyTask task f) :=
  ⟨hm.queue.modifyTask_same task f hf, hm.schedule.current, hm.schedule.announced⟩

theorem Invariant.exists_current {m : TaskManager Ctx Msg} (hm : Invariant m) :
    ∃ current rest, m.running m.currentLevel = current :: rest :=
  List.exists_cons_of_ne_nil hm.schedule.current

theorem currentTask_eq {m : TaskManager Ctx Msg} {current : ℕ} {rest : List ℕ}
    (hqueue : m.running m.currentLevel = current :: rest) : m.currentTask = some current := by
  simp [currentTask, hqueue]

/-- After the current task, which is not the idle task, left its queue, the
queues are a placement of the others and one of them is not empty. -/
theorem Invariant.removeCurrent {m : TaskManager Ctx Msg} (hm : Invariant m) {current : ℕ}
    {rest : List ℕ} (hqueue : m.running m.currentLevel = current :: rest)
    (hidle : current ≠ idleId) :
    Placement (Function.update m.running m.currentLevel rest)
        (Function.update m.place current none) ∧
      Function.update m.place current none idleId = some 0 ∧
      ∃ level, Function.update m.running m.currentLevel rest level ≠ [] := by
  have hplace := hm.queue.placement.removeHead hqueue
  have hkeep : Function.update m.place current none idleId = some 0 := by
    rw [Function.update_of_ne hidle.symm]
    exact hm.queue.idle
  exact ⟨hplace, hkeep, 0, List.ne_nil_of_mem ((hplace.mem_iff 0 idleId).mpr hkeep)⟩

theorem Invariant.newTask {m : TaskManager Ctx Msg} (hm : Invariant m) :
    Invariant m.newTask := by
  have hplace : m.newTask.place = m.place := by
    funext id
    by_cases hid : id = m.latestId + 1
    · subst hid
      simp [place, TaskManager.newTask, hm.queue.fresh _ (Nat.lt_succ_self _)]
    · simp [place, TaskManager.newTask, hid]
  refine ⟨⟨?_, ?_, ?_, ?_⟩, hm.schedule.current, hm.schedule.announced⟩
  · rw [hplace]
    exact hm.queue.placement
  · intro id hid
    have hne : id ≠ m.latestId + 1 := ne_of_gt hid
    have hlt : m.latestId < id := lt_trans (Nat.lt_succ_self _) hid
    simpa [TaskManager.newTask, hne] using hm.queue.fresh id hlt
  · rw [hplace]
    exact hm.queue.idle
  · exact le_trans hm.queue.idle_le (Nat.le_succ _)

/-- `SwitchTask` puts the preempted task at the back of its queue and ends on
the highest non-empty level. -/
theorem switchTask_spec {m : TaskManager Ctx Msg} (hm : ScheduleInvariant m) (ctx : Ctx)
    {current : ℕ} {rest : List ℕ} (hqueue : m.running m.currentLevel = current :: rest) :
    ∃ level, m.switchTask ctx =
        (m.modifyTask current fun t ↦ { t with context := some ctx }).reschedule
          (rest ++ [current]) level ∧
      (m.switchTask ctx).AtTop := by
  have hm' : ScheduleInvariant (m.modifyTask current fun t ↦ { t with context := some ctx }) :=
    ⟨hm.current, hm.announced⟩
  obtain ⟨level, heq, htop⟩ := rotateCurrentRunQueue_spec hm' false hqueue
    ⟨m.currentLevel, by simp⟩
  have hswitch : m.switchTask ctx =
      (m.modifyTask current fun t ↦ { t with context := some ctx }).reschedule
        (rest ++ [current]) level := by
    unfold switchTask
    rw [currentTask_eq hqueue]
    simp only [heq]
    rfl
  exact ⟨level, hswitch, hswitch ▸ htop⟩

theorem Invariant.switchTask {m : TaskManager Ctx Msg} (hm : Invariant m) (ctx : Ctx) :
    Invariant (m.switchTask ctx) := by
  obtain ⟨current, rest, hqueue⟩ := hm.exists_current
  obtain ⟨level, heq, htop⟩ := switchTask_spec hm.schedule ctx hqueue
  have hq := hm.queue.modifyTask_same current (fun t ↦ { t with context := some ctx })
    fun _ ↦ ⟨rfl, rfl⟩
  refine ⟨?_, htop.scheduleInvariant⟩
  rw [heq]
  refine ⟨hq.placement.perm ?_, hq.fresh, hq.idle, hq.idle_le⟩
  rw [modifyTask_running, modifyTask_currentLevel, hqueue]
  exact List.perm_append_singleton current rest

/-- A task that stands in a queue has an object, which is running on that level. -/
theorem exists_task_of_place {m : TaskManager Ctx Msg} {task : ℕ} {level : Level}
    (h : m.place task = some level) :
    ∃ t, m.tasks task = some t ∧ t.running = true ∧ t.level = level := by
  cases ht : m.tasks task with
  | none => simp [place, ht] at h
  | some t =>
      cases hrun : t.running with
      | false => simp [place, ht, hrun] at h
      | true => exact ⟨t, rfl, hrun, by simpa [place, ht, hrun] using h⟩

theorem Invariant.exists_currentTask {m : TaskManager Ctx Msg} (hm : Invariant m) {task : ℕ}
    (hcurrent : m.currentTask = some task) :
    ∃ rest t, m.running m.currentLevel = task :: rest ∧ m.tasks task = some t ∧
      t.running = true ∧ t.level = m.currentLevel := by
  obtain ⟨head, rest, hqueue⟩ := hm.exists_current
  obtain rfl : head = task := Option.some.inj ((currentTask_eq hqueue).symm.trans hcurrent)
  obtain ⟨t, ht⟩ := exists_task_of_place
    ((hm.queue.placement.mem_iff m.currentLevel head).mp (by simp [hqueue]))
  exact ⟨rest, t, hqueue, ht⟩

/-- Changing one existing task other than the idle one keeps the bookkeeping of
identifiers; the queues have to follow the task's new place. -/
theorem QueueInvariant.update {m m' : TaskManager Ctx Msg} (hm : QueueInvariant m)
    {task : ℕ} {object : Option (Task Ctx Msg)} (htask : m.tasks task ≠ none)
    (hidle : task ≠ idleId) (htasks : m'.tasks = Function.update m.tasks task object)
    (hlatest : m'.latestId = m.latestId)
    (hplace : Placement m'.running (Function.update m.place task
      (object.bind fun t ↦ if t.running then some t.level else none))) :
    QueueInvariant m' := by
  have heq : m'.place = Function.update m.place task
      (object.bind fun t ↦ if t.running then some t.level else none) := by
    funext other
    by_cases h : other = task
    · subst h
      simp [place, htasks]
    · simp [place, htasks, h]
  refine ⟨heq ▸ hplace, ?_, ?_, hlatest ▸ hm.idle_le⟩
  · intro id hid
    rw [hlatest] at hid
    have hne : id ≠ task := by
      rintro rfl
      exact htask (hm.fresh id hid)
    simpa [htasks, hne] using hm.fresh id hid
  · rw [heq, Function.update_of_ne hidle.symm]
    exact hm.idle

theorem sleep_current {m : TaskManager Ctx Msg} (hm : Invariant m) (ctx : Ctx) {current : ℕ}
    (hcurrent : m.currentTask = some current) (hidle : current ≠ idleId) :
    Invariant (m.sleep current ctx) ∧ (m.sleep current ctx).AtTop := by
  obtain ⟨rest, t, hqueue, ht, htrun, _⟩ := hm.exists_currentTask hcurrent
  obtain ⟨hplace, _, hsome⟩ := hm.removeCurrent hqueue hidle
  have hs : ScheduleInvariant (m.modifyTask current fun t ↦ { t with running := false }) :=
    ⟨hm.schedule.current, hm.schedule.announced⟩
  obtain ⟨level, heq, htop⟩ := rotateCurrentRunQueue_spec hs true hqueue hsome
  have hsleep : m.sleep current ctx =
      ((m.modifyTask current fun t ↦ { t with running := false }).reschedule rest
        level).modifyTask current fun t ↦ { t with context := some ctx } := by
    unfold TaskManager.sleep
    rw [ht]
    simp only [htrun, Bool.not_true, Bool.false_eq_true, if_false, modifyTask_currentTask,
      hcurrent, if_true, heq]
  have hq : QueueInvariant
      ((m.modifyTask current fun t ↦ { t with running := false }).reschedule rest level) :=
    hm.queue.update (by simp [ht]) hidle rfl rfl (by simpa [ht, reschedule] using hplace)
  rw [hsleep]
  exact ⟨⟨hq.modifyTask_same current _ fun _ ↦ ⟨rfl, rfl⟩, htop.1, htop.scheduleInvariant.announced⟩,
    htop⟩

theorem Invariant.sleep {m : TaskManager Ctx Msg} (hm : Invariant m) {task : ℕ} (ctx : Ctx)
    (hidle : task ≠ idleId) : Invariant (m.sleep task ctx) := by
  by_cases hcurrent : m.currentTask = some task
  · exact (sleep_current hm ctx hcurrent hidle).1
  cases ht : m.tasks task with
  | none => simpa [TaskManager.sleep, ht] using hm
  | some t =>
      cases hrun : t.running with
      | false => simpa [TaskManager.sleep, ht, hrun] using hm
      | true =>
          have hplace : m.place task = some t.level := by simp [place, ht, hrun]
          have hremove := hm.queue.placement.remove hplace
          simp only [TaskManager.sleep, ht, hrun, Bool.not_true, Bool.false_eq_true, if_false,
            modifyTask_currentTask, hcurrent]
          refine ⟨hm.queue.update (by simp [ht]) hidle rfl rfl
            (by simpa [ht, setQueue, erase] using hremove), ?_, ?_⟩
          · by_cases hlevel : m.currentLevel = t.level
            · obtain ⟨head, rest, hqueue⟩ := hm.exists_current
              have hne : head ≠ task := by
                rintro rfl
                exact hcurrent (currentTask_eq hqueue)
              simp only [setQueue, modifyTask_running, ← hlevel, modifyTask_currentLevel,
                Function.update_self, hqueue, erase]
              simp [hne]
            · simpa [setQueue, hlevel] using hm.schedule.current
          · intro level hlt hne
            apply hm.schedule.announced level hlt
            by_cases hlevel : level = t.level
            · subst hlevel
              intro hempty
              simp [setQueue, erase, hempty] at hne
            · simpa [setQueue, hlevel] using hne

theorem Invariant.wakeup_sleeping {m : TaskManager Ctx Msg} (hm : Invariant m) {task : ℕ}
    {t : Task Ctx Msg} (ht : m.tasks task = some t) (hrun : t.running = false)
    (level : Option Level) : Invariant (m.wakeup task level) := by
  have hidle : task ≠ idleId := by
    rintro rfl
    obtain ⟨t', ht', hrun', _⟩ := exists_task_of_place hm.queue.idle
    simp_all
  have hplace : m.place task = none := by simp [place, ht, hrun]
  have hpush := hm.queue.placement.pushBack hplace (level.getD t.level)
  simp only [TaskManager.wakeup, ht, hrun, Bool.false_eq_true, if_false]
  generalize level.getD t.level = target at hpush
  set m₂ := (m.modifyTask task fun t ↦ { t with level := target, running := true }).setQueue
    target (m.running target ++ [task]) with hm₂
  have hq : QueueInvariant m₂ :=
    hm.queue.update (by simp [ht]) hidle rfl rfl (by simpa [ht, hm₂, setQueue] using hpush)
  have hcurrent : m₂.running m.currentLevel ≠ [] := by
    by_cases hlevel : m.currentLevel = target
    · simp [hm₂, setQueue, hlevel]
    · simpa [hm₂, setQueue, hlevel] using hm.schedule.current
  have hqueues : ∀ level, level ≠ target → m₂.running level = m.running level := by
    intro level hne
    simp [hm₂, setQueue, hne]
  split_ifs with hgt
  · exact ⟨⟨hq.placement, hq.fresh, hq.idle, hq.idle_le⟩, hcurrent, fun _ _ _ ↦ rfl⟩
  · refine ⟨hq, hcurrent, ?_⟩
    intro level hlt hne
    have hother : level ≠ target := by
      rintro rfl
      exact hgt hlt
    exact hm.schedule.announced level hlt (hqueues level hother ▸ hne)

/-- Moving the current task to another level takes the current level along. -/
theorem Invariant.changeLevel_current {m : TaskManager Ctx Msg} (hm : Invariant m) {task : ℕ}
    (hcurrent : m.currentTask = some task) (hidle : task ≠ idleId) (level : Option Level) :
    Invariant (m.changeLevelRunning task level) := by
  obtain ⟨rest, t, hqueue, ht, htrun, _⟩ := hm.exists_currentTask hcurrent
  cases level with
  | none => simpa [changeLevelRunning, ht] using hm
  | some level =>
      by_cases hsame : level = t.level
      · simpa [changeLevelRunning, ht, hsame] using hm
      have hmove := (hm.queue.placement.removeHead hqueue).pushFront
        (Function.update_self task none m.place) level
      simp only [Function.update_idem] at hmove
      simp only [changeLevelRunning, ht, hsame, if_false, hcurrent, ne_eq, not_true_eq_false]
      set m₃ := (((m.setQueue m.currentLevel (m.running m.currentLevel).tail).setQueue level
        (task :: (m.setQueue m.currentLevel (m.running m.currentLevel).tail).running level)
        ).modifyTask task fun t ↦ { t with level := level }) with hm₃
      have hq : QueueInvariant m₃ :=
        hm.queue.update (by simp [ht]) hidle rfl rfl
          (by simpa [ht, htrun, hm₃, setQueue, hqueue] using hmove)
      have hfront : m₃.running level ≠ [] := by simp [hm₃, setQueue]
      split_ifs with hge
      · refine ⟨⟨hq.placement, hq.fresh, hq.idle, hq.idle_le⟩, hfront, ?_⟩
        intro other hlt hne
        have hlt' : level < other := hlt
        have hcur : m.currentLevel < other := lt_of_le_of_lt hge hlt'
        apply hm.schedule.announced other hcur
        simpa [hm₃, setQueue, ne_of_gt hlt', ne_of_gt hcur] using hne
      · exact ⟨⟨hq.placement, hq.fresh, hq.idle, hq.idle_le⟩, hfront, fun _ _ _ ↦ rfl⟩

/-- The situation in which `ChangeLevelRunning` loses track of a task: a task
that waits in a queue is given another level than its own. -/
def MovesQueued (m : TaskManager Ctx Msg) (task : ℕ) (level : Option Level) : Prop :=
  ∃ t target, m.tasks task = some t ∧ t.running = true ∧ level = some target ∧
    target ≠ t.level ∧ m.currentTask ≠ some task

theorem Invariant.wakeup {m : TaskManager Ctx Msg} (hm : Invariant m) {task : ℕ}
    {level : Option Level} (hidle : task ≠ idleId) (hmove : ¬ m.MovesQueued task level) :
    Invariant (m.wakeup task level) := by
  cases ht : m.tasks task with
  | none => simpa [TaskManager.wakeup, ht] using hm
  | some t =>
      cases hrun : t.running with
      | false => exact hm.wakeup_sleeping ht hrun level
      | true =>
          simp only [TaskManager.wakeup, ht, hrun, if_true]
          by_cases hcurrent : m.currentTask = some task
          · exact hm.changeLevel_current hcurrent hidle level
          · cases level with
            | none => simpa [changeLevelRunning, ht] using hm
            | some target =>
                have hsame : target = t.level := by
                  by_contra hne
                  exact hmove ⟨t, target, ht, hrun, rfl, hne, hcurrent⟩
                simpa [changeLevelRunning, ht, hsame] using hm

/-- Waking a task without giving a level never re-queues a running one. -/
theorem Invariant.wakeup_none {m : TaskManager Ctx Msg} (hm : Invariant m) (task : ℕ) :
    Invariant (m.wakeup task none) := by
  cases ht : m.tasks task with
  | none => simpa [TaskManager.wakeup, ht] using hm
  | some t =>
      cases hrun : t.running with
      | false => exact hm.wakeup_sleeping ht hrun none
      | true => simpa [TaskManager.wakeup, ht, hrun, changeLevelRunning] using hm

theorem Invariant.sendMessage {m : TaskManager Ctx Msg} (hm : Invariant m) (id : ℕ) (msg : Msg) :
    Invariant (m.sendMessage id msg).2 := by
  cases ht : m.tasks id with
  | none => simpa [TaskManager.sendMessage, ht] using hm
  | some t =>
      have hpush := hm.modifyTask_same id (fun t ↦ { t with msgs := t.msgs ++ [msg] })
        fun _ ↦ ⟨rfl, rfl⟩
      simpa [TaskManager.sendMessage, ht] using hpush.wakeup_none id

theorem Invariant.finish {m : TaskManager Ctx Msg} (hm : Invariant m) (exitCode : ℤ)
    (hidle : m.currentTask ≠ some idleId) : Invariant (m.finish exitCode) := by
  obtain ⟨current, _, hcurrent⟩ := hm.exists_current
  obtain ⟨rest, t, hqueue, ht, _⟩ := hm.exists_currentTask (currentTask_eq hcurrent)
  have hne : current ≠ idleId := by
    rintro rfl
    exact hidle (currentTask_eq hqueue)
  obtain ⟨hplace, _, hsome⟩ := hm.removeCurrent hqueue hne
  obtain ⟨level, heq, htop⟩ := rotateCurrentRunQueue_spec hm.schedule true hqueue hsome
  have hq : ∀ finishTasks finishWaiter, Invariant
      { m.reschedule rest level with
        tasks := Function.update m.tasks current none
        finishTasks := finishTasks, finishWaiter := finishWaiter } := by
    intro finishTasks finishWaiter
    exact ⟨hm.queue.update (by simp [ht]) hne rfl rfl (by simpa [reschedule] using hplace),
      htop.1, htop.scheduleInvariant.announced⟩
  simp only [TaskManager.finish, heq, if_true]
  split
  · exact hq _ _
  · exact (hq _ _).wakeup_none _

/-! ## Runs -/

inductive TaskOp (Ctx Msg : Type) where
  | newTask
  | wakeup (task : ℕ) (level : Option Level)
  | sleep (task : ℕ) (ctx : Ctx)
  | sendMessage (id : ℕ) (msg : Msg)
  | switchTask (ctx : Ctx)
  | finish (exitCode : ℤ)

def apply (m : TaskManager Ctx Msg) : TaskOp Ctx Msg → TaskManager Ctx Msg
  | .newTask => m.newTask
  | .wakeup task level => m.wakeup task level
  | .sleep task ctx => m.sleep task ctx
  | .sendMessage id msg => (m.sendMessage id msg).2
  | .switchTask ctx => m.switchTask ctx
  | .finish exitCode => m.finish exitCode

/-- The task an operation acts on, if it names one; `Finish` acts on its caller. -/
def target (m : TaskManager Ctx Msg) : TaskOp Ctx Msg → Option ℕ
  | .newTask => none
  | .wakeup task _ => some task
  | .sleep task _ => some task
  | .sendMessage id _ => some id
  | .switchTask _ => none
  | .finish _ => m.currentTask

/-- Any operation that does not act on the idle task. -/
def Step (m : TaskManager Ctx Msg) (op : TaskOp Ctx Msg) (m' : TaskManager Ctx Msg) : Prop :=
  m.target op ≠ some idleId ∧ m' = m.apply op

/-- The operation leaves queued tasks on their level. -/
def KeepsQueued (m : TaskManager Ctx Msg) : TaskOp Ctx Msg → Prop
  | .wakeup task level => ¬ m.MovesQueued task level
  | _ => True

theorem Invariant.init (idleCtx : Ctx) : Invariant (init idleCtx : TaskManager Ctx Msg) := by
  have hplace : ∀ id, (TaskManager.init idleCtx : TaskManager Ctx Msg).place id =
      if id = 1 then some 3 else if id = idleId then some 0 else none := by
    intro id
    simp only [place, TaskManager.init]
    split_ifs <;> rfl
  refine ⟨⟨⟨?_, ?_⟩, ?_, ?_, le_rfl⟩, ?_, ?_⟩
  · intro level
    simp only [TaskManager.init]
    split_ifs <;> simp
  · intro level id
    rw [hplace]
    simp only [TaskManager.init]
    by_cases h3 : level = 3
    · subst h3
      by_cases h1 : id = 1 <;> by_cases h2 : id = idleId <;> simp [h1, h2]
    · by_cases h0 : level = 0
      · subst h0
        by_cases h1 : id = 1 <;> by_cases h2 : id = idleId <;> simp_all [idleId]
      · have h3' : (3 : Level) ≠ level := Ne.symm h3
        have h0' : (0 : Level) ≠ level := Ne.symm h0
        by_cases h1 : id = 1 <;> by_cases h2 : id = idleId <;> simp_all [idleId]
  · intro id hid
    have hlt : 2 < id := hid
    have h1 : id ≠ 1 := by omega
    have h2 : id ≠ idleId := ne_of_gt hlt
    simp [TaskManager.init, h1, h2]
  · rw [hplace]
    rfl
  · simp [TaskManager.init]
  · intro level hlt
    exact absurd (Fin.le_last level) (not_le_of_gt hlt)

theorem Invariant.step {m m' : TaskManager Ctx Msg} {op : TaskOp Ctx Msg} (hm : Invariant m)
    (hkeep : m.KeepsQueued op) (hstep : Step m op m') : Invariant m' := by
  obtain ⟨hidle, rfl⟩ := hstep
  cases op with
  | newTask => exact hm.newTask
  | wakeup task level => exact hm.wakeup (by simpa [target] using hidle) hkeep
  | sleep task ctx => exact hm.sleep ctx (by simpa [target] using hidle)
  | sendMessage id msg => exact hm.sendMessage id msg
  | switchTask ctx => exact hm.switchTask ctx
  | finish exitCode => exact hm.finish exitCode hidle

theorem Invariant.of_run {idleCtx : Ctx} {ops : List (TaskOp Ctx Msg)} {m : TaskManager Ctx Msg}
    (hrun : Transition.Run (Transition.Guarded KeepsQueued Step) (TaskManager.init idleCtx) ops m) :
    Invariant m :=
  hrun.invariant (fun _ _ _ hm hstep ↦ hm.step hstep.1 hstep.2) (.init idleCtx)

/-- A running task occurs exactly once over all queues, and there in the queue
of its own level; a task that is not running occurs in no queue. -/
def QueuesExact (m : TaskManager Ctx Msg) : Prop :=
  ∀ id t, m.tasks id = some t →
    (t.running = true → ∑ level, (m.running level).count id = 1 ∧ id ∈ m.running t.level) ∧
      (t.running = false → ∀ level, id ∉ m.running level)

/-- In every run that leaves queued tasks on their level, the run queues are
exact in every state reached. -/
theorem queuesExact_of_run {idleCtx : Ctx} {ops : List (TaskOp Ctx Msg)}
    {m : TaskManager Ctx Msg}
    (hrun : Transition.Run (Transition.Guarded KeepsQueued Step) (TaskManager.init idleCtx) ops m) :
    QueuesExact m := by
  have hplacement := (Invariant.of_run hrun).queue.placement
  intro id t ht
  constructor
  · intro hrunning
    have hplace : m.place id = some t.level := by simp [place, ht, hrunning]
    exact ⟨hplacement.sum_count hplace, (hplacement.mem_iff _ _).mpr hplace⟩
  · intro hsleeping level
    exact hplacement.notMem_of_none (by simp [place, ht, hsleeping]) level

theorem queuesExact_after_wakeup :
    QueuesExact (((TaskManager.init () : TaskManager Unit Unit).apply .newTask).apply
      (.wakeup 3 none)) :=
  @queuesExact_of_run Unit Unit () [.newTask, .wakeup 3 none] _
    (.snoc (.snoc (.nil _) ⟨trivial, by decide, rfl⟩)
      ⟨(by rintro ⟨_, _, _, _, h, _⟩; cases h), by decide, rfl⟩)

/-- A task woken on its default level 1 and then given level 2 while it waits
stands in queue 2 with level 1. -/
theorem not_queuesExact_after_level_change :
    ∃ m : TaskManager Unit Unit, Transition.Run Step (TaskManager.init ())
        [.newTask, .wakeup 3 none, .wakeup 3 (some 2)] m ∧ ¬ QueuesExact m := by
  refine ⟨_, .snoc (.snoc (.snoc (.nil _) ⟨by decide, rfl⟩) ⟨by decide, rfl⟩)
    ⟨by decide, rfl⟩, ?_⟩
  intro h
  have hmem := ((h 3 { level := 1, running := true } rfl).1 rfl).2
  exact absurd hmem (by decide)

/-! ## The scheduling law -/

/-- `CurrentTask()` is the front of the highest non-empty queue. -/
def RunsHighest (m : TaskManager Ctx Msg) : Prop :=
  ∃ level, m.running level ≠ [] ∧ (∀ other, level < other → m.running other = []) ∧
    m.currentTask = (m.running level).head?

theorem AtTop.runsHighest {m : TaskManager Ctx Msg} (h : m.AtTop) : m.RunsHighest :=
  ⟨m.currentLevel, h.1, h.2, rfl⟩

/-- An operation of a slice that neither touches the current queue nor fills a
queue above it. -/
def QuietStep (m : TaskManager Ctx Msg) (op : TaskOp Ctx Msg) (m' : TaskManager Ctx Msg) : Prop :=
  Step m op m' ∧ m'.currentLevel = m.currentLevel ∧
    m'.running m.currentLevel = m.running m.currentLevel ∧
      ∀ level, m.currentLevel < level → m'.running level = []

/-- Consecutive time slices, with the tasks that run in them: a slice lasts
from one `SwitchTask` to the next and its task may do anything quiet. -/
inductive Slices : TaskManager Ctx Msg → List ℕ → TaskManager Ctx Msg → Prop where
  | nil (m : TaskManager Ctx Msg) : Slices m [] m
  | cons {m m₁ m₂ : TaskManager Ctx Msg} {current : ℕ} {trace : List ℕ}
      {ops : List (TaskOp Ctx Msg)} (ctx : Ctx) (hcurrent : m.currentTask = some current)
      (quiet : Transition.Run QuietStep m ops m₁)
      (rest : Slices (m₁.switchTask ctx) trace m₂) : Slices m (current :: trace) m₂

theorem quiet_run {m m' : TaskManager Ctx Msg} {ops : List (TaskOp Ctx Msg)} (hm : m.AtTop)
    (hrun : Transition.Run QuietStep m ops m') :
    m'.currentLevel = m.currentLevel ∧ m'.running m.currentLevel = m.running m.currentLevel ∧
      m'.AtTop := by
  induction hrun with
  | nil => exact ⟨rfl, rfl, hm⟩
  | snoc run last ih =>
      obtain ⟨hlevel, hqueue, htop⟩ := ih
      obtain ⟨_, hlevel', hqueue', habove⟩ := last
      refine ⟨hlevel'.trans hlevel, ?_, ?_, ?_⟩
      · rw [← hlevel, hqueue', hlevel, hqueue]
      · rw [hlevel', hqueue']
        exact htop.1
      · intro level hlt
        exact habove level (hlevel' ▸ hlt)

/-- Switching among the tasks of the highest level stays on it and rotates its
queue by one. -/
theorem switchTask_atTop {m : TaskManager Ctx Msg} (hm : m.AtTop) (ctx : Ctx) {current : ℕ}
    {rest : List ℕ} (hqueue : m.running m.currentLevel = current :: rest) :
    (m.switchTask ctx).currentLevel = m.currentLevel ∧
      (m.switchTask ctx).running m.currentLevel = rest ++ [current] ∧
        (m.switchTask ctx).AtTop := by
  obtain ⟨level, heq, htop⟩ := switchTask_spec hm.scheduleInvariant ctx hqueue
  have hrun : (m.switchTask ctx).running =
      Function.update m.running m.currentLevel (rest ++ [current]) := by rw [heq]; rfl
  refine ⟨?_, by rw [hrun, Function.update_self], htop⟩
  rcases lt_trichotomy (m.switchTask ctx).currentLevel m.currentLevel with hlt | heq' | hgt
  · have hempty := htop.2 m.currentLevel hlt
    rw [hrun, Function.update_self] at hempty
    simp at hempty
  · exact heq'
  · have hne := htop.1
    rw [hrun, Function.update_of_ne (ne_of_gt hgt), hm.2 _ hgt] at hne
    exact absurd rfl hne

/-- Over at most as many slices as the highest queue has tasks, the tasks run
in the order of that queue. -/
theorem trace_eq_take {m m' : TaskManager Ctx Msg} {trace : List ℕ} (hm : m.AtTop)
    (hslices : Slices m trace m') (hlen : trace.length ≤ (m.running m.currentLevel).length) :
    trace = (m.running m.currentLevel).take trace.length := by
  induction hslices with
  | nil m => simp
  | @cons m m₁ m₂ current trace ops ctx hcurrent quiet rest ih =>
      obtain ⟨head, tail, hqueue⟩ := List.exists_cons_of_ne_nil hm.1
      obtain rfl : head = current := by
        rw [currentTask_eq hqueue] at hcurrent
        exact Option.some.inj hcurrent
      obtain ⟨hlevel, hsame, htop⟩ := quiet_run hm quiet
      have hqueue₁ : m₁.running m₁.currentLevel = head :: tail := by rw [hlevel, hsame, hqueue]
      obtain ⟨hlevel', hqueue', htop'⟩ := switchTask_atTop htop ctx hqueue₁
      rw [hqueue, List.length_cons, List.length_cons] at hlen
      have hih := ih htop' (by rw [hlevel', hqueue']; simp; omega)
      rw [hlevel', hqueue', List.take_append_of_le_length (by omega)] at hih
      rw [hqueue, List.length_cons, List.take_succ_cons, ← hih]

end TaskManager
end MinOS
