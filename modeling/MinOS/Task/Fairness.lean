import MinOS.Library.RoundRobin
import MinOS.Task.RunQueue

/-!
# Tasks take turns

The task manager refines round robin with priorities, so a task that is ready runs as soon as
the tasks in front of it have had their turns.
-/

namespace MinOS
namespace TaskManager

open Transition RoundRobin

variable {Ctx Msg : Type}

/-- What the scheduler sees of the task manager. -/
def queues (m : TaskManager Ctx Msg) : RoundRobin.State Level ℕ := ⟨m.running, m.currentLevel⟩

/-- What `Wakeup` does to the queues, where it does not lose track of a task. -/
def wakeEvents (m : TaskManager Ctx Msg) (task : ℕ) (level : Option Level) :
    List (Event Level ℕ) :=
  match m.tasks task with
  | none => []
  | some t =>
      if t.running then
        match level with
        | none => []
        | some level => if level = t.level then [] else [.change m.currentLevel level]
      else [.join task (level.getD t.level)]

/-- What an operation does to the queues. -/
def events (m : TaskManager Ctx Msg) : TaskOp Ctx Msg → List (Event Level ℕ)
  | .newTask => []
  | .wakeup task level => m.wakeEvents task level
  | .sleep task _ =>
      match m.tasks task with
      | none => []
      | some t =>
          if !t.running then []
          else if m.currentTask = some task then [.turn m.currentLevel false]
          else [.leave task t.level]
  | .sendMessage id _ => m.wakeEvents id none
  | .switchTask _ => [.turn m.currentLevel true]
  | .finish _ =>
      match m.currentTask with
      | none => []
      | some task =>
          .turn m.currentLevel false ::
            match m.finishWaiter task with
            | none => []
            | some waiter => if waiter = task then [] else m.wakeEvents waiter none

theorem atTop_queues {m : TaskManager Ctx Msg} (h : m.AtTop) : m.queues.AtTop := h

theorem Invariant.fresh_of_sleeping {m : TaskManager Ctx Msg} (hm : Invariant m) {task : ℕ}
    {t : Task Ctx Msg} (ht : m.tasks task = some t) (hrun : t.running = false) (level : Level) :
    task ∉ m.queues.queues level :=
  hm.queue.placement.notMem_of_none (by simp [place, ht, hrun]) level

/-- Waking a task refines a join, or a change of level. -/
theorem Invariant.wakeup_refines {m : TaskManager Ctx Msg} (hm : Invariant m) {task : ℕ}
    {level : Option Level} (hmove : ¬ m.MovesQueued task level)
    {G : RoundRobin.State Level ℕ → Event Level ℕ → Prop}
    (hG : ∀ e ∈ (m.wakeEvents task level).head?, G m.queues e) :
    Run (Guarded G RoundRobin.Step) m.queues (m.wakeEvents task level)
      (m.wakeup task level).queues := by
  cases ht : m.tasks task with
  | none => simpa [wakeEvents, TaskManager.wakeup, ht] using Run.nil m.queues
  | some t =>
      cases hrun : t.running with
      | false =>
          have hevents : m.wakeEvents task level = [.join task (level.getD t.level)] := by
            simp [wakeEvents, ht, hrun]
          have hqueues : (m.wakeup task level).queues =
              ⟨Function.update m.running (level.getD t.level)
                (m.running (level.getD t.level) ++ [task]), m.currentLevel⟩ := by
            simp only [TaskManager.wakeup, ht, hrun, Bool.false_eq_true, if_false]
            split_ifs <;> rfl
          rw [hevents] at hG ⊢
          rw [hqueues]
          exact .single ⟨hG _ rfl,
            .join _ (hm.fresh_of_sleeping ht hrun)⟩
      | true =>
          cases level with
          | none => simpa [wakeEvents, TaskManager.wakeup, changeLevelRunning, ht, hrun] using Run.nil m.queues
          | some level =>
              by_cases hsame : level = t.level
              · simpa [wakeEvents, TaskManager.wakeup, changeLevelRunning, ht, hrun, hsame] using
                  Run.nil m.queues
              · have hcurrent : m.currentTask = some task := by
                  by_contra hne
                  exact hmove ⟨t, level, ht, hrun, rfl, hsame, hne⟩
                obtain ⟨rest, t', hqueue, ht', -, hlevel⟩ := hm.exists_currentTask hcurrent
                obtain rfl := Option.some.inj (ht.symm.trans ht')
                have hevents : m.wakeEvents task (some level) = [.change m.currentLevel level] := by
                  simp [wakeEvents, ht, hrun, hsame]
                have hne : level ≠ m.currentLevel := hlevel ▸ hsame
                have hqueues : (m.wakeup task (some level)).queues =
                    ⟨Function.update (Function.update m.running m.currentLevel rest) level
                      (task :: m.running level), level⟩ := by
                  simp only [TaskManager.wakeup, changeLevelRunning, ht, hrun, if_true, hsame, if_false,
                    hcurrent, ne_eq, not_true_eq_false]
                  split_ifs <;> simp [queues, setQueue, modifyTask, hqueue, hne]
                rw [hevents] at hG ⊢
                rw [hqueues]
                exact .single ⟨hG _ rfl, .change hqueue hne⟩

/-- A turn of the current task, after which it stands at the back of its queue or has left. -/
theorem turn_refines {m m' : TaskManager Ctx Msg} {current : ℕ} {rest : List ℕ} {level : Level}
    {stays : Bool} (hqueue : m.running m.currentLevel = current :: rest)
    (hrunning : m'.running = Function.update m.running m.currentLevel (requeue current rest stays))
    (hlevel : m'.currentLevel = level) (htop : m'.AtTop) :
    RoundRobin.Step m.queues (.turn m.currentLevel stays) m'.queues := by
  have hqueues : m'.queues =
      ⟨Function.update m.running m.currentLevel (requeue current rest stays), level⟩ := by
    rw [queues, hrunning, hlevel]
  have htop' := atTop_queues htop
  rw [hqueues] at htop' ⊢
  exact .turn (s := m.queues) stays hqueue htop'

theorem Invariant.switchTask_refines {m : TaskManager Ctx Msg} (hm : Invariant m) (ctx : Ctx) :
    RoundRobin.Step m.queues (.turn m.currentLevel true) (m.switchTask ctx).queues := by
  obtain ⟨current, rest, hqueue⟩ := hm.exists_current
  obtain ⟨level, heq, htop⟩ := switchTask_spec hm.schedule ctx hqueue
  exact turn_refines hqueue (by rw [heq]; rfl) (by rw [heq]) htop

theorem Invariant.sleep_refines {m : TaskManager Ctx Msg} (hm : Invariant m) {task : ℕ} (ctx : Ctx)
    (hidle : task ≠ idleId) {G : RoundRobin.State Level ℕ → Event Level ℕ → Prop}
    (hG : ∀ e ∈ (m.events (.sleep task ctx)).head?, G m.queues e) :
    Run (Guarded G RoundRobin.Step) m.queues (m.events (.sleep task ctx))
      (m.sleep task ctx).queues := by
  cases ht : m.tasks task with
  | none => simpa [events, TaskManager.sleep, ht] using Run.nil m.queues
  | some t =>
      cases hrun : t.running with
      | false => simpa [events, TaskManager.sleep, ht, hrun] using Run.nil m.queues
      | true =>
          by_cases hcurrent : m.currentTask = some task
          · obtain ⟨rest, -, hqueue, -⟩ := hm.exists_currentTask hcurrent
            obtain ⟨-, -, hsome⟩ := hm.removeCurrent hqueue hidle
            have hs : ScheduleInvariant (m.modifyTask task fun t ↦ { t with running := false }) :=
              ⟨hm.schedule.current, hm.schedule.announced⟩
            obtain ⟨level, heq, htop⟩ := rotateCurrentRunQueue_spec hs true hqueue hsome
            have hevents : m.events (.sleep task ctx) = [.turn m.currentLevel false] := by
              simp [events, ht, hrun, hcurrent]
            have hqueues : (m.sleep task ctx).queues =
                ((m.modifyTask task fun t ↦ { t with running := false }).reschedule rest
                  level).queues := by
              simp only [TaskManager.sleep, ht, hrun, Bool.not_true, Bool.false_eq_true, if_false,
                modifyTask_currentTask, hcurrent, if_true, heq]
              rfl
            rw [hevents] at hG ⊢
            rw [hqueues]
            exact .single ⟨hG _ rfl, turn_refines hqueue rfl rfl htop⟩
          · have hevents : m.events (.sleep task ctx) = [.leave task t.level] := by
              simp [events, ht, hrun, hcurrent]
            have hqueues : (m.sleep task ctx).queues =
                ⟨Function.update m.running t.level ((m.running t.level).filter (· ≠ task)),
                  m.currentLevel⟩ := by
              simp only [TaskManager.sleep, ht, hrun, Bool.not_true, Bool.false_eq_true, if_false,
                modifyTask_currentTask, hcurrent]
              rfl
            rw [hevents] at hG ⊢
            rw [hqueues]
            exact .single ⟨hG _ rfl, .leave _ hcurrent⟩

theorem Invariant.sendMessage_refines {m : TaskManager Ctx Msg} (hm : Invariant m) (id : ℕ)
    (msg : Msg) {G : RoundRobin.State Level ℕ → Event Level ℕ → Prop}
    (hG : ∀ e ∈ (m.events (.sendMessage id msg)).head?, G m.queues e) :
    Run (Guarded G RoundRobin.Step) m.queues (m.events (.sendMessage id msg))
      (m.sendMessage id msg).2.queues := by
  cases ht : m.tasks id with
  | none => simpa [events, wakeEvents, TaskManager.sendMessage, ht] using Run.nil m.queues
  | some t =>
      obtain ⟨m₁, hm₁⟩ : ∃ m₁ : TaskManager Ctx Msg,
          m₁ = m.modifyTask id fun t ↦ { t with msgs := t.msgs ++ [msg] } := ⟨_, rfl⟩
      have hinv : Invariant m₁ := hm₁ ▸ hm.modifyTask_same id _ fun _ ↦ ⟨rfl, rfl⟩
      have hevents : m₁.wakeEvents id none = m.events (.sendMessage id msg) := by
        simp [hm₁, events, wakeEvents, modifyTask_tasks, ht]
      have hqueues : m₁.queues = m.queues := by
        rw [hm₁]
        rfl
      have hsend : (m.sendMessage id msg).2 = m₁.wakeup id none := by
        rw [hm₁]
        simp only [TaskManager.sendMessage, ht]
      have hmove : ¬ m₁.MovesQueued id none := by
        rintro ⟨_, _, _, _, h, _⟩
        cases h
      have hrun := hinv.wakeup_refines (G := G) hmove (by rwa [hevents, hqueues])
      rwa [hevents, hqueues, ← hsend] at hrun

/-- Waking a task on its own level is a join or nothing. -/
theorem eq_join_of_mem_wakeEvents {m : TaskManager Ctx Msg} {task : ℕ} {e : Event Level ℕ}
    (he : e ∈ m.wakeEvents task none) : ∃ level, e = .join task level := by
  unfold wakeEvents at he
  split at he
  · exact absurd he List.not_mem_nil
  · split_ifs at he
    · exact absurd he List.not_mem_nil
    · exact ⟨_, List.mem_singleton.mp he⟩

/-- The end of a task is the end of its turn, and its waiter joins. -/
theorem Invariant.finish_refines {m : TaskManager Ctx Msg} (hm : Invariant m) (exitCode : ℤ)
    (hidle : m.currentTask ≠ some idleId) {G : RoundRobin.State Level ℕ → Event Level ℕ → Prop}
    (hturn : G m.queues (.turn m.currentLevel false)) (hjoin : ∀ s a i, G s (.join a i)) :
    Run (Guarded G RoundRobin.Step) m.queues (m.events (.finish exitCode))
      (m.finish exitCode).queues := by
  obtain ⟨current, _, hfront⟩ := hm.exists_current
  have hcurrent := currentTask_eq hfront
  obtain ⟨rest, t, hqueue, ht, -⟩ := hm.exists_currentTask hcurrent
  have hne : current ≠ idleId := fun heq ↦ hidle (heq ▸ hcurrent)
  obtain ⟨hplace, -, hsome⟩ := hm.removeCurrent hqueue hne
  obtain ⟨level, heq, htop⟩ := rotateCurrentRunQueue_spec hm.schedule true hqueue hsome
  obtain ⟨m₂, hm₂⟩ : ∃ m₂ : TaskManager Ctx Msg, m₂ = { m.reschedule rest level with
      tasks := Function.update m.tasks current none
      finishTasks := Function.update m.finishTasks current (some exitCode) } := ⟨_, rfl⟩
  have hfirst : RoundRobin.Step m.queues (.turn m.currentLevel false) m₂.queues := by
    subst hm₂
    exact turn_refines hqueue rfl rfl htop
  have hevents : m.events (.finish exitCode) = .turn m.currentLevel false ::
      match m.finishWaiter current with
      | none => []
      | some waiter => if waiter = current then [] else m.wakeEvents waiter none := by
    simp only [events, hcurrent]
  rw [hevents]
  refine Run.head ⟨hturn, hfirst⟩ ?_
  cases hw : m.finishWaiter current with
  | none =>
      have hfinish : (m.finish exitCode).queues = m₂.queues := by
        simp [TaskManager.finish, heq, hm₂, hw, reschedule]
      rw [hfinish]
      exact .nil _
  | some waiter =>
      obtain ⟨m₃, hm₃⟩ : ∃ m₃ : TaskManager Ctx Msg, m₃ =
          { m₂ with finishWaiter := Function.update m.finishWaiter current none } := ⟨_, rfl⟩
      have hfinish : (m.finish exitCode).queues = (m₃.wakeup waiter none).queues := by
        simp [TaskManager.finish, heq, hm₂, hm₃, hw, reschedule]
      have hinv : Invariant m₃ := by
        rw [hm₃, hm₂]
        exact ⟨hm.queue.update (by simp [ht]) hne rfl rfl (by simpa [reschedule] using hplace),
          htop.1, htop.scheduleInvariant.announced⟩
      have hwake : m₃.wakeEvents waiter none =
          if waiter = current then [] else m.wakeEvents waiter none := by
        by_cases hself : waiter = current <;> simp [wakeEvents, hm₃, hm₂, reschedule, hself]
      have hmove : ¬ m₃.MovesQueued waiter none := by
        rintro ⟨_, _, _, _, h, _⟩
        cases h
      have hrun := hinv.wakeup_refines (G := G) hmove fun e he ↦ by
        obtain ⟨i, rfl⟩ := eq_join_of_mem_wakeEvents (List.mem_of_mem_head? he)
        exact hjoin _ _ _
      rw [hwake] at hrun
      rw [hfinish]
      dsimp only
      convert hrun using 1
      rw [hm₃]
      rfl

/-- Every step that leaves queued tasks on their level is a run of the round robin. -/
theorem Invariant.refines {m m' : TaskManager Ctx Msg} (hm : Invariant m) {op : TaskOp Ctx Msg}
    (hkeep : m.KeepsQueued op) (hstep : Step m op m')
    {G : RoundRobin.State Level ℕ → Event Level ℕ → Prop}
    (hG : ∀ e ∈ (m.events op).head?, G m.queues e) (hjoin : ∀ s a i, G s (.join a i)) :
    Run (Guarded G RoundRobin.Step) m.queues (m.events op) m'.queues := by
  obtain ⟨hidle, rfl⟩ := hstep
  cases op with
  | newTask => exact .nil _
  | wakeup task level => exact hm.wakeup_refines hkeep hG
  | sleep task ctx => exact hm.sleep_refines ctx (by simpa [target] using hidle) hG
  | sendMessage id msg => exact hm.sendMessage_refines id msg hG
  | switchTask ctx => exact .single ⟨hG _ rfl, hm.switchTask_refines ctx⟩
  | finish exitCode =>
      obtain ⟨current, _, hqueue⟩ := hm.exists_current
      have hhead : (m.events (.finish exitCode)).head? = some (.turn m.currentLevel false) := by
        simp only [events, currentTask_eq hqueue, List.head?_cons]
      exact hm.finish_refines exitCode hidle (hG _ hhead) hjoin

/-! ## Waiting for a turn -/

/-- A step during which the task waits, with what it does to the queues: another task has its
turn, and nobody puts the task to sleep. -/
def Waiting (task : ℕ) (m : TaskManager Ctx Msg) (es : List (Event Level ℕ))
    (m' : TaskManager Ctx Msg) : Prop :=
  ∃ op, m.KeepsQueued op ∧ Step m op m' ∧ es = m.events op ∧ m.currentTask ≠ some task ∧
    ∀ ctx, op ≠ .sleep task ctx

/-- What an operation does first. -/
theorem waits_of_events {m : TaskManager Ctx Msg} {op : TaskOp Ctx Msg} {task : ℕ}
    (hcurrent : m.currentTask ≠ some task) (hsleep : ∀ ctx, op ≠ .sleep task ctx)
    {e : Event Level ℕ} (he : e ∈ (m.events op).head?) :
    Waits task m.queues e ∧ ∀ level, m.currentLevel ≤ level → e.Below level := by
  have hwake : ∀ {id level}, e ∈ (m.wakeEvents id level).head? →
      Waits task m.queues e ∧ ∀ level, m.currentLevel ≤ level → e.Below level := by
    intro id level he
    have hmem := List.mem_of_mem_head? he
    unfold wakeEvents at hmem
    split at hmem
    · exact absurd hmem List.not_mem_nil
    · split_ifs at hmem
      · split at hmem
        · exact absurd hmem List.not_mem_nil
        · split_ifs at hmem
          · exact absurd hmem List.not_mem_nil
          · obtain rfl := List.mem_singleton.mp hmem
            exact ⟨hcurrent, fun _ hle ↦ hle⟩
      · obtain rfl := List.mem_singleton.mp hmem
        exact ⟨trivial, fun _ _ ↦ trivial⟩
  cases op with
  | newTask => cases he
  | wakeup id level => exact hwake he
  | sleep id ctx =>
      have hmem := List.mem_of_mem_head? he
      simp only [events] at hmem
      split at hmem
      · exact absurd hmem List.not_mem_nil
      · split_ifs at hmem
        · exact absurd hmem List.not_mem_nil
        · obtain rfl := List.mem_singleton.mp hmem
          exact ⟨hcurrent, fun _ hle ↦ hle⟩
        · obtain rfl := List.mem_singleton.mp hmem
          exact ⟨fun heq ↦ hsleep ctx (by rw [heq]), fun _ _ ↦ trivial⟩
  | sendMessage id msg => exact hwake he
  | switchTask ctx =>
      obtain rfl : .turn m.currentLevel true = e := Option.some.inj he
      exact ⟨hcurrent, fun _ hle ↦ hle⟩
  | finish exitCode =>
      simp only [events] at he
      split at he
      · cases he
      · obtain rfl : .turn m.currentLevel false = e := Option.some.inj he
        exact ⟨hcurrent, fun _ hle ↦ hle⟩

/-- A run during which the task waits is a run of the round robin during which it waits. -/
theorem Invariant.waiting_refines {m m' : TaskManager Ctx Msg} (hm : Invariant m) {task : ℕ}
    {guard : TaskManager Ctx Msg → List (Event Level ℕ) → Prop}
    {G : RoundRobin.State Level ℕ → Event Level ℕ → Prop} (hjoin : ∀ s a i, G s (.join a i))
    (hguard : ∀ m es, guard m es → ∀ e, Waits task m.queues e →
      (∀ level, m.currentLevel ≤ level → e.Below level) → G m.queues e)
    {trace : List (List (Event Level ℕ))} (hrun : Run (Guarded guard (Waiting task)) m trace m') :
    Invariant m' ∧ Run (Guarded G RoundRobin.Step) m.queues trace.flatten m'.queues := by
  induction hrun with
  | nil => exact ⟨hm, .nil _⟩
  | snoc run last ih =>
      obtain ⟨hinv, hqueues⟩ := ih
      obtain ⟨hallowed, op, hkeep, hstep, rfl, hcurrent, hsleep⟩ := last
      refine ⟨hinv.step hkeep hstep, ?_⟩
      rw [List.flatten_append, List.flatten_singleton]
      refine hqueues.append (hinv.refines hkeep hstep (fun e he ↦ ?_) hjoin)
      obtain ⟨hwaits, hbelow⟩ := waits_of_events hcurrent hsleep he
      exact hguard _ _ hallowed e hwaits hbelow

/-- The main task and a task on the same level. -/
def twoTasks : TaskManager Unit Unit :=
  ((TaskManager.init ()).apply .newTask).apply (.wakeup 3 (some (Fin.last kMaxLevel)))

end TaskManager
end MinOS
