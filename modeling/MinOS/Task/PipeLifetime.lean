import MinOS.Task.PipeStream

/-!
# The lifetime of a pipe's reader

A descriptor refers to its reader task directly, and the reader finishes on its
own schedule.  The reference is good for every message of the pipe exactly while
readers finish after the `FinishWrite` of their pipe.
-/

namespace MinOS
namespace Pipe

open TaskManager

variable {Ctx Other : Type}

/-- Every message sent through a pipe went to a task that `tasks_` owned, and
the run queues hold owned tasks only. -/
def Owned (s : State Ctx Other) : Prop :=
  (∀ send ∈ s.sends, send.2 = true) ∧
    ∀ level, ∀ id ∈ s.manager.running level, s.manager.tasks id ≠ none

/-- A reader only finishes when its pipe has been finished. -/
def ReaderLast (s : State Ctx Other) : Op Ctx Other → Prop
  | .finish _ => ∀ t c, s.manager.currentTask = some t → s.pipes t = some c → c.finished = true
  | _ => True

structure LifetimeInvariant (s : State Ctx Other) : Prop where
  manager : TaskManager.Invariant s.manager
  reader : ∀ reader c, s.pipes reader = some c → reader ≤ s.manager.latestId
  pending : ∀ reader c, s.pipes reader = some c → c.pending ≠ [] → c.finished = false
  alive : ∀ reader c, s.pipes reader = some c → c.finished = false →
    s.manager.tasks reader ≠ none
  sends : ∀ send ∈ s.sends, send.2 = true

theorem LifetimeInvariant.init (idleCtx : Ctx) :
    LifetimeInvariant (init idleCtx : State Ctx Other) where
  manager := .init idleCtx
  reader _ _ h := by cases h
  pending _ _ h := by cases h
  alive _ _ h := by cases h
  sends _ h := by cases h

theorem LifetimeInvariant.owned {s : State Ctx Other} (hs : LifetimeInvariant s) : Owned s := by
  refine ⟨hs.sends, ?_⟩
  intro level id hmem
  obtain ⟨t, ht, _⟩ := exists_task_of_place
    ((hs.manager.queue.placement.mem_iff level id).mp hmem)
  rw [ht]
  exact Option.some_ne_none t

/-- A change of the manager that frees no reader of an unfinished pipe. -/
theorem LifetimeInvariant.of_manager {s : State Ctx Other} (hs : LifetimeInvariant s)
    {m : TaskManager Ctx (Message Other)} (hm : TaskManager.Invariant m)
    (hlatest : s.manager.latestId ≤ m.latestId)
    (htasks : ∀ reader c, s.pipes reader = some c → c.finished = false →
      m.queued reader = none → s.manager.queued reader = none) :
    LifetimeInvariant { s with manager := m } where
  manager := hm
  reader r c h := (hs.reader r c h).trans hlatest
  pending := hs.pending
  alive r c h hf hnone :=
    hs.alive r c h hf (queued_eq_none.mp (htasks r c h hf (queued_eq_none.mpr hnone)))
  sends := hs.sends

/-- A change of one pipe, and of the queue of its reader. -/
theorem LifetimeInvariant.of_pipe {s : State Ctx Other} (hs : LifetimeInvariant s)
    {m : TaskManager Ctx (Message Other)} {reader : ℕ} {c c' : Channel} {sends : List (ℕ × Bool)}
    (hm : TaskManager.Invariant m) (hlatest : m.latestId = s.manager.latestId)
    (htasks : ∀ r, m.queued r = none → s.manager.queued r = none)
    (hpipe : s.pipes reader = some c) (hpending : c'.pending ≠ [] → c'.finished = false)
    (hfinished : c'.finished = false → c.finished = false)
    (hsends : ∀ send ∈ sends, send.2 = true) :
    LifetimeInvariant ⟨m, Function.update s.pipes reader (some c'), sends⟩ := by
  refine ⟨hm, ?_, ?_, ?_, hsends⟩
  · dsimp only
    rw [hlatest]
    exact forall_update_pipe (hs.reader reader c hpipe) fun r c₁ _ h ↦ hs.reader r c₁ h
  · exact forall_update_pipe (P := fun _ c ↦ c.pending ≠ [] → c.finished = false) hpending
      fun r c₁ _ h ↦ hs.pending r c₁ h
  · intro r c₁ h hf hnone
    dsimp only at h hnone
    have hbefore := queued_eq_none.mp (htasks r (queued_eq_none.mpr hnone))
    by_cases hr : r = reader
    · subst hr
      obtain rfl : c' = c₁ := by simpa using h
      exact hs.alive r c hpipe (hfinished hf) hbefore
    · rw [Function.update_of_ne hr] at h
      exact hs.alive r c₁ h hf hbefore

theorem eq_none_of_update_map {α : Type} {queues : ℕ → Option α} {task r : ℕ} {f : α → α}
    (h : Function.update queues task ((queues task).map f) r = none) : queues r = none := by
  by_cases hr : r = task
  · subst hr
    rwa [Function.update_self, Option.map_eq_none_iff] at h
  · rwa [Function.update_of_ne hr] at h

theorem LifetimeInvariant.afterSend {s : State Ctx Other} (hs : LifetimeInvariant s)
    {reader : ℕ} {c c' : Channel} (msg : Message Other) (freed : Task Ctx (Message Other))
    (hpipe : s.pipes reader = some c) (hopen : c.finished = false)
    (hpending : c'.pending ≠ [] → c'.finished = false) :
    LifetimeInvariant (afterSend s reader msg freed c') := by
  obtain ⟨t, ht⟩ := Option.ne_none_iff_exists'.mp (hs.alive reader c hpipe hopen)
  have hm : TaskManager.Invariant (sendReference s.manager reader msg freed) := by
    simpa only [sendReference, ht] using hs.manager.sendMessage reader msg
  apply hs.of_pipe hm (sendReference_latestId _ _ _ _) _ hpipe hpending fun _ ↦ hopen
  · intro send hsend
    rcases List.mem_append.mp hsend with hsend | hsend
    · exact hs.sends send hsend
    · obtain rfl := List.mem_singleton.mp hsend
      simp [ht]
  · intro r hnone
    rw [sendReference_queued] at hnone
    exact eq_none_of_update_map hnone

theorem LifetimeInvariant.openPipe {s : State Ctx Other} (hs : LifetimeInvariant s)
    (data : List UInt8) (writer : ℕ) :
    LifetimeInvariant { s with
      manager := s.manager.newTask
      pipes := Function.update s.pipes (s.manager.latestId + 1)
        (some { desc := { data := data }, writer := writer }) } := by
  refine ⟨hs.manager.newTask, ?_, ?_, ?_, hs.sends⟩
  · apply forall_update_pipe (P := fun r _ ↦ r ≤ s.manager.latestId + 1) le_rfl
    intro r c _ h
    exact (hs.reader r c h).trans (Nat.le_succ _)
  · exact forall_update_pipe (P := fun _ c ↦ c.pending ≠ [] → c.finished = false) (fun _ ↦ rfl)
      fun r c _ h ↦ hs.pending r c h
  · intro r c h hf
    dsimp only at h ⊢
    by_cases hr : r = s.manager.latestId + 1
    · subst hr
      simp [TaskManager.newTask]
    · rw [Function.update_of_ne hr] at h
      simpa [TaskManager.newTask, hr] using hs.alive r c h hf

theorem LifetimeInvariant.step (s : State Ctx Other) (op : Op Ctx Other) (s' : State Ctx Other)
    (hs : LifetimeInvariant s) (hstep : Transition.Guarded ReaderLast Step s op s') :
    LifetimeInvariant s' := by
  obtain ⟨hlast, hstep⟩ := hstep
  cases hstep with
  | newTask =>
      apply hs.of_manager hs.manager.newTask (Nat.le_succ _)
      intro r c h _ hnone
      have hne : r ≠ s.manager.latestId + 1 := by
        rintro rfl
        exact Nat.not_succ_le_self _ (hs.reader _ c h)
      rwa [newTask_queued, Function.update_of_ne hne] at hnone
  | wakeup task =>
      apply hs.of_manager (hs.manager.wakeup_none task) (wakeup_none_frame _ _).1.ge
      intro r c _ _ hnone
      rwa [wakeup_none_queued] at hnone
  | sendMessage id msg =>
      apply hs.of_manager (hs.manager.sendMessage id _) (sendMessage_latestId _ _ _).ge
      intro r c _ _ hnone
      by_cases hid : s.manager.tasks id = none
      · simpa only [TaskManager.sendMessage, hid] using hnone
      · rw [sendMessage_queued _ hid] at hnone
        exact eq_none_of_update_map hnone
  | switchTask ctx =>
      apply hs.of_manager (hs.manager.switchTask ctx) (switchTask_frame _ _).1.ge
      intro r c _ _ hnone
      rwa [switchTask_queued] at hnone
  | @receive t ctx hcurrent hidle hpipe =>
      apply hs.of_manager (hs.manager.receiveTurn ctx hidle) (receiveTurn_latestId _ _ _).ge
      intro r c _ _ hnone
      rw [(s.manager.receiveTurn_queued t ctx).2] at hnone
      exact eq_none_of_update_map hnone
  | waitFinish id ctx hcurrent hidle =>
      apply hs.of_manager (hs.manager.waitFinishTurn id ctx hcurrent hidle)
        (waitFinishTurn_latestId _ _ _).ge
      intro r c _ _ hnone
      rwa [waitFinishTurn_queued] at hnone
  | @finish t exitCode hcurrent hidle hreader hwriter =>
      have hne : s.manager.currentTask ≠ some idleId := by simpa [hcurrent] using hidle
      apply hs.of_manager (hs.manager.finish exitCode hne) (finish_frame _ exitCode hcurrent).1.ge
      intro r c h hf hnone
      have hr : r ≠ t := by
        rintro rfl
        rw [hlast r c hcurrent h] at hf
        cases hf
      rwa [finish_queued _ _ hcurrent, Function.update_of_ne hr] at hnone
  | openPipe data hdata hcurrent => exact hs.openPipe data _
  | write buf hpipe hcurrent hpending hfinished =>
      exact hs.of_pipe hs.manager rfl (fun _ h ↦ h) hpipe (fun _ ↦ hfinished) (fun h ↦ h) hs.sends
  | sendChunk freed hpipe hcurrent hpending =>
      have hopen := hs.pending _ _ hpipe hpending
      exact hs.afterSend _ freed hpipe hopen fun _ ↦ hopen
  | finishWrite freed hpipe hcurrent hpending hfinished =>
      exact hs.afterSend _ freed hpipe hfinished fun h ↦ absurd hpending h
  | @read t c len hlen hcurrent hpipe hreading =>
      obtain ⟨hf, hp⟩ : (c.callRead len).finished = c.finished ∧
          (c.callRead len).pending = c.pending := by
        unfold Channel.callRead
        split <;> exact ⟨rfl, rfl⟩
      apply hs.of_pipe hs.manager rfl (fun _ h ↦ h) hpipe _ (fun h ↦ hf ▸ h) hs.sends
      rw [hf, hp]
      exact hs.pending t c hpipe
  | @readTurn t len c ctx hcurrent hidle hpipe hreading =>
      obtain ⟨hf, hp⟩ : (c.turnRead len (s.manager.receiveTurn t ctx).1).finished = c.finished ∧
          (c.turnRead len (s.manager.receiveTurn t ctx).1).pending = c.pending := by
        unfold Channel.turnRead
        split
        · exact ⟨rfl, rfl⟩
        · split <;> exact ⟨rfl, rfl⟩
      apply hs.of_pipe (hs.manager.receiveTurn ctx hidle) (receiveTurn_latestId _ _ _) _ hpipe _
        (fun h ↦ hf ▸ h) hs.sends
      · intro r hnone
        rw [(s.manager.receiveTurn_queued t ctx).2] at hnone
        exact eq_none_of_update_map hnone
      · rw [hf, hp]
        exact hs.pending t c hpipe

end Pipe
end MinOS
