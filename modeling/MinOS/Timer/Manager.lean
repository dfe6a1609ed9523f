import MinOS.Library.PriorityQueue
import MinOS.Library.Transition

/-!
# The timer manager

`TimerManager` of `timer.cpp`: a tick counter and a `std::priority_queue` of
timers whose `operator<` is inverted, so that the earliest timeout is at the
top.  The loop of `Tick` is a step relation, because the queue does not say
which of several timers with one timeout comes first.
-/

namespace MinOS

structure Timer where
  timeout : ℕ
  value : ℤ
  taskId : ℕ
deriving DecidableEq, Repr

/-- `operator<` of timers. -/
def Timer.lt (lhs rhs : Timer) : Prop := lhs.timeout > rhs.timeout

def kTaskTimerPeriod : ℕ := 20

/-- The largest `int`. -/
def kTaskTimerValue : ℤ := 2 ^ 31 - 1

/-- The arguments of the `SendMessage` call for an expired timer. -/
structure TimerMessage where
  taskId : ℕ
  timeout : ℕ
  value : ℤ
deriving DecidableEq, Repr

def Timer.message (t : Timer) : TimerMessage := ⟨t.taskId, t.timeout, t.value⟩

structure TimerManager where
  tick : ℕ
  timers : Multiset Timer

namespace TimerManager

/-- The timer that the constructor pushes. -/
def sentinel : Timer := ⟨2 ^ 64 - 1, 0, 0⟩

/-- The state that the constructor leaves. -/
def init : TimerManager := ⟨0, {sentinel}⟩

def addTimer (m : TimerManager) (timer : Timer) : TimerManager :=
  { m with timers := timer ::ₘ m.timers }

/-- The task timer that is pushed at a given tick. -/
def taskTimer (tick : ℕ) : Timer := ⟨(tick + kTaskTimerPeriod) % 2 ^ 64, kTaskTimerValue, 1⟩

/-- `InitializeTask`. -/
def initializeTask (m : TimerManager) : TimerManager := m.addTimer (taskTimer m.tick)

/-- A timer that `timers_.top()` may return. -/
def IsTop (timers : Multiset Timer) (t : Timer) : Prop :=
  t ∈ timers ∧ ∀ u ∈ timers, ¬ t.lt u

/-- The variables of the loop of `Tick`. -/
structure Loop where
  timers : Multiset Timer
  taskTimerTimeout : Bool
  sent : List TimerMessage

/-- One turn of the loop of `Tick` that does not leave it. -/
inductive LoopStep (tick : ℕ) : Loop → Loop → Prop where
  | taskTimer {s : Loop} {t : Timer} (top : IsTop s.timers t) (expired : ¬ t.timeout > tick)
      (value : t.value = kTaskTimerValue) :
      LoopStep tick s
        { s with
          timers := TimerManager.taskTimer tick ::ₘ s.timers.erase t
          taskTimerTimeout := true }
  | send {s : Loop} {t : Timer} (top : IsTop s.timers t) (expired : ¬ t.timeout > tick)
      (value : t.value ≠ kTaskTimerValue) :
      LoopStep tick s { s with timers := s.timers.erase t, sent := s.sent ++ [t.message] }

/-- The turn that breaks out of the loop. -/
def LoopExit (tick : ℕ) (s : Loop) : Prop := ∃ t, IsTop s.timers t ∧ t.timeout > tick

/-- The counter after `++tick_`. -/
def nextTick (m : TimerManager) : ℕ := (m.tick + 1) % 2 ^ 64

def loopStart (m : TimerManager) : Loop := ⟨m.timers, false, []⟩

/-- The calls, with what a `Tick` sends and returns. -/
inductive Op where
  | addTimer (timer : Timer)
  | tick (sent : List TimerMessage) (taskTimerTimeout : Bool)

inductive Step : TimerManager → Op → TimerManager → Prop where
  | addTimer (m : TimerManager) (timer : Timer) : Step m (.addTimer timer) (m.addTimer timer)
  | tick {m : TimerManager} {s : Loop}
      (loop : Relation.ReflTransGen (LoopStep m.nextTick) m.loopStart s)
      (exit : LoopExit m.nextTick s) :
      Step m (.tick s.sent s.taskTimerTimeout) ⟨m.nextTick, s.timers⟩

/-! ## One turn of the loop -/

theorem isTop_iff {timers : Multiset Timer} {t : Timer} :
    IsTop timers t ↔ PriorityQueue.IsTop Timer.timeout timers t := by
  simp [IsTop, PriorityQueue.IsTop, Timer.lt]

/-- The pending timers that a `Tick` to `tick` sends a message for. -/
def Fires (tick : ℕ) (t : Timer) : Prop := t.timeout ≤ tick ∧ t.value ≠ kTaskTimerValue

instance (tick : ℕ) (t : Timer) : Decidable (Fires tick t) := inferInstanceAs (Decidable (_ ∧ _))

/-- The pending task timers that a `Tick` to `tick` renews. -/
def Renews (tick : ℕ) (t : Timer) : Prop := t.timeout ≤ tick ∧ t.value = kTaskTimerValue

instance (tick : ℕ) (t : Timer) : Decidable (Renews tick t) := inferInstanceAs (Decidable (_ ∧ _))

/-- What one turn removes from the timers that are due, and what it leaves of
the others. -/
theorem LoopStep.cases_of {tick : ℕ} {s s' : Loop} (h : LoopStep tick s s') :
    ∃ t, t ∈ s.timers ∧ (∀ u ∈ s.timers, t.timeout ≤ u.timeout) ∧ t.timeout ≤ tick ∧
      ((t.value = kTaskTimerValue ∧ s'.timers = TimerManager.taskTimer tick ::ₘ s.timers.erase t ∧
          s'.taskTimerTimeout = true ∧ s'.sent = s.sent) ∨
        (t.value ≠ kTaskTimerValue ∧ s'.timers = s.timers.erase t ∧
          s'.taskTimerTimeout = s.taskTimerTimeout ∧ s'.sent = s.sent ++ [t.message])) := by
  cases h with
  | @taskTimer t top expired value =>
      rw [isTop_iff] at top
      exact ⟨t, top.1, top.2, by omega, .inl ⟨value, rfl, rfl, rfl⟩⟩
  | @send t top expired value =>
      rw [isTop_iff] at top
      exact ⟨t, top.1, top.2, by omega, .inr ⟨value, rfl, rfl, rfl⟩⟩

theorem taskTimer_timeout {tick : ℕ} (h : tick < 2 ^ 64 - 20) :
    (taskTimer tick).timeout = tick + kTaskTimerPeriod := by
  apply Nat.mod_eq_of_lt
  rw [kTaskTimerPeriod]
  omega

/-- The relation between the variables of the loop at its start and later:
what has been sent are the earliest of the timers that fire, in order. -/
structure LoopInvariant (tick : ℕ) (start s : Loop) : Prop where
  fires : (start.timers.filter (Fires tick)).map Timer.message =
    (s.sent : Multiset TimerMessage) + (s.timers.filter (Fires tick)).map Timer.message
  later : ∃ n, s.timers.filter (fun t ↦ tick < t.timeout) =
      start.timers.filter (fun t ↦ tick < t.timeout) + Multiset.replicate n (taskTimer tick) ∧
    n + (s.timers.filter (Renews tick)).card = (start.timers.filter (Renews tick)).card ∧
    (s.taskTimerTimeout = true ↔ 0 < n)
  sorted : s.sent.Pairwise fun a b ↦ a.timeout ≤ b.timeout
  below : ∀ a ∈ s.sent, ∀ t ∈ s.timers, a.timeout ≤ t.timeout

theorem LoopInvariant.refl (tick : ℕ) (m : TimerManager) :
    LoopInvariant tick m.loopStart m.loopStart where
  fires := by simp [loopStart]
  later := ⟨0, by simp, by simp, by simp [loopStart]⟩
  sorted := List.Pairwise.nil
  below := by simp [loopStart]

section Turn

variable {tick : ℕ} {start s s' : Loop} {t : Timer}

/-- A turn that renews a task timer. -/
theorem LoopInvariant.renew (h : LoopInvariant tick start s) (htick : tick < 2 ^ 64 - 20)
    (ht : t ∈ s.timers) (hdue : t.timeout ≤ tick) (hvalue : t.value = kTaskTimerValue)
    (htimers : s'.timers = taskTimer tick ::ₘ s.timers.erase t) (hflag : s'.taskTimerTimeout = true)
    (hsent : s'.sent = s.sent) : LoopInvariant tick start s' := by
  have htimeout : tick < (taskTimer tick).timeout := by
    rw [taskTimer_timeout htick, kTaskTimerPeriod]
    omega
  have hnewFires : ¬ Fires tick (taskTimer tick) := fun hf ↦ absurd hf.1 (by omega)
  have hnewRenews : ¬ Renews tick (taskTimer tick) := fun hr ↦ absurd hr.1 (by omega)
  have hfires : s'.timers.filter (Fires tick) = s.timers.filter (Fires tick) := by
    rw [htimers, Multiset.filter_cons_of_neg _ hnewFires, PriorityQueue.filter_erase (Fires tick) ht,
      if_neg fun hf ↦ hf.2 hvalue, zero_add]
  have hrenews : (s.timers.filter (Renews tick)).card = (s'.timers.filter (Renews tick)).card + 1 := by
    rw [htimers, Multiset.filter_cons_of_neg _ hnewRenews,
      PriorityQueue.filter_erase (Renews tick) ht, if_pos ⟨hdue, hvalue⟩, Multiset.card_add,
      Multiset.card_singleton, Nat.add_comm]
  have hlater : s'.timers.filter (fun u ↦ tick < u.timeout) =
      taskTimer tick ::ₘ s.timers.filter (fun u ↦ tick < u.timeout) := by
    rw [htimers, Multiset.filter_cons_of_pos (p := fun u : Timer ↦ tick < u.timeout) _ htimeout,
      PriorityQueue.filter_erase (fun u : Timer ↦ tick < u.timeout) ht,
      if_neg (by omega : ¬ tick < t.timeout), zero_add]
  obtain ⟨n, hn, hcard, -⟩ := h.later
  constructor
  · rw [hsent, hfires]
    exact h.fires
  · refine ⟨n + 1, ?_, by omega, by simp [hflag]⟩
    rw [hlater, hn, Multiset.replicate_succ, Multiset.add_cons]
  · rw [hsent]
    exact h.sorted
  · intro a ha u hu
    rw [hsent] at ha
    rw [htimers] at hu
    rcases Multiset.mem_cons.mp hu with rfl | hu
    · have hle := h.below a ha t ht
      omega
    · exact h.below a ha u (Multiset.mem_of_mem_erase hu)

theorem LoopInvariant.send (h : LoopInvariant tick start s) (ht : t ∈ s.timers)
    (hdue : t.timeout ≤ tick) (hmin : ∀ u ∈ s.timers, t.timeout ≤ u.timeout)
    (hvalue : t.value ≠ kTaskTimerValue) (htimers : s'.timers = s.timers.erase t)
    (hflag : s'.taskTimerTimeout = s.taskTimerTimeout) (hsent : s'.sent = s.sent ++ [t.message]) :
    LoopInvariant tick start s' := by
  obtain ⟨n, hn, hcard, hnflag⟩ := h.later
  constructor
  · rw [h.fires, hsent, htimers, PriorityQueue.filter_erase (Fires tick) ht,
      if_pos ⟨hdue, hvalue⟩, Multiset.map_add, Multiset.map_singleton, ← Multiset.coe_add,
      Multiset.coe_singleton, add_assoc]
  · refine ⟨n, ?_, ?_, ?_⟩
    · rw [← hn, htimers, PriorityQueue.filter_erase (fun u : Timer ↦ tick < u.timeout) ht,
        if_neg (by omega : ¬ tick < t.timeout), zero_add]
    · rw [← hcard, htimers, PriorityQueue.filter_erase (Renews tick) ht,
        if_neg fun hr ↦ hvalue hr.2, zero_add]
    · rw [hflag]
      exact hnflag
  · rw [hsent, List.pairwise_append]
    refine ⟨h.sorted, List.pairwise_singleton _ _, ?_⟩
    intro a ha b hb
    obtain rfl := List.mem_singleton.mp hb
    exact h.below a ha t ht
  · intro a ha u hu
    rw [htimers] at hu
    have hmem := Multiset.mem_of_mem_erase hu
    rw [hsent] at ha
    rcases List.mem_append.mp ha with ha | ha
    · exact h.below a ha u hmem
    · obtain rfl := List.mem_singleton.mp ha
      exact hmin u hmem

theorem LoopInvariant.step (h : LoopInvariant tick start s) (htick : tick < 2 ^ 64 - 20)
    (hstep : LoopStep tick s s') : LoopInvariant tick start s' := by
  obtain ⟨t, ht, hmin, hdue, hcase⟩ := hstep.cases_of
  rcases hcase with ⟨hvalue, htimers, hflag, hsent⟩ | ⟨hvalue, htimers, hflag, hsent⟩
  · exact h.renew htick ht hdue hvalue htimers hflag hsent
  · exact h.send ht hdue hmin hvalue htimers hflag hsent

theorem LoopInvariant.run (m : TimerManager) (htick : tick < 2 ^ 64 - 20)
    (hrun : Relation.ReflTransGen (LoopStep tick) m.loopStart s) :
    LoopInvariant tick m.loopStart s := by
  induction hrun with
  | refl => exact LoopInvariant.refl tick m
  | tail _ hstep ih => exact ih.step htick hstep

end Turn

/-! ## The loop ends, and what it has done then -/

/-- The timers that are due become fewer with every turn. -/
theorem LoopStep.due_lt {tick : ℕ} {s s' : Loop} (htick : tick < 2 ^ 64 - 20)
    (h : LoopStep tick s s') :
    (s'.timers.filter fun t ↦ t.timeout ≤ tick).card <
      (s.timers.filter fun t ↦ t.timeout ≤ tick).card := by
  obtain ⟨t, ht, -, hdue, hcase⟩ := h.cases_of
  have hremoved : (s.timers.filter fun u ↦ u.timeout ≤ tick).card =
      ((s.timers.erase t).filter fun u ↦ u.timeout ≤ tick).card + 1 := by
    rw [PriorityQueue.filter_erase (fun u : Timer ↦ u.timeout ≤ tick) ht, if_pos hdue,
      Multiset.card_add, Multiset.card_singleton, Nat.add_comm]
  rcases hcase with ⟨-, htimers, -, -⟩ | ⟨-, htimers, -, -⟩
  · have hnew : ¬ (TimerManager.taskTimer tick).timeout ≤ tick := by
      rw [taskTimer_timeout htick, kTaskTimerPeriod]
      omega
    rw [htimers, Multiset.filter_cons_of_neg (p := fun u : Timer ↦ u.timeout ≤ tick) _ hnew]
    omega
  · rw [htimers]
    omega

/-- There is no infinite sequence of turns. -/
theorem loop_terminates {tick : ℕ} (htick : tick < 2 ^ 64 - 20) (s : Loop) :
    Acc (fun s' s ↦ LoopStep tick s s') s := by
  have hwf := InvImage.wf (fun s : Loop ↦ (s.timers.filter fun t ↦ t.timeout ≤ tick).card)
    Nat.lt_wfRel.wf
  exact Subrelation.accessible (fun h ↦ LoopStep.due_lt htick h) (hwf.apply s)

theorem loop_progress (tick : ℕ) {s : Loop} (h : s.timers ≠ 0) :
    LoopExit tick s ∨ ∃ s', LoopStep tick s s' := by
  obtain ⟨t, ht⟩ := PriorityQueue.exists_isTop Timer.timeout h
  have htop := isTop_iff.mpr ht
  by_cases hdue : t.timeout > tick
  · exact .inl ⟨t, htop, hdue⟩
  · right
    by_cases hvalue : t.value = kTaskTimerValue
    · exact ⟨_, .taskTimer htop hdue hvalue⟩
    · exact ⟨_, .send htop hdue hvalue⟩

/-- A timer that is not due stays in the queue. -/
theorem LoopStep.mem_of_later {tick : ℕ} {s s' : Loop} (h : LoopStep tick s s') {u : Timer}
    (hu : u ∈ s.timers) (hlater : tick < u.timeout) : u ∈ s'.timers := by
  obtain ⟨t, -, -, hdue, hcase⟩ := h.cases_of
  have hne : u ≠ t := by
    rintro rfl
    omega
  have hmem : u ∈ s.timers.erase t := (Multiset.mem_erase_of_ne hne).mpr hu
  rcases hcase with ⟨-, htimers, -, -⟩ | ⟨-, htimers, -, -⟩
  · rw [htimers]
    exact Multiset.mem_cons_of_mem hmem
  · rw [htimers]
    exact hmem

theorem loop_mem_of_later {tick : ℕ} {s s' : Loop}
    (hrun : Relation.ReflTransGen (LoopStep tick) s s') {u : Timer} (hu : u ∈ s.timers)
    (hlater : tick < u.timeout) : u ∈ s'.timers := by
  induction hrun with
  | refl => exact hu
  | tail _ hstep ih => exact hstep.mem_of_later ih hlater

theorem loop_finishes {tick : ℕ} (htick : tick < 2 ^ 64 - 20) {s : Loop} {u : Timer}
    (hu : u ∈ s.timers) (hlater : tick < u.timeout) :
    ∃ s', Relation.ReflTransGen (LoopStep tick) s s' ∧ LoopExit tick s' := by
  induction loop_terminates htick s with
  | intro s _ ih =>
      have hne : s.timers ≠ 0 := by
        intro h0
        rw [h0] at hu
        exact absurd hu (Multiset.notMem_zero u)
      rcases loop_progress tick hne with hexit | ⟨s', hstep⟩
      · exact ⟨s, .refl, hexit⟩
      · obtain ⟨r, hrun, hexit⟩ := ih s' hstep (hstep.mem_of_later hu hlater)
        exact ⟨r, .head hstep hrun, hexit⟩

theorem tick_spec {m : TimerManager} {s : Loop} (htick : m.nextTick < 2 ^ 64 - 20)
    (hrun : Relation.ReflTransGen (LoopStep m.nextTick) m.loopStart s)
    (hexit : LoopExit m.nextTick s) :
    (s.sent : Multiset TimerMessage) =
        (m.timers.filter (Fires m.nextTick)).map Timer.message ∧
      s.timers = m.timers.filter (fun t ↦ m.nextTick < t.timeout) +
        Multiset.replicate (m.timers.filter (Renews m.nextTick)).card (taskTimer m.nextTick) ∧
      (s.taskTimerTimeout = true ↔ 0 < (m.timers.filter (Renews m.nextTick)).card) ∧
      s.sent.Pairwise fun a b ↦ a.timeout ≤ b.timeout := by
  have hinv := LoopInvariant.run m htick hrun
  obtain ⟨t, htop, hlate⟩ := hexit
  rw [isTop_iff] at htop
  have hall : ∀ u ∈ s.timers, m.nextTick < u.timeout := fun u hu ↦ lt_of_lt_of_le hlate (htop.2 u hu)
  have hfires : s.timers.filter (Fires m.nextTick) = 0 :=
    Multiset.filter_eq_nil.mpr fun u hu hf ↦ absurd hf.1 (by have := hall u hu; omega)
  have hrenews : s.timers.filter (Renews m.nextTick) = 0 :=
    Multiset.filter_eq_nil.mpr fun u hu hr ↦ absurd hr.1 (by have := hall u hu; omega)
  obtain ⟨n, hn, hcard, hflag⟩ := hinv.later
  rw [hrenews, Multiset.card_zero, Nat.add_zero] at hcard
  rw [Multiset.filter_eq_self.mpr hall] at hn
  subst hcard
  refine ⟨?_, hn, hflag, hinv.sorted⟩
  have hsent := hinv.fires
  rw [hfires, Multiset.map_zero, add_zero] at hsent
  exact hsent.symm

end TimerManager
end MinOS
