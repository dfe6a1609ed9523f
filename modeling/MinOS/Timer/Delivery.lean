import MinOS.Timer.Manager

/-!
# Every timer fires once, on time

What the queue holds at any moment of a run is determined by the calls so far:
the sentinel, the timers added that are not due yet, and the task timer.
-/

namespace MinOS
namespace TimerManager

open Transition

/-- The manager once `InitializeTask` has run. -/
def start : TimerManager := init.initializeTask

/-- The counter stays below `2^64 - 21`. -/
def BelowLimit (m : TimerManager) : Op → Prop
  | .addTimer _ => True
  | .tick _ _ => m.tick + 1 < 2 ^ 64 - 21

/-- How often `Tick` was called. -/
def ticks : List Op → ℕ
  | [] => 0
  | .addTimer _ :: ops => ticks ops
  | .tick _ _ :: ops => ticks ops + 1

/-- The timers added, each with the tick at which it was added. -/
def additions : ℕ → List Op → Multiset (Timer × ℕ)
  | _, [] => 0
  | tick, .addTimer t :: ops => (t, tick) ::ₘ additions tick ops
  | tick, .tick _ _ :: ops => additions (tick + 1) ops

/-- The tick at which a timer is to fire: its timeout, or the next tick if it
has already expired when it is added. -/
def due (a : Timer × ℕ) : ℕ := max a.1.timeout (a.2 + 1)

theorem ticks_append (ops ops' : List Op) : ticks (ops ++ ops') = ticks ops + ticks ops' := by
  induction ops with
  | nil => simp [ticks]
  | cons op ops ih =>
      cases op with
      | addTimer t => simpa [ticks] using ih
      | tick sent flag =>
          simp only [List.cons_append, ticks, ih]
          omega

theorem additions_append (tick : ℕ) (ops ops' : List Op) :
    additions tick (ops ++ ops') = additions tick ops + additions (tick + ticks ops) ops' := by
  induction ops generalizing tick with
  | nil => simp [additions, ticks]
  | cons op ops ih =>
      cases op with
      | addTimer t => simp [additions, ticks, ih]
      | tick sent flag =>
          simp only [List.cons_append, additions, ticks, ih]
          congr 2
          omega

theorem additions_le {tick : ℕ} {ops : List Op} {a : Timer × ℕ} (ha : a ∈ additions tick ops) :
    a.2 ≤ tick + ticks ops := by
  induction ops generalizing tick with
  | nil => exact absurd ha (Multiset.notMem_zero a)
  | cons op ops ih =>
      cases op with
      | addTimer t =>
          rcases Multiset.mem_cons.mp ha with rfl | ha
          · exact Nat.le_add_right _ _
          · exact ih ha
      | tick sent flag =>
          have hle := ih ha
          simp only [ticks]
          omega

/-- What the queue holds after the calls `ops`. -/
structure Pending (ops : List Op) (m : TimerManager) : Prop where
  tick : m.tick = ticks ops
  small : m.tick < 2 ^ 64 - 21
  others : m.timers.filter (fun t ↦ t.value ≠ kTaskTimerValue) =
    sentinel ::ₘ ((additions 0 ops).filter fun a ↦
      a.1.value ≠ kTaskTimerValue ∧ m.tick < due a).map Prod.fst
  task : (∀ t, Op.addTimer t ∈ ops → t.value ≠ kTaskTimerValue) →
    m.timers.filter (fun t ↦ t.value = kTaskTimerValue) =
      {taskTimer (kTaskTimerPeriod * (m.tick / kTaskTimerPeriod))}

theorem pending_start : Pending [] start := by
  constructor
  · rfl
  · decide
  · decide
  · intro _
    decide

theorem nextTick_eq {ops : List Op} {m : TimerManager} (h : Pending ops m) :
    m.nextTick = m.tick + 1 := by
  have hsmall := h.small
  rw [nextTick, Nat.mod_eq_of_lt (by omega)]

theorem Pending.addTimer {ops : List Op} {m : TimerManager} (h : Pending ops m) (t : Timer) :
    Pending (ops ++ [.addTimer t]) (m.addTimer t) := by
  have hadd : additions 0 (ops ++ [.addTimer t]) = (t, m.tick) ::ₘ additions 0 ops := by
    rw [additions_append, Nat.zero_add, ← h.tick]
    simp [additions, add_comm]
  constructor
  · rw [ticks_append, ← h.tick]
    rfl
  · exact h.small
  · rw [hadd]
    by_cases hvalue : t.value = kTaskTimerValue
    · rw [TimerManager.addTimer,
        Multiset.filter_cons_of_neg (p := fun u : Timer ↦ u.value ≠ kTaskTimerValue) _
          (not_not.mpr hvalue),
        Multiset.filter_cons_of_neg (p := fun a : Timer × ℕ ↦
          a.1.value ≠ kTaskTimerValue ∧ m.tick < due a) _ (fun hb ↦ hb.1 hvalue)]
      exact h.others
    · have hdue : m.tick < due (t, m.tick) := lt_of_lt_of_le (Nat.lt_succ_self _) (le_max_right _ _)
      rw [TimerManager.addTimer,
        Multiset.filter_cons_of_pos (p := fun u : Timer ↦ u.value ≠ kTaskTimerValue) _ hvalue,
        Multiset.filter_cons_of_pos (p := fun a : Timer × ℕ ↦
          a.1.value ≠ kTaskTimerValue ∧ m.tick < due a) _ ⟨hvalue, hdue⟩,
        h.others, Multiset.map_cons, Multiset.cons_swap]
  · intro hsingle
    have hvalue : t.value ≠ kTaskTimerValue := hsingle t (by simp)
    rw [TimerManager.addTimer,
      Multiset.filter_cons_of_neg (p := fun u : Timer ↦ u.value = kTaskTimerValue) _ hvalue]
    exact h.task fun u hu ↦ hsingle u (by simp [hu])

theorem Pending.additions_le_tick {ops : List Op} {m : TimerManager} (h : Pending ops m)
    {a : Timer × ℕ} (ha : a ∈ additions 0 ops) : a.2 ≤ m.tick := by
  have hadd := additions_le ha
  rw [h.tick]
  omega

/-- The timers that fire in the next `Tick` are the ones due then. -/
theorem Pending.fires {ops : List Op} {m : TimerManager} (h : Pending ops m) :
    m.timers.filter (Fires m.nextTick) =
      ((additions 0 ops).filter fun a ↦
        a.1.value ≠ kTaskTimerValue ∧ due a = m.nextTick).map Prod.fst := by
  have hsmall := h.small
  have hnext := nextTick_eq h
  have hsplit : m.timers.filter (Fires m.nextTick) =
      (m.timers.filter fun t ↦ t.value ≠ kTaskTimerValue).filter fun t ↦ t.timeout ≤ m.nextTick := by
    rw [Multiset.filter_filter]
    rfl
  have hsentinel : ¬ sentinel.timeout ≤ m.nextTick := by
    rw [hnext, sentinel]
    dsimp only
    omega
  rw [hsplit, h.others, Multiset.filter_cons_of_neg (p := fun t : Timer ↦ t.timeout ≤ m.nextTick) _
    hsentinel, Multiset.filter_map, Multiset.filter_filter]
  congr 1
  apply Multiset.filter_congr
  intro a ha
  have hle := h.additions_le_tick ha
  simp only [Function.comp_apply, due, hnext]
  constructor
  · rintro ⟨hdue, hvalue, hlater⟩
    exact ⟨hvalue, by omega⟩
  · rintro ⟨hvalue, hdue⟩
    exact ⟨by omega, hvalue, by omega⟩

theorem Pending.stays {ops : List Op} {m : TimerManager} (h : Pending ops m) :
    (m.timers.filter fun t ↦ m.nextTick < t.timeout).filter (fun t ↦ t.value ≠ kTaskTimerValue) =
      sentinel ::ₘ ((additions 0 ops).filter fun a ↦
        a.1.value ≠ kTaskTimerValue ∧ m.nextTick < due a).map Prod.fst := by
  have hsmall := h.small
  have hnext := nextTick_eq h
  have hsentinel : m.nextTick < sentinel.timeout := by
    rw [hnext, sentinel]
    dsimp only
    omega
  rw [Multiset.filter_filter, Multiset.filter_congr (fun t _ ↦ And.comm),
    ← Multiset.filter_filter, h.others,
    Multiset.filter_cons_of_pos (p := fun t : Timer ↦ m.nextTick < t.timeout) _ hsentinel,
    Multiset.filter_map, Multiset.filter_filter]
  congr 2
  apply Multiset.filter_congr
  intro a ha
  have hle := h.additions_le_tick ha
  simp only [Function.comp_apply, due, hnext]
  constructor
  · rintro ⟨hlater, hvalue, -⟩
    exact ⟨hvalue, by omega⟩
  · rintro ⟨hvalue, hdue⟩
    exact ⟨by omega, hvalue, by omega⟩

/-- With a single task timer, it is renewed at the multiples of the period. -/
theorem Pending.renews {ops : List Op} {m : TimerManager} (h : Pending ops m)
    (hsingle : ∀ t, Op.addTimer t ∈ ops → t.value ≠ kTaskTimerValue) :
    (m.timers.filter (Renews m.nextTick)).card = if kTaskTimerPeriod ∣ m.nextTick then 1 else 0 := by
  have hsmall := h.small
  have hnext := nextTick_eq h
  have hsplit : m.timers.filter (Renews m.nextTick) =
      (m.timers.filter fun t ↦ t.value = kTaskTimerValue).filter fun t ↦ t.timeout ≤ m.nextTick := by
    rw [Multiset.filter_filter]
    rfl
  have htimeout : (taskTimer (kTaskTimerPeriod * (m.tick / kTaskTimerPeriod))).timeout =
      kTaskTimerPeriod * (m.tick / kTaskTimerPeriod) + kTaskTimerPeriod := by
    apply taskTimer_timeout
    rw [kTaskTimerPeriod]
    omega
  rw [hsplit, h.task hsingle, Multiset.filter_singleton, htimeout, hnext]
  rcases Classical.em (kTaskTimerPeriod ∣ m.tick + 1) with hdvd | hdvd
  · rw [if_pos hdvd, if_pos, Multiset.card_singleton]
    rw [kTaskTimerPeriod] at hdvd ⊢
    omega
  · rw [if_neg hdvd, if_neg]
    · rfl
    · rw [kTaskTimerPeriod] at hdvd ⊢
      omega

theorem Pending.tick_step {ops : List Op} {m : TimerManager} {s : Loop} (h : Pending ops m)
    (hlimit : m.tick + 1 < 2 ^ 64 - 21)
    (hrun : Relation.ReflTransGen (LoopStep m.nextTick) m.loopStart s)
    (hexit : LoopExit m.nextTick s) :
    Pending (ops ++ [.tick s.sent s.taskTimerTimeout]) ⟨m.nextTick, s.timers⟩ := by
  have hnext := nextTick_eq h
  obtain ⟨-, htimers, -, -⟩ := tick_spec (by omega) hrun hexit
  have hadd : additions 0 (ops ++ [.tick s.sent s.taskTimerTimeout]) = additions 0 ops := by
    rw [additions_append]
    simp [additions]
  constructor
  · rw [ticks_append, ← h.tick, hnext]
    rfl
  · rwa [hnext]
  · have hnew : (Multiset.replicate (m.timers.filter (Renews m.nextTick)).card
        (taskTimer m.nextTick)).filter (fun t ↦ t.value ≠ kTaskTimerValue) = 0 := by
      apply Multiset.filter_eq_nil.mpr
      intro t ht hvalue
      rw [Multiset.eq_of_mem_replicate ht] at hvalue
      exact hvalue rfl
    rw [hadd, htimers, Multiset.filter_add, h.stays, hnew, add_zero]
  · intro hsingle
    have hold : ∀ t, Op.addTimer t ∈ ops → t.value ≠ kTaskTimerValue :=
      fun t ht ↦ hsingle t (by simp [ht])
    have hlate : (m.timers.filter fun t ↦ m.nextTick < t.timeout).filter
        (fun t ↦ t.value = kTaskTimerValue) =
        if kTaskTimerPeriod ∣ m.nextTick then 0
        else {taskTimer (kTaskTimerPeriod * (m.tick / kTaskTimerPeriod))} := by
      have htimeout : (taskTimer (kTaskTimerPeriod * (m.tick / kTaskTimerPeriod))).timeout =
          kTaskTimerPeriod * (m.tick / kTaskTimerPeriod) + kTaskTimerPeriod := by
        apply taskTimer_timeout
        rw [kTaskTimerPeriod]
        omega
      rw [Multiset.filter_filter, Multiset.filter_congr (fun t _ ↦ And.comm),
        ← Multiset.filter_filter, h.task hold, Multiset.filter_singleton, htimeout, hnext]
      rcases Classical.em (kTaskTimerPeriod ∣ m.tick + 1) with hdvd | hdvd
      · rw [if_pos hdvd, if_neg]
        · rfl
        · rw [kTaskTimerPeriod] at hdvd ⊢
          omega
      · rw [if_neg hdvd, if_pos]
        rw [kTaskTimerPeriod] at hdvd ⊢
        omega
    have hkeep : (Multiset.replicate (m.timers.filter (Renews m.nextTick)).card
        (taskTimer m.nextTick)).filter (fun t ↦ t.value = kTaskTimerValue) =
        Multiset.replicate (m.timers.filter (Renews m.nextTick)).card (taskTimer m.nextTick) := by
      apply Multiset.filter_eq_self.mpr
      intro t ht
      rw [Multiset.eq_of_mem_replicate ht]
      rfl
    rw [htimers, Multiset.filter_add, hlate, hkeep, h.renews hold]
    dsimp only
    split_ifs with hdvd
    · have hmul : kTaskTimerPeriod * (m.nextTick / kTaskTimerPeriod) = m.nextTick :=
        Nat.mul_div_cancel' hdvd
      rw [hmul, zero_add, Multiset.replicate_one]
    · have hdiv : m.nextTick / kTaskTimerPeriod = m.tick / kTaskTimerPeriod := by
        rw [hnext]
        simp only [kTaskTimerPeriod] at hdvd ⊢
        omega
      rw [hdiv, Multiset.replicate_zero, add_zero]

theorem Pending.of_run {ops : List Op} {m : TimerManager}
    (hrun : Run (Guarded BelowLimit Step) start ops m) : Pending ops m := by
  induction hrun with
  | nil => exact pending_start
  | snoc run last ih =>
      obtain ⟨hlimit, hstep⟩ := last
      cases hstep with
      | addTimer timer => exact ih.addTimer timer
      | tick loop exit => exact ih.tick_step hlimit loop exit

end TimerManager
end MinOS
