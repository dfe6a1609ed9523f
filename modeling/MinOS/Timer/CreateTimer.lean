import Mathlib.Data.BitVec
import MinOS.Timer.Manager

/-!
# Timers of applications

The system call `CreateTimer` turns milliseconds into ticks and back, in 64-bit
arithmetic.  A deadline that would leave the range of that arithmetic is not
refused: it wraps around.
-/

namespace MinOS
namespace TimerManager

open Transition

def kTimerFreq : BitVec 64 := 1000

def EINVAL : ℕ := 22

/-- The value and the error number that a system call returns. -/
structure SyscallResult where
  value : BitVec 64
  error : ℕ
deriving DecidableEq, Repr

/-- `mode & 1`: the time counts from the current tick. -/
def IsRelative (arg1 : BitVec 64) : Prop := arg1.setWidth 32 &&& 1#32 ≠ 0

instance (arg1 : BitVec 64) : Decidable (IsRelative arg1) := inferInstanceAs (Decidable (_ ≠ _))

/-- `int timer_value = arg2`. -/
def timerValue (arg2 : BitVec 64) : ℤ := (arg2.setWidth 32).toInt

/-- The `timeout` of a new timer. -/
def timeoutTicks (m : TimerManager) (arg1 arg3 : BitVec 64) : BitVec 64 :=
  let timeout := arg3 * kTimerFreq / 1000
  if IsRelative arg1 then timeout + BitVec.ofNat 64 m.tick else timeout

/-- `CreateTimer`, called by a task. -/
def createTimer (m : TimerManager) (taskId : ℕ) (arg1 arg2 arg3 : BitVec 64) :
    SyscallResult × TimerManager :=
  if timerValue arg2 ≤ 0 then (⟨0, EINVAL⟩, m)
  else
    let timeout := m.timeoutTicks arg1 arg3
    (⟨timeout * 1000 / kTimerFreq, 0⟩, m.addTimer ⟨timeout.toNat, -timerValue arg2, taskId⟩)

/-- The tick that the caller asks for, a tick being a millisecond. -/
def deadline (m : TimerManager) (arg1 arg3 : BitVec 64) : ℕ :=
  if IsRelative arg1 then m.tick + arg3.toNat else arg3.toNat

/-- Whatever happens from `m` on, no `Tick` before the tick `due` sends the message of
the timer. -/
def NotBefore (m : TimerManager) (t : Timer) (due : ℕ) : Prop :=
  ∀ {ops : List Op} {m₁ m₂ : TimerManager} {sent : List TimerMessage} {flag : Bool},
    Run Step m ops m₁ → Step m₁ (.tick sent flag) m₂ → t.message ∈ sent → due ≤ m₂.tick

/-- A deadline that 64 bits can hold is kept and returned, and a request with any
other is refused. -/
def KeepsDeadline (m : TimerManager) (taskId : ℕ) (arg1 arg2 arg3 : BitVec 64) : Prop :=
  if m.deadline arg1 arg3 < 2 ^ 64 then
    (∃ t, (m.createTimer taskId arg1 arg2 arg3).2 = m.addTimer t ∧
      (m.addTimer t).NotBefore t (m.deadline arg1 arg3)) ∧
    (m.createTimer taskId arg1 arg2 arg3).1 = ⟨BitVec.ofNat 64 (m.deadline arg1 arg3), 0⟩
  else
    (m.createTimer taskId arg1 arg2 arg3).1.error ≠ 0 ∧
      (m.createTimer taskId arg1 arg2 arg3).2 = m

/-! ## What a tick sends is due -/

theorem LoopStep.sent_le {tick : ℕ} {s s' : Loop} (h : LoopStep tick s s')
    (hs : ∀ a ∈ s.sent, a.timeout ≤ tick) : ∀ a ∈ s'.sent, a.timeout ≤ tick := by
  obtain ⟨t, -, -, hdue, hcase⟩ := h.cases_of
  rcases hcase with ⟨-, -, -, hsent⟩ | ⟨-, -, -, hsent⟩
  · rwa [hsent]
  · intro a ha
    rw [hsent] at ha
    rcases List.mem_append.mp ha with ha | ha
    · exact hs a ha
    · obtain rfl := List.mem_singleton.mp ha
      exact hdue

theorem loop_sent_le {tick : ℕ} {s s' : Loop} (hrun : Relation.ReflTransGen (LoopStep tick) s s')
    (hs : ∀ a ∈ s.sent, a.timeout ≤ tick) : ∀ a ∈ s'.sent, a.timeout ≤ tick := by
  induction hrun with
  | refl => exact hs
  | tail _ hstep ih => exact hstep.sent_le ih

theorem notBefore_timeout (m : TimerManager) (t : Timer) : m.NotBefore t t.timeout := by
  intro ops m₁ m₂ sent flag _ hstep hsent
  cases hstep with
  | tick loop _ => exact loop_sent_le loop (fun a ha ↦ absurd ha List.not_mem_nil) _ hsent

/-! ## The arithmetic -/

/-- Milliseconds to ticks and back, with the product cut to 64 bits. -/
theorem toNat_scaled (v : BitVec 64) :
    (v * 1000 / 1000).toNat = v.toNat * 1000 % 2 ^ 64 / 1000 := by
  rw [BitVec.toNat_udiv, BitVec.toNat_mul]
  rfl

theorem scaled_eq_iff {n : ℕ} (d : ℕ) (hn : n = d ∨ 2 ^ 64 ≤ d * 1000) :
    n * 1000 % 2 ^ 64 / 1000 = d ↔ d * 1000 < 2 ^ 64 := by
  constructor
  · intro heq
    have hlt : n * 1000 % 2 ^ 64 < 2 ^ 64 := Nat.mod_lt _ (by decide)
    omega
  · intro hlt
    obtain rfl : n = d := by omega
    rw [Nat.mod_eq_of_lt hlt, Nat.mul_div_cancel _ (by decide)]

theorem toNat_scaled_of_lt {v : BitVec 64} (h : v.toNat * 1000 < 2 ^ 64) :
    (v * 1000 / 1000).toNat = v.toNat := by
  rw [toNat_scaled]
  exact (scaled_eq_iff _ (.inl rfl)).mpr h

/-- As long as the product stays in range the timeout is the deadline. -/
theorem toNat_timeoutTicks {m : TimerManager} {arg1 arg3 : BitVec 64}
    (h : m.deadline arg1 arg3 * 1000 < 2 ^ 64) :
    (m.timeoutTicks arg1 arg3).toNat = m.deadline arg1 arg3 := by
  rw [deadline] at h
  rw [timeoutTicks, deadline]
  split_ifs at h ⊢ with hrelative
  · have hlt : arg3.toNat * 1000 < 2 ^ 64 :=
      lt_of_le_of_lt (Nat.mul_le_mul_right _ (Nat.le_add_left _ _)) h
    have hsum : m.tick + arg3.toNat < 2 ^ 64 := by omega
    rw [kTimerFreq, BitVec.toNat_add, toNat_scaled_of_lt hlt, BitVec.toNat_ofNat,
      Nat.mod_eq_of_lt (by omega : m.tick < 2 ^ 64), Nat.add_comm, Nat.mod_eq_of_lt hsum]
  · exact toNat_scaled_of_lt h

/-- A timer of an application keeps its deadline exactly when a thousand times the
deadline, in milliseconds, stays below `2^64`. -/
theorem keepsDeadline_iff (m : TimerManager) (taskId : ℕ) {arg1 arg2 arg3 : BitVec 64}
    (hvalue : 0 < timerValue arg2) :
    m.KeepsDeadline taskId arg1 arg2 arg3 ↔ m.deadline arg1 arg3 * 1000 < 2 ^ 64 := by
  have hcall : m.createTimer taskId arg1 arg2 arg3 =
      (⟨m.timeoutTicks arg1 arg3 * 1000 / kTimerFreq, 0⟩,
        m.addTimer ⟨(m.timeoutTicks arg1 arg3).toNat, -timerValue arg2, taskId⟩) := by
    rw [createTimer, if_neg (by omega)]
  have hreturned : (m.timeoutTicks arg1 arg3 * 1000 / kTimerFreq).toNat =
      (m.timeoutTicks arg1 arg3).toNat * 1000 % 2 ^ 64 / 1000 := toNat_scaled _
  rw [KeepsDeadline, hcall]
  constructor
  · intro hkeeps
    split_ifs at hkeeps with hfits
    · have hsame := congrArg (fun r ↦ r.value.toNat) hkeeps.2
      simp only [hreturned, BitVec.toNat_ofNat, Nat.mod_eq_of_lt hfits] at hsame
      have hlt : (m.timeoutTicks arg1 arg3).toNat * 1000 % 2 ^ 64 < 2 ^ 64 :=
        Nat.mod_lt _ (by decide)
      omega
    · exact absurd rfl hkeeps.1
  · intro hlt
    have htimeout := toNat_timeoutTicks hlt
    rw [if_pos (by omega)]
    refine ⟨⟨_, rfl, ?_⟩, ?_⟩
    · rw [htimeout]
      exact notBefore_timeout _ _
    · rw [SyscallResult.mk.injEq]
      refine ⟨BitVec.eq_of_toNat_eq ?_, rfl⟩
      rw [hreturned, htimeout, (scaled_eq_iff _ (.inl rfl)).mpr hlt, BitVec.toNat_ofNat,
        Nat.mod_eq_of_lt (by omega)]

/-- Two seconds from the tick 0 on. -/
theorem keepsDeadline_twoSeconds : init.KeepsDeadline 3 1 7 2000 :=
  (keepsDeadline_iff init 3 (by decide)).mpr (by decide)

/-- A wait of about `2^64 / 1000` milliseconds is over at the next tick. -/
theorem not_keepsDeadline_early :
    init.createTimer 3 1 7 18446744073709552 = (⟨0, 0⟩, init.addTimer ⟨0, -7, 3⟩) ∧
    init.deadline 1 18446744073709552 = 18446744073709552 ∧
    (∃ m, Step (init.addTimer ⟨0, -7, 3⟩) (.tick [⟨3, 0, -7⟩] false) m ∧ m.tick = 1) ∧
    ¬ init.KeepsDeadline 3 1 7 18446744073709552 := by
  have hcall : init.createTimer 3 1 7 18446744073709552 =
      (⟨0, 0⟩, init.addTimer ⟨0, -7, 3⟩) := by rfl
  have hstep : Step (init.addTimer ⟨0, -7, 3⟩) (.tick [⟨3, 0, -7⟩] false) ⟨1, {sentinel}⟩ := by
    have hturn : LoopStep 1 (init.addTimer ⟨0, -7, 3⟩).loopStart ⟨{sentinel}, false, [⟨3, 0, -7⟩]⟩ :=
      .send (t := ⟨0, -7, 3⟩) (isTop_iff.mpr ⟨by decide, by decide⟩) (by decide) (by decide)
    exact @Step.tick (init.addTimer ⟨0, -7, 3⟩) _ (.single hturn)
      ⟨sentinel, isTop_iff.mpr ⟨by decide, by decide⟩, by decide⟩
  refine ⟨hcall, rfl, ⟨_, hstep, rfl⟩, ?_⟩
  intro hkeeps
  rw [KeepsDeadline, if_pos (by decide), hcall] at hkeeps
  exact absurd (congrArg SyscallResult.value hkeeps.2) (by decide)

end TimerManager
end MinOS
