import Mathlib.Algebra.Order.Group.Nat
import Mathlib.Data.Finset.Card
import Mathlib.Data.Nat.Find
import Mathlib.Logic.Function.Iterate

/-!
# Walks

A walk goes from state to state until a state stops it.  Nothing is remembered on the
way, so that a walk through finitely many states stops after as many turns as there
are states, or never.
-/

namespace MinOS
namespace Walk

variable {α β : Type*} {step : α → α} {stop : α → Option β}

/-- What the walk from a state stops with, if it stops within `fuel` turns. -/
def run (step : α → α) (stop : α → Option β) : ℕ → α → Option β
  | 0, _ => none
  | fuel + 1, a =>
      match stop a with
      | some b => some b
      | none => run step stop fuel (step a)

/-- The walk from a state passes `k` states, and stops at the next one. -/
structure StopsAfter (step : α → α) (stop : α → Option β) (a : α) (k : ℕ) (b : β) : Prop where
  passes : ∀ j < k, stop (step^[j] a) = none
  stops : stop (step^[k] a) = some b

theorem StopsAfter.zero {a : α} {b : β} (h : stop a = some b) : StopsAfter step stop a 0 b :=
  ⟨fun _ hj ↦ absurd hj (Nat.not_lt_zero _), h⟩

theorem StopsAfter.succ {a : α} {b : β} {k : ℕ} (ha : stop a = none)
    (h : StopsAfter step stop (step a) k b) : StopsAfter step stop a (k + 1) b := by
  refine ⟨fun j hj ↦ ?_, h.stops⟩
  cases j with
  | zero => exact ha
  | succ j => exact h.passes j (Nat.lt_of_succ_lt_succ hj)

theorem exists_of_run {fuel : ℕ} {a : α} {b : β} (h : run step stop fuel a = some b) :
    ∃ k < fuel, StopsAfter step stop a k b := by
  induction fuel generalizing a with
  | zero => cases h
  | succ fuel ih =>
      rw [run] at h
      cases ha : stop a with
      | some b' =>
          rw [ha] at h
          exact ⟨0, Nat.succ_pos _, .zero (ha.trans h)⟩
      | none =>
          rw [ha] at h
          obtain ⟨k, hk, hstops⟩ := ih h
          exact ⟨k + 1, Nat.succ_lt_succ hk, hstops.succ ha⟩

theorem StopsAfter.run {fuel k : ℕ} {a : α} {b : β} (h : StopsAfter step stop a k b)
    (hk : k < fuel) : run step stop fuel a = some b := by
  induction fuel generalizing a k with
  | zero => exact absurd hk (Nat.not_lt_zero _)
  | succ fuel ih =>
      rw [Walk.run]
      cases k with
      | zero =>
          have hstop : stop a = some b := h.stops
          rw [hstop]
      | succ k =>
          have hpass : stop a = none := h.passes 0 (Nat.succ_pos k)
          rw [hpass]
          refine ih ⟨fun j hj ↦ ?_, h.stops⟩ (Nat.lt_of_succ_lt_succ hk)
          exact h.passes (j + 1) (Nat.succ_lt_succ hj)

/-- A walk does not come to a state twice before it stops. -/
theorem StopsAfter.le_card {k : ℕ} {a : α} {b : β} (h : StopsAfter step stop a k b)
    {S : Finset α} (hS : ∀ x, step x ∈ S) : k ≤ S.card := by
  have hmaps : ∀ j ∈ Finset.range k, step^[j + 1] a ∈ S := fun j _ ↦ by
    rw [Function.iterate_succ_apply']
    exact hS _
  have hlt {i j : ℕ} (hij : i < j) (hj : j < k) : step^[i + 1] a ≠ step^[j + 1] a := by
    intro heq
    -- from the repeated state the walk would have stopped that much earlier
    have hearly : step^[k - (j - i)] a = step^[k] a := by
      have hi : k - (j - i) = k - (j + 1) + (i + 1) := by omega
      have hk : k = k - (j + 1) + (j + 1) := by omega
      conv_rhs => rw [hk, Function.iterate_add_apply, ← heq]
      rw [hi, Function.iterate_add_apply]
    have hpass := h.passes (k - (j - i)) (by omega)
    rw [hearly, h.stops] at hpass
    cases hpass
  have hinj : Set.InjOn (fun j ↦ step^[j + 1] a) (Finset.range k) := by
    intro i hi j hj heq
    rw [Finset.mem_coe, Finset.mem_range] at hi hj
    rcases Nat.lt_trichotomy i j with hij | hij | hij
    · exact absurd heq (hlt hij hj)
    · exact hij
    · exact absurd heq.symm (hlt hij hi)
  have hcard := Finset.card_le_card_of_injOn _ hmaps hinj
  rwa [Finset.card_range] at hcard

/-- The walk stops within as many turns as there are states to go to, or never. -/
theorem exists_run_iff {a : α} {S : Finset α} (hS : ∀ x, step x ∈ S) :
    (∃ fuel, (run step stop fuel a).isSome) ↔ ∃ k ≤ S.card, (stop (step^[k] a)).isSome := by
  constructor
  · rintro ⟨fuel, hrun⟩
    obtain ⟨b, hb⟩ := Option.isSome_iff_exists.mp hrun
    obtain ⟨k, -, hstops⟩ := exists_of_run hb
    exact ⟨k, hstops.le_card hS, Option.isSome_iff_exists.mpr ⟨b, hstops.stops⟩⟩
  · rintro ⟨k, -, hstop⟩
    have hsome : ∃ k, (stop (step^[k] a)).isSome := ⟨k, hstop⟩
    obtain ⟨b, hb⟩ := Option.isSome_iff_exists.mp (Nat.find_spec hsome)
    have hstops : StopsAfter step stop a (Nat.find hsome) b :=
      ⟨fun j hj ↦ Option.not_isSome_iff_eq_none.mp (Nat.find_min hsome hj), hb⟩
    exact ⟨_, Option.isSome_iff_exists.mpr ⟨b, hstops.run (Nat.lt_succ_self _)⟩⟩

end Walk
end MinOS
