import Mathlib.Data.List.Basic
import Mathlib.Tactic.Common

/-!
# Loops that count with a machine word

`for (i = first; i <= last; ++i)` with a counter and a bound of the same width.  The
counter wraps, so that no value lies beyond the largest word.
-/

namespace MinOS
namespace WordLoop

universe u

variable {w : ℕ} {σ α : Type u}

/-- The turns of the loop, each with its counter and what the body gave, and the last
state; nothing if the loop is still going after `fuel` tests of the bound. -/
def run (body : BitVec w → StateM σ α) (last : BitVec w) :
    ℕ → BitVec w → σ → Option (List (BitVec w × α) × σ)
  | 0, _, _ => none
  | fuel + 1, i, s =>
      if i ≤ last then
        (run body last fuel (i + 1#w) (body i s).2).map fun r ↦ ((i, (body i s).1) :: r.1, r.2)
      else some ([], s)

variable {body : BitVec w → StateM σ α} {last : BitVec w}

/-- Every word is at most the largest one. -/
theorem run_allOnes (fuel : ℕ) (i : BitVec w) (s : σ) :
    run body (BitVec.allOnes w) fuel i s = none := by
  induction fuel generalizing i s with
  | zero => rfl
  | succ fuel ih =>
      have hi : i ≤ BitVec.allOnes w := by
        rw [BitVec.le_def, BitVec.toNat_allOnes]
        exact Nat.le_pred_of_lt i.isLt
      rw [run, if_pos hi, ih, Option.map_none]

/-- Below the largest word the counter takes every value up to the bound once. -/
theorem run_counters (hlast : last ≠ BitVec.allOnes w) (n : ℕ) {i : BitVec w}
    (hn : i.toNat + n = last.toNat + 1) (s : σ) :
    ∃ turns t, run body last (n + 1) i s = some (turns, t) ∧
      turns.map (·.1.toNat) = List.range' i.toNat n := by
  induction n generalizing i s with
  | zero =>
      refine ⟨[], s, ?_, rfl⟩
      have hi : ¬ i ≤ last := by
        rw [BitVec.le_def]
        omega
      rw [run, if_neg hi]
  | succ n ih =>
      have hi : i ≤ last := by
        rw [BitVec.le_def]
        omega
      have hnext : (i + 1#w).toNat = i.toNat + 1 := by
        have hbelow : last.toNat < 2 ^ w - 1 := by
          have hne : last.toNat ≠ 2 ^ w - 1 := by
            intro h
            exact hlast (BitVec.eq_of_toNat_eq (h.trans BitVec.toNat_allOnes.symm))
          have := last.isLt
          omega
        have hone : (1#w).toNat = 1 := by
          rw [BitVec.toNat_ofNat, Nat.mod_eq_of_lt]
          omega
        rw [BitVec.toNat_add_of_lt, hone]
        omega
      obtain ⟨turns, t, hrun, hturns⟩ := ih (i := i + 1#w) (by omega) (body i s).2
      refine ⟨(i, (body i s).1) :: turns, t, ?_, ?_⟩
      · rw [run, if_pos hi, hrun]
        rfl
      · rw [List.map_cons, hturns, hnext, List.range'_succ]

end WordLoop
end MinOS
