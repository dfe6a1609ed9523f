import Mathlib.Tactic

/-!
# Stores and the user half

The kernel writes to memory through 64-bit addresses that an application or a
file chose.  A store is the range of addresses that it writes, as a first
address and a number of bytes; the addresses wrap around.
-/

namespace MinOS
namespace App

/-- The first address of the user half. -/
def userBase : ℕ := 0xffff800000000000

/-- Every byte of the store is in the user half. -/
def InUserHalf (store : ℕ × ℕ) : Prop :=
  ∀ k < store.2, userBase ≤ (store.1 + k) % 2 ^ 64

theorem inUserHalf_iff {addr len : ℕ} (haddr : addr < 2 ^ 64) :
    InUserHalf (addr, len) ↔ len = 0 ∨ userBase ≤ addr ∧ addr + len ≤ 2 ^ 64 := by
  constructor
  · intro h
    rcases Nat.eq_zero_or_pos len with hzero | hpos
    · exact .inl hzero
    · refine .inr ⟨?_, ?_⟩
      · have hfirst := h 0 hpos
        rwa [Nat.add_zero, Nat.mod_eq_of_lt haddr] at hfirst
      · -- the byte at which the range wraps around is at address 0
        by_contra hwrap
        have hzero := h (2 ^ 64 - addr) (by dsimp only; omega)
        rw [Nat.add_sub_cancel' haddr.le, Nat.mod_self] at hzero
        exact absurd hzero (by decide)
  · rintro (rfl | ⟨hlow, hhigh⟩) k hk
    · exact absurd hk (Nat.not_lt_zero k)
    · have hlt : addr + k < 2 ^ 64 := lt_of_lt_of_le (Nat.add_lt_add_left hk addr) hhigh
      rw [Nat.mod_eq_of_lt hlt]
      exact hlow.trans (Nat.le_add_right _ _)

theorem inUserHalf_empty (addr : ℕ) : InUserHalf (addr, 0) :=
  fun k hk ↦ absurd hk (Nat.not_lt_zero k)

/-- A part of a store that is in the user half. -/
theorem InUserHalf.part {addr len off n : ℕ} (h : InUserHalf (addr, len)) (hle : off + n ≤ len) :
    InUserHalf ((addr + off) % 2 ^ 64, n) := by
  intro k hk
  have hin := h (off + k) (lt_of_lt_of_le (Nat.add_lt_add_left hk off) hle)
  rwa [Nat.mod_add_mod, Nat.add_assoc]

/-- The first bytes of a store that is in the user half. -/
theorem InUserHalf.take {addr len n : ℕ} (h : InUserHalf (addr, len)) (hle : n ≤ len) :
    InUserHalf (addr, n) :=
  fun k hk ↦ h k (lt_of_lt_of_le hk hle)

end App
end MinOS
