import Mathlib.Data.BitVec
import Mathlib.Order.Monotone.Basic
import Mathlib.Tactic.Ring

/-!
# Waiting on the PM timer

`acpi::WaitMilliseconds` computes a deadline modulo the width of a free-running counter,
and learns from the values it reads alone whether the counter has wrapped around.
-/

namespace MinOS
namespace Acpi

def kPMTimerFreq : ℕ := 3579545

/-- The PM timer while it is read: its value at the first read, and how many ticks have
gone by at each read since some moment before. -/
structure PmTimer where
  /-- `fadt->flags`. -/
  flags : BitVec 32
  value : ℕ
  ticks : ℕ → ℕ
  monotone : Monotone ticks

namespace PmTimer

/-- `pm_timer_32`. -/
def Is32 (t : PmTimer) : Prop := (t.flags >>> 8) &&& 1#32 ≠ 0

instance (t : PmTimer) : Decidable t.Is32 := inferInstanceAs (Decidable (_ ≠ _))

def width (t : PmTimer) : ℕ := if t.Is32 then 32 else 24

/-- What the `n`-th `IoIn32(fadt->pm_tmr_blk)` returns; the bits above the width are
zero. -/
def ioIn32 (t : PmTimer) (n : ℕ) : BitVec 32 :=
  BitVec.ofNat 32 ((t.value + t.ticks n) % 2 ^ t.width)

/-- `while (IoIn32(..) ..);` from the `n`-th read on: the number of the read that ends
it, if that comes within `fuel` reads. -/
def spin (t : PmTimer) (again : BitVec 32 → Bool) : ℕ → ℕ → Option ℕ
  | 0, _ => none
  | fuel + 1, n => if again (t.ioIn32 n) then spin t again fuel (n + 1) else some n

/-- `end`. -/
def deadline (t : PmTimer) (msec : BitVec 64) : BitVec 32 :=
  let start := t.ioIn32 0
  let deadline : BitVec 32 :=
    (start.setWidth 64 + BitVec.ofNat 64 kPMTimerFreq * msec / 1000).setWidth 32
  if t.Is32 then deadline else deadline &&& 0x00ffffff

/-- `WaitMilliseconds`: the number of its last read, if neither loop takes more than
`fuel` reads. -/
def waitMilliseconds (t : PmTimer) (msec : BitVec 64) (fuel : ℕ) : Option ℕ :=
  let start := t.ioIn32 0
  if t.deadline msec < start then
    (t.spin (fun v ↦ decide (start ≤ v)) fuel 1).bind fun n ↦
      t.spin (fun v ↦ decide (v < t.deadline msec)) fuel (n + 1)
  else t.spin (fun v ↦ decide (v < t.deadline msec)) fuel 1

/-! ## A counter modulo `m` -/

theorem mod_eq_sub {m n : ℕ} (hle : m ≤ n) (hlt : n < 2 * m) : n % m = n - m := by
  rw [Nat.mod_eq_sub_mod hle, Nat.mod_eq_of_lt (by omega)]

/-- A value below the first one shows that the counter has wrapped around. -/
theorem le_add_of_mod_lt {m s d : ℕ} (hlt : (s + d) % m < s) : m ≤ s + d := by
  by_contra hnot
  rw [Nat.mod_eq_of_lt (by omega)] at hlt
  omega

/-- A value not below the deadline shows that the wait is over, if the deadline is in the
first lap or the counter has left that lap. -/
theorem le_of_mod_le {m s n d : ℕ} (hs : s < m) (hn : n < m)
    (hlap : s ≤ (s + n) % m ∨ m ≤ s + d) (hle : (s + n) % m ≤ (s + d) % m) : n ≤ d := by
  by_contra hshort
  rcases Nat.lt_or_ge (s + d) m with hfirst | hsecond
  · have hwait : s + n < m := by
      by_contra hwrap
      rw [mod_eq_sub (by omega) (by omega)] at hlap
      omega
    rw [Nat.mod_eq_of_lt hfirst, Nat.mod_eq_of_lt hwait] at hle
    omega
  · rw [mod_eq_sub (by omega) (by omega), mod_eq_sub hsecond (by omega)] at hle
    omega

/-! ## The loops -/

variable {t : PmTimer}

theorem width_le (t : PmTimer) : t.width ≤ 32 := by
  rw [width]
  split_ifs <;> omega

theorem toNat_ioIn32 (t : PmTimer) (n : ℕ) :
    (t.ioIn32 n).toNat = (t.value + t.ticks n) % 2 ^ t.width := by
  rw [ioIn32, BitVec.toNat_ofNat]
  apply Nat.mod_eq_of_lt
  calc (t.value + t.ticks n) % 2 ^ t.width < 2 ^ t.width := Nat.mod_lt _ (Nat.two_pow_pos _)
    _ ≤ 2 ^ 32 := Nat.pow_le_pow_right (by decide) t.width_le

/-- A read shows the first value and the ticks since then, modulo the width. -/
theorem toNat_ioIn32_since (t : PmTimer) (n : ℕ) :
    (t.ioIn32 n).toNat = ((t.ioIn32 0).toNat + (t.ticks n - t.ticks 0)) % 2 ^ t.width := by
  have hle : t.ticks 0 ≤ t.ticks n := t.monotone (Nat.zero_le n)
  rw [toNat_ioIn32, toNat_ioIn32, Nat.mod_add_mod]
  congr 1
  omega

theorem toNat_deadline (t : PmTimer) {msec : BitVec 64}
    (hmsec : kPMTimerFreq * msec.toNat / 1000 < 2 ^ t.width) :
    (t.deadline msec).toNat =
      ((t.ioIn32 0).toNat + kPMTimerFreq * msec.toNat / 1000) % 2 ^ t.width := by
  have hwidth : 2 ^ t.width ≤ 2 ^ 32 := Nat.pow_le_pow_right (by decide) t.width_le
  have hstart := (t.ioIn32 0).isLt
  have hproduct : kPMTimerFreq * msec.toNat < 2 ^ 64 := by omega
  have hticks : (BitVec.ofNat 64 kPMTimerFreq * msec / 1000).toNat =
      kPMTimerFreq * msec.toNat / 1000 := by
    rw [BitVec.toNat_udiv, BitVec.toNat_mul, BitVec.toNat_ofNat, Nat.mod_mul_mod,
      Nat.mod_eq_of_lt hproduct]
    rfl
  have hsum : (((t.ioIn32 0).setWidth 64 + BitVec.ofNat 64 kPMTimerFreq * msec / 1000).setWidth
      32).toNat = ((t.ioIn32 0).toNat + kPMTimerFreq * msec.toNat / 1000) % 2 ^ 32 := by
    rw [BitVec.toNat_setWidth, BitVec.toNat_add, hticks, BitVec.toNat_setWidth,
      Nat.mod_eq_of_lt (by omega : (t.ioIn32 0).toNat < 2 ^ 64), Nat.mod_mod_of_dvd _ (by decide)]
  rw [deadline, width]
  split_ifs with h32
  · exact hsum
  · have hmask : (0x00ffffff : BitVec 32).toNat = 2 ^ 24 - 1 := rfl
    rw [BitVec.toNat_and, hsum, hmask, Nat.and_two_pow_sub_one_eq_mod,
      Nat.mod_mod_of_dvd _ (by decide)]

theorem spin_eq_some {again : BitVec 32 → Bool} {fuel n last : ℕ}
    (h : t.spin again fuel n = some last) : n ≤ last ∧ again (t.ioIn32 last) = false := by
  induction fuel generalizing n with
  | zero => simp [spin] at h
  | succ fuel ih =>
      rw [spin] at h
      split_ifs at h with hagain
      · obtain ⟨hle, hlast⟩ := ih h
        exact ⟨by omega, hlast⟩
      · obtain rfl := Option.some.inj h
        exact ⟨le_rfl, by simpa using hagain⟩

/-- When `WaitMilliseconds` returns, as many ticks have gone by since its first read as it
was asked for. -/
theorem waitMilliseconds_not_short (t : PmTimer) {msec : BitVec 64} {fuel last : ℕ}
    (hmsec : kPMTimerFreq * msec.toNat / 1000 < 2 ^ t.width)
    (hreturns : t.waitMilliseconds msec fuel = some last) :
    t.ticks 0 + kPMTimerFreq * msec.toNat / 1000 ≤ t.ticks last := by
  have hend := t.toNat_deadline hmsec
  have hstart := t.toNat_ioIn32 0
  have hlast := t.toNat_ioIn32_since last
  have hfirst : (t.ioIn32 0).toNat < 2 ^ t.width := by
    rw [hstart]
    exact Nat.mod_lt _ (Nat.two_pow_pos _)
  have hmonotone : t.ticks 0 ≤ t.ticks last := t.monotone (Nat.zero_le last)
  suffices hwait : kPMTimerFreq * msec.toNat / 1000 ≤ t.ticks last - t.ticks 0 by omega
  rw [waitMilliseconds] at hreturns
  split_ifs at hreturns with hwraps
  · obtain ⟨n, hn, hreturns⟩ := Option.bind_eq_some_iff.mp hreturns
    have hlap := (spin_eq_some hn).2
    obtain ⟨hle, hover⟩ := spin_eq_some hreturns
    rw [decide_eq_false_iff_not, BitVec.not_le, BitVec.lt_def, toNat_ioIn32_since] at hlap
    rw [decide_eq_false_iff_not, BitVec.not_lt, BitVec.le_def, hend, hlast] at hover
    have hleft := le_add_of_mod_lt hlap
    have hlater : t.ticks n ≤ t.ticks last := t.monotone (by omega)
    exact le_of_mod_le hfirst hmsec (.inr (by omega)) hover
  · obtain ⟨-, hover⟩ := spin_eq_some hreturns
    rw [decide_eq_false_iff_not, BitVec.not_lt, BitVec.le_def, hend, hlast] at hover
    rw [BitVec.not_lt, BitVec.le_def, hend] at hwraps
    exact le_of_mod_le hfirst hmsec (.inl hwraps) hover

/-- A 24-bit counter shortly before its end, read every 1000 ticks. -/
def nearEnd : PmTimer where
  flags := 0
  value := 0xfff000
  ticks := fun n ↦ 1000 * n
  monotone := fun _ _ h ↦ Nat.mul_le_mul_left 1000 h

/-- It is read until the ninth read for two milliseconds, which are 7159 ticks. -/
theorem waitMilliseconds_nearEnd :
    nearEnd.waitMilliseconds 2 10 = some 8 ∧ nearEnd.ticks 0 + 7159 ≤ nearEnd.ticks 8 :=
  ⟨by decide, @waitMilliseconds_not_short nearEnd 2 10 8 (by decide) (by decide)⟩

end PmTimer
end Acpi
end MinOS
