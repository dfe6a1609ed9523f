import Mathlib.Data.List.GetD
import Mathlib.Logic.Function.Basic
import Mathlib.Tactic.Ring

/-!
# Rings whose slots carry a cycle flag

A producer stores an endless sequence of items into `m` slots, the `n`-th item
into slot `n % m`.  It publishes an item through a flag in the slot, which says
whether the number of the lap is even.  A consumer that keeps its own position
and lap recognises the slots it has not read yet by that flag alone.
-/

namespace MinOS
namespace CycleRing

/-- The flag of the lap to which the `n`-th item belongs. -/
def flag (m n : ℕ) : Bool := decide (n / m % 2 = 0)

theorem flag_zero (m : ℕ) : flag m 0 = true := by
  simp [flag]

theorem flag_add_self {m : ℕ} (hm : 0 < m) (n : ℕ) : flag m (n + m) = !flag m n := by
  rw [flag, flag, Nat.add_div_right n hm, ← decide_not, decide_eq_decide]
  omega

theorem flag_congr {m n k : ℕ} (h : n / m = k / m) : flag m n = flag m k := by
  rw [flag, flag, h]

theorem succ_mod_of_lt {m n : ℕ} (h : n % m + 1 < m) :
    (n + 1) % m = n % m + 1 ∧ (n + 1) / m = n / m := by
  have hm : 0 < m := by omega
  have hn := Nat.div_add_mod n m
  have hsum : n + 1 = (n % m + 1) + m * (n / m) := by omega
  constructor
  · rw [hsum, Nat.add_mul_mod_self_left, Nat.mod_eq_of_lt h]
  · rw [hsum, Nat.add_mul_div_left _ _ hm, Nat.div_eq_of_lt h, zero_add]

theorem succ_mod_of_eq {m n : ℕ} (hm : 0 < m) (h : n % m + 1 = m) :
    (n + 1) % m = 0 ∧ (n + 1) / m = n / m + 1 := by
  have hn := Nat.div_add_mod n m
  have hsum : n + 1 = m * (n / m + 1) := by
    rw [mul_add, mul_one]
    omega
  constructor
  · rw [hsum, Nat.mul_mod_right]
  · rw [hsum, Nat.mul_div_cancel_left _ hm]

/-- Within a lap the flag stays. -/
theorem flag_succ_of_lt {m n : ℕ} (h : n % m + 1 < m) : flag m (n + 1) = flag m n :=
  flag_congr (succ_mod_of_lt h).2

theorem flag_succ_of_eq {m n : ℕ} (hm : 0 < m) (h : n % m + 1 = m) :
    flag m (n + 1) = !flag m n := by
  rw [flag, flag, (succ_mod_of_eq hm h).2, ← decide_not, decide_eq_decide]
  omega

theorem succ_eq_of_mod_eq_zero {m n : ℕ} (hm : 0 < m) (h : (n + 1) % m = 0) : n % m + 1 = m := by
  have hlt := Nat.mod_lt n hm
  by_contra hne
  rw [(succ_mod_of_lt (lt_of_le_of_ne hlt hne)).1] at h
  omega

theorem flag_of_lap {m n k : ℕ} (h : n % m = 0) (hle : n ≤ k) (hlt : k < n + m) :
    flag m k = flag m n := by
  have hm : 0 < m := by omega
  obtain ⟨q, rfl⟩ := Nat.dvd_of_mod_eq_zero h
  obtain ⟨r, rfl⟩ := Nat.exists_eq_add_of_le hle
  apply flag_congr
  rw [Nat.mul_add_div hm, Nat.div_eq_of_lt (by omega), Nat.mul_div_cancel_left _ hm, add_zero]

/-- Two positions less than a lap apart do not share a slot. -/
theorem mod_ne_mod {m n k : ℕ} (hlt : n < k) (hnear : k < n + m) : n % m ≠ k % m := by
  intro h
  obtain ⟨d, hd⟩ : m ∣ k - n := Nat.dvd_of_mod_eq_zero (Nat.sub_mod_eq_zero_of_mod_eq h.symm)
  rcases Nat.eq_zero_or_pos d with rfl | hpos
  · omega
  · have hle := Nat.le_mul_of_pos_right m hpos
    omega

variable {α : Type*}

/-- The slots hold the published items that the consumer, who has read `c` of
them, has not read yet, and the flag of every other slot is that of an old
lap. -/
structure Synced (m : ℕ) (cycle : α → Bool) (slots : ℕ → α) (items : List α) (c : ℕ) :
    Prop where
  pos : 0 < m
  read_le : c ≤ items.length
  room : items.length ≤ c + m
  stored : ∀ {n x}, items[n]? = some x → c ≤ n → slots (n % m) = x
  lap : ∀ {n x}, items[n]? = some x → cycle x = flag m n
  free : ∀ {n}, items.length ≤ n → n < items.length + m → cycle (slots (n % m)) = !flag m n

namespace Synced

variable {m c : ℕ} {cycle : α → Bool} {slots : ℕ → α} {items : List α}

/-- Nothing is published while every flag is clear. -/
theorem empty (hm : 0 < m) (hclear : ∀ i < m, cycle (slots i) = false) :
    Synced m cycle slots [] 0 where
  pos := hm
  read_le := le_rfl
  room := Nat.zero_le _
  stored := fun h ↦ by simp at h
  lap := fun h ↦ by simp at h
  free := by
    intro n _ hlt
    have hn : n < m := by simpa using hlt
    rw [Nat.mod_eq_of_lt hn, hclear n hn, flag, Nat.div_eq_of_lt hn]
    rfl

/-- The slot at the consumer's position carries the consumer's flag exactly when
there is an item to read. -/
theorem valid_iff (h : Synced m cycle slots items c) :
    cycle (slots (c % m)) = flag m c ↔ c < items.length := by
  have hpos := h.pos
  constructor
  · intro hvalid
    by_contra hge
    have hc : c = items.length := le_antisymm h.read_le (not_lt.mp hge)
    have hfree := h.free hc.ge (by omega)
    rw [hvalid] at hfree
    exact absurd hfree (by simp)
  · intro hlt
    have hitem := List.getElem?_eq_getElem hlt
    rw [h.stored hitem le_rfl, h.lap hitem]

theorem getElem?_read (h : Synced m cycle slots items c) (hlt : c < items.length) :
    items[c]? = some (slots (c % m)) := by
  have hitem := List.getElem?_eq_getElem hlt
  rw [h.stored hitem le_rfl, hitem]

theorem read (h : Synced m cycle slots items c) (hlt : c < items.length) :
    Synced m cycle slots items (c + 1) where
  pos := h.pos
  read_le := hlt
  room := by
    have hroom := h.room
    omega
  stored := fun hitem hle ↦ h.stored hitem (by omega)
  lap := h.lap
  free := h.free

theorem congr_slots (h : Synced m cycle slots items c) {slots' : ℕ → α}
    (hslots : ∀ i < m, slots' i = slots i) : Synced m cycle slots' items c where
  pos := h.pos
  read_le := h.read_le
  room := h.room
  stored := fun {n x} hitem hle ↦ by
    rw [hslots _ (Nat.mod_lt _ h.pos)]
    exact h.stored hitem hle
  lap := h.lap
  free := fun {n} hle hlt ↦ by
    rw [hslots _ (Nat.mod_lt _ h.pos)]
    exact h.free hle hlt

theorem prepare (h : Synced m cycle slots items c) (hroom : items.length < c + m) {i : ℕ}
    (hi : i = items.length % m) {x : α} (hx : cycle x = cycle (slots i)) :
    Synced m cycle (Function.update slots i x) items c where
  pos := h.pos
  read_le := h.read_le
  room := h.room
  stored := by
    intro n y hitem hle
    subst hi
    have hn := (List.getElem?_eq_some_iff.mp hitem).1
    rw [Function.update_of_ne (mod_ne_mod hn (by omega))]
    exact h.stored hitem hle
  lap := h.lap
  free := by
    intro n hle hlt
    by_cases hslot : n % m = i
    · rw [hslot, Function.update_self, hx, ← hslot]
      exact h.free hle hlt
    · rw [Function.update_of_ne hslot]
      exact h.free hle hlt

theorem publish (h : Synced m cycle slots items c) (hroom : items.length < c + m) {i : ℕ}
    (hi : i = items.length % m) {x : α} (hx : cycle x = flag m items.length) :
    Synced m cycle (Function.update slots i x) (items ++ [x]) c where
  pos := h.pos
  read_le := by
    have hle := h.read_le
    rw [List.length_append]
    exact hle.trans (Nat.le_add_right _ _)
  room := by
    rw [List.length_append]
    exact hroom
  stored := by
    intro n y hitem hle
    subst hi
    rcases lt_trichotomy n items.length with hn | rfl | hn
    · rw [Function.update_of_ne (mod_ne_mod hn (by omega))]
      rw [List.getElem?_append_left hn] at hitem
      exact h.stored hitem hle
    · rw [Function.update_self]
      simpa using hitem
    · rw [List.getElem?_eq_none (by simp; omega)] at hitem
      exact absurd hitem (by simp)
  lap := by
    intro n y hitem
    rcases lt_trichotomy n items.length with hn | rfl | hn
    · rw [List.getElem?_append_left hn] at hitem
      exact h.lap hitem
    · have hy : x = y := by simpa using hitem
      rw [← hy, hx]
    · rw [List.getElem?_eq_none (by simp; omega)] at hitem
      exact absurd hitem (by simp)
  free := by
    intro n hle hlt
    subst hi
    rw [List.length_append, List.length_singleton] at hle hlt
    by_cases hlast : n = items.length + m
    · rw [hlast, Nat.add_mod_right, Function.update_self, hx, flag_add_self h.pos, Bool.not_not]
    · rw [Function.update_of_ne (mod_ne_mod (n := items.length) (by omega) (by omega)).symm]
      exact h.free (by omega) (by omega)

end Synced

end CycleRing
end MinOS
