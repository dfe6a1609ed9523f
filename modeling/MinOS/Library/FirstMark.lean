import Mathlib.Data.List.DropRight
import Mathlib.Data.List.Basic

/-!
# Splitting a list at a mark

What comes before and after the first occurrence of an element, and what a list
reads like when first occurrences are overwritten.
-/

namespace MinOS

variable {α : Type*} [DecidableEq α] {c d : α} {l l₁ l₂ : List α}

/-- The part of a list in front of the first `c`. -/
def before (c : α) (l : List α) : List α := l.takeWhile (· ≠ c)

/-- The part of a list behind the first `c`. -/
def after (c : α) (l : List α) : List α := (l.dropWhile (· ≠ c)).tail

theorem before_of_notMem (h : c ∉ l) : before c l = l := by
  rw [before, List.takeWhile_eq_self_iff]
  intro b hb
  exact decide_eq_true fun heq ↦ h (heq ▸ hb)

theorem before_append_of_notMem (h : c ∉ l₁) : before c (l₁ ++ l₂) = l₁ ++ before c l₂ :=
  List.takeWhile_append_of_pos fun _ hb ↦ decide_eq_true fun heq ↦ h (heq ▸ hb)

theorem after_append_of_notMem (h : c ∉ l₁) : after c (l₁ ++ l₂) = after c l₂ :=
  congrArg List.tail (List.dropWhile_append_of_pos fun _ hb ↦
    decide_eq_true fun heq ↦ h (heq ▸ hb))

theorem before_cons_self : before c (c :: l) = [] :=
  List.takeWhile_cons_of_neg (by simp)

theorem after_cons_self : after c (c :: l) = l := by
  rw [after, List.dropWhile_cons_of_neg (by simp), List.tail_cons]

theorem before_cons_of_ne (h : d ≠ c) : before c (d :: l) = d :: before c l :=
  List.takeWhile_cons_of_pos (by simpa using h)

theorem after_cons_of_ne (h : d ≠ c) : after c (d :: l) = after c l := by
  rw [after, List.dropWhile_cons_of_pos (by simpa using h), after]

theorem notMem_before : c ∉ before c l := by
  intro h
  simpa using List.mem_takeWhile_imp h

theorem before_append_cons_after (h : c ∈ l) : before c l ++ c :: after c l = l := by
  induction l with
  | nil => cases h
  | cons b l ih =>
      by_cases hb : b = c
      · rw [hb, before_cons_self, after_cons_self, List.nil_append]
      · have hl : c ∈ l := (List.mem_cons.mp h).resolve_left (Ne.symm hb)
        rw [before_cons_of_ne hb, after_cons_of_ne hb, List.cons_append, ih hl]

theorem before_append_of_mem (h : c ∈ l₁) : before c (l₁ ++ l₂) = before c l₁ := by
  conv_lhs => rw [← before_append_cons_after h, List.append_assoc]
  rw [before_append_of_notMem notMem_before, List.cons_append, before_cons_self, List.append_nil]

theorem after_append_of_mem (h : c ∈ l₁) : after c (l₁ ++ l₂) = after c l₁ ++ l₂ := by
  conv_lhs => rw [← before_append_cons_after h, List.append_assoc]
  rw [after_append_of_notMem notMem_before, List.cons_append, after_cons_self]

theorem replace_cons_of_ne {b : α} (h : b ≠ c) :
    (b :: l).replace c d = b :: l.replace c d := by
  rw [List.replace_cons, beq_false_of_ne h.symm]

/-- A list with its first `c` overwritten reads up to that place, or farther if `p` goes on
there. -/
theorem takeWhile_replace {p : α → Bool} (hd : p d = false) :
    (l.replace c d).takeWhile p = l.takeWhile fun b ↦ p b && b ≠ c := by
  induction l with
  | nil => rfl
  | cons b l ih =>
      by_cases hb : b = c
      · rw [hb, List.replace_cons_self, List.takeWhile_cons_of_neg (by simp [hd]),
          List.takeWhile_cons_of_neg (by simp)]
      · rw [replace_cons_of_ne hb, List.takeWhile_cons, List.takeWhile_cons, ih]
        simp [hb]

/-- Where `p` stops anyway, an overwritten element makes no difference. -/
theorem takeWhile_drop_replace {p : α → Bool} (hc : p c = false) (hd : p d = false) (n : ℕ) :
    ((l.replace c d).drop n).takeWhile p = (l.drop n).takeWhile p := by
  induction l generalizing n with
  | nil => rfl
  | cons b l ih =>
      by_cases hb : b = c
      · rw [hb, List.replace_cons_self]
        cases n with
        | zero => rw [List.drop_zero, List.drop_zero, List.takeWhile_cons_of_neg (by simp [hd]),
            List.takeWhile_cons_of_neg (by simp [hc])]
        | succ n => rfl
      · rw [replace_cons_of_ne hb]
        cases n with
        | zero =>
            rw [List.drop_zero, List.drop_zero, List.takeWhile_cons, List.takeWhile_cons]
            have hl := ih 0
            rw [List.drop_zero, List.drop_zero] at hl
            rw [hl]
        | succ n => exact ih n

theorem mem_replace_of_ne {b : α} (hc : b ≠ c) (hd : b ≠ d) : b ∈ l.replace c d ↔ b ∈ l := by
  induction l with
  | nil => rfl
  | cons a l ih =>
      by_cases ha : a = c
      · rw [ha, List.replace_cons_self, List.mem_cons, List.mem_cons]
        exact or_congr_left ⟨fun h ↦ absurd h hd, fun h ↦ absurd h hc⟩
      · rw [replace_cons_of_ne ha, List.mem_cons, List.mem_cons, ih]

omit [DecidableEq α] in
theorem takeWhile_congr {p q : α → Bool} (h : ∀ b ∈ l, p b = q b) :
    l.takeWhile p = l.takeWhile q := by
  induction l with
  | nil => rfl
  | cons b l ih =>
      rw [List.takeWhile_cons, List.takeWhile_cons, h b List.mem_cons_self,
        ih fun a ha ↦ h a (List.mem_cons_of_mem _ ha)]

omit [DecidableEq α] in
theorem dropWhile_append_cons {p : α → Bool} (hc : p c = false) :
    (l₁ ++ c :: l₂).dropWhile p = l₁.dropWhile p ++ c :: l₂ := by
  induction l₁ with
  | nil => exact List.dropWhile_cons_of_neg (by simp [hc])
  | cons b l₁ ih =>
      rw [List.cons_append, List.dropWhile_cons, List.dropWhile_cons, ih]
      split <;> rfl

end MinOS
