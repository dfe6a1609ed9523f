import Mathlib.Data.Multiset.Filter
import Mathlib.Data.Multiset.Count
import Mathlib.Order.Basic
import Mathlib.Tactic

/-!
# Priority queues

A priority queue as the multiset of its elements, with smaller keys served
first.  Which of several elements with the same key is at the top is left open.
-/

namespace MinOS
namespace PriorityQueue

variable {α : Type*} {β : Type*} [LinearOrder β]

/-- An element that the queue may have at its top. -/
def IsTop (key : α → β) (queue : Multiset α) (x : α) : Prop :=
  x ∈ queue ∧ ∀ y ∈ queue, key x ≤ key y

theorem exists_isTop (key : α → β) {queue : Multiset α} (h : queue ≠ 0) :
    ∃ x, IsTop key queue x := by
  induction queue using Multiset.induction_on with
  | empty => exact absurd rfl h
  | cons a rest ih =>
      by_cases hrest : rest = 0
      · subst hrest
        exact ⟨a, by simp, fun y hy ↦ by simp_all⟩
      · obtain ⟨x, hx, hmin⟩ := ih hrest
        rcases le_total (key a) (key x) with hle | hle
        · refine ⟨a, Multiset.mem_cons_self a rest, ?_⟩
          intro y hy
          rcases Multiset.mem_cons.mp hy with rfl | hy
          · exact le_rfl
          · exact hle.trans (hmin y hy)
        · refine ⟨x, Multiset.mem_cons_of_mem hx, ?_⟩
          intro y hy
          rcases Multiset.mem_cons.mp hy with rfl | hy
          · exact hle
          · exact hmin y hy

/-- Taking an element out leaves the others with their multiplicities. -/
theorem filter_erase [DecidableEq α] (p : α → Prop) [DecidablePred p] {queue : Multiset α} {x : α}
    (hx : x ∈ queue) :
    queue.filter p = (if p x then {x} else 0) + (queue.erase x).filter p := by
  conv_lhs => rw [← Multiset.cons_erase hx]
  split_ifs with hp
  · rw [Multiset.filter_cons_of_pos _ hp]
    rfl
  · rw [Multiset.filter_cons_of_neg _ hp, zero_add]

end PriorityQueue
end MinOS
