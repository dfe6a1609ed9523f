import Mathlib.Algebra.BigOperators.Group.Finset.Basic
import Mathlib.Data.Fintype.Basic
import Mathlib.Tactic

/-!
# Placements in a family of queues

A family of queues holds every element at most once over all its queues: the
placement function says in which queue an element stands, if in any.  The
operations of a scheduler are the moves below.
-/

namespace MinOS

variable {ι α : Type*}

/-- The queues list exactly the placed elements, each once. -/
structure Placement (queues : ι → List α) (place : α → Option ι) : Prop where
  nodup : ∀ i, (queues i).Nodup
  mem_iff : ∀ i a, a ∈ queues i ↔ place a = some i

namespace Placement

variable {queues : ι → List α} {place : α → Option ι}

theorem notMem_of_none (h : Placement queues place) {a : α} (ha : place a = none) (i : ι) :
    a ∉ queues i := by
  rw [h.mem_iff, ha]
  exact Option.some_ne_none i ∘ Eq.symm

theorem sum_count [Fintype ι] [DecidableEq ι] [DecidableEq α] (h : Placement queues place)
    {a : α} {i : ι} (ha : place a = some i) : ∑ j, (queues j).count a = 1 := by
  rw [Finset.sum_eq_single i]
  · exact List.count_eq_one_of_mem (h.nodup i) ((h.mem_iff i a).mpr ha)
  · intro j _ hji
    apply List.count_eq_zero.mpr
    rw [h.mem_iff, ha]
    exact fun heq ↦ hji (Option.some.inj heq).symm
  · intro hi
    exact absurd (Finset.mem_univ i) hi

variable [DecidableEq ι]

theorem perm (h : Placement queues place) {i : ι} {queue : List α}
    (hperm : queue.Perm (queues i)) : Placement (Function.update queues i queue) place where
  nodup j := by
    by_cases hj : j = i
    · subst hj
      simpa using hperm.nodup_iff.mpr (h.nodup j)
    · simpa [hj] using h.nodup j
  mem_iff j a := by
    by_cases hj : j = i
    · subst hj
      simpa [hperm.mem_iff] using h.mem_iff j a
    · simpa [hj] using h.mem_iff j a

variable [DecidableEq α]

/-- Taking an element out of its queue. -/
theorem remove (h : Placement queues place) {a : α} {i : ι} (ha : place a = some i) :
    Placement (Function.update queues i ((queues i).filter (· ≠ a)))
      (Function.update place a none) where
  nodup j := by
    by_cases hj : j = i
    · subst hj
      simpa using (h.nodup j).filter _
    · simpa [hj] using h.nodup j
  mem_iff j b := by
    by_cases hb : b = a
    · subst hb
      by_cases hj : j = i
      · subst hj
        simp
      · have hmem := h.mem_iff j b
        rw [ha] at hmem
        simpa [hj, Ne.symm hj] using hmem
    · by_cases hj : j = i
      · subst hj
        simpa [hb] using h.mem_iff j b
      · simpa [hj, hb] using h.mem_iff j b

theorem removeHead (h : Placement queues place) {a : α} {i : ι} {rest : List α}
    (hqueue : queues i = a :: rest) :
    Placement (Function.update queues i rest) (Function.update place a none) := by
  have ha : place a = some i := (h.mem_iff i a).mp (by simp [hqueue])
  have hnodup := h.nodup i
  rw [hqueue, List.nodup_cons] at hnodup
  have hrest : (queues i).filter (· ≠ a) = rest := by
    rw [hqueue, List.filter_cons_of_neg (by simp), List.filter_eq_self]
    intro b hb
    simpa using fun heq : b = a ↦ hnodup.1 (heq ▸ hb)
  rw [← hrest]
  exact h.remove ha

theorem insert (h : Placement queues place) {a : α} {i : ι} {queue : List α}
    (ha : place a = none) (hperm : queue.Perm (a :: queues i)) :
    Placement (Function.update queues i queue) (Function.update place a (some i)) where
  nodup j := by
    by_cases hj : j = i
    · subst hj
      rw [Function.update_self, hperm.nodup_iff, List.nodup_cons]
      exact ⟨h.notMem_of_none ha j, h.nodup j⟩
    · simpa [hj] using h.nodup j
  mem_iff j b := by
    by_cases hj : j = i
    · subst hj
      by_cases hb : b = a
      · subst hb
        simp [hperm.mem_iff]
      · simpa [hperm.mem_iff, hb] using h.mem_iff j b
    · by_cases hb : b = a
      · subst hb
        simpa [hj, Ne.symm hj] using h.notMem_of_none ha j
      · simpa [hj, hb] using h.mem_iff j b

theorem pushBack (h : Placement queues place) {a : α} (ha : place a = none) (i : ι) :
    Placement (Function.update queues i (queues i ++ [a])) (Function.update place a (some i)) :=
  h.insert ha List.perm_append_comm

theorem pushFront (h : Placement queues place) {a : α} (ha : place a = none) (i : ι) :
    Placement (Function.update queues i (a :: queues i)) (Function.update place a (some i)) :=
  h.insert ha (List.Perm.refl _)

end Placement
end MinOS
