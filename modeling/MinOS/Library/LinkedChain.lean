import Mathlib.Data.List.Nodup
import Mathlib.Logic.Function.Basic
import Mathlib.Tactic

/-!
# Chains in a successor table

A table sends every cell to its successor, and some values mark the end of a
chain.  A list of cells is a chain when each cell leads to the next and the
last one leads to an end mark.  Chains of one table are determined by their
first cell, so they never repeat a cell, and two chains that share a cell share
everything after it.
-/

namespace MinOS

variable {α : Type*}

/-- The cells of the list follow one another in the table and the last one
holds an end mark. -/
def LinkedChain (next : α → α) (stop : α → Prop) : List α → Prop
  | [] => False
  | [x] => stop (next x)
  | x :: y :: rest => next x = y ∧ ¬ stop y ∧ LinkedChain next stop (y :: rest)

/-- The table after `cells` were linked, in order, behind `last`, with the end
mark `eoc` at the new end. -/
def linkAfter [DecidableEq α] (next : α → α) (eoc : α) : α → List α → α → α
  | last, [] => Function.update next last eoc
  | last, x :: cells => linkAfter (Function.update next last x) eoc x cells

namespace LinkedChain

variable {next next' : α → α} {stop : α → Prop}

theorem ne_nil {l : List α} (h : LinkedChain next stop l) : l ≠ [] := by
  rintro rfl
  exact h

/-- A chain only depends on the table at its own cells. -/
theorem congr {l : List α} (h : LinkedChain next stop l) (heq : ∀ x ∈ l, next' x = next x) :
    LinkedChain next' stop l := by
  induction l with
  | nil => exact h
  | cons x rest ih =>
      cases rest with
      | nil =>
          have hx := heq x (by simp)
          simpa [LinkedChain, hx] using h
      | cons y rest =>
          obtain ⟨hnext, hstop, htail⟩ := h
          refine ⟨?_, hstop, ih htail fun z hz ↦ heq z (by simp [hz])⟩
          rw [heq x (by simp), hnext]

theorem suffix {front back : List α} (h : LinkedChain next stop (front ++ back))
    (hne : back ≠ []) : LinkedChain next stop back := by
  induction front with
  | nil => exact h
  | cons x front ih =>
      apply ih
      cases hrest : front ++ back with
      | nil => simp_all
      | cons y rest =>
          rw [List.cons_append, hrest] at h
          exact h.2.2

theorem unique {l l' : List α} (h : LinkedChain next stop l) (h' : LinkedChain next stop l')
    (hhead : l.head? = l'.head?) : l = l' := by
  induction l generalizing l' with
  | nil => exact absurd rfl h.ne_nil
  | cons x rest ih =>
      cases l' with
      | nil => exact absurd rfl h'.ne_nil
      | cons x' rest' =>
          obtain rfl : x = x' := by simpa using hhead
          cases rest with
          | nil =>
              cases rest' with
              | nil => rfl
              | cons y' rest' =>
                  obtain ⟨hnext, hstop, -⟩ := h'
                  exact absurd (hnext ▸ h) hstop
          | cons y rest =>
              cases rest' with
              | nil =>
                  obtain ⟨hnext, hstop, -⟩ := h
                  exact absurd (hnext ▸ h') hstop
              | cons y' rest' =>
                  have hy : y = y' := h.1.symm.trans h'.1
                  rw [ih h.2.2 h'.2.2 (by simp [hy])]

theorem nodup {l : List α} (h : LinkedChain next stop l) : l.Nodup := by
  induction l with
  | nil => exact List.nodup_nil
  | cons x rest ih =>
      have hx : x ∉ rest := by
        intro hmem
        obtain ⟨front, back, hsplit⟩ := List.append_of_mem hmem
        have hwhole : LinkedChain next stop ((x :: front) ++ x :: back) := by
          simpa [hsplit] using h
        have hback : LinkedChain next stop (x :: back) := hwhole.suffix (by simp)
        have heq := unique h hback rfl
        have hlen := congrArg List.length heq
        rw [hsplit] at hlen
        simp at hlen
        omega
      cases rest with
      | nil => simp
      | cons y rest => exact List.nodup_cons.mpr ⟨hx, ih h.2.2⟩

theorem next_of_getElem {l : List α} (h : LinkedChain next stop l) {i : ℕ} (hi : i + 1 < l.length) :
    next l[i] = l[i + 1] ∧ ¬ stop l[i + 1] := by
  induction l generalizing i with
  | nil => simp at hi
  | cons x rest ih =>
      cases rest with
      | nil => simp at hi
      | cons y rest =>
          cases i with
          | zero => exact ⟨h.1, h.2.1⟩
          | succ i => exact ih h.2.2 (by simpa using hi)

theorem stop_getLast {l : List α} (h : LinkedChain next stop l) :
    stop (next (l.getLast h.ne_nil)) := by
  induction l with
  | nil => exact absurd rfl h.ne_nil
  | cons x rest ih =>
      cases rest with
      | nil => exact h
      | cons y rest =>
          rw [List.getLast_cons (by simp)]
          exact ih h.2.2

end LinkedChain

section Link

variable [DecidableEq α] {next : α → α} {stop : α → Prop} {eoc : α}

theorem linkAfter_of_notMem {last y : α} {cells : List α} (hy : y ∉ last :: cells) :
    linkAfter next eoc last cells y = next y := by
  induction cells generalizing next last with
  | nil =>
      have hne : y ≠ last := by simpa using hy
      simp [linkAfter, hne]
  | cons x cells ih =>
      have hne : y ≠ last := fun h ↦ hy (by simp [h])
      rw [linkAfter, ih fun h ↦ hy (List.mem_cons_of_mem _ h), Function.update_of_ne hne]

/-- Linking fresh cells behind the last cell of a chain extends the chain by them. -/
theorem LinkedChain.link {front cells : List α} {last : α}
    (h : LinkedChain next stop (front ++ [last])) (heoc : stop eoc)
    (hcells : ∀ x ∈ cells, ¬ stop x) (hnodup : (front ++ last :: cells).Nodup) :
    LinkedChain (linkAfter next eoc last cells) stop (front ++ last :: cells) := by
  induction front with
  | nil =>
      clear h
      induction cells generalizing next last with
      | nil => simpa [LinkedChain, linkAfter] using heoc
      | cons x cells ih =>
          have hnd : (last :: x :: cells).Nodup := hnodup
          have hlast : last ∉ x :: cells := (List.nodup_cons.mp hnd).1
          refine ⟨?_, hcells x (by simp), ?_⟩
          · rw [linkAfter, linkAfter_of_notMem hlast, Function.update_self]
          · exact ih (fun y hy ↦ hcells y (by simp [hy])) (List.nodup_cons.mp hnd).2
  | cons x front ih =>
      have hnd := List.nodup_cons.mp hnodup
      have hx : x ∉ last :: cells := fun hmem ↦ hnd.1 (List.mem_append_right _ hmem)
      have hkeep : linkAfter next eoc last cells x = next x := linkAfter_of_notMem hx
      cases front with
      | nil =>
          obtain ⟨hnext, hstop, htail⟩ := h
          exact ⟨hkeep.trans hnext, hstop, ih htail hnd.2⟩
      | cons y front =>
          obtain ⟨hnext, hstop, htail⟩ := h
          exact ⟨hkeep.trans hnext, hstop, ih htail hnd.2⟩

end Link
end MinOS
