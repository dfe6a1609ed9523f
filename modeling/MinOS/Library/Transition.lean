import Mathlib.Data.List.Induction
import Mathlib.Logic.Relation

/-!
# Labelled transition systems

Runs of a labelled step relation, and the invariant rule for runs.  A guard
restricts the steps that a run may take, so a property that only holds while
every step stays clear of some situation is an invariant of the guarded system.
-/

namespace MinOS
namespace Transition

variable {σ : Type*} {α : Type*}

/-- The runs of a labelled step relation, with the labels in order. -/
inductive Run (step : σ → α → σ → Prop) : σ → List α → σ → Prop where
  | nil (s : σ) : Run step s [] s
  | snoc {s t u : σ} {as : List α} {a : α}
      (run : Run step s as t) (last : step t a u) : Run step s (as ++ [a]) u

/-- A step that is only taken when the guard allows it in its first state. -/
def Guarded (guard : σ → α → Prop) (step : σ → α → σ → Prop) (s : σ) (a : α) (t : σ) : Prop :=
  guard s a ∧ step s a t

theorem Run.invariant {step : σ → α → σ → Prop} {inv : σ → Prop}
    (hstep : ∀ s a t, inv s → step s a t → inv t)
    {s t : σ} {as : List α} (hrun : Run step s as t) (hs : inv s) : inv t := by
  induction hrun with
  | nil => exact hs
  | snoc run last ih => exact hstep _ _ _ ih last

theorem Run.single {step : σ → α → σ → Prop} {s t : σ} {a : α} (h : step s a t) :
    Run step s [a] t :=
  .snoc (.nil s) h

theorem Run.head {step : σ → α → σ → Prop} {s t u : σ} {a : α} {as : List α}
    (first : step s a t) (hrun : Run step t as u) : Run step s (a :: as) u := by
  induction hrun with
  | nil => exact .single first
  | snoc run last ih => exact .snoc ih last

theorem Run.append {step : σ → α → σ → Prop} {s t u : σ} {as bs : List α}
    (hrun : Run step s as t) (hmore : Run step t bs u) : Run step s (as ++ bs) u := by
  induction hmore with
  | nil => simpa using hrun
  | snoc run last ih =>
      rw [← List.append_assoc]
      exact .snoc ih last

theorem Run.mono {step step' : σ → α → σ → Prop}
    (hle : ∀ s a t, step s a t → step' s a t) {s t : σ} {as : List α}
    (hrun : Run step s as t) : Run step' s as t := by
  induction hrun with
  | nil => exact .nil s
  | snoc run last ih => exact .snoc ih (hle _ _ _ last)

/-! ## Steps that may fail -/

variable {f : σ → α → Option σ}

/-- An invariant that knows the labels so far.  No step of a list fails if none fails
where the invariant holds. -/
theorem foldlM_invariant (inv : List α → σ → Prop) {as : List α}
    (hstep : ∀ pre a, pre ++ [a] <+: as → ∀ s, inv pre s →
      ∃ t, f s a = some t ∧ inv (pre ++ [a]) t) {s : σ} (hs : inv [] s) :
    ∃ t, as.foldlM f s = some t ∧ inv as t := by
  induction as using List.reverseRecOn with
  | nil => exact ⟨s, rfl, hs⟩
  | append_singleton as a ih =>
      obtain ⟨t, hrun, ht⟩ :=
        ih fun pre b hpre ↦ hstep pre b (hpre.trans (List.prefix_append as [a]))
      obtain ⟨u, hlast, hu⟩ := hstep as a List.prefix_rfl t ht
      refine ⟨u, ?_, hu⟩
      rw [List.foldlM_append, hrun]
      change [a].foldlM f t = some u
      rw [List.foldlM_cons, hlast]
      rfl

/-- A loop that counts from 0. -/
theorem foldlM_range_invariant {f : σ → ℕ → Option σ} (inv : ℕ → σ → Prop) {n : ℕ}
    (hstep : ∀ k < n, ∀ s, inv k s → ∃ t, f s k = some t ∧ inv (k + 1) t) {s : σ}
    (hs : inv 0 s) : ∃ t, (List.range n).foldlM f s = some t ∧ inv n t := by
  induction n with
  | zero => exact ⟨s, rfl, hs⟩
  | succ n ih =>
      obtain ⟨t, hrun, ht⟩ := ih fun k hk ↦ hstep k (Nat.lt_succ_of_lt hk)
      obtain ⟨u, hlast, hu⟩ := hstep n (Nat.lt_succ_self n) t ht
      refine ⟨u, ?_, hu⟩
      rw [List.range_succ, List.foldlM_append, hrun]
      change [n].foldlM f t = some u
      rw [List.foldlM_cons, hlast]
      rfl

end Transition
end MinOS
