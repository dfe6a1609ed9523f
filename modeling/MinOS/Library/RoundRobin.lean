import Mathlib.Tactic
import MinOS.Library.Transition

/-!
# Round robin with priorities

A family of queues and the level that is being served.  The element at the front of the queue
of this level has its turn, and leaves the front when its turn ends.  An element that waits
comes closer to the front with each turn of its queue and is never passed by a newcomer.
-/

namespace MinOS
namespace Transition

variable {σ α : Type*}

/-- The potential method: what each step costs is paid by the potential or by the step's gain. -/
theorem Run.potential {step : σ → α → σ → Prop} (inv : σ → Prop) (φ : σ → ℕ) (cost gain : α → ℕ)
    (hstep : ∀ s a t, inv s → step s a t → inv t ∧ cost a + φ t ≤ φ s + gain a)
    {s t : σ} {as : List α} (hrun : Run step s as t) (hs : inv s) :
    inv t ∧ (as.map cost).sum + φ t ≤ φ s + (as.map gain).sum := by
  induction hrun with
  | nil => exact ⟨hs, by simp⟩
  | snoc run last ih =>
      obtain ⟨ht, hsum⟩ := ih
      obtain ⟨hu, hlast⟩ := hstep _ _ _ ht last
      refine ⟨hu, ?_⟩
      simp only [List.map_append, List.map_singleton, List.sum_append, List.sum_singleton]
      omega

end Transition

namespace RoundRobin

open Transition

variable {ι α : Type*}

structure State (ι α : Type*) where
  queues : ι → List α
  level : ι

/-- What may happen to the queues: an element joins the back of a queue, an element that does not
have its turn leaves, a turn ends on a level and the element stays or not, or the element that has
its turn takes it along from one level to another. -/
inductive Event (ι α : Type*) where
  | join (a : α) (i : ι)
  | leave (a : α) (i : ι)
  | turn (i : ι) (stays : Bool)
  | change (i j : ι)

/-- The queue behind an element whose turn has ended. -/
def requeue (a : α) (rest : List α) (stays : Bool) : List α := if stays then rest ++ [a] else rest

/-- The level is the highest one whose queue is not empty. -/
def State.AtTop [Preorder ι] (s : State ι α) : Prop :=
  s.queues s.level ≠ [] ∧ ∀ j, s.level < j → s.queues j = []

/-- A turn has ended. -/
def Event.turns : Event ι α → ℕ
  | .turn _ _ => 1
  | _ => 0

section Order

variable {s : State ι α} {a : α} {i : ι}

/-- The element does not leave, and it is not its turn that ends or changes its level. -/
def Waits (a : α) (s : State ι α) : Event ι α → Prop
  | .join _ _ => True
  | .leave b _ => b ≠ a
  | _ => (s.queues s.level).head? ≠ some a

theorem ne_of_head?_ne (h : (s.queues s.level).head? ≠ some a) {b : α} {rest : List α}
    (hfront : s.queues s.level = b :: rest) : b ≠ a := by
  rintro rfl
  exact h (by rw [hfront, List.head?_cons])

variable [LinearOrder ι]

/-- The level that is served when the event happens is at most this one. -/
def Event.Below (i : ι) : Event ι α → Prop
  | .turn j _ => j ≤ i
  | .change j _ => j ≤ i
  | _ => True

theorem State.AtTop.le_level (h : s.AtTop) (hmem : a ∈ s.queues i) : i ≤ s.level := by
  by_contra hlt
  exact List.ne_nil_of_mem hmem (h.2 i (not_le.mp hlt))

end Order

section Steps

variable [LinearOrder ι] [DecidableEq α]

inductive Step : State ι α → Event ι α → State ι α → Prop where
  | join {s : State ι α} {a : α} (i : ι) (fresh : ∀ j, a ∉ s.queues j) :
      Step s (.join a i) ⟨Function.update s.queues i (s.queues i ++ [a]), s.level⟩
  | leave {s : State ι α} {a : α} (i : ι) (waits : (s.queues s.level).head? ≠ some a) :
      Step s (.leave a i) ⟨Function.update s.queues i ((s.queues i).filter (· ≠ a)), s.level⟩
  | turn {s : State ι α} {a : α} {rest : List α} {i : ι} (stays : Bool)
      (front : s.queues s.level = a :: rest)
      (top : State.AtTop ⟨Function.update s.queues s.level (requeue a rest stays), i⟩) :
      Step s (.turn s.level stays) ⟨Function.update s.queues s.level (requeue a rest stays), i⟩
  | change {s : State ι α} {a : α} {rest : List α} {i : ι} (front : s.queues s.level = a :: rest)
      (hne : i ≠ s.level) :
      Step s (.change s.level i)
        ⟨Function.update (Function.update s.queues s.level rest) i (a :: s.queues i), i⟩

/-- A turn of this level has ended. -/
def Event.turnsAt (i : ι) : Event ι α → ℕ
  | .turn j _ => if j = i then 1 else 0
  | _ => 0

/-- An element has come to the front of this level from another one. -/
def Event.changesTo (i : ι) : Event ι α → ℕ
  | .change _ j => if j = i then 1 else 0
  | _ => 0

/-! ## The place of an element in a queue -/

section Place

variable {a b : α} {l : List α}

theorem idxOf_requeue (hmem : a ∈ b :: l) (hne : b ≠ a) (stays : Bool) :
    a ∈ requeue b l stays ∧ (requeue b l stays).idxOf a + 1 = (b :: l).idxOf a := by
  have hl : a ∈ l := (List.mem_cons.mp hmem).resolve_left hne.symm
  rw [List.idxOf_cons_ne l hne]
  cases stays with
  | false => exact ⟨hl, rfl⟩
  | true => exact ⟨List.mem_append_left _ hl, by simp [requeue, List.idxOf_append_of_mem hl]⟩

theorem idxOf_filter_le (hne : b ≠ a) (l : List α) :
    (l.filter (· ≠ b)).idxOf a ≤ l.idxOf a := by
  induction l with
  | nil => exact le_rfl
  | cons c l ih =>
      by_cases hcb : c = b
      · rw [List.filter_cons_of_neg (by simpa using hcb), List.idxOf_cons_ne l (hcb ▸ hne)]
        exact ih.trans (Nat.le_succ _)
      · rw [List.filter_cons_of_pos (by simpa using hcb)]
        by_cases hca : c = a
        · simp [hca]
        · rw [List.idxOf_cons_ne _ hca, List.idxOf_cons_ne _ hca]
          exact Nat.succ_le_succ ih

end Place

/-! ## Waiting -/

section Waiting

variable {s t : State ι α} {e : Event ι α} {a : α} {i : ι}

/-- What a step does to the queue in which an element waits. -/
theorem Step.waits (hstep : Step s e t) (hwaits : Waits a s e) (hmem : a ∈ s.queues i) :
    a ∈ t.queues i ∧
      e.turnsAt i + (t.queues i).idxOf a ≤ (s.queues i).idxOf a + e.changesTo i := by
  cases hstep with
  | @join b j fresh =>
      by_cases hj : i = j
      · subst hj
        simp [hmem, List.idxOf_append_of_mem, Event.turnsAt]
      · simp [hj, hmem, Event.turnsAt]
  | @leave b j waits =>
      have hne : b ≠ a := hwaits
      by_cases hj : i = j
      · subst hj
        simp only [Function.update_self, Event.turnsAt, Event.changesTo]
        refine ⟨List.mem_filter.mpr ⟨hmem, by simpa using hne.symm⟩, ?_⟩
        have hle := idxOf_filter_le hne (s.queues i)
        omega
      · simp [hj, hmem, Event.turnsAt]
  | @turn b rest j stays front top =>
      by_cases hi : i = s.level
      · subst hi
        obtain ⟨hmem', hidx⟩ := idxOf_requeue (front ▸ hmem) (ne_of_head?_ne hwaits front) stays
        simp only [Function.update_self, Event.turnsAt, Event.changesTo, if_true, front]
        exact ⟨hmem', by omega⟩
      · simp [hi, hmem, Event.turnsAt, Ne.symm hi]
  | @change b rest j front hne =>
      have hba := ne_of_head?_ne hwaits front
      simp only [Event.turnsAt, Event.changesTo]
      by_cases hj : i = j
      · subst hj
        rw [Function.update_self, List.idxOf_cons_ne _ hba]
        refine ⟨List.mem_cons_of_mem b hmem, ?_⟩
        simp only [if_true]
        omega
      · rw [Function.update_of_ne hj, if_neg (Ne.symm hj)]
        by_cases hi : i = s.level
        · subst hi
          rw [Function.update_self, front, List.idxOf_cons_ne rest hba]
          rw [front] at hmem
          exact ⟨(List.mem_cons.mp hmem).resolve_left hba.symm, by omega⟩
        · rw [Function.update_of_ne hi]
          exact ⟨hmem, by omega⟩

/-- While an element waits, the turns of its level are at most as many as the elements in front
of it, and those that have come to the front from other levels. -/
theorem turnsAt_le {es : List (Event ι α)} (hrun : Run (Guarded (Waits a) Step) s es t)
    (hmem : a ∈ s.queues i) : a ∈ t.queues i ∧
      (es.map (Event.turnsAt i)).sum + (t.queues i).idxOf a ≤
        (s.queues i).idxOf a + (es.map (Event.changesTo i)).sum :=
  hrun.potential (fun s ↦ a ∈ s.queues i) (fun s ↦ (s.queues i).idxOf a) _ _
    (fun _ _ _ hmem hstep ↦ hstep.2.waits hstep.1 hmem) hmem

/-- The elements in front of a waiting one, and one more while a lower level is served. -/
def ahead (a : α) (i : ι) (s : State ι α) : ℕ :=
  (s.queues i).idxOf a + if s.level < i then 1 else 0

/-- While no higher level is served every turn counts. -/
theorem Step.ahead (hstep : Step s e t) (hwaits : Waits a s e) (hlow : e.Below i)
    (hmem : a ∈ s.queues i) : a ∈ t.queues i ∧ e.turns + ahead a i t ≤ ahead a i s := by
  obtain ⟨hmem', hle⟩ := hstep.waits hwaits hmem
  refine ⟨hmem', ?_⟩
  unfold RoundRobin.ahead
  cases hstep with
  | join j fresh =>
      simp only [Event.turns, Event.turnsAt, Event.changesTo] at hle ⊢
      omega
  | leave j waits =>
      simp only [Event.turns, Event.turnsAt, Event.changesTo] at hle ⊢
      omega
  | @turn b rest j stays front top =>
      have hhigh : ¬ j < i := not_lt.mpr (top.le_level hmem')
      simp only [Event.turns, Event.turnsAt, Event.changesTo, if_neg hhigh] at hle ⊢
      rcases lt_or_eq_of_le (show s.level ≤ i from hlow) with hlt | heq
      · rw [if_neg hlt.ne] at hle
        rw [if_pos hlt]
        omega
      · rw [if_pos heq] at hle
        omega
  | @change b rest j front hne =>
      simp only [Event.turns, Event.turnsAt, Event.changesTo] at hle ⊢
      by_cases hj : j = i
      · subst hj
        rw [if_pos rfl] at hle
        rw [if_neg (lt_irrefl j), if_pos (lt_of_le_of_ne (show s.level ≤ j from hlow) hne.symm)]
        omega
      · rw [if_neg hj] at hle
        rcases lt_or_eq_of_le (show s.level ≤ i from hlow) with hlt | heq
        · rw [if_pos hlt]
          split_ifs <;> omega
        · -- the element in front of it has gone
          subst heq
          have hbehind : (rest.idxOf a) + 1 = (s.queues s.level).idxOf a := by
            rw [front, List.idxOf_cons_ne _ (ne_of_head?_ne hwaits front)]
          rw [Function.update_of_ne (Ne.symm hj), Function.update_self] at hle ⊢
          rw [if_neg (lt_irrefl s.level)]
          split_ifs <;> omega

/-- While an element waits and no higher level is served, all turns are at most as many as the
elements in front of it, and one that a lower level has at the beginning. -/
theorem turns_le {es : List (Event ι α)}
    (hrun : Run (Guarded (fun s e ↦ Waits a s e ∧ e.Below i) Step) s es t)
    (hmem : a ∈ s.queues i) : a ∈ t.queues i ∧
      (es.map Event.turns).sum + ahead a i t ≤ ahead a i s := by
  have hpotential := hrun.potential (fun s ↦ a ∈ s.queues i) (RoundRobin.ahead a i) Event.turns
    (fun _ ↦ 0) (fun _ _ _ hmem hstep ↦ hstep.2.ahead hstep.1.1 hstep.1.2 hmem) hmem
  simpa using hpotential

end Waiting

end Steps

end RoundRobin
end MinOS
