import Mathlib.Data.Option.Basic
import Mathlib.Tactic.Common

/-!
# Compositing partial pictures

A picture colors some of the points.  A stack of pictures, listed from the
bottom, shows at each point the color of the topmost picture that has one there.
A canvas that shows a stack is kept up by painting again where something changed.
-/

namespace MinOS
namespace Composite

variable {α β : Type*}

/-- The topmost color of a stack. -/
def topmost : List (α → Option β) → α → Option β
  | [], _ => none
  | pic :: pics, a => (topmost pics a).or (pic a)

/-- What is seen after the pictures were painted on a canvas from the bottom. -/
def paint (pics : List (α → Option β)) (canvas : α → β) (a : α) : β :=
  (topmost pics a).getD (canvas a)

theorem topmost_append (pics tops : List (α → Option β)) (a : α) :
    topmost (pics ++ tops) a = (topmost tops a).or (topmost pics a) := by
  induction pics with
  | nil => simp [topmost]
  | cons pic pics ih => rw [List.cons_append, topmost, ih, topmost, Option.or_assoc]

theorem topmost_cons_append (pre post : List (α → Option β)) (pic : α → Option β) (a : α) :
    topmost (pre ++ pic :: post) a = (topmost (pic :: post) a).or (topmost pre a) :=
  topmost_append pre (pic :: post) a

theorem topmost_ne_none {pics : List (α → Option β)} {pic : α → Option β} (hpic : pic ∈ pics)
    {a : α} (ha : pic a ≠ none) : topmost pics a ≠ none := by
  induction pics with
  | nil => cases hpic
  | cons first rest ih =>
      rw [topmost, Ne, Option.or_eq_none_iff]
      rcases List.mem_cons.mp hpic with rfl | hrest
      · exact fun h ↦ ha h.2
      · exact fun h ↦ ih hrest h.1

/-- Painting layers with an operation that colors one picture at a time. -/
theorem read_foldl {σ γ : Type*} {draw : σ → γ → σ} (read : σ → α → β) (inv : σ → Prop)
    {pic : γ → α → Option β} (hinv : ∀ s c, inv s → inv (draw s c)) {a : α}
    (hdraw : ∀ s c, inv s → read (draw s c) a = (pic c a).getD (read s a))
    (cs : List γ) : ∀ s, inv s → read (cs.foldl draw s) a = paint (cs.map pic) (read s) a := by
  induction cs with
  | nil => exact fun s _ ↦ rfl
  | cons c cs ih =>
      intro s hs
      rw [List.foldl_cons, ih (draw s c) (hinv s c hs), List.map_cons, paint, paint, topmost,
        hdraw s c hs]
      cases topmost (cs.map pic) a <;> rfl

/-- A picture where only the points of a region are painted. -/
def clip (A : α → Prop) [DecidablePred A] (pic : α → Option β) (a : α) : Option β :=
  if A a then pic a else none

/-- A stack painted in a region: all is clipped, but the top may be painted
outside of the region as well. -/
inductive Clipped (A : α → Prop) [DecidablePred A] :
    List (α → Option β) → List (α → Option β) → Prop where
  | nil : Clipped A [] []
  | top {pic : α → Option β} : Clipped A [pic] [pic]
  | cons {qs pics : List (α → Option β)} {pic : α → Option β} (rest : Clipped A qs pics) :
      Clipped A (clip A pic :: qs) (pic :: pics)

theorem Clipped.topmost {A : α → Prop} [DecidablePred A] {qs pics : List (α → Option β)}
    (h : Clipped A qs pics) (a : α) :
    topmost qs a = topmost pics a ∨ ¬ A a ∧ topmost qs a = none := by
  induction h with
  | nil => exact .inl rfl
  | top => exact .inl rfl
  | @cons qs pics pic rest ih =>
      rw [Composite.topmost, Composite.topmost, clip]
      by_cases hA : A a
      · rw [if_pos hA, ih.resolve_right (fun hout ↦ hout.1 hA)]
        exact .inl rfl
      · rw [if_neg hA, Option.or_none]
        rcases ih with heq | hout
        · cases htop : Composite.topmost pics a with
          | none => exact .inr ⟨hA, heq.trans htop⟩
          | some c => exact .inl (heq.trans htop)
        · exact .inr hout

variable {pre post : List (α → Option β)} {old new : α → Option β} {A B : α → Prop}
  [DecidablePred A] [DecidablePred B] {canvas : α → β}

theorem paint_clipped {qs pics : List (α → Option β)} {a : α} (hqs : Clipped A qs pics)
    (hA : A a) (hcover : topmost pics a ≠ none) : some (paint qs canvas a) = topmost pics a := by
  obtain ⟨c, hc⟩ := Option.ne_none_iff_exists'.mp hcover
  rw [paint, (hqs.topmost a).resolve_right (fun hout ↦ hout.1 hA), hc]
  rfl

theorem topmost_replaced {a : α} (heq : new a = old a) :
    topmost (pre ++ new :: post) a = topmost (pre ++ old :: post) a := by
  rw [topmost_cons_append, topmost_cons_append, topmost, topmost, heq]

/-- A picture is replaced.  Painting the whole stack where the old one was and
then the new one, with what is above it, where that is. -/
theorem paint_replaced {qs qs' : List (α → Option β)} {a : α}
    (hqs : Clipped A qs (pre ++ new :: post)) (hqs' : Clipped B qs' (new :: post))
    (hcover : topmost (pre ++ new :: post) a ≠ none)
    (hold : ¬ A a → old a = none) (hnew : ¬ B a → new a = none)
    (hcanvas : some (canvas a) = topmost (pre ++ old :: post) a) :
    some (paint qs' (paint qs canvas) a) = topmost (pre ++ new :: post) a := by
  obtain ⟨c, hc⟩ := Option.ne_none_iff_exists'.mp hcover
  rw [paint, paint]
  rcases hqs.topmost a with heq | ⟨hA, hnone⟩
  · -- the first round painted this point, the second one can only repeat it
    rw [heq, hc, Option.getD_some]
    rcases hqs'.topmost a with heq' | ⟨_, hnone'⟩
    · rw [heq']
      rw [topmost_cons_append] at hc
      cases htop : topmost (new :: post) a with
      | none => rfl
      | some d =>
          rw [htop, Option.some_or] at hc
          exact hc
    · rw [hnone']
      rfl
  · rw [hnone, Option.getD_none]
    rw [topmost_cons_append, topmost, hold hA, Option.or_none] at hcanvas
    rw [topmost_cons_append]
    rcases hqs'.topmost a with heq' | ⟨hB, hnone'⟩
    · rw [heq']
      cases htop : topmost (new :: post) a with
      | some d => rfl
      | none =>
          rw [topmost, Option.or_eq_none_iff] at htop
          rw [htop.1, Option.none_or] at hcanvas
          rw [Option.none_or]
          exact hcanvas
    · rw [hnone', topmost, hnew hB, Option.or_none]
      exact hcanvas

/-- The colors of a picture change in a region.  Painting it again there, with
what is above it. -/
theorem paint_retouched {qs : List (α → Option β)} {a : α} (hqs : Clipped A qs (new :: post))
    (hout : ¬ A a → new a = old a) (hsame : new a = none → old a = none)
    (hcanvas : some (canvas a) = topmost (pre ++ old :: post) a) :
    some (paint qs canvas a) = topmost (pre ++ new :: post) a := by
  rw [topmost_cons_append] at hcanvas ⊢
  rw [paint]
  rcases hqs.topmost a with heq | ⟨hA, hnone⟩
  · rw [heq]
    cases htop : topmost (new :: post) a with
    | some d => rfl
    | none =>
        rw [topmost, Option.or_eq_none_iff] at htop
        rw [topmost, htop.1, hsame htop.2] at hcanvas
        exact hcanvas
  · rw [hnone, topmost, hout hA]
    exact hcanvas

end Composite
end MinOS
