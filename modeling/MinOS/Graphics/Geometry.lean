import Mathlib.Data.Int.Basic
import Mathlib.Tactic.Common

/-!
# Points, rectangles and colors

`graphics.hpp`, with coordinates that do not overflow `int`.
-/

namespace MinOS
namespace Graphics

@[ext] structure Vector2D where
  x : ℤ
  y : ℤ
deriving DecidableEq, Repr

namespace Vector2D

instance : Add Vector2D := ⟨fun a b ↦ ⟨a.x + b.x, a.y + b.y⟩⟩

instance : Sub Vector2D := ⟨fun a b ↦ ⟨a.x - b.x, a.y - b.y⟩⟩

@[simp] theorem add_x (a b : Vector2D) : (a + b).x = a.x + b.x := rfl

@[simp] theorem add_y (a b : Vector2D) : (a + b).y = a.y + b.y := rfl

@[simp] theorem sub_x (a b : Vector2D) : (a - b).x = a.x - b.x := rfl

@[simp] theorem sub_y (a b : Vector2D) : (a - b).y = a.y - b.y := rfl

def elementMax (a b : Vector2D) : Vector2D := ⟨max a.x b.x, max a.y b.y⟩

def elementMin (a b : Vector2D) : Vector2D := ⟨min a.x b.x, min a.y b.y⟩

end Vector2D

structure Rectangle where
  pos : Vector2D
  size : Vector2D
deriving DecidableEq, Repr

namespace Rectangle

/-- `operator&`. -/
def inter (lhs rhs : Rectangle) : Rectangle :=
  let lhsEnd := lhs.pos + lhs.size
  let rhsEnd := rhs.pos + rhs.size
  if lhsEnd.x < rhs.pos.x ∨ lhsEnd.y < rhs.pos.y ∨ rhsEnd.x < lhs.pos.x ∨ rhsEnd.y < lhs.pos.y then
    ⟨⟨0, 0⟩, ⟨0, 0⟩⟩
  else
    let newPos := Vector2D.elementMax lhs.pos rhs.pos
    ⟨newPos, Vector2D.elementMin lhsEnd rhsEnd - newPos⟩

/-- The pixels of a rectangle. -/
def Contains (r : Rectangle) (p : Vector2D) : Prop :=
  r.pos.x ≤ p.x ∧ p.x < r.pos.x + r.size.x ∧ r.pos.y ≤ p.y ∧ p.y < r.pos.y + r.size.y

instance (r : Rectangle) (p : Vector2D) : Decidable (r.Contains p) :=
  inferInstanceAs (Decidable (_ ∧ _ ∧ _ ∧ _))

/-- A rectangle with a size that lies in another one. -/
def Within (r s : Rectangle) : Prop :=
  (0 ≤ r.size.x ∧ 0 ≤ r.size.y) ∧ (s.pos.x ≤ r.pos.x ∧ s.pos.y ≤ r.pos.y) ∧
    r.pos.x + r.size.x ≤ s.pos.x + s.size.x ∧ r.pos.y + r.size.y ≤ s.pos.y + s.size.y

instance (r s : Rectangle) : Decidable (r.Within s) :=
  inferInstanceAs (Decidable ((_ ∧ _) ∧ (_ ∧ _) ∧ _ ∧ _))

theorem Within.contains {r s : Rectangle} (h : r.Within s) {p : Vector2D} (hp : r.Contains p) :
    s.Contains p := by
  simp only [Within] at h
  simp only [Contains] at hp ⊢
  omega

theorem contains_inter (lhs rhs : Rectangle) (p : Vector2D) :
    (lhs.inter rhs).Contains p ↔ lhs.Contains p ∧ rhs.Contains p := by
  simp only [inter]
  split_ifs with h
  · simp only [Vector2D.add_x, Vector2D.add_y] at h
    simp only [Contains]
    omega
  · simp only [Contains, Vector2D.elementMax, Vector2D.elementMin, Vector2D.add_x, Vector2D.add_y,
      Vector2D.sub_x, Vector2D.sub_y]
    omega

end Rectangle

structure PixelColor where
  r : UInt8
  g : UInt8
  b : UInt8
deriving DecidableEq, Repr

end Graphics
end MinOS
