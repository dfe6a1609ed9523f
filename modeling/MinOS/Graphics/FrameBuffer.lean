import MinOS.Graphics.Geometry
import Mathlib.Tactic.Linarith
import Mathlib.Tactic.Ring

/-!
# Frame buffers

`Copy` and `Move` of `frame_buffer.cpp`.  The buffer is read in cells of one
pixel; `memcpy` takes whole pixels of a row.
-/

namespace MinOS
namespace Graphics

inductive PixelFormat where
  | kPixelRGBResv8BitPerColor
  | kPixelBGRResv8BitPerColor
deriving DecidableEq, Repr

structure FrameBuffer where
  horizontalResolution : ℤ
  verticalResolution : ℤ
  pixelsPerScanLine : ℤ
  pixelFormat : PixelFormat
  buf : ℤ → PixelColor
  resolution_le_line : horizontalResolution ≤ pixelsPerScanLine

/-- `memcpy` of `n` pixels from `s` on, all read before the first is written. -/
def copyRow (dst src : ℤ → PixelColor) (d s n : ℤ) : ℤ → PixelColor := fun i ↦
  if d ≤ i ∧ i < d + n then src (s + (i - d)) else dst i

/-- The rows of `Copy`, from another buffer. -/
def copyRows (src : ℤ → PixelColor) (n dstLine srcLine : ℤ) :
    ℕ → ℤ → ℤ → (ℤ → PixelColor) → ℤ → PixelColor
  | 0, _, _, buf => buf
  | rows + 1, d, s, buf =>
      copyRows src n dstLine srcLine rows (d + dstLine) (s + srcLine) (copyRow buf src d s n)

/-- The rows of `Move`, inside one buffer. -/
def moveRows (n line : ℤ) : ℕ → ℤ → ℤ → (ℤ → PixelColor) → ℤ → PixelColor
  | 0, _, _, buf => buf
  | rows + 1, d, s, buf => moveRows n line rows (d + line) (s + line) (copyRow buf buf d s n)

namespace FrameBuffer

def frameAddrAt (fb : FrameBuffer) (pos : Vector2D) : ℤ := fb.pixelsPerScanLine * pos.y + pos.x

def size (fb : FrameBuffer) : Vector2D := ⟨fb.horizontalResolution, fb.verticalResolution⟩

def outline (fb : FrameBuffer) : Rectangle := ⟨⟨0, 0⟩, fb.size⟩

/-- `Initialize` for a buffer of its own. -/
def ofSize (width height : ℤ) (format : PixelFormat) : FrameBuffer where
  horizontalResolution := width
  verticalResolution := height
  pixelsPerScanLine := width
  pixelFormat := format
  buf := fun _ ↦ ⟨0, 0, 0⟩
  resolution_le_line := le_rfl

/-- The color that is stored for a position. -/
def pixelAt (fb : FrameBuffer) (pos : Vector2D) : PixelColor := fb.buf (fb.frameAddrAt pos)

/-- `Write` of the buffer's writer. -/
def write (fb : FrameBuffer) (pos : Vector2D) (c : PixelColor) : FrameBuffer :=
  { fb with buf := Function.update fb.buf (fb.frameAddrAt pos) c }

/-- The `copy_area` of `Copy`. -/
def copyArea (fb : FrameBuffer) (dstPos : Vector2D) (src : FrameBuffer) (srcArea : Rectangle) :
    Rectangle :=
  let srcAreaShifted : Rectangle := ⟨dstPos, srcArea.size⟩
  let srcOutline : Rectangle := ⟨dstPos - srcArea.pos, src.size⟩
  (fb.outline.inter srcOutline).inter srcAreaShifted

def copy (fb : FrameBuffer) (dstPos : Vector2D) (src : FrameBuffer) (srcArea : Rectangle) :
    FrameBuffer :=
  if fb.pixelFormat ≠ src.pixelFormat then fb
  else
    let area := fb.copyArea dstPos src srcArea
    if area.size.x ≤ 0 ∨ area.size.y ≤ 0 then fb
    else
      let srcStartPos := srcArea.pos + (area.pos - dstPos)
      { fb with
        buf := copyRows src.buf area.size.x fb.pixelsPerScanLine src.pixelsPerScanLine
          area.size.y.toNat (fb.frameAddrAt area.pos) (src.frameAddrAt srcStartPos) fb.buf }

def move (fb : FrameBuffer) (dstPos : Vector2D) (src : Rectangle) : FrameBuffer :=
  if dstPos.y < src.pos.y then
    { fb with
      buf := moveRows src.size.x fb.pixelsPerScanLine src.size.y.toNat (fb.frameAddrAt dstPos)
        (fb.frameAddrAt src.pos) fb.buf }
  else
    { fb with
      buf := moveRows src.size.x (-fb.pixelsPerScanLine) src.size.y.toNat
        (fb.frameAddrAt (dstPos + ⟨0, src.size.y - 1⟩))
        (fb.frameAddrAt (src.pos + ⟨0, src.size.y - 1⟩)) fb.buf }

end FrameBuffer

/-! ## Rows and positions -/

/-- An index lies in a part of a row exactly when its position does. -/
theorem index_mem_row {w x y x₀ y₀ n : ℤ} (hx : 0 ≤ x ∧ x < w) (hx₀ : 0 ≤ x₀) (hn : x₀ + n ≤ w) :
    (w * y₀ + x₀ ≤ w * y + x ∧ w * y + x < w * y₀ + x₀ + n) ↔
      y = y₀ ∧ x₀ ≤ x ∧ x < x₀ + n := by
  constructor
  · rintro ⟨hlow, hhigh⟩
    have hy : y = y₀ := by
      rcases lt_trichotomy y y₀ with hlt | heq | hgt
      · have hle : w * (y + 1) ≤ w * y₀ := Int.mul_le_mul_of_nonneg_left (by omega) (by omega)
        rw [mul_add, mul_one] at hle
        omega
      · exact heq
      · have hle : w * (y₀ + 1) ≤ w * y := Int.mul_le_mul_of_nonneg_left (by omega) (by omega)
        rw [mul_add, mul_one] at hle
        omega
    subst hy
    omega
  · rintro ⟨rfl, hlow, hhigh⟩
    omega

theorem copyRow_at {w x y x₀ y₀ x₁ y₁ n : ℤ} {w' : ℤ} (dst src : ℤ → PixelColor)
    (hx : 0 ≤ x ∧ x < w) (hx₀ : 0 ≤ x₀) (hn : x₀ + n ≤ w) :
    copyRow dst src (w * y₀ + x₀) (w' * y₁ + x₁) n (w * y + x) =
      if y = y₀ ∧ x₀ ≤ x ∧ x < x₀ + n then src (w' * y₁ + (x - x₀ + x₁)) else dst (w * y + x) := by
  rw [copyRow]
  by_cases hhere : y = y₀ ∧ x₀ ≤ x ∧ x < x₀ + n
  · rw [if_pos ((index_mem_row hx hx₀ hn).mpr hhere), if_pos hhere, hhere.1]
    congr 1
    ring
  · rw [if_neg (mt (index_mem_row hx hx₀ hn).mp hhere), if_neg hhere]

/-- The first row of a move: no later row reads what it writes. -/
theorem copyRow_first {w x y x₀ y₀ x₁ y₁ n : ℤ} (buf : ℤ → PixelColor) (hx : 0 ≤ x ∧ x < w)
    (hx₀ : 0 ≤ x₀ ∧ x₀ + n ≤ w) (hx₁ : 0 ≤ x₁ ∧ x₁ + n ≤ w) {rest whole : Prop}
    [Decidable rest] [Decidable whole] (hwhole : whole ↔ rest ∨ y = y₀)
    (hsource : rest → y - y₀ + y₁ ≠ y₀) :
    (if rest ∧ x₀ ≤ x ∧ x < x₀ + n then
        copyRow buf buf (w * y₀ + x₀) (w * y₁ + x₁) n (w * (y - y₀ + y₁) + (x - x₀ + x₁))
      else copyRow buf buf (w * y₀ + x₀) (w * y₁ + x₁) n (w * y + x)) =
      if whole ∧ x₀ ≤ x ∧ x < x₀ + n then buf (w * (y - y₀ + y₁) + (x - x₀ + x₁))
      else buf (w * y + x) := by
  by_cases hcol : x₀ ≤ x ∧ x < x₀ + n
  · by_cases hrest : rest
    · rw [if_pos ⟨hrest, hcol⟩, if_pos ⟨hwhole.mpr (.inl hrest), hcol⟩,
        copyRow_at buf buf (by omega) hx₀.1 hx₀.2, if_neg fun h ↦ hsource hrest h.1]
    · rw [if_neg fun h ↦ hrest h.1, copyRow_at buf buf hx hx₀.1 hx₀.2]
      by_cases hfirst : y = y₀
      · rw [if_pos ⟨hfirst, hcol⟩, if_pos ⟨hwhole.mpr (.inr hfirst), hcol⟩, hfirst]
        congr 2
        ring
      · rw [if_neg fun h ↦ hfirst h.1, if_neg fun h ↦ (hwhole.mp h.1).elim hrest hfirst]
  · rw [if_neg fun h ↦ hcol h.2, if_neg fun h ↦ hcol h.2, copyRow_at buf buf hx hx₀.1 hx₀.2,
      if_neg fun h ↦ hcol h.2]

/-- Rows that go down, with the source below the target. -/
theorem moveRows_down {w x₀ x₁ n : ℤ} (hx₀ : 0 ≤ x₀ ∧ x₀ + n ≤ w) (hx₁ : 0 ≤ x₁ ∧ x₁ + n ≤ w)
    (rows : ℕ) : ∀ (y₀ y₁ : ℤ) (buf : ℤ → PixelColor), y₀ < y₁ → ∀ {x y : ℤ}, 0 ≤ x ∧ x < w →
      moveRows n w rows (w * y₀ + x₀) (w * y₁ + x₁) buf (w * y + x) =
        if (y₀ ≤ y ∧ y < y₀ + rows) ∧ x₀ ≤ x ∧ x < x₀ + n then
          buf (w * (y - y₀ + y₁) + (x - x₀ + x₁))
        else buf (w * y + x) := by
  induction rows with
  | zero =>
      intro y₀ y₁ buf _ x y _
      rw [moveRows, if_neg (by omega)]
  | succ rows ih =>
      intro y₀ y₁ buf hlt x y hx
      have hd : w * y₀ + x₀ + w = w * (y₀ + 1) + x₀ := by ring
      have hs : w * y₁ + x₁ + w = w * (y₁ + 1) + x₁ := by ring
      have hshift : y - (y₀ + 1) + (y₁ + 1) = y - y₀ + y₁ := by ring
      rw [moveRows, hd, hs, ih (y₀ + 1) (y₁ + 1) _ (by omega) hx, hshift]
      apply copyRow_first buf hx hx₀ hx₁
      · push_cast
        omega
      · omega

/-- Rows that go up, with the source not below the target. -/
theorem moveRows_up {w x₀ x₁ n : ℤ} (hx₀ : 0 ≤ x₀ ∧ x₀ + n ≤ w) (hx₁ : 0 ≤ x₁ ∧ x₁ + n ≤ w)
    (rows : ℕ) : ∀ (y₀ y₁ : ℤ) (buf : ℤ → PixelColor), y₁ ≤ y₀ → ∀ {x y : ℤ}, 0 ≤ x ∧ x < w →
      moveRows n (-w) rows (w * y₀ + x₀) (w * y₁ + x₁) buf (w * y + x) =
        if (y₀ - rows < y ∧ y ≤ y₀) ∧ x₀ ≤ x ∧ x < x₀ + n then
          buf (w * (y - y₀ + y₁) + (x - x₀ + x₁))
        else buf (w * y + x) := by
  induction rows with
  | zero =>
      intro y₀ y₁ buf _ x y _
      rw [moveRows, if_neg (by push_cast; omega)]
  | succ rows ih =>
      intro y₀ y₁ buf hle x y hx
      have hd : w * y₀ + x₀ + -w = w * (y₀ - 1) + x₀ := by ring
      have hs : w * y₁ + x₁ + -w = w * (y₁ - 1) + x₁ := by ring
      have hshift : y - (y₀ - 1) + (y₁ - 1) = y - y₀ + y₁ := by ring
      rw [moveRows, hd, hs, ih (y₀ - 1) (y₁ - 1) _ (by omega) hx, hshift]
      apply copyRow_first buf hx hx₀ hx₁
      · push_cast
        omega
      · omega

/-- Rows of another buffer. -/
theorem copyRows_at {w x₀ w' x₁ n : ℤ} (src : ℤ → PixelColor) (hx₀ : 0 ≤ x₀ ∧ x₀ + n ≤ w)
    (rows : ℕ) : ∀ (y₀ y₁ : ℤ) (buf : ℤ → PixelColor) {x y : ℤ}, 0 ≤ x ∧ x < w →
      copyRows src n w w' rows (w * y₀ + x₀) (w' * y₁ + x₁) buf (w * y + x) =
        if (y₀ ≤ y ∧ y < y₀ + rows) ∧ x₀ ≤ x ∧ x < x₀ + n then
          src (w' * (y - y₀ + y₁) + (x - x₀ + x₁))
        else buf (w * y + x) := by
  induction rows with
  | zero =>
      intro y₀ y₁ buf x y _
      rw [copyRows, if_neg (by omega)]
  | succ rows ih =>
      intro y₀ y₁ buf x y hx
      have hd : w * y₀ + x₀ + w = w * (y₀ + 1) + x₀ := by ring
      have hs : w' * y₁ + x₁ + w' = w' * (y₁ + 1) + x₁ := by ring
      rw [copyRows, hd, hs, ih (y₀ + 1) (y₁ + 1) _ hx, copyRow_at buf src hx hx₀.1 hx₀.2]
      have hshift : y - (y₀ + 1) + (y₁ + 1) = y - y₀ + y₁ := by ring
      rw [hshift]
      by_cases hcol : x₀ ≤ x ∧ x < x₀ + n
      · by_cases hrest : y₀ + 1 ≤ y ∧ y < y₀ + 1 + rows
        · rw [if_pos ⟨hrest, hcol⟩, if_pos (by push_cast; omega)]
        · rw [if_neg (by omega)]
          by_cases hfirst : y = y₀
          · rw [if_pos ⟨hfirst, hcol⟩, if_pos (by push_cast; omega), hfirst]
            congr 2
            ring
          · rw [if_neg (by omega), if_neg (by push_cast; omega)]
      · rw [if_neg (by omega), if_neg (by omega), if_neg (by omega)]

namespace FrameBuffer

theorem frameAddrAt_inj {fb : FrameBuffer} {p q : Vector2D} (hp : fb.outline.Contains p)
    (hq : fb.outline.Contains q) (heq : fb.frameAddrAt p = fb.frameAddrAt q) : p = q := by
  have hline := fb.resolution_le_line
  simp only [outline, Rectangle.Contains, size, zero_add] at hp hq
  simp only [frameAddrAt] at heq
  have hrow : 0 ≤ p.x ∧ p.x < fb.pixelsPerScanLine := by omega
  have hcell : fb.pixelsPerScanLine * q.y + q.x ≤ fb.pixelsPerScanLine * p.y + p.x ∧
      fb.pixelsPerScanLine * p.y + p.x < fb.pixelsPerScanLine * q.y + q.x + 1 := by omega
  obtain ⟨hy, hlow, hhigh⟩ := (index_mem_row hrow hq.1 (by omega)).mp hcell
  exact Vector2D.ext (by omega) hy

theorem pixelAt_write {fb : FrameBuffer} {p q : Vector2D} (c : PixelColor)
    (hp : fb.outline.Contains p) (hq : fb.outline.Contains q) :
    (fb.write p c).pixelAt q = if q = p then c else fb.pixelAt q := by
  simp only [pixelAt, write, frameAddrAt]
  split_ifs with h
  · rw [h, Function.update_self]
  · exact Function.update_of_ne (fun heq ↦ h (frameAddrAt_inj hq hp heq)) _ _

theorem contains_copyArea (fb src : FrameBuffer) (dstPos : Vector2D) (srcArea : Rectangle)
    (p : Vector2D) :
    (fb.copyArea dstPos src srcArea).Contains p ↔ fb.outline.Contains p ∧
      (⟨dstPos, srcArea.size⟩ : Rectangle).Contains p ∧
        src.outline.Contains (p - dstPos + srcArea.pos) := by
  rw [copyArea, Rectangle.contains_inter, Rectangle.contains_inter]
  simp only [Rectangle.Contains, outline, Vector2D.add_x, Vector2D.add_y, Vector2D.sub_x,
    Vector2D.sub_y]
  omega

/-- A pixel area inside the buffer stays inside the scan lines. -/
theorem columns_of_contains {fb : FrameBuffer} {area : Rectangle}
    (harea : ∀ q, area.Contains q → fb.outline.Contains q) (hsize : 0 < area.size.x ∧ 0 < area.size.y) :
    0 ≤ area.pos.x ∧ area.pos.x + area.size.x ≤ fb.pixelsPerScanLine := by
  have hline := fb.resolution_le_line
  have hfirst := harea area.pos (by simp only [Rectangle.Contains]; omega)
  have hlast := harea ⟨area.pos.x + area.size.x - 1, area.pos.y⟩
    (by simp only [Rectangle.Contains]; omega)
  simp only [outline, Rectangle.Contains, size] at hfirst hlast
  omega

/-- The pixels that `Copy` writes come from the same place of the source, moved
to the target. -/
theorem pixelAt_copy (fb src : FrameBuffer) (dstPos : Vector2D) (srcArea : Rectangle)
    {p : Vector2D} (hp : fb.outline.Contains p) :
    (fb.copy dstPos src srcArea).pixelAt p =
      if fb.pixelFormat = src.pixelFormat ∧
          (⟨dstPos, srcArea.size⟩ : Rectangle).Contains p ∧
          src.outline.Contains (p - dstPos + srcArea.pos) then
        src.pixelAt (p - dstPos + srcArea.pos)
      else fb.pixelAt p := by
  have hin := fb.contains_copyArea src dstPos srcArea
  have hiff := hin p
  simp only [hp, true_and] at hiff
  rw [copy]
  by_cases hformat : fb.pixelFormat = src.pixelFormat
  · simp only [hformat, ne_eq, not_true_eq_false, if_false, true_and, ← hiff]
    generalize fb.copyArea dstPos src srcArea = area at hin hiff ⊢
    by_cases hempty : area.size.x ≤ 0 ∨ area.size.y ≤ 0
    · rw [if_pos hempty, if_neg (by simp only [Rectangle.Contains]; omega)]
    · have hplace := columns_of_contains (fun q hq ↦ ((hin q).mp hq).1) (by omega)
      have hpx : 0 ≤ p.x ∧ p.x < fb.pixelsPerScanLine := by
        have hline := fb.resolution_le_line
        simp only [outline, Rectangle.Contains, size] at hp
        omega
      rw [if_neg hempty]
      simp only [pixelAt, frameAddrAt]
      rw [copyRows_at _ hplace _ _ _ _ hpx]
      apply if_congr
      · simp only [Rectangle.Contains]
        omega
      · simp only [Vector2D.add_x, Vector2D.add_y, Vector2D.sub_x, Vector2D.sub_y]
        congr 2
        · congr 1
          ring
        · ring
      · rfl
  · rw [if_pos hformat, if_neg (fun h ↦ hformat h.1)]

theorem pixelAt_move {fb : FrameBuffer} {dstPos : Vector2D} {src : Rectangle}
    (hdst : (⟨dstPos, src.size⟩ : Rectangle).Within fb.outline) (hsrc : src.Within fb.outline)
    {p : Vector2D} (hp : fb.outline.Contains p) :
    (fb.move dstPos src).pixelAt p =
      if (⟨dstPos, src.size⟩ : Rectangle).Contains p then fb.pixelAt (p - dstPos + src.pos)
      else fb.pixelAt p := by
  have hline := fb.resolution_le_line
  simp only [Rectangle.Within, outline, size] at hdst hsrc
  simp only [outline, Rectangle.Contains, size] at hp
  have hd : 0 ≤ dstPos.x ∧ dstPos.x + src.size.x ≤ fb.pixelsPerScanLine := by omega
  have hs : 0 ≤ src.pos.x ∧ src.pos.x + src.size.x ≤ fb.pixelsPerScanLine := by omega
  have hpx : 0 ≤ p.x ∧ p.x < fb.pixelsPerScanLine := by omega
  rw [move]
  by_cases hdown : dstPos.y < src.pos.y
  · rw [if_pos hdown]
    simp only [pixelAt, frameAddrAt]
    rw [moveRows_down hd hs _ _ _ _ hdown hpx]
    apply if_congr
    · simp only [Rectangle.Contains]
      omega
    · rfl
    · rfl
  · rw [if_neg hdown]
    simp only [pixelAt, frameAddrAt, Vector2D.add_x, Vector2D.add_y, add_zero]
    rw [moveRows_up hd hs _ _ _ _ (by omega) hpx]
    apply if_congr
    · simp only [Rectangle.Contains]
      omega
    · simp only [Vector2D.sub_x, Vector2D.sub_y]
      congr 2
      ring
    · rfl

end FrameBuffer

end Graphics
end MinOS
