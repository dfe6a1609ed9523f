import MinOS.Graphics.FrameBuffer

/-!
# Scrolling

`Move` copies the rows of a rectangle inside one buffer, from the side to which it
moves them.  A row is always read before it is overwritten.
-/

namespace MinOS
namespace Graphics

/-- The `memcpy` calls of `Move`: the cell from which each writes and the one from
which it reads. -/
def movedRows (line : ℤ) : ℕ → ℤ → ℤ → List (ℤ × ℤ)
  | 0, _, _ => []
  | rows + 1, d, s => (d, s) :: movedRows line rows (d + line) (s + line)

theorem mem_movedRows {line : ℤ} {rows : ℕ} {d s : ℤ} {call : ℤ × ℤ} :
    call ∈ movedRows line rows d s ↔ ∃ y < rows, call = (d + y * line, s + y * line) := by
  induction rows generalizing d s with
  | zero => simp [movedRows]
  | succ rows ih =>
      simp only [movedRows, List.mem_cons, ih]
      constructor
      · rintro (rfl | ⟨y, hy, rfl⟩)
        · exact ⟨0, by omega, by simp⟩
        · refine ⟨y + 1, by omega, ?_⟩
          rw [Prod.mk.injEq]
          constructor <;> push_cast <;> ring
      · rintro ⟨y, hy, rfl⟩
        cases y with
        | zero => exact .inl (by simp)
        | succ y =>
            refine .inr ⟨y, by omega, ?_⟩
            rw [Prod.mk.injEq]
            constructor <;> push_cast <;> ring

/-- No other cell is written. -/
theorem moveRows_of_notMem {n line : ℤ} {rows : ℕ} {d s : ℤ} {buf : ℤ → PixelColor} {i : ℤ}
    (hi : ∀ call ∈ movedRows line rows d s, ¬ (call.1 ≤ i ∧ i < call.1 + n)) :
    moveRows n line rows d s buf i = buf i := by
  induction rows generalizing d s buf with
  | zero => rfl
  | succ rows ih =>
      have hfirst := hi (d, s) List.mem_cons_self
      have hrest : ∀ call ∈ movedRows line rows (d + line) (s + line),
          ¬ (call.1 ≤ i ∧ i < call.1 + n) :=
        fun call hcall ↦ hi call (List.mem_cons_of_mem _ hcall)
      rw [moveRows, ih hrest, copyRow, if_neg hfirst]

namespace FrameBuffer

def moveCalls (fb : FrameBuffer) (dstPos : Vector2D) (src : Rectangle) : List (ℤ × ℤ) :=
  if dstPos.y < src.pos.y then
    movedRows fb.pixelsPerScanLine src.size.y.toNat (fb.frameAddrAt dstPos)
      (fb.frameAddrAt src.pos)
  else
    movedRows (-fb.pixelsPerScanLine) src.size.y.toNat
      (fb.frameAddrAt (dstPos + ⟨0, src.size.y - 1⟩))
      (fb.frameAddrAt (src.pos + ⟨0, src.size.y - 1⟩))

variable {fb : FrameBuffer} {dstPos : Vector2D} {src : Rectangle}

theorem mem_moveCalls {call : ℤ × ℤ} (hcall : call ∈ fb.moveCalls dstPos src) :
    ∃ y, 0 ≤ y ∧ y < src.size.y ∧
      call = (fb.frameAddrAt (dstPos + ⟨0, y⟩), fb.frameAddrAt (src.pos + ⟨0, y⟩)) := by
  rw [moveCalls] at hcall
  split_ifs at hcall with hdown
  · obtain ⟨y, hy, rfl⟩ := mem_movedRows.mp hcall
    refine ⟨y, by omega, by omega, ?_⟩
    simp only [frameAddrAt, Vector2D.add_x, Vector2D.add_y, Prod.mk.injEq]
    constructor <;> ring
  · obtain ⟨y, hy, rfl⟩ := mem_movedRows.mp hcall
    refine ⟨src.size.y - 1 - y, by omega, by omega, ?_⟩
    simp only [frameAddrAt, Vector2D.add_x, Vector2D.add_y, Prod.mk.injEq]
    constructor <;> ring

theorem buf_move_of_notMem {i : ℤ}
    (hi : ∀ call ∈ fb.moveCalls dstPos src, ¬ (call.1 ≤ i ∧ i < call.1 + src.size.x)) :
    (fb.move dstPos src).buf i = fb.buf i := by
  rw [moveCalls] at hi
  rw [move]
  split_ifs at hi ⊢
  · exact moveRows_of_notMem hi
  · exact moveRows_of_notMem hi

/-- Scrolling is a simultaneous move, whose rows do not overlap their targets. -/
theorem move_simultaneous (hdst : (⟨dstPos, src.size⟩ : Rectangle).Within fb.outline)
    (hsrc : src.Within fb.outline) (hrow : dstPos.y ≠ src.pos.y) :
    (∀ p, (⟨dstPos, src.size⟩ : Rectangle).Contains p →
      (fb.move dstPos src).pixelAt p = fb.pixelAt (p - dstPos + src.pos)) ∧
    (∀ i, (∀ p, (⟨dstPos, src.size⟩ : Rectangle).Contains p → i ≠ fb.frameAddrAt p) →
      (fb.move dstPos src).buf i = fb.buf i) ∧
    ∀ call ∈ fb.moveCalls dstPos src,
      call.1 + src.size.x ≤ call.2 ∨ call.2 + src.size.x ≤ call.1 := by
  have hline := fb.resolution_le_line
  refine ⟨fun p hp ↦ ?_, fun i hi ↦ ?_, fun call hcall ↦ ?_⟩
  · rw [pixelAt_move hdst hsrc (hdst.contains hp), if_pos hp]
  · refine buf_move_of_notMem fun call hcall hin ↦ ?_
    obtain ⟨y, hlow, hhigh, rfl⟩ := mem_moveCalls hcall
    refine hi (dstPos + ⟨i - fb.frameAddrAt (dstPos + ⟨0, y⟩), y⟩) ?_ ?_
    · simp only [Rectangle.Contains, Vector2D.add_x, Vector2D.add_y]
      omega
    · simp only [frameAddrAt, Vector2D.add_x, Vector2D.add_y]
      ring
  · obtain ⟨y, hlow, hhigh, rfl⟩ := mem_moveCalls hcall
    simp only [Rectangle.Within, outline, size] at hdst hsrc
    simp only [frameAddrAt, Vector2D.add_x, Vector2D.add_y, add_zero]
    -- two different rows are at least one scan line apart
    rcases lt_or_gt_of_ne hrow with hlt | hgt
    · have hle : fb.pixelsPerScanLine * (dstPos.y + y + 1) ≤
          fb.pixelsPerScanLine * (src.pos.y + y) :=
        Int.mul_le_mul_of_nonneg_left (by omega) (by omega)
      rw [mul_add, mul_one] at hle
      omega
    · have hle : fb.pixelsPerScanLine * (src.pos.y + y + 1) ≤
          fb.pixelsPerScanLine * (dstPos.y + y) :=
        Int.mul_le_mul_of_nonneg_left (by omega) (by omega)
      rw [mul_add, mul_one] at hle
      omega

/-- Three rows of two pixels, all of them different. -/
def threeRows : FrameBuffer :=
  { ofSize 2 3 .kPixelRGBResv8BitPerColor with buf := fun i ↦ ⟨UInt8.ofNat i.toNat, 0, 0⟩ }

/-- The two upper rows move down by one. -/
theorem move_simultaneous_threeRows :
    (threeRows.move ⟨0, 1⟩ ⟨⟨0, 0⟩, ⟨2, 2⟩⟩).pixelAt ⟨1, 2⟩ = ⟨3, 0, 0⟩ :=
  (@move_simultaneous threeRows ⟨0, 1⟩ ⟨⟨0, 0⟩, ⟨2, 2⟩⟩ (by decide) (by decide) (by decide)).1
    ⟨1, 2⟩ (by decide)

end FrameBuffer
end Graphics
end MinOS
