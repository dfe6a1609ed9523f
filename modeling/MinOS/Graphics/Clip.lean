import MinOS.Graphics.FrameBuffer

/-!
# Clipping

The cells that `Copy` reads and writes.  They are cells of pixels of the source
and of the target, so both buffers are only used inside their resolution.
-/

namespace MinOS
namespace Graphics

/-- The cells that `memcpy` takes on the rows of `Copy`: the one that is written and
the one that is read. -/
def copiedCells (n dstLine srcLine : ℤ) : ℕ → ℤ → ℤ → List (ℤ × ℤ)
  | 0, _, _ => []
  | rows + 1, d, s =>
      (List.range n.toNat).map (fun i : ℕ ↦ (d + i, s + i)) ++
        copiedCells n dstLine srcLine rows (d + dstLine) (s + srcLine)

theorem mem_copiedCells {n dstLine srcLine : ℤ} {rows : ℕ} {d s : ℤ} {cell : ℤ × ℤ} :
    cell ∈ copiedCells n dstLine srcLine rows d s ↔
      ∃ y < rows, ∃ x : ℕ, x < n.toNat ∧ cell = (d + y * dstLine + x, s + y * srcLine + x) := by
  induction rows generalizing d s with
  | zero => simp [copiedCells]
  | succ rows ih =>
      simp only [copiedCells, List.mem_append, List.mem_map, List.mem_range, ih]
      constructor
      · rintro (⟨x, hx, rfl⟩ | ⟨y, hy, x, hx, rfl⟩)
        · exact ⟨0, by omega, x, hx, by simp⟩
        · refine ⟨y + 1, by omega, x, hx, ?_⟩
          rw [Prod.mk.injEq]
          constructor <;> push_cast <;> ring
      · rintro ⟨y, hy, x, hx, rfl⟩
        cases y with
        | zero => exact .inl ⟨x, hx, by simp⟩
        | succ y =>
            refine .inr ⟨y, by omega, x, hx, ?_⟩
            rw [Prod.mk.injEq]
            constructor <;> push_cast <;> ring

/-- No other cell is written. -/
theorem copyRows_of_notMem {src : ℤ → PixelColor} {n dstLine srcLine : ℤ} {rows : ℕ}
    {d s : ℤ} {buf : ℤ → PixelColor} {i : ℤ}
    (hi : ∀ cell ∈ copiedCells n dstLine srcLine rows d s, cell.1 ≠ i) :
    copyRows src n dstLine srcLine rows d s buf i = buf i := by
  induction rows generalizing d s buf with
  | zero => rfl
  | succ rows ih =>
      have hrest : ∀ cell ∈ copiedCells n dstLine srcLine rows (d + dstLine) (s + srcLine),
          cell.1 ≠ i := fun cell hcell ↦ hi cell (List.mem_append_right _ hcell)
      have hrow : ¬ (d ≤ i ∧ i < d + n) := by
        rintro ⟨hlow, hhigh⟩
        have hcell : (d + ((i - d).toNat : ℤ), s + ((i - d).toNat : ℤ)) ∈
            (List.range n.toNat).map fun x : ℕ ↦ (d + (x : ℤ), s + (x : ℤ)) :=
          List.mem_map.mpr ⟨(i - d).toNat, List.mem_range.mpr (by omega), rfl⟩
        exact hi _ (List.mem_append_left _ hcell) (by dsimp only; omega)
      rw [copyRows, ih hrest, copyRow, if_neg hrow]

namespace FrameBuffer

/-- The cells that `Copy` uses. -/
def copyCells (fb : FrameBuffer) (dstPos : Vector2D) (src : FrameBuffer) (srcArea : Rectangle) :
    List (ℤ × ℤ) :=
  if fb.pixelFormat ≠ src.pixelFormat then []
  else
    let area := fb.copyArea dstPos src srcArea
    if area.size.x ≤ 0 ∨ area.size.y ≤ 0 then []
    else
      copiedCells area.size.x fb.pixelsPerScanLine src.pixelsPerScanLine area.size.y.toNat
        (fb.frameAddrAt area.pos) (src.frameAddrAt (srcArea.pos + (area.pos - dstPos)))

variable {fb src : FrameBuffer} {dstPos : Vector2D} {srcArea : Rectangle}

/-- Every cell that `Copy` writes is that of a pixel of the target, and the cell it
reads for it is that of a pixel of the source. -/
theorem mem_copyCells {cell : ℤ × ℤ} (hcell : cell ∈ fb.copyCells dstPos src srcArea) :
    ∃ p, fb.outline.Contains p ∧ src.outline.Contains (p - dstPos + srcArea.pos) ∧
      cell = (fb.frameAddrAt p, src.frameAddrAt (p - dstPos + srcArea.pos)) := by
  have hin := fb.contains_copyArea src dstPos srcArea
  rw [copyCells] at hcell
  by_cases hformat : fb.pixelFormat = src.pixelFormat
  · simp only [hformat, ne_eq, not_true_eq_false, if_false] at hcell
    generalize fb.copyArea dstPos src srcArea = area at hin hcell
    split_ifs at hcell with hempty
    · exact absurd hcell List.not_mem_nil
    · obtain ⟨y, hy, x, hx, rfl⟩ := mem_copiedCells.mp hcell
      have hp : area.Contains (area.pos + ⟨x, y⟩) := by
        simp only [Rectangle.Contains, Vector2D.add_x, Vector2D.add_y]
        omega
      obtain ⟨hdst, -, hsrc⟩ := (hin _).mp hp
      refine ⟨_, hdst, hsrc, ?_⟩
      simp only [frameAddrAt, Vector2D.add_x, Vector2D.add_y, Vector2D.sub_x, Vector2D.sub_y,
        Prod.mk.injEq]
      constructor <;> ring
  · rw [if_pos hformat] at hcell
    exact absurd hcell List.not_mem_nil

theorem buf_copy_of_notMem {i : ℤ} (hi : ∀ cell ∈ fb.copyCells dstPos src srcArea, cell.1 ≠ i) :
    (fb.copy dstPos src srcArea).buf i = fb.buf i := by
  rw [copyCells] at hi
  rw [copy]
  by_cases hformat : fb.pixelFormat = src.pixelFormat
  · simp only [hformat, ne_eq, not_true_eq_false, if_false] at hi ⊢
    split_ifs at hi ⊢
    · rfl
    · exact copyRows_of_notMem hi
  · rw [if_pos hformat]

/-- `Copy` sets the pixels that lie in the target, in the copied area and in the
source, and leaves every other cell as it is. -/
theorem copy_clips (fb src : FrameBuffer) (dstPos : Vector2D) (srcArea : Rectangle) :
    (∀ p, fb.outline.Contains p → (fb.copy dstPos src srcArea).pixelAt p =
      if fb.pixelFormat = src.pixelFormat ∧
          (⟨dstPos, srcArea.size⟩ : Rectangle).Contains p ∧
          src.outline.Contains (p - dstPos + srcArea.pos) then
        src.pixelAt (p - dstPos + srcArea.pos)
      else fb.pixelAt p) ∧
    (∀ cell ∈ fb.copyCells dstPos src srcArea,
      (∃ p, fb.outline.Contains p ∧ cell.1 = fb.frameAddrAt p) ∧
        ∃ q, src.outline.Contains q ∧ cell.2 = src.frameAddrAt q) ∧
    ∀ i, (∀ p, fb.outline.Contains p → i ≠ fb.frameAddrAt p) →
      (fb.copy dstPos src srcArea).buf i = fb.buf i := by
  refine ⟨fun p hp ↦ pixelAt_copy fb src dstPos srcArea hp, ?_, ?_⟩
  · intro cell hcell
    obtain ⟨p, hp, hq, rfl⟩ := mem_copyCells hcell
    exact ⟨⟨p, hp, rfl⟩, _, hq, rfl⟩
  · intro i hi
    refine buf_copy_of_notMem fun cell hcell heq ↦ ?_
    obtain ⟨p, hp, -, rfl⟩ := mem_copyCells hcell
    exact hi p hp heq.symm

end FrameBuffer
end Graphics
end MinOS
