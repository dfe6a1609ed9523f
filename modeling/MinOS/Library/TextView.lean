import Mathlib.Data.List.Basic
import Mathlib.Data.Nat.Basic
import Mathlib.Tactic.Common

/-!
# A view of the last lines

A screen of text shows the last lines of an output, each cut to the width of the screen.  A
character or a line break at the end of the output changes little of what is shown.
-/

namespace MinOS
namespace TextView

variable {α : Type*}

/-- The text in a row of a screen. -/
def rowText (rows width : ℕ) (lines : List (List α)) (row : ℕ) : List α :=
  ((lines.drop (lines.length - rows)).map (List.take width))[row]?.getD []

/-- The row in which the last line is shown. -/
def lastRow (rows : ℕ) (lines : List (List α)) : ℕ := min lines.length rows - 1

variable {rows width : ℕ} {lines : List (List α)} {line : List α} {row : ℕ}

theorem rowText_eq (rows width : ℕ) (lines : List (List α)) (row : ℕ) :
    rowText rows width lines row =
      (lines[lines.length - rows + row]?.getD []).take width := by
  rw [rowText, List.getElem?_map, List.getElem?_drop]
  cases lines[lines.length - rows + row]? with
  | none => simp
  | some line => rfl

theorem length_rowText_le (row : ℕ) : (rowText rows width lines row).length ≤ width := by
  rw [rowText_eq]
  exact List.length_take_le _ _

theorem mem_of_mem_rowText {a : α} (ha : a ∈ rowText rows width lines row) :
    ∃ line ∈ lines, a ∈ line := by
  rw [rowText_eq] at ha
  have hline := List.mem_of_mem_take ha
  cases hget : lines[lines.length - rows + row]? with
  | none => simp [hget] at hline
  | some line =>
      rw [hget, Option.getD_some] at hline
      exact ⟨line, List.mem_of_getElem? hget, hline⟩

/-- A line break while there is room below. -/
theorem rowText_break (hroom : lines.length < rows) (row : ℕ) :
    rowText rows width (lines ++ [[]]) row = rowText rows width lines row := by
  have hoff : (lines ++ [[]]).length - rows = 0 := by
    rw [List.length_append, List.length_singleton]
    omega
  rw [rowText_eq, rowText_eq, hoff, Nat.sub_eq_zero_of_le (Nat.le_of_lt hroom), Nat.zero_add,
    List.getElem?_append]
  split_ifs with hrow
  · rfl
  · rw [List.getElem?_eq_none (Nat.le_of_not_lt hrow)]
    cases row - lines.length <;> simp

theorem rowText_break_full (hfull : rows ≤ lines.length) (row : ℕ) :
    rowText rows width (lines ++ [[]]) row =
      if row + 1 < rows then rowText rows width lines (row + 1) else [] := by
  have hoff : (lines ++ [[]]).length - rows + row = lines.length - rows + (row + 1) := by
    rw [List.length_append, List.length_singleton]
    omega
  rw [rowText_eq, rowText_eq, hoff, List.getElem?_append]
  by_cases hrow : row + 1 < rows
  · rw [if_pos hrow, if_pos (by omega)]
  · rw [if_neg hrow, if_neg (by omega)]
    cases lines.length - rows + (row + 1) - lines.length <;> simp

variable (lines)

theorem rowText_lastRow (hrows : 0 < rows) :
    rowText rows width (lines ++ [line]) (lastRow rows (lines ++ [line])) = line.take width := by
  have hindex : (lines ++ [line]).length - rows + lastRow rows (lines ++ [line]) =
      lines.length := by
    rw [lastRow, List.length_append, List.length_singleton]
    omega
  rw [rowText_eq, hindex, List.getElem?_append_right (Nat.le_refl _), Nat.sub_self]
  rfl

/-- The other rows do not depend on the last line. -/
theorem rowText_of_ne (hrow : row ≠ lastRow rows (lines ++ [line])) (line' : List α) :
    rowText rows width (lines ++ [line']) row = rowText rows width (lines ++ [line]) row := by
  rw [lastRow, List.length_append, List.length_singleton] at hrow
  rw [rowText_eq, rowText_eq, List.length_append, List.length_append, List.length_singleton,
    List.length_singleton, List.getElem?_append, List.getElem?_append]
  split_ifs with hlt
  · rfl
  · have hbeyond : 1 ≤ lines.length + 1 - rows + row - lines.length := by omega
    rw [List.getElem?_eq_none hbeyond, List.getElem?_eq_none hbeyond]

theorem rowText_push (hrows : 0 < rows) (a : α) :
    rowText rows width (lines ++ [line ++ [a]]) =
      Function.update (rowText rows width (lines ++ [line])) (lastRow rows (lines ++ [line]))
        ((line ++ [a]).take width) := by
  funext row
  by_cases hrow : row = lastRow rows (lines ++ [line])
  · have hlast : lastRow rows (lines ++ [line]) = lastRow rows (lines ++ [line ++ [a]]) := by
      rw [lastRow, lastRow, List.length_append, List.length_append]
      rfl
    rw [hrow, Function.update_self, hlast]
    exact rowText_lastRow lines hrows
  · rw [Function.update_of_ne hrow]
    exact rowText_of_ne lines hrow _

/-! ## The lines of an output -/

variable {lines} [DecidableEq α]

/-- The last line goes on until the next line break. -/
theorem splitOn_append_singleton {a c : α} (hc : c ≠ a) (out : List α) :
    ∃ lines line, out.splitOn a = lines ++ [line] ∧
      (out ++ [c]).splitOn a = lines ++ [line ++ [c]] := by
  induction out with
  | nil => exact ⟨[], [], List.splitOn_nil a, by simp [List.splitOn_eq_singleton, hc.symm]⟩
  | cons x out ih =>
      obtain ⟨lines, line, hout, hmore⟩ := ih
      rw [List.cons_append, List.splitOn_cons_eq_if_modifyHead, List.splitOn_cons_eq_if_modifyHead,
        hout, hmore]
      split_ifs
      · exact ⟨[] :: lines, line, rfl, rfl⟩
      · cases lines with
        | nil => exact ⟨[], x :: line, rfl, rfl⟩
        | cons first lines => exact ⟨(x :: first) :: lines, line, rfl, rfl⟩

theorem mem_of_mem_splitOn {a x : α} {out line : List α} (hline : line ∈ out.splitOn a)
    (hx : x ∈ line) : x ∈ out := by
  induction out generalizing line with
  | nil =>
      rw [List.splitOn_nil, List.mem_singleton] at hline
      simp [hline] at hx
  | cons y out ih =>
      rw [List.splitOn_cons_eq_if_modifyHead] at hline
      split_ifs at hline
      · rcases List.mem_cons.mp hline with rfl | hline
        · simp at hx
        · exact List.mem_cons_of_mem y (ih hline hx)
      · obtain ⟨first, rest, hsplit⟩ := List.exists_cons_of_ne_nil (List.splitOn_ne_nil a out)
        rw [hsplit] at hline ih
        rcases List.mem_cons.mp hline with rfl | hline
        · rcases List.mem_cons.mp hx with rfl | hx
          · exact List.mem_cons_self
          · exact List.mem_cons_of_mem y (ih List.mem_cons_self hx)
        · exact List.mem_cons_of_mem y (ih (List.mem_cons_of_mem first hline) hx)

end TextView
end MinOS
