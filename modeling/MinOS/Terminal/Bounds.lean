import Mathlib.Data.List.TakeWhile
import MinOS.Terminal.Screen

/-!
# The cursor stays on the screen

Every call keeps the cursor, the edit position and the pixels in range, except
that `HistoryUpDown` puts the cursor behind a recalled line without looking at
its length.
-/

namespace MinOS

open Graphics Font Transition

namespace Line

theorem length_takeWhile_le {α : Type*} {p : α → Bool} {l : List α} {i : ℕ} {a : α}
    (hget : l[i]? = some a) (ha : p a = false) : (l.takeWhile p).length ≤ i := by
  induction l generalizing i with
  | nil => simp at hget
  | cons b l ih =>
      rw [List.takeWhile_cons]
      split_ifs with hb
      · cases i with
        | zero =>
            obtain rfl : b = a := by simpa using hget
            exact absurd hb (by simp [ha])
        | succ i => exact Nat.succ_le_succ (ih (by simpa using hget))
      · exact Nat.zero_le i

theorem strlen_le {l : Line} {i : ℕ} (hi : l[i]? = some 0) : l.strlen ≤ i := by
  apply length_takeWhile_le (a := 0)
  · rw [Vector.getElem?_toList]
    exact hi
  · rfl

theorem strlen_set_le (line : Line) {i : ℕ} (hi : i < kLineMax) :
    strlen (line.setIfInBounds i 0) ≤ i := by
  apply strlen_le
  rw [Vector.getElem?_setIfInBounds_self, if_pos hi]

theorem strlen_empty : Line.empty.strlen = 0 := by
  have hle : Line.empty.strlen ≤ 0 := strlen_le (by decide)
  exact Nat.le_zero.mp hle

theorem chars_eq (line : Line) (i : ℕ) : line.chars i = line.toList[i]?.getD 0 := by
  rw [chars, Vector.getElem?_toList]

theorem getElem?_takeWhile {line : Line} {i : ℕ} (hi : i < line.strlen) :
    (line.toList.takeWhile (· ≠ 0))[i]? = some (line.chars i) := by
  rw [strlen] at hi
  have hget : (line.toList.takeWhile (· ≠ 0) ++ line.toList.dropWhile (· ≠ 0))[i]? =
      (line.toList.takeWhile (· ≠ 0))[i]? := List.getElem?_append_left hi
  rw [List.takeWhile_append_dropWhile] at hget
  rw [chars_eq, hget, List.getElem?_eq_getElem hi, Option.getD_some]

theorem chars_mem {line : Line} {i : ℕ} (hi : i < line.strlen) :
    line.chars i ∈ line.toList.takeWhile (· ≠ 0) :=
  List.mem_of_getElem? (getElem?_takeWhile hi)

theorem eq_of_mem_takeWhile {line : Line} {c : BitVec 8} (hc : ∀ i < line.strlen, line.chars i = c)
    {b : BitVec 8} (hb : b ∈ line.toList.takeWhile (· ≠ 0)) : b = c := by
  obtain ⟨i, hi⟩ := List.mem_iff_getElem?.mp hb
  have hlt : i < line.strlen := (List.getElem?_eq_some_iff.mp hi).1
  rw [getElem?_takeWhile hlt, Option.some.injEq] at hi
  rw [← hi, hc i hlt]

theorem chars_strlen (line : Line) : line.chars line.strlen = 0 := by
  have hget : (line.toList.takeWhile (· ≠ 0) ++ line.toList.dropWhile (· ≠ 0))[
        (line.toList.takeWhile (· ≠ 0)).length]? =
      (line.toList.dropWhile (· ≠ 0))[(line.toList.takeWhile (· ≠ 0)).length -
        (line.toList.takeWhile (· ≠ 0)).length]? := List.getElem?_append_right le_rfl
  rw [List.takeWhile_append_dropWhile, Nat.sub_self, ← List.head?_eq_getElem?] at hget
  have hhead := List.head?_dropWhile_not (fun b : BitVec 8 ↦ decide (b ≠ 0)) line.toList
  rw [chars_eq, strlen, hget]
  cases hfirst : (line.toList.dropWhile fun b ↦ decide (b ≠ 0)).head? with
  | none => rfl
  | some b =>
      rw [hfirst] at hhead
      simpa using hhead

theorem writeString_ascii (line : Line) (font : Glyphs) (pos : Vector2D)
    (hascii : ∀ b ∈ line.toList.takeWhile (· ≠ 0), b < 0x80) :
    ∃ pixels, writeString font pos line.chars (line.strlen + 1) = some pixels ∧
      ∀ p ∈ pixels, (Rectangle.mk pos ⟨8 * line.strlen, 16⟩).Contains p := by
  have hstring (k : ℕ) (hk : k < line.strlen) :
      line.chars (0 + k) ≠ 0 ∧ line.chars (0 + k) < 0x80 := by
    have hmem := chars_mem hk
    rw [Nat.zero_add]
    exact ⟨by simpa using List.mem_takeWhile_imp hmem, hascii _ hmem⟩
  have hend : line.chars (0 + line.strlen) = 0 := by
    rw [Nat.zero_add, chars_strlen]
  obtain ⟨pixels, hpixels, hin⟩ := writeStringLoop_ascii font pos line.strlen 0 hstring hend
  refine ⟨pixels, hpixels, fun p hp ↦ ?_⟩
  have hcell := hin p hp
  simp only [Rectangle.Contains, Vector2D.add_x, Vector2D.add_y] at hcell ⊢
  omega

end Line

namespace Terminal

variable {font : Glyphs} {t : Terminal}

/-- What every call keeps: the ranges, and that every line of the history ends. -/
def Fits (t : Terminal) : Prop :=
  t.InGeometry ∧ ∀ line ∈ t.cmdHistory, line.strlen < kLineMax

theorem fits_start : start.Fits := by
  refine ⟨⟨by decide, by decide, by decide, by decide, ?_⟩, ?_⟩
  · intro p hp
    exact absurd hp List.not_mem_nil
  · intro line hline
    rw [List.eq_of_mem_replicate hline, Line.strlen_empty]
    decide

theorem Fits.write (h : t.Fits) {pixels : List Vector2D}
    (hpixels : ∀ p ∈ pixels, window.Contains p) : (t.write pixels).Fits := by
  obtain ⟨⟨hx, hy, hindex, hhistory, hwritten⟩, hlines⟩ := h
  refine ⟨⟨hx, hy, hindex, hhistory, ?_⟩, hlines⟩
  intro p hp
  rcases List.mem_append.mp hp with hp | hp
  · exact hwritten p hp
  · exact hpixels p hp

/-- Moving the cursor within the screen. -/
theorem Fits.moveCursor (h : t.Fits) {cursor : Vector2D} (hx : 0 ≤ cursor.x ∧ cursor.x ≤ kColumns)
    (hy : 0 ≤ cursor.y ∧ cursor.y < kRows) : ({ t with cursor := cursor } : Terminal).Fits :=
  ⟨⟨hx, hy, h.1.linebufIndex, h.1.cmdHistoryIndex, h.1.written⟩, h.2⟩

theorem calcCursorPos_eq (t : Terminal) :
    t.calcCursorPos = ⟨8 + 8 * t.cursor.x, 28 + 16 * t.cursor.y⟩ := by
  rw [calcCursorPos, kTopLeftMargin]
  apply Vector2D.ext
  · simp only [Vector2D.add_x]
    omega
  · simp only [Vector2D.add_y]
    omega

theorem window_eq : window = ⟨⟨0, 0⟩, ⟨496, 276⟩⟩ := by
  decide

/-- A rectangle at the cursor that is no wider than the rest of the row. -/
theorem window_contains (hx : 0 ≤ t.cursor.x) (hy : 0 ≤ t.cursor.y ∧ t.cursor.y < kRows)
    {w h : ℤ} (hw : 8 * t.cursor.x + w ≤ 488) (hh : h ≤ 16) {p : Vector2D}
    (hp : (Rectangle.mk t.calcCursorPos ⟨w, h⟩).Contains p) : window.Contains p := by
  rw [calcCursorPos_eq] at hp
  rw [window_eq]
  rw [kRows] at hy
  simp only [Rectangle.Contains] at hp ⊢
  omega

theorem Fits.writeCell (h : t.Fits) (pixels : List Vector2D) (width height : ℤ)
    (hwidth : 8 * t.cursor.x + width ≤ 488) (hheight : height ≤ 16)
    (hin : ∀ p ∈ pixels, (Rectangle.mk t.calcCursorPos ⟨width, height⟩).Contains p) :
    (t.write pixels).Fits :=
  h.write fun p hp ↦
    window_contains h.1.cursor_x.1 h.1.cursor_y hwidth hheight (hin p hp)

theorem Fits.fillCell (h : t.Fits) (width height : ℤ) (hwidth : 8 * t.cursor.x + width ≤ 488)
    (hheight : height ≤ 16) :
    (t.write (fillRectangle t.calcCursorPos ⟨width, height⟩)).Fits :=
  h.writeCell _ width height hwidth hheight fun _ hp ↦ mem_fillRectangle hp

theorem Fits.drawCursor (h : t.Fits) : t.drawCursor.Fits := by
  have hx := h.1.cursor_x
  rw [kColumns] at hx
  exact h.fillCell 7 15 (by omega) (by decide)

theorem Fits.scroll1 (h : t.Fits) (hy : t.cursor.y = kRows - 1) : t.scroll1.Fits := by
  rw [Terminal.scroll1]
  refine (h.write fun p hp ↦ ?_).write fun p hp ↦ ?_
  · have hp := mem_fillRectangle hp
    rw [window_eq]
    simp only [Rectangle.Contains, kTopLeftMargin, Vector2D.add_x, Vector2D.add_y, kColumns,
      kRows] at hp ⊢
    omega
  · have hp := mem_fillRectangle hp
    rw [window_eq]
    simp only [Rectangle.Contains, kTopLeftMargin, Vector2D.add_x, Vector2D.add_y, kColumns, hy,
      kRows] at hp ⊢
    omega

theorem Fits.newline (h : t.Fits) : t.newline.Fits := by
  have hy := h.1.cursor_y
  have hzero : 0 ≤ (0 : ℤ) ∧ (0 : ℤ) ≤ kColumns := by decide
  have hstart : ({ t with cursor := ⟨0, t.cursor.y⟩ } : Terminal).Fits := h.moveCursor hzero hy
  rw [Terminal.newline]
  dsimp only
  split_ifs with hlast
  · exact hstart.moveCursor hzero ⟨by dsimp only; omega, by dsimp only; omega⟩
  · exact hstart.scroll1 (by dsimp only; omega)

theorem newline_cursor_x (t : Terminal) : t.newline.cursor.x = 0 := by
  rw [Terminal.newline]
  dsimp only
  split_ifs <;> rfl

theorem Fits.put (h : t.Fits) {c : ℕ} (hc : c ≤ 0x7f) (hx : t.cursor.x < kColumns) :
    (t.put font c 1).Fits := by
  have hcursor := h.1.cursor_x
  rw [kColumns] at hx hcursor
  rw [Terminal.put]
  have hdrawn : (t.write (writeUnicode font t.calcCursorPos c)).Fits :=
    h.writeCell _ 8 16 (by omega) le_rfl fun _ hp ↦ mem_writeUnicode hc hp
  have hright : 0 ≤ t.cursor.x + 1 ∧ t.cursor.x + 1 ≤ kColumns := by
    rw [kColumns]
    omega
  exact hdrawn.moveCursor hright h.1.cursor_y

theorem Fits.printChar (h : t.Fits) {c : ℕ} (hc : c ≤ 0x7f) : (t.printChar font c).Fits := by
  rw [Terminal.printChar]
  have hhankaku : isHankaku c = true := decide_eq_true hc
  split_ifs with hnewline hedge
  · exact h.newline
  · refine h.newline.put hc ?_
    rw [newline_cursor_x]
    decide
  · exact h.put hc (lt_of_le_of_ne h.1.cursor_x.2 hedge)

theorem Fits.print (h : t.Fits) {codes : List ℕ} (hascii : Ascii codes) :
    (t.print font codes).Fits := by
  have hfold : ∀ u : Terminal, u.Fits → (codes.foldl (Terminal.printChar font) u).Fits := by
    induction codes with
    | nil => exact fun u hu ↦ hu
    | cons c codes ih =>
        intro u hu
        rw [List.foldl_cons]
        exact ih (fun d hd ↦ hascii d (List.mem_cons_of_mem c hd)) _
          (hu.printChar (hascii c List.mem_cons_self))
  exact (hfold _ h.drawCursor).drawCursor

theorem Fits.apply (h : t.Fits) {o : Output} (hascii : ∀ codes, o = .print codes → Ascii codes) :
    (o.apply font t).Fits := by
  cases o with
  | print codes => exact h.print (hascii codes rfl)
  | drawCursor => exact h.drawCursor
  | clear =>
      have hzero : 0 ≤ (0 : ℤ) ∧ (0 : ℤ) < kRows := by decide
      refine (h.write fun p hp ↦ ?_).moveCursor h.1.cursor_x hzero
      have hp := mem_fillRectangle hp
      rw [window_eq]
      simp only [Rectangle.Contains, kTopLeftMargin, Vector2D.add_x, Vector2D.add_y, kColumns,
        kRows] at hp ⊢
      omega

theorem Fits.executeLine (h : t.Fits) {run : Execution} (hascii : run.Ascii) :
    (t.executeLine font run).Fits := by
  obtain ⟨outputs, linebuf⟩ := run
  have hfold : ∀ u : Terminal, u.Fits →
      (outputs.foldl (fun t o ↦ o.apply font t) u).Fits := by
    change ∀ o ∈ outputs, ∀ codes, o = .print codes → Terminal.Ascii codes at hascii
    induction outputs with
    | nil => exact fun u hu ↦ hu
    | cons o outputs ih =>
        intro u hu
        rw [List.foldl_cons]
        exact ih (fun o' ho' ↦ hascii o' (List.mem_cons_of_mem o ho')) _
          (hu.apply (hascii o List.mem_cons_self))
  obtain ⟨hrange, hlines⟩ := hfold t h
  exact ⟨⟨hrange.cursor_x, hrange.cursor_y, hrange.linebufIndex, hrange.cmdHistoryIndex,
    hrange.written⟩, hlines⟩

theorem Fits.enter (h : t.Fits) {run : Execution} (hascii : run.Ascii) :
    (t.enter font run).Fits := by
  have hindex := h.1.linebufIndex
  have hline : Line.strlen (t.linebuf.setIfInBounds t.linebufIndex.toNat 0) < kLineMax := by
    have hlt : t.linebufIndex.toNat < kLineMax := by omega
    exact lt_of_le_of_lt (Line.strlen_set_le _ hlt) hlt
  have hstart : ({ t with
      linebuf := t.linebuf.setIfInBounds t.linebufIndex.toNat 0
      cmdHistory := if t.linebufIndex > 0 then
        t.linebuf.setIfInBounds t.linebufIndex.toNat 0 :: t.cmdHistory.dropLast else t.cmdHistory
      linebufIndex := 0
      cmdHistoryIndex := -1 } : Terminal).Fits := by
    have hzero : 0 ≤ (0 : ℤ) ∧ (0 : ℤ) < kLineMax := by decide
    refine ⟨⟨h.1.cursor_x, h.1.cursor_y, hzero, ⟨le_rfl, ?_⟩, h.1.written⟩, ?_⟩
    · dsimp only
      omega
    · intro line hmem
      dsimp only at hmem
      split_ifs at hmem
      · rcases List.mem_cons.mp hmem with rfl | hmem
        · exact hline
        · exact h.2 line (List.dropLast_subset _ hmem)
      · exact h.2 line hmem
  have hprompt : Ascii [0x3e] := by
    intro c hc
    rw [List.mem_singleton.mp hc]
    decide
  exact (hstart.newline.executeLine hascii).print hprompt

theorem Fits.backspace (h : t.Fits) : t.backspace.Fits := by
  have hx := h.1.cursor_x
  have hindex := h.1.linebufIndex
  rw [Terminal.backspace]
  split_ifs with hcursor
  · have hleft : 0 ≤ t.cursor.x - 1 ∧ t.cursor.x - 1 ≤ kColumns := by omega
    have hmoved : ({ t with cursor := ⟨t.cursor.x - 1, t.cursor.y⟩ } : Terminal).Fits :=
      h.moveCursor hleft h.1.cursor_y
    have hwidth : 8 * (t.cursor.x - 1) + 8 ≤ 488 := by
      rw [kColumns] at hx
      omega
    have hdrawn := hmoved.fillCell 8 16 hwidth le_rfl
    refine ⟨⟨hdrawn.1.cursor_x, hdrawn.1.cursor_y, ?_, hdrawn.1.cmdHistoryIndex,
      hdrawn.1.written⟩, hdrawn.2⟩
    dsimp only [Terminal.write]
    split_ifs <;> omega
  · exact h

theorem Fits.typeChar (h : t.Fits) (ascii : BitVec 8) : (t.typeChar font ascii).Fits := by
  have hx := h.1.cursor_x
  have hindex := h.1.linebufIndex
  rw [Terminal.typeChar]
  split_ifs with hroom
  · have hnext : 0 ≤ t.linebufIndex + 1 ∧ t.linebufIndex + 1 < kLineMax := by omega
    have htyped : ({ t with
        linebuf := t.linebuf.setIfInBounds t.linebufIndex.toNat ascii
        linebufIndex := t.linebufIndex + 1 } : Terminal).Fits :=
      ⟨⟨hx, h.1.cursor_y, hnext, h.1.cmdHistoryIndex, h.1.written⟩, h.2⟩
    have hright : 0 ≤ t.cursor.x + 1 ∧ t.cursor.x + 1 ≤ kColumns := by omega
    have hwidth : 8 * t.cursor.x + 8 ≤ 488 := by
      rw [kColumns] at hroom
      omega
    have hdrawn := htyped.writeCell (writeAscii font t.calcCursorPos ascii) 8 16 hwidth
      le_rfl fun _ hp ↦ mem_writeAscii hp
    exact hdrawn.moveCursor hright h.1.cursor_y
  · exact h

theorem Fits.historyIndex (h : t.Fits) (direction : ℤ) :
    -1 ≤ t.historyIndex direction ∧ t.historyIndex direction < t.cmdHistory.length := by
  have hindex := h.1.cmdHistoryIndex
  rw [Terminal.historyIndex]
  split_ifs <;> omega

theorem Fits.recalled (h : t.Fits) (direction : ℤ) : (t.recalled direction).strlen < kLineMax := by
  have hempty : Line.empty.strlen < kLineMax := by
    rw [Line.strlen_empty]
    decide
  rw [Terminal.recalled]
  split_ifs
  · cases hline : t.cmdHistory[(t.historyIndex direction).toNat]? with
    | none => exact hempty
    | some line => exact h.2 line (List.mem_of_getElem? hline)
  · exact hempty

theorem historyUpDown_cursor {t' : Terminal} {direction : ℤ} {fuel : ℕ}
    (hreturns : t.historyUpDown font direction fuel = some t') :
    t'.cursor.x = (t.recalled direction).strlen + 1 := by
  obtain ⟨pixels, -, rfl⟩ := Option.map_eq_some_iff.mp hreturns
  rfl

theorem Fits.toPrompt (h : t.Fits) {index : ℤ}
    (hindex : -1 ≤ index ∧ index < t.cmdHistory.length) : (t.toPrompt index).Fits := by
  have hone : 0 ≤ (1 : ℤ) ∧ (1 : ℤ) ≤ kColumns := by decide
  exact ⟨⟨hone, h.1.cursor_y, h.1.linebufIndex, hindex, h.1.written⟩, h.2⟩

/-- An ASCII line that fits on the row is written behind the prompt. -/
theorem Fits.writeString (h : t.Fits) (hx : t.cursor.x = 1) {line : Line}
    (hlength : line.strlen ≤ kColumns - 1)
    (hascii : ∀ b ∈ line.toList.takeWhile (· ≠ 0), b < 0x80) {fuel : ℕ} {pixels : List Vector2D}
    (hpixels : writeString font t.calcCursorPos line.chars fuel = some pixels) :
    (t.write pixels).Fits := by
  obtain ⟨cells, hcells, hin⟩ := line.writeString_ascii font t.calcCursorPos hascii
  obtain rfl := writeString_unique hpixels hcells
  have hwidth : 8 * t.cursor.x + 8 * (line.strlen : ℤ) ≤ 488 := by
    rw [kColumns] at hlength
    omega
  refine h.writeCell _ (8 * (line.strlen : ℤ)) 16 hwidth le_rfl fun p hp ↦ ?_
  exact hin p hp

/-- A recalled line is written behind the prompt. -/
theorem Fits.historyUpDown (h : t.Fits) {t' : Terminal} {direction : ℤ} {fuel : ℕ}
    (hlength : (t.recalled direction).strlen ≤ kColumns - 1)
    (hascii : ∀ b ∈ (t.recalled direction).toList.takeWhile (· ≠ 0), b < 0x80)
    (hreturns : t.historyUpDown font direction fuel = some t') : t'.Fits := by
  obtain ⟨pixels, hpixels, rfl⟩ := Option.map_eq_some_iff.mp hreturns
  have hprompt := h.toPrompt (h.historyIndex direction)
  have hwidth : 8 * (1 : ℤ) + 8 * (kColumns - 1) ≤ 488 := by decide
  have hfilled := hprompt.fillCell (8 * (kColumns - 1)) 16 hwidth le_rfl
  have hwritten := hfilled.writeString rfl hlength hascii hpixels
  have hindex := h.recalled direction
  have hcursor : 0 ≤ ((t.recalled direction).strlen + 1 : ℤ) ∧
      ((t.recalled direction).strlen + 1 : ℤ) ≤ kColumns := by omega
  have hposition : 0 ≤ ((t.recalled direction).strlen : ℤ) ∧
      ((t.recalled direction).strlen : ℤ) < kLineMax := by omega
  exact ⟨⟨hcursor, hwritten.1.cursor_y, hposition, hwritten.1.cmdHistoryIndex,
    hwritten.1.written⟩, hwritten.2⟩

theorem Fits.inputKey (h : t.Fits) {t' : Terminal} {modifier keycode ascii : BitVec 8}
    {run : Execution} {fuel : ℕ} (hascii : run.Ascii)
    (hrecall : t.Recallable (.inputKey modifier keycode ascii run))
    (hreturns : t.inputKey font keycode ascii run fuel = some t') : t'.Fits := by
  have hrecall' (direction : ℤ) (hkey : historyKey keycode ascii = some direction) :=
    hrecall direction hkey
  obtain ⟨u, hu, rfl⟩ := Option.map_eq_some_iff.mp hreturns
  apply Fits.drawCursor
  have hstart := h.drawCursor
  split_ifs at hu with henter hback htype hdown hup
  · rw [← Option.some.inj hu]
    exact hstart.enter hascii
  · rw [← Option.some.inj hu]
    exact hstart.backspace
  · rw [← Option.some.inj hu]
    exact hstart.typeChar ascii
  · have hline := hrecall' (-1) (by rw [historyKey, if_neg htype, if_pos hdown])
    exact hstart.historyUpDown hline.1 hline.2 hu
  · have hline := hrecall' 1 (by rw [historyKey, if_neg htype, if_neg hdown, if_pos hup])
    exact hstart.historyUpDown hline.1 hline.2 hu
  · rw [← Option.some.inj hu]
    exact hstart

theorem fits_step {t t' : Terminal} {op : Op} (h : t.Fits)
    (hstep : Guarded Recallable (Step font) t op t') : t'.Fits := by
  obtain ⟨hrecall, hstep⟩ := hstep
  cases hstep with
  | inputKey modifier hascii hreturns => exact h.inputKey hascii hrecall hreturns
  | print _ hascii => exact h.print hascii

/-- As long as no recalled line is too long for the row, everything stays in
range. -/
theorem inGeometry_of_run {ops : List Op} {t : Terminal}
    (hrun : Run (Guarded Recallable (Step font)) start ops t) : t.InGeometry :=
  (hrun.invariant (fun _ _ _ h hstep ↦ fits_step h hstep) fits_start).1

/-- A recalled line that is too long puts the cursor outside. -/
theorem not_inGeometry_of_long {t' : Terminal} {direction : ℤ} {fuel : ℕ}
    (hlong : kColumns ≤ (t.recalled direction).strlen)
    (hreturns : t.historyUpDown font direction fuel = some t') : ¬ t'.InGeometry := by
  intro h
  have hx := h.cursor_x.2
  rw [historyUpDown_cursor hreturns] at hx
  omega

/-- A font without a pixel. -/
def blank : Glyphs := ⟨4096, fun _ ↦ 0, fun _ ↦ none⟩

/-- An execution that neither prints nor leaves anything. -/
def quiet : Execution := ⟨[], .empty⟩

theorem ascii_quiet : quiet.Ascii := fun _ ho ↦ absurd ho List.not_mem_nil

/-- The keys `a`, Enter and Up. -/
def keyA : Op := .inputKey 0 4 0x61 quiet
def keyEnter : Op := .inputKey 0 40 10 quiet
def keyUp : Op := .inputKey 0 0x52 0 quiet

/-- A line of `n` characters `a` is being typed. -/
structure Typed (t : Terminal) (x y n : ℤ) : Prop where
  cursor : t.cursor = ⟨x, y⟩
  linebufIndex : t.linebufIndex = n
  linebuf : ∀ i : ℕ, i < n → t.linebuf.chars i = 0x61
  cmdHistory : 0 < t.cmdHistory.length
  cmdHistoryIndex : t.cmdHistoryIndex = -1

theorem typed_start : Typed start 1 0 0 where
  cursor := rfl
  linebufIndex := rfl
  linebuf := fun i hi ↦ absurd hi (by omega)
  cmdHistory := by decide
  cmdHistoryIndex := rfl

theorem chars_setIfInBounds (line : Line) {i : ℕ} (hi : i < kLineMax) (c : BitVec 8) (j : ℕ) :
    Line.chars (line.setIfInBounds i c) j = if i = j then c else line.chars j := by
  rw [Line.chars, Line.chars, Vector.getElem?_setIfInBounds]
  split_ifs with h
  · rfl
  · rfl

/-- One more character is typed. -/
theorem Typed.key {x y n : ℤ} (h : Typed t x y n) (font : Glyphs) (hx : x < kColumns - 1)
    (hn : 0 ≤ n ∧ n < kLineMax - 1) :
    ∃ t', Step font t keyA t' ∧ Typed t' (x + 1) y (n + 1) := by
  have hroom : t.drawCursor.cursor.x < kColumns - 1 ∧ t.drawCursor.linebufIndex < kLineMax - 1 := by
    change t.cursor.x < kColumns - 1 ∧ t.linebufIndex < kLineMax - 1
    rw [h.cursor, h.linebufIndex]
    exact ⟨hx, hn.2⟩
  have hreturns : t.inputKey font 4 0x61 quiet 0 = some (t.drawCursor.typeChar font 0x61).drawCursor :=
    rfl
  refine ⟨_, .inputKey 0 ascii_quiet hreturns, ?_⟩
  rw [typeChar, if_pos hroom]
  constructor
  · change (⟨t.cursor.x + 1, t.cursor.y⟩ : Vector2D) = _
    rw [h.cursor]
  · change t.linebufIndex + 1 = n + 1
    rw [h.linebufIndex]
  · intro i hi
    change Line.chars (t.linebuf.setIfInBounds t.linebufIndex.toNat 0x61) i = 0x61
    rw [chars_setIfInBounds _ (by rw [h.linebufIndex]; omega), h.linebufIndex]
    split_ifs with hlast
    · rfl
    · exact h.linebuf i (by omega)
  · exact h.cmdHistory
  · exact h.cmdHistoryIndex

theorem Typed.keys {x y n : ℤ} (h : Typed t x y n) (font : Glyphs) (hn : 0 ≤ n) (k : ℕ)
    (hx : x + k ≤ kColumns - 1) (hroom : n + k ≤ kLineMax - 1) :
    ∃ t', Run (Step font) t (List.replicate k keyA) t' ∧ Typed t' (x + k) y (n + k) := by
  induction k with
  | zero => exact ⟨t, .nil t, by simpa using h⟩
  | succ k ih =>
      push_cast at hx hroom
      obtain ⟨u, hrun, hu⟩ := ih (by omega) (by omega)
      obtain ⟨t', hstep, ht'⟩ := hu.key font (by omega) (by omega)
      refine ⟨t', ?_, ?_⟩
      · rw [List.replicate_succ']
        exact hrun.snoc hstep
      · push_cast
        rwa [← add_assoc, ← add_assoc]

theorem Typed.newline {x y n : ℤ} (h : Typed t x y n) (font : Glyphs) (hy : y < kRows - 1) :
    Typed (t.print font [10]) 0 (y + 1) n := by
  have hdown : t.drawCursor.cursor.y < kRows - 1 := by
    change t.cursor.y < kRows - 1
    rw [h.cursor]
    exact hy
  have hprint : t.print font [10] =
      ({ t.drawCursor with cursor := ⟨0, t.cursor.y + 1⟩ } : Terminal).drawCursor := by
    rw [Terminal.print, List.foldl_cons, List.foldl_nil, printChar, if_pos rfl, Terminal.newline]
    exact congrArg Terminal.drawCursor (if_pos hdown)
  rw [hprint]
  refine ⟨?_, h.linebufIndex, h.linebuf, h.cmdHistory, h.cmdHistoryIndex⟩
  change (⟨0, t.cursor.y + 1⟩ : Vector2D) = _
  rw [h.cursor]

/-- Output does not change the history. -/
theorem cmdHistory_newline (t : Terminal) :
    t.newline.cmdHistory = t.cmdHistory ∧ t.newline.cmdHistoryIndex = t.cmdHistoryIndex := by
  rw [newline]
  dsimp only
  split_ifs <;> exact ⟨rfl, rfl⟩

theorem cmdHistory_printChar (font : Glyphs) (t : Terminal) (c : ℕ) :
    (t.printChar font c).cmdHistory = t.cmdHistory ∧
      (t.printChar font c).cmdHistoryIndex = t.cmdHistoryIndex := by
  have hnewline := t.cmdHistory_newline
  rw [printChar]
  split_ifs
  · exact hnewline
  · exact hnewline
  · exact ⟨rfl, rfl⟩
  · exact hnewline
  · exact ⟨rfl, rfl⟩

theorem cmdHistory_enter (font : Glyphs) (t : Terminal) (hindex : t.linebufIndex > 0) :
    (t.enter font quiet).cmdHistory =
        t.linebuf.setIfInBounds t.linebufIndex.toNat 0 :: t.cmdHistory.dropLast ∧
      (t.enter font quiet).cmdHistoryIndex = -1 := by
  rw [enter, print, List.foldl_cons, List.foldl_nil]
  have hprompt := cmdHistory_printChar font (Terminal.drawCursor (executeLine font
    (newline { t with
      linebuf := t.linebuf.setIfInBounds t.linebufIndex.toNat 0
      cmdHistory := if t.linebufIndex > 0 then
        t.linebuf.setIfInBounds t.linebufIndex.toNat 0 :: t.cmdHistory.dropLast else t.cmdHistory
      linebufIndex := 0
      cmdHistoryIndex := -1 }) quiet)) 0x3e
  have hnewline := cmdHistory_newline { t with
      linebuf := t.linebuf.setIfInBounds t.linebufIndex.toNat 0
      cmdHistory := if t.linebufIndex > 0 then
        t.linebuf.setIfInBounds t.linebufIndex.toNat 0 :: t.cmdHistory.dropLast else t.cmdHistory
      linebufIndex := 0
      cmdHistoryIndex := -1 }
  exact ⟨(hprompt.1.trans hnewline.1).trans (if_pos hindex), hprompt.2.trans hnewline.2⟩

theorem Typed.enter {x y n : ℤ} (h : Typed t x y n) (font : Glyphs) (hn : 0 < n ∧ n < kLineMax) :
    ∃ u, Step font t keyEnter u ∧ (u.recalled 1).strlen = n ∧
      ∀ b ∈ (u.recalled 1).toList.takeWhile (· ≠ 0), b < 0x80 := by
  have hreturns : t.inputKey font 40 10 quiet 0 = some (t.drawCursor.enter font quiet).drawCursor :=
    rfl
  refine ⟨_, .inputKey 0 ascii_quiet hreturns, ?_⟩
  obtain ⟨hlines, hindex⟩ := cmdHistory_enter font t.drawCursor
    (show t.linebufIndex > 0 by rw [h.linebufIndex]; exact hn.1)
  have hrecalled : (t.drawCursor.enter font quiet).drawCursor.recalled 1 =
      t.linebuf.setIfInBounds t.linebufIndex.toNat 0 := by
    have hnewest : (t.drawCursor.enter font quiet).drawCursor.historyIndex 1 = 0 := by
      change historyIndex (t.drawCursor.enter font quiet) 1 = 0
      rw [historyIndex, hindex, hlines]
      simp
    rw [recalled, hnewest, if_pos le_rfl]
    change ((t.drawCursor.enter font quiet).cmdHistory[0]?).getD .empty = _
    rw [hlines]
    rfl
  have hlt : t.linebufIndex.toNat < kLineMax := by
    rw [h.linebufIndex]
    omega
  have hchars (i : ℕ) (hi : (i : ℤ) < n) :
      Line.chars (t.linebuf.setIfInBounds t.linebufIndex.toNat 0) i = 0x61 := by
    rw [chars_setIfInBounds _ hlt, h.linebufIndex, if_neg (by omega)]
    exact h.linebuf i hi
  have hle := Line.strlen_set_le t.linebuf hlt
  rw [hrecalled]
  have hlength : (Line.strlen (t.linebuf.setIfInBounds t.linebufIndex.toNat 0) : ℤ) = n := by
    rw [h.linebufIndex] at hle ⊢
    by_contra hne
    have hzero := Line.chars_strlen (t.linebuf.setIfInBounds n.toNat 0)
    rw [← h.linebufIndex] at hzero hne hle
    rw [hchars _ (by rw [h.linebufIndex] at hne hle ⊢; omega)] at hzero
    exact absurd hzero (by decide)
  refine ⟨hlength, fun b hb ↦ ?_⟩
  rw [Line.eq_of_mem_takeWhile (fun i hi ↦ hchars i (by omega)) hb]
  decide

/-- The key Up recalls an ASCII line of any length. -/
theorem exists_keyUp (font : Glyphs) (t : Terminal)
    (hascii : ∀ b ∈ (t.recalled 1).toList.takeWhile (· ≠ 0), b < 0x80) :
    ∃ t', Step font t keyUp t' ∧ t'.cursor.x = (t.recalled 1).strlen + 1 := by
  obtain ⟨pixels, hpixels, -⟩ := (t.recalled 1).writeString_ascii font
    (t.drawCursor.toPrompt (t.historyIndex 1)).calcCursorPos hascii
  have hrecall : ∃ u, t.drawCursor.historyUpDown font 1 ((t.recalled 1).strlen + 1) = some u :=
    ⟨_, Option.map_eq_some_iff.mpr ⟨pixels, hpixels, rfl⟩⟩
  obtain ⟨u, hu⟩ := hrecall
  have hreturns : t.inputKey font 0x52 0 quiet ((t.recalled 1).strlen + 1) = some u.drawCursor :=
    Option.map_eq_some_iff.mpr ⟨u, hu, rfl⟩
  have hcursor := historyUpDown_cursor hu
  exact ⟨_, .inputKey 0 ascii_quiet hreturns, hcursor⟩

/-- The guard only looks at the history keys. -/
theorem recallable_of_char {ascii : BitVec 8} (hascii : ascii ≠ 0) (t : Terminal)
    (keycode : BitVec 8) (run : Execution) : t.Recallable (.inputKey 0 keycode ascii run) := by
  intro direction hkey
  rw [historyKey, if_pos hascii] at hkey
  exact absurd hkey (by simp)

/-- A line is typed, entered and recalled. -/
theorem inGeometry_recall : ∃ t,
    Run (Guarded Recallable (Step blank)) start [keyA, keyEnter, keyUp] t ∧
    t.cursor.x = 2 ∧ t.InGeometry := by
  obtain ⟨t₁, htype, h₁⟩ := typed_start.key blank (by decide) (by decide)
  obtain ⟨t₂, henter, hlength, hascii⟩ := h₁.enter blank (by decide)
  obtain ⟨t₃, hup, hcursor⟩ := exists_keyUp blank t₂ hascii
  have hrecall : t₂.Recallable keyUp := by
    intro direction hkey
    obtain rfl : 1 = direction := by simpa [historyKey] using hkey
    exact ⟨by rw [hlength]; decide, hascii⟩
  have hrun : Run (Guarded Recallable (Step blank)) start [keyA, keyEnter, keyUp] t₃ :=
    .snoc (.snoc (.single ⟨recallable_of_char (by decide) _ _ _, htype⟩)
      ⟨recallable_of_char (by decide) _ _ _, henter⟩) ⟨hrecall, hup⟩
  exact ⟨t₃, hrun, by rw [hcursor, hlength]; rfl, inGeometry_of_run hrun⟩

/-- A newline of another task in the middle of the editing makes room for a line that
is longer than the row. -/
theorem not_inGeometry_long_line : ¬ ∀ (font : Glyphs) (ops : List Op) (t : Terminal),
    Run (Step font) start ops t → t.InGeometry := by
  intro hall
  obtain ⟨t₁, hfirst, h₁⟩ := typed_start.keys blank le_rfl 58 (by decide) (by decide)
  have hnewline : Step blank t₁ (.print [10]) (t₁.print blank [10]) := by
    apply Step.print
    intro c hc
    rw [List.mem_singleton.mp hc]
    decide
  obtain ⟨t₂, hsecond, h₂⟩ := (h₁.newline blank (by decide)).keys blank (by decide) 2 (by decide)
    (by decide)
  obtain ⟨t₃, henter, hlength, hascii⟩ := h₂.enter blank (by decide)
  obtain ⟨t₄, hup, hcursor⟩ := exists_keyUp blank t₃ hascii
  have hgeometry := hall blank _ t₄ ((((hfirst.snoc hnewline).append hsecond).snoc henter).snoc hup)
  have hx := hgeometry.cursor_x.2
  rw [hcursor, hlength] at hx
  exact absurd hx (by decide)

end Terminal
end MinOS
