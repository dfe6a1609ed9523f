import MinOS.Library.Transition
import MinOS.Terminal.Font

/-!
# The screen of a terminal

The cursor, the line being edited and the history of a windowed `Terminal`, and
the pixels of its window that `InputKey` and `Print` write.
-/

namespace MinOS

open Graphics Font Transition

def kRows : ℤ := 15

def kColumns : ℤ := 60

def kLineMax : ℕ := 128

/-- `std::array<char, kLineMax>`. -/
abbrev Line := Vector (BitVec 8) kLineMax

namespace Line

/-- `&line[0]` as a string. -/
def chars (l : Line) (i : ℕ) : BitVec 8 := l[i]?.getD 0

/-- `strlen(&line[0])`. -/
def strlen (line : Line) : ℕ := (line.toList.takeWhile (· ≠ 0)).length

/-- `strcpy(&dst[0], &src[0])`. -/
def strcpy (dst src : Line) : Line :=
  Vector.ofFn fun i ↦ if i ≤ src.strlen then src[i] else dst[i]

/-- A line of zeros. -/
def empty : Line := Vector.replicate kLineMax 0

end Line

/-- A windowed terminal, with all the pixels that were written so far. -/
structure Terminal where
  cursor : Vector2D
  linebufIndex : ℤ
  linebuf : Line
  cmdHistory : List Line
  cmdHistoryIndex : ℤ
  written : List Vector2D

namespace Terminal

/-- `ToplevelWindow::kTopLeftMargin`. -/
def kTopLeftMargin : Vector2D := ⟨4, 24⟩

/-- `ToplevelWindow::kBottomRightMargin`. -/
def kBottomRightMargin : Vector2D := ⟨4, 4⟩

/-- The window that the constructor makes. -/
def window : Rectangle where
  pos := ⟨0, 0⟩
  size := ⟨kColumns * 8 + 8, kRows * 16 + 8⟩ + kTopLeftMargin + kBottomRightMargin

/-- The terminal after its constructor: the prompt is written. -/
def start : Terminal where
  cursor := ⟨1, 0⟩
  linebufIndex := 0
  linebuf := .empty
  cmdHistory := List.replicate 8 .empty
  cmdHistoryIndex := -1
  written := []

def calcCursorPos (t : Terminal) : Vector2D :=
  kTopLeftMargin + ⟨4 + 8 * t.cursor.x, 4 + 16 * t.cursor.y⟩

def write (t : Terminal) (pixels : List Vector2D) : Terminal :=
  { t with written := t.written ++ pixels }

/-- `DrawCursor`, in either color. -/
def drawCursor (t : Terminal) : Terminal := t.write (fillRectangle t.calcCursorPos ⟨7, 15⟩)

/-- `Scroll1`. -/
def scroll1 (t : Terminal) : Terminal :=
  (t.write (fillRectangle (kTopLeftMargin + ⟨4, 4⟩) ⟨8 * kColumns, 16 * (kRows - 1)⟩)).write
    (fillRectangle (kTopLeftMargin + ⟨4, 4 + 16 * t.cursor.y⟩) ⟨8 * kColumns, 16⟩)

/-- The lambda `newline`. -/
def newline (t : Terminal) : Terminal :=
  let t := { t with cursor := ⟨0, t.cursor.y⟩ }
  if t.cursor.y < kRows - 1 then { t with cursor := ⟨0, t.cursor.y + 1⟩ } else t.scroll1

/-- `WriteUnicode` at the cursor, which then moves on. -/
def put (font : Glyphs) (t : Terminal) (c : ℕ) (width : ℤ) : Terminal :=
  let t := t.write (writeUnicode font t.calcCursorPos c)
  { t with cursor := ⟨t.cursor.x + width, t.cursor.y⟩ }

/-- `Print(char32_t)`. -/
def printChar (font : Glyphs) (t : Terminal) (c : ℕ) : Terminal :=
  if c = 10 then t.newline
  else if isHankaku c then
    (if t.cursor.x = kColumns then t.newline else t).put font c 1
  else
    (if t.cursor.x ≥ kColumns - 1 then t.newline else t).put font c 2

/-- `Print(const char*)` of a string with the given code points. -/
def print (font : Glyphs) (t : Terminal) (codes : List ℕ) : Terminal :=
  (codes.foldl (printChar font) t.drawCursor).drawCursor

/-- What the commands of `ExecuteLine` and the apps that it runs do to the terminal. -/
inductive Output where
  | print (codes : List ℕ)
  | clear
  | drawCursor

def Output.apply (font : Glyphs) (t : Terminal) : Output → Terminal
  | .print codes => t.print font codes
  | .clear =>
      { t.write (fillRectangle (kTopLeftMargin + ⟨4, 4⟩) ⟨8 * kColumns, 16 * kRows⟩) with
        cursor := ⟨t.cursor.x, 0⟩ }
  | .drawCursor => t.drawCursor

/-- One execution of `ExecuteLine`: its output and what it leaves in the line. -/
structure Execution where
  outputs : List Output
  linebuf : Line

def executeLine (font : Glyphs) (t : Terminal) (run : Execution) : Terminal :=
  { run.outputs.foldl (fun t o ↦ o.apply font t) t with linebuf := run.linebuf }

/-- `cmd_history_index_` after `HistoryUpDown` has moved it. -/
def historyIndex (t : Terminal) (direction : ℤ) : ℤ :=
  if direction = -1 ∧ t.cmdHistoryIndex ≥ 0 then t.cmdHistoryIndex - 1
  else if direction = 1 ∧ t.cmdHistoryIndex + 1 < t.cmdHistory.length then t.cmdHistoryIndex + 1
  else t.cmdHistoryIndex

/-- The line that `HistoryUpDown` recalls. -/
def recalled (t : Terminal) (direction : ℤ) : Line :=
  if t.historyIndex direction ≥ 0 then
    t.cmdHistory[(t.historyIndex direction).toNat]?.getD .empty
  else .empty

/-- The cursor behind the prompt, with a new place in the history. -/
def toPrompt (t : Terminal) (index : ℤ) : Terminal :=
  { t with cmdHistoryIndex := index, cursor := ⟨1, t.cursor.y⟩ }

/-- `HistoryUpDown`, if its `WriteString` ends within `fuel` turns. -/
def historyUpDown (font : Glyphs) (t : Terminal) (direction : ℤ) (fuel : ℕ) : Option Terminal :=
  let history := t.recalled direction
  let t := t.toPrompt (t.historyIndex direction)
  let firstPos := t.calcCursorPos
  let t := t.write (fillRectangle firstPos ⟨8 * (kColumns - 1), 16⟩)
  (writeString font firstPos history.chars fuel).map fun pixels ↦
    { t.write pixels with
      linebuf := t.linebuf.strcpy history
      linebufIndex := history.strlen
      cursor := ⟨history.strlen + 1, t.cursor.y⟩ }

/-- The branch of `InputKey` for a newline. -/
def enter (font : Glyphs) (t : Terminal) (run : Execution) : Terminal :=
  let line := t.linebuf.setIfInBounds t.linebufIndex.toNat 0
  let t :=
    { t with
      linebuf := line
      cmdHistory := if t.linebufIndex > 0 then line :: t.cmdHistory.dropLast else t.cmdHistory
      linebufIndex := 0
      cmdHistoryIndex := -1 }
  (t.newline.executeLine font run).print font [0x3e]

/-- The branch of `InputKey` for a backspace. -/
def backspace (t : Terminal) : Terminal :=
  if t.cursor.x > 1 then
    let t := { t with cursor := ⟨t.cursor.x - 1, t.cursor.y⟩ }
    let t := t.write (fillRectangle t.calcCursorPos ⟨8, 16⟩)
    { t with linebufIndex := if t.linebufIndex > 0 then t.linebufIndex - 1 else t.linebufIndex }
  else t

/-- The branch of `InputKey` for any other character. -/
def typeChar (font : Glyphs) (t : Terminal) (ascii : BitVec 8) : Terminal :=
  if t.cursor.x < kColumns - 1 ∧ t.linebufIndex < kLineMax - 1 then
    let t :=
      { t with
        linebuf := t.linebuf.setIfInBounds t.linebufIndex.toNat ascii
        linebufIndex := t.linebufIndex + 1 }
    let t := t.write (writeAscii font t.calcCursorPos ascii)
    { t with cursor := ⟨t.cursor.x + 1, t.cursor.y⟩ }
  else t

/-- `InputKey`, if it returns within `fuel` turns of `WriteString`. -/
def inputKey (font : Glyphs) (t : Terminal) (keycode ascii : BitVec 8) (run : Execution)
    (fuel : ℕ) : Option Terminal :=
  let t := t.drawCursor
  let t :=
    if ascii = 10 then some (t.enter font run)
    else if ascii = 8 then some t.backspace
    else if ascii ≠ 0 then some (t.typeChar font ascii)
    else if keycode = 0x51 then t.historyUpDown font (-1) fuel
    else if keycode = 0x52 then t.historyUpDown font 1 fuel
    else some t
  t.map drawCursor

/-- A call of `InputKey`, with what `ExecuteLine` does should it be reached, or a
call of `Print`. -/
inductive Op where
  | inputKey (modifier keycode ascii : BitVec 8) (run : Execution)
  | print (codes : List ℕ)

/-- ASCII output. -/
def Ascii (codes : List ℕ) : Prop := ∀ c ∈ codes, c ≤ 0x7f

def Execution.Ascii (run : Execution) : Prop :=
  ∀ o ∈ run.outputs, ∀ codes, o = .print codes → Terminal.Ascii codes

/-- The calls, each taken as one step. -/
inductive Step (font : Glyphs) : Terminal → Op → Terminal → Prop where
  | inputKey {t t' : Terminal} {keycode ascii : BitVec 8} {run : Execution} {fuel : ℕ}
      (modifier : BitVec 8) (hascii : run.Ascii)
      (hreturns : t.inputKey font keycode ascii run fuel = some t') :
      Step font t (.inputKey modifier keycode ascii run) t'
  | print {codes : List ℕ} (t : Terminal) (hascii : Ascii codes) :
      Step font t (.print codes) (t.print font codes)

/-- The direction of the history key that a call of `InputKey` is about, if any. -/
def historyKey (keycode ascii : BitVec 8) : Option ℤ :=
  if ascii ≠ 0 then none
  else if keycode = 0x51 then some (-1)
  else if keycode = 0x52 then some 1
  else none

/-- A recalled line fits on a row behind the prompt, and is ASCII. -/
def Recallable (t : Terminal) : Op → Prop
  | .inputKey _ keycode ascii _ => ∀ direction ∈ historyKey keycode ascii,
      (t.recalled direction).strlen ≤ kColumns - 1 ∧
        ∀ b ∈ (t.recalled direction).toList.takeWhile (· ≠ 0), b < 0x80
  | .print _ => True

/-- The cursor, the edit position and the history index are in range, and so is
every pixel that was written. -/
structure InGeometry (t : Terminal) : Prop where
  cursor_x : 0 ≤ t.cursor.x ∧ t.cursor.x ≤ kColumns
  cursor_y : 0 ≤ t.cursor.y ∧ t.cursor.y < kRows
  linebufIndex : 0 ≤ t.linebufIndex ∧ t.linebufIndex < kLineMax
  cmdHistoryIndex : -1 ≤ t.cmdHistoryIndex ∧ t.cmdHistoryIndex < t.cmdHistory.length
  written : ∀ p ∈ t.written, window.Contains p

end Terminal
end MinOS
