import MinOS.Graphics.Window
import MinOS.Library.TextView
import MinOS.Library.Transition
import MinOS.Terminal.Font

/-!
# The console

`console.cpp`.  The console first draws on the screen itself and later on a window.  It scrolls
the screen by writing its buffer again, and the window by moving its pixels.
-/

namespace MinOS

open Graphics Font TextView

/-- What the console draws on: the screen, or the window that was set. -/
inductive Surface where
  | screen (fb : FrameBuffer)
  | window (w : Window)

namespace Surface

def write : Surface → Vector2D → PixelColor → Surface
  | .screen fb, pos, c => .screen (fb.write pos c)
  | .window w, pos, c => .window (w.write pos c)

def paint (s : Surface) (pixels : List Vector2D) (c : PixelColor) : Surface :=
  pixels.foldl (fun s pos ↦ s.write pos c) s

/-- The color that is seen at a position: an opaque window is drawn from its shadow buffer. -/
def shown : Surface → Vector2D → PixelColor
  | .screen fb, p => fb.pixelAt p
  | .window w, p =>
      match w.transparentColor with
      | none => w.shadowBuffer.pixelAt p
      | some _ => w.atPos p

/-- What painting leaves as it is. -/
structure Shape where
  onScreen : Bool
  outline : Rectangle
  transparentColor : Option PixelColor

def shape : Surface → Shape
  | .screen fb => ⟨true, fb.outline, none⟩
  | .window w => ⟨false, w.outline, w.transparentColor⟩

end Surface

/-- The colors and the size of the console, in characters. -/
structure TextArea where
  fgColor : PixelColor
  bgColor : PixelColor
  rows : ℕ
  columns : ℕ

structure Console extends TextArea where
  buffer : ℕ → ℕ → BitVec 8
  cursorRow : ℕ
  cursorColumn : ℕ
  surface : Surface

namespace Console

def kMaxRows : ℕ := 120

def kMaxColumns : ℕ := 240

/-- `FillRectangle` with the background color. -/
def fill (con : Console) (pos size : Vector2D) : Console :=
  { con with surface := con.surface.paint (fillRectangle pos size) con.bgColor }

/-- `WriteString` of a row of the buffer, if it ends within `fuel` turns. -/
def writeRow (font : Glyphs) (fuel : ℕ) (con : Console) (row : ℕ) : Option Console :=
  (writeString font ⟨0, 16 * row⟩ (con.buffer row) fuel).map fun pixels ↦
    { con with surface := con.surface.paint pixels con.fgColor }

def refresh (font : Glyphs) (fuel : ℕ) (con : Console) : Option Console :=
  (List.range con.rows).foldlM (writeRow font fuel)
    (con.fill ⟨0, 0⟩ ⟨8 * con.columns, 16 * con.rows⟩)

/-- The size that the constructor gives to the console. -/
def ofSize (fgColor bgColor : PixelColor) (rows columns : ℕ) : TextArea where
  fgColor := fgColor
  bgColor := bgColor
  rows := min rows kMaxRows
  columns := min columns kMaxColumns

/-- The constructor and `SetWriter`. -/
def start (font : Glyphs) (fuel : ℕ) (fgColor bgColor : PixelColor) (rows columns : ℕ)
    (screen : FrameBuffer) : Option Console :=
  refresh font fuel
    { ofSize fgColor bgColor rows columns with
      buffer := fun _ _ ↦ 0
      cursorRow := 0
      cursorColumn := 0
      surface := .screen screen }

/-- `SetWindow` of a window that is not yet the console's. -/
def setWindow (font : Glyphs) (fuel : ℕ) (con : Console) (w : Window) : Option Console :=
  { con with surface := .window w }.refresh font fuel

/-- `memcpy(buffer_[row], buffer_[row + 1], columns_ + 1)`. -/
def copyRow (con : Console) (row : ℕ) : Console :=
  { con with
    buffer := Function.update con.buffer row fun k ↦
      if k < con.columns + 1 then con.buffer (row + 1) k else con.buffer row k }

/-- `memset(buffer_[row], 0, columns_ + 1)`. -/
def clearRow (con : Console) (row : ℕ) : Console :=
  { con with
    buffer := Function.update con.buffer row fun k ↦
      if k < con.columns + 1 then 0 else con.buffer row k }

def scrollWindow (con : Console) (w : Window) : Console :=
  let moveSrc : Rectangle := ⟨⟨0, 16⟩, ⟨8 * con.columns, 16 * (con.rows - 1)⟩⟩
  { con with surface := .window (w.move ⟨0, 0⟩ moveSrc) }.fill ⟨0, 16 * (con.rows - 1)⟩
    ⟨8 * con.columns, 16⟩

def scrollScreen (font : Glyphs) (fuel : ℕ) (con : Console) : Option Console :=
  ((List.range (con.rows - 1)).foldlM (fun con row ↦ (con.copyRow row).writeRow font fuel row)
    (con.fill ⟨0, 0⟩ ⟨8 * con.columns, 16 * con.rows⟩)).map (clearRow · (con.rows - 1))

def newline (font : Glyphs) (fuel : ℕ) (con : Console) : Option Console :=
  let con := { con with cursorColumn := 0 }
  if con.cursorRow < con.rows - 1 then some { con with cursorRow := con.cursorRow + 1 }
  else
    match con.surface with
    | .window w => some (con.scrollWindow w)
    | .screen _ => con.scrollScreen font fuel

/-- One turn of the loop of `PutString`. -/
def putChar (font : Glyphs) (fuel : ℕ) (con : Console) (c : BitVec 8) : Option Console :=
  if c = 0x0a then con.newline font fuel
  else if con.cursorColumn < con.columns - 1 then
    some { con with
      surface := con.surface.paint
        (writeAscii font ⟨8 * con.cursorColumn, 16 * con.cursorRow⟩ c) con.fgColor
      buffer := Function.update con.buffer con.cursorRow
        (Function.update (con.buffer con.cursorRow) con.cursorColumn c)
      cursorColumn := con.cursorColumn + 1 }
  else some con

/-- `PutString` of the characters before the terminating zero. -/
def putString (font : Glyphs) (fuel : ℕ) (con : Console) (s : List (BitVec 8)) : Option Console :=
  s.foldlM (putChar font fuel) con

inductive Call where
  | putString (s : List (BitVec 8))
  | setWindow (w : Window)

def Call.isSetWindow : Call → Bool
  | .putString _ => false
  | .setWindow _ => true

/-- The characters that a call adds to the output. -/
def Call.output : Call → List (BitVec 8)
  | .putString s => s
  | .setWindow _ => []

def exec (font : Glyphs) (fuel : ℕ) (con : Console) : Call → Option Console
  | .putString s => con.putString font fuel s
  | .setWindow w => con.setWindow font fuel w

end Console

/-! ## Painting -/

namespace Surface

@[simp] theorem shape_write (s : Surface) (pos : Vector2D) (c : PixelColor) :
    (s.write pos c).shape = s.shape := by
  cases s <;> rfl

@[simp] theorem shape_paint (s : Surface) (pixels : List Vector2D) (c : PixelColor) :
    (s.paint pixels c).shape = s.shape := by
  induction pixels generalizing s with
  | nil => rfl
  | cons pos pixels ih => exact (ih (s.write pos c)).trans (s.shape_write pos c)

theorem paint_append (s : Surface) (pixels pixels' : List Vector2D) (c : PixelColor) :
    s.paint (pixels ++ pixels') c = (s.paint pixels c).paint pixels' c :=
  List.foldl_append

theorem shown_write {s : Surface} {p q : Vector2D} (c : PixelColor)
    (hp : s.shape.outline.Contains p) (hq : s.shape.outline.Contains q) :
    (s.write p c).shown q = if q = p then c else s.shown q := by
  cases s with
  | screen fb => exact FrameBuffer.pixelAt_write c hp hq
  | window w =>
      simp only [write, shown, Window.write]
      cases w.transparentColor with
      | none =>
          rw [shape, ← w.shadow_outline] at hp hq
          exact FrameBuffer.pixelAt_write c hp hq
      | some _ => exact Function.update_apply _ _ _ _

theorem shown_paint {s : Surface} {pixels : List Vector2D} {q : Vector2D} (c : PixelColor)
    (hpixels : ∀ p ∈ pixels, s.shape.outline.Contains p) (hq : s.shape.outline.Contains q) :
    (s.paint pixels c).shown q = if q ∈ pixels then c else s.shown q := by
  induction pixels generalizing s with
  | nil => simp [paint]
  | cons p pixels ih =>
      have hfirst := shown_write c (hpixels p List.mem_cons_self) hq
      have hrest := @ih (s.write p c)
        (fun r hr ↦ by rw [shape_write]; exact hpixels r (List.mem_cons_of_mem p hr))
        (by rwa [shape_write])
      change ((s.write p c).paint pixels c).shown q = _
      rw [hrest, hfirst]
      by_cases hin : q ∈ pixels
      · rw [if_pos hin, if_pos (List.mem_cons_of_mem p hin)]
      · rw [if_neg hin]
        simp only [List.mem_cons, hin, or_false]

end Surface

/-! ## Text -/

namespace TextArea

def area (t : TextArea) : Rectangle := ⟨⟨0, 0⟩, ⟨8 * t.columns, 16 * t.rows⟩⟩

/-- The color of a pixel of the text grid that has the given characters in its rows. -/
def gridPixel (t : TextArea) (font : Glyphs) (text : ℕ → List (BitVec 8)) (p : Vector2D) :
    PixelColor :=
  let row := (p.y / 16).toNat
  let col := (p.x / 8).toNat
  match (text row)[col]? with
  | none => t.bgColor
  | some c => if p ∈ writeAscii font ⟨8 * col, 16 * row⟩ c then t.fgColor else t.bgColor

/-- Strings are ASCII text; a window is opaque, as `InitializeLayer` makes it, and the
console has room in it. -/
def Takes (t : TextArea) : Console.Call → Prop
  | .putString s => ∀ c ∈ s, IsAscii c
  | .setWindow w => w.transparentColor = none ∧ t.area.Within w.outline

/-- A surface shows the text grid. -/
def Shows (t : TextArea) (font : Glyphs) (s : Surface) (text : ℕ → List (BitVec 8)) : Prop :=
  ∀ p, t.area.Contains p → s.shown p = t.gridPixel font text p

variable {t : TextArea} {font : Glyphs} {s : Surface} {text : ℕ → List (BitVec 8)}

/-- Only the rows of the console count. -/
theorem Shows.congr (hshows : t.Shows font s text) {text' : ℕ → List (BitVec 8)}
    (heq : ∀ row < t.rows, text' row = text row) : t.Shows font s text' := by
  intro p hp
  have hrow : (p.y / 16).toNat < t.rows := by
    simp only [area, Rectangle.Contains] at hp
    omega
  rw [hshows p hp]
  simp only [gridPixel, heq _ hrow]

theorem shows_fill (hfit : t.area.Within s.shape.outline) :
    t.Shows font (s.paint (fillRectangle ⟨0, 0⟩ ⟨8 * t.columns, 16 * t.rows⟩) t.bgColor)
      fun _ ↦ [] := by
  intro p hp
  rw [Surface.shown_paint _ (fun q hq ↦ hfit.contains (mem_fillRectangle hq)) (hfit.contains hp),
    if_pos (mem_fillRectangle_of_contains hp)]
  rfl

theorem shows_glyph (hshows : t.Shows font s text) (hfit : t.area.Within s.shape.outline)
    {row : ℕ} (hrow : row < t.rows) (hcol : (text row).length < t.columns) (c : BitVec 8) :
    t.Shows font (s.paint (writeAscii font ⟨8 * (text row).length, 16 * row⟩ c) t.fgColor)
      (Function.update text row (text row ++ [c])) := by
  intro p hp
  have hcell : ∀ q ∈ writeAscii font ⟨8 * (text row).length, 16 * row⟩ c,
      (Rectangle.mk ⟨8 * (text row).length, 16 * row⟩ ⟨8, 16⟩).Contains q :=
    fun q hq ↦ mem_writeAscii hq
  have hin : ∀ q ∈ writeAscii font ⟨8 * (text row).length, 16 * row⟩ c, t.area.Contains q := by
    intro q hq
    have hq := hcell q hq
    simp only [Rectangle.Contains, area] at hq ⊢
    omega
  rw [Surface.shown_paint _ (fun q hq ↦ hfit.contains (hin q hq)) (hfit.contains hp),
    hshows p hp]
  have hp' := hcell p
  simp only [area, Rectangle.Contains] at hp hp'
  simp only [gridPixel]
  by_cases hr : (p.y / 16).toNat = row
  · rw [hr, Function.update_self]
    by_cases hc : (p.x / 8).toNat = (text row).length
    · rw [hc]
      simp
    · have hout : p ∉ writeAscii font ⟨8 * (text row).length, 16 * row⟩ c :=
        fun hmem ↦ hc (by have := hp' hmem; omega)
      rw [if_neg hout, List.getElem?_append]
      split_ifs with hlt
      · rfl
      · rw [List.getElem?_eq_none (by omega), List.getElem?_eq_none (by simp; omega)]
  · have hout : p ∉ writeAscii font ⟨8 * (text row).length, 16 * row⟩ c :=
      fun hmem ↦ hr (by have := hp' hmem; omega)
    rw [if_neg hout, Function.update_of_ne hr]

theorem shows_asciiPixels (hfit : t.area.Within s.shape.outline) {row : ℕ} (hrow : row < t.rows)
    {l : List (BitVec 8)} (hshows : t.Shows font s text)
    (hcols : (text row).length + l.length ≤ t.columns) :
    t.Shows font (s.paint (asciiPixels font ⟨0, 16 * row⟩ l (text row).length) t.fgColor)
      (Function.update text row (text row ++ l)) := by
  induction l generalizing s text with
  | nil =>
      rw [List.append_nil, Function.update_eq_self]
      exact hshows
  | cons c l ih =>
      rw [List.length_cons] at hcols
      have hfirst := shows_glyph hshows hfit hrow (by omega) c
      have hpos : (⟨0, 16 * row⟩ : Vector2D) + ⟨8 * (text row).length, 0⟩ =
          ⟨8 * (text row).length, 16 * row⟩ := by
        apply Vector2D.ext <;> simp
      have hrest := ih (by rwa [Surface.shape_paint]) hfirst
        (by rw [Function.update_self, List.length_append, List.length_singleton]; omega)
      rw [Function.update_self, Function.update_idem, List.append_assoc, List.length_append,
        List.length_singleton] at hrest
      rw [asciiPixels, Surface.paint_append, hpos]
      exact_mod_cast hrest

end TextArea

namespace Console

variable {font : Glyphs} {fuel : ℕ} {con : Console} {text : ℕ → List (BitVec 8)}

/-- A row of the buffer holds a line and is zero behind it. -/
def HoldsRow (con : Console) (row : ℕ) (l : List (BitVec 8)) : Prop :=
  ∀ k ≤ con.columns, con.buffer row k = l[k]?.getD 0

/-- The console after it was painted on, when it shows the given text. -/
def Painted (font : Glyphs) (con : Console) (text : ℕ → List (BitVec 8)) (con' : Console) : Prop :=
  ∃ s, con' = { con with surface := s } ∧ s.shape = con.surface.shape ∧ con.Shows font s text

/-- `WriteString` of a row that has been empty so far. -/
theorem writeRow_eq (hfit : con.area.Within con.surface.shape.outline)
    (hshows : con.Shows font con.surface text) {row : ℕ} (hrow : row < con.rows)
    (hempty : text row = []) {l : List (BitVec 8)} (hascii : ∀ c ∈ l, IsAscii c)
    (hlen : l.length ≤ con.columns) (hfuel : con.columns < fuel) (hl : con.HoldsRow row l) :
    ∃ con', con.writeRow font fuel row = some con' ∧
      con.Painted font (Function.update text row l) con' := by
  have hloop : writeStringLoop font ⟨0, 16 * row⟩ (con.buffer row) fuel 0 0 =
      some (asciiPixels font ⟨0, 16 * row⟩ l 0) := by
    apply writeStringLoop_asciiPixels font _ hascii 0 _ (hlen.trans_lt hfuel)
    intro k hk
    rw [Nat.zero_add]
    exact hl k (hk.trans hlen)
  have hpaint := TextArea.shows_asciiPixels hfit hrow hshows (l := l)
    (by rw [hempty, List.length_nil]; omega)
  rw [hempty] at hpaint
  refine ⟨_, ?_, _, rfl, Surface.shape_paint _ _ _, hpaint⟩
  rw [writeRow, writeString, hloop]
  rfl

/-- The text of the rows before the row `n`. -/
def upTo (text : ℕ → List (BitVec 8)) (n row : ℕ) : List (BitVec 8) :=
  if row < n then text row else []

theorem update_upTo (text : ℕ → List (BitVec 8)) (n : ℕ) :
    Function.update (upTo text n) n (text n) = upTo text (n + 1) := by
  funext row
  by_cases hrow : row = n
  · rw [hrow, Function.update_self, upTo, if_pos (Nat.lt_succ_self n)]
  · rw [Function.update_of_ne hrow]
    simp only [upTo]
    exact if_congr (by omega) rfl rfl

/-- The buffer holds lines of ASCII text, and the surface has room for them. -/
structure Paintable (fuel : ℕ) (con : Console) (text : ℕ → List (BitVec 8)) : Prop where
  fit : con.area.Within con.surface.shape.outline
  ascii : ∀ row, ∀ c ∈ text row, IsAscii c
  length_le : ∀ row, (text row).length ≤ con.columns
  columns_lt : con.columns < fuel
  buffer : ∀ row < con.rows, con.HoldsRow row (text row)

/-- `Refresh` paints what the buffer holds. -/
theorem Paintable.refresh (h : con.Paintable fuel text) :
    ∃ con', con.refresh font fuel = some con' ∧ con.Painted font text con' := by
  have hloop : ∃ con', con.refresh font fuel = some con' ∧
      con.Painted font (upTo text con.rows) con' := by
    apply Transition.foldlM_range_invariant (fun n ↦ con.Painted font (upTo text n))
    · rintro n hn _ ⟨s, rfl, hshape, hshows⟩
      obtain ⟨_, hrow, s', rfl, hshape', hshows'⟩ :=
        @writeRow_eq font fuel { con with surface := s } _ (by rw [hshape]; exact h.fit) hshows n hn
          (if_neg (Nat.lt_irrefl n)) (text n) (h.ascii n) (h.length_le n) h.columns_lt
          (h.buffer n hn)
      rw [update_upTo] at hshows'
      exact ⟨_, hrow, s', rfl, hshape'.trans hshape, hshows'⟩
    · exact ⟨_, rfl, Surface.shape_paint _ _ _, TextArea.shows_fill h.fit⟩
  obtain ⟨con', hrefresh, s, hs, hshape, hshows⟩ := hloop
  exact ⟨con', hrefresh, s, hs, hshape, hshows.congr fun row hrow ↦ (if_pos hrow).symm⟩

/-! ## Scrolling -/

/-- The rows after everything has moved up. -/
def scrolled (rows : ℕ) (text : ℕ → List (BitVec 8)) (row : ℕ) : List (BitVec 8) :=
  if row + 1 < rows then text (row + 1) else []

/-- The console after `n` rows of the buffer have moved up and were painted. -/
def Scrolling (font : Glyphs) (con : Console) (text : ℕ → List (BitVec 8)) (n : ℕ)
    (con' : Console) : Prop :=
  ∃ b s, con' = { con with buffer := b, surface := s } ∧ s.shape = con.surface.shape ∧
    con.Shows font s (upTo (fun row ↦ text (row + 1)) n) ∧
      ∀ row, ∀ k ≤ con.columns,
        b row k = if row < n then con.buffer (row + 1) k else con.buffer row k

theorem buffer_copyRow (con : Console) (n row : ℕ) {k : ℕ} (hk : k ≤ con.columns) :
    (con.copyRow n).buffer row k =
      if row = n then con.buffer (row + 1) k else con.buffer row k := by
  simp only [copyRow]
  split_ifs with hrow
  · rw [hrow, Function.update_self, if_pos (Nat.lt_succ_of_le hk)]
  · rw [Function.update_of_ne hrow]

theorem buffer_clearRow (con : Console) (n row : ℕ) {k : ℕ} (hk : k ≤ con.columns) :
    (con.clearRow n).buffer row k = if row = n then 0 else con.buffer row k := by
  simp only [clearRow]
  split_ifs with hrow
  · rw [hrow, Function.update_self, if_pos (Nat.lt_succ_of_le hk)]
  · rw [Function.update_of_ne hrow]

/-- One turn of the loop of `Newline`. -/
theorem Scrolling.turn (h : con.Paintable fuel text) {n : ℕ} (hn : n < con.rows - 1)
    {con' : Console} (hcon' : con.Scrolling font text n con') :
    ∃ con'', (con'.copyRow n).writeRow font fuel n = some con'' ∧
      con.Scrolling font text (n + 1) con'' := by
  obtain ⟨b, s, rfl, hshape, hshows, hb⟩ := hcon'
  let before : Console := { con with buffer := b, surface := s }
  have hcopy : ∀ row, ∀ k ≤ con.columns, (before.copyRow n).buffer row k =
      if row < n + 1 then con.buffer (row + 1) k else con.buffer row k := by
    intro row k hk
    rw [buffer_copyRow before n row hk]
    by_cases hrow : row = n
    · -- the row below has not moved yet
      rw [if_pos hrow, if_pos (by omega)]
      exact (hb (row + 1) k hk).trans (if_neg (by omega))
    · rw [if_neg hrow]
      exact (hb row k hk).trans (if_congr (by omega) rfl rfl)
  have hline : (before.copyRow n).HoldsRow n (text (n + 1)) := by
    intro k hk
    rw [hcopy n k hk, if_pos (Nat.lt_succ_self n)]
    exact h.buffer (n + 1) (by omega) k hk
  obtain ⟨_, hrow, s', rfl, hshape', hshows'⟩ :=
    @writeRow_eq font fuel (before.copyRow n) _ (by rw [copyRow, hshape]; exact h.fit) hshows n
      (Nat.lt_of_lt_pred hn) (if_neg (Nat.lt_irrefl n)) (text (n + 1)) (h.ascii _) (h.length_le _)
      h.columns_lt hline
  rw [update_upTo (fun row ↦ text (row + 1))] at hshows'
  exact ⟨_, hrow, _, s', rfl, hshape'.trans hshape, hshows', hcopy⟩

/-- The screen shows the buffer when it has been scrolled. -/
theorem Paintable.scrollScreen (h : con.Paintable fuel text) :
    ∃ b s, con.scrollScreen font fuel = some { con with buffer := b, surface := s } ∧
      s.shape = con.surface.shape ∧ con.Shows font s (scrolled con.rows text) ∧
        ∀ row < con.rows, { con with buffer := b }.HoldsRow row (scrolled con.rows text row) := by
  have hloop : ∃ con',
      (List.range (con.rows - 1)).foldlM (fun con row ↦ (con.copyRow row).writeRow font fuel row)
        (con.fill ⟨0, 0⟩ ⟨8 * con.columns, 16 * con.rows⟩) = some con' ∧
      con.Scrolling font text (con.rows - 1) con' := by
    apply Transition.foldlM_range_invariant (con.Scrolling font text)
    · exact fun n hn con' hcon' ↦ hcon'.turn h hn
    · refine ⟨con.buffer, _, rfl, Surface.shape_paint _ _ _, TextArea.shows_fill h.fit, ?_⟩
      intro row k _
      rw [if_neg (Nat.not_lt_zero row)]
  obtain ⟨_, hrun, b, s, rfl, hshape, hshows, hb⟩ := hloop
  refine ⟨_, s, by rw [Console.scrollScreen, hrun]; rfl, hshape,
    hshows.congr fun row _ ↦ ?_, ?_⟩
  · simp only [scrolled, upTo]
    exact if_congr (by omega) rfl rfl
  · intro row hrow k hk
    have hclear := buffer_clearRow { con with buffer := b, surface := s } (con.rows - 1) row hk
    refine hclear.trans ?_
    by_cases hlast : row = con.rows - 1
    · rw [if_pos hlast, scrolled, if_neg (by omega)]
      rfl
    · rw [if_neg hlast, scrolled, if_pos (by omega)]
      refine (hb row k hk).trans ?_
      rw [if_pos (by omega)]
      exact h.buffer (row + 1) (by omega) k hk

end Console

namespace TextArea

variable {t : TextArea} {font : Glyphs} {text : ℕ → List (BitVec 8)}

/-- A pixel of the text that has moved up. -/
theorem gridPixel_scrolled {p : Vector2D} (hp : t.area.Contains p) :
    t.gridPixel font (Console.scrolled t.rows text) p =
      if p.y < 16 * (t.rows - 1) then t.gridPixel font text (p + ⟨0, 16⟩) else t.bgColor := by
  simp only [area, Rectangle.Contains] at hp
  by_cases hrow : p.y < 16 * (t.rows - 1)
  · have hy : ((p + ⟨0, 16⟩ : Vector2D).y / 16).toNat = (p.y / 16).toNat + 1 := by
      rw [Vector2D.add_y]
      dsimp only
      omega
    have hx : ((p + ⟨0, 16⟩ : Vector2D).x / 8).toNat = (p.x / 8).toNat := by
      rw [Vector2D.add_x, add_zero]
    have hpos : (⟨8 * (p.x / 8).toNat, 16 * ((p.y / 16).toNat + 1 : ℕ)⟩ : Vector2D) =
        ⟨8 * (p.x / 8).toNat, 16 * (p.y / 16).toNat⟩ + ⟨0, 16⟩ := by
      apply Vector2D.ext
      · simp
      · rw [Vector2D.add_y]
        push_cast
        ring
    rw [if_pos hrow]
    simp only [gridPixel]
    rw [hy, hx, hpos, Console.scrolled, if_pos (by omega)]
    simp only [mem_writeAscii_add]
  · rw [if_neg hrow]
    simp only [gridPixel]
    rw [Console.scrolled, if_neg (by omega)]
    rfl

end TextArea

namespace Console

variable {font : Glyphs} {fuel : ℕ} {con : Console} {text : ℕ → List (BitVec 8)}

theorem shown_move {w : Window} (hsolid : w.transparentColor = none) (hrows : 0 < con.rows)
    (hfit : con.area.Within w.outline) (hshows : con.Shows font (.window w) text) {p : Vector2D}
    (hp : con.area.Contains p) (hrow : p.y < 16 * (con.rows - 1)) :
    (Surface.window (w.move ⟨0, 0⟩ ⟨⟨0, 16⟩, ⟨8 * con.columns, 16 * (con.rows - 1)⟩⟩)).shown p =
      con.gridPixel font text (p + ⟨0, 16⟩) := by
  have hbelow : (⟨⟨0, 16⟩, ⟨8 * con.columns, 16 * (con.rows - 1)⟩⟩ : Rectangle).Within
      w.outline := by
    simp only [Rectangle.Within, TextArea.area] at hfit ⊢
    omega
  have habove : (⟨⟨0, 0⟩, ⟨8 * con.columns, 16 * (con.rows - 1)⟩⟩ : Rectangle).Within
      w.outline := by
    simp only [Rectangle.Within, TextArea.area] at hfit ⊢
    omega
  have hin := hfit.contains hp
  simp only [TextArea.area, Rectangle.Contains] at hp
  have hfrom : p - ⟨0, 0⟩ + ⟨0, 16⟩ = p + ⟨0, 16⟩ := by
    apply Vector2D.ext <;> simp
  have hp' : con.area.Contains (p + ⟨0, 16⟩) := by
    simp only [TextArea.area, Rectangle.Contains, Vector2D.add_x, Vector2D.add_y]
    omega
  have hshown := hshows _ hp'
  simp only [Surface.shown, hsolid] at hshown
  rw [← w.shadow_outline] at hbelow habove hin
  simp only [Surface.shown, Window.move, hsolid]
  rw [FrameBuffer.pixelAt_move habove hbelow hin, if_pos, hfrom, hshown]
  simp only [Rectangle.Contains]
  omega

/-- The window shows the same picture when its pixels have moved up. -/
theorem scrollWindow_eq {w : Window} (hsolid : w.transparentColor = none) (hrows : 0 < con.rows)
    (hfit : con.area.Within w.outline) (hshows : con.Shows font (.window w) text) :
    ∃ s, con.scrollWindow w = { con with surface := s } ∧ s.shape = (Surface.window w).shape ∧
      con.Shows font s (scrolled con.rows text) := by
  have hfill : ∀ {p : Vector2D}, p ∈ fillRectangle ⟨0, 16 * (con.rows - 1)⟩ ⟨8 * con.columns, 16⟩ →
      con.area.Contains p ∧ ¬ p.y < 16 * (con.rows - 1) := by
    intro p hp
    have hp := mem_fillRectangle hp
    simp only [TextArea.area, Rectangle.Contains] at hp ⊢
    omega
  refine ⟨_, rfl, Surface.shape_paint _ _ _, ?_⟩
  intro p hp
  have hpaint := Surface.shown_paint
    (s := .window (w.move ⟨0, 0⟩ ⟨⟨0, 16⟩, ⟨8 * con.columns, 16 * (con.rows - 1)⟩⟩)) con.bgColor
    (fun q hq ↦ hfit.contains (hfill hq).1) (hfit.contains hp)
  refine hpaint.trans ?_
  rw [TextArea.gridPixel_scrolled hp]
  by_cases hrow : p.y < 16 * (con.rows - 1)
  · rw [if_neg (fun hmem ↦ (hfill hmem).2 hrow), if_pos hrow]
    exact shown_move hsolid hrows hfit hshows hp hrow
  · have hmem : p ∈ fillRectangle ⟨0, 16 * (con.rows - 1)⟩ ⟨8 * con.columns, 16⟩ := by
      apply mem_fillRectangle_of_contains
      simp only [TextArea.area, Rectangle.Contains] at hp ⊢
      omega
    rw [if_pos hmem, if_neg hrow]

end Console

end MinOS
