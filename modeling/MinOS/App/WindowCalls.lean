import MinOS.Terminal.Text

/-!
# The window system calls

The pixels that `OpenWindow`, `WinWriteString` and `WinFillRectangle` store to the
two arrays of a window.  Neither the calls nor `Window::Write` compare a position with
the size of the window.
-/

namespace MinOS
namespace WindowCalls

open Graphics Font

/-- A string that an app passes, without its terminator. -/
abbrev Text := {text : List Char // ∀ c ∈ text, c.toNat ≠ 0}

/-- The string in memory. -/
def Text.chars (s : Text) (i : ℕ) : BitVec 8 := (utf8Text s.1 ++ [0]).getD i 0

def Text.codes (s : Text) : List ℕ := s.1.map Char.toNat

/-- An argument register as an `int`. -/
def toInt (arg : BitVec 64) : ℤ := (arg.setWidth 32).toInt

/-- The calls, without their colors. -/
inductive Call where
  | openWindow (w h x y : BitVec 64) (title : Text)
  | winWriteString (layerIdFlags x y : BitVec 64) (s : Text)
  | winFillRectangle (layerIdFlags x y w h : BitVec 64)

/-- What the calls meet: the font, the sizes of the windows, and whether the heap has room
for the arrays of one more. -/
structure Desktop where
  font : Glyphs
  findLayer : BitVec 32 → Option Vector2D
  memory : ℤ → ℤ → Bool

/-- The constructor of `Window` returns.  A `resize` to a negative size or without memory
aborts; without rows there is no row to resize. -/
def constructs (d : Desktop) (w h : ℤ) : Bool := 0 ≤ h && (h = 0 || 0 ≤ w) && d.memory w h

def kCloseButtonWidth : ℕ := 16

def kCloseButtonHeight : ℕ := 14

/-- The pixels of the close button. -/
def closeButton (winW : ℤ) : List Vector2D :=
  (List.range kCloseButtonHeight).flatMap fun (y : ℕ) ↦
    (List.range kCloseButtonWidth).map fun (x : ℕ) ↦ ⟨winW - 5 - kCloseButtonWidth + x, 5 + y⟩

/-- `DrawWindowTitle`, if its `WriteString` ends within `fuel` turns. -/
def drawWindowTitle (font : Glyphs) (winW : ℤ) (title : ℕ → BitVec 8) (fuel : ℕ) :
    Option (List Vector2D) :=
  (writeString font ⟨24, 4⟩ title fuel).map fun text ↦
    fillRectangle ⟨3, 3⟩ ⟨winW - 6, 18⟩ ++ text ++ closeButton winW

/-- The frame that `DrawWindow` draws before the title. -/
def drawFrame (winW winH : ℤ) : List Vector2D :=
  fillRectangle ⟨0, 0⟩ ⟨winW, 1⟩ ++
    fillRectangle ⟨1, 1⟩ ⟨winW - 2, 1⟩ ++
    fillRectangle ⟨2, 2⟩ ⟨winW - 4, winH - 4⟩ ++
    fillRectangle ⟨0, 0⟩ ⟨1, winH⟩ ++
    fillRectangle ⟨1, 1⟩ ⟨1, winH - 2⟩ ++
    fillRectangle ⟨winW - 1, 0⟩ ⟨1, winH⟩ ++
    fillRectangle ⟨winW - 2, 1⟩ ⟨1, winH - 2⟩ ++
    fillRectangle ⟨1, winH - 2⟩ ⟨winW - 2, 1⟩ ++
    fillRectangle ⟨0, winH - 1⟩ ⟨winW, 1⟩

/-- `DrawWindow`. -/
def drawWindow (font : Glyphs) (winW winH : ℤ) (title : ℕ → BitVec 8) (fuel : ℕ) :
    Option (List Vector2D) :=
  (drawWindowTitle font winW title fuel).map (drawFrame winW winH ++ ·)

/-- `DoWinFunc`: the function is called on the window of the layer, if there is one. -/
def doWinFunc (d : Desktop) (layerIdFlags : BitVec 64) (f : Option (List Vector2D)) :
    Option (Vector2D × List Vector2D) :=
  match d.findLayer (layerIdFlags.setWidth 32) with
  | none => some (⟨0, 0⟩, [])
  | some size => f.map fun pixels ↦ (size, pixels)

/-- The size of the window of a call, and the pixels that the call stores. -/
def stores (d : Desktop) (fuel : ℕ) : Call → Option (Vector2D × List Vector2D)
  | .openWindow w h _ _ title =>
      if constructs d (toInt w) (toInt h) then
        (drawWindow d.font (toInt w) (toInt h) title.chars fuel).map fun pixels ↦
          (⟨toInt w, toInt h⟩, pixels)
      else some (⟨toInt w, toInt h⟩, [])
  | .winWriteString layerIdFlags x y s =>
      doWinFunc d layerIdFlags (writeString d.font ⟨toInt x, toInt y⟩ s.chars fuel)
  | .winFillRectangle layerIdFlags x y w h =>
      doWinFunc d layerIdFlags
        (some (fillRectangle ⟨toInt x, toInt y⟩ ⟨toInt w, toInt h⟩))

/-- A call stores to the arrays of its window only. -/
def StaysInside (d : Desktop) (call : Call) : Prop :=
  ∃ fuel size pixels, stores d fuel call = some (size, pixels) ∧
    ∀ p ∈ pixels, (Rectangle.mk ⟨0, 0⟩ size).Contains p

/-! ## Rectangles -/

section Rectangles

variable {pos size : Vector2D} {r : Rectangle} {font : Glyphs}

theorem mem_fillRectangle_iff {p : Vector2D} :
    p ∈ fillRectangle pos size ↔ (Rectangle.mk pos size).Contains p := by
  refine ⟨mem_fillRectangle, fun h ↦ ?_⟩
  simp only [Rectangle.Contains] at h
  simp only [fillRectangle, List.mem_flatMap, List.mem_map, List.mem_range]
  refine ⟨(p.y - pos.y).toNat, by omega, (p.x - pos.x).toNat, by omega, ?_⟩
  ext
  · rw [Vector2D.add_x]
    dsimp only
    omega
  · rw [Vector2D.add_y]
    dsimp only
    omega

/-- A rectangle lies inside another one exactly if two of its corners do. -/
theorem fillRectangle_inside_iff :
    (∀ p ∈ fillRectangle pos size, r.Contains p) ↔
      size.x ≤ 0 ∨ size.y ≤ 0 ∨ (Rectangle.mk pos size).Within r := by
  simp only [mem_fillRectangle_iff]
  constructor
  · intro h
    by_contra hout
    rw [not_or, not_or, Int.not_le, Int.not_le] at hout
    obtain ⟨hx, hy, hwithin⟩ := hout
    have hlow := h pos (by simp only [Rectangle.Contains]; omega)
    have hhigh := h ⟨pos.x + size.x - 1, pos.y + size.y - 1⟩
      (by simp only [Rectangle.Contains]; omega)
    refine hwithin ?_
    simp only [Rectangle.Contains] at hlow hhigh
    simp only [Rectangle.Within]
    omega
  · rintro (hx | hy | hwithin) p hp
    · simp only [Rectangle.Contains] at hp
      omega
    · simp only [Rectangle.Contains] at hp
      omega
    · exact hwithin.contains hp

theorem closeButton_eq (winW : ℤ) :
    closeButton winW = fillRectangle ⟨winW - 21, 5⟩ ⟨16, 14⟩ := by
  have hpixel (x y : ℕ) : (⟨winW - 5 - kCloseButtonWidth + x, 5 + y⟩ : Vector2D) =
      ⟨winW - 21, 5⟩ + ⟨x, y⟩ := by
    ext
    · rw [Vector2D.add_x, kCloseButtonWidth]
      dsimp only
      omega
    · rfl
  simp only [closeButton, hpixel]
  rfl

/-- The frame, the title bar and the close button need 21 columns and rows. -/
theorem drawWindow_inside_iff {w h : ℤ} {text : List Vector2D} :
    (∀ p ∈ drawFrame w h ++ (fillRectangle ⟨3, 3⟩ ⟨w - 6, 18⟩ ++ text ++ closeButton w),
        (Rectangle.mk ⟨0, 0⟩ ⟨w, h⟩).Contains p) ↔
      21 ≤ w ∧ 21 ≤ h ∧ ∀ p ∈ text, (Rectangle.mk ⟨0, 0⟩ ⟨w, h⟩).Contains p := by
  simp only [drawFrame, closeButton_eq, List.forall_mem_append, fillRectangle_inside_iff,
    Rectangle.Within]
  constructor
  · rintro ⟨-, ⟨hbar, htext⟩, hbutton⟩
    exact ⟨by omega, by omega, htext⟩
  · rintro ⟨hwide, hhigh, htext⟩
    refine ⟨?_, ⟨?_, htext⟩, ?_⟩ <;> omega

end Rectangles

/-! ## Ink -/

/-- The smallest rectangle around some pixels. -/
def inkBox (pixels : List Vector2D) : Option Rectangle := do
  let left ← (pixels.map Vector2D.x).min?
  let right ← (pixels.map Vector2D.x).max?
  let top ← (pixels.map Vector2D.y).min?
  let bottom ← (pixels.map Vector2D.y).max?
  return ⟨⟨left, top⟩, ⟨right - left + 1, bottom - top + 1⟩⟩

/-- The ink of every character of a text lies inside a window of the given size. -/
def InkInside (font : Glyphs) (size pos : Vector2D) (codes : List ℕ) : Prop :=
  ∀ e ∈ columns 0 codes, ∀ box ∈ inkBox (writeUnicode font ⟨0, 0⟩ e.2),
    (Rectangle.mk (pos + ⟨8 * e.1, 0⟩ + box.pos) box.size).Within ⟨⟨0, 0⟩, size⟩

section Ink

variable {font : Glyphs} {pos size : Vector2D} {r : Rectangle}

/-- The four sides of an ink box touch the ink. -/
theorem exists_inkBox {pixels : List Vector2D} (h : pixels ≠ []) :
    ∃ box, inkBox pixels = some box ∧
      ((∃ p ∈ pixels, p.x = box.pos.x) ∧ ∃ p ∈ pixels, p.x = box.pos.x + box.size.x - 1) ∧
      ((∃ p ∈ pixels, p.y = box.pos.y) ∧ ∃ p ∈ pixels, p.y = box.pos.y + box.size.y - 1) ∧
      ∀ p ∈ pixels, box.Contains p := by
  have hx : pixels.map Vector2D.x ≠ [] := fun hnil ↦ h (List.map_eq_nil_iff.mp hnil)
  have hy : pixels.map Vector2D.y ≠ [] := fun hnil ↦ h (List.map_eq_nil_iff.mp hnil)
  obtain ⟨left, hleft⟩ := Option.isSome_iff_exists.mp (List.isSome_min?_of_ne_nil hx)
  obtain ⟨right, hright⟩ := Option.isSome_iff_exists.mp (List.isSome_max?_of_ne_nil hx)
  obtain ⟨top, htop⟩ := Option.isSome_iff_exists.mp (List.isSome_min?_of_ne_nil hy)
  obtain ⟨bottom, hbottom⟩ := Option.isSome_iff_exists.mp (List.isSome_max?_of_ne_nil hy)
  refine ⟨⟨⟨left, top⟩, ⟨right - left + 1, bottom - top + 1⟩⟩, ?_, ?_⟩
  · rw [inkBox, hleft, hright, htop, hbottom]
    rfl
  obtain ⟨hleftmem, hleftle⟩ := List.min?_eq_some_iff.mp hleft
  obtain ⟨hrightmem, hrightle⟩ := List.max?_eq_some_iff.mp hright
  obtain ⟨htopmem, htople⟩ := List.min?_eq_some_iff.mp htop
  obtain ⟨hbottommem, hbottomle⟩ := List.max?_eq_some_iff.mp hbottom
  obtain ⟨pl, hpl, rfl⟩ := List.mem_map.mp hleftmem
  obtain ⟨pr, hpr, rfl⟩ := List.mem_map.mp hrightmem
  obtain ⟨pt, hpt, rfl⟩ := List.mem_map.mp htopmem
  obtain ⟨pb, hpb, rfl⟩ := List.mem_map.mp hbottommem
  refine ⟨⟨⟨pl, hpl, rfl⟩, pr, hpr, ?_⟩, ⟨⟨pt, hpt, rfl⟩, pb, hpb, ?_⟩, fun p hp ↦ ?_⟩
  · dsimp only
    omega
  · dsimp only
    omega
  · have h1 := hleftle _ (List.mem_map_of_mem hp)
    have h2 := hrightle _ (List.mem_map_of_mem hp)
    have h3 := htople _ (List.mem_map_of_mem hp)
    have h4 := hbottomle _ (List.mem_map_of_mem hp)
    simp only [Rectangle.Contains]
    omega

/-- Pixels lie in a rectangle exactly if the box around them does. -/
theorem inkBox_inside_iff (pixels : List Vector2D) (pos : Vector2D) (r : Rectangle) :
    (∀ p ∈ pixels, r.Contains (pos + p)) ↔
      ∀ box ∈ inkBox pixels, (Rectangle.mk (pos + box.pos) box.size).Within r := by
  by_cases hnil : pixels = []
  · rw [hnil]
    exact ⟨fun _ box hbox ↦ absurd hbox (Option.not_mem_none box), fun _ p hp ↦ by cases hp⟩
  · obtain ⟨box, hbox, ⟨⟨pl, hpl, hl⟩, pr, hpr, hr⟩, ⟨⟨pt, hpt, ht⟩, pb, hpb, hb⟩, hin⟩ :=
      exists_inkBox hnil
    rw [hbox]
    simp only [Option.mem_def, Option.some.injEq, forall_eq']
    constructor
    · intro hall
      have h1 := hall pl hpl
      have h2 := hall pr hpr
      have h3 := hall pt hpt
      have h4 := hall pb hpb
      have h5 := hin pl hpl
      have h6 := hin pt hpt
      simp only [Rectangle.Contains, Vector2D.add_x, Vector2D.add_y] at h1 h2 h3 h4 h5 h6
      simp only [Rectangle.Within, Vector2D.add_x, Vector2D.add_y]
      omega
    · intro hwithin p hp
      have hbox := hin p hp
      simp only [Rectangle.Within, Vector2D.add_x, Vector2D.add_y] at hwithin
      simp only [Rectangle.Contains, Vector2D.add_x, Vector2D.add_y] at hbox ⊢
      omega

theorem vector2D_add_assoc (a b c : Vector2D) : a + b + c = a + (b + c) := by
  ext
  · exact Int.add_assoc _ _ _
  · exact Int.add_assoc _ _ _

theorem vector2D_zero_add (a : Vector2D) : (⟨0, 0⟩ : Vector2D) + a = a := by
  ext
  · exact Int.zero_add _
  · exact Int.zero_add _

theorem writeAscii_eq_map (font : Glyphs) (pos : Vector2D) (c : BitVec 8) :
    writeAscii font pos c = (writeAscii font ⟨0, 0⟩ c).map (pos + ·) := by
  rw [writeAscii, writeAscii]
  cases getFont font c with
  | none => rfl
  | some index =>
      simp only [List.map_flatMap, List.map_map, Function.comp_def, vector2D_zero_add]

theorem writeUnicode_eq_map (font : Glyphs) (pos : Vector2D) (c : ℕ) :
    writeUnicode font pos c = (writeUnicode font ⟨0, 0⟩ c).map (pos + ·) := by
  rw [writeUnicode, writeUnicode]
  split_ifs
  · exact writeAscii_eq_map font pos _
  · cases font.freeType c with
    | none =>
        dsimp only
        rw [List.map_append, writeAscii_eq_map font pos, writeAscii_eq_map font (pos + ⟨8, 0⟩),
          writeAscii_eq_map font (⟨0, 0⟩ + ⟨8, 0⟩), List.map_map]
        congr 2
        funext p
        rw [vector2D_add_assoc, Function.comp_apply, vector2D_zero_add]
    | some glyph =>
        simp only [List.map_map, Function.comp_def, vector2D_zero_add]

end Ink

/-! ## The calls -/

/-- What a call has to be like: the window is large enough for its frame and its title, the
ink of a string and a rectangle with pixels lie in the window. -/
def Fits (d : Desktop) : Call → Prop
  | .openWindow w h _ _ title =>
      constructs d (toInt w) (toInt h) = false ∨
        21 ≤ toInt w ∧ 21 ≤ toInt h ∧ InkInside d.font ⟨toInt w, toInt h⟩ ⟨24, 4⟩ title.codes
  | .winWriteString layerIdFlags x y s =>
      ∀ size ∈ d.findLayer (layerIdFlags.setWidth 32),
        InkInside d.font size ⟨toInt x, toInt y⟩ s.codes
  | .winFillRectangle layerIdFlags x y w h =>
      ∀ size ∈ d.findLayer (layerIdFlags.setWidth 32),
        toInt w ≤ 0 ∨ toInt h ≤ 0 ∨
          (Rectangle.mk ⟨toInt x, toInt y⟩ ⟨toInt w, toInt h⟩).Within ⟨⟨0, 0⟩, size⟩

section Calls

variable {d : Desktop} {font : Glyphs}

/-- What `WriteString` stores for a text. -/
theorem writeString_text (font : Glyphs) (pos : Vector2D) (s : Text) :
    writeString font pos s.chars (s.1.length + 1) =
      some ((columns 0 s.codes).flatMap fun e ↦ writeUnicode font (pos + ⟨8 * e.1, 0⟩) e.2) := by
  have hbytes : Holds s.chars (utf8Text s.1 ++ [0]) := fun i b hb ↦ by
    rw [Text.chars, List.getD_eq_getElem?_getD, hb, Option.getD_some]
  have hstring := cString_utf8Text hbytes s.2
  have hprint := printCodes_utf8Text (i := 0) (by simpa only [Nat.zero_add] using hstring)
  rw [writeString, writeStringLoop_eq, writeStringCalls_eq, hprint, Option.map_some,
    Option.map_some, List.flatMap_map]
  rfl

theorem text_inside_iff (font : Glyphs) (size pos : Vector2D) (codes : List ℕ) :
    (∀ p ∈ (columns 0 codes).flatMap fun e ↦ writeUnicode font (pos + ⟨8 * e.1, 0⟩) e.2,
        (Rectangle.mk ⟨0, 0⟩ size).Contains p) ↔ InkInside font size pos codes := by
  have hchar (e : ℤ × ℕ) :
      (∀ p ∈ writeUnicode font (pos + ⟨8 * e.1, 0⟩) e.2, (Rectangle.mk ⟨0, 0⟩ size).Contains p) ↔
        ∀ box ∈ inkBox (writeUnicode font ⟨0, 0⟩ e.2),
          (Rectangle.mk (pos + ⟨8 * e.1, 0⟩ + box.pos) box.size).Within ⟨⟨0, 0⟩, size⟩ := by
    rw [writeUnicode_eq_map, List.forall_mem_map]
    exact inkBox_inside_iff _ _ _
  rw [InkInside]
  simp only [← hchar, List.mem_flatMap]
  exact ⟨fun h e he p hp ↦ h p ⟨e, he, hp⟩, fun h p ⟨e, he, hp⟩ ↦ h e he p hp⟩

theorem eq_of_writeString {font : Glyphs} {pos : Vector2D} {s : Text} {fuel : ℕ}
    {pixels : List Vector2D} (h : writeString font pos s.chars fuel = some pixels) :
    pixels = (columns 0 s.codes).flatMap fun e ↦ writeUnicode font (pos + ⟨8 * e.1, 0⟩) e.2 :=
  writeString_unique h (writeString_text font pos s)

theorem openWindow_inside_iff (d : Desktop) (w h x y : BitVec 64) (title : Text) :
    StaysInside d (.openWindow w h x y title) ↔ Fits d (.openWindow w h x y title) := by
  rw [Fits, ← text_inside_iff, ← drawWindow_inside_iff]
  by_cases hconstructs : constructs d (toInt w) (toInt h) = true
  · rw [or_iff_right (by rw [hconstructs]; decide)]
    constructor
    · rintro ⟨fuel, size, pixels, hstores, hinside⟩
      rw [stores, if_pos hconstructs, drawWindow, drawWindowTitle, Option.map_map,
        Option.map_map] at hstores
      obtain ⟨text, htext, heq⟩ := Option.map_eq_some_iff.mp hstores
      obtain ⟨rfl, rfl⟩ := Prod.mk.inj heq
      rw [← eq_of_writeString htext]
      exact hinside
    · intro hinside
      refine ⟨title.1.length + 1, _, _, ?_, hinside⟩
      rw [stores, if_pos hconstructs, drawWindow, drawWindowTitle, writeString_text]
      rfl
  · have hfalse := Bool.eq_false_iff.mpr hconstructs
    refine iff_of_true ⟨0, _, [], by rw [stores, if_neg hconstructs], by simp⟩ (Or.inl hfalse)

/-- A call on a window stays inside exactly if what it stores to the window of its layer does. -/
theorem doWinFunc_inside_iff (d : Desktop) (layerIdFlags : BitVec 64)
    (f : ℕ → Option (List Vector2D)) {pixels : List Vector2D} (hf : ∃ fuel, f fuel = some pixels)
    (hunique : ∀ fuel pixels', f fuel = some pixels' → pixels' = pixels) :
    (∃ fuel size stored, doWinFunc d layerIdFlags (f fuel) = some (size, stored) ∧
        ∀ p ∈ stored, (Rectangle.mk ⟨0, 0⟩ size).Contains p) ↔
      ∀ size ∈ d.findLayer (layerIdFlags.setWidth 32),
        ∀ p ∈ pixels, (Rectangle.mk ⟨0, 0⟩ size).Contains p := by
  simp only [doWinFunc]
  cases d.findLayer (layerIdFlags.setWidth 32) with
  | none => exact iff_of_true ⟨0, _, [], rfl, by simp⟩ (by simp)
  | some size =>
      simp only [Option.mem_def, Option.some.injEq, forall_eq']
      constructor
      · rintro ⟨fuel, size', stored, hstores, hinside⟩
        obtain ⟨pixels', hpixels, heq⟩ := Option.map_eq_some_iff.mp hstores
        obtain ⟨rfl, rfl⟩ := Prod.mk.inj heq
        rwa [← hunique fuel _ hpixels]
      · intro hinside
        obtain ⟨fuel, hfuel⟩ := hf
        exact ⟨fuel, size, pixels, by rw [hfuel]; rfl, hinside⟩

/-- A window call stores inside its window exactly if it fits. -/
theorem staysInside_iff (d : Desktop) (call : Call) : StaysInside d call ↔ Fits d call := by
  cases call with
  | openWindow w h x y title => exact openWindow_inside_iff d w h x y title
  | winWriteString layerIdFlags x y s =>
      have hcall := doWinFunc_inside_iff d layerIdFlags
        (writeString d.font ⟨toInt x, toInt y⟩ s.chars) ⟨_, writeString_text _ _ s⟩
        fun _ _ ↦ eq_of_writeString
      simp only [text_inside_iff] at hcall
      exact hcall
  | winFillRectangle layerIdFlags x y w h =>
      have hcall := doWinFunc_inside_iff d layerIdFlags
        (fun _ ↦ some (fillRectangle ⟨toInt x, toInt y⟩ ⟨toInt w, toInt h⟩)) ⟨0, rfl⟩
        fun _ _ heq ↦ (Option.some.inj heq).symm
      simp only [fillRectangle_inside_iff] at hcall
      exact hcall

end Calls

/-- A rectangle of one pixel to the left of a window of 100 columns and rows. -/
theorem winFillRectangle_outside : ¬∀ (d : Desktop) (call : Call), StaysInside d call := by
  intro hall
  obtain ⟨fuel, size, pixels, hstores, hinside⟩ :=
    hall ⟨⟨0, fun _ ↦ 0, fun _ ↦ none⟩, fun _ ↦ some ⟨100, 100⟩, fun _ _ ↦ true⟩
      (.winFillRectangle 1 (-1) 0 1 1)
  obtain ⟨rfl, rfl⟩ := Prod.mk.inj (Option.some.inj hstores)
  revert hinside
  decide

end WindowCalls
end MinOS
