import MinOS.Graphics.FrameBuffer
import MinOS.Library.Transition

/-!
# Windows

A window keeps its picture twice: in `data_`, which the transparent path of
`DrawTo` reads, and in the shadow buffer, which the opaque path copies.
-/

namespace MinOS
namespace Graphics

/-- The turns of `for (int i = lo; ...; ++i)`. -/
def forRange {σ : Type} (body : ℤ → σ → σ) : ℕ → ℤ → σ → σ
  | 0, _, s => s
  | n + 1, i, s => forRange body n (i + 1) (body i s)

theorem forRange_invariant {σ : Type} {body : ℤ → σ → σ} (inv : σ → Prop)
    (hbody : ∀ i s, inv s → inv (body i s)) (n : ℕ) :
    ∀ (i : ℤ) (s : σ), inv s → inv (forRange body n i s) := by
  induction n with
  | zero => exact fun _ _ hs ↦ hs
  | succ n ih => exact fun i s hs ↦ ih (i + 1) _ (hbody i s hs)

structure Window where
  width : ℤ
  height : ℤ
  data : Vector2D → PixelColor
  transparentColor : Option PixelColor
  shadowBuffer : FrameBuffer
  shadow_size : shadowBuffer.size = ⟨width, height⟩

namespace Window

/-- The constructor. -/
def ofSize (width height : ℤ) (shadowFormat : PixelFormat) : Window where
  width := width
  height := height
  data := fun _ ↦ ⟨0, 0, 0⟩
  transparentColor := none
  shadowBuffer := .ofSize width height shadowFormat
  shadow_size := rfl

def size (w : Window) : Vector2D := ⟨w.width, w.height⟩

def outline (w : Window) : Rectangle := ⟨⟨0, 0⟩, w.size⟩

def setTransparentColor (w : Window) (c : Option PixelColor) : Window :=
  { w with transparentColor := c }

/-- `At`. -/
def atPos (w : Window) (pos : Vector2D) : PixelColor := w.data pos

def write (w : Window) (pos : Vector2D) (c : PixelColor) : Window :=
  { w with
    data := Function.update w.data pos c
    shadowBuffer := w.shadowBuffer.write pos c
    shadow_size := w.shadow_size }

def move (w : Window) (dstPos : Vector2D) (src : Rectangle) : Window :=
  { w with
    shadowBuffer := w.shadowBuffer.move dstPos src
    shadow_size := by
      rw [FrameBuffer.move]
      split_ifs <;> exact w.shadow_size }

/-- One pixel of the transparent path. -/
def drawPixel (w : Window) (tc : PixelColor) (pos : Vector2D) (y x : ℤ) (dst : FrameBuffer) :
    FrameBuffer :=
  let c := w.atPos ⟨x, y⟩
  if c ≠ tc then dst.write (pos + ⟨x, y⟩) c else dst

def drawTo (w : Window) (dst : FrameBuffer) (pos : Vector2D) (area : Rectangle) : FrameBuffer :=
  match w.transparentColor with
  | none =>
      let windowArea : Rectangle := ⟨pos, w.size⟩
      let intersection := area.inter windowArea
      if 0 < intersection.size.x ∧ 0 < intersection.size.y then
        dst.copy intersection.pos w.shadowBuffer ⟨intersection.pos - pos, intersection.size⟩
      else dst
  | some tc =>
      let startX := max 0 (0 - pos.x)
      let startY := max 0 (0 - pos.y)
      let endX := min w.width (dst.horizontalResolution - pos.x)
      let endY := min w.height (dst.verticalResolution - pos.y)
      forRange (fun y ↦ forRange (w.drawPixel tc pos y) (endX - startX).toNat startX)
        (endY - startY).toNat startY dst

/-! ## The two pictures -/

/-- `At` shows what the shadow buffer stores. -/
def Agrees (w : Window) : Prop :=
  ∀ p, w.outline.Contains p → w.atPos p = w.shadowBuffer.pixelAt p

theorem shadow_outline (w : Window) : w.shadowBuffer.outline = w.outline := by
  rw [FrameBuffer.outline, w.shadow_size]
  rfl

theorem agrees_ofSize (width height : ℤ) (format : PixelFormat) :
    (ofSize width height format).Agrees :=
  fun _ _ ↦ rfl

/-- What a window is drawn with. -/
inductive Op where
  | write (pos : Vector2D) (c : PixelColor)
  | move (dstPos : Vector2D) (src : Rectangle)

def apply (w : Window) : Op → Window
  | .write pos c => w.write pos c
  | .move dstPos src => w.move dstPos src

def InBounds (w : Window) : Op → Prop
  | .write pos _ => w.outline.Contains pos
  | .move dstPos src => (⟨dstPos, src.size⟩ : Rectangle).Within w.outline ∧ src.Within w.outline

instance (w : Window) : ∀ op, Decidable (w.InBounds op)
  | .write _ _ => inferInstanceAs (Decidable (Rectangle.Contains _ _))
  | .move _ _ => inferInstanceAs (Decidable (_ ∧ _))

def Step (w : Window) (op : Op) (w' : Window) : Prop := w.InBounds op ∧ w' = w.apply op

/-- A scroll that would leave `data_` as it is: the source shows what the target
shows. -/
def StillPicture (w : Window) : Op → Prop
  | .write _ _ => True
  | .move dstPos src => ∀ p, (⟨dstPos, src.size⟩ : Rectangle).Contains p →
      w.atPos p = w.atPos (p - dstPos + src.pos)

theorem agrees_write {w : Window} (hw : w.Agrees) {pos : Vector2D} (c : PixelColor)
    (hpos : w.outline.Contains pos) : (w.write pos c).Agrees := by
  intro p hp
  have hp' : w.outline.Contains p := hp
  change Function.update w.data pos c p = (w.shadowBuffer.write pos c).pixelAt p
  rw [FrameBuffer.pixelAt_write c (w.shadow_outline ▸ hpos) (w.shadow_outline ▸ hp'),
    Function.update_apply]
  split_ifs with h
  · rfl
  · exact hw p hp'

theorem agrees_move_iff {w : Window} (hw : w.Agrees) {dstPos : Vector2D} {src : Rectangle}
    (hbounds : w.InBounds (.move dstPos src)) :
    (w.move dstPos src).Agrees ↔ w.StillPicture (.move dstPos src) := by
  obtain ⟨hdst, hsrc⟩ := hbounds
  have hat : ∀ p, w.outline.Contains p → ((w.move dstPos src).shadowBuffer.pixelAt p =
      if (⟨dstPos, src.size⟩ : Rectangle).Contains p then w.atPos (p - dstPos + src.pos)
      else w.atPos p) := by
    intro p hp
    have hfrom : (⟨dstPos, src.size⟩ : Rectangle).Contains p →
        w.outline.Contains (p - dstPos + src.pos) := by
      intro hin
      apply hsrc.contains
      simp only [Rectangle.Contains, Vector2D.add_x, Vector2D.add_y, Vector2D.sub_x,
        Vector2D.sub_y] at hin ⊢
      omega
    change (w.shadowBuffer.move dstPos src).pixelAt p = _
    rw [FrameBuffer.pixelAt_move (w.shadow_outline ▸ hdst) (w.shadow_outline ▸ hsrc)
      (w.shadow_outline ▸ hp)]
    split_ifs with hin
    · exact (hw _ (hfrom hin)).symm
    · exact (hw p hp).symm
  constructor
  · intro hagrees p hin
    have hp := hdst.contains hin
    have heq := (hagrees p hp).trans (hat p hp)
    rwa [if_pos hin] at heq
  · intro hstill p hp
    refine Eq.trans ?_ (hat p hp).symm
    split_ifs with hin
    · exact hstill p hin
    · rfl

theorem agrees_apply_iff {w : Window} (hw : w.Agrees) {op : Op} (hbounds : w.InBounds op) :
    (w.apply op).Agrees ↔ w.StillPicture op := by
  cases op with
  | write pos c => exact iff_of_true (agrees_write hw c hbounds) trivial
  | move dstPos src => exact agrees_move_iff hw hbounds

/-- The two pictures agree in every run whose scrolls find the same picture at
their source and at their target, and the first scroll that does not tears them
apart. -/
theorem agrees_of_run {width height : ℤ} {format : PixelFormat} {ops : List Op} {w : Window}
    (hrun : Transition.Run (Transition.Guarded StillPicture Step) (ofSize width height format)
      ops w) :
    w.Agrees ∧ ∀ op w', Step w op w' → (w'.Agrees ↔ w.StillPicture op) := by
  have hw : w.Agrees := by
    apply hrun.invariant _ (agrees_ofSize width height format)
    rintro w op _ hw ⟨hstill, hbounds, rfl⟩
    exact (agrees_apply_iff hw hbounds).mpr hstill
  refine ⟨hw, ?_⟩
  rintro op _ ⟨hbounds, rfl⟩
  exact agrees_apply_iff hw hbounds

/-- A column of two white pixels is scrolled up by one. -/
theorem agrees_white_scroll :
    ∃ w, Transition.Run (Transition.Guarded StillPicture Step)
        (ofSize 1 2 .kPixelRGBResv8BitPerColor)
        [.write ⟨0, 0⟩ ⟨255, 255, 255⟩, .write ⟨0, 1⟩ ⟨255, 255, 255⟩,
          .move ⟨0, 0⟩ ⟨⟨0, 1⟩, ⟨1, 1⟩⟩] w ∧
      w.Agrees := by
  have hwritten : Transition.Run (Transition.Guarded StillPicture Step)
      (ofSize 1 2 .kPixelRGBResv8BitPerColor)
      [.write ⟨0, 0⟩ ⟨255, 255, 255⟩, .write ⟨0, 1⟩ ⟨255, 255, 255⟩] _ :=
    .snoc (.snoc (.nil _) ⟨trivial, by decide, rfl⟩) ⟨trivial, by decide, rfl⟩
  have hstill : (((ofSize 1 2 .kPixelRGBResv8BitPerColor).write ⟨0, 0⟩ ⟨255, 255, 255⟩).write
      ⟨0, 1⟩ ⟨255, 255, 255⟩).StillPicture (.move ⟨0, 0⟩ ⟨⟨0, 1⟩, ⟨1, 1⟩⟩) := by
    rintro ⟨x, y⟩ hin
    obtain ⟨rfl, rfl⟩ : x = 0 ∧ y = 0 := by
      simp only [Rectangle.Contains] at hin
      omega
    rfl
  have hrun := hwritten.snoc ⟨hstill, by decide, rfl⟩
  exact ⟨_, hrun, (agrees_of_run hrun).1⟩

/-- A white pixel below a black one is scrolled up: `At` still gives black. -/
theorem not_agrees_scroll :
    ∃ w, Transition.Run Step (ofSize 1 2 .kPixelRGBResv8BitPerColor)
        [.write ⟨0, 1⟩ ⟨255, 255, 255⟩, .move ⟨0, 0⟩ ⟨⟨0, 1⟩, ⟨1, 1⟩⟩] w ∧
      w.outline.Contains ⟨0, 0⟩ ∧ w.atPos ⟨0, 0⟩ = ⟨0, 0, 0⟩ ∧
      w.shadowBuffer.pixelAt ⟨0, 0⟩ = ⟨255, 255, 255⟩ ∧ ¬ w.Agrees := by
  have hrun : Transition.Run Step (ofSize 1 2 .kPixelRGBResv8BitPerColor)
      [.write ⟨0, 1⟩ ⟨255, 255, 255⟩, .move ⟨0, 0⟩ ⟨⟨0, 1⟩, ⟨1, 1⟩⟩] _ :=
    .snoc (.snoc (.nil _) ⟨by decide, rfl⟩) ⟨by decide, rfl⟩
  refine ⟨_, hrun, by decide, by decide, by decide, ?_⟩
  intro hagrees
  exact absurd (hagrees ⟨0, 0⟩ (by decide)) (by decide)

end Window
end Graphics
end MinOS
