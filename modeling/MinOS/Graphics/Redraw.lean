import MinOS.Graphics.Layer
import MinOS.Library.Composite

/-!
# Drawing the stack

`Draw`, `Move` and `MoveRelative` of `LayerManager`.  They paint parts of the
back buffer and copy them to the screen.
-/

namespace MinOS
namespace Graphics

open Composite

namespace LayerManager

/-- The layers of the stack, from the bottom. -/
def shown (m : LayerManager) : List Layer := m.layerStack.filterMap m.layerAt

/-- A write to a layer object. -/
def modify (m : LayerManager) (ref : ℕ) (f : Layer → Layer) : LayerManager :=
  { m with layers := m.layers.map fun l ↦ if l.ref = ref then f l else l }

/-- `Draw` of an area. -/
def drawArea (m : LayerManager) (area : Rectangle) : LayerManager :=
  let backBuffer := m.shown.foldl (fun back l ↦ l.drawTo back area) m.backBuffer
  { m with
    backBuffer := backBuffer
    screen := m.screen.copy area.pos backBuffer area }

/-- The locals of `Draw` for an id.  `window_area` is set when `draw` is. -/
structure DrawLoop where
  windowArea : Option Rectangle
  area : Rectangle
  backBuffer : FrameBuffer

/-- The window area of the layer that `Draw` is called for, and its `area`
afterwards. -/
def clipWindow (windowArea area : Rectangle) : Rectangle × Rectangle :=
  if area.size.x ≥ 0 ∨ area.size.y ≥ 0 then
    let area : Rectangle := ⟨area.pos + windowArea.pos, area.size⟩
    (windowArea.inter area, area)
  else (windowArea, area)

/-- One turn of `Draw` for an id; a layer without a window has no size. -/
def drawLayer (id : ℕ) (s : DrawLoop) (l : Layer) : Option DrawLoop :=
  if l.id = id then
    l.window.map fun w ↦
      let (windowArea, area) := clipWindow ⟨l.pos, w.size⟩ s.area
      ⟨some windowArea, area, l.drawTo s.backBuffer windowArea⟩
  else
    match s.windowArea with
    | some windowArea => some { s with backBuffer := l.drawTo s.backBuffer windowArea }
    | none => some s

/-- `Draw` for an id.  `unset` is what a `window_area` that was never set reads
as, `none` when it must not be read. -/
def drawId (m : LayerManager) (unset : Option Rectangle) (id : ℕ) (area : Rectangle) :
    Option LayerManager := do
  let s ← m.shown.foldlM (drawLayer id) ⟨none, area, m.backBuffer⟩
  let windowArea ← s.windowArea.or unset
  some { m with
    backBuffer := s.backBuffer
    screen := m.screen.copy windowArea.pos s.backBuffer windowArea }

/-- `Draw` for an id without an area. -/
def draw (m : LayerManager) (unset : Option Rectangle) (id : ℕ) : Option LayerManager :=
  m.drawId unset id ⟨⟨0, 0⟩, ⟨-1, -1⟩⟩

/-- `Move`; a layer that is not there is a null pointer. -/
def move (m : LayerManager) (unset : Option Rectangle) (id : ℕ) (newPos : Vector2D) :
    Option LayerManager := do
  let layer ← m.findLayer id
  let window ← layer.window
  let m := m.modify layer.ref fun l ↦ { l with pos := newPos }
  (m.drawArea ⟨layer.pos, window.size⟩).draw unset id

def moveRelative (m : LayerManager) (unset : Option Rectangle) (id : ℕ) (posDiff : Vector2D) :
    Option LayerManager := do
  let layer ← m.findLayer id
  let window ← layer.window
  let m := m.modify layer.ref fun l ↦ { l with pos := l.pos + posDiff }
  (m.drawArea ⟨layer.pos, window.size⟩).draw unset id

end LayerManager

/-! ## The pictures of windows and layers -/

/-- What a window shows at a point of its own. -/
def Window.picture (w : Window) (format : PixelFormat) (p : Vector2D) : Option PixelColor :=
  if w.outline.Contains p then
    match w.transparentColor with
    | none => if w.shadowBuffer.pixelFormat = format then some (w.shadowBuffer.pixelAt p) else none
    | some tc => if w.atPos p = tc then none else some (w.atPos p)
  else none

/-- What `DrawTo` paints of it. -/
def Window.drawn (w : Window) (format : PixelFormat) (pos : Vector2D) (area : Rectangle)
    (p : Vector2D) : Option PixelColor :=
  match w.transparentColor with
  | none => clip area.Contains (fun p ↦ w.picture format (p - pos)) p
  | some _ => w.picture format (p - pos)

def Layer.picture (l : Layer) (format : PixelFormat) (p : Vector2D) : Option PixelColor :=
  l.window.bind fun w ↦ w.picture format (p - l.pos)

def Layer.drawn (l : Layer) (format : PixelFormat) (area : Rectangle) (p : Vector2D) :
    Option PixelColor :=
  l.window.bind fun w ↦ w.drawn format l.pos area p

/-- Two frame buffers of one size and format. -/
def FrameBuffer.Like (fb fb' : FrameBuffer) : Prop :=
  fb.size = fb'.size ∧ fb.pixelFormat = fb'.pixelFormat

theorem FrameBuffer.Like.outline {fb fb' : FrameBuffer} (h : fb.Like fb') :
    fb.outline = fb'.outline := by
  rw [FrameBuffer.outline, h.1]
  rfl

theorem FrameBuffer.like_copy (fb src : FrameBuffer) (dstPos : Vector2D) (srcArea : Rectangle) :
    (fb.copy dstPos src srcArea).Like fb := by
  simp only [FrameBuffer.copy]
  split_ifs <;> exact ⟨rfl, rfl⟩

theorem FrameBuffer.like_write (fb : FrameBuffer) (p : Vector2D) (c : PixelColor) :
    (fb.write p c).Like fb :=
  ⟨rfl, rfl⟩

theorem FrameBuffer.Like.trans {fb fb' fb'' : FrameBuffer} (h : fb.Like fb') (h' : fb'.Like fb'') :
    fb.Like fb'' :=
  ⟨h.1.trans h'.1, h.2.trans h'.2⟩

/-- A loop whose turn `k` alone changes what is read. -/
theorem forRange_read {σ γ : Type} {body : ℤ → σ → σ} {k : ℤ} (read : σ → γ) (inv : σ → Prop)
    (v : γ → γ) (n : ℕ) : ∀ (i : ℤ) (s : σ),
      (∀ j s, i ≤ j ∧ j < i + n → inv s → inv (body j s)) →
      (∀ j s, i ≤ j ∧ j < i + n → inv s → j ≠ k → read (body j s) = read s) →
      (∀ s, i ≤ k ∧ k < i + n → inv s → read (body k s) = v (read s)) → inv s →
      inv (forRange body n i s) ∧
        read (forRange body n i s) = if i ≤ k ∧ k < i + n then v (read s) else read s := by
  induction n with
  | zero =>
      intro i s _ _ _ hs
      refine ⟨hs, ?_⟩
      rw [if_neg (by omega)]
      rfl
  | succ n ih =>
      intro i s hinv hother hhere hs
      have hs' := hinv i s (by omega) hs
      obtain ⟨hlast, hread⟩ := ih (i + 1) (body i s) (fun j s hj ↦ hinv j s (by omega))
        (fun j s hj ↦ hother j s (by omega)) (fun s hk ↦ hhere s (by omega)) hs'
      refine ⟨hlast, ?_⟩
      rw [forRange, hread]
      by_cases hik : i = k
      · rw [if_neg (by omega), if_pos (by omega), hik]
        exact hhere s (by omega) hs
      · rw [hother i s (by omega) hs hik]
        apply if_congr
        · omega
        · rfl
        · rfl

namespace Window

/-- The color after a pixel of the transparent path. -/
def overlay (w : Window) (tc : PixelColor) (q : Vector2D) (c : PixelColor) : PixelColor :=
  if w.atPos q ≠ tc then w.atPos q else c

theorem drawPixel_like (w : Window) (tc : PixelColor) (pos : Vector2D) (y x : ℤ)
    (dst : FrameBuffer) : (w.drawPixel tc pos y x dst).Like dst := by
  rw [drawPixel]
  split_ifs
  · exact dst.like_write _ _
  · exact ⟨rfl, rfl⟩

theorem pixelAt_drawPixel (w : Window) (tc : PixelColor) {dst : FrameBuffer} {pos p : Vector2D}
    {x y : ℤ} (hp : dst.outline.Contains p) (hin : dst.outline.Contains (pos + ⟨x, y⟩)) :
    (w.drawPixel tc pos y x dst).pixelAt p =
      if p = pos + ⟨x, y⟩ then w.overlay tc ⟨x, y⟩ (dst.pixelAt p) else dst.pixelAt p := by
  simp only [drawPixel, overlay]
  by_cases hc : w.atPos ⟨x, y⟩ ≠ tc
  · rw [if_pos hc, if_pos hc]
    exact FrameBuffer.pixelAt_write _ hin hp
  · rw [if_neg hc, if_neg hc]
    exact (ite_self _).symm

/-- The transparent path paints the part of the window that is on the buffer. -/
theorem pixelAt_drawTransparent (w : Window) (tc : PixelColor) {dst : FrameBuffer} {pos p : Vector2D}
    (hp : dst.outline.Contains p) {sx ex sy ey : ℤ} (hsx : -pos.x ≤ sx) (hsy : -pos.y ≤ sy)
    (hex : ex ≤ dst.horizontalResolution - pos.x) (hey : ey ≤ dst.verticalResolution - pos.y) :
    (forRange (fun y ↦ forRange (w.drawPixel tc pos y) (ex - sx).toNat sx)
      (ey - sy).toNat sy dst).pixelAt p =
      if (sx ≤ p.x - pos.x ∧ p.x - pos.x < ex) ∧ sy ≤ p.y - pos.y ∧ p.y - pos.y < ey then
        w.overlay tc (p - pos) (dst.pixelAt p)
      else dst.pixelAt p := by
  have hpixel : ∀ {fb : FrameBuffer}, fb.Like dst → ∀ {x y : ℤ}, sx ≤ x ∧ x < ex →
      sy ≤ y ∧ y < ey → (w.drawPixel tc pos y x fb).Like dst ∧
        (w.drawPixel tc pos y x fb).pixelAt p =
          if p = pos + ⟨x, y⟩ then w.overlay tc ⟨x, y⟩ (fb.pixelAt p) else fb.pixelAt p := by
    intro fb hlike x y hx hy
    have hin : fb.outline.Contains (pos + ⟨x, y⟩) := by
      rw [hlike.outline]
      simp only [FrameBuffer.outline, FrameBuffer.size, Rectangle.Contains, Vector2D.add_x,
        Vector2D.add_y]
      omega
    exact ⟨(w.drawPixel_like tc pos y x fb).trans hlike,
      w.pixelAt_drawPixel tc (hlike.outline ▸ hp) hin⟩
  have hrow : ∀ {fb : FrameBuffer}, fb.Like dst → ∀ {y : ℤ}, sy ≤ y ∧ y < ey →
      (forRange (w.drawPixel tc pos y) (ex - sx).toNat sx fb).Like dst ∧
        (forRange (w.drawPixel tc pos y) (ex - sx).toNat sx fb).pixelAt p =
          if sx ≤ p.x - pos.x ∧ p.x - pos.x < sx + (ex - sx).toNat then
            (if y = p.y - pos.y then w.overlay tc (p - pos) (fb.pixelAt p) else fb.pixelAt p)
          else fb.pixelAt p := by
    intro fb hlike y hy
    refine forRange_read (fun fb : FrameBuffer ↦ fb.pixelAt p) (fun fb ↦ fb.Like dst)
      (fun c ↦ if y = p.y - pos.y then w.overlay tc (p - pos) c else c) _ sx fb ?_ ?_ ?_ hlike
    · intro j s hj hs
      exact (hpixel hs (by omega) hy).1
    · intro j s hj hs hne
      refine (hpixel hs (by omega) hy).2.trans (if_neg ?_)
      intro heq
      apply hne
      rw [heq]
      simp
    · intro s hk hs
      rw [(hpixel hs (by omega) hy).2]
      by_cases hyp : y = p.y - pos.y
      · have hat : (⟨p.x - pos.x, y⟩ : Vector2D) = p - pos := by
          rw [hyp]
          rfl
        rw [if_pos hyp, hat, if_pos]
        exact Vector2D.ext (by simp) (by simp)
      · rw [if_neg hyp, if_neg]
        intro heq
        apply hyp
        rw [heq]
        simp
  have hout : (forRange (fun y ↦ forRange (w.drawPixel tc pos y) (ex - sx).toNat sx)
      (ey - sy).toNat sy dst).Like dst ∧ (forRange (fun y ↦ forRange (w.drawPixel tc pos y)
        (ex - sx).toNat sx) (ey - sy).toNat sy dst).pixelAt p =
      if sy ≤ p.y - pos.y ∧ p.y - pos.y < sy + (ey - sy).toNat then
        (if sx ≤ p.x - pos.x ∧ p.x - pos.x < sx + (ex - sx).toNat then
          w.overlay tc (p - pos) (dst.pixelAt p) else dst.pixelAt p)
      else dst.pixelAt p := by
    refine forRange_read (fun fb : FrameBuffer ↦ fb.pixelAt p) (fun fb ↦ fb.Like dst)
      (fun c ↦ if sx ≤ p.x - pos.x ∧ p.x - pos.x < sx + (ex - sx).toNat then
        w.overlay tc (p - pos) c else c) _ sy dst ?_ ?_ ?_ ⟨rfl, rfl⟩
    · intro j s hj hs
      exact (hrow hs (by omega)).1
    · intro j s hj hs hne
      rw [(hrow hs (by omega)).2, if_neg hne, ite_self]
    · intro s hk hs
      rw [(hrow hs (by omega)).2, if_pos rfl]
  refine hout.2.trans ?_
  rw [← ite_and]
  exact if_congr (by omega) rfl rfl

theorem contains_moved (w : Window) (pos p : Vector2D) :
    (⟨pos, w.size⟩ : Rectangle).Contains p ↔ w.outline.Contains (p - pos) := by
  simp only [Rectangle.Contains, outline, Vector2D.sub_x, Vector2D.sub_y]
  omega

theorem drawTo_spec (w : Window) (dst : FrameBuffer) (pos : Vector2D) (area : Rectangle) :
    (w.drawTo dst pos area).Like dst ∧ ∀ p, dst.outline.Contains p →
      (w.drawTo dst pos area).pixelAt p =
        (w.drawn dst.pixelFormat pos area p).getD (dst.pixelAt p) := by
  cases htc : w.transparentColor with
  | none =>
      simp only [drawTo, drawn, htc]
      have hin := Rectangle.contains_inter area ⟨pos, w.size⟩
      simp only [contains_moved] at hin
      generalize area.inter ⟨pos, w.size⟩ = inter at hin ⊢
      have hclip : ∀ p, (clip area.Contains (fun p ↦ w.picture dst.pixelFormat (p - pos)) p) =
          if inter.Contains p ∧ dst.pixelFormat = w.shadowBuffer.pixelFormat then
            some (w.shadowBuffer.pixelAt (p - pos)) else none := by
        intro p
        simp only [clip, picture, htc, hin, eq_comm (a := dst.pixelFormat), ite_and]
      simp only [hclip]
      split_ifs with hsize
      · refine ⟨dst.like_copy _ _ _, ?_⟩
        intro p hp
        have hmove : p - inter.pos + (inter.pos - pos) = p - pos :=
          Vector2D.ext (by simp) (by simp)
        have hrect : (⟨inter.pos, inter.size⟩ : Rectangle) = inter := rfl
        rw [FrameBuffer.pixelAt_copy _ _ _ _ hp, hmove, hrect, shadow_outline]
        by_cases hip : inter.Contains p
        · simp only [hip, ((hin p).mp hip).2, and_true, true_and]
          split_ifs <;> rfl
        · simp only [hip, false_and, and_false, if_false, Option.getD_none]
      · refine ⟨⟨rfl, rfl⟩, ?_⟩
        intro p _
        rw [if_neg, Option.getD_none]
        simp only [Rectangle.Contains]
        omega
  | some tc =>
      simp only [drawTo, drawn, htc]
      refine ⟨?_, ?_⟩
      · refine forRange_invariant (fun fb : FrameBuffer ↦ fb.Like dst) ?_ _ _ _ ⟨rfl, rfl⟩
        refine fun y fb hfb ↦ forRange_invariant
          (fun fb : FrameBuffer ↦ fb.Like dst) ?_ _ _ _ hfb
        exact fun x fb hfb ↦ (w.drawPixel_like tc pos y x fb).trans hfb
      · intro p hp
        rw [w.pixelAt_drawTransparent tc hp (by omega) (by omega) (by omega) (by omega)]
        by_cases hin : w.outline.Contains (p - pos)
        · rw [if_pos]
          · simp only [picture, hin, if_true, htc, overlay]
            by_cases hc : w.atPos (p - pos) = tc
            · rw [if_pos hc, if_neg (not_not_intro hc)]
              rfl
            · rw [if_neg hc, if_pos hc]
              rfl
          · simp only [FrameBuffer.outline, FrameBuffer.size, Rectangle.Contains] at hp
            simp only [outline, size, Rectangle.Contains, Vector2D.sub_x, Vector2D.sub_y] at hin
            omega
        · rw [if_neg]
          · simp only [picture, hin, if_false, Option.getD_none]
          · simp only [outline, size, Rectangle.Contains, Vector2D.sub_x, Vector2D.sub_y] at hin
            omega

end Window

namespace Layer

/-- The window of the layer is not drawn pixel by pixel. -/
def Solid (l : Layer) : Prop := ∀ w, l.window = some w → w.transparentColor = none

theorem drawTo_spec (l : Layer) (dst : FrameBuffer) (area : Rectangle) :
    (l.drawTo dst area).Like dst ∧ ∀ p, dst.outline.Contains p →
      (l.drawTo dst area).pixelAt p =
        (l.drawn dst.pixelFormat area p).getD (dst.pixelAt p) := by
  simp only [drawTo, drawn]
  cases l.window with
  | none => exact ⟨⟨rfl, rfl⟩, fun _ _ ↦ rfl⟩
  | some w => exact w.drawTo_spec dst l.pos area

theorem drawn_of_solid {l : Layer} (hl : l.Solid) (format : PixelFormat) (area : Rectangle) :
    l.drawn format area = clip area.Contains (l.picture format) := by
  funext p
  cases hw : l.window with
  | none => simp [drawn, picture, hw, clip]
  | some w => simp [drawn, picture, hw, Window.drawn, hl w hw, clip]

theorem drawn_of_not_solid {l : Layer} (hl : ¬ l.Solid) (format : PixelFormat)
    (area : Rectangle) : l.drawn format area = l.picture format := by
  funext p
  rw [Solid] at hl
  push Not at hl
  obtain ⟨w, hw, htc⟩ := hl
  obtain ⟨tc, htc⟩ := Option.ne_none_iff_exists'.mp htc
  simp [drawn, picture, hw, Window.drawn, htc]

/-- A picture lies inside the rectangle of its window. -/
theorem picture_eq_none {l : Layer} {w : Window} (hw : l.window = some w) (format : PixelFormat)
    {p : Vector2D} (hp : ¬ (⟨l.pos, w.size⟩ : Rectangle).Contains p) :
    l.picture format p = none := by
  rw [w.contains_moved] at hp
  simp [picture, hw, Window.picture, hp]

end Layer

namespace LayerManager

theorem foldl_like (area : Rectangle) : ∀ (ls : List Layer) (back : FrameBuffer),
    (ls.foldl (fun back l ↦ l.drawTo back area) back).Like back
  | [], _ => ⟨rfl, rfl⟩
  | l :: ls, back => (foldl_like area ls _).trans (l.drawTo_spec back area).1

theorem foldl_drawTo (ls : List Layer) (back : FrameBuffer) (area : Rectangle) {p : Vector2D}
    (hp : back.outline.Contains p) :
    (ls.foldl (fun back l ↦ l.drawTo back area) back).pixelAt p =
      paint (ls.map fun l ↦ l.drawn back.pixelFormat area) back.pixelAt p := by
  refine read_foldl FrameBuffer.pixelAt (fun fb ↦ fb.Like back) ?_ ?_ ls back
    ⟨rfl, rfl⟩
  · exact fun fb l hfb ↦ (l.drawTo_spec fb area).1.trans hfb
  · intro fb l hfb
    rw [← hfb.2]
    exact (l.drawTo_spec fb area).2 p (hfb.outline ▸ hp)

theorem clipped_drawn (format : PixelFormat) (area : Rectangle) :
    ∀ ls : List Layer, (∀ l ∈ ls.dropLast, l.Solid) →
      Clipped area.Contains (ls.map fun l ↦ l.drawn format area)
        (ls.map fun l ↦ l.picture format)
  | [], _ => .nil
  | [l], _ => by
      by_cases hl : l.Solid
      · rw [List.map_singleton, l.drawn_of_solid hl]
        exact .cons .nil
      · rw [List.map_singleton, l.drawn_of_not_solid hl]
        exact .top
  | l :: l' :: rest, hsolid => by
      rw [List.map_cons, l.drawn_of_solid (hsolid l List.mem_cons_self)]
      exact .cons (clipped_drawn format area (l' :: rest)
        fun x hx ↦ hsolid x (List.mem_cons_of_mem l hx))

theorem pixelAt_copy_area {screen back : FrameBuffer} (hlike : back.Like screen)
    (area : Rectangle) {p : Vector2D} (hp : screen.outline.Contains p) :
    (screen.copy area.pos back area).pixelAt p =
      if area.Contains p then back.pixelAt p else screen.pixelAt p := by
  have hmove : p - area.pos + area.pos = p := Vector2D.ext (by simp) (by simp)
  have hrect : (⟨area.pos, area.size⟩ : Rectangle) = area := rfl
  rw [FrameBuffer.pixelAt_copy _ _ _ _ hp, hmove, hrect, hlike.outline, hlike.2]
  exact if_congr (by simp [hp]) rfl rfl

theorem shown_congr {m m' : LayerManager} (hlayers : m'.layers = m.layers)
    (hstack : m'.layerStack = m.layerStack) : m'.shown = m.shown := by
  have hat : m'.layerAt = m.layerAt := by
    funext ref
    rw [layerAt, hlayers]
    rfl
  rw [shown, hstack, hat]
  rfl

/-- The stack from the bottom, composed at each pixel. -/
def composite (m : LayerManager) : Vector2D → Option PixelColor :=
  topmost (m.shown.map fun l ↦ l.picture m.screen.pixelFormat)

/-- Back buffer and screen show the stack. -/
def Shows (m : LayerManager) : Prop :=
  ∀ p, m.screen.outline.Contains p →
    some (m.backBuffer.pixelAt p) = m.composite p ∧ some (m.screen.pixelAt p) = m.composite p

/-- The stack can be drawn: the bottom layer fills the screen and only the top
layer may be transparent. -/
structure Drawable (m : LayerManager) : Prop where
  inv : m.Invariant
  like : m.backBuffer.Like m.screen
  covered : ∃ bottom rest, m.shown = bottom :: rest ∧
    ∀ p, m.screen.outline.Contains p → bottom.picture m.screen.pixelFormat p ≠ none
  solid_below : ∀ l ∈ m.shown.dropLast, l.Solid

/-! ## One layer of the stack -/

/-- The stack around a layer; the other layers have other addresses and ids. -/
theorem Invariant.split {m : LayerManager} (hm : m.Invariant) {id : ℕ} {l : Layer}
    (hl : m.findLayer id = some l) (href : l.ref ∈ m.layerStack) :
    ∃ below above, m.layerStack = below ++ l.ref :: above ∧
      m.shown = below.filterMap m.layerAt ++ l :: above.filterMap m.layerAt ∧
      ∀ x, x ∈ below.filterMap m.layerAt ∨ x ∈ above.filterMap m.layerAt →
        x.ref ≠ l.ref ∧ x.id ≠ id := by
  obtain ⟨below, above, hstack⟩ := List.append_of_mem href
  have hnodup := hm.stack_nodup
  rw [hstack, List.nodup_middle, List.nodup_cons] at hnodup
  refine ⟨below, above, hstack, ?_, ?_⟩
  · rw [shown, hstack, List.filterMap_append, List.filterMap_cons,
      hm.layerAt_eq (mem_of_findLayer hl).1]
  · intro x hx
    have hmem : ∃ ref ∈ below ++ above, m.layerAt ref = some x := by
      rcases hx with hx | hx
      · obtain ⟨ref, hr, hat⟩ := List.mem_filterMap.mp hx
        exact ⟨ref, List.mem_append_left _ hr, hat⟩
      · obtain ⟨ref, hr, hat⟩ := List.mem_filterMap.mp hx
        exact ⟨ref, List.mem_append_right _ hr, hat⟩
    obtain ⟨ref, hr, hat⟩ := hmem
    have hxref : x.ref = ref := by simpa using List.find?_some hat
    have hne : x.ref ≠ l.ref := fun heq ↦ hnodup.1 (heq ▸ hxref ▸ hr)
    refine ⟨hne, ?_⟩
    intro hid
    have hshown : ref ∈ m.layerStack := by
      rw [hstack]
      rcases List.mem_append.mp hr with hr | hr
      · exact List.mem_append_left _ hr
      · exact List.mem_append_right _ (List.mem_cons_of_mem _ hr)
    have hany : (m.layerAt ref).any (·.id = id) = true := by simp [hat, hid]
    exact hne (hxref.trans ((hm.any_id_iff hl hshown).mp hany))

theorem modify_layerAt (m : LayerManager) (ref : ℕ) {f : Layer → Layer} (hf : ∀ l, (f l).ref = l.ref)
    (r : ℕ) : (m.modify ref f).layerAt r =
      (m.layerAt r).map fun l ↦ if l.ref = ref then f l else l := by
  rw [layerAt, modify, List.find?_map]
  congr 2
  funext l
  simp only [Function.comp]
  split_ifs <;> simp [hf]

theorem filterMap_modify (m : LayerManager) (ref : ℕ) {f : Layer → Layer}
    (hf : ∀ l, (f l).ref = l.ref) (stack : List ℕ)
    (hne : ∀ x ∈ stack.filterMap m.layerAt, x.ref ≠ ref) :
    stack.filterMap (m.modify ref f).layerAt = stack.filterMap m.layerAt := by
  apply List.filterMap_congr
  intro r hr
  rw [m.modify_layerAt ref hf]
  cases hat : m.layerAt r with
  | none => rfl
  | some x => simp [hne x (List.mem_filterMap.mpr ⟨r, hr, hat⟩)]

theorem Invariant.modify_shown {m : LayerManager} (hm : m.Invariant) {l : Layer}
    (hl : l ∈ m.layers) {f : Layer → Layer} (hf : ∀ l, (f l).ref = l.ref) {below above : List ℕ}
    (hstack : m.layerStack = below ++ l.ref :: above)
    (hne : ∀ x, x ∈ below.filterMap m.layerAt ∨ x ∈ above.filterMap m.layerAt → x.ref ≠ l.ref) :
    (m.modify l.ref f).shown =
      below.filterMap m.layerAt ++ f l :: above.filterMap m.layerAt := by
  have hat : (m.modify l.ref f).layerAt l.ref = some (f l) := by
    rw [m.modify_layerAt l.ref hf, hm.layerAt_eq hl]
    simp
  have hstack' : (m.modify l.ref f).layerStack = below ++ l.ref :: above := hstack
  rw [shown, hstack', List.filterMap_append, List.filterMap_cons, hat,
    m.filterMap_modify l.ref hf below (fun x hx ↦ hne x (.inl hx)),
    m.filterMap_modify l.ref hf above (fun x hx ↦ hne x (.inr hx))]

theorem foldlM_drawLayer_above {id : ℕ} {windowArea : Rectangle} :
    ∀ (ls : List Layer) (area : Rectangle) (back : FrameBuffer), (∀ x ∈ ls, x.id ≠ id) →
      ls.foldlM (drawLayer id) ⟨some windowArea, area, back⟩ =
        some ⟨some windowArea, area, ls.foldl (fun back l ↦ l.drawTo back windowArea) back⟩
  | [], _, _, _ => rfl
  | x :: ls, area, back, hne => by
      rw [List.foldlM_cons, drawLayer, if_neg (hne x List.mem_cons_self)]
      exact foldlM_drawLayer_above ls area _ (fun y hy ↦ hne y (List.mem_cons_of_mem x hy))

theorem foldlM_drawLayer_below {id : ℕ} :
    ∀ (ls : List Layer) (area : Rectangle) (back : FrameBuffer), (∀ x ∈ ls, x.id ≠ id) →
      ls.foldlM (drawLayer id) ⟨none, area, back⟩ = some ⟨none, area, back⟩
  | [], _, _, _ => rfl
  | x :: ls, area, back, hne => by
      rw [List.foldlM_cons, drawLayer, if_neg (hne x List.mem_cons_self)]
      exact foldlM_drawLayer_below ls area back (fun y hy ↦ hne y (List.mem_cons_of_mem x hy))

theorem drawId_eq {m : LayerManager} {pre post : List Layer} {l : Layer} {w : Window}
    (hshown : m.shown = pre ++ l :: post) (hw : l.window = some w)
    (hne : ∀ x, x ∈ pre ∨ x ∈ post → x.id ≠ l.id) (unset : Option Rectangle) (area : Rectangle) :
    m.drawId unset l.id area =
      let windowArea := (clipWindow ⟨l.pos, w.size⟩ area).1
      let backBuffer := (l :: post).foldl (fun back l ↦ l.drawTo back windowArea) m.backBuffer
      some { m with
        backBuffer := backBuffer
        screen := m.screen.copy windowArea.pos backBuffer windowArea } := by
  generalize hclip : clipWindow ⟨l.pos, w.size⟩ area = clipped
  obtain ⟨windowArea, area'⟩ := clipped
  have hloop : m.shown.foldlM (drawLayer l.id) ⟨none, area, m.backBuffer⟩ =
      some ⟨some windowArea, area',
        (l :: post).foldl (fun back l ↦ l.drawTo back windowArea) m.backBuffer⟩ := by
    rw [hshown, List.foldlM_append, foldlM_drawLayer_below pre _ _ (fun x hx ↦ hne x (.inl hx))]
    change (l :: post).foldlM (drawLayer l.id) ⟨none, area, m.backBuffer⟩ = _
    rw [List.foldlM_cons, drawLayer, if_pos rfl, hw, Option.map_some]
    dsimp only
    rw [hclip]
    exact foldlM_drawLayer_above post area' _ (fun x hx ↦ hne x (.inr hx))
  simp only [drawId, hloop, Option.bind_eq_bind, Option.bind_some, Option.some_or]

theorem drawArea_like {m : LayerManager} (hlike : m.backBuffer.Like m.screen) (area : Rectangle) :
    (m.drawArea area).screen.Like m.screen ∧ (m.drawArea area).backBuffer.Like m.screen :=
  ⟨m.screen.like_copy _ area.pos area, (foldl_like area m.shown m.backBuffer).trans hlike⟩

theorem drawArea_spec {m : LayerManager} (hlike : m.backBuffer.Like m.screen) (area : Rectangle)
    {p : Vector2D} (hp : m.screen.outline.Contains p) :
    (m.drawArea area).backBuffer.pixelAt p =
        paint (m.shown.map fun l ↦ l.drawn m.screen.pixelFormat area) m.backBuffer.pixelAt p ∧
      (m.drawArea area).screen.pixelAt p =
        if area.Contains p then (m.drawArea area).backBuffer.pixelAt p else m.screen.pixelAt p := by
  refine ⟨?_, pixelAt_copy_area (drawArea_like hlike area).2 area hp⟩
  rw [← hlike.2]
  exact foldl_drawTo m.shown m.backBuffer area (hlike.outline ▸ hp)

theorem drawId_spec {m : LayerManager} (hlike : m.backBuffer.Like m.screen)
    {pre post : List Layer} {l : Layer} {w : Window} (hshown : m.shown = pre ++ l :: post)
    (hw : l.window = some w) (hne : ∀ x, x ∈ pre ∨ x ∈ post → x.id ≠ l.id)
    (unset : Option Rectangle) (area : Rectangle) :
    ∃ m', m.drawId unset l.id area = some m' ∧ m'.layers = m.layers ∧
      m'.layerStack = m.layerStack ∧ m'.screen.Like m.screen ∧
      ∀ p, m.screen.outline.Contains p →
        m'.backBuffer.pixelAt p = paint ((l :: post).map fun l' ↦ l'.drawn m.screen.pixelFormat
          (clipWindow ⟨l.pos, w.size⟩ area).1) m.backBuffer.pixelAt p ∧
        m'.screen.pixelAt p = if (clipWindow ⟨l.pos, w.size⟩ area).1.Contains p then
          m'.backBuffer.pixelAt p else m.screen.pixelAt p := by
  refine ⟨_, drawId_eq hshown hw hne unset area, rfl, rfl, m.screen.like_copy _ _ _, ?_⟩
  intro p hp
  generalize (clipWindow ⟨l.pos, w.size⟩ area).1 = windowArea
  refine ⟨?_, pixelAt_copy_area ((foldl_like windowArea _ _).trans hlike) windowArea hp⟩
  rw [← hlike.2]
  exact foldl_drawTo (l :: post) m.backBuffer windowArea (hlike.outline ▸ hp)

/-! ## Partial redraw agrees with full redraw -/

theorem clipWindow_whole (windowArea : Rectangle) :
    (clipWindow windowArea ⟨⟨0, 0⟩, ⟨-1, -1⟩⟩).1 = windowArea := by
  rw [clipWindow, if_neg (by decide)]

/-- Replacing a layer of the stack by one that is as solid. -/
theorem solid_below_replaced {pre post : List Layer} {l : Layer} (l' : Layer) (hl : l.Solid → l'.Solid)
    (hsolid : ∀ x ∈ (pre ++ l :: post).dropLast, x.Solid) :
    (∀ x ∈ (pre ++ l' :: post).dropLast, x.Solid) ∧ ∀ x ∈ (l' :: post).dropLast, x.Solid := by
  rw [List.dropLast_append_of_ne_nil (List.cons_ne_nil _ _)] at hsolid ⊢
  have htop : ∀ x ∈ (l' :: post).dropLast, x.Solid := by
    cases post with
    | nil => exact fun x hx ↦ by cases hx
    | cons y post =>
        intro x hx
        rcases List.mem_cons.mp hx with rfl | hx
        · exact hl (hsolid l (List.mem_append_right _ List.mem_cons_self))
        · exact hsolid x (List.mem_append_right _ (List.mem_cons_of_mem _ hx))
  refine ⟨?_, htop⟩
  intro x hx
  rcases List.mem_append.mp hx with hx | hx
  · exact hsolid x (List.mem_append_left _ hx)
  · exact htop x hx

theorem Drawable.bottom_mem {m : LayerManager} (hm : m.Drawable) {pre post : List Layer}
    {l : Layer} (hshown : m.shown = pre ++ l :: post) (hpre : pre ≠ []) :
    ∃ bottom ∈ pre, ∀ p, m.screen.outline.Contains p →
      bottom.picture m.screen.pixelFormat p ≠ none := by
  obtain ⟨bottom, rest, hbottom, hfill⟩ := hm.covered
  obtain ⟨first, pre', rfl⟩ := List.exists_cons_of_ne_nil hpre
  rw [hshown, List.cons_append, List.cons.injEq] at hbottom
  exact ⟨first, List.mem_cons_self, hbottom.1 ▸ hfill⟩

theorem Drawable.moved {m : LayerManager} (hm : m.Drawable) (hshows : m.Shows) {id : ℕ} {l : Layer}
    {w : Window} (hl : m.findLayer id = some l) (href : l.ref ∈ m.layerStack.tail)
    (hw : l.window = some w) (newPos : Vector2D) {f : Layer → Layer} (hf : ∀ x, (f x).ref = x.ref)
    (hfl : f l = { l with pos := newPos }) (unset : Option Rectangle) :
    ∃ m', ((m.modify l.ref f).drawArea ⟨l.pos, w.size⟩).draw unset id = some m' ∧ m'.Shows ∧
      m'.layers = (m.modify l.ref f).layers ∧ m'.layerStack = m.layerStack := by
  obtain ⟨below, above, hstack, hshown, hne⟩ := hm.inv.split hl (List.mem_of_mem_tail href)
  have hpre : below.filterMap m.layerAt ≠ [] := by
    cases below with
    | nil =>
        have hnodup := hm.inv.stack_nodup
        rw [hstack] at href hnodup
        exact absurd href (List.nodup_cons.mp hnodup).1
    | cons ref below =>
        obtain ⟨b, rfl, hb⟩ := hm.inv.first ref (hstack ▸ List.mem_cons_self)
        rw [List.filterMap_cons, hm.inv.layerAt_eq (mem_of_findLayer hb).1]
        exact List.cons_ne_nil _ _
  have hshown' := hm.inv.modify_shown (mem_of_findLayer hl).1 hf hstack (fun x hx ↦ (hne x hx).1)
  obtain ⟨bottom, hbottom, hfill⟩ := hm.bottom_mem hshown hpre
  rw [hfl] at hshown'
  obtain rfl : l.id = id := (mem_of_findLayer hl).2
  generalize below.filterMap m.layerAt = pre at hshown hshown' hne hbottom
  generalize above.filterMap m.layerAt = post at hshown hshown' hne
  generalize hm₁ : m.modify l.ref f = m₁ at hshown'
  have hscreen₁ : m₁.screen = m.screen := hm₁ ▸ rfl
  have hback₁ : m₁.backBuffer = m.backBuffer := hm₁ ▸ rfl
  have hstack₁ : m₁.layerStack = m.layerStack := hm₁ ▸ rfl
  have hlike₁ : m₁.backBuffer.Like m₁.screen := hscreen₁ ▸ hback₁ ▸ hm.like
  obtain ⟨hsolid, hsolid'⟩ := solid_below_replaced (l := l) { l with pos := newPos }
    (fun h ↦ h) (hshown ▸ hm.solid_below)
  have hlike₂ := drawArea_like hlike₁ ⟨l.pos, w.size⟩
  obtain ⟨m', hdraw, hlayers, hstack', hlike', hpixel⟩ := drawId_spec (m := m₁.drawArea ⟨l.pos, w.size⟩)
    ⟨hlike₂.2.1.trans hlike₂.1.1.symm, hlike₂.2.2.trans hlike₂.1.2.symm⟩ (l := { l with pos := newPos })
    hshown' hw (fun x hx ↦ (hne x hx).2) unset ⟨⟨0, 0⟩, ⟨-1, -1⟩⟩
  refine ⟨m', hdraw, ?_, hlayers, hstack'.trans hstack₁⟩
  have hsame : m'.screen.Like m.screen := hscreen₁ ▸ hlike'.trans hlike₂.1
  have hcomposite : m'.composite = topmost ((pre ++ { l with pos := newPos } :: post).map
      fun x ↦ x.picture m.screen.pixelFormat) := by
    rw [composite, hsame.2, shown_congr (m := m₁) hlayers hstack', hshown']
  intro p hp
  rw [hsame.outline] at hp
  obtain ⟨hback₂, hscreen₂⟩ := drawArea_spec hlike₁ ⟨l.pos, w.size⟩ (hscreen₁ ▸ hp)
  obtain ⟨hback, hscreen⟩ := hpixel p (by rwa [hlike₂.1.outline, hscreen₁])
  obtain ⟨hshows₁, hshows₂⟩ := hshows p hp
  rw [clipWindow_whole, hlike₂.1.2, hscreen₁] at hback
  rw [clipWindow_whole] at hscreen
  rw [hscreen₁, hback₁, hshown'] at hback₂
  rw [hscreen₁] at hscreen₂
  rw [composite, hshown, List.map_append, List.map_cons] at hshows₁ hshows₂
  have hclip := clipped_drawn m.screen.pixelFormat ⟨l.pos, w.size⟩ _ hsolid
  have hclip' := clipped_drawn m.screen.pixelFormat ⟨newPos, w.size⟩ _ hsolid'
  have hcover : topmost ((pre ++ { l with pos := newPos } :: post).map
      fun x ↦ x.picture m.screen.pixelFormat) p ≠ none :=
    topmost_ne_none (List.mem_map_of_mem (List.mem_append_left _ hbottom)) (hfill p hp)
  have hout := l.picture_eq_none hw m.screen.pixelFormat (p := p)
  have hout' := Layer.picture_eq_none (l := { l with pos := newPos }) hw m.screen.pixelFormat (p := p)
  rw [hcomposite]
  simp only [List.map_append, List.map_cons] at hback hback₂ hclip hclip' hcover ⊢
  have hfinal : some (m'.backBuffer.pixelAt p) =
      topmost (pre.map (·.picture m.screen.pixelFormat) ++
        ({ l with pos := newPos } : Layer).picture m.screen.pixelFormat ::
          post.map (·.picture m.screen.pixelFormat)) p := by
    rw [hback, paint, hback₂]
    exact paint_replaced hclip hclip' hcover hout hout' hshows₁
  refine ⟨hfinal, ?_⟩
  rw [hscreen]
  split_ifs with hnew
  · exact hfinal
  · rw [hscreen₂]
    split_ifs with hold
    · rw [hback₂]
      exact paint_clipped hclip hold hcover
    · rw [hshows₂]
      exact topmost_replaced ((hout hold).trans (hout' hnew).symm)

/-- The points of a window that `Draw` is told about. -/
def InArea (area : Rectangle) (p : Vector2D) : Prop :=
  area.Contains p ∨ area.size.x < 0 ∧ area.size.y < 0

/-- A window with other pixels inside an area. -/
structure Retouched (w w' : Window) (area : Rectangle) : Prop where
  solid : w.transparentColor = none
  solid' : w'.transparentColor = none
  size : w'.size = w.size
  format : w'.shadowBuffer.pixelFormat = w.shadowBuffer.pixelFormat
  same : ∀ p, w.outline.Contains p → ¬ InArea area p →
    w'.shadowBuffer.pixelAt p = w.shadowBuffer.pixelAt p

theorem clipWindow_contains (windowArea area : Rectangle) {p : Vector2D} :
    (clipWindow windowArea area).1.Contains p ↔
      windowArea.Contains p ∧ InArea area (p - windowArea.pos) := by
  rw [clipWindow, InArea]
  split_ifs with hsize
  · dsimp only
    rw [Rectangle.contains_inter]
    simp only [Rectangle.Contains, Vector2D.add_x, Vector2D.add_y, Vector2D.sub_x, Vector2D.sub_y]
    omega
  · exact ⟨fun h ↦ ⟨h, .inr (by omega)⟩, fun h ↦ h.1⟩

theorem Retouched.outline {w w' : Window} {area : Rectangle} (h : Retouched w w' area) :
    w'.outline = w.outline := by
  rw [Window.outline, h.size]
  rfl

theorem Retouched.picture_isSome {w w' : Window} {area : Rectangle} (h : Retouched w w' area)
    (format : PixelFormat) (p : Vector2D) :
    (w'.picture format p).isSome = (w.picture format p).isSome := by
  simp only [Window.picture, h.solid, h.solid', h.outline, h.format]
  split_ifs <;> rfl

theorem Retouched.picture_eq {w w' : Window} {area : Rectangle} (h : Retouched w w' area)
    (format : PixelFormat) {p : Vector2D} (hp : ¬ (w.outline.Contains p ∧ InArea area p)) :
    w'.picture format p = w.picture format p := by
  simp only [Window.picture, h.solid, h.solid', h.outline, h.format]
  by_cases hin : w.outline.Contains p
  · rw [h.same p hin (fun harea ↦ hp ⟨hin, harea⟩)]
  · rw [if_neg hin, if_neg hin]

theorem Drawable.retouched {m : LayerManager} (hm : m.Drawable) (hshows : m.Shows) {id : ℕ}
    {l : Layer} {w w' : Window} {area : Rectangle} (hl : m.findLayer id = some l)
    (href : l.ref ∈ m.layerStack) (hw : l.window = some w) (hchange : Retouched w w' area)
    (unset : Option Rectangle) :
    ∃ m', (m.modify l.ref fun x ↦ { x with window := some w' }).drawId unset id area = some m' ∧
      m'.Shows ∧ m'.layers = (m.modify l.ref fun x ↦ { x with window := some w' }).layers ∧
      m'.layerStack = m.layerStack := by
  obtain ⟨below, above, hstack, hshown, hne⟩ := hm.inv.split hl href
  have hshown' := hm.inv.modify_shown (f := fun x ↦ { x with window := some w' })
    (mem_of_findLayer hl).1 (fun _ ↦ rfl) hstack (fun x hx ↦ (hne x hx).1)
  obtain rfl : l.id = id := (mem_of_findLayer hl).2
  generalize below.filterMap m.layerAt = pre at hshown hshown' hne
  generalize above.filterMap m.layerAt = post at hshown hshown' hne
  generalize hm₁ : (m.modify l.ref fun x ↦ { x with window := some w' }) = m₁ at hshown'
  have hscreen₁ : m₁.screen = m.screen := hm₁ ▸ rfl
  have hback₁ : m₁.backBuffer = m.backBuffer := hm₁ ▸ rfl
  have hstack₁ : m₁.layerStack = m.layerStack := hm₁ ▸ rfl
  have hlike₁ : m₁.backBuffer.Like m₁.screen := hscreen₁ ▸ hback₁ ▸ hm.like
  have hsolid := (solid_below_replaced (l := l) { l with window := some w' }
    (fun _ x hx ↦ by cases hx; exact hchange.solid') (hshown ▸ hm.solid_below)).2
  obtain ⟨m', hdraw, hlayers, hstack', hlike', hpixel⟩ := drawId_spec hlike₁
    (l := { l with window := some w' }) hshown' rfl (fun x hx ↦ (hne x hx).2) unset area
  refine ⟨m', hdraw, ?_, hlayers, hstack'.trans hstack₁⟩
  have hsame : m'.screen.Like m.screen := hscreen₁ ▸ hlike'
  intro p hp
  rw [hsame.outline] at hp
  obtain ⟨hback, hscreen⟩ := hpixel p (hscreen₁ ▸ hp)
  obtain ⟨hshows₁, hshows₂⟩ := hshows p hp
  rw [hscreen₁, hback₁] at hback
  rw [hscreen₁] at hscreen
  rw [composite, hshown] at hshows₁ hshows₂
  rw [composite, hsame.2, shown_congr (m := m₁) hlayers hstack', hshown']
  have hclip := clipped_drawn m.screen.pixelFormat (clipWindow ⟨l.pos, w'.size⟩ area).1 _ hsolid
  have hin : (clipWindow ⟨l.pos, w'.size⟩ area).1.Contains p ↔
      w.outline.Contains (p - l.pos) ∧ InArea area (p - l.pos) := by
    rw [clipWindow_contains, w'.contains_moved, hchange.outline]
  generalize (clipWindow ⟨l.pos, w'.size⟩ area).1 = windowArea at hclip hin hback hscreen
  have hout : ¬ windowArea.Contains p →
      ({ l with window := some w' } : Layer).picture m.screen.pixelFormat p =
        l.picture m.screen.pixelFormat p := by
    intro hnot
    simp only [Layer.picture, hw]
    exact hchange.picture_eq _ (mt hin.mpr hnot)
  have hnone : ({ l with window := some w' } : Layer).picture m.screen.pixelFormat p = none →
      l.picture m.screen.pixelFormat p = none := by
    intro hnone
    have hsome := hchange.picture_isSome m.screen.pixelFormat (p - l.pos)
    simp only [Layer.picture, hw, Option.bind_some] at hnone ⊢
    rw [hnone] at hsome
    exact Option.isSome_eq_false_iff.mp hsome.symm |> Option.isNone_iff_eq_none.mp
  simp only [List.map_append, List.map_cons] at hback hclip hshows₁ hshows₂ ⊢
  have hfinal := paint_retouched hclip hout hnone hshows₁
  rw [← hback] at hfinal
  refine ⟨hfinal, ?_⟩
  rw [hscreen]
  split_ifs with hnew
  · exact hfinal
  · rw [hshows₂]
    exact topmost_replaced (hout hnew).symm

theorem Drawable.drawArea {m : LayerManager} (hm : m.Drawable) (area : Rectangle) :
    (m.drawArea area).Drawable := by
  have hlike := drawArea_like hm.like area
  refine ⟨⟨hm.inv.refs_nodup, hm.inv.ref_ne_zero, hm.inv.stack_nodup, hm.inv.first⟩,
    ⟨hlike.2.1.trans hlike.1.1.symm, hlike.2.2.trans hlike.1.2.symm⟩, ?_, hm.solid_below⟩
  obtain ⟨bottom, rest, hshown, hfill⟩ := hm.covered
  refine ⟨bottom, rest, hshown, ?_⟩
  rw [hlike.1.outline, hlike.1.2]
  exact hfill

/-- `Draw` of the whole screen shows the stack, whatever was there before. -/
theorem Drawable.shows_drawArea {m : LayerManager} (hm : m.Drawable) :
    (m.drawArea m.screen.outline).Shows := by
  have hlike := drawArea_like hm.like m.screen.outline
  intro p hp
  rw [hlike.1.outline] at hp
  obtain ⟨hback, hscreen⟩ := drawArea_spec hm.like m.screen.outline hp
  obtain ⟨bottom, rest, hshown, hfill⟩ := hm.covered
  have hbottom : bottom ∈ m.shown := hshown ▸ List.mem_cons_self
  have hcover : topmost (m.shown.map fun l ↦ l.picture m.screen.pixelFormat) p ≠ none :=
    topmost_ne_none (List.mem_map_of_mem hbottom) (hfill p hp)
  have hclip := clipped_drawn m.screen.pixelFormat m.screen.outline m.shown hm.solid_below
  rw [hscreen, if_pos hp, hback, composite, hlike.1.2]
  exact ⟨paint_clipped hclip hp hcover, paint_clipped hclip hp hcover⟩

theorem move_eq {m : LayerManager} {id : ℕ} {l : Layer} {w : Window} (hl : m.findLayer id = some l)
    (hw : l.window = some w) (unset : Option Rectangle) (newPos : Vector2D) :
    m.move unset id newPos = ((m.modify l.ref fun x ↦ { x with pos := newPos }).drawArea
      ⟨l.pos, w.size⟩).draw unset id := by
  simp only [move, hl, hw, Option.bind_eq_bind, Option.bind_some]

theorem moveRelative_eq {m : LayerManager} {id : ℕ} {l : Layer} {w : Window}
    (hl : m.findLayer id = some l) (hw : l.window = some w) (unset : Option Rectangle)
    (posDiff : Vector2D) :
    m.moveRelative unset id posDiff =
      ((m.modify l.ref fun x ↦ { x with pos := x.pos + posDiff }).drawArea
        ⟨l.pos, w.size⟩).draw unset id := by
  simp only [moveRelative, hl, hw, Option.bind_eq_bind, Option.bind_some]

/-- Moving a layer above the bottom one, and drawing a layer after a change of
its pixels in the drawn area, leave the picture that a full redraw gives. -/
theorem redraw_shows {m : LayerManager} (hm : m.Drawable) (hshows : m.Shows)
    (unset : Option Rectangle) :
    (∀ id l w newPos, m.findLayer id = some l → l.ref ∈ m.layerStack.tail → l.window = some w →
      ∃ m', m.move unset id newPos = some m' ∧ m'.Shows ∧ m'.layerStack = m.layerStack ∧
        m'.layers = (m.modify l.ref fun x ↦ { x with pos := newPos }).layers) ∧
    (∀ id l w posDiff, m.findLayer id = some l → l.ref ∈ m.layerStack.tail → l.window = some w →
      ∃ m', m.moveRelative unset id posDiff = some m' ∧ m'.Shows ∧ m'.layerStack = m.layerStack ∧
        m'.layers = (m.modify l.ref fun x ↦ { x with pos := x.pos + posDiff }).layers) ∧
    (∀ id l w w', m.findLayer id = some l → l.ref ∈ m.layerStack → l.window = some w →
      (∀ area, Retouched w w' area →
        ∃ m', (m.modify l.ref fun x ↦ { x with window := some w' }).drawId unset id area = some m' ∧
          m'.Shows ∧ m'.layerStack = m.layerStack ∧
          m'.layers = (m.modify l.ref fun x ↦ { x with window := some w' }).layers) ∧
      (Retouched w w' ⟨⟨0, 0⟩, ⟨-1, -1⟩⟩ →
        ∃ m', (m.modify l.ref fun x ↦ { x with window := some w' }).draw unset id = some m' ∧
          m'.Shows ∧ m'.layerStack = m.layerStack ∧
          m'.layers = (m.modify l.ref fun x ↦ { x with window := some w' }).layers)) := by
  have hretouch : ∀ id l w w', m.findLayer id = some l → l.ref ∈ m.layerStack →
      l.window = some w → ∀ area, Retouched w w' area →
        ∃ m', (m.modify l.ref fun x ↦ { x with window := some w' }).drawId unset id area = some m' ∧
          m'.Shows ∧ m'.layerStack = m.layerStack ∧
          m'.layers = (m.modify l.ref fun x ↦ { x with window := some w' }).layers := by
    intro id l w w' hl href hw area hchange
    obtain ⟨m', hdraw, hm', hlayers, hstack⟩ := hm.retouched hshows hl href hw hchange unset
    exact ⟨m', hdraw, hm', hstack, hlayers⟩
  refine ⟨?_, ?_, ?_⟩
  · intro id l w newPos hl href hw
    obtain ⟨m', hdraw, hm', hlayers, hstack⟩ := hm.moved hshows hl href hw newPos
      (f := fun x ↦ { x with pos := newPos }) (fun _ ↦ rfl) rfl unset
    exact ⟨m', (move_eq hl hw unset newPos).trans hdraw, hm', hstack, hlayers⟩
  · intro id l w posDiff hl href hw
    obtain ⟨m', hdraw, hm', hlayers, hstack⟩ := hm.moved hshows hl href hw (l.pos + posDiff)
      (f := fun x ↦ { x with pos := x.pos + posDiff }) (fun _ ↦ rfl) rfl unset
    exact ⟨m', (moveRelative_eq hl hw unset posDiff).trans hdraw, hm', hstack, hlayers⟩
  · intro id l w w' hl href hw
    exact ⟨hretouch id l w w' hl href hw, hretouch id l w w' hl href hw _⟩

/-- A desktop of two pixels with a white window of one pixel on its left. -/
def twoWindows : LayerManager where
  screen := .ofSize 2 1 .kPixelRGBResv8BitPerColor
  backBuffer := .ofSize 2 1 .kPixelRGBResv8BitPerColor
  layers := [⟨8, 1, ⟨0, 0⟩, some (.ofSize 2 1 .kPixelRGBResv8BitPerColor), false⟩,
    ⟨16, 2, ⟨0, 0⟩, some ((Window.ofSize 1 1 .kPixelRGBResv8BitPerColor).write ⟨0, 0⟩
      ⟨255, 255, 255⟩), true⟩]
  layerStack := [8, 16]
  latestId := 2

theorem drawable_twoWindows : twoWindows.Drawable where
  inv :=
    { refs_nodup := by decide
      ref_ne_zero := by decide
      stack_nodup := by decide
      first := by
        intro ref href
        rcases List.mem_cons.mp href with rfl | href
        · exact ⟨⟨8, 1, ⟨0, 0⟩, some (.ofSize 2 1 .kPixelRGBResv8BitPerColor), false⟩, rfl, rfl⟩
        · obtain rfl := List.mem_singleton.mp href
          exact ⟨⟨16, 2, ⟨0, 0⟩, _, true⟩, rfl, rfl⟩ }
  like := ⟨rfl, rfl⟩
  covered := by
    refine ⟨_, _, rfl, ?_⟩
    rintro ⟨x, y⟩ hp
    simp only [FrameBuffer.outline, FrameBuffer.size, twoWindows, FrameBuffer.ofSize,
      Rectangle.Contains] at hp
    obtain ⟨rfl | rfl, rfl⟩ : (x = 0 ∨ x = 1) ∧ y = 0 := by omega
    · exact Option.some_ne_none _
    · exact Option.some_ne_none _
  solid_below l hl w hw := by
    obtain rfl := List.mem_singleton.mp hl
    cases hw
    rfl

/-- The white window is moved to the right. -/
theorem shows_move_twoWindows :
    ∃ m', (twoWindows.drawArea twoWindows.screen.outline).move none 2 ⟨1, 0⟩ = some m' ∧
      m'.Shows := by
  obtain ⟨m', hmove, hm', _, _⟩ := (redraw_shows
    (drawable_twoWindows.drawArea _) drawable_twoWindows.shows_drawArea none).1 2 _ _
    ⟨1, 0⟩ rfl (by decide) rfl
  exact ⟨m', hmove, hm'⟩

end LayerManager

end Graphics
end MinOS
