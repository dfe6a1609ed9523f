import MinOS.Graphics.Active

/-!
# Remembered layer ids

The active layer, the mouse and the queued layer messages name layers by id, and
any task may close a layer.  A name is good as long as nobody closes a layer
that the mouse or a message still names.
-/

namespace MinOS
namespace Graphics

open LayerManager ActiveLayer

inductive WindowRegion where
  | kTitleBar
  | kCloseButton
  | kBorder
  | kOther
deriving DecidableEq, Repr

/-- The virtual methods of the windows. -/
structure Virtuals where
  title : Bool → Window → Window
  region : Window → Vector2D → WindowRegion

/-- `GetWindowRegion` of a `ToplevelWindow`. -/
def toplevelRegion (w : Window) (pos : Vector2D) : WindowRegion :=
  if pos.x < 2 ∨ w.width - 2 ≤ pos.x ∨ pos.y < 2 ∨ w.height - 2 ≤ pos.y then .kBorder
  else if pos.y < 24 then
    if w.width - 5 - 16 ≤ pos.x ∧ pos.x < w.width - 5 ∧ 5 ≤ pos.y ∧ pos.y < 5 + 14 then
      .kCloseButton
    else .kTitleBar
  else .kOther

structure Mouse where
  layerId : ℕ
  position : Vector2D
  dragLayerId : ℕ
  previousButtons : ℕ

inductive LayerOperation where
  | move
  | moveRelative
  | draw
  | drawArea
deriving DecidableEq, Repr

structure LayerMessage where
  layerId : ℕ
  op : LayerOperation
  x : ℤ
  y : ℤ
  w : ℤ
  h : ℤ

/-- The layers, the mouse once `InitializeMouse` has made it, and the layer
messages that wait in the queue of the main task. -/
structure Desk where
  active : ActiveLayer
  mouse : Option Mouse
  queue : List LayerMessage

def LayerManager.findLayerByPosition (m : LayerManager) (pos : Vector2D) (excludeId : ℕ) :
    Option Layer :=
  m.shown.reverse.find? fun l ↦
    l.id ≠ excludeId ∧ l.window.any fun w ↦ (⟨l.pos, w.size⟩ : Rectangle).Contains pos

namespace Desk

/-- Nothing may read a window area that was not set. -/
abbrev unset : Option Rectangle := none

def withManager (s : Desk) (m : LayerManager) : Desk :=
  { s with active := { s.active with manager := m } }

def openWindow (v : Virtuals) (s : Desk) (ref : ℕ) (win : Window) (pos : Vector2D) :
    Option Desk := do
  let layerId := s.active.manager.nextId
  let m := (s.active.manager.newLayer ref).modify ref fun l ↦
    { l with window := some win, draggable := true, pos := pos }
  let active ← (s.withManager m).active.activate v.title unset layerId
  some { s with active := active }

def closeLayer (v : Virtuals) (s : Desk) (layerId : ℕ) : Option Desk :=
  match s.active.manager.findLayer layerId with
  | none => some s
  | some layer => do
      let window ← layer.window
      let active ← s.active.activate v.title unset 0
      let m := (active.manager.removeLayer layerId).drawArea ⟨layer.pos, window.size⟩
      some { s with active := { active with manager := m } }

/-- The switch of `ProcessLayerMessage`. -/
def layerOperation (m : LayerManager) (msg : LayerMessage) : Option LayerManager :=
  match msg.op with
  | .move => m.move unset msg.layerId ⟨msg.x, msg.y⟩
  | .moveRelative => m.moveRelative unset msg.layerId ⟨msg.x, msg.y⟩
  | .draw => m.draw unset msg.layerId
  | .drawArea => m.drawId unset msg.layerId ⟨⟨msg.x, msg.y⟩, ⟨msg.w, msg.h⟩⟩

def processLayerMessage (s : Desk) (msg : LayerMessage) : Option Desk :=
  (layerOperation s.active.manager msg).map s.withManager

/-- `drag_layer_id_` after a press on a draggable layer. -/
def dragAfter (v : Virtuals) (mouse : Mouse) (layer : Layer) (window : Window) : ℕ :=
  match v.region window (mouse.position - layer.pos) with
  | .kTitleBar => layer.id
  | _ => mouse.dragLayerId

/-- What a button change does in `OnInterrupt`, at the new position. -/
def press (v : Virtuals) (s : Desk) (mouse : Mouse) (posDiff : Vector2D) (buttons : ℕ) :
    Option Desk :=
  let previousLeftPressed := mouse.previousButtons.testBit 0
  let leftPressed := buttons.testBit 0
  if ¬ previousLeftPressed ∧ leftPressed then
    match s.active.manager.findLayerByPosition mouse.position mouse.layerId with
    | some layer =>
        if layer.draggable then do
          let window ← layer.window
          let dragLayerId := dragAfter v mouse layer window
          let active ← s.active.activate v.title unset layer.id
          some { s with active := active, mouse := some { mouse with dragLayerId := dragLayerId } }
        else do
          let active ← s.active.activate v.title unset 0
          some { s with active := active, mouse := some mouse }
    | none => do
        let active ← s.active.activate v.title unset 0
        some { s with active := active, mouse := some mouse }
  else if previousLeftPressed ∧ leftPressed then
    if mouse.dragLayerId > 0 then do
      let m ← s.active.manager.moveRelative unset mouse.dragLayerId posDiff
      some { s.withManager m with mouse := some mouse }
    else some { s with mouse := some mouse }
  else if previousLeftPressed ∧ ¬ leftPressed then
    some { s with mouse := some { mouse with dragLayerId := 0 } }
  else some { s with mouse := some mouse }

/-- `OnInterrupt` of the mouse; what it sends to tasks is left out. -/
def onInterrupt (v : Virtuals) (s : Desk) (mouse : Mouse) (buttons : ℕ) (displacement : Vector2D) :
    Option Desk := do
  let screenSize := s.active.manager.screen.size
  let newPos := Vector2D.elementMin (mouse.position + displacement) (screenSize + ⟨-1, -1⟩)
  let position := Vector2D.elementMax newPos ⟨0, 0⟩
  let m ← s.active.manager.move unset mouse.layerId position
  let s ← press v (s.withManager m) { mouse with position := position } (position - mouse.position)
    buttons
  some { s with mouse := s.mouse.map fun mouse ↦ { mouse with previousButtons := buttons } }

inductive Op where
  | openWindow (ref : ℕ) (win : Window) (pos : Vector2D)
  | closeLayer (layerId : ℕ)
  | onInterrupt (buttons : ℕ) (displacement : Vector2D)
  | post (msg : LayerMessage)
  | process

def exec (v : Virtuals) (s : Desk) : Op → Option Desk
  | .openWindow ref win pos => openWindow v s ref win pos
  | .closeLayer layerId => closeLayer v s layerId
  | .onInterrupt buttons displacement =>
      match s.mouse with
      | some mouse => onInterrupt v s mouse buttons displacement
      | none => some s
  | .post msg => some { s with queue := s.queue ++ [msg] }
  | .process =>
      match s.queue with
      | [] => some s
      | msg :: rest => processLayerMessage { s with queue := rest } msg

/-- `new` gives an address that no layer has. -/
def Fresh (s : Desk) : Op → Prop
  | .openWindow ref _ _ => ref ≠ 0 ∧ ∀ l ∈ s.active.manager.layers, l.ref ≠ ref
  | _ => True

def Step (v : Virtuals) (s : Desk) (op : Op) (s' : Desk) : Prop :=
  Fresh s op ∧ exec v s op = some s'

/-- Windows are opened under a mouse layer, nobody closes a layer that the mouse
or a queued message names, and messages are about shown layers. -/
def Careful (s : Desk) : Op → Prop
  | .openWindow _ _ _ => s.mouse ≠ none ∧ s.active.manager.nextId ≠ s.active.mouseLayer
  | .closeLayer layerId =>
      (∀ mouse, s.mouse = some mouse →
        layerId ≠ mouse.layerId ∧ (mouse.dragLayerId = 0 ∨ layerId ≠ mouse.dragLayerId)) ∧
      ∀ msg ∈ s.queue, layerId ≠ msg.layerId
  | .post msg => s.active.manager.Shown msg.layerId
  | _ => True

end Desk

/-! ## Names that stay good -/

/-- Every layer can be drawn, and the active one is shown. -/
structure ActiveLayer.Live (a : ActiveLayer) : Prop where
  inv : a.manager.Invariant
  windows : ∀ id x, a.manager.view id = some x → x.2 = true
  active : a.activeLayer = 0 ∨ a.manager.Shown a.activeLayer

/-- A change that leaves every shown layer shown. -/
structure ActiveLayer.Keeps (a a' : ActiveLayer) : Prop where
  live : a'.Live
  mouseLayer : a'.mouseLayer = a.mouseLayer
  shown : ∀ id, a.manager.Shown id → a'.manager.Shown id

namespace ActiveLayer

variable {a : ActiveLayer}

theorem Live.hasWindow (ha : a.Live) {id : ℕ} (hid : a.manager.view id ≠ none) :
    HasWindow a.manager id := by
  obtain ⟨⟨ref, b⟩, hview⟩ := Option.ne_none_iff_exists'.mp hid
  obtain rfl : b = true := ha.windows id _ hview
  exact ⟨ref, hview⟩

theorem Live.hasWindow_of_shown (ha : a.Live) {id : ℕ} (hid : a.manager.Shown id) :
    HasWindow a.manager id := by
  obtain ⟨ref, b, hview, _⟩ := shown_iff_view.mp hid
  exact ha.hasWindow (hview ▸ Option.some_ne_none _)

theorem Keeps.refl (ha : a.Live) : a.Keeps a := ⟨ha, rfl, fun _ h ↦ h⟩

theorem Keeps.trans {a' a'' : ActiveLayer} (h : a.Keeps a') (h' : a'.Keeps a'') : a.Keeps a'' :=
  ⟨h'.live, h'.mouseLayer.trans h.mouseLayer, fun id hid ↦ h'.shown id (h.shown id hid)⟩

/-- A write or draw that keeps ids, windows and stack. -/
theorem Live.keeps_manager (ha : a.Live) {m : LayerManager} (hm : m.Invariant)
    (hview : m.view = a.manager.view) (hstack : m.layerStack = a.manager.layerStack) :
    a.Keeps { a with manager := m } := by
  have hshown : ∀ id, a.manager.Shown id → m.Shown id :=
    fun id ↦ (ActiveLayer.shown_congr hview hstack id).mpr
  exact ⟨⟨hm, fun id x hx ↦ ha.windows id x (hview ▸ hx), ha.active.imp_right (hshown _)⟩, rfl,
    hshown⟩

theorem Live.drawId (ha : a.Live) {id : ℕ} (hid : a.manager.Shown id) (area : Rectangle) :
    ∃ m, a.manager.drawId none id area = some m ∧ a.Keeps { a with manager := m } := by
  obtain ⟨l, w, hl, hw⟩ := hasWindow_iff.mp (ha.hasWindow_of_shown hid)
  obtain ⟨l', hl', href⟩ := hid
  obtain rfl := Option.some.inj (hl.symm.trans hl')
  obtain ⟨m, hdraw⟩ := ha.inv.exists_drawId hl hw none (.inl href) area
  have hsame := drawId_sameStack hdraw
  exact ⟨m, hdraw, ha.keeps_manager (hsame.invariant ha.inv) (view_congr hsame.layers) hsame.stack⟩

theorem Live.moved (ha : a.Live) {id : ℕ} (hid : a.manager.Shown id) (ref : ℕ) {f : Layer → Layer}
    (hf : Edits f) (hwindow : ∀ l, (f l).window = l.window) (area : Rectangle) :
    ∃ m, ((a.manager.modify ref f).drawArea area).draw none id = some m ∧
      a.Keeps { a with manager := m } := by
  have hview : ((a.manager.modify ref f).drawArea area).view = a.manager.view :=
    (view_congr (m := a.manager.modify ref f) rfl).trans
      (a.manager.modify_view ref hf fun l _ _ ↦ by rw [hwindow])
  have hkeeps := ha.keeps_manager (invariant_drawArea (ha.inv.modify ref hf) area) hview rfl
  obtain ⟨m, hdraw, hkeeps'⟩ := hkeeps.live.drawId (hkeeps.shown id hid) ⟨⟨0, 0⟩, ⟨-1, -1⟩⟩
  exact ⟨m, hdraw, hkeeps.trans hkeeps'⟩

theorem Live.move (ha : a.Live) {id : ℕ} (hid : a.manager.Shown id) (newPos : Vector2D) :
    ∃ m, a.manager.move none id newPos = some m ∧ a.Keeps { a with manager := m } := by
  obtain ⟨l, w, hl, hw⟩ := hasWindow_iff.mp (ha.hasWindow_of_shown hid)
  rw [move_eq hl hw]
  exact ha.moved hid l.ref (f := fun x ↦ { x with pos := newPos }) ⟨fun _ ↦ rfl, fun _ ↦ rfl⟩
    (fun _ ↦ rfl) _

theorem Live.moveRelative (ha : a.Live) {id : ℕ} (hid : a.manager.Shown id) (posDiff : Vector2D) :
    ∃ m, a.manager.moveRelative none id posDiff = some m ∧ a.Keeps { a with manager := m } := by
  obtain ⟨l, w, hl, hw⟩ := hasWindow_iff.mp (ha.hasWindow_of_shown hid)
  rw [moveRelative_eq hl hw]
  exact ha.moved hid l.ref (f := fun x ↦ { x with pos := x.pos + posDiff })
    ⟨fun _ ↦ rfl, fun _ ↦ rfl⟩ (fun _ ↦ rfl) _

theorem Live.leave (ha : a.Live) (title : Bool → Window → Window) :
    ∃ m, leave title none a = some m ∧ m.Invariant ∧ m.view = a.manager.view ∧
      m.layerStack = a.manager.layerStack := by
  have hcan : CanLeave a := ha.active.imp_right ha.hasWindow_of_shown
  obtain ⟨m, hm⟩ := exists_leave title none ha.inv hcan
    (ha.active.imp_right .inl)
  exact ⟨m, hm, leave_spec ha.inv hm⟩

theorem Live.activate_zero (ha : a.Live) (title : Bool → Window → Window) :
    ∃ a', a.activate title none 0 = some a' ∧ a.Keeps a' ∧ a'.activeLayer = 0 ∧
      a'.manager.view = a.manager.view ∧ a'.manager.layerStack = a.manager.layerStack := by
  by_cases hid : a.activeLayer = 0
  · exact ⟨a, by rw [activate, if_pos hid], .refl ha, hid, rfl, rfl⟩
  · obtain ⟨m, hleave, hm, hview, hstack⟩ := ha.leave title
    refine ⟨⟨m, 0, a.mouseLayer⟩, ?_, ?_, rfl, hview, hstack⟩
    · rw [activate, if_neg hid, hleave]
      rfl
    · have hkeeps := ha.keeps_manager hm hview hstack
      exact ⟨⟨hm, hkeeps.live.windows, .inl rfl⟩, rfl, hkeeps.shown⟩

theorem Live.activate (ha : a.Live) (title : Bool → Window → Window) {id : ℕ}
    (hid : a.manager.view id ≠ none) (hne : id ≠ a.mouseLayer)
    (hmouse : a.manager.Shown a.mouseLayer) :
    ∃ a', a.activate title none id = some a' ∧ a.Keeps a' := by
  by_cases hzero : id = 0
  · obtain ⟨a', hact, hkeeps, _⟩ := ha.activate_zero title
    exact ⟨a', hzero ▸ hact, hkeeps⟩
  by_cases hsame : a.activeLayer = id
  · exact ⟨a, by rw [ActiveLayer.activate, if_pos hsame], .refl ha⟩
  obtain ⟨m, hleave, hm, hview, hstack⟩ := ha.leave title
  obtain ⟨ref, href⟩ := ha.hasWindow hid
  have hmouse' := (ActiveLayer.shown_congr hview hstack a.mouseLayer).mpr hmouse
  obtain ⟨m', hraise⟩ := exists_raise title none hm
    (by rw [HasWindow, hview]; exact ⟨ref, href⟩) hne (.inl hmouse')
  have hraised := raise_spec hm (hview ▸ href) hne hraise
  obtain ⟨mr, b, hmr, hmem⟩ := shown_iff_view.mp hmouse'
  have hstack' := hraised.below mr b hmr hmem
  have hmono : ∀ i, a.manager.Shown i → m'.Shown i := by
    intro i hi
    obtain ⟨r, b', hr, hin⟩ := shown_iff_view.mp hi
    refine shown_iff_view.mpr ⟨r, b', by rw [hraised.view, hview]; exact hr, ?_⟩
    rw [hstack', hstack]
    refine (List.mem_insertIdx ?_).mpr ?_
    · exact List.idxOf_le_length
    · by_cases heq : r = ref
      · exact .inl heq
      · exact .inr ((List.mem_erase_of_ne heq).mpr hin)
  refine ⟨⟨m', id, a.mouseLayer⟩, ?_, ⟨⟨hraised.inv, ?_, .inr ?_⟩, rfl, hmono⟩⟩
  · rw [ActiveLayer.activate, if_neg hsame, hleave]
    simp [Nat.pos_of_ne_zero hzero, hraise]
  · intro i x hx
    rw [hraised.view, hview] at hx
    exact ha.windows i x hx
  · refine shown_iff_view.mpr ⟨ref, true, by rw [hraised.view, hview]; exact href, ?_⟩
    rw [hstack']
    exact (List.mem_insertIdx List.idxOf_le_length).mpr (.inl rfl)

theorem view_newWindow {m : LayerManager} {ref : ℕ} (hfresh : ∀ l ∈ m.layers, l.ref ≠ ref)
    {f : Layer → Layer} (hf : Edits f) (hwindow : ∀ l, (f l).window.isSome = true) (id : ℕ) :
    ((m.newLayer ref).modify ref f).view id =
      (m.view id).or (if id = m.nextId then some (ref, true) else none) := by
  rw [view, view, modify_findLayer _ ref hf, findLayer, newLayer, List.find?_append, ← findLayer]
  cases hl : m.findLayer id with
  | some l =>
      have hne := hfresh l (mem_of_findLayer hl).1
      simp [hne]
  | none =>
      by_cases hid : id = m.nextId
      · subst hid
        simp [hf.ref, hwindow]
      · have hid' : m.nextId ≠ id := Ne.symm hid
        simp [hid, hid']

theorem invariant_newWindow {m : LayerManager} (hm : m.Invariant) {ref : ℕ} (hzero : ref ≠ 0)
    (hfresh : ∀ l ∈ m.layers, l.ref ≠ ref) {f : Layer → Layer} (hf : Edits f) :
    ((m.newLayer ref).modify ref f).Invariant :=
  (hm.newLayer hzero hfresh).modify ref hf

theorem Live.keeps_newWindow (ha : a.Live) {ref : ℕ} (hzero : ref ≠ 0)
    (hfresh : ∀ l ∈ a.manager.layers, l.ref ≠ ref) {f : Layer → Layer} (hf : Edits f)
    (hwindow : ∀ l, (f l).window.isSome = true) :
    a.Keeps { a with manager := (a.manager.newLayer ref).modify ref f } := by
  have hview := view_newWindow hfresh hf hwindow
  have hshown : ∀ id, a.manager.Shown id → ((a.manager.newLayer ref).modify ref f).Shown id := by
    intro id hid
    obtain ⟨r, b, hr, hmem⟩ := shown_iff_view.mp hid
    exact shown_iff_view.mpr ⟨r, b, by rw [hview, hr]; rfl, hmem⟩
  refine ⟨⟨invariant_newWindow ha.inv hzero hfresh hf, ?_, ha.active.imp_right (hshown _)⟩, rfl,
    hshown⟩
  intro id x hx
  rw [hview, Option.or_eq_some_iff] at hx
  rcases hx with hold | ⟨_, hnew⟩
  · exact ha.windows id x hold
  · split_ifs at hnew
    rw [← Option.some.inj hnew]

theorem removeLayer_findLayer {m : LayerManager} {id i : ℕ} (hne : i ≠ id) :
    (m.removeLayer id).findLayer i = m.findLayer i := by
  have hpred : (fun l : Layer ↦ decide (decide (l.id ≠ id) = true ∧ decide (l.id = i) = true)) =
      fun l ↦ decide (l.id = i) := by
    funext l
    by_cases heq : l.id = i <;> simp [heq, hne]
  rw [findLayer, removeLayer, List.find?_filter, hpred, hide_layers, findLayer]

theorem shown_removeLayer {m : LayerManager} (hm : m.Invariant) {id i : ℕ} {l : Layer}
    (hl : m.findLayer id = some l) (hne : i ≠ id) (hi : m.Shown i) :
    (m.removeLayer id).Shown i := by
  obtain ⟨x, hx, hmem⟩ := hi
  refine ⟨x, (removeLayer_findLayer hne).trans hx, ?_⟩
  have hother : x.ref ≠ l.ref := by
    intro href
    have hsame := hm.eq_of_ref (mem_of_findLayer hx).1 (mem_of_findLayer hl).1 href
    exact hne ((mem_of_findLayer hx).2.symm.trans (hsame ▸ (mem_of_findLayer hl).2))
  change x.ref ∈ (m.hide id).layerStack
  rw [hide_stack, findRef_eq hl]
  exact (List.mem_erase_of_ne hother).mpr hmem

theorem removeLayer_view {m : LayerManager} {id i : ℕ} {x : ℕ × Bool}
    (hx : (m.removeLayer id).view i = some x) : m.view i = some x := by
  by_cases hi : i = id
  · obtain ⟨l, hl, _⟩ := Option.map_eq_some_iff.mp hx
    have hmem : l ∈ (m.hide id).layers.filter (·.id ≠ id) := (mem_of_findLayer hl).1
    have hne : l.id ≠ id := by simpa using (List.mem_filter.mp hmem).2
    exact absurd ((mem_of_findLayer hl).2.trans hi) hne
  · rwa [view, removeLayer_findLayer hi] at hx

end ActiveLayer

namespace Desk

/-- All that the mouse and the messages name is shown. -/
structure Live (s : Desk) : Prop where
  active : s.active.Live
  mouse : ∀ mouse, s.mouse = some mouse → s.active.mouseLayer = mouse.layerId ∧
    s.active.manager.Shown mouse.layerId ∧
    (mouse.dragLayerId = 0 ∨ s.active.manager.Shown mouse.dragLayerId)
  queue : ∀ msg ∈ s.queue, s.active.manager.Shown msg.layerId

theorem Live.keeps {s : Desk} (hs : s.Live) {a : ActiveLayer} (ha : s.active.Keeps a) :
    Live { s with active := a } where
  active := ha.live
  mouse mouse hmouse := by
    obtain ⟨hlayer, hshown, hdrag⟩ := hs.mouse mouse hmouse
    exact ⟨ha.mouseLayer.trans hlayer, ha.shown _ hshown, hdrag.imp_right (ha.shown _)⟩
  queue msg hmsg := ha.shown _ (hs.queue msg hmsg)

variable {v : Virtuals} {s : Desk}

theorem Live.openWindow (hs : s.Live) {ref : ℕ} {win : Window} {pos : Vector2D}
    (hfresh : Fresh s (.openWindow ref win pos)) (hcareful : Careful s (.openWindow ref win pos)) :
    ∃ s', openWindow v s ref win pos = some s' ∧ s'.Live := by
  obtain ⟨hmouse, hne⟩ := hcareful
  obtain ⟨mouse, hmouse⟩ := Option.ne_none_iff_exists'.mp hmouse
  obtain ⟨hlayer, hshown, _⟩ := hs.mouse mouse hmouse
  have hedits : Edits fun l ↦ { l with window := some win, draggable := true, pos := pos } :=
    ⟨fun _ ↦ rfl, fun _ ↦ rfl⟩
  have hkeeps := hs.active.keeps_newWindow hfresh.1 hfresh.2 hedits (fun _ ↦ rfl)
  have hview := view_newWindow hfresh.2 hedits (fun _ ↦ rfl) s.active.manager.nextId
  rw [if_pos rfl] at hview
  have hsome : ((s.active.manager.newLayer ref).modify ref fun l ↦
      { l with window := some win, draggable := true, pos := pos }).view
        s.active.manager.nextId ≠ none := by
    rw [hview, Ne, Option.or_eq_none_iff]
    exact fun h ↦ Option.some_ne_none _ h.2
  obtain ⟨a, hact, hkeeps'⟩ := hkeeps.live.activate v.title hsome hne
    (hkeeps.shown _ (hlayer ▸ hshown))
  refine ⟨{ s with active := a }, ?_, hs.keeps (hkeeps.trans hkeeps')⟩
  simp only [Desk.openWindow, withManager, hact, Option.bind_eq_bind, Option.bind_some]

theorem Live.closeLayer (hs : s.Live) {layerId : ℕ} (hcareful : Careful s (.closeLayer layerId)) :
    ∃ s', closeLayer v s layerId = some s' ∧ s'.Live := by
  rw [Desk.closeLayer]
  cases hl : s.active.manager.findLayer layerId with
  | none => exact ⟨s, rfl, hs⟩
  | some l =>
      have hl' : s.active.manager.view layerId ≠ none := by
        rw [view, hl]
        exact Option.some_ne_none _
      obtain ⟨l', w, hfind, hw⟩ := hasWindow_iff.mp (hs.active.hasWindow hl')
      obtain rfl := Option.some.inj (hl.symm.trans hfind)
      obtain ⟨a, hact, hkeeps, hzero, hview, hstack⟩ := hs.active.activate_zero v.title
      obtain ⟨x, hx, _⟩ : ∃ x, a.manager.findLayer layerId = some x ∧ True := by
        have hsome : a.manager.view layerId ≠ none := hview ▸ hl'
        obtain ⟨y, hy⟩ := Option.ne_none_iff_exists'.mp hsome
        obtain ⟨x, hx, _⟩ := Option.map_eq_some_iff.mp hy
        exact ⟨x, hx, trivial⟩
      have hshown : ∀ i, i ≠ layerId → s.active.manager.Shown i →
          ((a.manager.removeLayer layerId).drawArea ⟨l.pos, w.size⟩).Shown i :=
        fun i hi hold ↦ shown_removeLayer hkeeps.live.inv hx hi (hkeeps.shown i hold)
      refine ⟨{ s with active := { a with manager :=
        (a.manager.removeLayer layerId).drawArea ⟨l.pos, w.size⟩ } },
        by simp only [hw, hact, Option.bind_eq_bind, Option.bind_some], ?_⟩
      refine ⟨⟨invariant_drawArea (hkeeps.live.inv.removeLayer layerId) _, ?_, .inl hzero⟩, ?_, ?_⟩
      · exact fun i y hy ↦ hkeeps.live.windows i y (removeLayer_view hy)
      · intro mouse hmouse
        obtain ⟨hlayer, hm, hdrag⟩ := hs.mouse mouse hmouse
        obtain ⟨hne, hne'⟩ := hcareful.1 mouse hmouse
        refine ⟨hkeeps.mouseLayer.trans hlayer, hshown _ hne.symm hm, ?_⟩
        rcases hne' with hzero | hne'
        · exact .inl hzero
        · exact hdrag.imp_right (hshown _ hne'.symm)
      · exact fun msg hmsg ↦ hshown _ (hcareful.2 msg hmsg).symm (hs.queue msg hmsg)

theorem Live.processLayerMessage (hs : s.Live) {msg : LayerMessage}
    (hmsg : s.active.manager.Shown msg.layerId) :
    ∃ s', processLayerMessage s msg = some s' ∧ s'.Live := by
  have hkeeps : ∃ m, layerOperation s.active.manager msg = some m ∧
      s.active.Keeps { s.active with manager := m } := by
    rw [layerOperation]
    cases msg.op with
    | move => exact hs.active.move hmsg _
    | moveRelative => exact hs.active.moveRelative hmsg _
    | draw => exact hs.active.drawId hmsg _
    | drawArea => exact hs.active.drawId hmsg _
  obtain ⟨m, hm, hkeeps⟩ := hkeeps
  exact ⟨s.withManager m, by rw [Desk.processLayerMessage, hm]; rfl, hs.keeps hkeeps⟩

theorem Live.mouse_of_keeps (hs : s.Live) {a : ActiveLayer} (mouse : Mouse) (ha : s.active.Keeps a)
    (hlayer : s.active.mouseLayer = mouse.layerId) (hshown : s.active.manager.Shown mouse.layerId)
    (hdrag : mouse.dragLayerId = 0 ∨ a.manager.Shown mouse.dragLayerId) :
    Live { s with active := a, mouse := some mouse } where
  active := ha.live
  mouse mouse' hmouse' := by
    obtain rfl := Option.some.inj hmouse'
    exact ⟨ha.mouseLayer.trans hlayer, ha.shown _ hshown, hdrag⟩
  queue msg hmsg := ha.shown _ (hs.queue msg hmsg)

theorem findLayerByPosition_spec {m : LayerManager} (hm : m.Invariant) {pos : Vector2D}
    {excludeId : ℕ} {l : Layer} (h : m.findLayerByPosition pos excludeId = some l) :
    l.id ≠ excludeId ∧ l.window ≠ none ∧ m.findLayer l.id = some l ∧ l.ref ∈ m.layerStack := by
  have hprop := List.find?_some h
  simp only [decide_eq_true_eq] at hprop
  obtain ⟨ref, href, hat⟩ := List.mem_filterMap.mp
    (List.mem_reverse.mp (List.mem_of_find?_eq_some h))
  obtain ⟨l', rfl, hfirst⟩ := hm.first ref href
  rw [hm.layerAt_eq (mem_of_findLayer hfirst).1] at hat
  obtain rfl := Option.some.inj hat
  refine ⟨hprop.1, ?_, hfirst, href⟩
  intro hnone
  rw [hnone] at hprop
  exact absurd hprop.2 (by simp)

theorem Live.press (hs : s.Live) (mouse : Mouse) (hlayer : s.active.mouseLayer = mouse.layerId)
    (hshown : s.active.manager.Shown mouse.layerId)
    (hdrag : mouse.dragLayerId = 0 ∨ s.active.manager.Shown mouse.dragLayerId)
    (posDiff : Vector2D) (buttons : ℕ) :
    ∃ s', press v s mouse posDiff buttons = some s' ∧ s'.Live := by
  have hzero : ∃ a, s.active.activate v.title unset 0 = some a ∧
      Live { s with active := a, mouse := some mouse } := by
    obtain ⟨a, hact, hkeeps, _⟩ := hs.active.activate_zero v.title
    exact ⟨a, hact, hs.mouse_of_keeps _ hkeeps hlayer hshown (hdrag.imp_right (hkeeps.shown _))⟩
  obtain ⟨a₀, hact₀, hlive₀⟩ := hzero
  have hsame : Live { s with mouse := some mouse } :=
    hs.mouse_of_keeps _ (.refl hs.active) hlayer hshown hdrag
  simp only [Desk.press]
  split_ifs with hpress hheld hdragging hrelease
  · cases hfind : s.active.manager.findLayerByPosition mouse.position mouse.layerId with
    | none => exact ⟨_, by simp only [hact₀, Option.bind_eq_bind, Option.bind_some], hlive₀⟩
    | some l =>
        obtain ⟨hne, hwindow, hl, href⟩ := findLayerByPosition_spec hs.active.inv hfind
        obtain ⟨w, hw⟩ := Option.ne_none_iff_exists'.mp hwindow
        dsimp only
        split_ifs with hdraggable
        · have hview : s.active.manager.view l.id ≠ none := by
            rw [view, hl]
            exact Option.some_ne_none _
          obtain ⟨a, hact, hkeeps⟩ := hs.active.activate v.title hview (hlayer ▸ hne)
            (hlayer ▸ hshown)
          have hdrag' : dragAfter v mouse l w = 0 ∨ a.manager.Shown (dragAfter v mouse l w) := by
            rw [dragAfter]
            split
            · exact .inr (hkeeps.shown _ ⟨l, hl, href⟩)
            · exact hdrag.imp_right (hkeeps.shown _)
          exact ⟨{ s with
              active := a
              mouse := some { mouse with dragLayerId := dragAfter v mouse l w } },
            by simp only [hw, hact, Option.bind_eq_bind, Option.bind_some],
            hs.mouse_of_keeps _ hkeeps hlayer hshown hdrag'⟩
        · exact ⟨_, by simp only [hact₀, Option.bind_eq_bind, Option.bind_some], hlive₀⟩
  · obtain ⟨m, hm, hkeeps⟩ := hs.active.moveRelative (hdrag.resolve_left (by omega)) posDiff
    exact ⟨{ s.withManager m with mouse := some mouse },
      by simp only [hm, Option.bind_eq_bind, Option.bind_some],
      hs.mouse_of_keeps _ hkeeps hlayer hshown (hdrag.imp_right (hkeeps.shown _))⟩
  · exact ⟨_, rfl, hsame⟩
  · exact ⟨_, rfl, hs.mouse_of_keeps { mouse with dragLayerId := 0 } (.refl hs.active)
      hlayer hshown (.inl rfl)⟩
  · exact ⟨_, rfl, hsame⟩

theorem Live.onInterrupt (hs : s.Live) {mouse : Mouse} (hmouse : s.mouse = some mouse)
    (buttons : ℕ) (displacement : Vector2D) :
    ∃ s', onInterrupt v s mouse buttons displacement = some s' ∧ s'.Live := by
  obtain ⟨hlayer, hshown, hdrag⟩ := hs.mouse mouse hmouse
  simp only [Desk.onInterrupt]
  generalize Vector2D.elementMax _ _ = position
  obtain ⟨m, hm, hkeeps⟩ := hs.active.move hshown position
  obtain ⟨s', hs', hlive⟩ := (hs.keeps hkeeps).press { mouse with position := position } (v := v)
    (hkeeps.mouseLayer.trans hlayer)
    (hkeeps.shown _ hshown) (hdrag.imp_right (hkeeps.shown _)) (position - mouse.position) buttons
  refine ⟨{ s' with mouse := s'.mouse.map fun mouse ↦ { mouse with previousButtons := buttons } },
    ?_, hlive.active, ?_, hlive.queue⟩
  · simp only [hm, Option.bind_eq_bind, Option.bind_some, withManager, hs']
  · intro mouse' hmouse'
    obtain ⟨before, hbefore, rfl⟩ := Option.map_eq_some_iff.mp hmouse'
    exact hlive.mouse before hbefore

/-- A step that is careful comes to its end, and all names stay good. -/
theorem Live.exec (hs : s.Live) {op : Op} (hfresh : Fresh s op) (hcareful : Careful s op) :
    ∃ s', exec v s op = some s' ∧ s'.Live := by
  cases op with
  | openWindow ref win pos => exact hs.openWindow hfresh hcareful
  | closeLayer layerId => exact hs.closeLayer hcareful
  | onInterrupt buttons displacement =>
      rw [Desk.exec]
      cases hmouse : s.mouse with
      | none => exact ⟨s, rfl, hs⟩
      | some mouse => exact hs.onInterrupt hmouse buttons displacement
  | post msg =>
      refine ⟨_, rfl, hs.active, hs.mouse, ?_⟩
      intro msg' hmsg'
      rcases List.mem_append.mp hmsg' with hold | hnew
      · exact hs.queue msg' hold
      · rw [List.mem_singleton.mp hnew]
        exact hcareful
  | process =>
      rw [Desk.exec]
      cases hqueue : s.queue with
      | nil => exact ⟨s, rfl, hs⟩
      | cons msg rest =>
          have hrest : Live { s with queue := rest } :=
            ⟨hs.active, hs.mouse, fun msg' h ↦ hs.queue msg' (hqueue ▸ List.mem_cons_of_mem msg h)⟩
          exact hrest.processLayerMessage (hs.queue msg (hqueue ▸ List.mem_cons_self))

/-- The state in which the event loop begins: nothing is active, dragged or
queued, and a mouse layer, if there is one, is shown. -/
structure Started (s : Desk) : Prop where
  inv : s.active.manager.Invariant
  windows : ∀ l ∈ s.active.manager.layers, l.window ≠ none
  active : s.active.activeLayer = 0
  mouse : ∀ mouse, s.mouse = some mouse → s.active.mouseLayer = mouse.layerId ∧
    s.active.manager.Shown mouse.layerId ∧ mouse.dragLayerId = 0
  queue : s.queue = []

theorem Started.live (hs : s.Started) : s.Live where
  active :=
    { inv := hs.inv
      windows := by
        intro id x hx
        obtain ⟨l, hl, rfl⟩ := Option.map_eq_some_iff.mp hx
        exact Option.isSome_iff_ne_none.mpr (hs.windows l (mem_of_findLayer hl).1)
      active := .inl hs.active }
  mouse mouse hmouse := by
    obtain ⟨hlayer, hshown, hdrag⟩ := hs.mouse mouse hmouse
    exact ⟨hlayer, hshown, .inl hdrag⟩
  queue msg hmsg := by
    rw [hs.queue] at hmsg
    cases hmsg

/-- In every run of careful steps no step dereferences a layer that is gone or
reads a window area that was not set. -/
theorem exec_of_run {s₀ : Desk} (hstart : s₀.Started) {ops : List Op}
    (hrun : Transition.Run (Transition.Guarded Careful (Step v)) s₀ ops s) :
    ∀ op, Fresh s op → Careful s op → exec v s op ≠ none := by
  have hs : s.Live := by
    apply hrun.invariant _ hstart.live
    rintro s op s' hs ⟨hcareful, hfresh, hstep⟩
    obtain ⟨s'', hs'', hlive⟩ := hs.exec (v := v) hfresh hcareful
    rw [hstep] at hs''
    exact Option.some.inj hs'' ▸ hlive
  intro op hfresh hcareful
  obtain ⟨s', hs', _⟩ := hs.exec (v := v) hfresh hcareful
  rw [hs']
  exact Option.some_ne_none _

/-- A screen with its desktop and a mouse layer. -/
def withMouse : Desk where
  active :=
    { manager :=
        { screen := .ofSize 64 64 .kPixelRGBResv8BitPerColor
          backBuffer := .ofSize 64 64 .kPixelRGBResv8BitPerColor
          layers := [⟨8, 1, ⟨0, 0⟩, some (.ofSize 64 64 .kPixelRGBResv8BitPerColor), false⟩,
            ⟨16, 2, ⟨10, 10⟩, some (.ofSize 15 24 .kPixelRGBResv8BitPerColor), false⟩]
          layerStack := [8, 16]
          latestId := 2 }
      activeLayer := 0
      mouseLayer := 2 }
  mouse := some ⟨2, ⟨10, 10⟩, 0, 0⟩
  queue := []

theorem started_withMouse : withMouse.Started where
  inv :=
    { refs_nodup := by decide
      ref_ne_zero := by decide
      stack_nodup := by decide
      first := by
        intro ref href
        rcases List.mem_cons.mp href with rfl | href
        · exact ⟨⟨8, 1, ⟨0, 0⟩, _, false⟩, rfl, rfl⟩
        · obtain rfl := List.mem_singleton.mp href
          exact ⟨⟨16, 2, ⟨10, 10⟩, _, false⟩, rfl, rfl⟩ }
  windows l hl := by
    rcases List.mem_cons.mp hl with rfl | hl
    · exact Option.some_ne_none _
    · rw [List.mem_singleton.mp hl]
      exact Option.some_ne_none _
  active := rfl
  mouse mouse hmouse := by
    obtain rfl := Option.some.inj hmouse
    exact ⟨rfl, ⟨⟨16, 2, ⟨10, 10⟩, _, false⟩, rfl, by decide⟩, rfl⟩
  queue := rfl

/-- A window is opened, dragged by its title bar and closed once the button is
released. -/
theorem exec_after_drag :
    ∃ s, Transition.Run (Transition.Guarded Careful (Step ⟨fun _ w ↦ w, toplevelRegion⟩)) withMouse
        [.openWindow 24 (.ofSize 60 60 .kPixelRGBResv8BitPerColor) ⟨0, 0⟩, .onInterrupt 1 ⟨0, 0⟩,
          .onInterrupt 1 ⟨1, 0⟩, .onInterrupt 0 ⟨0, 0⟩, .closeLayer 3] s ∧
      exec ⟨fun _ w ↦ w, toplevelRegion⟩ s (.onInterrupt 1 ⟨1, 0⟩) ≠ none := by
  have hrun : Transition.Run (Transition.Guarded Careful (Step ⟨fun _ w ↦ w, toplevelRegion⟩))
      withMouse
      [.openWindow 24 (.ofSize 60 60 .kPixelRGBResv8BitPerColor) ⟨0, 0⟩, .onInterrupt 1 ⟨0, 0⟩,
        .onInterrupt 1 ⟨1, 0⟩, .onInterrupt 0 ⟨0, 0⟩, .closeLayer 3] _ :=
    .snoc (.snoc (.snoc (.snoc (.snoc (.nil _)
      ⟨⟨Option.some_ne_none _, by decide⟩, ⟨by decide, by decide⟩, rfl⟩) ⟨trivial, trivial, rfl⟩)
      ⟨trivial, trivial, rfl⟩) ⟨trivial, trivial, rfl⟩)
      ⟨⟨by rintro _ ⟨⟩; decide, by decide⟩, trivial, rfl⟩
  exact ⟨_, hrun, exec_of_run started_withMouse hrun _ trivial trivial⟩

/-- Without a mouse layer `OpenWindow` reads a window area that was not set, and
a window that is closed while it is dragged is moved all the same. -/
theorem not_exec_close_dragged :
    (∃ s : Desk, s.Started ∧ Fresh s (.openWindow 8 (.ofSize 60 60 .kPixelRGBResv8BitPerColor)
        ⟨0, 0⟩) ∧
      exec ⟨fun _ w ↦ w, toplevelRegion⟩ s
        (.openWindow 8 (.ofSize 60 60 .kPixelRGBResv8BitPerColor) ⟨0, 0⟩) = none) ∧
    withMouse.Started ∧
      ∃ s, Transition.Run (Step ⟨fun _ w ↦ w, toplevelRegion⟩) withMouse
          [.openWindow 24 (.ofSize 60 60 .kPixelRGBResv8BitPerColor) ⟨0, 0⟩, .onInterrupt 1 ⟨0, 0⟩,
            .closeLayer 3] s ∧
        exec ⟨fun _ w ↦ w, toplevelRegion⟩ s (.onInterrupt 1 ⟨1, 0⟩) = none := by
  refine ⟨⟨⟨ActiveLayer.init (.ofSize 64 64 .kPixelRGBResv8BitPerColor)
    (.ofSize 64 64 .kPixelRGBResv8BitPerColor), none, []⟩, ?_, ⟨by decide, by decide⟩, rfl⟩,
    started_withMouse, ?_⟩
  · exact ⟨.ofScreen _ _, fun l hl ↦ (List.not_mem_nil hl).elim, rfl,
      (fun mouse hmouse ↦ nomatch hmouse), rfl⟩
  · have hrun : Transition.Run (Step ⟨fun _ w ↦ w, toplevelRegion⟩) withMouse
        [.openWindow 24 (.ofSize 60 60 .kPixelRGBResv8BitPerColor) ⟨0, 0⟩, .onInterrupt 1 ⟨0, 0⟩,
          .closeLayer 3] _ :=
      .snoc (.snoc (.snoc (.nil _) ⟨⟨by decide, by decide⟩, rfl⟩) ⟨trivial, rfl⟩) ⟨trivial, rfl⟩
    exact ⟨_, hrun, rfl⟩

end Desk

end Graphics
end MinOS
