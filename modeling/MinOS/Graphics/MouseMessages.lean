import MinOS.Graphics.Mouse
import Mathlib.Data.List.Chain

/-!
# What the mouse tells the applications

Every interrupt moves the mouse and may send messages to the task of the active layer.  They
are computed from `newpos`, which is cut at the right and the lower edge of the screen only,
while `position_` and the difference are cut at all four.
-/

namespace MinOS
namespace Graphics

open ActiveLayer

inductive MouseMessage where
  | mouseMove (x y dx dy : ℤ) (buttons : ℕ)
  | mouseButton (x y : ℤ) (press : Bool) (button : ℕ)
  | windowClose (layerId : ℕ)
deriving DecidableEq, Repr

/-- `layer_task_map`. -/
abbrev TaskMap : Type := ℕ → Option ℕ

def findActiveLayerTask (tasks : TaskMap) (a : ActiveLayer) : Option (Layer × ℕ) :=
  if a.activeLayer = 0 then none
  else
    match a.manager.findLayer a.activeLayer with
    | none => none
    | some layer =>
        match tasks a.activeLayer with
        | none => some (layer, 0)
        | some taskId => some (layer, taskId)

/-- The messages of `SendMouseMessage`, each with the task that it is for. -/
def sendMouseMessage (tasks : TaskMap) (a : ActiveLayer) (newPos posDiff : Vector2D)
    (buttons previousButtons : ℕ) : List (ℕ × MouseMessage) :=
  match findActiveLayerTask tasks a with
  | none => []
  | some (layer, taskId) =>
      if taskId = 0 then []
      else
        let relPos := newPos - layer.pos
        (if posDiff.x ≠ 0 ∨ posDiff.y ≠ 0 then
          [(taskId, .mouseMove relPos.x relPos.y posDiff.x posDiff.y buttons)] else []) ++
        (if previousButtons ≠ buttons then
          ((List.range 8).filter fun i ↦ (previousButtons ^^^ buttons).testBit i).map fun i ↦
            (taskId, .mouseButton relPos.x relPos.y (buttons.testBit i) i) else [])

def sendCloseMessage (tasks : TaskMap) (a : ActiveLayer) : List (ℕ × MouseMessage) :=
  match findActiveLayerTask tasks a with
  | none => []
  | some (layer, taskId) => if taskId = 0 then [] else [(taskId, .windowClose layer.id)]

namespace Desk

/-- `close_layer_id`, for the mouse at its new position. -/
def closeLayerId (v : Virtuals) (s : Desk) (mouse : Mouse) (buttons : ℕ) : ℕ :=
  if ¬ mouse.previousButtons.testBit 0 ∧ buttons.testBit 0 then
    match s.active.manager.findLayerByPosition mouse.position mouse.layerId with
    | some layer =>
        if layer.draggable then
          match layer.window with
          | some window =>
              match v.region window (mouse.position - layer.pos) with
              | .kCloseButton => layer.id
              | _ => 0
          | none => 0
        else 0
    | none => 0
  else 0

/-- The last part of `OnInterrupt`: `s` is the state after the buttons were looked at. -/
def interruptMessages (tasks : TaskMap) (s : Desk) (closeId : ℕ) (newPos posDiff : Vector2D)
    (buttons previousButtons : ℕ) : List (ℕ × MouseMessage) :=
  if s.mouse.elim 0 Mouse.dragLayerId = 0 then
    if closeId = 0 then sendMouseMessage tasks s.active newPos posDiff buttons previousButtons
    else sendCloseMessage tasks s.active
  else []

end Desk

/-- What one interrupt did: the screen, the position before and after it, the position of
the active layer when the messages were sent, and the messages. -/
structure MouseEvent where
  screenSize : Vector2D
  displacement : Vector2D
  before : Vector2D
  after : Vector2D
  layerPos : Option Vector2D
  sent : List (ℕ × MouseMessage)

namespace Desk

/-- `OnInterrupt` with what it sends. -/
def interrupt (v : Virtuals) (tasks : TaskMap) (s : Desk) (mouse : Mouse) (buttons : ℕ)
    (displacement : Vector2D) : Option (Desk × MouseEvent) := do
  let screenSize := s.active.manager.screen.size
  let newPos := Vector2D.elementMin (mouse.position + displacement) (screenSize + ⟨-1, -1⟩)
  let position := Vector2D.elementMax newPos ⟨0, 0⟩
  let posDiff := position - mouse.position
  let m ← s.active.manager.move unset mouse.layerId position
  let moved := { mouse with position := position }
  let closeId := closeLayerId v (s.withManager m) moved buttons
  let pressed ← press v (s.withManager m) moved posDiff buttons
  let sent := interruptMessages tasks pressed closeId newPos posDiff buttons mouse.previousButtons
  let layer := pressed.active.manager.findLayer pressed.active.activeLayer
  some
    ({ pressed with
        mouse := pressed.mouse.map fun mouse ↦ { mouse with previousButtons := buttons } },
      ⟨screenSize, displacement, mouse.position, position, layer.map Layer.pos, sent⟩)

theorem interrupt_fst (v : Virtuals) (tasks : TaskMap) (s : Desk) (mouse : Mouse) (buttons : ℕ)
    (displacement : Vector2D) :
    (interrupt v tasks s mouse buttons displacement).map Prod.fst =
      onInterrupt v s mouse buttons displacement := by
  simp only [interrupt, onInterrupt, Option.bind_eq_bind, Option.map_bind, Function.comp_def,
    Option.map_some]

end Desk

/-- The layers, the tasks behind them, and the interrupts so far. -/
structure Session where
  desk : Desk
  tasks : TaskMap
  log : List MouseEvent

namespace Session

open Desk

inductive Op where
  | act (op : Desk.Op)
  | setTask (layerId : ℕ) (taskId : Option ℕ)

/-- Interrupts are logged; whatever else happens to the layers is not. -/
def exec (v : Virtuals) (s : Session) : Op → Option Session
  | .act (.onInterrupt buttons displacement) =>
      match s.desk.mouse with
      | none => some s
      | some mouse =>
          (interrupt v s.tasks s.desk mouse buttons displacement).map fun r ↦
            { s with desk := r.1, log := s.log ++ [r.2] }
  | .act op => (Desk.exec v s.desk op).map fun desk ↦ { s with desk := desk }
  | .setTask layerId taskId => some { s with tasks := Function.update s.tasks layerId taskId }

def Step (v : Virtuals) (s : Session) (op : Op) (s' : Session) : Prop :=
  (∀ act, op = .act act → Fresh s.desk act) ∧ exec v s op = some s'

end Session

/-! ## What the messages should say -/

namespace MouseMessage

def coords : MouseMessage → Option Vector2D
  | .mouseMove x y _ _ _ => some ⟨x, y⟩
  | .mouseButton x y _ _ => some ⟨x, y⟩
  | .windowClose _ => none

def change : MouseMessage → Option Vector2D
  | .mouseMove _ _ dx dy _ => some ⟨dx, dy⟩
  | _ => none

end MouseMessage

namespace MouseEvent

/-- The position is in the screen, and the messages tell it and its change. -/
structure Exact (e : MouseEvent) : Prop where
  inScreen : 0 ≤ e.after.x ∧ e.after.x < e.screenSize.x ∧
    0 ≤ e.after.y ∧ e.after.y < e.screenSize.y
  coords : ∀ m ∈ e.sent, ∀ p ∈ m.2.coords, ∃ pos, e.layerPos = some pos ∧ p = e.after - pos
  change : ∀ m ∈ e.sent, ∀ d ∈ m.2.change, d = e.after - e.before

/-- The second event begins where the first one ended, and while the active layer stays in
place its moves lead from the coordinates that were told last to the new ones. -/
def Continues (e e' : MouseEvent) : Prop :=
  e'.before = e.after ∧ ∀ pos, e.layerPos = some pos → e'.layerPos = some pos →
    ∀ m ∈ e.sent, ∀ m' ∈ e'.sent, ∀ p ∈ m.2.coords, ∀ p' ∈ m'.2.coords, ∀ d ∈ m'.2.change,
      p' = p + d

theorem Exact.continues {e e' : MouseEvent} (h : e.Exact) (h' : e'.Exact)
    (hbefore : e'.before = e.after) : e.Continues e' := by
  refine ⟨hbefore, ?_⟩
  intro pos hpos hpos' m hm m' hm' p hp p' hp' d hd
  obtain ⟨pos₁, hpos₁, rfl⟩ := h.coords m hm p hp
  obtain ⟨pos₂, hpos₂, rfl⟩ := h'.coords m' hm' p' hp'
  obtain rfl := Option.some.inj (hpos.symm.trans hpos₁)
  obtain rfl := Option.some.inj (hpos'.symm.trans hpos₂)
  rw [h'.change m' hm' d hd, hbefore]
  ext
  · simp only [Vector2D.add_x, Vector2D.sub_x]
    ring
  · simp only [Vector2D.add_y, Vector2D.sub_y]
    ring

end MouseEvent

namespace Session

/-- Every event so far is exact and continues the one before it. -/
def Consistent (s : Session) : Prop :=
  (∀ e ∈ s.log, e.Exact) ∧ s.log.IsChain MouseEvent.Continues

/-- The screen is not empty, and the mouse is not pushed over its left or upper edge. -/
def Unpushed (s : Session) : Op → Prop
  | .act (.onInterrupt _ displacement) => ∀ mouse ∈ s.desk.mouse,
      0 < s.desk.active.manager.screen.size.x ∧ 0 < s.desk.active.manager.screen.size.y ∧
      0 ≤ mouse.position.x + displacement.x ∧ 0 ≤ mouse.position.y + displacement.y
  | _ => True

end Session

/-! ## One interrupt -/

section

variable {tasks : TaskMap} {a : ActiveLayer} {newPos posDiff : Vector2D} {buttons previousButtons : ℕ}

theorem findLayer_of_findActiveLayerTask {layer : Layer} {taskId : ℕ}
    (h : findActiveLayerTask tasks a = some (layer, taskId)) :
    a.manager.findLayer a.activeLayer = some layer := by
  rw [findActiveLayerTask] at h
  split_ifs at h
  cases hl : a.manager.findLayer a.activeLayer with
  | none =>
      rw [hl] at h
      cases h
  | some l =>
      rw [hl] at h
      cases ht : tasks a.activeLayer <;> rw [ht] at h <;> cases h <;> rfl

/-- The messages tell `newPos` and the difference. -/
theorem mem_sendMouseMessage {m : ℕ × MouseMessage}
    (hm : m ∈ sendMouseMessage tasks a newPos posDiff buttons previousButtons) :
    ∃ layer, a.manager.findLayer a.activeLayer = some layer ∧
      m.2.coords = some (newPos - layer.pos) ∧ ∀ d ∈ m.2.change, d = posDiff := by
  rw [sendMouseMessage] at hm
  cases hfind : findActiveLayerTask tasks a with
  | none =>
      rw [hfind] at hm
      cases hm
  | some found =>
      obtain ⟨layer, taskId⟩ := found
      refine ⟨layer, findLayer_of_findActiveLayerTask hfind, ?_⟩
      rw [hfind] at hm
      dsimp only at hm
      split_ifs at hm with htask hmoved hpressed hpressed
      · cases hm
      · rcases List.mem_append.mp hm with hm | hm
        · obtain rfl := List.mem_singleton.mp hm
          exact ⟨rfl, fun d hd ↦ (Option.some.inj hd).symm⟩
        · obtain ⟨i, -, rfl⟩ := List.mem_map.mp hm
          exact ⟨rfl, fun d hd ↦ by cases hd⟩
      · rw [List.append_nil] at hm
        obtain rfl := List.mem_singleton.mp hm
        exact ⟨rfl, fun d hd ↦ (Option.some.inj hd).symm⟩
      · obtain ⟨i, -, rfl⟩ := List.mem_map.mp hm
        exact ⟨rfl, fun d hd ↦ by cases hd⟩
      · cases hm

theorem coords_sendCloseMessage {m : ℕ × MouseMessage} (hm : m ∈ sendCloseMessage tasks a) :
    m.2.coords = none ∧ m.2.change = none := by
  rw [sendCloseMessage] at hm
  cases hfind : findActiveLayerTask tasks a with
  | none =>
      rw [hfind] at hm
      cases hm
  | some found =>
      rw [hfind] at hm
      dsimp only at hm
      split_ifs at hm
      · cases hm
      · obtain rfl := List.mem_singleton.mp hm
        exact ⟨rfl, rfl⟩

theorem mem_interruptMessages {s : Desk} {closeId : ℕ} {m : ℕ × MouseMessage}
    (hm : m ∈ s.interruptMessages tasks closeId newPos posDiff buttons previousButtons) :
    (∀ p ∈ m.2.coords, ∃ layer, s.active.manager.findLayer s.active.activeLayer = some layer ∧
      p = newPos - layer.pos) ∧ ∀ d ∈ m.2.change, d = posDiff := by
  rw [Desk.interruptMessages] at hm
  split_ifs at hm with hdrag hclose
  · obtain ⟨layer, hlayer, hcoords, hchange⟩ := mem_sendMouseMessage hm
    refine ⟨fun p hp ↦ ⟨layer, hlayer, ?_⟩, hchange⟩
    rw [hcoords, Option.mem_some_iff] at hp
    exact hp.symm
  · obtain ⟨hcoords, hchange⟩ := coords_sendCloseMessage hm
    rw [hcoords, hchange]
    simp
  · cases hm

end

namespace Desk

variable {v : Virtuals} {tasks : TaskMap} {s s' : Desk} {mouse : Mouse} {buttons : ℕ}
  {displacement : Vector2D} {e : MouseEvent}

theorem position_press {posDiff : Vector2D} (h : press v s mouse posDiff buttons = some s') :
    ∃ mouse', s'.mouse = some mouse' ∧ mouse'.position = mouse.position := by
  rw [press] at h
  split_ifs at h with hpress hheld hdrag hrelease
  · cases hfind : s.active.manager.findLayerByPosition mouse.position mouse.layerId with
    | none =>
        rw [hfind] at h
        obtain ⟨active, -, h⟩ := Option.bind_eq_some_iff.mp h
        obtain rfl := Option.some.inj h
        exact ⟨mouse, rfl, rfl⟩
    | some layer =>
        rw [hfind] at h
        dsimp only at h
        split_ifs at h
        · obtain ⟨window, -, h⟩ := Option.bind_eq_some_iff.mp h
          obtain ⟨active, -, h⟩ := Option.bind_eq_some_iff.mp h
          obtain rfl := Option.some.inj h
          exact ⟨_, rfl, rfl⟩
        · obtain ⟨active, -, h⟩ := Option.bind_eq_some_iff.mp h
          obtain rfl := Option.some.inj h
          exact ⟨mouse, rfl, rfl⟩
  · obtain ⟨m, -, h⟩ := Option.bind_eq_some_iff.mp h
    obtain rfl := Option.some.inj h
    exact ⟨mouse, rfl, rfl⟩
  · obtain rfl := Option.some.inj h
    exact ⟨mouse, rfl, rfl⟩
  · obtain rfl := Option.some.inj h
    exact ⟨_, rfl, rfl⟩
  · obtain rfl := Option.some.inj h
    exact ⟨mouse, rfl, rfl⟩

/-- What an interrupt does to the position, and what its messages tell. -/
structure Reports (s : Desk) (mouse : Mouse) (displacement : Vector2D) (s' : Desk) (e : MouseEvent) :
    Prop where
  before : e.before = mouse.position
  after : ∃ mouse', s'.mouse = some mouse' ∧ mouse'.position = e.after
  screenSize : e.screenSize = s.active.manager.screen.size
  cut : e.after = Vector2D.elementMax (Vector2D.elementMin (mouse.position + displacement)
    (s.active.manager.screen.size + ⟨-1, -1⟩)) ⟨0, 0⟩
  coords : ∀ m ∈ e.sent, ∀ p ∈ m.2.coords, ∃ pos, e.layerPos = some pos ∧
    p = Vector2D.elementMin (mouse.position + displacement)
      (s.active.manager.screen.size + ⟨-1, -1⟩) - pos
  change : ∀ m ∈ e.sent, ∀ d ∈ m.2.change, d = e.after - e.before

theorem reports_interrupt (h : interrupt v tasks s mouse buttons displacement = some (s', e)) :
    s.Reports mouse displacement s' e := by
  obtain ⟨m, -, h⟩ := Option.bind_eq_some_iff.mp h
  obtain ⟨pressed, hpress, h⟩ := Option.bind_eq_some_iff.mp h
  obtain ⟨rfl, rfl⟩ := Prod.mk.inj (Option.some.inj h)
  obtain ⟨mouse', hmouse, hposition⟩ := position_press hpress
  refine ⟨rfl, ⟨_, Option.map_eq_some_iff.mpr ⟨mouse', hmouse, rfl⟩, hposition⟩, rfl, rfl, ?_, ?_⟩
  · intro msg hmsg p hp
    obtain ⟨layer, hlayer, rfl⟩ := (mem_interruptMessages hmsg).1 p hp
    exact ⟨layer.pos, Option.map_eq_some_iff.mpr ⟨layer, hlayer, rfl⟩, rfl⟩
  · intro msg hmsg d hd
    exact (mem_interruptMessages hmsg).2 d hd

theorem Reports.inScreen (h : s.Reports mouse displacement s' e)
    (hx : 0 < s.active.manager.screen.size.x) (hy : 0 < s.active.manager.screen.size.y) :
    0 ≤ e.after.x ∧ e.after.x < e.screenSize.x ∧ 0 ≤ e.after.y ∧ e.after.y < e.screenSize.y := by
  rw [h.cut, h.screenSize]
  simp only [Vector2D.elementMax, Vector2D.elementMin, Vector2D.add_x, Vector2D.add_y]
  omega

/-- An interrupt that does not push the mouse over the left or the upper edge is reported as
it happened. -/
theorem Reports.exact (h : s.Reports mouse displacement s' e)
    (hx : 0 < s.active.manager.screen.size.x) (hy : 0 < s.active.manager.screen.size.y)
    (hleft : 0 ≤ mouse.position.x + displacement.x)
    (hupper : 0 ≤ mouse.position.y + displacement.y) : e.Exact := by
  refine ⟨h.inScreen hx hy, ?_, h.change⟩
  have huncut : e.after = Vector2D.elementMin (mouse.position + displacement)
      (s.active.manager.screen.size + ⟨-1, -1⟩) := by
    rw [h.cut]
    ext
    · simp only [Vector2D.elementMax, Vector2D.elementMin, Vector2D.add_x]
      omega
    · simp only [Vector2D.elementMax, Vector2D.elementMin, Vector2D.add_y]
      omega
  rw [huncut]
  exact h.coords

/-- An interrupt is reported as it happened if and only if the mouse is not pushed over those
edges or nobody is told. -/
theorem Reports.exact_iff (h : s.Reports mouse displacement s' e) :
    e.Exact ↔ (0 < s.active.manager.screen.size.x ∧ 0 < s.active.manager.screen.size.y) ∧
      ((0 ≤ mouse.position.x + displacement.x ∧ 0 ≤ mouse.position.y + displacement.y) ∨
        ∀ m ∈ e.sent, m.2.coords = none) := by
  constructor
  · intro he
    have hscreen := he.inScreen
    rw [h.screenSize] at hscreen
    refine ⟨⟨by omega, by omega⟩, ?_⟩
    by_contra hpushed
    push Not at hpushed
    obtain ⟨hedge, m, hm, hcoords⟩ := hpushed
    obtain ⟨p, hp⟩ := Option.ne_none_iff_exists'.mp hcoords
    obtain ⟨pos, hpos, htold⟩ := he.coords m hm p hp
    obtain ⟨pos', hpos', htold'⟩ := h.coords m hm p hp
    obtain rfl := Option.some.inj (hpos.symm.trans hpos')
    have hxs := congrArg Vector2D.x (htold.symm.trans htold')
    have hys := congrArg Vector2D.y (htold.symm.trans htold')
    simp only [Vector2D.elementMin, Vector2D.add_x, Vector2D.add_y, Vector2D.sub_x,
      Vector2D.sub_y] at hxs hys
    omega
  · rintro ⟨⟨hx, hy⟩, ⟨hleft, hupper⟩ | hsilent⟩
    · exact h.exact hx hy hleft hupper
    · refine ⟨h.inScreen hx hy, ?_, h.change⟩
      intro m hm p hp
      rw [hsilent m hm] at hp
      cases hp

theorem mouse_exec {op : Op} (hop : ∀ buttons displacement, op ≠ .onInterrupt buttons displacement)
    (h : exec v s op = some s') : s'.mouse = s.mouse := by
  cases op with
  | openWindow ref win pos =>
      obtain ⟨active, -, h⟩ := Option.bind_eq_some_iff.mp h
      exact Option.some.inj h ▸ rfl
  | closeLayer layerId =>
      rw [exec, closeLayer] at h
      cases hl : s.active.manager.findLayer layerId with
      | none =>
          rw [hl] at h
          exact Option.some.inj h ▸ rfl
      | some layer =>
          rw [hl] at h
          obtain ⟨window, -, h⟩ := Option.bind_eq_some_iff.mp h
          obtain ⟨active, -, h⟩ := Option.bind_eq_some_iff.mp h
          exact Option.some.inj h ▸ rfl
  | onInterrupt buttons displacement => exact absurd rfl (hop buttons displacement)
  | post msg => exact Option.some.inj h ▸ rfl
  | process =>
      rw [exec] at h
      cases hqueue : s.queue with
      | nil =>
          rw [hqueue] at h
          exact Option.some.inj h ▸ rfl
      | cons msg rest =>
          rw [hqueue] at h
          obtain ⟨m, -, h⟩ := Option.map_eq_some_iff.mp h
          exact h ▸ rfl

end Desk

namespace Session

variable {v : Virtuals} {s s' : Session} {op : Op}

/-- The mouse is where the last event left it. -/
def Tracks (s : Session) : Prop :=
  ∀ e ∈ s.log.getLast?, ∃ mouse, s.desk.mouse = some mouse ∧ mouse.position = e.after

/-- A step logs an interrupt or leaves the log and the mouse as they are. -/
theorem step_cases (h : Step v s op s') :
    (s'.log = s.log ∧ s'.desk.mouse = s.desk.mouse) ∨
      ∃ buttons displacement mouse e, op = .act (.onInterrupt buttons displacement) ∧
        s.desk.mouse = some mouse ∧ s'.log = s.log ++ [e] ∧
        s.desk.Reports mouse displacement s'.desk e := by
  obtain ⟨-, h⟩ := h
  cases op with
  | setTask layerId taskId =>
      obtain rfl := Option.some.inj h
      exact .inl ⟨rfl, rfl⟩
  | act op =>
      by_cases hop : ∃ buttons displacement, op = .onInterrupt buttons displacement
      · obtain ⟨buttons, displacement, rfl⟩ := hop
        rw [exec] at h
        cases hmouse : s.desk.mouse with
        | none =>
            rw [hmouse] at h
            obtain rfl := Option.some.inj h
            exact .inl ⟨rfl, hmouse⟩
        | some mouse =>
            rw [hmouse] at h
            obtain ⟨⟨desk, e⟩, hinterrupt, rfl⟩ := Option.map_eq_some_iff.mp h
            exact .inr ⟨buttons, displacement, mouse, e, rfl, rfl, rfl,
              Desk.reports_interrupt hinterrupt⟩
      · push Not at hop
        have hother : ∃ desk, Desk.exec v s.desk op = some desk ∧ { s with desk := desk } = s' := by
          cases op with
          | onInterrupt buttons displacement => exact absurd rfl (hop buttons displacement)
          | _ => exact Option.map_eq_some_iff.mp h
        obtain ⟨desk, hdesk, rfl⟩ := hother
        exact .inl ⟨rfl, Desk.mouse_exec hop hdesk⟩

theorem step_consistent (h : Transition.Guarded Unpushed (Step v) s op s')
    (hs : s.Consistent ∧ s.Tracks) : s'.Consistent ∧ s'.Tracks := by
  obtain ⟨hguard, hstep⟩ := h
  obtain ⟨⟨hexact, hchain⟩, htracks⟩ := hs
  rcases step_cases hstep with ⟨hlog, hmouse⟩ | ⟨buttons, displacement, mouse, e, rfl, hmouse, hlog, hreports⟩
  · rw [Consistent, Tracks, hlog, hmouse]
    exact ⟨⟨hexact, hchain⟩, htracks⟩
  obtain ⟨hx, hy, hleft, hupper⟩ := hguard mouse hmouse
  have he := hreports.exact hx hy hleft hupper
  rw [Consistent, Tracks, hlog]
  refine ⟨⟨?_, ?_⟩, ?_⟩
  · intro e' he'
    rcases List.mem_append.mp he' with he' | he'
    · exact hexact e' he'
    · exact List.mem_singleton.mp he' ▸ he
  · refine List.isChain_append.mpr ⟨hchain, List.isChain_singleton e, ?_⟩
    intro last hlast first hfirst
    obtain rfl := Option.some.inj hfirst
    obtain ⟨mouse', hmouse', hposition⟩ := htracks last hlast
    obtain rfl := Option.some.inj (hmouse.symm.trans hmouse')
    exact (hexact last (List.mem_of_getLast? hlast)).continues he (hreports.before.trans hposition)
  · intro last hlast
    rw [List.getLast?_append, List.getLast?_singleton] at hlast
    obtain rfl := Option.some.inj hlast
    exact hreports.after

/-- In every run in which no event pushes the mouse over the left or the upper edge of the
screen, all messages tell where it is and how it came there. -/
theorem consistent_of_run {s₀ : Session} (hstart : s₀.log = []) {ops : List Op}
    (hrun : Transition.Run (Transition.Guarded Unpushed (Step v)) s₀ ops s) : s.Consistent := by
  have hs₀ : s₀.Consistent ∧ s₀.Tracks := by
    rw [Consistent, Tracks, hstart]
    exact ⟨⟨by simp, .nil⟩, by simp⟩
  have hs : s.Consistent ∧ s.Tracks := by
    apply hrun.invariant _ hs₀
    intro s op s' hs hstep
    exact step_consistent hstep hs
  exact hs.1

/-- A window of task 5 is opened. -/
def withTask : List Op :=
  [.act (.openWindow 24 (.ofSize 60 60 .kPixelRGBResv8BitPerColor) ⟨0, 0⟩), .setTask 3 (some 5)]

def idle : Session := ⟨Desk.withMouse, fun _ ↦ none, []⟩

theorem consistent_of_run_twoMoves :
    ∃ s, Transition.Run (Transition.Guarded Unpushed (Step ⟨fun _ w ↦ w, toplevelRegion⟩)) idle
        (withTask ++ [.act (.onInterrupt 0 ⟨1, 2⟩)] ++ [.act (.onInterrupt 0 ⟨-3, 60⟩)]) s ∧
      s.log.map (·.sent) = [[(5, .mouseMove 11 12 1 2 0)], [(5, .mouseMove 8 63 (-3) 51 0)]] ∧
      s.Consistent := by
  have hrun : Transition.Run (Transition.Guarded Unpushed (Step ⟨fun _ w ↦ w, toplevelRegion⟩)) idle
      (withTask ++ [.act (.onInterrupt 0 ⟨1, 2⟩)] ++ [.act (.onInterrupt 0 ⟨-3, 60⟩)]) _ :=
    .snoc (.snoc (.snoc (.snoc (.nil _)
      ⟨trivial, by rintro _ ⟨⟩; exact ⟨by decide, by decide⟩, rfl⟩)
      ⟨trivial, by rintro _ ⟨⟩, rfl⟩)
      ⟨by rintro _ ⟨⟩; decide, by rintro _ ⟨⟩; trivial, rfl⟩)
      ⟨by rintro _ ⟨⟩; decide, by rintro _ ⟨⟩; trivial, rfl⟩
  exact ⟨_, hrun, rfl, consistent_of_run rfl hrun⟩

/-- At the left edge a push to the lower left is told with a coordinate outside the screen and
a displacement that does not lead there. -/
theorem not_consistent_leftEdge :
    ∃ s, Transition.Run (Step ⟨fun _ w ↦ w, toplevelRegion⟩) idle
        (withTask ++ [.act (.onInterrupt 0 ⟨-10, 0⟩)] ++ [.act (.onInterrupt 0 ⟨-1, 1⟩)]) s ∧
      s.log.map (fun e ↦ (e.after, e.layerPos, e.sent)) =
        [(⟨0, 10⟩, some ⟨0, 0⟩, [(5, .mouseMove 0 10 (-10) 0 0)]),
          (⟨0, 11⟩, some ⟨0, 0⟩, [(5, .mouseMove (-1) 11 0 1 0)])] ∧
      ¬ s.Consistent := by
  have hreached : ∃ s, Transition.Run (Step ⟨fun _ w ↦ w, toplevelRegion⟩) idle
        (withTask ++ [.act (.onInterrupt 0 ⟨-10, 0⟩)] ++ [.act (.onInterrupt 0 ⟨-1, 1⟩)]) s ∧
      s.log.map (fun e ↦ (e.after, e.layerPos, e.sent)) =
        [(⟨0, 10⟩, some ⟨0, 0⟩, [(5, .mouseMove 0 10 (-10) 0 0)]),
          (⟨0, 11⟩, some ⟨0, 0⟩, [(5, .mouseMove (-1) 11 0 1 0)])] :=
    ⟨_, .snoc (.snoc (.snoc (.snoc (.nil _) ⟨by rintro _ ⟨⟩; exact ⟨by decide, by decide⟩, rfl⟩)
      ⟨by rintro _ ⟨⟩, rfl⟩) ⟨by rintro _ ⟨⟩; trivial, rfl⟩) ⟨by rintro _ ⟨⟩; trivial, rfl⟩, rfl⟩
  obtain ⟨s, hrun, hlog⟩ := hreached
  refine ⟨s, hrun, hlog, ?_⟩
  rintro ⟨hexact, -⟩
  obtain ⟨e, he, hfields⟩ := List.mem_map.mp
    (hlog ▸ List.mem_cons_of_mem _ List.mem_cons_self)
  simp only [Prod.mk.injEq] at hfields
  obtain ⟨hafter, hlayer, hsent⟩ := hfields
  obtain ⟨pos, hpos, htold⟩ := (hexact e he).coords _ (hsent ▸ List.mem_cons_self) _ rfl
  obtain rfl := Option.some.inj (hlayer.symm.trans hpos)
  rw [hafter] at htold
  exact absurd htold (by decide)

end Session

end Graphics
end MinOS
