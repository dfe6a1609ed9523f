import MinOS.Graphics.Redraw

/-!
# The active layer

`Activate` takes a layer to the bottom and then to the height below the mouse
layer.  A mouse layer that is not shown has height `-1`, and `UpDown` hides a
layer that it is told to put at `-2`.
-/

namespace MinOS
namespace Graphics

namespace LayerManager

/-! ## Writes and draws keep the stack -/

/-- A write to a layer object that leaves its id. -/
structure Edits (f : Layer → Layer) : Prop where
  ref : ∀ l, (f l).ref = l.ref
  id : ∀ l, (f l).id = l.id

theorem modify_findLayer (m : LayerManager) (ref : ℕ) {f : Layer → Layer} (hf : Edits f) (id : ℕ) :
    (m.modify ref f).findLayer id =
      (m.findLayer id).map fun l ↦ if l.ref = ref then f l else l := by
  rw [findLayer, modify, List.find?_map]
  congr 2
  funext l
  simp only [Function.comp]
  split_ifs <;> simp [hf.id]

theorem Invariant.modify {m : LayerManager} (hm : m.Invariant) (ref : ℕ) {f : Layer → Layer}
    (hf : Edits f) : (m.modify ref f).Invariant where
  refs_nodup := by
    have hrefs : (m.modify ref f).layers.map Layer.ref = m.layers.map Layer.ref := by
      rw [LayerManager.modify, List.map_map]
      apply List.map_congr_left
      intro l _
      simp only [Function.comp]
      split_ifs <;> simp [hf.ref]
    rw [hrefs]
    exact hm.refs_nodup
  ref_ne_zero l hl := by
    obtain ⟨l', hl', rfl⟩ := List.mem_map.mp hl
    split_ifs
    · rw [hf.ref]
      exact hm.ref_ne_zero l' hl'
    · exact hm.ref_ne_zero l' hl'
  stack_nodup := hm.stack_nodup
  first r hr := by
    obtain ⟨l, rfl, hl⟩ := hm.first r hr
    refine ⟨if l.ref = ref then f l else l, ?_, ?_⟩
    · split_ifs <;> simp [hf.ref]
    · rw [m.modify_findLayer ref hf]
      split_ifs with h <;> simp [hf.id, hl, h]

/-- Two managers with the same layers, by address and id, and the same stack. -/
structure SameStack (m m' : LayerManager) : Prop where
  layers : m'.layers = m.layers
  stack : m'.layerStack = m.layerStack

theorem SameStack.invariant {m m' : LayerManager} (h : SameStack m m') (hm : m.Invariant) :
    m'.Invariant :=
  hm.of_stack h.layers (h.stack ▸ hm.stack_nodup) fun _ href ↦ .inl (h.stack ▸ href)

theorem SameStack.findLayer {m m' : LayerManager} (h : SameStack m m') (id : ℕ) :
    m'.findLayer id = m.findLayer id := by
  rw [LayerManager.findLayer, h.layers]
  rfl

/-- `Draw` for an id paints and copies. -/
theorem drawId_sameStack {m m' : LayerManager} {unset : Option Rectangle} {id : ℕ}
    {area : Rectangle} (h : m.drawId unset id area = some m') : SameStack m m' := by
  rw [drawId, Option.bind_eq_bind, Option.bind_eq_some_iff] at h
  obtain ⟨s, _, h⟩ := h
  rw [Option.bind_eq_bind, Option.bind_eq_some_iff] at h
  obtain ⟨windowArea, _, h⟩ := h
  cases h
  exact ⟨rfl, rfl⟩

/-- The layers that `Draw` goes through have the ids that their pointers have. -/
theorem Invariant.id_ne_of_notMem {m : LayerManager} (hm : m.Invariant) {id : ℕ} {l : Layer}
    (hl : m.findLayer id = some l) (href : l.ref ∉ m.layerStack) :
    ∀ x ∈ m.shown, x.id ≠ id := by
  intro x hx hid
  obtain ⟨ref, hr, hat⟩ := List.mem_filterMap.mp hx
  have hany : (m.layerAt ref).any (·.id = id) = true := by simp [hat, hid]
  exact href ((hm.any_id_iff hl hr).mp hany ▸ hr)

/-- `Draw` for a layer with a window comes to its end when reading an unset
window area does. -/
theorem Invariant.exists_drawId {m : LayerManager} (hm : m.Invariant) {id : ℕ} {l : Layer}
    {w : Window} (hl : m.findLayer id = some l) (hw : l.window = some w)
    (unset : Option Rectangle) (hunset : l.ref ∈ m.layerStack ∨ unset ≠ none) (area : Rectangle) :
    ∃ m', m.drawId unset id area = some m' := by
  by_cases href : l.ref ∈ m.layerStack
  · obtain ⟨below, above, _, hshown, hne⟩ := hm.split hl href
    obtain rfl := (mem_of_findLayer hl).2
    exact ⟨_, drawId_eq hshown hw (fun x hx ↦ (hne x hx).2) unset area⟩
  · obtain ⟨u, rfl⟩ := Option.ne_none_iff_exists'.mp (hunset.resolve_left href)
    simp only [drawId, foldlM_drawLayer_below m.shown area m.backBuffer (hm.id_ne_of_notMem hl href),
      Option.bind_eq_bind, Option.bind_some, Option.none_or]
    exact ⟨_, rfl⟩

/-- What a layer manager knows of an id: the layer, and whether it has a window. -/
def view (m : LayerManager) (id : ℕ) : Option (ℕ × Bool) :=
  (m.findLayer id).map fun l ↦ (l.ref, l.window.isSome)

/-- The layer of an id is in the stack. -/
def Shown (m : LayerManager) (id : ℕ) : Prop := ∃ l, m.findLayer id = some l ∧ l.ref ∈ m.layerStack

theorem view_eq_some {m : LayerManager} {id ref : ℕ} {b : Bool} (h : m.view id = some (ref, b)) :
    ∃ l, m.findLayer id = some l ∧ l.ref = ref ∧ l.window.isSome = b := by
  obtain ⟨l, hl, heq⟩ := Option.map_eq_some_iff.mp h
  rw [Prod.mk.injEq] at heq
  exact ⟨l, hl, heq⟩

theorem shown_iff_view {m : LayerManager} {id : ℕ} :
    m.Shown id ↔ ∃ ref b, m.view id = some (ref, b) ∧ ref ∈ m.layerStack := by
  constructor
  · rintro ⟨l, hl, href⟩
    exact ⟨l.ref, l.window.isSome, by rw [view, hl]; rfl, href⟩
  · rintro ⟨ref, b, hview, href⟩
    obtain ⟨l, hl, rfl, _⟩ := view_eq_some hview
    exact ⟨l, hl, href⟩

theorem view_congr {m m' : LayerManager} (hlayers : m'.layers = m.layers) : m'.view = m.view := by
  funext id
  rw [view, findLayer, hlayers]
  rfl

theorem modify_view (m : LayerManager) (ref : ℕ) {f : Layer → Layer} (hf : Edits f)
    (hwindow : ∀ l ∈ m.layers, l.ref = ref → (f l).window.isSome = l.window.isSome) :
    (m.modify ref f).view = m.view := by
  funext id
  rw [view, view, m.modify_findLayer ref hf, Option.map_map]
  cases hl : m.findLayer id with
  | none => rfl
  | some l =>
      by_cases href : l.ref = ref
      · simp [href, hf.ref, hwindow l (mem_of_findLayer hl).1 href]
      · simp [href]

theorem Invariant.getHeight_of_not_shown {m : LayerManager} (hm : m.Invariant) {id : ℕ}
    (hid : ¬ m.Shown id) : m.getHeight id = -1 := by
  have hzero : 0 ∉ m.layerStack := by
    intro hmem
    obtain ⟨l, hl, hfirst⟩ := hm.first 0 hmem
    exact hm.ref_ne_zero l (mem_of_findLayer hfirst).1 hl
  have hno : ∀ ref ∈ m.layerStack, (m.layerAt ref).any (·.id = id) = true ↔ ref = 0 := by
    intro ref href
    refine iff_of_false ?_ (fun heq ↦ hzero (heq ▸ href))
    intro hany
    obtain ⟨l, rfl, hfirst⟩ := hm.first ref href
    rw [hm.layerAt_eq (mem_of_findLayer hfirst).1] at hany
    have hl : l.id = id := by simpa using hany
    exact hid ⟨l, hl ▸ hfirst, href⟩
  rw [getHeight, heightFrom_eq _ _ hno, if_neg hzero]

/-- What two calls of `UpDown` make of the stack: the layer lands below the
mouse layer, or nowhere. -/
theorem Invariant.upDown_twice {m : LayerManager} (hm : m.Invariant) {id mouse : ℕ} {l : Layer}
    (hl : m.findLayer id = some l) (hne : id ≠ mouse) :
    let m' := (m.upDown id 0).upDown id ((m.upDown id 0).getHeight mouse - 1)
    m'.Invariant ∧ m'.layers = m.layers ∧
      (∀ ml, m.findLayer mouse = some ml → ml.ref ∈ m.layerStack →
        m'.layerStack = (m.layerStack.erase l.ref).insertIdx
          ((m.layerStack.erase l.ref).idxOf ml.ref) l.ref) ∧
      (¬ m.Shown mouse → m'.layerStack = m.layerStack.erase l.ref) := by
  have hm₁ := hm.upDown hl 0
  have hfind : ∀ i, (m.upDown id 0).findLayer i = m.findLayer i := fun i ↦ by
    rw [findLayer, upDown_layers]
    rfl
  have hstack₁ : (m.upDown id 0).layerStack = l.ref :: m.layerStack.erase l.ref := by
    rw [upDown_stack m id le_rfl, findRef_eq hl]
    simp
  have hl₁ := (hfind id).trans hl
  have hother : ∀ ml, m.findLayer mouse = some ml → ml.ref ≠ l.ref := by
    intro ml hml heq
    have hsame := hm.eq_of_ref (mem_of_findLayer hml).1 (mem_of_findLayer hl).1 heq
    exact hne ((mem_of_findLayer hl).2.symm.trans (hsame ▸ (mem_of_findLayer hml).2))
  have hlayers₁ := upDown_layers m id 0
  generalize m.upDown id 0 = m₁ at hm₁ hfind hstack₁ hl₁ hlayers₁ ⊢
  have herase : m₁.layerStack.erase l.ref = m.layerStack.erase l.ref := by
    rw [hstack₁, List.erase_cons_head]
  refine ⟨hm₁.upDown hl₁ _, (upDown_layers m₁ id _).trans hlayers₁, ?_, ?_⟩
  · intro ml hml href
    have hmem : ml.ref ∈ m.layerStack.erase l.ref := (List.mem_erase_of_ne (hother ml hml)).mpr href
    have hlt := List.idxOf_lt_length_iff.mpr hmem
    have hheight : m₁.getHeight mouse - 1 = (m.layerStack.erase l.ref).idxOf ml.ref := by
      rw [hm₁.getHeight_eq ((hfind mouse).trans hml), hstack₁,
        if_pos (List.mem_cons_of_mem _ hmem), List.idxOf_cons_ne _ (hother ml hml).symm]
      push_cast
      ring
    rw [hheight, upDown_stack m₁ id (Int.natCast_nonneg _), findRef_eq hl₁, herase, Int.toNat_natCast,
      min_eq_left hlt.le]
  · intro hmouse
    have hmouse₁ : ¬ m₁.Shown mouse := by
      rintro ⟨ml, hml, href⟩
      rw [hfind] at hml
      rw [hstack₁] at href
      rcases List.mem_cons.mp href with heq | href
      · exact hother ml hml heq
      · exact hmouse ⟨ml, hml, List.mem_of_mem_erase href⟩
    rw [hm₁.getHeight_of_not_shown hmouse₁, upDown_neg m₁ id (by decide), hide_stack, findRef_eq hl₁,
      herase]

end LayerManager

structure ActiveLayer where
  manager : LayerManager
  activeLayer : ℕ
  mouseLayer : ℕ

namespace ActiveLayer

open LayerManager

def setMouseLayer (s : ActiveLayer) (mouseLayer : ℕ) : ActiveLayer :=
  { s with mouseLayer := mouseLayer }

/-- The virtual `Activate` and `Deactivate` of a window paint its title. -/
def paintTitle (title : Bool → Window → Window) (active : Bool) (l : Layer) : Layer :=
  { l with window := l.window.map (title active) }

/-- The part of `Activate` for the layer that was active. -/
def deactivate (title : Bool → Window → Window) (unset : Option Rectangle) (m : LayerManager)
    (id : ℕ) : Option LayerManager := do
  let layer ← m.findLayer id
  let _ ← layer.window
  (m.modify layer.ref (paintTitle title false)).draw unset id

/-- The part of `Activate` for the layer that becomes active. -/
def raise (title : Bool → Window → Window) (unset : Option Rectangle) (m : LayerManager)
    (mouseLayer id : ℕ) : Option LayerManager := do
  let layer ← m.findLayer id
  let _ ← layer.window
  let m := m.modify layer.ref (paintTitle title true)
  let m := m.upDown id 0
  let m := m.upDown id (m.getHeight mouseLayer - 1)
  m.draw unset id

/-- The manager when the layer that was active is no longer. -/
def leave (title : Bool → Window → Window) (unset : Option Rectangle) (s : ActiveLayer) :
    Option LayerManager :=
  if s.activeLayer > 0 then deactivate title unset s.manager s.activeLayer else some s.manager

def activate (title : Bool → Window → Window) (unset : Option Rectangle) (s : ActiveLayer)
    (id : ℕ) : Option ActiveLayer :=
  if s.activeLayer = id then some s
  else do
    let m ← leave title unset s
    let m ← if id > 0 then raise title unset m s.mouseLayer id else some m
    some ⟨m, id, s.mouseLayer⟩

variable {title : Bool → Window → Window}

theorem edits_paintTitle (title : Bool → Window → Window) (active : Bool) : Edits (paintTitle title active) :=
  ⟨fun _ ↦ rfl, fun _ ↦ rfl⟩

theorem view_paintTitle (title : Bool → Window → Window) (m : LayerManager) (ref : ℕ) (active : Bool) :
    (m.modify ref (paintTitle title active)).view = m.view := by
  refine m.modify_view ref (edits_paintTitle title active) ?_
  intro l _ _
  simp [paintTitle]

/-- The layer of an id can be drawn: it is there and has a window. -/
def HasWindow (m : LayerManager) (id : ℕ) : Prop := ∃ ref, m.view id = some (ref, true)

/-- Where `Activate` shall leave a layer: below the mouse layer, or on top when
that is not shown; the other layers keep their order. -/
def InPlace (m m' : LayerManager) (mouse ref : ℕ) : Prop :=
  m'.layerStack.erase ref = m.layerStack.erase ref ∧
    ((∃ mr b, m.view mouse = some (mr, b) ∧ mr ∈ m.layerStack ∧
        ∃ below above, m'.layerStack = below ++ ref :: mr :: above) ∨
      ¬ m.Shown mouse ∧ ∃ below, m'.layerStack = below ++ [ref])

theorem hasWindow_iff {m : LayerManager} {id : ℕ} :
    HasWindow m id ↔ ∃ l w, m.findLayer id = some l ∧ l.window = some w := by
  constructor
  · rintro ⟨ref, hview⟩
    obtain ⟨l, hl, _, hw⟩ := view_eq_some hview
    obtain ⟨w, hw⟩ := Option.isSome_iff_exists.mp hw
    exact ⟨l, w, hl, hw⟩
  · rintro ⟨l, w, hl, hw⟩
    exact ⟨l.ref, by rw [view, hl, Option.map_some, hw]; rfl⟩

theorem deactivate_eq {m : LayerManager} {id : ℕ} {l : Layer} {w : Window}
    (hl : m.findLayer id = some l) (hw : l.window = some w) (unset : Option Rectangle) :
    deactivate title unset m id = (m.modify l.ref (paintTitle title false)).draw unset id := by
  simp only [deactivate, hl, hw, Option.bind_eq_bind, Option.bind_some]

theorem findLayer_paintTitle (title : Bool → Window → Window) {m : LayerManager} {id : ℕ}
    {l : Layer} (active : Bool)
    (hl : m.findLayer id = some l) :
    (m.modify l.ref (paintTitle title active)).findLayer id = some (paintTitle title active l) := by
  rw [m.modify_findLayer l.ref (edits_paintTitle title active), hl]
  simp

theorem window_paintTitle {l : Layer} {w : Window} (active : Bool) (hw : l.window = some w) :
    (paintTitle title active l).window = some (title active w) := by
  rw [paintTitle, hw]
  rfl

theorem hasWindow_of_deactivate {m m' : LayerManager} {unset : Option Rectangle} {id : ℕ}
    (h : deactivate title unset m id = some m') : HasWindow m id := by
  rw [deactivate, Option.bind_eq_bind, Option.bind_eq_some_iff] at h
  obtain ⟨l, hl, h⟩ := h
  rw [Option.bind_eq_bind, Option.bind_eq_some_iff] at h
  obtain ⟨w, hw, _⟩ := h
  exact hasWindow_iff.mpr ⟨l, w, hl, hw⟩

theorem hasWindow_of_raise {m m' : LayerManager} {unset : Option Rectangle} {mouse id : ℕ}
    (h : raise title unset m mouse id = some m') : HasWindow m id := by
  rw [raise, Option.bind_eq_bind, Option.bind_eq_some_iff] at h
  obtain ⟨l, hl, h⟩ := h
  rw [Option.bind_eq_bind, Option.bind_eq_some_iff] at h
  obtain ⟨w, hw, _⟩ := h
  exact hasWindow_iff.mpr ⟨l, w, hl, hw⟩

theorem deactivate_spec {m m' : LayerManager} (hm : m.Invariant) {unset : Option Rectangle} {id : ℕ}
    (h : deactivate title unset m id = some m') :
    m'.Invariant ∧ m'.view = m.view ∧ m'.layerStack = m.layerStack := by
  obtain ⟨l, w, hl, hw⟩ := hasWindow_iff.mp (hasWindow_of_deactivate h)
  rw [deactivate_eq hl hw] at h
  have hsame := drawId_sameStack h
  exact ⟨hsame.invariant (hm.modify l.ref (edits_paintTitle title false)),
    (view_congr hsame.layers).trans (view_paintTitle title m l.ref false), hsame.stack⟩

theorem exists_deactivate {m : LayerManager} (hm : m.Invariant) {unset : Option Rectangle} {id : ℕ}
    (hid : HasWindow m id) (hunset : m.Shown id ∨ unset ≠ none) :
    ∃ m', deactivate title unset m id = some m' := by
  obtain ⟨l, w, hl, hw⟩ := hasWindow_iff.mp hid
  rw [deactivate_eq hl hw]
  refine (hm.modify l.ref (edits_paintTitle title false)).exists_drawId (findLayer_paintTitle title false hl)
    (window_paintTitle false hw) unset (hunset.imp_left ?_) _
  rintro ⟨l', hl', href⟩
  obtain rfl := Option.some.inj (hl.symm.trans hl')
  exact href

theorem raise_eq {m : LayerManager} {mouse id : ℕ} {l : Layer} {w : Window}
    (hl : m.findLayer id = some l) (hw : l.window = some w) (unset : Option Rectangle) :
    raise title unset m mouse id =
      ((((m.modify l.ref (paintTitle title true)).upDown id 0).upDown id
        (((m.modify l.ref (paintTitle title true)).upDown id 0).getHeight mouse - 1)).draw
          unset id) := by
  simp only [raise, hl, hw, Option.bind_eq_bind, Option.bind_some]

/-- The stack that `Activate` leaves. -/
structure Raised (m m' : LayerManager) (mouse ref : ℕ) : Prop where
  inv : m'.Invariant
  view : m'.view = m.view
  below : ∀ mr b, m.view mouse = some (mr, b) → mr ∈ m.layerStack →
    m'.layerStack = (m.layerStack.erase ref).insertIdx ((m.layerStack.erase ref).idxOf mr) ref
  hidden : ¬ m.Shown mouse → m'.layerStack = m.layerStack.erase ref

theorem raised_upDown (title : Bool → Window → Window) {m : LayerManager} (hm : m.Invariant) {mouse id : ℕ} {l : Layer}
    (hl : m.findLayer id = some l) (hne : id ≠ mouse) :
    Raised m (((m.modify l.ref (paintTitle title true)).upDown id 0).upDown id
      (((m.modify l.ref (paintTitle title true)).upDown id 0).getHeight mouse - 1)) mouse l.ref := by
  obtain ⟨hinv, hlayers, hbelow, hhidden⟩ := (hm.modify l.ref (edits_paintTitle title true)).upDown_twice
    (findLayer_paintTitle title true hl) hne
  have hview := view_paintTitle title m l.ref true
  refine ⟨hinv, (view_congr hlayers).trans hview, ?_, ?_⟩
  · intro mr b hmr hmem
    rw [← hview] at hmr
    obtain ⟨ml, hml, rfl, _⟩ := view_eq_some hmr
    exact hbelow ml hml hmem
  · intro hmouse
    refine hhidden (fun hshown ↦ hmouse ?_)
    rw [shown_iff_view] at hshown ⊢
    rwa [hview] at hshown

theorem raise_spec {m m' : LayerManager} (hm : m.Invariant) {unset : Option Rectangle}
    {mouse id ref : ℕ} {b : Bool} (hid : m.view id = some (ref, b)) (hne : id ≠ mouse)
    (h : raise title unset m mouse id = some m') : Raised m m' mouse ref := by
  obtain ⟨l, w, hl, hw⟩ := hasWindow_iff.mp (hasWindow_of_raise h)
  have href : l.ref = ref := by
    rw [view, hl] at hid
    exact (Prod.mk.inj (Option.some.inj hid)).1
  rw [raise_eq hl hw] at h
  have hsame := drawId_sameStack h
  have hraised := raised_upDown title hm hl hne
  rw [href] at hraised hsame
  exact ⟨hsame.invariant hraised.inv, (view_congr hsame.layers).trans hraised.view,
    fun mr b hmr hmem ↦ hsame.stack.trans (hraised.below mr b hmr hmem),
    fun hmouse ↦ hsame.stack.trans (hraised.hidden hmouse)⟩

theorem exists_raise (title : Bool → Window → Window) (unset : Option Rectangle) {m : LayerManager}
    (hm : m.Invariant) {mouse id : ℕ} (hid : HasWindow m id) (hne : id ≠ mouse) (hunset : m.Shown mouse ∨ unset ≠ none) :
    ∃ m', raise title unset m mouse id = some m' := by
  obtain ⟨l, w, hl, hw⟩ := hasWindow_iff.mp hid
  have hraised := raised_upDown title hm hl hne
  rw [raise_eq hl hw]
  generalize hm₂ : ((m.modify l.ref (paintTitle title true)).upDown id 0).upDown id
    (((m.modify l.ref (paintTitle title true)).upDown id 0).getHeight mouse - 1) = m₂ at hraised ⊢
  have hl₂ : m₂.findLayer id = some (paintTitle title true l) := by
    rw [← hm₂, findLayer, upDown_layers, upDown_layers]
    exact findLayer_paintTitle title true hl
  refine hraised.inv.exists_drawId hl₂ (window_paintTitle true hw) unset (hunset.imp_left ?_) _
  intro hmouse
  obtain ⟨mr, b, hmr, hmem⟩ := shown_iff_view.mp hmouse
  rw [hraised.below mr b hmr hmem]
  exact (List.mem_insertIdx List.idxOf_le_length).mpr (.inl rfl)

theorem insertIdx_idxOf {σ : List ℕ} {x : ℕ} (y : ℕ) (hx : x ∈ σ) :
    ∃ below above, σ.insertIdx (σ.idxOf x) y = below ++ y :: x :: above := by
  induction σ with
  | nil => cases hx
  | cons z σ ih =>
      by_cases hz : z = x
      · subst hz
        exact ⟨[], σ, by simp⟩
      · have hx' : x ∈ σ := (List.mem_cons.mp hx).resolve_left (Ne.symm hz)
        obtain ⟨below, above, heq⟩ := ih hx'
        exact ⟨z :: below, above, by simp [List.idxOf_cons_ne _ hz, heq]⟩

theorem Raised.inPlace_iff {m m' : LayerManager} {mouse id ref : ℕ} {b : Bool}
    (h : Raised m m' mouse ref) (hm : m.Invariant) (hid : m.view id = some (ref, b))
    (hne : id ≠ mouse) : InPlace m m' mouse ref ↔ m.Shown mouse := by
  constructor
  · rintro ⟨_, ⟨mr, b, hmr, hmem, _⟩ | ⟨hmouse, below, hstack⟩⟩
    · exact shown_iff_view.mpr ⟨mr, b, hmr, hmem⟩
    · rw [h.hidden hmouse] at hstack
      have hin : ref ∈ m.layerStack.erase ref := by simp [hstack]
      exact absurd hin (hm.notMem_erase ref)
  · intro hmouse
    obtain ⟨mr, b', hmr, hmem⟩ := shown_iff_view.mp hmouse
    have hother : mr ≠ ref := by
      rintro rfl
      obtain ⟨l, hl, hlr, _⟩ := view_eq_some hid
      obtain ⟨ml, hml, hmlr, _⟩ := view_eq_some hmr
      have hsame := hm.eq_of_ref (mem_of_findLayer hl).1 (mem_of_findLayer hml).1 (hlr.trans hmlr.symm)
      exact hne ((mem_of_findLayer hl).2.symm.trans (hsame ▸ (mem_of_findLayer hml).2))
    have hmem' : mr ∈ m.layerStack.erase ref := (List.mem_erase_of_ne hother).mpr hmem
    obtain ⟨below, above, heq⟩ := insertIdx_idxOf ref hmem'
    refine ⟨?_, .inl ⟨mr, b', hmr, hmem, below, above, (h.below mr b' hmr hmem).trans heq⟩⟩
    rw [h.below mr b' hmr hmem]
    exact erase_insertIdx (hm.notMem_erase ref) List.idxOf_le_length

/-! ## Runs -/

inductive Op where
  | stack (op : StackOp)
  | setLayer (ref : ℕ) (f : Layer → Layer)
  | drawArea (area : Rectangle)
  | draw (id : ℕ) (area : Rectangle)
  | move (id : ℕ) (newPos : Vector2D)
  | moveRelative (id : ℕ) (posDiff : Vector2D)
  | setMouseLayer (id : ℕ)
  | activate (id : ℕ)

/-- The steps; what an unset window area reads as is open.  `setLayer` stands for
the setters of a layer and for what is drawn in its window. -/
def Step (title : Bool → Window → Window) (s : ActiveLayer) : Op → ActiveLayer → Prop
  | .stack op, s' => s.manager.Allowed op ∧ s' = { s with manager := s.manager.apply op }
  | .setLayer ref f, s' => Edits f ∧ s' = { s with manager := s.manager.modify ref f }
  | .drawArea area, s' => s' = { s with manager := s.manager.drawArea area }
  | .draw id area, s' => ∃ u m, s.manager.drawId u id area = some m ∧ s' = { s with manager := m }
  | .move id newPos, s' => ∃ u m, s.manager.move u id newPos = some m ∧ s' = { s with manager := m }
  | .moveRelative id posDiff, s' =>
      ∃ u m, s.manager.moveRelative u id posDiff = some m ∧ s' = { s with manager := m }
  | .setMouseLayer id, s' => s' = s.setMouseLayer id
  | .activate id, s' => ∃ u, s.activate title u id = some s'

def init (screen backBuffer : FrameBuffer) : ActiveLayer := ⟨.ofScreen screen backBuffer, 0, 0⟩

theorem invariant_drawArea {m : LayerManager} (hm : m.Invariant) (area : Rectangle) :
    (m.drawArea area).Invariant :=
  SameStack.invariant (m := m) ⟨rfl, rfl⟩ hm

theorem invariant_move {m m' : LayerManager} (hm : m.Invariant) {unset : Option Rectangle} {id : ℕ}
    {newPos : Vector2D} (h : m.move unset id newPos = some m') : m'.Invariant := by
  rw [move, Option.bind_eq_bind, Option.bind_eq_some_iff] at h
  obtain ⟨l, _, h⟩ := h
  rw [Option.bind_eq_bind, Option.bind_eq_some_iff] at h
  obtain ⟨w, _, h⟩ := h
  exact (drawId_sameStack h).invariant (invariant_drawArea
    (hm.modify l.ref (f := fun x ↦ { x with pos := newPos }) ⟨fun _ ↦ rfl, fun _ ↦ rfl⟩) _)

theorem invariant_moveRelative {m m' : LayerManager} (hm : m.Invariant) {unset : Option Rectangle}
    {id : ℕ} {posDiff : Vector2D} (h : m.moveRelative unset id posDiff = some m') :
    m'.Invariant := by
  rw [moveRelative, Option.bind_eq_bind, Option.bind_eq_some_iff] at h
  obtain ⟨l, _, h⟩ := h
  rw [Option.bind_eq_bind, Option.bind_eq_some_iff] at h
  obtain ⟨w, _, h⟩ := h
  exact (drawId_sameStack h).invariant (invariant_drawArea
    (hm.modify l.ref (f := fun x ↦ { x with pos := x.pos + posDiff }) ⟨fun _ ↦ rfl, fun _ ↦ rfl⟩) _)

theorem leave_spec {s : ActiveLayer} {m' : LayerManager} (hm : s.manager.Invariant)
    {unset : Option Rectangle} (h : leave title unset s = some m') :
    m'.Invariant ∧ m'.view = s.manager.view ∧ m'.layerStack = s.manager.layerStack := by
  rw [leave] at h
  split_ifs at h
  · exact deactivate_spec hm h
  · cases h
    exact ⟨hm, rfl, rfl⟩

/-- The old active layer can be drawn, or there is none. -/
def CanLeave (s : ActiveLayer) : Prop := s.activeLayer = 0 ∨ HasWindow s.manager s.activeLayer

theorem canLeave_of_leave {s : ActiveLayer} {m' : LayerManager} {unset : Option Rectangle}
    (h : leave title unset s = some m') : CanLeave s := by
  rw [leave] at h
  split_ifs at h with hpos
  · exact .inr (hasWindow_of_deactivate h)
  · exact .inl (by omega)

theorem exists_leave (title : Bool → Window → Window) (unset : Option Rectangle) {s : ActiveLayer}
    (hm : s.manager.Invariant) (hs : CanLeave s)
    (hunset : s.activeLayer = 0 ∨ s.manager.Shown s.activeLayer ∨ unset ≠ none) :
    ∃ m', leave title unset s = some m' := by
  rw [leave]
  split_ifs with hpos
  · exact exists_deactivate hm (hs.resolve_left (by omega)) (hunset.resolve_left (by omega))
  · exact ⟨_, rfl⟩

theorem activate_eq_some {s s' : ActiveLayer} {id : ℕ} (hid : s.activeLayer ≠ id)
    {unset : Option Rectangle} (h : s.activate title unset id = some s') :
    ∃ m, leave title unset s = some m ∧ s'.activeLayer = id ∧ s'.mouseLayer = s.mouseLayer ∧
      (id > 0 ∧ raise title unset m s.mouseLayer id = some s'.manager ∨
        id = 0 ∧ s'.manager = m) := by
  rw [activate, if_neg hid, Option.bind_eq_bind, Option.bind_eq_some_iff] at h
  obtain ⟨m, hleave, h⟩ := h
  dsimp only at h
  split_ifs at h with hpos
  · obtain ⟨m', hraise, h⟩ := Option.bind_eq_some_iff.mp h
    cases h
    exact ⟨m, hleave, rfl, rfl, .inl ⟨hpos, hraise⟩⟩
  · cases h
    exact ⟨m, hleave, rfl, rfl, .inr ⟨by omega, rfl⟩⟩

theorem raise_invariant {m m' : LayerManager} (hm : m.Invariant) {unset : Option Rectangle}
    {mouse id : ℕ} (h : raise title unset m mouse id = some m') : m'.Invariant := by
  obtain ⟨l, w, hl, hw⟩ := hasWindow_iff.mp (hasWindow_of_raise h)
  have hl₁ := findLayer_paintTitle title true hl
  have hm₁ := (hm.modify l.ref (edits_paintTitle title true)).upDown hl₁ 0
  rw [raise_eq hl hw] at h
  generalize m.modify l.ref (paintTitle title true) = m₁ at h hl₁ hm₁
  have hl₂ : (m₁.upDown id 0).findLayer id = some (paintTitle title true l) := by
    rw [findLayer, upDown_layers]
    exact hl₁
  exact (drawId_sameStack h).invariant (hm₁.upDown hl₂ _)

theorem activate_invariant {s s' : ActiveLayer} (hs : s.manager.Invariant) {id : ℕ}
    {unset : Option Rectangle} (h : s.activate title unset id = some s') :
    s'.manager.Invariant := by
  by_cases hid : s.activeLayer = id
  · rw [activate, if_pos hid] at h
    cases h
    exact hs
  · obtain ⟨m, hleave, _, _, ⟨_, hraise⟩ | ⟨_, heq⟩⟩ := activate_eq_some hid h
    · exact raise_invariant (leave_spec hs hleave).1 hraise
    · exact heq ▸ (leave_spec hs hleave).1

theorem step_invariant {s s' : ActiveLayer} {op : Op} (hs : s.manager.Invariant)
    (hstep : Step title s op s') : s'.manager.Invariant := by
  cases op with
  | stack op =>
      obtain ⟨hallowed, rfl⟩ := hstep
      exact hs.step ⟨hallowed, rfl⟩
  | setLayer ref f =>
      obtain ⟨hf, rfl⟩ := hstep
      exact hs.modify ref hf
  | drawArea area =>
      obtain rfl := hstep
      exact invariant_drawArea hs area
  | draw id area =>
      obtain ⟨u, m, hdraw, rfl⟩ := hstep
      exact (drawId_sameStack hdraw).invariant hs
  | move id newPos =>
      obtain ⟨u, m, hmove, rfl⟩ := hstep
      exact invariant_move hs hmove
  | moveRelative id posDiff =>
      obtain ⟨u, m, hmove, rfl⟩ := hstep
      exact invariant_moveRelative hs hmove
  | setMouseLayer id =>
      obtain rfl := hstep
      exact hs
  | activate id =>
      obtain ⟨u, h⟩ := hstep
      exact activate_invariant hs h

/-- When `Activate` puts a layer in place: the mouse layer is shown, or nothing
is to be moved and the layer stands right. -/
def PutsInPlace (s : ActiveLayer) (id ref : ℕ) : Prop :=
  if s.activeLayer = id then InPlace s.manager s.manager s.mouseLayer ref
  else if id = 0 then CanLeave s ∧ InPlace s.manager s.manager s.mouseLayer ref
  else CanLeave s ∧ HasWindow s.manager id ∧ s.manager.Shown s.mouseLayer

theorem inPlace_congr {m m₁ m' : LayerManager} {mouse ref : ℕ} (hview : m₁.view = m.view)
    (hstack : m₁.layerStack = m.layerStack) :
    InPlace m₁ m' mouse ref ↔ InPlace m m' mouse ref := by
  rw [InPlace, InPlace, shown_iff_view, shown_iff_view, hview, hstack]

theorem shown_congr {m m₁ : LayerManager} (hview : m₁.view = m.view)
    (hstack : m₁.layerStack = m.layerStack) (id : ℕ) : m₁.Shown id ↔ m.Shown id := by
  rw [shown_iff_view, shown_iff_view, hview, hstack]

/-- In every state of every run, `Activate` leaves the layer below the mouse
layer, or on top without one, exactly when `PutsInPlace` holds. -/
theorem activate_inPlace_iff {screen backBuffer : FrameBuffer} {ops : List Op} {s : ActiveLayer}
    (hrun : Transition.Run (Step title) (init screen backBuffer) ops s) {id : ℕ} {l : Layer}
    (hl : s.manager.findLayer id = some l) (hne : id ≠ s.mouseLayer) (u : Rectangle) :
    (∃ s', s.activate title (some u) id = some s' ∧
      InPlace s.manager s'.manager s.mouseLayer l.ref) ↔ PutsInPlace s id l.ref := by
  have hs : s.manager.Invariant :=
    hrun.invariant (fun _ _ _ hs hstep ↦ step_invariant hs hstep) (.ofScreen screen backBuffer)
  have hview : s.manager.view id = some (l.ref, l.window.isSome) := by
    rw [view, hl]
    rfl
  rw [PutsInPlace]
  by_cases hid : s.activeLayer = id
  · rw [if_pos hid, activate, if_pos hid]
    constructor
    · rintro ⟨s', hs', hplace⟩
      cases hs'
      exact hplace
    · exact fun hplace ↦ ⟨s, rfl, hplace⟩
  rw [if_neg hid]
  by_cases hzero : id = 0
  · rw [if_pos hzero]
    constructor
    · rintro ⟨s', hs', hplace⟩
      obtain ⟨m, hleave, _, _, ⟨hpos, _⟩ | ⟨_, heq⟩⟩ := activate_eq_some hid hs'
      · omega
      · obtain ⟨_, _, hstack⟩ := leave_spec hs hleave
        refine ⟨canLeave_of_leave hleave, ?_⟩
        rw [heq] at hplace
        simpa only [InPlace, hstack] using hplace
    · rintro ⟨hcan, hplace⟩
      obtain ⟨m, hleave⟩ := exists_leave title (some u) hs hcan (.inr (.inr (Option.some_ne_none u)))
      obtain ⟨_, _, hstack⟩ := leave_spec hs hleave
      refine ⟨⟨m, id, s.mouseLayer⟩, ?_, ?_⟩
      · rw [activate, if_neg hid, hleave]
        simp [hzero]
      · simpa only [InPlace, hstack] using hplace
  · rw [if_neg hzero]
    constructor
    · rintro ⟨s', hs', hplace⟩
      obtain ⟨m, hleave, _, _, ⟨_, hraise⟩ | ⟨hzero', _⟩⟩ := activate_eq_some hid hs'
      · obtain ⟨hm, hmview, hmstack⟩ := leave_spec hs hleave
        have hwindow := hasWindow_of_raise hraise
        rw [HasWindow, hmview] at hwindow
        have hraised := raise_spec hm (hmview ▸ hview) hne hraise
        rw [← inPlace_congr hmview hmstack, hraised.inPlace_iff hm (hmview ▸ hview) hne,
          shown_congr hmview hmstack] at hplace
        exact ⟨canLeave_of_leave hleave, hwindow, hplace⟩
      · exact absurd hzero' hzero
    · rintro ⟨hcan, hwindow, hmouse⟩
      obtain ⟨m, hleave⟩ := exists_leave title (some u) hs hcan (.inr (.inr (Option.some_ne_none u)))
      obtain ⟨hm, hmview, hmstack⟩ := leave_spec hs hleave
      obtain ⟨m', hraise⟩ := exists_raise title (some u) hm
        (by rw [HasWindow, hmview]; exact hwindow) hne (.inr (Option.some_ne_none u))
      have hraised := raise_spec hm (hmview ▸ hview) hne hraise
      refine ⟨⟨m', id, s.mouseLayer⟩, ?_, ?_⟩
      · rw [activate, if_neg hid, hleave]
        simp [Nat.pos_of_ne_zero hzero, hraise]
      · rw [← inPlace_congr hmview hmstack, hraised.inPlace_iff hm (hmview ▸ hview) hne,
          shown_congr hmview hmstack]
        exact hmouse

/-- A window is activated below the mouse layer. -/
theorem inPlace_below_mouse :
    ∃ s, Transition.Run (Step fun _ w ↦ w) (init (.ofSize 1 1 .kPixelRGBResv8BitPerColor)
        (.ofSize 1 1 .kPixelRGBResv8BitPerColor))
        [.stack (.newLayer 8), .stack (.upDown 1 0), .stack (.newLayer 16), .stack (.upDown 2 9),
          .setMouseLayer 2, .stack (.newLayer 24),
          .setLayer 24 fun l ↦ { l with window := some (.ofSize 1 1 .kPixelRGBResv8BitPerColor) }] s ∧
      ∃ s', s.activate (fun _ w ↦ w) (some ⟨⟨0, 0⟩, ⟨0, 0⟩⟩) 3 = some s' ∧
        InPlace s.manager s'.manager s.mouseLayer 24 := by
  have hrun : Transition.Run (Step fun _ w ↦ w) (init (.ofSize 1 1 .kPixelRGBResv8BitPerColor)
      (.ofSize 1 1 .kPixelRGBResv8BitPerColor))
      [.stack (.newLayer 8), .stack (.upDown 1 0), .stack (.newLayer 16), .stack (.upDown 2 9),
        .setMouseLayer 2, .stack (.newLayer 24),
        .setLayer 24 fun l ↦ { l with window := some (.ofSize 1 1 .kPixelRGBResv8BitPerColor) }] _ :=
    .snoc (.snoc (.snoc (.snoc (.snoc (.snoc (.snoc (.nil _) ⟨by decide, rfl⟩) ⟨by decide, rfl⟩)
      ⟨by decide, rfl⟩) ⟨by decide, rfl⟩) rfl) ⟨by decide, rfl⟩)
      ⟨⟨fun _ ↦ rfl, fun _ ↦ rfl⟩, rfl⟩
  have hother : 3 ≠ 2 := by decide
  refine ⟨_, hrun, (activate_inPlace_iff hrun rfl hother _).mpr ?_⟩
  exact ⟨.inl rfl, ⟨24, rfl⟩, ⟨_, rfl, by decide⟩⟩

/-- Without a mouse layer a new window is hidden by its activation. -/
theorem not_inPlace_without_mouse :
    ∃ s, Transition.Run (Step fun _ w ↦ w) (init (.ofSize 1 1 .kPixelRGBResv8BitPerColor)
        (.ofSize 1 1 .kPixelRGBResv8BitPerColor))
        [.stack (.newLayer 8), .stack (.upDown 1 0), .stack (.newLayer 16),
          .setLayer 16 fun l ↦ { l with window := some (.ofSize 1 1 .kPixelRGBResv8BitPerColor) }] s ∧
      s.manager.view 2 = some (16, true) ∧ 2 ≠ s.mouseLayer ∧
      (s.activate (fun _ w ↦ w) (some ⟨⟨0, 0⟩, ⟨0, 0⟩⟩) 2).map (·.manager.layerStack) = some [8] ∧
      ¬ ∃ s', s.activate (fun _ w ↦ w) (some ⟨⟨0, 0⟩, ⟨0, 0⟩⟩) 2 = some s' ∧
        InPlace s.manager s'.manager s.mouseLayer 16 := by
  have hrun : Transition.Run (Step fun _ w ↦ w) (init (.ofSize 1 1 .kPixelRGBResv8BitPerColor)
      (.ofSize 1 1 .kPixelRGBResv8BitPerColor))
      [.stack (.newLayer 8), .stack (.upDown 1 0), .stack (.newLayer 16),
        .setLayer 16 fun l ↦ { l with window := some (.ofSize 1 1 .kPixelRGBResv8BitPerColor) }] _ :=
    .snoc (.snoc (.snoc (.snoc (.nil _) ⟨by decide, rfl⟩) ⟨by decide, rfl⟩) ⟨by decide, rfl⟩)
      ⟨⟨fun _ ↦ rfl, fun _ ↦ rfl⟩, rfl⟩
  refine ⟨_, hrun, rfl, by decide, rfl, ?_⟩
  rintro ⟨s', hs', hplace⟩
  cases hs'
  rcases hplace with ⟨_, ⟨mr, _, _, _, below, above, hstack⟩ | ⟨_, below, hstack⟩⟩
  · have hmem : 16 ∈ below ++ 16 :: mr :: above := by simp
    rw [← hstack] at hmem
    exact absurd hmem (by decide)
  · have hmem : 16 ∈ below ++ [16] := by simp
    rw [← hstack] at hmem
    exact absurd hmem (by decide)

end ActiveLayer

end Graphics
end MinOS
