import MinOS.Graphics.Window
import Mathlib.Data.List.InsertIdx
import Mathlib.Data.List.Nodup

/-!
# Layers and their stack

`layers_` owns the layers and `layer_stack_` holds pointers to the shown ones,
from the bottom.  A layer is named by its id, which comes round after `2 ^ 32`
calls of `NewLayer`, so two layers may have one id; `FindLayer` takes the older.
-/

namespace MinOS
namespace Graphics

/-- A layer with its address.  A window is shown by one layer. -/
structure Layer where
  ref : ℕ
  id : ℕ
  pos : Vector2D
  window : Option Window
  draggable : Bool

def Layer.drawTo (l : Layer) (screen : FrameBuffer) (area : Rectangle) : FrameBuffer :=
  match l.window with
  | some w => w.drawTo screen l.pos area
  | none => screen

structure LayerManager where
  screen : FrameBuffer
  backBuffer : FrameBuffer
  layers : List Layer
  layerStack : List ℕ
  latestId : ℕ

namespace LayerManager

/-- A manager after `SetWriter`. -/
def ofScreen (screen backBuffer : FrameBuffer) : LayerManager := ⟨screen, backBuffer, [], [], 0⟩

/-- The layer that a pointer of the stack refers to. -/
def layerAt (m : LayerManager) (ref : ℕ) : Option Layer := m.layers.find? (·.ref = ref)

def findLayer (m : LayerManager) (id : ℕ) : Option Layer := m.layers.find? (·.id = id)

/-- The pointer that `FindLayer` gives, `nullptr` as zero. -/
def findRef (m : LayerManager) (id : ℕ) : ℕ := ((m.findLayer id).map Layer.ref).getD 0

/-- The id of the next layer. -/
def nextId (m : LayerManager) : ℕ := (m.latestId + 1) % 2 ^ 32

/-- `NewLayer`, with the address that `new` gives. -/
def newLayer (m : LayerManager) (ref : ℕ) : LayerManager :=
  { m with
    layers := m.layers ++ [⟨ref, m.nextId, ⟨0, 0⟩, none, false⟩]
    latestId := m.nextId }

def hide (m : LayerManager) (id : ℕ) : LayerManager :=
  let layer := m.findRef id
  let pos := m.layerStack.idxOf layer
  if pos ≠ m.layerStack.length then { m with layerStack := m.layerStack.eraseIdx pos } else m

def upDown (m : LayerManager) (id : ℕ) (newHeight : ℤ) : LayerManager :=
  if newHeight < 0 then m.hide id
  else
    let newPos := if newHeight > m.layerStack.length then m.layerStack.length else newHeight.toNat
    let layer := m.findRef id
    let oldPos := m.layerStack.idxOf layer
    if oldPos = m.layerStack.length then
      { m with layerStack := m.layerStack.insertIdx newPos layer }
    else
      let newPos := if newPos = m.layerStack.length then newPos - 1 else newPos
      { m with layerStack := (m.layerStack.eraseIdx oldPos).insertIdx newPos layer }

def removeLayer (m : LayerManager) (id : ℕ) : LayerManager :=
  let m := m.hide id
  { m with layers := m.layers.filter (·.id ≠ id) }

/-- The loop of `GetHeight`. -/
def heightFrom (m : LayerManager) (id : ℕ) : ℤ → List ℕ → ℤ
  | _, [] => -1
  | h, ref :: rest => if (m.layerAt ref).any (·.id = id) then h else m.heightFrom id (h + 1) rest

def getHeight (m : LayerManager) (id : ℕ) : ℤ := m.heightFrom id 0 m.layerStack

/-! ## Every shown layer is the one its id finds -/

/-- A shown layer is the first of its id, so `FindLayer` still finds it when the
ids have come round. -/
structure Invariant (m : LayerManager) : Prop where
  refs_nodup : (m.layers.map Layer.ref).Nodup
  ref_ne_zero : ∀ l ∈ m.layers, l.ref ≠ 0
  stack_nodup : m.layerStack.Nodup
  first : ∀ ref ∈ m.layerStack, ∃ l, l.ref = ref ∧ m.findLayer l.id = some l

theorem mem_of_findLayer {m : LayerManager} {id : ℕ} {l : Layer} (h : m.findLayer id = some l) :
    l ∈ m.layers ∧ l.id = id :=
  ⟨List.mem_of_find?_eq_some h, by simpa using List.find?_some h⟩

theorem findRef_eq {m : LayerManager} {id : ℕ} {l : Layer} (h : m.findLayer id = some l) :
    m.findRef id = l.ref := by
  rw [findRef, h]
  rfl

theorem Invariant.ofScreen (screen backBuffer : FrameBuffer) :
    (ofScreen screen backBuffer).Invariant where
  refs_nodup := List.nodup_nil
  ref_ne_zero _ h := by cases h
  stack_nodup := List.nodup_nil
  first _ h := by cases h

theorem Invariant.eq_of_ref {m : LayerManager} (hm : m.Invariant) {l l' : Layer}
    (hl : l ∈ m.layers) (hl' : l' ∈ m.layers) (href : l.ref = l'.ref) : l = l' :=
  List.inj_on_of_nodup_map hm.refs_nodup hl hl' href

theorem Invariant.layerAt_eq {m : LayerManager} (hm : m.Invariant) {l : Layer}
    (hl : l ∈ m.layers) : m.layerAt l.ref = some l := by
  cases hat : m.layerAt l.ref with
  | none =>
      have hno := List.find?_eq_none.mp hat l hl
      simp at hno
  | some l' =>
      have href : l'.ref = l.ref := by simpa using List.find?_some hat
      rw [hm.eq_of_ref (List.mem_of_find?_eq_some hat) hl href]

/-- A pointer of the stack has the id of a found layer exactly when it is that layer. -/
theorem Invariant.any_id_iff {m : LayerManager} (hm : m.Invariant) {id : ℕ} {l : Layer}
    (hl : m.findLayer id = some l) {ref : ℕ} (href : ref ∈ m.layerStack) :
    (m.layerAt ref).any (·.id = id) = true ↔ ref = l.ref := by
  obtain ⟨l', rfl, hfirst⟩ := hm.first ref href
  have hmem' := (mem_of_findLayer hfirst).1
  rw [hm.layerAt_eq hmem']
  constructor
  · intro hid
    have hid' : l'.id = id := by simpa using hid
    rw [hid', hl] at hfirst
    rw [Option.some.inj hfirst]
  · intro heq
    rw [hm.eq_of_ref hmem' (mem_of_findLayer hl).1 heq]
    simpa using (mem_of_findLayer hl).2

theorem heightFrom_eq {m : LayerManager} {id x : ℕ} (stack : List ℕ) :
    ∀ h : ℤ, (∀ ref ∈ stack, (m.layerAt ref).any (·.id = id) = true ↔ ref = x) →
      m.heightFrom id h stack = if x ∈ stack then h + stack.idxOf x else -1 := by
  induction stack with
  | nil => exact fun _ _ ↦ rfl
  | cons ref rest ih =>
      intro h hstack
      rw [heightFrom]
      by_cases href : ref = x
      · rw [if_pos ((hstack ref List.mem_cons_self).mpr href), href, if_pos List.mem_cons_self,
          List.idxOf_cons_self]
        simp
      · rw [if_neg (mt (hstack ref List.mem_cons_self).mp href),
          ih _ (fun r hr ↦ hstack r (List.mem_cons_of_mem ref hr)),
          List.idxOf_cons_ne rest href]
        simp only [List.mem_cons, Ne.symm href, false_or]
        split_ifs
        · push_cast
          ring
        · rfl

theorem Invariant.getHeight_eq {m : LayerManager} (hm : m.Invariant) {id : ℕ} {l : Layer}
    (hl : m.findLayer id = some l) :
    m.getHeight id = if l.ref ∈ m.layerStack then (m.layerStack.idxOf l.ref : ℤ) else -1 := by
  rw [getHeight, heightFrom_eq _ _ (fun _ href ↦ hm.any_id_iff hl href)]
  simp

/-! ## The moves of the stack -/

theorem idxOf_insertIdx {σ : List ℕ} {x : ℕ} (hx : x ∉ σ) :
    ∀ {i : ℕ}, i ≤ σ.length → (σ.insertIdx i x).idxOf x = i := by
  induction σ with
  | nil =>
      intro i hi
      obtain rfl : i = 0 := Nat.le_zero.mp hi
      simp
  | cons a σ ih =>
      intro i hi
      cases i with
      | zero => simp
      | succ i =>
          have hne : a ≠ x := fun heq ↦ hx (heq ▸ List.mem_cons_self)
          rw [List.insertIdx_succ_cons, List.idxOf_cons_ne _ hne,
            ih (fun hmem ↦ hx (List.mem_cons_of_mem a hmem)) (Nat.le_of_succ_le_succ hi)]

theorem erase_insertIdx {σ : List ℕ} {x : ℕ} (hx : x ∉ σ) {i : ℕ} (hi : i ≤ σ.length) :
    (σ.insertIdx i x).erase x = σ := by
  rw [← List.eraseIdx_idxOf_eq_erase, idxOf_insertIdx hx hi, List.eraseIdx_insertIdx_self]

@[simp] theorem hide_layers (m : LayerManager) (id : ℕ) : (m.hide id).layers = m.layers := by
  rw [hide]
  split_ifs <;> rfl

@[simp] theorem hide_latestId (m : LayerManager) (id : ℕ) : (m.hide id).latestId = m.latestId := by
  rw [hide]
  split_ifs <;> rfl

theorem hide_stack (m : LayerManager) (id : ℕ) :
    (m.hide id).layerStack = m.layerStack.erase (m.findRef id) := by
  simp only [hide]
  split_ifs with hpos
  · exact List.eraseIdx_idxOf_eq_erase _ _
  · exact (List.erase_of_not_mem (List.idxOf_eq_length_iff.mp (not_not.mp hpos))).symm

@[simp] theorem upDown_layers (m : LayerManager) (id : ℕ) (h : ℤ) :
    (m.upDown id h).layers = m.layers := by
  simp only [upDown]
  split_ifs <;> simp

@[simp] theorem upDown_latestId (m : LayerManager) (id : ℕ) (h : ℤ) :
    (m.upDown id h).latestId = m.latestId := by
  simp only [upDown]
  split_ifs <;> simp

theorem upDown_neg (m : LayerManager) (id : ℕ) {h : ℤ} (hneg : h < 0) :
    m.upDown id h = m.hide id := by
  rw [upDown, if_pos hneg]

theorem upDown_stack (m : LayerManager) (id : ℕ) {h : ℤ} (hh : 0 ≤ h) :
    (m.upDown id h).layerStack = (m.layerStack.erase (m.findRef id)).insertIdx
      (min h.toNat (m.layerStack.erase (m.findRef id)).length) (m.findRef id) := by
  generalize hr : m.findRef id = r
  simp only [upDown, hr]
  rw [if_neg (not_lt.mpr hh)]
  by_cases hmem : r ∈ m.layerStack
  · have hlt : m.layerStack.idxOf r < m.layerStack.length := List.idxOf_lt_length_iff.mpr hmem
    have hlen : (m.layerStack.erase r).length = m.layerStack.length - 1 := List.length_erase_of_mem hmem
    rw [if_neg hlt.ne, List.eraseIdx_idxOf_eq_erase, hlen]
    refine congrArg (fun i ↦ (m.layerStack.erase r).insertIdx i r) ?_
    split_ifs <;> omega
  · rw [if_pos (List.idxOf_eq_length_iff.mpr hmem), List.erase_of_not_mem hmem]
    refine congrArg (fun i ↦ m.layerStack.insertIdx i r) ?_
    split_ifs <;> omega

/-- The layer stands at the height, the others in their old order. -/
structure PutAt (m m' : LayerManager) (l : Layer) (h : ℤ) : Prop where
  index : m'.layerStack[min h.toNat (m'.layerStack.length - 1)]? = some l.ref
  others : m'.layerStack.erase l.ref = m.layerStack.erase l.ref
  count : m'.layerStack.count l.ref = 1
  layers : m'.layers = m.layers
  height : m'.getHeight l.id = min h (m'.layerStack.length - 1 : ℤ)

/-- The layer stands nowhere, the others in their old order. -/
structure TakenOut (m m' : LayerManager) (l : Layer) : Prop where
  others : m'.layerStack = m.layerStack.erase l.ref
  notMem : l.ref ∉ m'.layerStack
  height : m'.getHeight l.id = -1

theorem Invariant.notMem_erase {m : LayerManager} (hm : m.Invariant) (ref : ℕ) :
    ref ∉ m.layerStack.erase ref :=
  fun h ↦ ((hm.stack_nodup.mem_erase_iff).mp h).1 rfl

/-- A new stack of layers that are the first of their id. -/
theorem Invariant.of_stack {m m' : LayerManager} (hm : m.Invariant) (hlayers : m'.layers = m.layers)
    (hnodup : m'.layerStack.Nodup)
    (hstack : ∀ ref ∈ m'.layerStack, ref ∈ m.layerStack ∨
      ∃ id l, m.findLayer id = some l ∧ l.ref = ref) : m'.Invariant where
  refs_nodup := hlayers ▸ hm.refs_nodup
  ref_ne_zero := hlayers ▸ hm.ref_ne_zero
  stack_nodup := hnodup
  first ref href := by
    have hfind : ∀ id, m'.findLayer id = m.findLayer id := fun id ↦ by rw [findLayer, hlayers]; rfl
    rcases hstack ref href with hold | ⟨id, l, hl, rfl⟩
    · obtain ⟨l, hl, hfirst⟩ := hm.first ref hold
      exact ⟨l, hl, (hfind l.id).trans hfirst⟩
    · refine ⟨l, rfl, ?_⟩
      rw [hfind, (mem_of_findLayer hl).2, hl]

theorem Invariant.hide {m : LayerManager} (hm : m.Invariant) (id : ℕ) : (m.hide id).Invariant := by
  refine hm.of_stack (hide_layers m id) ?_ ?_
  · rw [hide_stack]
    exact hm.stack_nodup.erase _
  · intro ref href
    rw [hide_stack] at href
    exact .inl (List.mem_of_mem_erase href)

theorem Invariant.upDown {m : LayerManager} (hm : m.Invariant) {id : ℕ} {l : Layer}
    (hl : m.findLayer id = some l) (h : ℤ) : (m.upDown id h).Invariant := by
  rcases lt_or_ge h 0 with hneg | hh
  · rw [upDown_neg m id hneg]
    exact hm.hide id
  · refine hm.of_stack (upDown_layers m id h) ?_ ?_
    · rw [upDown_stack m id hh, findRef_eq hl]
      rw [(List.perm_insertIdx _ _ (min_le_right _ _)).nodup_iff, List.nodup_cons]
      exact ⟨hm.notMem_erase l.ref, hm.stack_nodup.erase _⟩
    · intro ref href
      rw [upDown_stack m id hh, findRef_eq hl] at href
      rcases List.eq_or_mem_of_mem_insertIdx href with rfl | hmem
      · exact .inr ⟨id, l, hl, rfl⟩
      · exact .inl (List.mem_of_mem_erase hmem)

theorem Invariant.putAt {m : LayerManager} (hm : m.Invariant) {id : ℕ} {l : Layer}
    (hl : m.findLayer id = some l) {h : ℤ} (hh : 0 ≤ h) : m.PutAt (m.upDown id h) l h := by
  have hstack := upDown_stack m id hh
  have hlayers := upDown_layers m id h
  have hinv := hm.upDown hl h
  rw [findRef_eq hl] at hstack
  have hnot := hm.notMem_erase l.ref
  have hl' : (m.upDown id h).findLayer l.id = some l := by
    rw [findLayer, hlayers, (mem_of_findLayer hl).2]
    exact hl
  have hheight := hinv.getHeight_eq hl'
  generalize m.upDown id h = m' at hstack hlayers hinv hl' hheight ⊢
  have hlen : m'.layerStack.length = (m.layerStack.erase l.ref).length + 1 := by
    rw [hstack, List.length_insertIdx_of_le_length (min_le_right _ _)]
  have hidx : m'.layerStack.idxOf l.ref = min h.toNat (m.layerStack.erase l.ref).length := by
    rw [hstack, idxOf_insertIdx hnot (min_le_right _ _)]
  have hmem : l.ref ∈ m'.layerStack := by
    rw [hstack]
    exact (List.mem_insertIdx (min_le_right _ _)).mpr (.inl rfl)
  refine ⟨?_, ?_, List.count_eq_one_of_mem hinv.stack_nodup hmem, hlayers, ?_⟩
  · rw [hlen, Nat.add_sub_cancel, hstack, List.getElem?_insertIdx_self,
      if_pos (min_le_right _ _)]
  · rw [hstack]
    exact erase_insertIdx hnot (min_le_right _ _)
  · rw [hheight, if_pos hmem, hidx, hlen]
    omega

theorem Invariant.takenOut {m m' : LayerManager} (hm : m.Invariant) {id : ℕ} {l : Layer}
    (hl : m.findLayer id = some l) (hstack : m'.layerStack = m.layerStack.erase l.ref)
    (hlayers : ∀ l' ∈ m'.layers, l' ∈ m.layers) : m.TakenOut m' l where
  others := hstack
  notMem := hstack ▸ hm.notMem_erase l.ref
  height := by
    have hno : ∀ ref ∈ m'.layerStack, (m'.layerAt ref).any (·.id = l.id) = true ↔ ref = l.ref := by
      intro ref href
      rw [hstack] at href
      have hne : ref ≠ l.ref := fun heq ↦ hm.notMem_erase l.ref (heq ▸ href)
      refine iff_of_false ?_ hne
      intro hany
      obtain ⟨l', hat, hid⟩ := (Option.any_eq_true _ _).mp hany
      have hmem := hlayers l' (List.mem_of_find?_eq_some hat)
      have href' : l'.ref = ref := by simpa using List.find?_some hat
      apply hne
      rw [← hm.any_id_iff hl (List.mem_of_mem_erase href), ← href', hm.layerAt_eq hmem]
      simpa [(mem_of_findLayer hl).2] using hid
    rw [getHeight, heightFrom_eq _ _ hno, if_neg]
    rw [hstack]
    exact hm.notMem_erase l.ref

theorem Invariant.takenOut_hide {m : LayerManager} (hm : m.Invariant) {id : ℕ} {l : Layer}
    (hl : m.findLayer id = some l) : m.TakenOut (m.hide id) l := by
  refine hm.takenOut hl ?_ (fun l' hl' ↦ hide_layers m id ▸ hl')
  rw [hide_stack, findRef_eq hl]

theorem Invariant.takenOut_removeLayer {m : LayerManager} (hm : m.Invariant) {id : ℕ} {l : Layer}
    (hl : m.findLayer id = some l) : m.TakenOut (m.removeLayer id) l := by
  refine hm.takenOut hl ?_ ?_
  · change (m.hide id).layerStack = _
    rw [hide_stack, findRef_eq hl]
  · intro l' hl'
    exact hide_layers m id ▸ List.mem_of_mem_filter hl'

theorem Invariant.removeLayer {m : LayerManager} (hm : m.Invariant) (id : ℕ) :
    (m.removeLayer id).Invariant where
  refs_nodup := by
    have hsub : ((m.hide id).layers.filter (·.id ≠ id)).Sublist m.layers :=
      hide_layers m id ▸ List.filter_sublist
    exact (hsub.map Layer.ref).nodup hm.refs_nodup
  ref_ne_zero l hl := by
    have hmem : l ∈ (m.hide id).layers := List.mem_of_mem_filter hl
    exact hm.ref_ne_zero l (hide_layers m id ▸ hmem)
  stack_nodup := (hm.hide id).stack_nodup
  first ref href := by
    change ref ∈ (m.hide id).layerStack at href
    obtain ⟨l, rfl, hfirst⟩ := (hm.hide id).first ref href
    have hne : l.id ≠ id := by
      intro hid
      have hl : m.findLayer id = some l := by
        rw [hid, findLayer, hide_layers] at hfirst
        exact hfirst
      rw [hide_stack, findRef_eq hl] at href
      exact hm.notMem_erase l.ref href
    refine ⟨l, rfl, ?_⟩
    change ((m.hide id).layers.filter (·.id ≠ id)).find? (·.id = l.id) = some l
    rw [List.find?_filter]
    have hpred : (fun l' : Layer ↦ decide (decide (l'.id ≠ id) = true ∧ decide (l'.id = l.id) = true)) =
        fun l' ↦ decide (l'.id = l.id) := by
      funext l'
      by_cases heq : l'.id = l.id <;> simp [heq, hne]
    rw [hpred]
    exact hfirst

theorem Invariant.newLayer {m : LayerManager} (hm : m.Invariant) {ref : ℕ} (hzero : ref ≠ 0)
    (hfresh : ∀ l ∈ m.layers, l.ref ≠ ref) : (m.newLayer ref).Invariant where
  refs_nodup := by
    have hnot : ref ∉ m.layers.map Layer.ref := by
      intro hmem
      obtain ⟨l, hl, href⟩ := List.mem_map.mp hmem
      exact hfresh l hl href
    simpa [LayerManager.newLayer, List.nodup_append] using ⟨hm.refs_nodup, fun l hl ↦ hfresh l hl⟩
  ref_ne_zero l hl := by
    rcases List.mem_append.mp hl with hold | hnew
    · exact hm.ref_ne_zero l hold
    · rw [List.mem_singleton.mp hnew]
      exact hzero
  stack_nodup := hm.stack_nodup
  first r hr := by
    obtain ⟨l, hl, hfirst⟩ := hm.first r hr
    refine ⟨l, hl, ?_⟩
    change (m.layers ++ _).find? _ = _
    rw [List.find?_append, ← findLayer, hfirst]
    rfl

/-! ## Runs -/

inductive StackOp where
  | newLayer (ref : ℕ)
  | upDown (id : ℕ) (newHeight : ℤ)
  | hide (id : ℕ)
  | removeLayer (id : ℕ)

def apply (m : LayerManager) : StackOp → LayerManager
  | .newLayer ref => m.newLayer ref
  | .upDown id h => m.upDown id h
  | .hide id => m.hide id
  | .removeLayer id => m.removeLayer id

/-- The id is that of a layer; `new` gives an address that no layer has. -/
def Allowed (m : LayerManager) : StackOp → Prop
  | .newLayer ref => ref ≠ 0 ∧ ∀ l ∈ m.layers, l.ref ≠ ref
  | .upDown id _ => m.findLayer id ≠ none
  | .hide id => m.findLayer id ≠ none
  | .removeLayer id => m.findLayer id ≠ none

instance (m : LayerManager) : ∀ op, Decidable (m.Allowed op)
  | .newLayer _ => inferInstanceAs (Decidable (_ ∧ _))
  | .upDown _ _ | .hide _ | .removeLayer _ => inferInstanceAs (Decidable (¬ _))

def Step (m : LayerManager) (op : StackOp) (m' : LayerManager) : Prop :=
  m.Allowed op ∧ m' = m.apply op

/-- The stack is in order, and so is what each operation makes of it. -/
structure ZOrder (m : LayerManager) : Prop where
  nodup : m.layerStack.Nodup
  owned : ∀ ref ∈ m.layerStack, ∃ l ∈ m.layers, l.ref = ref
  upDown : ∀ id l h, m.findLayer id = some l → 0 ≤ h → m.PutAt (m.upDown id h) l h
  upDown_neg : ∀ id l h, m.findLayer id = some l → h < 0 → m.TakenOut (m.upDown id h) l
  hide : ∀ id l, m.findLayer id = some l →
    m.TakenOut (m.hide id) l ∧ (m.hide id).layers = m.layers
  removeLayer : ∀ id l, m.findLayer id = some l →
    m.TakenOut (m.removeLayer id) l ∧ (m.removeLayer id).layers = m.layers.filter (·.id ≠ id)
  getHeight : ∀ id l, m.findLayer id = some l →
    m.getHeight id = if l.ref ∈ m.layerStack then (m.layerStack.idxOf l.ref : ℤ) else -1

theorem Invariant.zOrder {m : LayerManager} (hm : m.Invariant) : m.ZOrder where
  nodup := hm.stack_nodup
  owned ref href := by
    obtain ⟨l, hl, hfirst⟩ := hm.first ref href
    exact ⟨l, (mem_of_findLayer hfirst).1, hl⟩
  upDown _ _ _ hl hh := hm.putAt hl hh
  upDown_neg id _ _ hl hneg := LayerManager.upDown_neg m id hneg ▸ hm.takenOut_hide hl
  hide id _ hl := ⟨hm.takenOut_hide hl, hide_layers m id⟩
  removeLayer id _ hl :=
    ⟨hm.takenOut_removeLayer hl, by rw [LayerManager.removeLayer, hide_layers]⟩
  getHeight _ _ hl := hm.getHeight_eq hl

theorem Invariant.step {m m' : LayerManager} {op : StackOp} (hm : m.Invariant)
    (hstep : Step m op m') : m'.Invariant := by
  obtain ⟨hallowed, rfl⟩ := hstep
  cases op with
  | newLayer ref => exact hm.newLayer hallowed.1 hallowed.2
  | upDown id h =>
      obtain ⟨l, hl⟩ := Option.ne_none_iff_exists'.mp hallowed
      exact hm.upDown hl h
  | hide id => exact hm.hide id
  | removeLayer id => exact hm.removeLayer id

theorem zOrder_of_run {screen backBuffer : FrameBuffer} {ops : List StackOp} {m : LayerManager}
    (hrun : Transition.Run Step (ofScreen screen backBuffer) ops m) : m.ZOrder := by
  have hm : m.Invariant :=
    hrun.invariant (fun _ _ _ hs hstep ↦ hs.step hstep) (.ofScreen screen backBuffer)
  exact hm.zOrder

/-- Two layers are shown, the first one is brought to the top, and a third one
is made after the second was removed. -/
theorem zOrder_three_layers :
    ∃ m, Transition.Run Step
        (ofScreen (.ofSize 1 1 .kPixelRGBResv8BitPerColor) (.ofSize 1 1 .kPixelRGBResv8BitPerColor))
        [.newLayer 8, .newLayer 16, .upDown 1 0, .upDown 2 1, .upDown 1 9, .removeLayer 2,
          .newLayer 16, .upDown 3 0] m ∧
      m.layerStack = [16, 8] ∧ m.ZOrder := by
  have hrun : Transition.Run Step
      (ofScreen (.ofSize 1 1 .kPixelRGBResv8BitPerColor) (.ofSize 1 1 .kPixelRGBResv8BitPerColor))
      [.newLayer 8, .newLayer 16, .upDown 1 0, .upDown 2 1, .upDown 1 9, .removeLayer 2,
        .newLayer 16, .upDown 3 0] _ :=
    .snoc (.snoc (.snoc (.snoc (.snoc (.snoc (.snoc (.snoc (.nil _)
      ⟨by decide, rfl⟩) ⟨by decide, rfl⟩) ⟨by decide, rfl⟩) ⟨by decide, rfl⟩) ⟨by decide, rfl⟩)
      ⟨by decide, rfl⟩) ⟨by decide, rfl⟩) ⟨by decide, rfl⟩
  exact ⟨_, hrun, by decide, zOrder_of_run hrun⟩

end LayerManager
end Graphics
end MinOS
