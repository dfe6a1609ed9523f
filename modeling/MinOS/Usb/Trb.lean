import Mathlib.Data.BitVec
import Mathlib.Tactic.Common

/-!
# Transfer request blocks

The 16-byte blocks that the rings of the xHCI driver are made of, the fields of
their control word, and the control words that the driver pushes.
-/

namespace MinOS
namespace Usb

/-- `TRB`. -/
structure TRB where
  parameter0 : BitVec 32
  parameter1 : BitVec 32
  status : BitVec 32
  control : BitVec 32
deriving DecidableEq

/-- `TRB_CYCLE`. -/
def TRB_CYCLE : BitVec 32 := 1

/-- `LINK_TRB_TOGGLE_CYCLE`. -/
def LINK_TRB_TOGGLE_CYCLE : BitVec 32 := 2

/-- `TRB_IOC`. -/
def TRB_IOC : BitVec 32 := 0x20

/-- `TRB_IDT`. -/
def TRB_IDT : BitVec 32 := 0x40

/-- `TRB_Type`. -/
def trbType (control : BitVec 32) : ℕ := ((control >>> 10) &&& 0x3f).toNat

/-- `TRB_SetType`. -/
def trbSetType (type : BitVec 32) : BitVec 32 := type <<< 10

/-- The type identifiers, `TRB_TYPE_..`. -/
def TRB_TYPE_SETUP_STAGE : BitVec 32 := 2
def TRB_TYPE_DATA_STAGE : BitVec 32 := 3
def TRB_TYPE_STATUS_STAGE : BitVec 32 := 4
def TRB_TYPE_LINK : BitVec 32 := 6
def TRB_TYPE_ENABLE_SLOT_CMD : BitVec 32 := 9
def TRB_TYPE_ADDRESS_DEV_CMD : BitVec 32 := 11
def TRB_TYPE_CMD_COMPLETION : BitVec 32 := 33
def TRB_TYPE_PORT_STATUS_CHG : BitVec 32 := 34

/-- The cycle bit for a cycle state, `cycle ? TRB_CYCLE : 0`. -/
def cycleWord (cycle : Bool) : BitVec 32 := if cycle then TRB_CYCLE else 0

/-- The cycle bit of a control word. -/
def cycleOf (control : BitVec 32) : Bool := decide (control &&& TRB_CYCLE = cycleWord true)

/-- `control & ~TRB_CYCLE`. -/
def withoutCycle (control : BitVec 32) : BitVec 32 := control &&& ~~~TRB_CYCLE

theorem getLsbD_cycle (i : ℕ) : TRB_CYCLE.getLsbD i = decide (i = 0) := by
  change (1#32).getLsbD i = _
  rw [BitVec.getLsbD_one]
  simp

theorem getLsbD_cycleWord (cycle : Bool) (i : ℕ) :
    (cycleWord cycle).getLsbD i = (cycle && decide (i = 0)) := by
  cases cycle
  · exact BitVec.getLsbD_zero
  · exact getLsbD_cycle i

theorem and_cycle_eq (control : BitVec 32) :
    control &&& TRB_CYCLE = cycleWord (control.getLsbD 0) := by
  apply BitVec.eq_of_getLsbD_eq
  intro i _
  rw [BitVec.getLsbD_and, getLsbD_cycle, getLsbD_cycleWord]
  rcases eq_or_ne i 0 with rfl | hne
  · rfl
  · rw [decide_eq_false hne, Bool.and_false, Bool.and_false]

theorem cycleOf_eq (control : BitVec 32) : cycleOf control = control.getLsbD 0 := by
  rw [cycleOf, and_cycle_eq]
  cases control.getLsbD 0 <;> rfl

/-- The test of `WaitEvent` compares the cycle bit with the cycle state. -/
theorem cycleOf_eq_iff (control : BitVec 32) (cycle : Bool) :
    cycleOf control = cycle ↔ control &&& TRB_CYCLE = cycleWord cycle := by
  rw [cycleOf_eq, and_cycle_eq]
  cases control.getLsbD 0 <;> cases cycle <;> decide

theorem getLsbD_withoutCycle (control : BitVec 32) {i : ℕ} :
    (withoutCycle control).getLsbD i = (control.getLsbD i && decide (i ≠ 0)) := by
  rcases Nat.lt_or_ge i 32 with hi | hi
  · rw [withoutCycle, BitVec.getLsbD_and, BitVec.getLsbD_not, getLsbD_cycle, decide_eq_true hi,
      Bool.true_and, ← decide_not]
  · rw [BitVec.getLsbD_of_ge _ _ hi, BitVec.getLsbD_of_ge _ _ hi, Bool.false_and]

theorem cycleOf_withoutCycle_or (control : BitVec 32) (cycle : Bool) :
    cycleOf (withoutCycle control ||| cycleWord cycle) = cycle := by
  rw [cycleOf_eq, BitVec.getLsbD_or, getLsbD_withoutCycle, getLsbD_cycleWord]
  simp

theorem withoutCycle_or (control : BitVec 32) (cycle : Bool) :
    withoutCycle (control ||| cycleWord cycle) = withoutCycle control := by
  apply BitVec.eq_of_getLsbD_eq
  intro i hi
  rw [getLsbD_withoutCycle, getLsbD_withoutCycle, BitVec.getLsbD_or, getLsbD_cycleWord]
  rcases Nat.eq_zero_or_pos i with rfl | hpos
  · simp
  · simp [hpos.ne']

theorem withoutCycle_withoutCycle (control : BitVec 32) :
    withoutCycle (withoutCycle control) = withoutCycle control := by
  apply BitVec.eq_of_getLsbD_eq
  intro i hi
  simp only [getLsbD_withoutCycle, Bool.and_assoc, Bool.and_self]

theorem withoutCycle_of_clear {control : BitVec 32} (h : cycleOf control = false) :
    withoutCycle control = control := by
  rw [cycleOf_eq] at h
  apply BitVec.eq_of_getLsbD_eq
  intro i hi
  rw [getLsbD_withoutCycle]
  rcases eq_or_ne i 0 with rfl | hne
  · rw [h, Bool.false_and]
  · rw [decide_eq_true hne, Bool.and_true]

theorem trbType_congr {control control' : BitVec 32}
    (h : withoutCycle control = withoutCycle control') : trbType control = trbType control' := by
  have hbits : control >>> 10 = control' >>> 10 := by
    apply BitVec.eq_of_getLsbD_eq
    intro i hi
    have hbit := congrArg (fun w ↦ BitVec.getLsbD w (10 + i)) h
    simpa [getLsbD_withoutCycle] using hbit
  rw [trbType, trbType, hbits]

theorem and_toggle_congr {control control' : BitVec 32}
    (h : withoutCycle control = withoutCycle control') :
    control &&& LINK_TRB_TOGGLE_CYCLE = control' &&& LINK_TRB_TOGGLE_CYCLE := by
  apply BitVec.eq_of_getLsbD_eq
  intro i hi
  have hbit := congrArg (fun w ↦ BitVec.getLsbD w i) h
  rw [getLsbD_withoutCycle, getLsbD_withoutCycle] at hbit
  rcases Nat.eq_zero_or_pos i with rfl | hpos
  · simp [LINK_TRB_TOGGLE_CYCLE]
  · simp only [hpos.ne', ne_eq, not_false_iff, decide_true, Bool.and_true] at hbit
    rw [BitVec.getLsbD_and, BitVec.getLsbD_and, hbit]

/-- An address from the two words in which it is stored. -/
theorem append_words (v : BitVec 64) : (v >>> 32).setWidth 32 ++ v.setWidth 32 = v := by
  apply BitVec.eq_of_getLsbD_eq
  intro i hi
  rw [BitVec.getLsbD_append]
  by_cases hlow : i < 32
  · simp [hlow]
  · rw [if_neg hlow]
    simp only [BitVec.getLsbD_setWidth, BitVec.getLsbD_ushiftRight,
      Nat.add_sub_cancel' (not_lt.mp hlow)]
    simp [show i - 32 < 32 by omega]

namespace TRB

/-- A block of `AllocAlignedZeroed` memory. -/
def zero : TRB := ⟨0, 0, 0, 0⟩

/-- The words of a block other than its control word. -/
inductive Word where
  | parameter0
  | parameter1
  | status
deriving DecidableEq

def set (t : TRB) : Word → BitVec 32 → TRB
  | .parameter0, v => { t with parameter0 := v }
  | .parameter1, v => { t with parameter1 := v }
  | .status, v => { t with status := v }

@[simp] theorem control_set (t : TRB) (w : Word) (v : BitVec 32) : (t.set w v).control = t.control := by
  cases w <;> rfl

def cycle (t : TRB) : Bool := cycleOf t.control

def type (t : TRB) : ℕ := trbType t.control

/-- The block apart from its cycle bit: what its writer says. -/
def payload (t : TRB) : TRB := { t with control := withoutCycle t.control }

/-- The block as it is stored with a cycle state, `control | (cycle ? TRB_CYCLE : 0)`. -/
def stored (t : TRB) (cycle : Bool) : TRB := { t with control := t.control ||| cycleWord cycle }

/-- A block that may be pushed: its cycle bit is left to the ring, and it is no
link. -/
def IsWork (t : TRB) : Prop :=
  t.cycle = false ∧ t.type ≠ TRB_TYPE_LINK.toNat

instance (t : TRB) : Decidable t.IsWork := inferInstanceAs (Decidable (_ ∧ _))

theorem cycle_stored_of_clear {t : TRB} (hclear : t.cycle = false) (cycle : Bool) :
    (t.stored cycle).cycle = cycle := by
  rw [TRB.cycle, stored, ← withoutCycle_of_clear hclear, cycleOf_withoutCycle_or]

theorem IsWork.cycle_stored {t : TRB} (h : t.IsWork) (cycle : Bool) :
    (t.stored cycle).cycle = cycle :=
  cycle_stored_of_clear h.1 cycle

theorem IsWork.payload_stored {t : TRB} (h : t.IsWork) (cycle : Bool) :
    (t.stored cycle).payload = t := by
  have hclear : withoutCycle t.control = t.control := withoutCycle_of_clear h.1
  rw [payload, stored]
  simp only [withoutCycle_or, hclear]

theorem type_payload (t : TRB) : t.payload.type = t.type :=
  trbType_congr (withoutCycle_withoutCycle t.control)

/-- The command that `ScanPorts` pushes for every connected port. -/
def enableSlot : TRB := ⟨0, 0, 0, trbSetType TRB_TYPE_ENABLE_SLOT_CMD⟩

/-- The command that `AddressDevice` pushes. -/
def addressDevice (slotId : BitVec 8) (inputPhys : BitVec 64) : TRB where
  parameter0 := inputPhys.setWidth 32
  parameter1 := (inputPhys >>> 32).setWidth 32
  status := 0
  control := trbSetType TRB_TYPE_ADDRESS_DEV_CMD ||| slotId.setWidth 32 <<< 24

/-- The three blocks that `ControlTransfer` pushes. -/
def setupStage (setupLo setupHi : BitVec 32) (trt : BitVec 2) : TRB :=
  ⟨setupLo, setupHi, 8, trbSetType TRB_TYPE_SETUP_STAGE ||| TRB_IDT ||| trt.setWidth 32 <<< 16⟩

def dataStage (bufPhys : BitVec 64) (len : BitVec 16) (dir : BitVec 1) : TRB where
  parameter0 := bufPhys.setWidth 32
  parameter1 := (bufPhys >>> 32).setWidth 32
  status := len.setWidth 32
  control := trbSetType TRB_TYPE_DATA_STAGE ||| dir.setWidth 32 <<< 16

def statusStage (dir : BitVec 1) : TRB :=
  ⟨0, 0, 0, trbSetType TRB_TYPE_STATUS_STAGE ||| TRB_IOC ||| dir.setWidth 32 <<< 16⟩

theorem isWork_enableSlot : enableSlot.IsWork := by decide

theorem isWork_setupStage (setupLo setupHi : BitVec 32) (trt : BitVec 2) :
    (setupStage setupLo setupHi trt).IsWork := by
  revert trt
  have h : ∀ trt : BitVec 2, (setupStage 0 0 trt).IsWork := by decide
  exact h

theorem isWork_dataStage (bufPhys : BitVec 64) (len : BitVec 16) (dir : BitVec 1) :
    (dataStage bufPhys len dir).IsWork := by
  revert dir
  have h : ∀ dir : BitVec 1, (dataStage 0 0 dir).IsWork := by decide
  exact h

theorem isWork_statusStage (dir : BitVec 1) : (statusStage dir).IsWork := by
  revert dir
  decide

theorem isWork_addressDevice (slotId : BitVec 8) (inputPhys : BitVec 64) :
    (addressDevice slotId inputPhys).IsWork := by
  revert slotId
  have h : ∀ slotId : BitVec 8, (addressDevice slotId 0).IsWork := by decide +kernel
  exact h

end TRB

end Usb
end MinOS
