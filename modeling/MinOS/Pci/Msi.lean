import MinOS.Pci.Scan

/-!
# Message signalled interrupts

`ConfigureMSI` follows the capability list of a function through the configuration ports, and
programs the last MSI capability of the list.  The list is as the hardware gives it, so the walk
may go round in a circle.
-/

namespace MinOS
namespace Pci

/-! ## The configuration ports -/

/-- `CONFIG_ADDRESS`, and the registers behind `CONFIG_DATA`, which keep what is written. -/
structure Ports where
  address : BitVec 32
  regs : BitVec 32 → BitVec 32

/-- Port accesses.  With too little fuel a walk is not over. -/
abbrev Access : Type → Type := StateT Ports Option

def writeAddress (address : BitVec 32) : Access Unit := modify fun p ↦ { p with address := address }

def writeData (data : BitVec 32) : Access Unit :=
  modify fun p ↦ { p with regs := Function.update p.regs p.address data }

def readData : Access (BitVec 32) := do
  let p ← get
  return p.regs p.address

def makeAddress (bus device function regAddr : BitVec 8) : BitVec 32 :=
  (1#32 <<< 31) ||| (bus.setWidth 32 <<< 16) ||| (device.setWidth 32 <<< 11) |||
    (function.setWidth 32 <<< 8) ||| (regAddr.setWidth 32 &&& 0xfc)

def readConfReg (dev : Device) (regAddr : BitVec 8) : Access (BitVec 32) := do
  writeAddress (makeAddress dev.bus dev.device dev.function regAddr)
  readData

def writeConfReg (dev : Device) (regAddr : BitVec 8) (value : BitVec 32) : Access Unit := do
  writeAddress (makeAddress dev.bus dev.device dev.function regAddr)
  writeData value

/-! ## Capabilities -/

/-- `CapabilityHeader`, with the bits of an MSI capability as well. -/
structure CapabilityHeader where
  data : BitVec 32
deriving DecidableEq

namespace CapabilityHeader

def capId (h : CapabilityHeader) : BitVec 8 := h.data.extractLsb' 0 8

def nextPtr (h : CapabilityHeader) : BitVec 8 := h.data.extractLsb' 8 8

def msiEnable (h : CapabilityHeader) : BitVec 1 := h.data.extractLsb' 16 1

def multiMsgCapable (h : CapabilityHeader) : BitVec 3 := h.data.extractLsb' 17 3

def multiMsgEnable (h : CapabilityHeader) : BitVec 3 := h.data.extractLsb' 20 3

def addr64Capable (h : CapabilityHeader) : Bool := h.data.getLsbD 23

def perVectorMaskCapable (h : CapabilityHeader) : Bool := h.data.getLsbD 24

/-- Assign to a bit field. -/
def setBits {w : ℕ} (h : CapabilityHeader) (shift : ℕ) (v : BitVec w) : CapabilityHeader :=
  ⟨(h.data &&& ~~~((BitVec.allOnes w).setWidth 32 <<< shift)) ||| (v.setWidth 32 <<< shift)⟩

end CapabilityHeader

def kCapabilityMSI : BitVec 8 := 0x05

def kCapabilityMSIX : BitVec 8 := 0x11

structure MSICapability where
  header : CapabilityHeader
  msgAddr : BitVec 32
  msgUpperAddr : BitVec 32
  msgData : BitVec 32
  maskBits : BitVec 32
  pendingBits : BitVec 32

/-- The register with the message data. -/
def msgDataAddr (capAddr : BitVec 8) (header : CapabilityHeader) : BitVec 8 :=
  if header.addr64Capable then capAddr + 12 else capAddr + 8

/-- A register that is there under a condition only; its field stays zero otherwise. -/
def readIf (present : Bool) (dev : Device) (regAddr : BitVec 8) : Access (BitVec 32) :=
  if present then readConfReg dev regAddr else pure 0

def writeIf (present : Bool) (dev : Device) (regAddr : BitVec 8) (value : BitVec 32) : Access Unit :=
  if present then writeConfReg dev regAddr value else pure ()

def readMSICapability (dev : Device) (capAddr : BitVec 8) : Access MSICapability := do
  let header := CapabilityHeader.mk (← readConfReg dev capAddr)
  let msgAddr ← readConfReg dev (capAddr + 4)
  let msgUpperAddr ← readIf header.addr64Capable dev (capAddr + 8)
  let msgData ← readConfReg dev (msgDataAddr capAddr header)
  let maskBits ← readIf header.perVectorMaskCapable dev (msgDataAddr capAddr header + 4)
  let pendingBits ← readIf header.perVectorMaskCapable dev (msgDataAddr capAddr header + 8)
  return ⟨header, msgAddr, msgUpperAddr, msgData, maskBits, pendingBits⟩

def writeMSICapability (dev : Device) (capAddr : BitVec 8) (cap : MSICapability) : Access Unit := do
  writeConfReg dev capAddr cap.header.data
  writeConfReg dev (capAddr + 4) cap.msgAddr
  writeIf cap.header.addr64Capable dev (capAddr + 8) cap.msgUpperAddr
  writeConfReg dev (msgDataAddr capAddr cap.header) cap.msgData
  writeIf cap.header.perVectorMaskCapable dev (msgDataAddr capAddr cap.header + 4) cap.maskBits
  writeIf cap.header.perVectorMaskCapable dev (msgDataAddr capAddr cap.header + 8) cap.pendingBits

/-- The errors of `ConfigureMSI`. -/
inductive MSIError where
  | kNotImplemented
  | kNoPCIMSI
deriving DecidableEq, Repr

/-- The header that `ConfigureMSIRegister` writes. -/
def enabledHeader (header : CapabilityHeader) (numVectorExponent : BitVec 32) : CapabilityHeader :=
  let header :=
    if header.multiMsgCapable.setWidth 32 ≤ numVectorExponent then
      header.setBits 20 header.multiMsgCapable
    else header.setBits 20 (numVectorExponent.setWidth 3)
  header.setBits 16 1#1

def configureMSIRegister (dev : Device) (capAddr : BitVec 8)
    (msgAddr msgData numVectorExponent : BitVec 32) : Access (Except MSIError Unit) := do
  let cap ← readMSICapability dev capAddr
  writeMSICapability dev capAddr
    { cap with
      header := enabledHeader cap.header numVectorExponent
      msgAddr := msgAddr
      msgData := msgData }
  return .ok ()

/-- The loop of `ConfigureMSI`: `msi_cap_addr` and `msix_cap_addr` at its end. -/
def findCapabilities (dev : Device) : ℕ → BitVec 8 → BitVec 8 → BitVec 8 →
    Access (BitVec 8 × BitVec 8)
  | 0, _, _, _ => fun _ ↦ none
  | fuel + 1, capAddr, msiCapAddr, msixCapAddr => do
      if capAddr = 0 then return (msiCapAddr, msixCapAddr)
      let header := CapabilityHeader.mk (← readConfReg dev capAddr)
      if header.capId = kCapabilityMSI then
        findCapabilities dev fuel header.nextPtr capAddr msixCapAddr
      else if header.capId = kCapabilityMSIX then
        findCapabilities dev fuel header.nextPtr msiCapAddr capAddr
      else findCapabilities dev fuel header.nextPtr msiCapAddr msixCapAddr

/-- `ConfigureMSI`; `ConfigureMSIXRegister` is not implemented. -/
def configureMSI (fuel : ℕ) (dev : Device) (msgAddr msgData numVectorExponent : BitVec 32) :
    Access (Except MSIError Unit) := do
  let capAddr := ((← readConfReg dev 0x34) &&& 0xff).setWidth 8
  let (msiCapAddr, msixCapAddr) ← findCapabilities dev fuel capAddr 0 0
  if msiCapAddr ≠ 0 then configureMSIRegister dev msiCapAddr msgAddr msgData numVectorExponent
  else if msixCapAddr ≠ 0 then return .error .kNotImplemented
  else return .error .kNoPCIMSI

inductive MSITriggerMode where
  | kEdge
  | kLevel
deriving DecidableEq, Repr

inductive MSIDeliveryMode where
  | kFixed
  | kLowestPriority
  | kSMI
  | kNMI
  | kINIT
  | kExtINT
deriving DecidableEq, Repr

def MSIDeliveryMode.value : MSIDeliveryMode → BitVec 32
  | kFixed => 0b000
  | kLowestPriority => 0b001
  | kSMI => 0b010
  | kNMI => 0b100
  | kINIT => 0b101
  | kExtINT => 0b111

def messageAddr (apicId : BitVec 8) : BitVec 32 := 0xfee00000 ||| (apicId.setWidth 32 <<< 12)

def messageData (triggerMode : MSITriggerMode) (deliveryMode : MSIDeliveryMode) (vector : BitVec 8) :
    BitVec 32 :=
  let msgData := (deliveryMode.value <<< 8) ||| vector.setWidth 32
  if triggerMode = .kLevel then msgData ||| 0xc000 else msgData

def configureMSIFixedDestination (fuel : ℕ) (dev : Device) (apicId : BitVec 8)
    (triggerMode : MSITriggerMode) (deliveryMode : MSIDeliveryMode) (vector : BitVec 8)
    (numVectorExponent : BitVec 32) : Access (Except MSIError Unit) :=
  configureMSI fuel dev (messageAddr apicId) (messageData triggerMode deliveryMode vector)
    numVectorExponent

/-! ## What a message means -/

def deliveryModeOf (field : BitVec 3) : Option MSIDeliveryMode :=
  match field with
  | 0b000 => some .kFixed
  | 0b001 => some .kLowestPriority
  | 0b010 => some .kSMI
  | 0b100 => some .kNMI
  | 0b101 => some .kINIT
  | 0b111 => some .kExtINT
  | _ => none

structure Interrupt where
  destination : BitVec 8
  vector : BitVec 8
  deliveryMode : MSIDeliveryMode
  triggerMode : MSITriggerMode
deriving DecidableEq

/-- What the local APICs make of a message to a physical destination.  Their addresses lie below
4 GiB. -/
def interruptOf (msgUpperAddr msgAddr msgData : BitVec 32) : Option Interrupt :=
  if msgUpperAddr = 0 ∧ msgAddr.extractLsb' 20 12 = 0xfee ∧ msgAddr.extractLsb' 2 2 = 0 then
    (deliveryModeOf (msgData.extractLsb' 8 3)).map fun deliveryMode ↦
      ⟨msgAddr.extractLsb' 12 8, msgData.extractLsb' 0 8, deliveryMode,
        if msgData.getLsbD 15 then .kLevel else .kEdge⟩
  else none

theorem interruptOf_message (apicId : BitVec 8) (triggerMode : MSITriggerMode)
    (deliveryMode : MSIDeliveryMode) (vector : BitVec 8) :
    interruptOf 0 (messageAddr apicId) (messageData triggerMode deliveryMode vector) =
      some ⟨apicId, vector, deliveryMode, triggerMode⟩ := by
  have hprefix : (messageAddr apicId).extractLsb' 20 12 = 0xfee := by
    ext i hi
    interval_cases i <;> simp [messageAddr]
  have hphysical : (messageAddr apicId).extractLsb' 2 2 = 0 := by
    ext i hi
    interval_cases i <;> simp [messageAddr]
  have hdestination : (messageAddr apicId).extractLsb' 12 8 = apicId := by
    ext i hi
    interval_cases i <;> simp [messageAddr]
  have hmode : (messageData triggerMode deliveryMode vector).extractLsb' 8 3 =
      deliveryMode.value.setWidth 3 := by
    ext i hi
    cases triggerMode <;> interval_cases i <;> simp [messageData]
  have hvector : (messageData triggerMode deliveryMode vector).extractLsb' 0 8 = vector := by
    ext i hi
    cases triggerMode <;> interval_cases i <;> simp [messageData]
  have htrigger : (messageData triggerMode deliveryMode vector).getLsbD 15 =
      decide (triggerMode = .kLevel) := by
    cases triggerMode <;> cases deliveryMode <;> simp [messageData, MSIDeliveryMode.value]
  rw [interruptOf, if_pos ⟨rfl, hprefix, hphysical⟩, hdestination, hmode, hvector, htrigger]
  cases deliveryMode <;> cases triggerMode <;> rfl

/-! ## Register addresses -/

theorem getElem_of_lt {x : BitVec 8} {k : ℕ} (hx : x.toNat < 2 ^ k) {i : ℕ} (hk : k ≤ i)
    (hi : i < 8) : x[i] = false := by
  rw [← BitVec.getLsbD_eq_getElem, ← BitVec.testBit_toNat]
  exact Nat.testBit_lt_two_pow (hx.trans_le (Nat.pow_le_pow_right (by decide) hk))

theorem register_makeAddress (bus device function r : BitVec 8) :
    (makeAddress bus device function r).extractLsb' 0 8 = r &&& 0xfc := by
  ext i hi
  interval_cases i <;> simp [makeAddress]

theorem location_makeAddress (bus r : BitVec 8) {device function : BitVec 8}
    (hdevice : device < 32) (hfunction : function < 8) :
    (makeAddress bus device function r).extractLsb' 8 3 = function.setWidth 3 ∧
      (makeAddress bus device function r).extractLsb' 11 5 = device.setWidth 5 ∧
        (makeAddress bus device function r).extractLsb' 16 8 = bus := by
  have hd : ∀ i (hi : i < 8), 5 ≤ i → device[i] = false := fun i hi hk ↦
    getElem_of_lt (BitVec.lt_def.mp hdevice) hk hi
  have hf : ∀ i (hi : i < 8), 3 ≤ i → function[i] = false := fun i hi hk ↦
    getElem_of_lt (BitVec.lt_def.mp hfunction) hk hi
  refine ⟨?_, ?_, ?_⟩
  · ext i hi
    interval_cases i <;> simp [makeAddress]
  · ext i hi
    interval_cases i <;> simp [makeAddress, hf]
  · ext i hi
    interval_cases i <;> simp [makeAddress, hd]

/-- Different functions have different registers. -/
theorem location_eq_of_makeAddress {f g : Location} {r r' : BitVec 8} (hf : f.device < 32)
    (hf' : f.function < 8) (hg : g.device < 32) (hg' : g.function < 8)
    (h : makeAddress f.bus f.device f.function r = makeAddress g.bus g.device g.function r') :
    f = g := by
  obtain ⟨hfunction, hdevice, hbus⟩ := location_makeAddress f.bus r hf hf'
  obtain ⟨hfunction', hdevice', hbus'⟩ := location_makeAddress g.bus r' hg hg'
  rw [h] at hfunction hdevice hbus
  have hfun : f.function = g.function := by
    have heq := congrArg BitVec.toNat (hfunction.symm.trans hfunction')
    rw [BitVec.toNat_setWidth, BitVec.toNat_setWidth] at heq
    have hlt := BitVec.lt_def.mp hf'
    have hlt' := BitVec.lt_def.mp hg'
    change f.function.toNat < 8 at hlt
    change g.function.toNat < 8 at hlt'
    exact BitVec.eq_of_toNat_eq (by omega)
  have hdev : f.device = g.device := by
    have heq := congrArg BitVec.toNat (hdevice.symm.trans hdevice')
    rw [BitVec.toNat_setWidth, BitVec.toNat_setWidth] at heq
    have hlt := BitVec.lt_def.mp hf
    have hlt' := BitVec.lt_def.mp hg
    change f.device.toNat < 32 at hlt
    change g.device.toNat < 32 at hlt'
    exact BitVec.eq_of_toNat_eq (by omega)
  cases f
  cases g
  simp_all

theorem toNat_register (r : BitVec 8) : (r &&& 0xfc).toNat = r.toNat / 4 * 4 := by
  revert r
  decide

/-- The address of a register of a device. -/
def Device.reg (dev : Device) (r : BitVec 8) : BitVec 32 :=
  makeAddress dev.bus dev.device dev.function r

variable {dev : Device}

/-- The double words behind a capability are different registers. -/
theorem reg_add_ne {a b c : BitVec 8} (hb : b.toNat % 4 = 0) (hc : c.toNat % 4 = 0) (hne : b ≠ c) :
    dev.reg (a + b) ≠ dev.reg (a + c) := by
  intro h
  have hregister := congrArg (BitVec.extractLsb' 0 8) h
  rw [Device.reg, Device.reg, register_makeAddress, register_makeAddress] at hregister
  have heq := congrArg BitVec.toNat hregister
  rw [toNat_register, toNat_register, BitVec.toNat_add, BitVec.toNat_add] at heq
  exact hne (BitVec.eq_of_toNat_eq (by omega))

/-! ## What the accesses do -/

/-- The access comes back with a value, and leaves these registers. -/
def Returns {α : Type} (x : Access α) (regs : BitVec 32 → BitVec 32) (a : α)
    (regs' : BitVec 32 → BitVec 32) : Prop :=
  ∀ p : Ports, p.regs = regs → ∃ p', x p = some (a, p') ∧ p'.regs = regs'

section Returns

variable {α β : Type} {x : Access α} {f : α → Access β} {a : α} {b : β}
  {regs regs' regs'' : BitVec 32 → BitVec 32}

theorem returns_pure (a : α) (regs : BitVec 32 → BitVec 32) :
    Returns (pure a : Access α) regs a regs :=
  fun p hp ↦ ⟨p, rfl, hp⟩

theorem bind_eq {p p₁ : Ports} (h : x p = some (a, p₁)) : (x >>= f) p = f a p₁ := by
  change (x p).bind _ = _
  rw [h]
  rfl

theorem Returns.bind (hx : Returns x regs a regs') (hf : Returns (f a) regs' b regs'') :
    Returns (x >>= f) regs b regs'' := by
  intro p hp
  obtain ⟨p₁, hfirst, hp₁⟩ := hx p hp
  obtain ⟨p₂, hsecond, hp₂⟩ := hf p₁ hp₁
  exact ⟨p₂, (bind_eq hfirst).trans hsecond, hp₂⟩

theorem returns_readConfReg (regs : BitVec 32 → BitVec 32) (dev : Device) (r : BitVec 8) :
    Returns (readConfReg dev r) regs (regs (dev.reg r)) regs := by
  rintro p rfl
  exact ⟨{ p with address := dev.reg r }, rfl, rfl⟩

theorem returns_writeConfReg (regs : BitVec 32 → BitVec 32) (dev : Device) (r : BitVec 8)
    (v : BitVec 32) :
    Returns (writeConfReg dev r v) regs () (Function.update regs (dev.reg r) v) := by
  rintro p rfl
  exact ⟨_, rfl, rfl⟩

theorem returns_readIf (regs : BitVec 32 → BitVec 32) (present : Bool) (dev : Device) (r : BitVec 8) :
    Returns (readIf present dev r) regs (if present then regs (dev.reg r) else 0) regs := by
  rw [readIf]
  split_ifs
  · exact returns_readConfReg regs dev r
  · exact returns_pure 0 regs

/-- A register that is written as it was read stays as it is. -/
theorem returns_writeIf {present : Bool} {dev : Device} {r : BitVec 8} {v : BitVec 32}
    (hv : present → regs (dev.reg r) = v) : Returns (writeIf present dev r v) regs () regs := by
  rw [writeIf]
  split_ifs with hpresent
  · have hsame := returns_writeConfReg regs dev r (regs (dev.reg r))
    rwa [Function.update_eq_self, hv hpresent] at hsame
  · exact returns_pure () regs

end Returns

/-- The header of a capability. -/
def headerAt (regs : BitVec 32 → BitVec 32) (dev : Device) (capAddr : BitVec 8) : CapabilityHeader :=
  ⟨regs (dev.reg capAddr)⟩

/-- What `ReadMSICapability` reads. -/
def capabilityAt (regs : BitVec 32 → BitVec 32) (dev : Device) (a : BitVec 8) : MSICapability :=
  let h := headerAt regs dev a
  { header := h
    msgAddr := regs (dev.reg (a + 4))
    msgUpperAddr := if h.addr64Capable then regs (dev.reg (a + 8)) else 0
    msgData := regs (dev.reg (msgDataAddr a h))
    maskBits := if h.perVectorMaskCapable then regs (dev.reg (msgDataAddr a h + 4)) else 0
    pendingBits := if h.perVectorMaskCapable then regs (dev.reg (msgDataAddr a h + 8)) else 0 }

variable {regs : BitVec 32 → BitVec 32} {a : BitVec 8}

theorem returns_readMSICapability (regs : BitVec 32 → BitVec 32) (dev : Device) (a : BitVec 8) :
    Returns (readMSICapability dev a) regs (capabilityAt regs dev a) regs := by
  refine (returns_readConfReg regs dev a).bind ?_
  refine (returns_readConfReg regs dev (a + 4)).bind ?_
  refine (returns_readIf regs (headerAt regs dev a).addr64Capable dev (a + 8)).bind ?_
  refine (returns_readConfReg regs dev (msgDataAddr a (headerAt regs dev a))).bind ?_
  refine (returns_readIf regs (headerAt regs dev a).perVectorMaskCapable dev _).bind ?_
  refine (returns_readIf regs (headerAt regs dev a).perVectorMaskCapable dev _).bind ?_
  exact returns_pure _ regs

/-! ## Programming a capability -/

theorem getLsbD_setBits {w : ℕ} (h : CapabilityHeader) (shift : ℕ) (v : BitVec w) {i : ℕ}
    (hi : i < shift ∨ shift + w ≤ i) : (h.setBits shift v).data.getLsbD i = h.data.getLsbD i := by
  simp only [CapabilityHeader.setBits, BitVec.getLsbD_or, BitVec.getLsbD_and, BitVec.getLsbD_not,
    BitVec.getLsbD_shiftLeft, BitVec.getLsbD_setWidth, BitVec.getLsbD_allOnes]
  by_cases h32 : i < 32
  · rcases hi with hlow | hhigh
    · simp [hlow, h32]
    · have hv : v.getLsbD (i - shift) = false := BitVec.getLsbD_of_ge _ _ (by omega)
      simp [h32, hv, show ¬ i - shift < w by omega]
  · simp [h32, BitVec.getLsbD_of_ge h.data i (by omega)]

theorem extract_setBits {w : ℕ} (h : CapabilityHeader) (shift : ℕ) (v : BitVec w)
    (hshift : shift + w ≤ 32) : (h.setBits shift v).data.extractLsb' shift w = v := by
  ext i hi
  have h32 : shift + i < 32 := by omega
  simp [CapabilityHeader.setBits, hi, h32]

/-- The fields of the header that `ConfigureMSIRegister` writes. -/
theorem enabledHeader_correct (h : CapabilityHeader) (e : BitVec 32) :
    (enabledHeader h e).msiEnable = 1 ∧
      (enabledHeader h e).multiMsgEnable.toNat = min h.multiMsgCapable.toNat e.toNat ∧
        ∀ i, i ≠ 16 → i < 20 ∨ 23 ≤ i →
          (enabledHeader h e).data.getLsbD i = h.data.getLsbD i := by
  obtain ⟨v, hv, hmin⟩ : ∃ v : BitVec 3, enabledHeader h e = (h.setBits 20 v).setBits 16 1#1 ∧
      v.toNat = min h.multiMsgCapable.toNat e.toNat := by
    have hcapable := h.multiMsgCapable.isLt
    rw [enabledHeader]
    split_ifs with hle
    · refine ⟨_, rfl, ?_⟩
      rw [BitVec.le_def, BitVec.toNat_setWidth] at hle
      omega
    · refine ⟨_, rfl, ?_⟩
      rw [BitVec.le_def, BitVec.toNat_setWidth] at hle
      rw [BitVec.toNat_setWidth]
      omega
  rw [hv]
  refine ⟨extract_setBits _ 16 1#1 (by decide), ?_, fun i h16 hi ↦ ?_⟩
  · have hfield : ((h.setBits 20 v).setBits 16 1#1).multiMsgEnable =
        (h.setBits 20 v).multiMsgEnable := by
      ext i hi
      rw [CapabilityHeader.multiMsgEnable, CapabilityHeader.multiMsgEnable,
        BitVec.getElem_extractLsb', BitVec.getElem_extractLsb']
      exact getLsbD_setBits _ 16 1#1 (.inr (by omega))
    have hv' : (h.setBits 20 v).multiMsgEnable = v := extract_setBits h 20 v (by decide)
    rw [hfield, hv', hmin]
  · rw [getLsbD_setBits _ 16 1#1 (by omega), getLsbD_setBits _ 20 v (by omega)]

theorem msgDataAddr_enabledHeader (a : BitVec 8) (h : CapabilityHeader) (e : BitVec 32) :
    msgDataAddr a (enabledHeader h e) = msgDataAddr a h := by
  have hbit := (enabledHeader_correct h e).2.2 23 (by decide) (by decide)
  rw [msgDataAddr, msgDataAddr, CapabilityHeader.addr64Capable, hbit]
  rfl

/-- The registers after `ConfigureMSIRegister`. -/
def programmed (regs : BitVec 32 → BitVec 32) (dev : Device) (a : BitVec 8)
    (msgAddr msgData numVectorExponent : BitVec 32) : BitVec 32 → BitVec 32 :=
  let h := headerAt regs dev a
  Function.update (Function.update (Function.update regs (dev.reg a)
    (enabledHeader h numVectorExponent).data) (dev.reg (a + 4)) msgAddr)
      (dev.reg (msgDataAddr a h)) msgData

/-- The offset of the message data. -/
def dataOffset (h : CapabilityHeader) : BitVec 8 := if h.addr64Capable then 12 else 8

theorem msgDataAddr_eq (a : BitVec 8) (h : CapabilityHeader) :
    msgDataAddr a h = a + dataOffset h := by
  rw [msgDataAddr, dataOffset]
  split_ifs <;> rfl

/-- A register of the capability that is not written. -/
theorem programmed_of_ne {msgAddr msgData e : BitVec 32} {r : BitVec 32} (h₀ : r ≠ dev.reg a)
    (h₁ : r ≠ dev.reg (a + 4)) (h₂ : r ≠ dev.reg (msgDataAddr a (headerAt regs dev a))) :
    programmed regs dev a msgAddr msgData e r = regs r := by
  rw [programmed, Function.update_of_ne h₂, Function.update_of_ne h₁, Function.update_of_ne h₀]

theorem reg_ne_add {b : BitVec 8} (hb : b.toNat % 4 = 0) (hne : b ≠ 0) :
    dev.reg (a + b) ≠ dev.reg a := by
  have hzero : a + 0 = a := BitVec.add_zero a
  have h : dev.reg (a + b) ≠ dev.reg (a + 0) := reg_add_ne hb (by decide) hne
  rwa [hzero] at h

theorem returns_configureMSIRegister (regs : BitVec 32 → BitVec 32) (dev : Device) (a : BitVec 8)
    (msgAddr msgData e : BitVec 32) :
    Returns (configureMSIRegister dev a msgAddr msgData e) regs (.ok ())
      (programmed regs dev a msgAddr msgData e) := by
  obtain ⟨h, hh⟩ : ∃ h, h = headerAt regs dev a := ⟨_, rfl⟩
  have h64 : (enabledHeader h e).addr64Capable = h.addr64Capable :=
    (enabledHeader_correct h e).2.2 23 (by decide) (by decide)
  have hmask : (enabledHeader h e).perVectorMaskCapable = h.perVectorMaskCapable :=
    (enabledHeader_correct h e).2.2 24 (by decide) (by decide)
  refine (returns_readMSICapability regs dev a).bind ?_
  suffices hwrite : Returns (writeMSICapability dev a { capabilityAt regs dev a with
      header := enabledHeader (headerAt regs dev a) e
      msgAddr := msgAddr
      msgData := msgData }) regs () (programmed regs dev a msgAddr msgData e) from
    hwrite.bind (returns_pure _ _)
  rw [writeMSICapability]
  dsimp only [capabilityAt]
  rw [← hh, h64, hmask, msgDataAddr_enabledHeader]
  refine (returns_writeConfReg regs dev a _).bind ?_
  refine (returns_writeConfReg _ dev (a + 4) _).bind ?_
  refine (returns_writeIf fun hwide ↦ ?_).bind ?_
  · rw [if_pos hwide, Function.update_of_ne (reg_add_ne (by decide) (by decide) (by decide)),
      Function.update_of_ne (reg_ne_add (by decide) (by decide))]
  refine (returns_writeConfReg _ dev (msgDataAddr a h) _).bind ?_
  have hlast : ∀ b : BitVec 8, b = 4 ∨ b = 8 →
      programmed regs dev a msgAddr msgData e (dev.reg (msgDataAddr a h + b)) =
        regs (dev.reg (msgDataAddr a h + b)) := by
    intro b hb
    have hoffset : msgDataAddr a h + b = a + (dataOffset h + b) := by
      rw [msgDataAddr_eq, BitVec.add_assoc]
    rw [hoffset]
    refine programmed_of_ne ?_ ?_ ?_
    · rw [dataOffset]
      rcases hb with rfl | rfl <;> split_ifs <;> exact reg_ne_add (by decide) (by decide)
    · rw [dataOffset]
      rcases hb with rfl | rfl <;> split_ifs <;>
        exact reg_add_ne (by decide) (by decide) (by decide)
    · rw [← hh, msgDataAddr_eq, dataOffset]
      rcases hb with rfl | rfl <;> split_ifs <;>
        exact reg_add_ne (by decide) (by decide) (by decide)
  have hprogrammed : programmed regs dev a msgAddr msgData e = Function.update (Function.update
      (Function.update regs (dev.reg a) (enabledHeader h e).data) (dev.reg (a + 4)) msgAddr)
        (dev.reg (msgDataAddr a h)) msgData := by
    rw [programmed, ← hh]
  rw [← hprogrammed]
  refine (returns_writeIf fun hpresent ↦ ?_).bind (returns_writeIf fun hpresent ↦ ?_)
  · rw [if_pos hpresent, hlast 4 (.inl rfl)]
  · rw [if_pos hpresent, hlast 8 (.inr rfl)]

/-! ## The capability list -/

/-- The capabilities from an address on, up to the end of the list. -/
inductive Capabilities (regs : BitVec 32 → BitVec 32) (dev : Device) :
    BitVec 8 → List (BitVec 8) → Prop where
  | nil : Capabilities regs dev 0 []
  | cons {a : BitVec 8} {caps : List (BitVec 8)} (hne : a ≠ 0)
      (hrest : Capabilities regs dev (headerAt regs dev a).nextPtr caps) :
      Capabilities regs dev a (a :: caps)

/-- The last capability with an identifier. -/
def lastCapability (regs : BitVec 32 → BitVec 32) (dev : Device) (capId : BitVec 8)
    (caps : List (BitVec 8)) : Option (BitVec 8) :=
  (caps.filter fun a ↦ (headerAt regs dev a).capId = capId).getLast?

theorem Capabilities.ne_zero {b : BitVec 8} {caps : List (BitVec 8)}
    (h : Capabilities regs dev a caps) (hb : b ∈ caps) : b ≠ 0 := by
  induction h with
  | nil => cases hb
  | cons hne hrest ih =>
      rcases List.mem_cons.mp hb with rfl | hb
      · exact hne
      · exact ih hb

theorem lastCapability_ne_zero {capId b : BitVec 8} {caps : List (BitVec 8)}
    (h : Capabilities regs dev a caps) (hb : lastCapability regs dev capId caps = some b) :
    b ≠ 0 :=
  h.ne_zero (List.mem_of_mem_filter (List.mem_of_getLast? hb))

theorem lastCapability_cons (capId a : BitVec 8) (caps : List (BitVec 8)) (d : BitVec 8) :
    (lastCapability regs dev capId (a :: caps)).getD d =
      (lastCapability regs dev capId caps).getD
        (if (headerAt regs dev a).capId = capId then a else d) := by
  rw [lastCapability, lastCapability, List.filter_cons]
  split_ifs with h h' h'
  · rw [List.getLast?_cons, Option.getD_some]
  · exact absurd (by simpa using h) h'
  · exact absurd (by simpa using h') h
  · rfl

/-- The loop finds the last capabilities of a list that ends. -/
theorem Capabilities.returns {caps : List (BitVec 8)} (h : Capabilities regs dev a caps) :
    ∀ {fuel : ℕ} (msi msix : BitVec 8), caps.length < fuel →
      Returns (findCapabilities dev fuel a msi msix) regs
        ((lastCapability regs dev kCapabilityMSI caps).getD msi,
          (lastCapability regs dev kCapabilityMSIX caps).getD msix) regs := by
  induction h with
  | nil =>
      intro fuel msi msix hfuel
      cases fuel with
      | zero => cases hfuel
      | succ fuel => exact returns_pure _ regs
  | @cons a caps hne hrest ih =>
      intro fuel msi msix hfuel
      cases fuel with
      | zero => cases hfuel
      | succ fuel =>
          have hlt : caps.length < fuel := Nat.lt_of_succ_lt_succ hfuel
          rw [findCapabilities, if_neg hne, lastCapability_cons, lastCapability_cons]
          refine (returns_readConfReg regs dev a).bind ?_
          change Returns (if (headerAt regs dev a).capId = kCapabilityMSI then _
            else if (headerAt regs dev a).capId = kCapabilityMSIX then _ else _) _ _ _
          split_ifs with hmsi hmsix hmsix
          · rw [hmsi] at hmsix
            cases hmsix
          · exact ih a msix hlt
          · exact ih msi a hlt
          · exact ih msi msix hlt

/-- The loop ends only on a list that ends. -/
theorem exists_of_findCapabilities {fuel : ℕ} : ∀ {a msi msix : BitVec 8} {p p' : Ports}
    {r : BitVec 8 × BitVec 8}, findCapabilities dev fuel a msi msix p = some (r, p') →
      ∃ caps, Capabilities p.regs dev a caps ∧ caps.length < fuel := by
  induction fuel with
  | zero =>
      intro a msi msix p p' r h
      cases h
  | succ fuel ih =>
      intro a msi msix p p' r h
      by_cases hzero : a = 0
      · exact ⟨[], hzero ▸ .nil, Nat.succ_pos fuel⟩
      · rw [findCapabilities, if_neg hzero] at h
        obtain ⟨p₁, hread, hp₁⟩ := returns_readConfReg p.regs dev a p rfl
        have hnext : ∃ msi' msix', findCapabilities dev fuel (headerAt p.regs dev a).nextPtr msi' msix'
            p₁ = some (r, p') := by
          rw [bind_eq hread] at h
          change (if (headerAt p.regs dev a).capId = kCapabilityMSI then _
            else if (headerAt p.regs dev a).capId = kCapabilityMSIX then _ else _ : Access _) p₁ = _ at h
          split_ifs at h
          · exact ⟨_, _, h⟩
          · exact ⟨_, _, h⟩
          · exact ⟨_, _, h⟩
        obtain ⟨msi', msix', hrest⟩ := hnext
        obtain ⟨caps, hcaps, hlen⟩ := ih hrest
        rw [hp₁] at hcaps
        exact ⟨a :: caps, .cons hzero hcaps, Nat.succ_lt_succ hlen⟩

/-- Where the capability list of a function begins. -/
def capabilitiesPointer (regs : BitVec 32 → BitVec 32) (dev : Device) : BitVec 8 :=
  (regs (dev.reg 0x34) &&& 0xff).setWidth 8

/-- What `ConfigureMSI` makes of a capability list. -/
def configured (regs : BitVec 32 → BitVec 32) (dev : Device) (caps : List (BitVec 8))
    (msgAddr msgData numVectorExponent : BitVec 32) :
    Except MSIError Unit × (BitVec 32 → BitVec 32) :=
  match lastCapability regs dev kCapabilityMSI caps,
      lastCapability regs dev kCapabilityMSIX caps with
  | some a, _ => (.ok (), programmed regs dev a msgAddr msgData numVectorExponent)
  | none, some _ => (.error .kNotImplemented, regs)
  | none, none => (.error .kNoPCIMSI, regs)

theorem returns_configureMSI {caps : List (BitVec 8)} {fuel : ℕ} {msgAddr msgData e : BitVec 32}
    (h : Capabilities regs dev (capabilitiesPointer regs dev) caps) (hfuel : caps.length < fuel) :
    Returns (configureMSI fuel dev msgAddr msgData e) regs
      (configured regs dev caps msgAddr msgData e).1
      (configured regs dev caps msgAddr msgData e).2 := by
  refine (returns_readConfReg regs dev 0x34).bind ?_
  refine (h.returns 0 0 hfuel).bind ?_
  rw [configured]
  cases hmsi : lastCapability regs dev kCapabilityMSI caps with
  | some b =>
      dsimp only [Option.getD_some]
      rw [if_pos (lastCapability_ne_zero h hmsi)]
      exact returns_configureMSIRegister regs dev b msgAddr msgData e
  | none =>
      cases hmsix : lastCapability regs dev kCapabilityMSIX caps with
      | some c =>
          have hne := lastCapability_ne_zero h hmsix
          dsimp only [Option.getD_some, Option.getD_none]
          rw [if_neg (fun hzero ↦ hzero rfl), if_pos hne]
          exact returns_pure _ regs
      | none =>
          dsimp only [Option.getD_none]
          rw [if_neg (fun hzero ↦ hzero rfl), if_neg (fun hzero ↦ hzero rfl)]
          exact returns_pure _ regs

theorem exists_of_configureMSI {fuel : ℕ} {msgAddr msgData e : BitVec 32} {p p' : Ports}
    {r : Except MSIError Unit} (h : configureMSI fuel dev msgAddr msgData e p = some (r, p')) :
    ∃ caps, Capabilities p.regs dev (capabilitiesPointer p.regs dev) caps ∧
      (r, p'.regs) = configured p.regs dev caps msgAddr msgData e := by
  obtain ⟨p₁, hread, hp₁⟩ := returns_readConfReg p.regs dev 0x34 p rfl
  have hfind : ∃ r' p₂, findCapabilities dev fuel (capabilitiesPointer p.regs dev) 0 0 p₁ =
      some (r', p₂) := by
    rw [configureMSI, bind_eq hread] at h
    obtain ⟨⟨r', p₂⟩, hfind, -⟩ := Option.bind_eq_some_iff.mp h
    exact ⟨r', p₂, hfind⟩
  obtain ⟨r', p₂, hfind⟩ := hfind
  obtain ⟨caps, hcaps, hlen⟩ := exists_of_findCapabilities hfind
  rw [hp₁] at hcaps
  have hall : Returns (configureMSI fuel dev msgAddr msgData e) p.regs _ _ :=
    returns_configureMSI hcaps hlen
  obtain ⟨p₃, hreturns, hp₃⟩ := hall p rfl
  obtain ⟨rfl, rfl⟩ := Prod.mk.inj (Option.some.inj (h.symm.trans hreturns))
  exact ⟨caps, hcaps, Prod.ext rfl hp₃⟩

/-! ## Setting up an interrupt -/

def Device.location (dev : Device) : Location := ⟨dev.bus, dev.device, dev.function⟩

/-- The upper half of the message address, if the capability has one. -/
def upperAddrAt (regs : BitVec 32 → BitVec 32) (dev : Device) (a : BitVec 8) : BitVec 32 :=
  (capabilityAt regs dev a).msgUpperAddr

/-- The capability at `a` is enabled for an interrupt, with as many vectors as are offered and
asked for; nothing else has changed. -/
structure Programmed (regs regs' : BitVec 32 → BitVec 32) (dev : Device) (a : BitVec 8)
    (interrupt : Interrupt) (numVectorExponent : BitVec 32) : Prop where
  enabled : (headerAt regs' dev a).msiEnable = 1
  vectors : (headerAt regs' dev a).multiMsgEnable.toNat =
    min (headerAt regs dev a).multiMsgCapable.toNat numVectorExponent.toNat
  header : ∀ i, i ≠ 16 → i < 20 ∨ 23 ≤ i →
    (headerAt regs' dev a).data.getLsbD i = (headerAt regs dev a).data.getLsbD i
  message : upperAddrAt regs dev a = 0 →
    interruptOf (upperAddrAt regs' dev a) (regs' (dev.reg (a + 4)))
      (regs' (dev.reg (msgDataAddr a (headerAt regs' dev a)))) = some interrupt
  registers : ∀ r, r ≠ dev.reg a → r ≠ dev.reg (a + 4) →
    r ≠ dev.reg (msgDataAddr a (headerAt regs dev a)) → regs' r = regs r

theorem programmed_correct (regs : BitVec 32 → BitVec 32) (dev : Device) (a apicId : BitVec 8)
    (triggerMode : MSITriggerMode) (deliveryMode : MSIDeliveryMode) (vector : BitVec 8)
    (e : BitVec 32) :
    Programmed regs (programmed regs dev a (messageAddr apicId)
      (messageData triggerMode deliveryMode vector) e) dev a
        ⟨apicId, vector, deliveryMode, triggerMode⟩ e := by
  obtain ⟨regs', hregs'⟩ : ∃ regs', regs' = programmed regs dev a (messageAddr apicId)
    (messageData triggerMode deliveryMode vector) e := ⟨_, rfl⟩
  rw [← hregs']
  have hdata : dev.reg (msgDataAddr a (headerAt regs dev a)) ≠ dev.reg a ∧
      dev.reg (msgDataAddr a (headerAt regs dev a)) ≠ dev.reg (a + 4) := by
    rw [msgDataAddr_eq, dataOffset]
    split_ifs <;>
      exact ⟨reg_ne_add (by decide) (by decide), reg_add_ne (by decide) (by decide) (by decide)⟩
  have hheader : headerAt regs' dev a = enabledHeader (headerAt regs dev a) e := by
    rw [headerAt, hregs', programmed, Function.update_of_ne hdata.1.symm,
      Function.update_of_ne (reg_ne_add (by decide) (by decide)).symm, Function.update_self]
  obtain ⟨henabled, hvectors, hbits⟩ := enabledHeader_correct (headerAt regs dev a) e
  refine ⟨hheader ▸ henabled, hheader ▸ hvectors, hheader ▸ hbits, fun hupper ↦ ?_,
    fun r h₀ h₁ h₂ ↦ hregs' ▸ programmed_of_ne h₀ h₁ h₂⟩
  have hdataAddr : msgDataAddr a (headerAt regs' dev a) = msgDataAddr a (headerAt regs dev a) := by
    rw [hheader, msgDataAddr_enabledHeader]
  have hupper' : upperAddrAt regs' dev a = 0 := by
    have h64 : (headerAt regs' dev a).addr64Capable = (headerAt regs dev a).addr64Capable :=
      hheader ▸ hbits 23 (by decide) (by decide)
    rw [← hupper, upperAddrAt, upperAddrAt, capabilityAt, capabilityAt]
    dsimp only
    rw [h64]
    split_ifs with hwide
    · rw [hregs']
      refine programmed_of_ne (reg_ne_add (by decide) (by decide))
        (reg_add_ne (by decide) (by decide) (by decide)) ?_
      rw [msgDataAddr_eq, dataOffset, if_pos hwide]
      exact reg_add_ne (by decide) (by decide) (by decide)
    · rfl
  have haddr : regs' (dev.reg (a + 4)) = messageAddr apicId := by
    rw [hregs', programmed, Function.update_of_ne hdata.2.symm, Function.update_self]
  have hmsg : regs' (dev.reg (msgDataAddr a (headerAt regs dev a))) =
      messageData triggerMode deliveryMode vector := by
    rw [hregs', programmed, Function.update_self]
  rw [hdataAddr, hupper', haddr, hmsg, interruptOf_message]

/-- A function with an MSI-X capability and, behind it, an MSI capability. -/
def sampleDevice : Device := ⟨0, 3, 0, 0, ⟨0x0c, 0x03, 0x30⟩⟩

def samplePorts : Ports where
  address := 0
  regs := fun r ↦
    if r = sampleDevice.reg 0x34 then 0x50
    else if r = sampleDevice.reg 0x50 then 0x7011
    else if r = sampleDevice.reg 0x70 then 0x00860005
    else 0

end Pci
end MinOS
