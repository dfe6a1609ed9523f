import MinOS.Library.WordLoop
import MinOS.Usb.ControlTransfer

/-!
# The port scan

`ScanPorts` resets every connected port, gives its device a slot and an address, reads its
descriptor and configures it.  Whatever goes wrong at one port, the loop goes on to the next.
-/

namespace MinOS
namespace Usb

/-- `HCSPARAMS1_MaxPorts`, which `ReadCapabilityRegisters` puts into `max_ports_`. -/
def maxPorts (hcs1 : BitVec 32) : BitVec 8 := ((hcs1 >>> 24) &&& 0xff).setWidth 8

def PORTSC_CCS : BitVec 32 := 1
def PORTSC_PED : BitVec 32 := 1 <<< 1
def PORTSC_PR : BitVec 32 := 1 <<< 4
def PORTSC_PRC : BitVec 32 := 1 <<< 21

/-- Bits that a written one clears. -/
def PORTSC_W1C_BITS : BitVec 32 :=
  1 <<< 17 ||| 1 <<< 18 ||| 1 <<< 19 ||| 1 <<< 20 ||| PORTSC_PRC ||| 1 <<< 22 ||| 1 <<< 23

def portscSpeed (v : BitVec 32) : BitVec 8 := ((v >>> 10) &&& 0x0f).setWidth 8

def TRB_COMPLETION_SUCCESS : BitVec 8 := 1
def TRB_COMPLETION_SHORT_PKT : BitVec 8 := 13

namespace TRB

/-- `TRB_CompletionCode` of the status word. -/
def completionCode (t : TRB) : BitVec 8 := ((t.status >>> 24) &&& 0xff).setWidth 8

/-- `TRB_SlotId` of the control word. -/
def slotId (t : TRB) : BitVec 8 := ((t.control >>> 24) &&& 0xff).setWidth 8

end TRB

/-! ## The input context -/

/-- The double words of a slot or endpoint context. -/
abbrev Context : Type := ℕ → BitVec 32

namespace Context

def zero : Context := fun _ ↦ 0

/-- Replace the field under `mask <<< shift` of one double word. -/
def setField (c : Context) (i : ℕ) (mask : BitVec 32) (shift : ℕ) (v : BitVec 32) : Context :=
  Function.update c i ((c i &&& ~~~(mask <<< shift)) ||| (v &&& mask) <<< shift)

def scSetSpeed (sc : Context) (speed : BitVec 8) : Context :=
  sc.setField 0 0xf 20 (speed.setWidth 32)

def scSetContextEntries (sc : Context) (entries : BitVec 8) : Context :=
  sc.setField 0 0x1f 27 (entries.setWidth 32)

def scSetRootHubPortNumber (sc : Context) (port : BitVec 8) : Context :=
  sc.setField 1 0xff 16 (port.setWidth 32)

def epSetEPType (ep : Context) (type : BitVec 8) : Context :=
  ep.setField 1 0x7 3 (type.setWidth 32)

def epSetMaxPacketSize (ep : Context) (size : BitVec 16) : Context :=
  ep.setField 1 0xffff 16 (size.setWidth 32)

def epSetCErr (ep : Context) (cerr : BitVec 8) : Context :=
  ep.setField 1 0x3 1 (cerr.setWidth 32)

def epSetTRDequeuePointer (ep : Context) (addr : BitVec 64) (dcs : Bool) : Context :=
  let low := (addr &&& 0xfffffff0).setWidth 32 ||| if dcs then 1 else 0
  Function.update (Function.update ep 2 low) 3 ((addr >>> 32).setWidth 32)

def epSetAvgTRBLength (ep : Context) (len : BitVec 16) : Context :=
  ep.setField 4 0xffff 0 (len.setWidth 32)

end Context

/-- What `AddressDevice` writes into the zeroed `InputContext`. -/
structure InputContext where
  addFlags : BitVec 32
  slot : Context
  ep0 : Context

/-- `DefaultMaxPacketSize`. -/
def defaultMaxPacketSize (speed : BitVec 8) : BitVec 16 :=
  if speed = 2 then 8
  else if speed = 1 then 8
  else if speed = 3 then 64
  else if speed = 4 then 512
  else if speed = 5 then 512
  else 8

def EP_TYPE_CONTROL : BitVec 8 := 4

/-- The input context for a device at `port`. -/
def inputContext (port speed : BitVec 8) (ep0RingPhys : BitVec 64) : InputContext :=
  let slot := Context.zero.scSetSpeed speed
  let slot := slot.scSetContextEntries 1
  let slot := slot.scSetRootHubPortNumber port
  let ep0 := Context.zero.epSetEPType EP_TYPE_CONTROL
  let ep0 := ep0.epSetMaxPacketSize (defaultMaxPacketSize speed)
  let ep0 := ep0.epSetCErr 3
  let ep0 := ep0.epSetTRDequeuePointer ep0RingPhys true
  let ep0 := ep0.epSetAvgTRBLength 8
  ⟨1 <<< 0 ||| 1 <<< 1, slot, ep0⟩

/-! ## The driver and what is around it -/

/-- What the driver keeps in memory. -/
structure Driver where
  commandRing : Ring
  /-- `slot_data_[slot_id].ep[0]`. -/
  endpoint0 : BitVec 8 → Ring
  dcbaa : BitVec 8 → BitVec 64

/-- The controller, its devices and the allocator.  All of them may answer as they like,
but every wait ends. -/
structure Host (σ : Type) where
  readPortsc : BitVec 8 → Driver → σ → BitVec 32 × σ
  writePortsc : BitVec 8 → BitVec 32 → Driver → σ → σ
  /-- The reads until `PORTSC_PRC` is set. -/
  awaitReset : BitVec 8 → Driver → σ → σ
  writeDoorbell : BitVec 8 → BitVec 32 → Driver → σ → σ
  /-- `WaitEvent`: the next event that is not the status change of a port. -/
  waitEvent : Driver → σ → TRB × σ
  allocAlignedZeroed : ℕ → ℕ → Driver → σ → BitVec 64 × σ
  writeInput : BitVec 64 → InputContext → Driver → σ → σ
  /-- Where `desc` lies on the stack. -/
  desc : BitVec 64

structure Machine (σ : Type) where
  driver : Driver
  world : σ

/-- The errors of `AddressDevice` and `ControlTransfer`, which return none for success. -/
inductive Failure where
  | kNoEnoughMemory
  | kNotImplemented
deriving DecidableEq, Repr

/-- How the turn for one port ends. -/
inductive PortOutcome where
  | notConnected
  | notEnabled
  | slotFailed (cc : BitVec 8)
  | addressFailed (err : Failure)
  | descriptorFailed (err : Failure)
  | configurationFailed (err : Failure)
  | configured (slotId : BitVec 8)
deriving DecidableEq, Repr

namespace Host

variable {σ α : Type}

def ask (f : Driver → σ → α × σ) : StateM (Machine σ) α := fun m ↦
  let answer := f m.driver m.world
  (answer.1, { m with world := answer.2 })

def tell (f : Driver → σ → σ) : StateM (Machine σ) PUnit := fun m ↦
  (⟨⟩, { m with world := f m.driver m.world })

def update (f : Driver → Driver) : StateM (Machine σ) PUnit := fun m ↦
  (⟨⟩, { m with driver := f m.driver })

variable (h : Host σ)

def pushCommand (t : TRB) : StateM (Machine σ) PUnit := do
  update fun d ↦ { d with commandRing := d.commandRing.push t }
  tell (h.writeDoorbell 0 0)

/-- `PushTransfer` for endpoint 0. -/
def pushTransfer (slotId : BitVec 8) (t : TRB) : StateM (Machine σ) PUnit :=
  update fun d ↦
    { d with endpoint0 := Function.update d.endpoint0 slotId ((d.endpoint0 slotId).push t) }

def addressDevice (slotId port speed : BitVec 8) : StateM (Machine σ) (Option Failure) := do
  let devCtx ← ask (h.allocAlignedZeroed 1024 64)
  if devCtx = 0 then return some .kNoEnoughMemory
  update fun d ↦ { d with dcbaa := Function.update d.dcbaa slotId devCtx }
  let ep0Ring ← ask (h.allocAlignedZeroed (kEp0RingSize * 16) 64)
  if ep0Ring = 0 then return some .kNoEnoughMemory
  update fun d ↦
    { d with endpoint0 := Function.update d.endpoint0 slotId (.start ep0Ring kEp0RingSize) }
  let input ← ask (h.allocAlignedZeroed 1056 64)
  if input = 0 then return some .kNoEnoughMemory
  tell (h.writeInput input (inputContext port speed ep0Ring))
  h.pushCommand (.addressDevice slotId input)
  let event ← ask h.waitEvent
  if event.completionCode ≠ TRB_COMPLETION_SUCCESS then return some .kNotImplemented
  return none

def controlTransfer (slotId : BitVec 8) (setup : SetupPacket) (buf : BitVec 64)
    (len : BitVec 16) : StateM (Machine σ) (Option Failure) := do
  for t in controlStages setup buf len do
    pushTransfer slotId t
  tell (h.writeDoorbell slotId 1)
  let event ← ask h.waitEvent
  if event.completionCode ≠ TRB_COMPLETION_SUCCESS ∧
      event.completionCode ≠ TRB_COMPLETION_SHORT_PKT then
    return some .kNotImplemented
  return none

def getDescriptor (slotId descType index : BitVec 8) (buf : BitVec 64) (len : BitVec 16) :
    StateM (Machine σ) (Option Failure) :=
  h.controlTransfer slotId (.getDescriptor descType index len) buf len

def setConfiguration (slotId configValue : BitVec 8) : StateM (Machine σ) (Option Failure) :=
  h.controlTransfer slotId (.setConfiguration configValue) 0 0

/-- The body of the loop of `ScanPorts`. -/
def scanPort (port : BitVec 8) : StateM (Machine σ) PortOutcome := do
  let portsc ← ask (h.readPortsc port)
  if portsc &&& PORTSC_CCS = 0 then return .notConnected
  tell (h.writePortsc port ((portsc &&& ~~~PORTSC_W1C_BITS) ||| PORTSC_PR))
  tell (h.awaitReset port)
  let portsc ← ask (h.readPortsc port)
  tell (h.writePortsc port ((portsc &&& ~~~PORTSC_W1C_BITS) ||| PORTSC_PRC))
  let speed := portscSpeed (← ask (h.readPortsc port))
  -- the log message reads the register too
  let _ ← ask (h.readPortsc port)
  let portsc ← ask (h.readPortsc port)
  if portsc &&& PORTSC_PED = 0 then return .notEnabled
  h.pushCommand .enableSlot
  let event ← ask h.waitEvent
  if event.completionCode ≠ TRB_COMPLETION_SUCCESS then
    return .slotFailed event.completionCode
  if let some err ← h.addressDevice event.slotId port speed then
    return .addressFailed err
  if let some err ← h.getDescriptor event.slotId 1 0 h.desc 18 then
    return .descriptorFailed err
  if let some err ← h.setConfiguration event.slotId 1 then
    return .configurationFailed err
  return .configured event.slotId

/-- `ScanPorts`, as the ports of its turns and how each turn ended.  It reports success
whatever happened. -/
def scanPorts (max : BitVec 8) (fuel : ℕ) (m : Machine σ) :
    Option (List (BitVec 8 × PortOutcome) × Machine σ) :=
  WordLoop.run h.scanPort max fuel 1 m

/-- The scan ends and has examined every port once. -/
def Covers (hcs1 : BitVec 32) (m : Machine σ) : Prop :=
  ∃ fuel turns m', h.scanPorts (maxPorts hcs1) fuel m = some (turns, m') ∧
    turns.map (·.1.toNat) = List.range' 1 (maxPorts hcs1).toNat

/-- With 255 ports the number of a port never exceeds `max_ports_`. -/
theorem scanPorts_255 (fuel : ℕ) (m : Machine σ) : h.scanPorts 255 fuel m = none :=
  WordLoop.run_allOnes fuel 1 m

/-- A failure at one port does not keep the others from being examined. -/
theorem scanPorts_of_ne {max : BitVec 8} (hmax : max ≠ 255) (m : Machine σ) :
    ∃ turns m', h.scanPorts max (max.toNat + 1) m = some (turns, m') ∧
      turns.map (·.1.toNat) = List.range' 1 max.toNat :=
  WordLoop.run_counters hmax max.toNat (Nat.add_comm _ _) m

/-- Every port is examined once if and only if there are fewer than 255. -/
theorem covers_iff (hcs1 : BitVec 32) (m : Machine σ) :
    h.Covers hcs1 m ↔ maxPorts hcs1 ≠ 255 := by
  constructor
  · rintro ⟨fuel, turns, m', hscan, -⟩ hmax
    rw [hmax, scanPorts_255] at hscan
    cases hscan
  · intro hmax
    obtain ⟨turns, m', hscan, hturns⟩ := h.scanPorts_of_ne hmax m
    exact ⟨_, turns, m', hscan, hturns⟩

/-- A controller to which nothing is connected. -/
def vacant : Host PUnit where
  readPortsc _ _ w := (0, w)
  writePortsc _ _ _ w := w
  awaitReset _ _ w := w
  writeDoorbell _ _ _ w := w
  waitEvent _ w := (TRB.zero, w)
  allocAlignedZeroed _ _ _ w := (0, w)
  writeInput _ _ _ w := w
  desc := 0x1000

def idle : Machine PUnit :=
  ⟨⟨.start 0x2000 kCmdRingSize, fun _ ↦ .start 0 kEp0RingSize, fun _ ↦ 0⟩, ⟨⟩⟩

example : (vacant.scanPorts 3 4 idle).map (·.1) =
    some [(1, .notConnected), (2, .notConnected), (3, .notConnected)] := rfl

/-- After port 255 the counter is back at 0. -/
theorem not_covers_vacant : ¬ vacant.Covers 0xff000000 idle := by
  rintro ⟨fuel, turns, m', hscan, -⟩
  have hmax : maxPorts 0xff000000 = 255 := by decide
  rw [hmax, scanPorts_255] at hscan
  cases hscan

end Host
end Usb
end MinOS
