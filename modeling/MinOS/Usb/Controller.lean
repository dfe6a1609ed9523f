import MinOS.Usb.Fifo

/-!
# The rings of the controller

The command ring that `StartController` builds and the transfer ring of endpoint
0 that `AddressDevice` builds for every slot.  The driver and the controller act
on any of them in any order.
-/

namespace MinOS
namespace Usb

open Transition CycleRing

inductive RingId where
  | command
  | endpoint0 (slotId : BitVec 8)
deriving DecidableEq

/-- The rings that exist. -/
structure Controller where
  rings : RingId → Option Channel

namespace Controller

/-- `StartController`. -/
def startController (base : BitVec 64) : Controller where
  rings := Function.update (fun _ ↦ none) .command (some (.start base kCmdRingSize))

def setRing (c : Controller) (id : RingId) (ch : Channel) : Controller where
  rings := Function.update c.rings id (some ch)

/-- `AddressDevice` gives the slot a new transfer ring. -/
def addressDevice (c : Controller) (slotId : BitVec 8) (base : BitVec 64) : Controller :=
  c.setRing (.endpoint0 slotId) (.start base kEp0RingSize)

/-- A call of `PushCommand` begins; its stores follow. -/
def pushCommand (c : Controller) (ch : Channel) (t : TRB) : Controller :=
  c.setRing .command (ch.push t)

/-- A call of `PushTransfer` for endpoint 0 begins; its stores follow. -/
def pushTransfer (c : Controller) (slotId : BitVec 8) (ch : Channel) (t : TRB) : Controller :=
  c.setRing (.endpoint0 slotId) (ch.push t)

inductive Op where
  | addressDevice (slotId : BitVec 8) (base : BitVec 64)
  | pushCommand (t : TRB)
  | pushTransfer (slotId : BitVec 8) (t : TRB)
  | store (id : RingId)
  | consume (id : RingId)

/-- One step of the driver or of the controller.  A push function is called when
the previous call for its ring is over, and its control word leaves the cycle
bit to the ring and is not that of a link. -/
inductive Step : Controller → Op → Controller → Prop where
  | addressDevice {c : Controller} (slotId : BitVec 8) (base : BitVec 64) :
      Step c (.addressDevice slotId base) (c.addressDevice slotId base)
  | pushCommand {c : Controller} {ch : Channel} {t : TRB} (hring : c.rings .command = some ch)
      (hidle : ch.pending = []) (hwork : t.IsWork) :
      Step c (.pushCommand t) (c.pushCommand ch t)
  | pushTransfer {c : Controller} {ch : Channel} {slotId : BitVec 8} {t : TRB}
      (hring : c.rings (.endpoint0 slotId) = some ch) (hidle : ch.pending = []) (hwork : t.IsWork) :
      Step c (.pushTransfer slotId t) (c.pushTransfer slotId ch t)
  | store {c : Controller} {ch : Channel} {id : RingId} (hring : c.rings id = some ch) :
      Step c (.store id) (c.setRing id ch.store)
  | consume {c : Controller} {ch : Channel} {id : RingId} (hring : c.rings id = some ch) :
      Step c (.consume id) (c.setRing id ch.consume)

/-- A push leaves at most `size - 2` blocks of its ring unconsumed. -/
def Roomy (c : Controller) : Op → Prop
  | .pushCommand _ => ∀ ch ∈ c.rings .command, ch.unconsumed + 1 ≤ ch.ring.size - 2
  | .pushTransfer slotId _ =>
      ∀ ch ∈ c.rings (.endpoint0 slotId), ch.unconsumed + 1 ≤ ch.ring.size - 2
  | _ => True

/-- Every ring fits what was pushed to it and seen of it. -/
def Invariant (c : Controller) : Prop :=
  ∀ id, ∀ ch ∈ c.rings id, ∃ e p, Channel.Fits ch e p

theorem Invariant.setRing {c : Controller} (h : c.Invariant) (id : RingId) {ch : Channel}
    (hch : ∃ e p, Channel.Fits ch e p) : (c.setRing id ch).Invariant := by
  intro id' ch' hch'
  change ch' ∈ Function.update c.rings id (some ch) id' at hch'
  by_cases hid : id' = id
  · rw [hid, Function.update_self] at hch'
    rwa [← Option.mem_some_iff.mp hch']
  · rw [Function.update_of_ne hid] at hch'
    exact h id' ch' hch'

theorem invariant_startController (base : BitVec 64) : (startController base).Invariant := by
  have hnone : (Controller.mk fun _ ↦ none).Invariant := fun _ _ hch ↦ by simp at hch
  exact hnone.setRing .command ⟨0, 0, Channel.fits_start base (by decide)⟩

theorem Invariant.push {c : Controller} (h : c.Invariant) {id : RingId} {ch : Channel} {t : TRB}
    (hring : c.rings id = some ch) (hidle : ch.pending = []) (hwork : t.IsWork)
    (hroom : ∀ ch ∈ c.rings id, ch.unconsumed + 1 ≤ ch.ring.size - 2) :
    (c.setRing id (ch.push t)).Invariant := by
  obtain ⟨e, p, hfits⟩ := h id ch hring
  have hfree := hroom ch hring
  have hseen := hfits.seen_le.trans hfits.published_le
  have hslots : ch.slots = ch.ring.size - 1 := rfl
  refine h.setRing id ⟨e, p, hfits.push hidle hwork ?_⟩
  rw [Channel.unconsumed] at hfree
  omega

theorem invariant_step {c c' : Controller} {op : Op} (h : c.Invariant)
    (hstep : Guarded Roomy Step c op c') : c'.Invariant := by
  obtain ⟨hroom, hstep⟩ := hstep
  cases hstep with
  | addressDevice slotId base =>
      exact h.setRing _ ⟨0, 0, Channel.fits_start base (by decide)⟩
  | pushCommand hring hidle hwork => exact h.push hring hidle hwork hroom
  | pushTransfer hring hidle hwork => exact h.push hring hidle hwork hroom
  | store hring =>
      obtain ⟨e, p, hfits⟩ := h _ _ hring
      exact h.setRing _ hfits.store
  | consume hring =>
      obtain ⟨e, p, hfits⟩ := h _ _ hring
      exact h.setRing _ ⟨e, p, hfits.consume⟩

/-- Whatever the order of pushes, stores and reads, no ring loses, repeats or
reorders a block, and no stale slot is ever taken. -/
theorem lossless_of_run {base : BitVec 64} {ops : List Op} {c : Controller}
    (hrun : Run (Guarded Roomy Step) (startController base) ops c) (id : RingId) {ch : Channel}
    (hring : c.rings id = some ch) : ch.Lossless := by
  have hinv := hrun.invariant (fun _ _ _ h hstep ↦ invariant_step h hstep)
    (invariant_startController base)
  obtain ⟨e, p, hfits⟩ := hinv id ch hring
  exact hfits.lossless

/-- The first command of `ScanPorts`, read as soon as its control word is
stored. -/
theorem lossless_enableSlot : ∃ c ch,
    Run (Guarded Roomy Step) (startController 0x1000)
      [.pushCommand .enableSlot, .store .command, .store .command, .store .command,
        .store .command, .consume .command] c ∧
    c.rings .command = some ch ∧ ch.seen.length = 1 ∧ ch.Lossless := by
  have hpush : Run (Guarded Roomy Step) (startController 0x1000) [.pushCommand .enableSlot] _ :=
    .single ⟨by rintro ch ⟨⟩; decide, .pushCommand rfl rfl TRB.isWork_enableSlot⟩
  have hparameter0 : Run (Guarded Roomy Step) (startController 0x1000)
      [.pushCommand .enableSlot, .store .command] _ :=
    .snoc hpush ⟨trivial, .store rfl⟩
  have hparameter1 : Run (Guarded Roomy Step) (startController 0x1000)
      [.pushCommand .enableSlot, .store .command, .store .command] _ :=
    .snoc hparameter0 ⟨trivial, .store rfl⟩
  have hstatus : Run (Guarded Roomy Step) (startController 0x1000)
      [.pushCommand .enableSlot, .store .command, .store .command, .store .command] _ :=
    .snoc hparameter1 ⟨trivial, .store rfl⟩
  have hcontrol : Run (Guarded Roomy Step) (startController 0x1000)
      [.pushCommand .enableSlot, .store .command, .store .command, .store .command,
        .store .command] _ :=
    .snoc hstatus ⟨trivial, .store rfl⟩
  have hconsume : Run (Guarded Roomy Step) (startController 0x1000)
      [.pushCommand .enableSlot, .store .command, .store .command, .store .command,
        .store .command, .consume .command] _ :=
    .snoc hcontrol ⟨trivial, .consume rfl⟩
  exact ⟨_, _, hconsume, rfl, by decide, lossless_of_run hconsume .command rfl⟩

end Controller

end Usb
end MinOS
