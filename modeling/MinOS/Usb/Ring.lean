import MinOS.Library.CycleRing
import MinOS.Library.Transition
import MinOS.Usb.Trb

/-!
# The command ring and the transfer rings

`PushCommand` and `PushTransfer` store into a ring one word after the other,
while the controller may read the ring between any two stores.  The last slot
of a ring is a link back to its start.
-/

namespace MinOS
namespace Usb

open Transition CycleRing

/-- A ring that the driver writes: the memory of its blocks, and the driver's
own position and cycle state. -/
structure Ring where
  base : BitVec 64
  size : ℕ
  trbs : ℕ → TRB
  enqueue : ℕ
  cycle : Bool

namespace Ring

/-- The link block at the end of a new ring. -/
def linkTrb (base : BitVec 64) : TRB where
  parameter0 := base.setWidth 32
  parameter1 := (base >>> 32).setWidth 32
  status := 0
  control := trbSetType TRB_TYPE_LINK ||| LINK_TRB_TOGGLE_CYCLE

theorem cycleOf_linkTrb (base : BitVec 64) : cycleOf (linkTrb base).control = false := by
  change cycleOf (trbSetType TRB_TYPE_LINK ||| LINK_TRB_TOGGLE_CYCLE) = false
  decide

theorem type_linkTrb (base : BitVec 64) : (linkTrb base).type = TRB_TYPE_LINK.toNat := by
  change trbType (trbSetType TRB_TYPE_LINK ||| LINK_TRB_TOGGLE_CYCLE) = _
  decide

theorem toggle_linkTrb (base : BitVec 64) :
    (linkTrb base).control &&& LINK_TRB_TOGGLE_CYCLE ≠ 0 := by
  change (trbSetType TRB_TYPE_LINK ||| LINK_TRB_TOGGLE_CYCLE) &&& LINK_TRB_TOGGLE_CYCLE ≠ 0
  decide

theorem parameters_linkTrb (base : BitVec 64) :
    (linkTrb base).parameter1 ++ (linkTrb base).parameter0 = base :=
  append_words base

/-- A new ring: zeroed memory with the link in its last slot. -/
def start (base : BitVec 64) (size : ℕ) : Ring where
  base := base
  size := size
  trbs := Function.update (fun _ ↦ TRB.zero) (size - 1) (linkTrb base)
  enqueue := 0
  cycle := true

/-- The stores of the two push functions, one word each; `advance` is what they
do after the last of them. -/
inductive Store where
  | word (w : TRB.Word) (v : BitVec 32)
  | control (v : BitVec 32)
  | advance
deriving DecidableEq

/-- The block at the driver's position. -/
def trb (r : Ring) : TRB := r.trbs r.enqueue

def setTrb (r : Ring) (t : TRB) : Ring := { r with trbs := Function.update r.trbs r.enqueue t }

/-- `link.control = (link.control & ~TRB_CYCLE) | (cycle ? TRB_CYCLE : 0)`. -/
def relink (link : TRB) (cycle : Bool) : TRB :=
  { link with control := withoutCycle link.control ||| cycleWord cycle }

/-- Move on to the next slot, and across the link to the first one. -/
def advance (r : Ring) : Ring :=
  let enqueue := r.enqueue + 1
  if enqueue = r.size - 1 then
    { r with
      trbs := Function.update r.trbs enqueue (relink (r.trbs enqueue) r.cycle)
      cycle := !r.cycle
      enqueue := 0 }
  else
    { r with enqueue := enqueue }

def exec (r : Ring) : Store → Ring
  | .word w v => r.setTrb (r.trb.set w v)
  | .control v => r.setTrb { r.trb with control := v ||| cycleWord r.cycle }
  | .advance => r.advance

/-- The stores of one push, in the order of the source. -/
def stores (t : TRB) : List Store :=
  [.word .parameter0 t.parameter0, .word .parameter1 t.parameter1, .word .status t.status,
    .control t.control, .advance]

/-- One push from its first store to its last. -/
def push (r : Ring) (t : TRB) : Ring := (stores t).foldl exec r

theorem push_eq (r : Ring) (t : TRB) : r.push t = (r.setTrb (t.stored r.cycle)).advance := by
  simp [push, stores, exec, setTrb, trb, TRB.set, TRB.stored]

end Ring

/-- `kCmdRingSize`. -/
def kCmdRingSize : ℕ := 256

/-- `kEp0RingSize`. -/
def kEp0RingSize : ℕ := 16

/-- A ring together with the call that is writing it, the controller that reads
it, and what was pushed and seen so far. -/
structure Channel where
  ring : Ring
  /-- The stores that the push in progress has yet to make. -/
  pending : List Ring.Store
  /-- The controller's dequeue pointer, as the index of a slot. -/
  dequeue : ℕ
  /-- The controller's consumer cycle state. -/
  ccs : Bool
  pushed : List TRB
  seen : List TRB

namespace Channel

/-- A new ring and the controller that was told its address and cycle state 1. -/
def start (base : BitVec 64) (size : ℕ) : Channel where
  ring := .start base size
  pending := []
  dequeue := 0
  ccs := true
  pushed := []
  seen := []

/-- A push begins. -/
def push (s : Channel) (t : TRB) : Channel :=
  { s with pending := Ring.stores t, pushed := s.pushed ++ [t] }

/-- The push in progress makes its next store. -/
def store (s : Channel) : Channel :=
  match s.pending with
  | [] => s
  | st :: rest => { s with ring := s.ring.exec st, pending := rest }

/-- A push that has made all its stores is the push of the source. -/
theorem iterate_store_push (s : Channel) (t : TRB) :
    (store^[5] (s.push t)).ring = s.ring.push t ∧ (store^[5] (s.push t)).pending = [] :=
  ⟨rfl, rfl⟩

/-- The block that the controller looks at. -/
def current (s : Channel) : TRB := s.ring.trbs s.dequeue

/-- The slot to which a link points. -/
def target (r : Ring) (link : TRB) : ℕ :=
  ((link.parameter1 ++ link.parameter0) - r.base).toNat / 16

/-- The block that the controller would take as work next, if any. -/
def takes (s : Channel) : Option TRB :=
  if s.current.cycle = s.ccs ∧ s.current.type ≠ TRB_TYPE_LINK.toNat then some s.current else none

/-- One step of the controller: a block whose cycle bit is not its cycle state
is not looked at any further, a link is followed, and anything else is work. -/
def consume (s : Channel) : Channel :=
  if s.current.cycle = s.ccs then
    if s.current.type = TRB_TYPE_LINK.toNat then
      { s with
        dequeue := target s.ring s.current
        ccs := if s.current.control &&& LINK_TRB_TOGGLE_CYCLE = 0 then s.ccs else !s.ccs }
    else
      { s with dequeue := s.dequeue + 1, seen := s.seen ++ [s.current] }
  else s

/-- How many blocks are pushed and not seen yet. -/
def unconsumed (s : Channel) : ℕ := s.pushed.length - s.seen.length

/-- The number of work slots. -/
def slots (s : Channel) : ℕ := s.ring.size - 1

end Channel

end Usb
end MinOS
