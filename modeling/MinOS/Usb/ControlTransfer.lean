import MinOS.Usb.Controller

/-!
# Control transfers

`ControlTransfer` pushes two or three blocks on the transfer ring of endpoint 0 of a
slot: the request, the data if there is any, and the stage in which the request is
acknowledged.
-/

namespace MinOS
namespace Usb

open Transition

structure SetupPacket where
  bmRequestType : BitVec 8
  bRequest : BitVec 8
  wValue : BitVec 16
  wIndex : BitVec 16
  wLength : BitVec 16
deriving DecidableEq, Repr

namespace SetupPacket

/-- The eight bytes of the packet, the first one lowest. -/
def bytes (s : SetupPacket) : BitVec 64 :=
  (s.wLength ++ s.wIndex) ++ (s.wValue ++ s.bRequest ++ s.bmRequestType)

def setupLo (s : SetupPacket) : BitVec 32 :=
  s.bmRequestType.setWidth 32 ||| s.bRequest.setWidth 32 <<< 8 ||| s.wValue.setWidth 32 <<< 16

def setupHi (s : SetupPacket) : BitVec 32 :=
  s.wIndex.setWidth 32 ||| s.wLength.setWidth 32 <<< 16

def IsIn (s : SetupPacket) : Prop := s.bmRequestType &&& 0x80 ≠ 0

instance (s : SetupPacket) : Decidable s.IsIn := inferInstanceAs (Decidable (_ ≠ _))

/-- The packet of `GetDescriptor`. -/
def getDescriptor (descType index : BitVec 8) (len : BitVec 16) : SetupPacket :=
  ⟨0x80, 6, descType.setWidth 16 <<< 8 ||| index.setWidth 16, 0, len⟩

/-- The packet of `SetConfiguration`. -/
def setConfiguration (configValue : BitVec 8) : SetupPacket :=
  ⟨0x00, 9, configValue.setWidth 16, 0, 0⟩

end SetupPacket

/-- `has_data`. -/
def HasData (buf : BitVec 64) (len : BitVec 16) : Prop := 0 < len ∧ buf ≠ 0

instance (buf : BitVec 64) (len : BitVec 16) : Decidable (HasData buf len) :=
  inferInstanceAs (Decidable (_ ∧ _))

/-- `SETUP_TRT_..`, without the shift to its place. -/
def SETUP_TRT_NO_DATA : BitVec 2 := 0
def SETUP_TRT_OUT : BitVec 2 := 2
def SETUP_TRT_IN : BitVec 2 := 3

/-- `TRB_DIR_..`, without the shift to its place. -/
def TRB_DIR_OUT : BitVec 1 := 0
def TRB_DIR_IN : BitVec 1 := 1

/-- The blocks that `ControlTransfer` pushes. -/
def controlStages (setup : SetupPacket) (buf : BitVec 64) (len : BitVec 16) : List TRB :=
  let trt :=
    if HasData buf len then (if setup.IsIn then SETUP_TRT_IN else SETUP_TRT_OUT)
    else SETUP_TRT_NO_DATA
  let dir := if setup.IsIn then TRB_DIR_IN else TRB_DIR_OUT
  let statusDir := if ¬ HasData buf len ∨ setup.IsIn then TRB_DIR_OUT else TRB_DIR_IN
  .setupStage setup.setupLo setup.setupHi trt ::
    ((if HasData buf len then [.dataStage buf len dir] else []) ++ [.statusStage statusDir])

/-! ## What the controller is told -/

namespace TRB

/-- The two bits of a setup stage that say which data follow. -/
def transferType (t : TRB) : BitVec 2 := t.control.extractLsb' 16 2

/-- The direction bit of a data or status stage. -/
def DirectionIn (t : TRB) : Prop := t.control.getLsbD 16 = true

instance (t : TRB) : Decidable t.DirectionIn := inferInstanceAs (Decidable (_ = _))

def parameter (t : TRB) : BitVec 64 := t.parameter1 ++ t.parameter0

/-- The request: the packet as immediate data, and which data follow. -/
structure IsRequest (t : TRB) (setup : SetupPacket) (hasData : Prop) : Prop where
  type : t.type = TRB_TYPE_SETUP_STAGE.toNat
  immediate : t.control &&& TRB_IDT ≠ 0 ∧ t.parameter = setup.bytes ∧ t.status = 8
  transferType : (¬ hasData → t.transferType = SETUP_TRT_NO_DATA) ∧
    (hasData → t.transferType = if setup.IsIn then SETUP_TRT_IN else SETUP_TRT_OUT)

/-- The data: the buffer, its length, and the direction of the request. -/
structure IsData (t : TRB) (setup : SetupPacket) (buf : BitVec 64) (len : BitVec 16) : Prop where
  type : t.type = TRB_TYPE_DATA_STAGE.toNat
  buffer : t.parameter = buf ∧ t.status = len.setWidth 32
  direction : t.DirectionIn ↔ setup.IsIn

/-- The acknowledgement: it interrupts, and goes against the data, or in when there are
none. -/
structure IsStatus (t : TRB) (setup : SetupPacket) (hasData : Prop) : Prop where
  type : t.type = TRB_TYPE_STATUS_STAGE.toNat
  interrupts : t.control &&& TRB_IOC ≠ 0
  direction : t.DirectionIn ↔ ¬ hasData ∨ ¬ setup.IsIn

end TRB

/-- The blocks of a control transfer as USB and the xHCI want them. -/
def WellFormedTransfer (setup : SetupPacket) (buf : BitVec 64) (len : BitVec 16)
    (queued : List TRB) : Prop :=
  ∃ request data status, queued = request :: (data ++ [status]) ∧
    request.IsRequest setup (HasData buf len) ∧
    (HasData buf len → ∃ t, data = [t] ∧ t.IsData setup buf len) ∧
    (¬ HasData buf len → data = []) ∧
    status.IsStatus setup (HasData buf len)

theorem SetupPacket.append_words (s : SetupPacket) : s.setupHi ++ s.setupLo = s.bytes := by
  have hlo : s.wValue ++ s.bRequest ++ s.bmRequestType = s.setupLo := by
    rw [setupLo, BitVec.or_comm (s.bmRequestType.setWidth 32), BitVec.or_assoc,
      BitVec.or_comm (s.bmRequestType.setWidth 32), ← BitVec.or_assoc,
      BitVec.or_comm (s.bRequest.setWidth 32 <<< 8)]
    exact (BitVec.setWidth_eq _).symm.trans
      BitVec.setWidth_append_append_eq_shiftLeft_setWidth_or
  have hhi : s.wLength ++ s.wIndex = s.setupHi := by
    rw [setupHi, BitVec.or_comm]
    exact (BitVec.setWidth_eq _).symm.trans BitVec.setWidth_append_eq_shiftLeft_setWidth_or
  rw [bytes, hlo, hhi]

theorem transferType_setupStage (lo hi : BitVec 32) (trt : BitVec 2) :
    (TRB.setupStage lo hi trt).transferType = trt := by
  revert trt
  have h : ∀ trt : BitVec 2, (TRB.setupStage 0 0 trt).transferType = trt := by decide
  exact h

theorem directionIn_dataStage (buf : BitVec 64) (len : BitVec 16) (dir : BitVec 1) :
    (TRB.dataStage buf len dir).DirectionIn ↔ dir = TRB_DIR_IN := by
  revert dir
  have h : ∀ dir : BitVec 1, (TRB.dataStage 0 0 dir).DirectionIn ↔ dir = TRB_DIR_IN := by decide
  exact h

theorem directionIn_statusStage (dir : BitVec 1) :
    (TRB.statusStage dir).DirectionIn ↔ dir = TRB_DIR_IN := by
  revert dir
  decide

theorem isRequest_setupStage (setup : SetupPacket) (hasData : Prop) {trt : BitVec 2}
    (hno : ¬ hasData → trt = SETUP_TRT_NO_DATA)
    (hdata : hasData → trt = if setup.IsIn then SETUP_TRT_IN else SETUP_TRT_OUT) :
    (TRB.setupStage setup.setupLo setup.setupHi trt).IsRequest setup hasData where
  type := by
    have h : ∀ trt : BitVec 2, (TRB.setupStage 0 0 trt).type = TRB_TYPE_SETUP_STAGE.toNat := by
      decide
    exact h trt
  immediate := by
    have h : ∀ trt : BitVec 2, (TRB.setupStage 0 0 trt).control &&& TRB_IDT ≠ 0 := by decide
    exact ⟨h trt, setup.append_words, rfl⟩
  transferType := by
    rw [transferType_setupStage]
    exact ⟨hno, hdata⟩

theorem isData_dataStage (setup : SetupPacket) (buf : BitVec 64) (len : BitVec 16) :
    (TRB.dataStage buf len (if setup.IsIn then TRB_DIR_IN else TRB_DIR_OUT)).IsData setup buf len where
  type := by
    have h : ∀ dir : BitVec 1, (TRB.dataStage 0 0 dir).type = TRB_TYPE_DATA_STAGE.toNat := by decide
    exact h _
  buffer := ⟨append_words buf, rfl⟩
  direction := by
    rw [directionIn_dataStage]
    by_cases hin : setup.IsIn
    · simp [hin]
    · simp [hin, TRB_DIR_IN, TRB_DIR_OUT]

/-- A status stage acknowledges a transfer with data whatever their direction. -/
theorem isStatus_statusStage (setup : SetupPacket) {hasData : Prop} {dir : BitVec 1} :
    (TRB.statusStage dir).IsStatus setup hasData ↔
      (dir = TRB_DIR_IN ↔ ¬ hasData ∨ ¬ setup.IsIn) := by
  constructor
  · intro h
    rw [← directionIn_statusStage]
    exact h.direction
  · intro h
    have hcontrol : ∀ dir : BitVec 1, (TRB.statusStage dir).type = TRB_TYPE_STATUS_STAGE.toNat ∧
        (TRB.statusStage dir).control &&& TRB_IOC ≠ 0 := by decide
    exact ⟨(hcontrol dir).1, (hcontrol dir).2, (directionIn_statusStage dir).trans h⟩

/-- The blocks are well formed exactly when there are data. -/
theorem wellFormed_controlStages_iff (setup : SetupPacket) (buf : BitVec 64) (len : BitVec 16) :
    WellFormedTransfer setup buf len (controlStages setup buf len) ↔ HasData buf len := by
  constructor
  · rintro ⟨request, data, status, hqueued, -, -, hnone, hstatus⟩
    by_contra hdata
    obtain rfl := hnone hdata
    simp only [controlStages, hdata, if_false, not_false_iff, true_or, if_true, List.nil_append,
      List.cons.injEq, and_true] at hqueued
    rw [← hqueued.2, isStatus_statusStage] at hstatus
    exact absurd (hstatus.mpr (.inl hdata)) (by decide)
  · intro hdata
    refine ⟨_, _, _, rfl, ?_, ?_, fun h ↦ absurd hdata h, ?_⟩
    · exact isRequest_setupStage setup _ (fun h ↦ absurd hdata h) (fun _ ↦ if_pos hdata)
    · intro _
      exact ⟨_, if_pos hdata, isData_dataStage setup buf len⟩
    · rw [isStatus_statusStage]
      by_cases hin : setup.IsIn
      · simp [hdata, hin, TRB_DIR_IN, TRB_DIR_OUT]
      · simp [hdata, hin]

/-! ## On the ring -/

namespace Controller

/-- The stores that a call of `PushTransfer` makes after it has begun. -/
def pushOps (slotId : BitVec 8) (t : TRB) : List Op :=
  .pushTransfer slotId t :: List.replicate 5 (.store (.endpoint0 slotId))

def Op.isDriver : Op → Bool
  | .consume _ => false
  | _ => true

/-- The driver is in a call of `ControlTransfer` from its first push to the last store of
the last one; the controller may look at any ring in between. -/
def IsControlTransfer (slotId : BitVec 8) (setup : SetupPacket) (buf : BitVec 64)
    (len : BitVec 16) (ops : List Op) : Prop :=
  ops.filter Op.isDriver = (controlStages setup buf len).flatMap (pushOps slotId)

/-- What a step of the driver does to the blocks pushed on a transfer ring and to the
stores that are left to be made. -/
def drive (slotId : BitVec 8) (q : List TRB × List Ring.Store) : Op → List TRB × List Ring.Store
  | .pushTransfer id t => if id = slotId then (q.1 ++ [t], Ring.stores t) else q
  | .store (.endpoint0 id) => if id = slotId then (q.1, q.2.tail) else q
  | _ => q

variable {c c' : Controller} {ops : List Op} {slotId : BitVec 8} {ch : Channel}

theorem rings_setRing_self (c : Controller) (id : RingId) (ch : Channel) :
    (c.setRing id ch).rings id = some ch :=
  Function.update_self ..

theorem rings_setRing_of_ne {id id' : RingId} (hne : id' ≠ id) (ch : Channel) :
    (c.setRing id ch).rings id' = c.rings id' :=
  Function.update_of_ne hne _ _

theorem queue_store (ch : Channel) :
    (ch.store.pushed, ch.store.pending) = (ch.pushed, ch.pending.tail) := by
  rw [Channel.store]
  cases h : ch.pending with
  | nil => simp [h]
  | cons st rest => rfl

theorem queue_of_step {op : Op} (hring : c.rings (.endpoint0 slotId) = some ch)
    (hstep : Step c op c') (hkeeps : ∀ base, op ≠ .addressDevice slotId base) :
    ∃ ch', c'.rings (.endpoint0 slotId) = some ch' ∧
      (ch'.pushed, ch'.pending) = drive slotId (ch.pushed, ch.pending) op := by
  cases hstep with
  | addressDevice id base =>
      have hne : id ≠ slotId := fun h ↦ hkeeps base (h ▸ rfl)
      exact ⟨ch, (rings_setRing_of_ne (by simpa using hne.symm) _).trans hring, rfl⟩
  | pushCommand hcommand _ _ =>
      exact ⟨ch, (rings_setRing_of_ne (by simp) _).trans hring, rfl⟩
  | @pushTransfer ch₁ id t hring₁ _ _ =>
      by_cases hid : id = slotId
      · subst hid
        obtain rfl := Option.some.inj (hring₁.symm.trans hring)
        exact ⟨_, rings_setRing_self .., by rw [drive, if_pos rfl]; rfl⟩
      · exact ⟨ch, (rings_setRing_of_ne (by simpa using Ne.symm hid) _).trans hring,
          by rw [drive, if_neg hid]⟩
  | @store ch₁ id hring₁ =>
      by_cases hid : id = .endpoint0 slotId
      · subst hid
        obtain rfl := Option.some.inj (hring₁.symm.trans hring)
        exact ⟨_, rings_setRing_self .., by rw [queue_store, drive, if_pos rfl]⟩
      · refine ⟨ch, (rings_setRing_of_ne (Ne.symm hid) _).trans hring, ?_⟩
        cases id with
        | command => rfl
        | endpoint0 id =>
            rw [drive, if_neg]
            rintro rfl
            exact hid rfl
  | @consume ch₁ id hring₁ =>
      by_cases hid : id = .endpoint0 slotId
      · subst hid
        obtain rfl := Option.some.inj (hring₁.symm.trans hring)
        exact ⟨_, rings_setRing_self .., by
          rw [Channel.pushed_consume, Channel.pending_consume]; rfl⟩
      · exact ⟨ch, (rings_setRing_of_ne (Ne.symm hid) _).trans hring, rfl⟩

theorem queue_of_run (hrun : Run (Guarded Roomy Step) c ops c')
    (hring : c.rings (.endpoint0 slotId) = some ch)
    (hkeeps : ∀ base, .addressDevice slotId base ∉ ops) :
    ∃ ch', c'.rings (.endpoint0 slotId) = some ch' ∧
      (ch'.pushed, ch'.pending) = ops.foldl (drive slotId) (ch.pushed, ch.pending) := by
  induction hrun with
  | nil => exact ⟨ch, hring, rfl⟩
  | @snoc _ _ ops op _ last ih =>
      obtain ⟨ch₁, hring₁, hqueue⟩ :=
        ih fun base h ↦ hkeeps base (List.mem_append_left _ h)
      obtain ⟨ch', hring', hqueue'⟩ :=
        queue_of_step hring₁ last.2 fun base h ↦ hkeeps base (by simp [h])
      exact ⟨ch', hring', by rw [hqueue', hqueue, List.foldl_append]; rfl⟩

/-- What the controller does leaves the pushed blocks and the pending stores as they
are. -/
theorem foldl_drive_filter (ops : List Op) (q : List TRB × List Ring.Store) :
    ops.foldl (drive slotId) q = (ops.filter Op.isDriver).foldl (drive slotId) q := by
  induction ops generalizing q with
  | nil => rfl
  | cons op ops ih =>
      cases op with
      | consume id => exact ih q
      | _ => exact ih _

theorem foldl_drive_pushOps (ts us : List TRB) :
    (ts.flatMap (pushOps slotId)).foldl (drive slotId) (us, []) = (us ++ ts, []) := by
  induction ts generalizing us with
  | nil => simp
  | cons t ts ih =>
      have hfirst : (pushOps slotId t).foldl (drive slotId) (us, []) = (us ++ [t], []) := by
        simp [pushOps, drive, Ring.stores]
      rw [List.flatMap_cons, List.foldl_append, hfirst, ih, List.append_assoc,
        List.singleton_append]

theorem queue_of_controlTransfer {setup : SetupPacket} {buf : BitVec 64} {len : BitVec 16}
    (hring : c.rings (.endpoint0 slotId) = some ch) (hidle : ch.pending = [])
    (hrun : Run (Guarded Roomy Step) c ops c')
    (hcall : IsControlTransfer slotId setup buf len ops) :
    ∃ ch', c'.rings (.endpoint0 slotId) = some ch' ∧
      ch'.pushed = ch.pushed ++ controlStages setup buf len ∧ ch'.pending = [] := by
  have hkeeps : ∀ base, .addressDevice slotId base ∉ ops := by
    intro base hmem
    have hdriver : Op.addressDevice slotId base ∈ ops.filter Op.isDriver :=
      List.mem_filter.mpr ⟨hmem, rfl⟩
    rw [hcall] at hdriver
    simp [pushOps] at hdriver
  obtain ⟨ch', hring', hqueue⟩ := queue_of_run hrun hring hkeeps
  rw [hidle, foldl_drive_filter, hcall, foldl_drive_pushOps, Prod.mk.injEq] at hqueue
  exact ⟨ch', hring', hqueue.1, hqueue.2⟩

/-! ## Calls can be made -/

theorem exists_run_store {id : RingId} (hring : c.rings id = some ch) (n : ℕ) :
    ∃ c', Run (Guarded Roomy Step) c (List.replicate n (.store id)) c' ∧
      c'.rings id = some (Channel.store^[n] ch) := by
  induction n generalizing c ch with
  | zero => exact ⟨c, .nil c, hring⟩
  | succ n ih =>
      obtain ⟨c', hrun, hring'⟩ := ih (rings_setRing_self c id ch.store)
      exact ⟨c', hrun.head ⟨trivial, .store hring⟩, hring'⟩

theorem size_push (r : Ring) (t : TRB) : (r.push t).size = r.size := by
  rw [Ring.push_eq, Ring.advance]
  split_ifs <;> rfl

theorem exists_run_push {t : TRB} (hring : c.rings (.endpoint0 slotId) = some ch)
    (hidle : ch.pending = []) (hwork : t.IsWork) (hroom : ch.unconsumed + 1 ≤ ch.ring.size - 2) :
    ∃ c' ch', Run (Guarded Roomy Step) c (pushOps slotId t) c' ∧
      c'.rings (.endpoint0 slotId) = some ch' ∧ ch'.pending = [] ∧
      ch'.pushed = ch.pushed ++ [t] ∧ ch'.seen = ch.seen ∧ ch'.ring.size = ch.ring.size := by
  have hpush : Guarded Roomy Step c (.pushTransfer slotId t) (c.pushTransfer slotId ch t) := by
    refine ⟨fun ch₁ hch₁ ↦ ?_, .pushTransfer hring hidle hwork⟩
    obtain rfl := Option.some.inj (hring.symm.trans hch₁)
    exact hroom
  obtain ⟨c', hrun, hring'⟩ :=
    exists_run_store (rings_setRing_self c (.endpoint0 slotId) (ch.push t)) 5
  obtain ⟨hring₁, hpending⟩ := Channel.iterate_store_push ch t
  exact ⟨c', _, hrun.head hpush, hring', hpending, rfl, rfl, by rw [hring₁, size_push]⟩

/-- Blocks for which there is room can be pushed one after the other. -/
theorem exists_run_pushes (ts : List TRB) (hwork : ∀ t ∈ ts, t.IsWork)
    (hring : c.rings (.endpoint0 slotId) = some ch) (hidle : ch.pending = [])
    (hroom : ch.unconsumed + ts.length ≤ ch.ring.size - 2) :
    ∃ c', Run (Guarded Roomy Step) c (ts.flatMap (pushOps slotId)) c' := by
  induction ts generalizing c ch with
  | nil => exact ⟨c, .nil c⟩
  | cons t ts ih =>
      rw [List.length_cons] at hroom
      obtain ⟨c₁, ch₁, hrun₁, hring₁, hidle₁, hpushed, hseen, hsize⟩ :=
        exists_run_push hring hidle (hwork t List.mem_cons_self) (by omega)
      have hcount : ch₁.unconsumed ≤ ch.unconsumed + 1 := by
        rw [Channel.unconsumed, Channel.unconsumed, hpushed, hseen, List.length_append,
          List.length_singleton]
        omega
      obtain ⟨c', hrun⟩ := ih (fun u hu ↦ hwork u (List.mem_cons_of_mem t hu)) hring₁ hidle₁
        (by omega)
      exact ⟨c', hrun₁.append hrun⟩

theorem isWork_controlStages {setup : SetupPacket} {buf : BitVec 64} {len : BitVec 16} {t : TRB}
    (ht : t ∈ controlStages setup buf len) : t.IsWork := by
  rw [controlStages, List.mem_cons, List.mem_append, List.mem_singleton] at ht
  rcases ht with rfl | hdata | rfl
  · exact TRB.isWork_setupStage ..
  · by_cases hdata' : HasData buf len
    · rw [if_pos hdata', List.mem_singleton] at hdata
      exact hdata ▸ TRB.isWork_dataStage ..
    · rw [if_neg hdata'] at hdata
      exact absurd hdata List.not_mem_nil
  · exact TRB.isWork_statusStage _

theorem length_controlStages (setup : SetupPacket) (buf : BitVec 64) (len : BitVec 16) :
    (controlStages setup buf len).length ≤ 3 := by
  rw [controlStages, List.length_cons, List.length_append]
  split_ifs <;> simp

theorem filter_pushOps (ts : List TRB) :
    (ts.flatMap (pushOps slotId)).filter Op.isDriver = ts.flatMap (pushOps slotId) := by
  apply List.filter_eq_self.mpr
  intro op hop
  simp only [List.mem_flatMap, pushOps, List.mem_cons, List.mem_replicate] at hop
  obtain ⟨t, -, rfl | ⟨-, rfl⟩⟩ := hop
  · rfl
  · rfl

/-- A call of `ControlTransfer` while the ring has room for three blocks. -/
theorem exists_run_controlTransfer (setup : SetupPacket) (buf : BitVec 64) (len : BitVec 16)
    (hring : c.rings (.endpoint0 slotId) = some ch) (hidle : ch.pending = [])
    (hroom : ch.unconsumed + 3 ≤ ch.ring.size - 2) :
    ∃ ops c', Run (Guarded Roomy Step) c ops c' ∧ IsControlTransfer slotId setup buf len ops := by
  have hlength := length_controlStages setup buf len
  obtain ⟨c', hrun⟩ := exists_run_pushes (controlStages setup buf len)
    (fun _ ht ↦ isWork_controlStages ht) hring hidle (by omega)
  exact ⟨_, c', hrun, filter_pushOps _⟩

/-- A call of `ControlTransfer` queues its blocks behind those that are there, the
controller comes to see them in order and once each wherever the ring wraps around, and
they are well formed exactly when there are data. -/
theorem controlTransfer_wellFormed_iff {base : BitVec 64} {before : List Op}
    {setup : SetupPacket} {buf : BitVec 64} {len : BitVec 16}
    (hbefore : Run (Guarded Roomy Step) (startController base) before c)
    (hring : c.rings (.endpoint0 slotId) = some ch) (hidle : ch.pending = [])
    (hrun : Run (Guarded Roomy Step) c ops c')
    (hcall : IsControlTransfer slotId setup buf len ops) :
    ∃ ch' queued, c'.rings (.endpoint0 slotId) = some ch' ∧ ch'.pushed = ch.pushed ++ queued ∧
      ch'.Lossless ∧ (∃ n, (Channel.consume^[n] ch').seen.map TRB.payload = ch.pushed ++ queued) ∧
      (WellFormedTransfer setup buf len queued ↔ HasData buf len) := by
  obtain ⟨ch', hring', hpushed, hpending⟩ := queue_of_controlTransfer hring hidle hrun hcall
  have hlossless := lossless_of_run (hbefore.append hrun) (.endpoint0 slotId) hring'
  refine ⟨ch', _, hring', hpushed, hlossless, ?_, wellFormed_controlStages_iff setup buf len⟩
  rw [← hpushed]
  exact hlossless.drains hpending

/-- The controller once slot 1 has its transfer ring. -/
def addressed : Controller := (startController 0x1000).addressDevice 1 0x2000

theorem run_addressed :
    Run (Guarded Roomy Step) (startController 0x1000) [.addressDevice 1 0x2000] addressed :=
  .single ⟨trivial, .addressDevice 1 0x2000⟩

/-- The device descriptor is asked for. -/
theorem controlTransfer_wellFormed_getDescriptor :
    ∃ (c : Controller) (ch : Channel) (queued : List TRB),
    c.rings (.endpoint0 1) = some ch ∧ ch.pushed = [] ++ queued ∧
    WellFormedTransfer (.getDescriptor 1 0 18) 0x3000 18 queued := by
  have hring : addressed.rings (.endpoint0 1) = some (.start 0x2000 kEp0RingSize) := rfl
  obtain ⟨ops, c, hrun, hcall⟩ := exists_run_controlTransfer (.getDescriptor 1 0 18) 0x3000 18
    hring rfl (by decide)
  obtain ⟨ch, queued, hring', hpushed, -, -, hiff⟩ :=
    controlTransfer_wellFormed_iff run_addressed hring rfl hrun hcall
  exact ⟨c, ch, queued, hring', hpushed, hiff.mpr (by decide)⟩

/-- `SetConfiguration` has no data, and its status stage goes out. -/
theorem not_wellFormed_setConfiguration : ∃ ops c ch,
    Run (Guarded Roomy Step) addressed ops c ∧
    IsControlTransfer 1 (.setConfiguration 1) 0 0 ops ∧ c.rings (.endpoint0 1) = some ch ∧
    ch.pushed = [.setupStage 0x00010900 0 0, .statusStage 0] ∧
    ¬ (TRB.statusStage 0).DirectionIn ∧
    ¬ WellFormedTransfer (.setConfiguration 1) 0 0 ch.pushed := by
  have hring : addressed.rings (.endpoint0 1) = some (.start 0x2000 kEp0RingSize) := rfl
  obtain ⟨ops, c, hrun, hcall⟩ := exists_run_controlTransfer (.setConfiguration 1) 0 0
    hring rfl (by decide)
  obtain ⟨ch, hring', hpushed, -⟩ := queue_of_controlTransfer hring rfl hrun hcall
  have hstages : ch.pushed = controlStages (.setConfiguration 1) 0 0 := hpushed
  refine ⟨ops, c, ch, hrun, hcall, hring', ?_, by decide, ?_⟩
  · rw [hstages]
    decide
  · rw [hstages, wellFormed_controlStages_iff]
    decide

end Controller

end Usb
end MinOS
