import MinOS.Library.CycleRing
import MinOS.Library.Transition
import MinOS.Usb.Trb

/-!
# The event ring

`WaitEvent` spins on the block at its dequeue position, moves the position on,
writes it to the ERDP register in two halves and only then looks at the type of
the event.  The controller may post events between any two of these accesses.
-/

namespace MinOS
namespace Usb

open Transition CycleRing

/-- `kEventRingSize`. -/
def kEventRingSize : ℕ := 256

/-- What a call of `WaitEvent` does next. -/
inductive Phase where
  | spin
  | erdpLo
  | erdpHi
  | inspect
deriving DecidableEq

/-- The event ring, the driver's position in it, the ERDP register, and the
controller that posts into it. -/
structure EventRing where
  base : BitVec 64
  /-- The memory comes from `AllocAlignedZeroed(.., 64)`. -/
  aligned : base.toNat % 64 = 0
  size : ℕ
  trbs : ℕ → TRB
  dequeue : ℕ
  cycle : Bool
  phase : Phase
  /-- The slot that `event` points to. -/
  event : ℕ
  erdpLo : BitVec 32
  erdpHi : BitVec 32
  /-- The controller's enqueue position and its cycle state. -/
  enqueue : ℕ
  pcs : Bool
  /-- The events as the controller stored them. -/
  posted : List TRB
  /-- How many slots the pointers written to ERDP have passed. -/
  released : ℕ
  /-- The events that the calls so far returned. -/
  returned : List TRB

namespace EventRing

/-- The ring as `StartController` builds it. -/
def start (base : BitVec 64) (aligned : base.toNat % 64 = 0) (size : ℕ) : EventRing where
  base := base
  aligned := aligned
  size := size
  trbs := fun _ ↦ TRB.zero
  dequeue := 0
  cycle := true
  phase := .spin
  event := 0
  erdpLo := base.setWidth 32
  erdpHi := (base >>> 32).setWidth 32
  enqueue := 0
  pcs := true
  posted := []
  released := 0
  returned := []

/-- `&event_ring_[i]`. -/
def address (r : EventRing) (i : ℕ) : BitVec 64 := r.base + BitVec.ofNat 64 (16 * i)

/-- The position and the cycle state after the slot `i`. -/
def next (size i : ℕ) (cycle : Bool) : ℕ × Bool :=
  if i + 1 = size then (0, !cycle) else (i + 1, cycle)

/-- The next access of `WaitEvent`. -/
def waitEvent (r : EventRing) : EventRing :=
  match r.phase with
  | .spin =>
      if (r.trbs r.dequeue).control &&& TRB_CYCLE = cycleWord r.cycle then
        { r with
          event := r.dequeue
          dequeue := (next r.size r.dequeue r.cycle).1
          cycle := (next r.size r.dequeue r.cycle).2
          phase := .erdpLo }
      else r
  | .erdpLo =>
      { r with erdpLo := (r.address r.dequeue).setWidth 32 ||| 8, phase := .erdpHi }
  | .erdpHi =>
      { r with
        erdpHi := (r.address r.dequeue >>> 32).setWidth 32
        phase := .inspect
        released := r.released + 1 }
  | .inspect =>
      if (r.trbs r.event).type = TRB_TYPE_PORT_STATUS_CHG.toNat then { r with phase := .spin }
      else { r with phase := .spin, returned := r.returned ++ [r.trbs r.event] }

/-- The controller posts an event. -/
def post (r : EventRing) (e : TRB) : EventRing :=
  { r with
    trbs := Function.update r.trbs r.enqueue (e.stored r.pcs)
    enqueue := (next r.size r.enqueue r.pcs).1
    pcs := (next r.size r.enqueue r.pcs).2
    posted := r.posted ++ [e.stored r.pcs] }

inductive Op where
  | post (e : TRB)
  | waitEvent

/-- The controller posts as long as the pointer in ERDP has passed the slot; the
cycle bit of what it posts is its own. -/
inductive Step : EventRing → Op → EventRing → Prop where
  | post {r : EventRing} {e : TRB} (hclear : e.cycle = false)
      (hpassed : r.posted.length < r.released + r.size) : Step r (.post e) (r.post e)
  | waitEvent (r : EventRing) : Step r .waitEvent r.waitEvent

/-- The slot of the event that a call has released and not returned or skipped
yet is not posted into. -/
def Spares (r : EventRing) : Op → Prop
  | .post _ => r.phase = .inspect → r.enqueue ≠ r.event
  | .waitEvent => True

instance (r : EventRing) (op : Op) : Decidable (Spares r op) :=
  match op with
  | .post _ => inferInstanceAs (Decidable (_ → _))
  | .waitEvent => isTrue trivial

/-- The pointer in ERDP, apart from the flags in its low bits. -/
def erdp (r : EventRing) : BitVec 64 := (r.erdpHi ++ r.erdpLo) &&& ~~~(15#64)

/-- How many events the calls are done with. -/
def handled (r : EventRing) : ℕ := if r.phase = .inspect then r.released - 1 else r.released

/-- `WaitEvent` passes over this event. -/
def IsSkipped (t : TRB) : Prop := t.type = TRB_TYPE_PORT_STATUS_CHG.toNat

instance (t : TRB) : Decidable (IsSkipped t) := inferInstanceAs (Decidable (_ = _))

/-- The calls so far returned the posted events other than Port Status Changes, in
order and once each; ERDP names the next unread slot, except between its two
halves; and calls that the controller leaves alone return the rest. -/
structure Delivers (r : EventRing) : Prop where
  returned : r.returned = (r.posted.take r.handled).filter (¬ IsSkipped ·)
  erdp : r.phase ≠ .erdpHi → r.erdp = r.address (r.released % r.size)
  drains : ∃ n, (waitEvent^[n] r).returned = r.posted.filter (¬ IsSkipped ·)

theorem next_mod {size : ℕ} (hsize : 0 < size) (n : ℕ) :
    next size (n % size) (flag size n) = ((n + 1) % size, flag size (n + 1)) := by
  rw [next]
  have hlt := Nat.mod_lt n hsize
  by_cases hend : n % size + 1 = size
  · rw [if_pos hend, (succ_mod_of_eq hsize hend).1, flag_succ_of_eq hsize hend]
  · have hmid : n % size + 1 < size := lt_of_le_of_ne hlt hend
    rw [if_neg hend, (succ_mod_of_lt hmid).1, flag_succ_of_lt hmid]

theorem getLsbD_address (r : EventRing) (i : ℕ) {k : ℕ} (hk : k < 4) :
    (r.address i).getLsbD k = false := by
  have haligned := r.aligned
  have hsum : (r.address i).toNat % 16 = 0 := by
    rw [address, BitVec.toNat_add, BitVec.toNat_ofNat]
    omega
  obtain ⟨q, hq⟩ := Nat.dvd_of_mod_eq_zero hsum
  rw [BitVec.getLsbD, hq, show (16 : ℕ) = 2 ^ 4 by rfl, Nat.testBit_two_pow_mul]
  simp [not_le.mpr hk]

/-- Reading back the two halves that `WaitEvent` writes, without the low bits. -/
theorem halves_address (r : EventRing) (i : ℕ) (flags : BitVec 32)
    (hflags : ∀ k, 4 ≤ k → flags.getLsbD k = false) :
    (((r.address i >>> 32).setWidth 32 ++ ((r.address i).setWidth 32 ||| flags)) : BitVec 64) &&&
      ~~~(15#64) = r.address i := by
  apply BitVec.eq_of_getLsbD_eq
  intro k hk
  have hmask : (15#64).getLsbD k = decide (k < 4) := by
    rw [BitVec.getLsbD_ofNat, show 15 = 2 ^ 4 - 1 by rfl, Nat.testBit_two_pow_sub_one]
    simp [hk]
  rw [BitVec.getLsbD_and, BitVec.getLsbD_not, hmask, BitVec.getLsbD_append]
  by_cases hlow : k < 4
  · rw [r.getLsbD_address i hlow]
    simp [hlow]
  · by_cases hhalf : k < 32
    · rw [if_pos hhalf, BitVec.getLsbD_or, BitVec.getLsbD_setWidth, hflags k (not_lt.mp hlow)]
      simp [hlow, hhalf, hk]
    · simp only [hlow, hhalf, hk, BitVec.getLsbD_setWidth, BitVec.getLsbD_ushiftRight,
        Nat.add_sub_cancel' (not_lt.mp hhalf), show k - 32 < 32 by omega]
      simp

/-- Where a call stands, `f` events being done with. -/
inductive Calling (r : EventRing) (f : ℕ) : Prop where
  | spin (hphase : r.phase = .spin) (hreleased : r.released = f)
      (hdequeue : r.dequeue = f % r.size) (hcycle : r.cycle = flag r.size f)
  | erdpLo (hphase : r.phase = .erdpLo) (hreleased : r.released = f)
      (hdequeue : r.dequeue = (f + 1) % r.size) (hcycle : r.cycle = flag r.size (f + 1))
      (hlt : f < r.posted.length) (hevent : r.event = f % r.size)
  | erdpHi (hphase : r.phase = .erdpHi) (hreleased : r.released = f)
      (hdequeue : r.dequeue = (f + 1) % r.size) (hcycle : r.cycle = flag r.size (f + 1))
      (hlt : f < r.posted.length) (hevent : r.event = f % r.size)
      (hlo : r.erdpLo = (r.address r.dequeue).setWidth 32 ||| 8)
  | inspect (hphase : r.phase = .inspect) (hreleased : r.released = f + 1)
      (hdequeue : r.dequeue = (f + 1) % r.size) (hcycle : r.cycle = flag r.size (f + 1))
      (hlt : f < r.posted.length) (hevent : r.event = f % r.size)

/-- What holds of the ring when the calls are done with `f` events. -/
structure Fits (r : EventRing) (f : ℕ) : Prop where
  synced : Synced r.size TRB.cycle r.trbs r.posted f
  returned : r.returned = (r.posted.take f).filter (¬ IsSkipped ·)
  enqueue : r.enqueue = r.posted.length % r.size
  pcs : r.pcs = flag r.size r.posted.length
  calling : Calling r f
  erdp : r.phase ≠ .erdpHi → r.erdp = r.address (r.released % r.size)

variable {r : EventRing} {f : ℕ}

theorem fits_start (base : BitVec 64) (aligned : base.toNat % 64 = 0) {size : ℕ}
    (hsize : 0 < size) : Fits (start base aligned size) 0 where
  synced := Synced.empty hsize fun _ _ ↦ by
    change cycleOf 0 = false
    decide
  returned := rfl
  enqueue := (Nat.zero_mod _).symm
  pcs := (flag_zero _).symm
  calling := .spin rfl rfl (Nat.zero_mod _).symm (flag_zero _).symm
  erdp := by
    intro _
    have haddress : (start base aligned size).address 0 = base := by simp [address, start]
    have hhalves := halves_address (start base aligned size) 0 0 fun _ _ ↦ by simp
    change (start base aligned size).erdp = (start base aligned size).address (0 % size)
    rw [Nat.zero_mod, ← hhalves, haddress, EventRing.erdp]
    simp [start]

theorem Fits.post (h : Fits r f) {e : TRB} (hclear : e.cycle = false)
    (hroom : r.posted.length < f + r.size) : Fits (r.post e) f := by
  have hnext : next r.size r.enqueue r.pcs =
      ((r.posted.length + 1) % r.size, flag r.size (r.posted.length + 1)) := by
    rw [h.enqueue, h.pcs, next_mod h.synced.pos]
  have hlength : (r.posted ++ [e.stored r.pcs]).length = r.posted.length + 1 := by simp
  constructor
  · apply h.synced.publish hroom h.enqueue
    rw [TRB.cycle_stored_of_clear hclear, h.pcs]
  · change r.returned = ((r.posted ++ [e.stored r.pcs]).take f).filter _
    rw [List.take_append_of_le_length h.synced.read_le]
    exact h.returned
  · change (next r.size r.enqueue r.pcs).1 = (r.posted ++ [e.stored r.pcs]).length % r.size
    rw [hnext, hlength]
  · change (next r.size r.enqueue r.pcs).2 = flag r.size (r.posted ++ [e.stored r.pcs]).length
    rw [hnext, hlength]
  · have hmore {n : ℕ} (hn : n < r.posted.length) : n < (r.posted ++ [e.stored r.pcs]).length := by
      rw [hlength]
      exact hn.trans (Nat.lt_succ_self _)
    cases h.calling with
    | spin hphase hreleased hdequeue hcycle => exact .spin hphase hreleased hdequeue hcycle
    | erdpLo hphase hreleased hdequeue hcycle hlt hevent =>
        exact .erdpLo hphase hreleased hdequeue hcycle (hmore hlt) hevent
    | erdpHi hphase hreleased hdequeue hcycle hlt hevent hlo =>
        exact .erdpHi hphase hreleased hdequeue hcycle (hmore hlt) hevent hlo
    | inspect hphase hreleased hdequeue hcycle hlt hevent =>
        exact .inspect hphase hreleased hdequeue hcycle (hmore hlt) hevent
  · exact h.erdp

/-- The block that the call looks at carries the expected cycle bit exactly when
there is an event left. -/
theorem Fits.valid_iff (h : Fits r f) (hdequeue : r.dequeue = f % r.size)
    (hcycle : r.cycle = flag r.size f) :
    (r.trbs r.dequeue).control &&& TRB_CYCLE = cycleWord r.cycle ↔ f < r.posted.length := by
  rw [← cycleOf_eq_iff, hdequeue, hcycle]
  exact h.synced.valid_iff

theorem Fits.waitEvent_idle (h : Fits r f) (hphase : r.phase = .spin)
    (hge : ¬ f < r.posted.length) : r.waitEvent = r := by
  cases h.calling with
  | spin _ _ hdequeue hcycle =>
      simp only [waitEvent, hphase]
      rw [if_neg (mt (h.valid_iff hdequeue hcycle).mp hge)]
  | erdpLo hother => simp [hphase] at hother
  | erdpHi hother => simp [hphase] at hother
  | inspect hother => simp [hphase] at hother

theorem Fits.waitEvent_spin (h : Fits r f) (hphase : r.phase = .spin)
    (hlt : f < r.posted.length) : Fits r.waitEvent f ∧ r.waitEvent.phase = .erdpLo := by
  cases h.calling with
  | erdpLo hother => simp [hphase] at hother
  | erdpHi hother => simp [hphase] at hother
  | inspect hother => simp [hphase] at hother
  | spin _ hreleased hdequeue hcycle =>
      have hnext : next r.size r.dequeue r.cycle = ((f + 1) % r.size, flag r.size (f + 1)) := by
        rw [hdequeue, hcycle, next_mod h.synced.pos]
      have herdp := h.erdp (by simp [hphase])
      simp only [waitEvent, hphase]
      rw [if_pos ((h.valid_iff hdequeue hcycle).mpr hlt), hnext]
      refine ⟨⟨h.synced, h.returned, h.enqueue, h.pcs, ?_, fun _ ↦ herdp⟩, rfl⟩
      exact .erdpLo rfl hreleased rfl rfl hlt hdequeue

theorem Fits.waitEvent_erdpLo (h : Fits r f) (hphase : r.phase = .erdpLo) :
    Fits r.waitEvent f ∧ r.waitEvent.phase = .erdpHi := by
  cases h.calling with
  | spin hother => simp [hphase] at hother
  | erdpHi hother => simp [hphase] at hother
  | inspect hother => simp [hphase] at hother
  | erdpLo _ hreleased hdequeue hcycle hlt hevent =>
      simp only [waitEvent, hphase]
      refine ⟨⟨h.synced, h.returned, h.enqueue, h.pcs, ?_, fun hne ↦ absurd rfl hne⟩, trivial⟩
      exact .erdpHi rfl hreleased hdequeue hcycle hlt hevent rfl

theorem Fits.waitEvent_erdpHi (h : Fits r f) (hphase : r.phase = .erdpHi) :
    Fits r.waitEvent f ∧ r.waitEvent.phase = .inspect := by
  cases h.calling with
  | spin hother => simp [hphase] at hother
  | erdpLo hother => simp [hphase] at hother
  | inspect hother => simp [hphase] at hother
  | erdpHi _ hreleased hdequeue hcycle hlt hevent hlo =>
      have hflags (k : ℕ) (hk : 4 ≤ k) : (8 : BitVec 32).getLsbD k = false := by
        change (BitVec.ofNat 32 (2 ^ 3)).getLsbD k = false
        rw [BitVec.getLsbD_ofNat, Nat.testBit_two_pow]
        simp only [show ¬ 3 = k by omega, decide_false, Bool.and_false]
      have hhalves := halves_address r r.dequeue 8 hflags
      simp only [waitEvent, hphase]
      refine ⟨⟨h.synced, h.returned, h.enqueue, h.pcs, ?_, fun _ ↦ ?_⟩, trivial⟩
      · exact .inspect rfl (congrArg (· + 1) hreleased) hdequeue hcycle hlt hevent
      · change ((r.address r.dequeue >>> 32).setWidth 32 ++ r.erdpLo) &&& ~~~(15#64) =
          r.address ((r.released + 1) % r.size)
        rw [hlo, hhalves, hdequeue, hreleased]

theorem Fits.waitEvent_inspect (h : Fits r f) (hphase : r.phase = .inspect) :
    Fits r.waitEvent (f + 1) ∧ r.waitEvent.phase = .spin := by
  cases h.calling with
  | spin hother => simp [hphase] at hother
  | erdpLo hother => simp [hphase] at hother
  | erdpHi hother => simp [hphase] at hother
  | inspect _ hreleased hdequeue hcycle hlt hevent =>
      have hitem : r.posted[f]? = some (r.trbs r.event) := by
        rw [hevent]
        exact h.synced.getElem?_read hlt
      have htake : r.posted.take (f + 1) = r.posted.take f ++ [r.trbs r.event] := by
        rw [List.take_add_one, hitem, Option.toList_some]
      have herdp := h.erdp (by simp [hphase])
      have hread := h.synced.read hlt
      simp only [waitEvent, hphase]
      split_ifs with htype
      · refine ⟨⟨hread, ?_, h.enqueue, h.pcs, .spin rfl hreleased hdequeue hcycle,
          fun _ ↦ herdp⟩, rfl⟩
        rw [htake, List.filter_append, ← h.returned]
        simp [IsSkipped, htype]
      · refine ⟨⟨hread, ?_, h.enqueue, h.pcs, .spin rfl hreleased hdequeue hcycle,
          fun _ ↦ herdp⟩, rfl⟩
        rw [htake, List.filter_append, ← h.returned]
        simp [IsSkipped, htype]

theorem Fits.waitEvent (h : Fits r f) : ∃ f', Fits r.waitEvent f' := by
  cases hphase : r.phase with
  | spin =>
      by_cases hlt : f < r.posted.length
      · exact ⟨f, (h.waitEvent_spin hphase hlt).1⟩
      · exact ⟨f, by rwa [h.waitEvent_idle hphase hlt]⟩
  | erdpLo => exact ⟨f, (h.waitEvent_erdpLo hphase).1⟩
  | erdpHi => exact ⟨f, (h.waitEvent_erdpHi hphase).1⟩
  | inspect => exact ⟨f + 1, (h.waitEvent_inspect hphase).1⟩

theorem Fits.handled_eq (h : Fits r f) : r.handled = f := by
  cases h.calling with
  | spin hphase hreleased => rw [handled, hphase, hreleased, if_neg (by decide)]
  | erdpLo hphase hreleased => rw [handled, hphase, hreleased, if_neg (by decide)]
  | erdpHi hphase hreleased => rw [handled, hphase, hreleased, if_neg (by decide)]
  | inspect hphase hreleased =>
      rw [handled, hphase, hreleased, if_pos rfl, Nat.add_sub_cancel]

/-- A slot that the pointer has passed is free, unless the call still needs it. -/
theorem Fits.room_of_spares (h : Fits r f) {e : TRB} (hspares : Spares r (.post e))
    (hpassed : r.posted.length < r.released + r.size) : r.posted.length < f + r.size := by
  cases h.calling with
  | spin _ hreleased => rwa [hreleased] at hpassed
  | erdpLo _ hreleased => rwa [hreleased] at hpassed
  | erdpHi _ hreleased => rwa [hreleased] at hpassed
  | inspect hphase hreleased _ _ _ hevent =>
      have hne : r.posted.length ≠ f + r.size := by
        intro hfull
        apply hspares hphase
        rw [h.enqueue, hevent, hfull, Nat.add_mod_right]
      omega

theorem fits_step {r r' : EventRing} {op : Op} (h : ∃ f, Fits r f)
    (hstep : Guarded Spares Step r op r') : ∃ f, Fits r' f := by
  obtain ⟨hspares, hstep⟩ := hstep
  obtain ⟨f, h⟩ := h
  cases hstep with
  | post hclear hpassed => exact ⟨f, h.post hclear (h.room_of_spares hspares hpassed)⟩
  | waitEvent => exact h.waitEvent

theorem posted_waitEvent (r : EventRing) : r.waitEvent.posted = r.posted := by
  rw [EventRing.waitEvent]
  split
  · split_ifs <;> rfl
  · rfl
  · rfl
  · split_ifs <;> rfl

theorem size_waitEvent (r : EventRing) : r.waitEvent.size = r.size := by
  rw [EventRing.waitEvent]
  split
  · split_ifs <;> rfl
  · rfl
  · rfl
  · split_ifs <;> rfl

theorem posted_iterate (r : EventRing) (n : ℕ) :
    (EventRing.waitEvent^[n] r).posted = r.posted := by
  induction n with
  | zero => rfl
  | succ n ih => rw [Function.iterate_succ_apply', posted_waitEvent, ih]

/-- The call comes to the end of the next event in at most four steps. -/
theorem Fits.progress (h : Fits r f) (hlt : f < r.posted.length) :
    ∃ n, Fits (EventRing.waitEvent^[n] r) (f + 1) := by
  have hinspect {r : EventRing} (h : Fits r f ∧ r.phase = .inspect) :
      ∃ n, Fits (EventRing.waitEvent^[n] r) (f + 1) :=
    ⟨1, (h.1.waitEvent_inspect h.2).1⟩
  have herdpHi {r : EventRing} (h : Fits r f ∧ r.phase = .erdpHi) :
      ∃ n, Fits (EventRing.waitEvent^[n] r) (f + 1) := by
    obtain ⟨n, hn⟩ := hinspect (h.1.waitEvent_erdpHi h.2)
    exact ⟨n + 1, hn⟩
  have herdpLo {r : EventRing} (h : Fits r f ∧ r.phase = .erdpLo) :
      ∃ n, Fits (EventRing.waitEvent^[n] r) (f + 1) := by
    obtain ⟨n, hn⟩ := herdpHi (h.1.waitEvent_erdpLo h.2)
    exact ⟨n + 1, hn⟩
  cases hphase : r.phase with
  | spin =>
      obtain ⟨n, hn⟩ := herdpLo (h.waitEvent_spin hphase hlt)
      exact ⟨n + 1, hn⟩
  | erdpLo => exact herdpLo ⟨h, hphase⟩
  | erdpHi => exact herdpHi ⟨h, hphase⟩
  | inspect => exact hinspect ⟨h, hphase⟩

theorem Fits.drains (h : Fits r f) :
    ∃ n, (EventRing.waitEvent^[n] r).returned = r.posted.filter (¬ IsSkipped ·) := by
  have hmore (k : ℕ) (hk : f + k ≤ r.posted.length) :
      ∃ n, Fits (EventRing.waitEvent^[n] r) (f + k) := by
    induction k with
    | zero => exact ⟨0, h⟩
    | succ k ih =>
        obtain ⟨n, hn⟩ := ih (by omega)
        obtain ⟨n', hn'⟩ := hn.progress (by rw [posted_iterate]; omega)
        refine ⟨n' + n, ?_⟩
        rwa [Function.iterate_add_apply]
  have hle := h.synced.read_le
  obtain ⟨n, hn⟩ := hmore (r.posted.length - f) (by omega)
  refine ⟨n, ?_⟩
  rw [hn.returned, posted_iterate, List.take_of_length_le (by omega)]

theorem Fits.delivers (h : Fits r f) : r.Delivers where
  returned := by
    rw [h.handled_eq]
    exact h.returned
  erdp := h.erdp
  drains := h.drains

/-- A controller that leaves one slot of a full ring unused, as the xHCI does,
spares the event. -/
theorem Fits.spares_of_unused (h : Fits r f) {e : TRB}
    (hunused : r.posted.length + 1 < r.released + r.size) : Spares r (.post e) := by
  intro hphase heq
  cases h.calling with
  | spin hother => simp [hphase] at hother
  | erdpLo hother => simp [hphase] at hother
  | erdpHi hother => simp [hphase] at hother
  | inspect _ hreleased _ _ hlt hevent =>
      rw [h.enqueue, hevent] at heq
      exact mod_ne_mod hlt (by omega) heq.symm

/-- Over any number of laps and in any order of posts and accesses, the calls
deliver the posted events if the controller spares the event that a call has
released but not looked at. -/
theorem delivers_of_run {base : BitVec 64} {aligned : base.toNat % 64 = 0} {ops : List Op}
    {r : EventRing}
    (hrun : Run (Guarded Spares Step) (start base aligned kEventRingSize) ops r) :
    r.Delivers := by
  have hfits := hrun.invariant (fun _ _ _ h hstep ↦ fits_step h hstep)
    ⟨0, fits_start base aligned (by decide)⟩
  obtain ⟨f, h⟩ := hfits
  exact h.delivers

/-- A Command Completion event. -/
def completion : TRB := ⟨0, 0, 0x01000000, trbSetType TRB_TYPE_CMD_COMPLETION⟩

/-- A Port Status Change event of port 1. -/
def portStatus : TRB := ⟨0x01000000, 0, 0x01000000, trbSetType TRB_TYPE_PORT_STATUS_CHG⟩

theorem run_waitEvent {s r : EventRing} {ops : List Op}
    (hrun : Run (Guarded Spares Step) s ops r) :
    Run (Guarded Spares Step) s (ops ++ [.waitEvent]) r.waitEvent :=
  hrun.snoc ⟨trivial, .waitEvent r⟩

/-- A port change and a completion are posted while a call waits; the call returns
the completion. -/
theorem delivers_completion : ∃ r,
    Run (Guarded Spares Step) (start 0x2000 (by decide) kEventRingSize)
      [.waitEvent, .post portStatus, .waitEvent, .waitEvent, .waitEvent, .post completion,
        .waitEvent, .waitEvent, .waitEvent, .waitEvent, .waitEvent] r ∧
    r.returned = [completion.stored true] ∧ r.Delivers := by
  have hspin := run_waitEvent (.nil (start 0x2000 (by decide) kEventRingSize))
  have hport : Run (Guarded Spares Step) (start 0x2000 (by decide) kEventRingSize)
      [.waitEvent, .post portStatus] _ :=
    hspin.snoc ⟨by decide, .post (by decide) (by decide)⟩
  have hinspect := run_waitEvent (run_waitEvent (run_waitEvent hport))
  have hcompletion : Run (Guarded Spares Step) (start 0x2000 (by decide) kEventRingSize)
      [.waitEvent, .post portStatus, .waitEvent, .waitEvent, .waitEvent, .post completion] _ :=
    hinspect.snoc ⟨by decide, .post (by decide) (by decide)⟩
  have hlast := run_waitEvent (run_waitEvent (run_waitEvent (run_waitEvent
    (run_waitEvent hcompletion))))
  exact ⟨_, hlast, by decide, delivers_of_run hlast⟩

/-- The ring after `n` completions that no call has looked at yet. -/
theorem run_completions (base : BitVec 64) (aligned : base.toNat % 64 = 0) {n : ℕ}
    (hn : n ≤ kEventRingSize) : ∃ r,
    Run (Guarded Spares Step) (start base aligned kEventRingSize)
      (List.replicate n (.post completion)) r ∧
    r.phase = .spin ∧ r.released = 0 ∧ r.size = kEventRingSize ∧ r.posted.length = n ∧
    (0 < n → ∃ cycle, r.posted[0]? = some (completion.stored cycle)) := by
  induction n with
  | zero => exact ⟨_, .nil _, rfl, rfl, rfl, rfl, fun h ↦ absurd h (lt_irrefl 0)⟩
  | succ n ih =>
      obtain ⟨r, hrun, hphase, hreleased, hsize, hlength, hfirst⟩ := ih (by omega)
      have hspares : Spares r (.post completion) := fun h ↦ by simp [hphase] at h
      have hstep : Step r (.post completion) (r.post completion) :=
        .post (by decide) (by omega)
      refine ⟨r.post completion, ?_, hphase, hreleased, hsize, ?_, fun _ ↦ ?_⟩
      · rw [List.replicate_succ']
        exact hrun.snoc ⟨hspares, hstep⟩
      · change (r.posted ++ [_]).length = n + 1
        rw [List.length_append, hlength, List.length_singleton]
      · change ∃ cycle, (r.posted ++ [completion.stored r.pcs])[0]? = _
        rcases Nat.eq_zero_or_pos n with rfl | hpos
        · rw [List.length_eq_zero_iff.mp hlength]
          exact ⟨r.pcs, rfl⟩
        · rw [List.getElem?_append_left (by omega)]
          exact hfirst hpos

/-- A Port Status Change in the slot of a released event hides that event. -/
theorem not_delivers_of_reused {r : EventRing} (h : Fits r 0) (hphase : r.phase = .inspect)
    (hfull : r.posted.length = r.size) {cycle : Bool}
    (hfirst : r.posted[0]? = some (completion.stored cycle)) :
    ¬ (r.post portStatus).waitEvent.Delivers := by
  intro hdelivers
  cases h.calling with
  | spin hother => simp [hphase] at hother
  | erdpLo hother => simp [hphase] at hother
  | erdpHi hother => simp [hphase] at hother
  | inspect _ hreleased _ _ hlt hevent =>
      have hslot : r.enqueue = r.event := by
        rw [h.enqueue, hevent, hfull, Nat.mod_self, Nat.zero_mod]
      have htype : ((r.post portStatus).trbs r.event).type =
          TRB_TYPE_PORT_STATUS_CHG.toNat := by
        change (Function.update r.trbs r.enqueue (portStatus.stored r.pcs) r.event).type = _
        rw [hslot, Function.update_self]
        cases r.pcs <;> decide
      have hskip : (r.post portStatus).waitEvent = { r.post portStatus with phase := .spin } := by
        rw [EventRing.waitEvent, show (r.post portStatus).phase = .inspect from hphase]
        exact if_pos htype
      have hreturned := hdelivers.returned
      rw [hskip] at hreturned
      change r.returned = ((r.posted ++ [_]).take r.released).filter _ at hreturned
      have hone : (r.posted ++ [portStatus.stored r.pcs]).take 1 = [completion.stored cycle] := by
        rw [List.take_append_of_le_length hlt, List.take_add_one, hfirst]
        rfl
      rw [h.returned, hreleased, zero_add, hone, List.take_zero] at hreturned
      cases cycle <;> exact absurd hreturned (by decide)

/-- If the controller may reuse the slot as soon as ERDP has passed it, it can
put another event in the place of one that a call has not looked at. -/
theorem not_delivers_reused : ¬ ∀ (base : BitVec 64) (aligned : base.toNat % 64 = 0)
    (ops : List Op) (r : EventRing),
    Run Step (start base aligned kEventRingSize) ops r → r.Delivers := by
  intro hall
  obtain ⟨r, hrun, hphase, hreleased, hsize, hlength, hfirst⟩ :=
    run_completions 0x2000 (by decide) le_rfl
  obtain ⟨cycle, hfirst⟩ := hfirst (by decide)
  obtain ⟨f, hfits⟩ := hrun.invariant (fun _ _ _ h hstep ↦ fits_step h hstep)
    ⟨0, fits_start 0x2000 (by decide) (by decide)⟩
  have hf : f = 0 := by rw [← hfits.handled_eq, handled, hphase, hreleased, if_neg (by decide)]
  subst hf
  have hlo := hfits.waitEvent_spin hphase (by rw [hlength]; decide)
  have hhi := hlo.1.waitEvent_erdpLo hlo.2
  have hinspect := hhi.1.waitEvent_erdpHi hhi.2
  have hposted : r.waitEvent.waitEvent.waitEvent.posted = r.posted := by
    rw [posted_waitEvent, posted_waitEvent, posted_waitEvent]
  have hfull : r.waitEvent.waitEvent.waitEvent.posted.length =
      r.waitEvent.waitEvent.waitEvent.size := by
    rw [hposted, size_waitEvent, size_waitEvent, size_waitEvent, hlength, hsize]
  have hreused : Step r.waitEvent.waitEvent.waitEvent (.post portStatus)
      (r.waitEvent.waitEvent.waitEvent.post portStatus) := by
    refine .post (by decide) ?_
    cases hinspect.1.calling with
    | spin hother => simp [hinspect.2] at hother
    | erdpLo hother => simp [hinspect.2] at hother
    | erdpHi hother => simp [hinspect.2] at hother
    | inspect _ hreleased => omega
  have hwait := run_waitEvent (run_waitEvent (run_waitEvent hrun))
  have hplain := hwait.mono fun _ _ _ hstep ↦ hstep.2
  refine not_delivers_of_reused hinspect.1 hinspect.2 hfull (by rwa [hposted]) ?_
  exact hall _ _ _ _ ((hplain.snoc hreused).snoc (.waitEvent _))

end EventRing

end Usb
end MinOS
