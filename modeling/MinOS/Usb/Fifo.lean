import MinOS.Usb.Ring

/-!
# The rings of the driver are lossless queues

A lap of the ring is one round of its work slots.  The invariant counts the
pushes that have run to their end; the position and the cycle state of both
sides, and the flag in the link, are determined by the counts.
-/

namespace MinOS
namespace Usb

open Transition CycleRing

namespace Channel

/-- The blocks as they are stored, each with the cycle state of its lap. -/
def stored (m : ℕ) (ts : List TRB) : List TRB := ts.mapIdx fun n t ↦ t.stored (flag m n)

/-- How far the push in progress has got: `e` pushes have run to their end and
`p` blocks are published. -/
inductive Writing (s : Channel) : ℕ → ℕ → Prop where
  | idle (hpending : s.pending = []) : Writing s s.pushed.length s.pushed.length
  | filling {ts : List TRB} {t : TRB} {words : List (TRB.Word × BitVec 32)}
      (hpushed : s.pushed = ts ++ [t])
      (hpending : s.pending = words.map (fun w ↦ .word w.1 w.2) ++ [.control t.control, .advance])
      (hwords : words.foldl (fun u w ↦ u.set w.1 w.2) s.ring.trb =
        { t with control := s.ring.trb.control }) : Writing s ts.length ts.length
  | advancing {ts : List TRB} {t : TRB} (hpushed : s.pushed = ts ++ [t])
      (hpending : s.pending = [.advance]) : Writing s ts.length (ts.length + 1)

/-- Where the controller is: at a work slot, or at the link of the lap that it
has read. -/
inductive Reading (s : Channel) : Prop where
  | slot (hdequeue : s.dequeue = s.seen.length % s.slots)
      (hccs : s.ccs = flag s.slots s.seen.length)
  | link (hdequeue : s.dequeue = s.slots) (hlap : s.seen.length % s.slots = 0)
      (hccs : s.ccs = !flag s.slots s.seen.length)

/-- What holds of a channel whose ring the driver has filled in `e` pushes and
one that may be under way, `p` blocks being published. -/
structure Fits (s : Channel) (e p : ℕ) : Prop where
  work : ∀ t ∈ s.pushed, t.IsWork
  room : s.pushed.length < s.seen.length + s.slots
  writing : Writing s e p
  synced : Synced s.slots TRB.cycle s.ring.trbs (stored s.slots (s.pushed.take p)) s.seen.length
  seen : s.seen = stored s.slots (s.pushed.take s.seen.length)
  enqueue : s.ring.enqueue = e % s.slots
  cycle : s.ring.cycle = flag s.slots e
  link : (s.ring.trbs s.slots).payload = Ring.linkTrb s.ring.base
  linkCycle : (s.ring.trbs s.slots).cycle = !flag s.slots e
  reading : Reading s

@[simp] theorem length_stored (m : ℕ) (ts : List TRB) : (stored m ts).length = ts.length :=
  List.length_mapIdx

theorem stored_append (m : ℕ) (ts : List TRB) (t : TRB) :
    stored m (ts ++ [t]) = stored m ts ++ [t.stored (flag m ts.length)] := by
  simp [stored]

theorem getElem?_stored (m : ℕ) (ts : List TRB) (n : ℕ) :
    (stored m ts)[n]? = ts[n]?.map fun t ↦ t.stored (flag m n) :=
  List.getElem?_mapIdx

/-- What the controller makes of stored blocks is what was pushed. -/
theorem payload_stored (m : ℕ) {ts : List TRB} (hwork : ∀ t ∈ ts, t.IsWork) :
    (stored m ts).map TRB.payload = ts := by
  induction ts using List.reverseRecOn with
  | nil => rfl
  | append_singleton ts t ih =>
      rw [stored_append, List.map_append, ih fun u hu ↦ hwork u (List.mem_append_left _ hu),
        List.map_singleton, (hwork t (by simp)).payload_stored]

theorem fits_start (base : BitVec 64) {size : ℕ} (hsize : 2 ≤ size) :
    Fits (start base size) 0 0 where
  work := by simp [start]
  room := by
    change 0 < 0 + (size - 1)
    omega
  writing := .idle rfl
  synced := by
    apply Synced.empty
    · change 0 < size - 1
      omega
    · intro i hi
      change (Function.update (fun _ ↦ TRB.zero) (size - 1) (Ring.linkTrb base) i).cycle = false
      rw [Function.update_of_ne (show i ≠ size - 1 from hi.ne)]
      decide
  seen := rfl
  enqueue := (Nat.zero_mod _).symm
  cycle := (flag_zero _).symm
  link := by
    change (Function.update (fun _ ↦ TRB.zero) (size - 1) (Ring.linkTrb base) (size - 1)).payload = _
    rw [Function.update_self, TRB.payload, withoutCycle_of_clear (Ring.cycleOf_linkTrb base)]
    rfl
  linkCycle := by
    change (Function.update (fun _ ↦ TRB.zero) (size - 1) (Ring.linkTrb base) (size - 1)).cycle = _
    rw [Function.update_self, flag_zero]
    exact Ring.cycleOf_linkTrb base
  reading := .slot (Nat.zero_mod _).symm (flag_zero _).symm

variable {s : Channel} {e p : ℕ}

theorem Fits.published_le (h : Fits s e p) : p ≤ s.pushed.length := by
  cases h.writing with
  | idle => exact le_rfl
  | filling hpushed => rw [hpushed, List.length_append]; exact Nat.le_add_right _ _
  | advancing hpushed => rw [hpushed, List.length_append, List.length_singleton]

theorem Fits.finished_le (h : Fits s e p) : e ≤ p := by
  cases h.writing with
  | idle => exact le_rfl
  | filling => exact le_rfl
  | advancing => exact Nat.le_add_right _ _

theorem Fits.length_published (h : Fits s e p) :
    (stored s.slots (s.pushed.take p)).length = p := by
  rw [length_stored, List.length_take, min_eq_left h.published_le]

theorem Fits.seen_le (h : Fits s e p) : s.seen.length ≤ p := by
  have hle := h.synced.read_le
  rwa [h.length_published] at hle

theorem Fits.of_idle (h : Fits s e p) (hidle : s.pending = []) :
    e = s.pushed.length ∧ p = s.pushed.length := by
  cases h.writing with
  | idle => exact ⟨rfl, rfl⟩
  | filling _ hpending => simp [hidle] at hpending
  | advancing _ hpending => simp [hidle] at hpending

/-- A step of the driver leaves the controller where it is. -/
theorem Reading.congr {s' : Channel} (h : Reading s) (hdequeue : s'.dequeue = s.dequeue)
    (hccs : s'.ccs = s.ccs) (hseen : s'.seen = s.seen) (hslots : s'.slots = s.slots) :
    Reading s' := by
  cases h with
  | slot hdequeue₀ hccs₀ =>
      apply Reading.slot
      · rw [hdequeue, hseen, hslots, hdequeue₀]
      · rw [hccs, hseen, hslots, hccs₀]
  | link hdequeue₀ hlap hccs₀ =>
      apply Reading.link
      · rw [hdequeue, hslots, hdequeue₀]
      · rw [hseen, hslots, hlap]
      · rw [hccs, hseen, hslots, hccs₀]

theorem Fits.push (h : Fits s e p) (hidle : s.pending = []) {t : TRB} (ht : t.IsWork)
    (hroom : s.pushed.length + 1 < s.seen.length + s.slots) : Fits (s.push t) e p := by
  obtain ⟨rfl, rfl⟩ := h.of_idle hidle
  have hpub : (s.pushed ++ [t]).take s.pushed.length = s.pushed.take s.pushed.length := by
    rw [List.take_left, List.take_length]
  constructor
  · intro u hu
    rcases List.mem_append.mp hu with hu | hu
    · exact h.work u hu
    · rwa [List.mem_singleton.mp hu]
  · change (s.pushed ++ [t]).length < _
    rwa [List.length_append]
  · exact @Writing.filling (s.push t) s.pushed t
      [(.parameter0, t.parameter0), (.parameter1, t.parameter1), (.status, t.status)] rfl rfl rfl
  · change Synced s.slots TRB.cycle s.ring.trbs
      (stored s.slots ((s.pushed ++ [t]).take s.pushed.length)) s.seen.length
    rw [hpub]
    exact h.synced
  · change s.seen = stored s.slots ((s.pushed ++ [t]).take s.seen.length)
    rw [List.take_append_of_le_length h.seen_le]
    exact h.seen
  · exact h.enqueue
  · exact h.cycle
  · exact h.link
  · exact h.linkCycle
  · exact h.reading.congr rfl rfl rfl rfl

theorem Fits.setTrb_link (h : Fits s e p) (t : TRB) :
    (s.ring.setTrb t).trbs s.slots = s.ring.trbs s.slots := by
  have hlt := Nat.mod_lt e h.synced.pos
  rw [← h.enqueue] at hlt
  exact Function.update_of_ne hlt.ne' _ _

theorem Fits.payload_setTrb_link (h : Fits s e p) (t : TRB) :
    ((s.ring.setTrb t).trbs s.slots).payload = Ring.linkTrb s.ring.base := by
  rw [h.setTrb_link]
  exact h.link

theorem Fits.cycle_setTrb_link (h : Fits s e p) (t : TRB) :
    ((s.ring.setTrb t).trbs s.slots).cycle = !flag s.slots e := by
  rw [h.setTrb_link]
  exact h.linkCycle

theorem Fits.store_word (h : Fits s e p) {w : TRB.Word} {v : BitVec 32} {rest : List Ring.Store}
    (hpending : s.pending = .word w v :: rest) : Fits s.store e p := by
  have hstore : s.store = { s with ring := s.ring.setTrb (s.ring.trb.set w v), pending := rest } := by
    rw [store, hpending]
    rfl
  cases h.writing with
  | idle hidle => simp [hidle] at hpending
  | advancing _ hlast => simp [hlast] at hpending
  | @filling ts t words hpushed hfill hwords =>
      cases words with
      | nil => simp [hfill] at hpending
      | cons first words =>
          simp only [hfill, List.map_cons, List.cons_append, List.cons.injEq,
            Ring.Store.word.injEq] at hpending
          obtain ⟨⟨rfl, rfl⟩, rfl⟩ := hpending
          have hroom := h.room
          have hlength := h.length_published
          rw [hstore]
          refine ⟨h.work, h.room, .filling hpushed rfl ?_, ?_, h.seen, h.enqueue, h.cycle, ?_, ?_, ?_⟩
          · change words.foldl _ ((s.ring.setTrb _).trb) = _
            simp only [Ring.trb, Ring.setTrb, Function.update_self, TRB.control_set]
            exact hwords
          · change Synced s.slots TRB.cycle (Function.update s.ring.trbs s.ring.enqueue _) _ _
            apply h.synced.prepare
            · rw [hlength]
              rw [hpushed, List.length_append, List.length_singleton] at hroom
              omega
            · rw [hlength, h.enqueue]
            · rw [TRB.cycle, TRB.control_set]
              rfl
          · exact h.payload_setTrb_link _
          · exact h.cycle_setTrb_link _
          · exact h.reading.congr rfl rfl rfl rfl

theorem Fits.store_control (h : Fits s e p) {v : BitVec 32} {rest : List Ring.Store}
    (hpending : s.pending = .control v :: rest) : Fits s.store e (p + 1) := by
  have hstore : s.store = { s with
      ring := s.ring.setTrb { s.ring.trb with control := v ||| cycleWord s.ring.cycle }
      pending := rest } := by
    rw [store, hpending]
    rfl
  cases h.writing with
  | idle hidle => simp [hidle] at hpending
  | advancing _ hlast => simp [hlast] at hpending
  | @filling ts t words hpushed hfill hwords =>
      cases words with
      | cons first words => simp [hfill] at hpending
      | nil =>
          simp only [hfill, List.map_nil, List.nil_append, List.cons.injEq,
            Ring.Store.control.injEq] at hpending
          obtain ⟨rfl, rfl⟩ := hpending
          have hroom := h.room
          have hlength := h.length_published
          have hblock : { s.ring.trb with control := t.control ||| cycleWord s.ring.cycle } =
              t.stored (flag s.slots ts.length) := by
            rw [show s.ring.trb = { t with control := s.ring.trb.control } from hwords, h.cycle]
            rfl
          have hwork : t.IsWork := h.work t (by rw [hpushed]; simp)
          have hitems : stored s.slots (s.pushed.take (ts.length + 1)) =
              stored s.slots (s.pushed.take ts.length) ++ [t.stored (flag s.slots ts.length)] := by
            rw [hpushed, List.take_left, List.take_of_length_le (by simp), stored_append]
          rw [hstore, hblock]
          refine ⟨h.work, h.room, .advancing hpushed rfl, ?_, h.seen, h.enqueue, h.cycle,
            ?_, ?_, ?_⟩
          · change Synced s.slots TRB.cycle (Function.update s.ring.trbs s.ring.enqueue _)
              (stored s.slots (s.pushed.take (ts.length + 1))) s.seen.length
            rw [hitems]
            apply h.synced.publish
            · rw [hlength]
              rw [hpushed, List.length_append, List.length_singleton] at hroom
              omega
            · rw [hlength, h.enqueue]
            · rw [hlength, hwork.cycle_stored]
          · exact h.payload_setTrb_link _
          · exact h.cycle_setTrb_link _
          · exact h.reading.congr rfl rfl rfl rfl

theorem payload_relink (link : TRB) (cycle : Bool) :
    (Ring.relink link cycle).payload = link.payload := by
  rw [TRB.payload, TRB.payload, Ring.relink]
  simp only [withoutCycle_or, withoutCycle_withoutCycle]

theorem Fits.store_advance (h : Fits s e p) {rest : List Ring.Store}
    (hpending : s.pending = .advance :: rest) : Fits s.store (e + 1) p := by
  have hstore : s.store = { s with ring := s.ring.advance, pending := rest } := by
    rw [store, hpending]
    rfl
  cases h.writing with
  | idle hidle => simp [hidle] at hpending
  | @filling _ _ words _ hfill => cases words <;> simp [hfill] at hpending
  | @advancing ts t hpushed hlast =>
      obtain rfl : rest = [] := by simpa [hlast] using hpending.symm
      have hlt := Nat.mod_lt ts.length h.synced.pos
      have hnext : (s.ring.enqueue + 1 = s.ring.size - 1) ↔ ts.length % s.slots + 1 = s.slots := by
        rw [h.enqueue]
        rfl
      have hwriting (ring : Ring) : Writing { s with ring := ring, pending := [] }
          (ts.length + 1) (ts.length + 1) := by
        have hidle := Writing.idle (s := { s with ring := ring, pending := [] }) rfl
        rwa [show s.pushed.length = ts.length + 1 by simp [hpushed]] at hidle
      rw [hstore, Ring.advance]
      by_cases hwrap : s.ring.enqueue + 1 = s.ring.size - 1
      · have hend := hnext.mp hwrap
        have hflag := flag_succ_of_eq h.synced.pos hend
        have hlink : s.slots = s.ring.enqueue + 1 := hwrap.symm
        rw [if_pos hwrap]
        refine ⟨h.work, h.room, hwriting _, ?_, h.seen, ?_, ?_, ?_, ?_, ?_⟩
        · apply h.synced.congr_slots
          intro i hi
          exact Function.update_of_ne (by omega) _ _
        · exact (succ_mod_of_eq h.synced.pos hend).1.symm
        · exact (congrArg not h.cycle).trans hflag.symm
        · change (Function.update s.ring.trbs (s.ring.enqueue + 1) _ s.slots).payload = _
          rw [hlink, Function.update_self, payload_relink, ← hlink]
          exact h.link
        · change (Function.update s.ring.trbs (s.ring.enqueue + 1) _ s.slots).cycle =
            !flag s.slots (ts.length + 1)
          rw [hflag, Bool.not_not, ← h.cycle]
          rw [hlink, Function.update_self]
          exact cycleOf_withoutCycle_or _ _
        · exact h.reading.congr rfl rfl rfl rfl
      · have hmid : ts.length % s.slots + 1 < s.slots :=
          lt_of_le_of_ne hlt fun hend ↦ hwrap (hnext.mpr hend)
        have hflag := flag_succ_of_lt hmid
        rw [if_neg hwrap]
        refine ⟨h.work, h.room, hwriting _, h.synced, h.seen, ?_, ?_, h.link, ?_, ?_⟩
        · exact (congrArg (· + 1) h.enqueue).trans (succ_mod_of_lt hmid).1.symm
        · exact h.cycle.trans hflag.symm
        · exact h.linkCycle.trans (congrArg not hflag.symm)
        · exact h.reading.congr rfl rfl rfl rfl

theorem Fits.store (h : Fits s e p) : ∃ e' p', Fits s.store e' p' := by
  cases hpending : s.pending with
  | nil =>
      have hstore : s.store = s := by
        rw [Channel.store, hpending]
      exact ⟨e, p, by rwa [hstore]⟩
  | cons st rest =>
      cases st with
      | word w v => exact ⟨e, p, h.store_word hpending⟩
      | control v => exact ⟨e, p + 1, h.store_control hpending⟩
      | advance => exact ⟨e + 1, p, h.store_advance hpending⟩

theorem Fits.published_le_succ (h : Fits s e p) : p ≤ e + 1 := by
  cases h.writing with
  | idle => exact Nat.le_add_right _ _
  | filling => exact Nat.le_add_right _ _
  | advancing => exact le_rfl

/-- At a work slot the cycle bit tells whether the slot is published. -/
theorem Fits.valid_slot (h : Fits s e p) (hdequeue : s.dequeue = s.seen.length % s.slots)
    (hccs : s.ccs = flag s.slots s.seen.length) :
    s.current.cycle = s.ccs ↔ s.seen.length < p := by
  rw [current, hdequeue, hccs, h.synced.valid_iff, h.length_published]

/-- At the link the cycle bit tells whether the driver has finished the lap. -/
theorem Fits.valid_link (h : Fits s e p) (hdequeue : s.dequeue = s.slots)
    (hlap : s.seen.length % s.slots = 0) (hccs : s.ccs = !flag s.slots s.seen.length) :
    s.current.cycle = s.ccs ↔ s.seen.length ≤ e := by
  have hroom := h.room
  have hep := h.finished_le
  have hpe := h.published_le_succ
  have hp := h.published_le
  have hseen := h.seen_le
  rw [current, hdequeue, hccs, h.linkCycle, Bool.not_inj_iff]
  constructor
  · intro hflag
    by_contra hlt
    have hc : s.seen.length = e + 1 := by omega
    rw [hc] at hlap hflag
    have hend := succ_eq_of_mod_eq_zero h.synced.pos hlap
    rw [flag_succ_of_eq h.synced.pos hend] at hflag
    exact absurd hflag (by simp)
  · intro hle
    exact flag_of_lap hlap hle (by omega)

theorem Fits.current_eq (h : Fits s e p) (hdequeue : s.dequeue = s.seen.length % s.slots)
    (hlt : s.seen.length < p) :
    ∃ t, s.pushed[s.seen.length]? = some t ∧ t.IsWork ∧
      s.current = t.stored (flag s.slots s.seen.length) := by
  have hitem := h.synced.getElem?_read (by rwa [h.length_published])
  rw [getElem?_stored, List.getElem?_take_of_lt hlt, ← hdequeue] at hitem
  obtain ⟨t, ht, hstored⟩ := Option.map_eq_some_iff.mp hitem
  exact ⟨t, ht, h.work t (List.mem_of_getElem? ht), hstored.symm⟩

theorem type_stored {t : TRB} (ht : t.IsWork) (cycle : Bool) :
    (t.stored cycle).type ≠ TRB_TYPE_LINK.toNat := by
  rw [← TRB.type_payload, ht.payload_stored]
  exact ht.2

theorem Fits.type_link (h : Fits s e p) :
    (s.ring.trbs s.slots).type = TRB_TYPE_LINK.toNat := by
  rw [← TRB.type_payload, h.link, Ring.type_linkTrb]

theorem Fits.target_link (h : Fits s e p) : target s.ring (s.ring.trbs s.slots) = 0 := by
  have hlow : (s.ring.trbs s.slots).parameter0 = (Ring.linkTrb s.ring.base).parameter0 :=
    (congrArg TRB.parameter0 h.link :)
  have hhigh : (s.ring.trbs s.slots).parameter1 = (Ring.linkTrb s.ring.base).parameter1 :=
    (congrArg TRB.parameter1 h.link :)
  rw [target, hlow, hhigh, Ring.parameters_linkTrb, BitVec.sub_self]
  rfl

theorem Fits.toggle_link (h : Fits s e p) :
    (s.ring.trbs s.slots).control &&& LINK_TRB_TOGGLE_CYCLE ≠ 0 := by
  have hcontrol : withoutCycle (s.ring.trbs s.slots).control =
      withoutCycle (Ring.linkTrb s.ring.base).control := by
    rw [withoutCycle_of_clear (Ring.cycleOf_linkTrb _)]
    exact congrArg TRB.control h.link
  rw [and_toggle_congr hcontrol]
  exact Ring.toggle_linkTrb _

theorem Fits.consume_slot (h : Fits s e p) (hdequeue : s.dequeue = s.seen.length % s.slots)
    (hccs : s.ccs = flag s.slots s.seen.length) (hlt : s.seen.length < p) :
    ∃ t, s.pushed[s.seen.length]? = some t ∧ t.IsWork ∧
      s.current = t.stored (flag s.slots s.seen.length) ∧
      s.consume = { s with
        dequeue := s.dequeue + 1
        seen := s.seen ++ [t.stored (flag s.slots s.seen.length)] } := by
  obtain ⟨t, ht, hwork, hcurrent⟩ := h.current_eq hdequeue hlt
  refine ⟨t, ht, hwork, hcurrent, ?_⟩
  rw [consume, if_pos ((h.valid_slot hdequeue hccs).mpr hlt), hcurrent,
    if_neg (type_stored hwork _)]

theorem Fits.consume_link (h : Fits s e p) (hdequeue : s.dequeue = s.slots)
    (hlap : s.seen.length % s.slots = 0) (hccs : s.ccs = !flag s.slots s.seen.length)
    (hle : s.seen.length ≤ e) :
    s.consume = { s with dequeue := 0, ccs := flag s.slots s.seen.length } := by
  have hcurrent : s.current = s.ring.trbs s.slots := by
    rw [current, hdequeue]
  rw [consume, if_pos ((h.valid_link hdequeue hlap hccs).mpr hle), hcurrent, if_pos h.type_link,
    h.target_link, if_neg h.toggle_link, hccs, Bool.not_not]

theorem consume_of_invalid (hinvalid : s.current.cycle ≠ s.ccs) : s.consume = s := by
  rw [consume, if_neg hinvalid]

theorem Fits.consume (h : Fits s e p) : Fits s.consume e p := by
  cases h.reading with
  | link hdequeue hlap hccs =>
      by_cases hle : s.seen.length ≤ e
      · rw [h.consume_link hdequeue hlap hccs hle]
        refine ⟨h.work, h.room, ?_, h.synced, h.seen, h.enqueue, h.cycle, h.link, h.linkCycle, ?_⟩
        · cases h.writing with
          | idle hpending => exact .idle hpending
          | filling hpushed hpending hwords => exact .filling hpushed hpending hwords
          | advancing hpushed hpending => exact .advancing hpushed hpending
        · exact .slot hlap.symm rfl
      · rw [consume_of_invalid (mt (h.valid_link hdequeue hlap hccs).mp hle)]
        exact h
  | slot hdequeue hccs =>
      by_cases hlt : s.seen.length < p
      · obtain ⟨t, ht, hwork, -, hconsume⟩ := h.consume_slot hdequeue hccs hlt
        have hread := h.synced.read (by rwa [h.length_published])
        have hroom := h.room
        rw [hconsume]
        refine ⟨h.work, ?_, ?_, ?_, ?_, h.enqueue, h.cycle, h.link, h.linkCycle, ?_⟩
        · change s.pushed.length < (s.seen ++ [_]).length + s.slots
          rw [List.length_append, List.length_singleton]
          omega
        · cases h.writing with
          | idle hpending => exact .idle hpending
          | filling hpushed hpending hwords => exact .filling hpushed hpending hwords
          | advancing hpushed hpending => exact .advancing hpushed hpending
        · change Synced s.slots TRB.cycle s.ring.trbs _ (s.seen ++ [_]).length
          rwa [List.length_append, List.length_singleton]
        · change s.seen ++ [_] = stored s.slots (s.pushed.take (s.seen ++ [_]).length)
          rw [List.length_append, List.length_singleton, List.take_add_one, ht, Option.toList_some,
            stored_append, ← h.seen, List.length_take,
            min_eq_left (h.seen_le.trans h.published_le)]
        · have hlast := Nat.mod_lt s.seen.length h.synced.pos
          by_cases hend : s.seen.length % s.slots + 1 = s.slots
          · apply Reading.link
            · exact (congrArg (· + 1) hdequeue).trans hend
            · change (s.seen ++ [_]).length % s.slots = 0
              rw [List.length_append, List.length_singleton]
              exact (succ_mod_of_eq h.synced.pos hend).1
            · change s.ccs = !flag s.slots (s.seen ++ [_]).length
              rw [List.length_append, List.length_singleton, flag_succ_of_eq h.synced.pos hend,
                Bool.not_not, hccs]
          · have hmid : s.seen.length % s.slots + 1 < s.slots := lt_of_le_of_ne hlast hend
            apply Reading.slot
            · change s.dequeue + 1 = (s.seen ++ [_]).length % s.slots
              rw [List.length_append, List.length_singleton, (succ_mod_of_lt hmid).1, hdequeue]
            · change s.ccs = flag s.slots (s.seen ++ [_]).length
              rw [List.length_append, List.length_singleton, flag_succ_of_lt hmid, hccs]
      · rw [consume_of_invalid (mt (h.valid_slot hdequeue hccs).mp hlt)]
        exact h

/-- The controller has seen what was pushed, in order and once each; what it
takes next is the next pushed block and not the link; and once the push in
progress is over, it comes to see everything. -/
structure Lossless (s : Channel) : Prop where
  seen : s.seen.map TRB.payload = s.pushed.take s.seen.length
  takes : ∀ {t}, s.takes = some t →
    s.dequeue ≠ s.ring.size - 1 ∧ s.pushed[s.seen.length]? = some t.payload
  drains : s.pending = [] → ∃ n, (Channel.consume^[n] s).seen.map TRB.payload = s.pushed

theorem Fits.map_payload_seen (h : Fits s e p) :
    s.seen.map TRB.payload = s.pushed.take s.seen.length := by
  nth_rewrite 1 [h.seen]
  exact payload_stored _ fun t ht ↦ h.work t (List.mem_of_mem_take ht)

theorem Fits.takes (h : Fits s e p) {t : TRB} (ht : s.takes = some t) :
    s.dequeue ≠ s.ring.size - 1 ∧ s.pushed[s.seen.length]? = some t.payload := by
  rw [Channel.takes, Option.ite_none_right_eq_some, Option.some.injEq] at ht
  obtain ⟨⟨hvalid, htype⟩, rfl⟩ := ht
  cases h.reading with
  | link hdequeue =>
      rw [current, hdequeue] at htype
      exact absurd h.type_link htype
  | slot hdequeue hccs =>
      have hlt := (h.valid_slot hdequeue hccs).mp hvalid
      obtain ⟨t, ht, hwork, hcurrent⟩ := h.current_eq hdequeue hlt
      constructor
      · rw [hdequeue]
        exact (Nat.mod_lt _ h.synced.pos).ne
      · rw [ht, hcurrent, hwork.payload_stored]

theorem pushed_consume : s.consume.pushed = s.pushed := by
  rw [Channel.consume]
  split_ifs <;> rfl

theorem pending_consume : s.consume.pending = s.pending := by
  rw [Channel.consume]
  split_ifs <;> rfl

/-- As long as something pushed is not seen, the controller sees more within two
steps. -/
theorem Fits.progress (h : Fits s e p) (hidle : s.pending = [])
    (hlt : s.seen.length < s.pushed.length) :
    ∃ n, (Channel.consume^[n] s).seen.length = s.seen.length + 1 := by
  obtain ⟨he, hp⟩ := h.of_idle hidle
  cases h.reading with
  | slot hdequeue hccs =>
      obtain ⟨t, -, -, -, hconsume⟩ := h.consume_slot hdequeue hccs (by omega)
      exact ⟨1, by rw [Function.iterate_one, hconsume, List.length_append, List.length_singleton]⟩
  | link hdequeue hlap hccs =>
      have hfirst := h.consume_link hdequeue hlap hccs (by omega)
      have hnext := h.consume
      rw [hfirst] at hnext
      obtain ⟨t, -, -, -, hsecond⟩ := hnext.consume_slot hlap.symm rfl (hlt.trans_eq hp.symm)
      refine ⟨2, ?_⟩
      rw [Function.iterate_succ_apply, Function.iterate_one, hfirst, hsecond, List.length_append,
        List.length_singleton]

theorem Fits.iterate_consume (h : Fits s e p) (n : ℕ) : Fits (Channel.consume^[n] s) e p := by
  induction n with
  | zero => exact h
  | succ n ih =>
      rw [Function.iterate_succ_apply']
      exact ih.consume

theorem pushed_iterate_consume (s : Channel) (n : ℕ) :
    (Channel.consume^[n] s).pushed = s.pushed ∧ (Channel.consume^[n] s).pending = s.pending := by
  induction n with
  | zero => exact ⟨rfl, rfl⟩
  | succ n ih =>
      rw [Function.iterate_succ_apply', pushed_consume, pending_consume]
      exact ih

theorem Fits.drains (h : Fits s e p) (hidle : s.pending = []) :
    ∃ n, (Channel.consume^[n] s).seen.map TRB.payload = s.pushed := by
  have hmore (k : ℕ) (hk : s.seen.length + k ≤ s.pushed.length) :
      ∃ n, (Channel.consume^[n] s).seen.length = s.seen.length + k := by
    induction k with
    | zero => exact ⟨0, rfl⟩
    | succ k ih =>
        obtain ⟨n, hn⟩ := ih (by omega)
        obtain ⟨hpushed, hpending⟩ := pushed_iterate_consume s n
        obtain ⟨n', hn'⟩ := (h.iterate_consume n).progress (hpending.trans hidle)
          (by rw [hpushed]; omega)
        refine ⟨n' + n, ?_⟩
        rw [Function.iterate_add_apply, hn', hn]
        rfl
  have hle := h.seen_le.trans h.published_le
  obtain ⟨n, hn⟩ := hmore (s.pushed.length - s.seen.length) (by omega)
  refine ⟨n, ?_⟩
  rw [(h.iterate_consume n).map_payload_seen, (pushed_iterate_consume s n).1, hn]
  exact List.take_of_length_le (by omega)

theorem Fits.lossless (h : Fits s e p) : s.Lossless :=
  ⟨h.map_payload_seen, h.takes, h.drains⟩

end Channel

end Usb
end MinOS
