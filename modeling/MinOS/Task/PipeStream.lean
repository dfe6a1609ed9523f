import MinOS.Task.Pipe

/-!
# The byte stream of a pipe

At every moment the bytes written to a pipe are those its reads returned, then
what is left of the last message, then the payloads in the reader's queue, then
what the writer's current `Write` has not sent yet.  The end marker is the last
payload, and the descriptor is closed when the reader has taken it.
-/

namespace MinOS
namespace Pipe

open TaskManager

variable {Ctx Other : Type}

/-- The bytes a pipe message carries; none of them marks the end. -/
def payload : Message Other → Option (List UInt8)
  | .pipe data len => some (data.take len)
  | .other _ => none

def payloads (queue : List (Message Other)) : List (List UInt8) :=
  queue.filterMap payload

/-- The length field of a pipe message counts bytes of its data. -/
def WellFormed : Message Other → Prop
  | .pipe data len => data.length = dataBytes ∧ len ≤ dataBytes
  | .other _ => True

def PipeDescriptor.leftover (p : PipeDescriptor) : List UInt8 :=
  p.data.take p.len

theorem memcpy_length {dst src : List UInt8} (h : src.length ≤ dst.length) :
    (memcpy dst src).length = dst.length := by
  simp only [memcpy, List.length_append, List.length_drop]
  exact Nat.add_sub_cancel' h

theorem memcpy_take (dst src : List UInt8) : (memcpy dst src).take src.length = src := by
  simp [memcpy]

/-- Taking `copyBytes` of the first `n` bytes of `data` and moving the rest to
the start of `dst` splits these bytes in two. -/
theorem take_append_moved {dst data : List UInt8} {n copyBytes : ℕ}
    (hdst : dst.length = dataBytes) (hdata : data.length = dataBytes) (hn : n ≤ dataBytes)
    (hcopy : copyBytes ≤ n) :
    (memcpy dst ((data.drop copyBytes).take (n - copyBytes))).length = dataBytes ∧
      data.take copyBytes ++
        (memcpy dst ((data.drop copyBytes).take (n - copyBytes))).take (n - copyBytes) =
          data.take n := by
  have hlen : ((data.drop copyBytes).take (n - copyBytes)).length = n - copyBytes := by
    simp only [List.length_take, List.length_drop, hdata]
    omega
  constructor
  · rw [memcpy_length, hdst]
    rw [hlen, hdst]
    exact (Nat.sub_le _ _).trans hn
  · have htake := memcpy_take dst ((data.drop copyBytes).take (n - copyBytes))
    rw [hlen] at htake
    rw [htake, ← List.take_add, Nat.add_sub_cancel' hcopy]

theorem take_min_ne_nil {data : List UInt8} {n len : ℕ} (hdata : data.length = dataBytes)
    (hn : n ≠ 0) (hlen : 1 ≤ len) : data.take (min n len) ≠ [] := by
  intro h
  have hzero := congrArg List.length h
  simp only [List.length_take, hdata, dataBytes, List.length_nil] at hzero
  omega

/-- The invariant of one pipe whose reader's queue is `queue`. -/
structure StreamInvariant (queue : List (Message Other)) (c : Channel) : Prop where
  wellFormed : ∀ msg ∈ queue, WellFormed msg
  data : c.desc.data.length = dataBytes
  len : c.desc.len ≤ dataBytes
  buffer : c.pending ≠ [] → c.buffer.length = dataBytes
  stream : c.reads.flatten ++ c.desc.leftover ++ (payloads queue).flatten ++ c.pending = c.written
  reading : ∀ len, c.reading = some len → 1 ≤ len ∧ c.desc.len = 0 ∧ c.desc.closed = false
  unfinished : c.finished = false → c.desc.closed = false ∧ [] ∉ payloads queue
  finished : c.finished = true → c.pending = [] ∧
    (c.desc.closed = true ∧ payloads queue = [] ∧ c.desc.len = 0 ∨
      c.desc.closed = false ∧ ∃ front, payloads queue = front ++ [[]] ∧ [] ∉ front)
  zero : [] ∈ c.reads → c.desc.closed = true

theorem StreamInvariant.opened {data : List UInt8} (hdata : data.length = dataBytes)
    (writer : ℕ) :
    StreamInvariant ([] : List (Message Other)) { desc := { data := data }, writer := writer } where
  wellFormed _ h := by cases h
  data := hdata
  len := Nat.zero_le _
  buffer h := absurd rfl h
  stream := by simp [PipeDescriptor.leftover, payloads]
  reading _ h := by cases h
  unfinished _ := ⟨rfl, by simp [payloads]⟩
  finished h := by cases h
  zero h := by cases h

/-- Messages of other types do not concern the pipe. -/
theorem StreamInvariant.append_other {queue : List (Message Other)} {c : Channel}
    (h : StreamInvariant queue c) (msg : Other) :
    StreamInvariant (queue ++ [.other msg]) c := by
  have hsame : payloads (queue ++ [.other msg]) = payloads queue := by
    simp [payloads, payload]
  refine ⟨?_, h.data, h.len, h.buffer, by rw [hsame]; exact h.stream, h.reading,
    by rw [hsame]; exact h.unfinished, by rw [hsame]; exact h.finished, h.zero⟩
  intro m hm
  rcases List.mem_append.mp hm with hm | hm
  · exact h.wellFormed m hm
  · obtain rfl := List.mem_singleton.mp hm
    trivial

theorem StreamInvariant.write {queue : List (Message Other)} {c : Channel}
    (h : StreamInvariant queue c) (hpending : c.pending = []) (hfinished : c.finished = false)
    (buf : List UInt8) :
    StreamInvariant queue { c with
      buffer := List.replicate dataBytes 0, pending := buf, written := c.written ++ buf } where
  wellFormed := h.wellFormed
  data := h.data
  len := h.len
  buffer _ := List.length_replicate
  stream := by
    rw [← h.stream, hpending, List.append_nil]
  reading := h.reading
  unfinished := h.unfinished
  finished hf := by
    rw [hfinished] at hf
    cases hf
  zero := h.zero

theorem payloads_append_pipe (queue : List (Message Other)) (data : List UInt8) (len : ℕ) :
    payloads (queue ++ [.pipe data len]) = payloads queue ++ [data.take len] := by
  simp [payloads, payload]

/-- The loop of `Write` moves the next bytes from the caller's buffer to the
end of the reader's queue. -/
theorem StreamInvariant.sendChunk {queue : List (Message Other)} {c : Channel}
    (h : StreamInvariant queue c) (hpending : c.pending ≠ []) :
    StreamInvariant (queue ++ [.pipe c.chunkData c.chunkLen])
      { c with buffer := c.chunkData, pending := c.pending.drop c.chunkLen } := by
  have hle : c.chunkLen ≤ c.pending.length := min_le_left _ _
  have hbound : c.chunkLen ≤ dataBytes := min_le_right _ _
  have hlen : (c.pending.take c.chunkLen).length = c.chunkLen := by
    rw [List.length_take, min_eq_left hle]
  have hdata : c.chunkData.length = dataBytes := by
    have hfits : (c.pending.take c.chunkLen).length ≤ c.buffer.length := by
      rw [hlen, h.buffer hpending]
      exact hbound
    rw [Channel.chunkData, memcpy_length hfits, h.buffer hpending]
  have hpayload : c.chunkData.take c.chunkLen = c.pending.take c.chunkLen := by
    have htake := memcpy_take c.buffer (c.pending.take c.chunkLen)
    rwa [hlen] at htake
  have hne : c.pending.take c.chunkLen ≠ [] := by
    intro hnil
    have hpos : 0 < c.pending.length := List.length_pos_of_ne_nil hpending
    have hzero : c.chunkLen = 0 := by rw [← hlen, hnil, List.length_nil]
    simp only [Channel.chunkLen, dataBytes] at hzero
    omega
  have hopen : c.finished = false := by
    cases hf : c.finished with
    | false => rfl
    | true => exact absurd (h.finished hf).1 hpending
  refine ⟨?_, h.data, h.len, fun _ ↦ hdata, ?_, h.reading, ?_, ?_, h.zero⟩
  · intro msg hmsg
    rcases List.mem_append.mp hmsg with hmsg | hmsg
    · exact h.wellFormed msg hmsg
    · obtain rfl := List.mem_singleton.mp hmsg
      exact ⟨hdata, hbound⟩
  · rw [payloads_append_pipe, hpayload, ← h.stream]
    simp
  · intro hf
    obtain ⟨hclosed, hmarker⟩ := h.unfinished hf
    refine ⟨hclosed, ?_⟩
    rw [payloads_append_pipe, hpayload]
    rw [List.mem_append, List.mem_singleton]
    rintro (hmem | hnil)
    · exact hmarker hmem
    · exact hne hnil.symm
  · intro hf
    dsimp only at hf
    rw [hopen] at hf
    cases hf

theorem StreamInvariant.finishWrite {queue : List (Message Other)} {c : Channel}
    (h : StreamInvariant queue c) (hpending : c.pending = []) (hfinished : c.finished = false) :
    StreamInvariant (queue ++ [.pipe (List.replicate dataBytes 0) 0])
      { c with finished := true } := by
  obtain ⟨hclosed, hmarker⟩ := h.unfinished hfinished
  refine ⟨?_, h.data, h.len, h.buffer, ?_, h.reading, ?_, ?_, h.zero⟩
  · intro msg hmsg
    rcases List.mem_append.mp hmsg with hmsg | hmsg
    · exact h.wellFormed msg hmsg
    · obtain rfl := List.mem_singleton.mp hmsg
      exact ⟨List.length_replicate, Nat.zero_le _⟩
  · rw [payloads_append_pipe, ← h.stream]
    simp
  · intro hf
    cases hf
  · intro _
    refine ⟨hpending, .inr ⟨hclosed, payloads queue, ?_, hmarker⟩⟩
    rw [payloads_append_pipe, List.take_zero]

/-- The call of `Read` serves what is left of the last message, or returns 0
when the end marker has been taken. -/
theorem StreamInvariant.callRead {queue : List (Message Other)} {c : Channel}
    (h : StreamInvariant queue c) {len : ℕ} (hlen : 1 ≤ len) :
    StreamInvariant queue (c.callRead len) := by
  unfold Channel.callRead PipeDescriptor.readBuffered
  rcases Nat.eq_zero_or_pos c.desc.len with hzero | hpos
  · cases hclosed : c.desc.closed with
    | true =>
        simp only [hzero, gt_iff_lt, lt_irrefl, if_false, if_true]
        refine ⟨h.wellFormed, h.data, h.len, h.buffer, ?_, h.reading, h.unfinished, h.finished,
          fun _ ↦ hclosed⟩
        simpa using h.stream
    | false =>
        simp only [hzero, gt_iff_lt, lt_irrefl, if_false, Bool.false_eq_true]
        refine ⟨h.wellFormed, h.data, h.len, h.buffer, h.stream, ?_, h.unfinished, h.finished,
          h.zero⟩
        intro n hn
        obtain rfl : len = n := by simpa using hn
        exact ⟨hlen, hzero, hclosed⟩
  · rw [if_pos hpos]
    dsimp only
    obtain ⟨hdata, hsplit⟩ := take_append_moved h.data h.data h.len
      (min_le_left c.desc.len len)
    have hopen : c.desc.closed = false := by
      cases hf : c.finished with
      | false => exact (h.unfinished hf).1
      | true =>
          rcases (h.finished hf).2 with ⟨_, _, hzero⟩ | ⟨hclosed, _⟩
          · rw [hzero] at hpos
            cases hpos
          · exact hclosed
    refine ⟨h.wellFormed, hdata, (Nat.sub_le _ _).trans h.len, h.buffer, ?_, ?_, h.unfinished,
      ?_, ?_⟩
    · rw [← h.stream, PipeDescriptor.leftover, PipeDescriptor.leftover, ← hsplit]
      simp
    · intro n hn
      exact absurd (h.reading n hn).2.1 (Nat.pos_iff_ne_zero.mp hpos)
    · intro hf
      obtain ⟨hpending, hend⟩ := h.finished hf
      refine ⟨hpending, ?_⟩
      rcases hend with ⟨hclosed, _⟩ | hmarker
      · rw [hopen] at hclosed
        cases hclosed
      · exact .inr hmarker
    · intro hmem
      rcases List.mem_append.mp hmem with hmem | hmem
      · exact h.zero hmem
      · exact absurd (List.mem_singleton.mp hmem).symm
          (take_min_ne_nil h.data (Nat.pos_iff_ne_zero.mp hpos) hlen)

/-- The loop of `Read` on the message at the front of the queue. -/
theorem StreamInvariant.turnRead {queue : List (Message Other)} {c : Channel}
    {msg : Message Other} (h : StreamInvariant (msg :: queue) c) {len : ℕ}
    (hreading : c.reading = some len) :
    StreamInvariant queue (c.turnRead len (some msg)) := by
  have hrest : ∀ m ∈ queue, WellFormed m := fun m hm ↦ h.wellFormed m (List.mem_cons_of_mem _ hm)
  obtain ⟨hlen, hzero, hopen⟩ := h.reading len hreading
  have hempty : c.desc.leftover = [] := by simp [PipeDescriptor.leftover, hzero]
  cases msg with
  | other o =>
      have hsame : payloads (.other o :: queue) = payloads queue :=
        List.filterMap_cons_none rfl
      exact ⟨hrest, h.data, h.len, h.buffer, hsame ▸ h.stream, h.reading, hsame ▸ h.unfinished,
        hsame ▸ h.finished, h.zero⟩
  | pipe data n =>
      obtain ⟨hdata, hn⟩ := h.wellFormed _ (List.mem_cons_self)
      have hcons : payloads (.pipe data n :: queue) = data.take n :: payloads queue :=
        List.filterMap_cons_some rfl
      have hstream := h.stream
      rw [hcons, hempty, List.append_nil, List.flatten_cons] at hstream
      simp only [Channel.turnRead, PipeDescriptor.readMessage]
      rcases Nat.eq_zero_or_pos n with rfl | hpos
      · -- the end marker: it can only be the last payload
        rw [if_pos rfl]
        have hf : c.finished = true := by
          cases hf : c.finished with
          | true => rfl
          | false => exact absurd (h.unfinished hf).2 (by simp [hcons])
        obtain ⟨hpending, hend⟩ := h.finished hf
        have hlast : payloads queue = [] := by
          rcases hend with ⟨hclosed, _⟩ | ⟨_, front, hfront, hmarker⟩
          · rw [hopen] at hclosed
            cases hclosed
          · rw [hcons, List.take_zero] at hfront
            cases front with
            | nil => simpa using hfront
            | cons first front =>
                obtain ⟨rfl, _⟩ := List.cons.inj hfront
                simp at hmarker
        refine ⟨hrest, h.data, h.len, h.buffer, ?_, fun _ hn ↦ by simp at hn, ?_, ?_,
          fun _ ↦ rfl⟩
        · simpa [PipeDescriptor.leftover, hzero] using hstream
        · intro hf'
          dsimp only at hf'
          rw [hf] at hf'
          cases hf'
        · exact fun _ ↦ ⟨hpending, .inl ⟨rfl, hlast, hzero⟩⟩
      · rw [if_neg (Nat.pos_iff_ne_zero.mp hpos)]
        dsimp only
        obtain ⟨hmoved, hsplit⟩ := take_append_moved h.data hdata hn (min_le_left n len)
        have hne : data.take n ≠ [] := by
          intro hnil
          have hlength := congrArg List.length hnil
          simp only [List.length_take, hdata, List.length_nil] at hlength
          rw [min_eq_left hn] at hlength
          omega
        refine ⟨hrest, hmoved, (Nat.sub_le _ _).trans hn, h.buffer, ?_, fun _ hn ↦ by simp at hn,
          ?_, ?_, ?_⟩
        · rw [← hstream, ← hsplit]
          simp [PipeDescriptor.leftover]
        · intro hf
          obtain ⟨_, hmarker⟩ := h.unfinished hf
          rw [hcons] at hmarker
          exact ⟨hopen, fun hmem ↦ hmarker (List.mem_cons_of_mem _ hmem)⟩
        · intro hf
          obtain ⟨hpending, hend⟩ := h.finished hf
          refine ⟨hpending, .inr ⟨hopen, ?_⟩⟩
          rcases hend with ⟨hclosed, _⟩ | ⟨_, front, hfront, hmarker⟩
          · rw [hopen] at hclosed
            cases hclosed
          · rw [hcons] at hfront
            cases front with
            | nil => exact absurd (List.cons.inj hfront).1 hne
            | cons first front =>
                exact ⟨front, (List.cons.inj hfront).2,
                  fun hmem ↦ hmarker (List.mem_cons_of_mem _ hmem)⟩
        · intro hmem
          rcases List.mem_append.mp hmem with hmem | hmem
          · exact h.zero hmem
          · exact absurd (List.mem_singleton.mp hmem).symm
              (take_min_ne_nil hdata (Nat.pos_iff_ne_zero.mp hpos) hlen)

/-! ## Runs -/

/-- Every pipe whose reader is still owned keeps its stream. -/
structure Invariant (s : State Ctx Other) : Prop where
  idle_le : idleId ≤ s.manager.latestId
  reader : ∀ reader c, s.pipes reader = some c →
    idleId < reader ∧ reader ≤ s.manager.latestId
  stream : ∀ reader c queue, s.pipes reader = some c → s.manager.queued reader = some queue →
    StreamInvariant queue c

theorem Invariant.init (idleCtx : Ctx) : Invariant (init idleCtx : State Ctx Other) where
  idle_le := le_rfl
  reader _ _ h := by cases h
  stream _ _ _ h := by cases h

/-- A change of the manager that at most appends messages of other types to the
queues of readers keeps the invariant. -/
theorem Invariant.of_manager {s : State Ctx Other} (hs : Invariant s)
    {m : TaskManager Ctx (Message Other)} (hlatest : s.manager.latestId ≤ m.latestId)
    (hqueued : ∀ reader queue, s.pipes reader ≠ none → m.queued reader = some queue →
      s.manager.queued reader = some queue ∨
        ∃ before msg, s.manager.queued reader = some before ∧ queue = before ++ [.other msg]) :
    Invariant { s with manager := m } where
  idle_le := hs.idle_le.trans hlatest
  reader r c h := ⟨(hs.reader r c h).1, (hs.reader r c h).2.trans hlatest⟩
  stream r c queue hpipe hqueue := by
    have hne : s.pipes r ≠ none := by
      rw [show s.pipes r = some c from hpipe]
      exact Option.some_ne_none c
    rcases hqueued r queue hne hqueue with hsame | ⟨before, msg, hbefore, rfl⟩
    · exact hs.stream r c queue hpipe hsame
    · exact (hs.stream r c before hpipe hbefore).append_other msg

/-- After a pipe was set, a property of all pipes is one of this pipe and of the others. -/
theorem forall_update_pipe {P : ℕ → Channel → Prop} {pipes : ℕ → Option Channel} {reader : ℕ}
    {c : Channel} (hreader : P reader c)
    (hothers : ∀ r c', r ≠ reader → pipes r = some c' → P r c') (r : ℕ) (c' : Channel)
    (h : Function.update pipes reader (some c) r = some c') : P r c' := by
  by_cases hr : r = reader
  · subst hr
    rw [Function.update_self] at h
    exact Option.some.inj h ▸ hreader
  · rw [Function.update_of_ne hr] at h
    exact hothers r c' hr h

/-- A change of the pipe of one reader and of that reader's queue. -/
theorem Invariant.of_pipe {s : State Ctx Other} (hs : Invariant s)
    {m : TaskManager Ctx (Message Other)} {reader : ℕ} {c c' : Channel} {sends : List (ℕ × Bool)}
    (hpipe : s.pipes reader = some c) (hlatest : m.latestId = s.manager.latestId)
    (hother : ∀ r, r ≠ reader → m.queued r = s.manager.queued r)
    (hstream : ∀ queue, m.queued reader = some queue → StreamInvariant queue c') :
    Invariant ⟨m, Function.update s.pipes reader (some c'), sends⟩ where
  idle_le := by
    rw [show (State.manager ⟨m, _, sends⟩ : TaskManager Ctx (Message Other)) = m from rfl, hlatest]
    exact hs.idle_le
  reader := by
    dsimp only
    rw [hlatest]
    exact forall_update_pipe (hs.reader reader c hpipe) fun r c₁ _ h ↦ hs.reader r c₁ h
  stream r c₁ queue h hqueue := by
    refine forall_update_pipe (P := fun r c ↦ ∀ queue, m.queued r = some queue →
      StreamInvariant queue c) hstream (fun r c₂ hr h queue hqueue ↦ ?_) r c₁ h queue hqueue
    rw [hother r hr] at hqueue
    exact hs.stream r c₂ queue h hqueue

theorem sendReference_latestId (m : TaskManager Ctx (Message Other)) (task : ℕ)
    (msg : Message Other) (freed : Task Ctx (Message Other)) :
    (sendReference m task msg freed).latestId = m.latestId := by
  unfold sendReference
  split
  · exact sendMessage_latestId m task msg
  · dsimp only
    split_ifs <;> rfl

theorem sendReference_queued (m : TaskManager Ctx (Message Other)) (task : ℕ)
    (msg : Message Other) (freed : Task Ctx (Message Other)) :
    (sendReference m task msg freed).queued =
      Function.update m.queued task ((m.queued task).map (· ++ [msg])) := by
  unfold sendReference
  cases ht : m.tasks task with
  | some t => exact sendMessage_queued msg (by simp [ht])
  | none =>
      have hnone := queued_eq_none.mpr ht
      rw [hnone, Option.map_none, ← hnone, Function.update_eq_self]
      dsimp only
      split_ifs <;> rfl

theorem Invariant.afterSend {s : State Ctx Other} (hs : Invariant s) {reader : ℕ}
    {c c' : Channel} {msg : Message Other} {freed : Task Ctx (Message Other)}
    (hpipe : s.pipes reader = some c)
    (hstream : ∀ queue, StreamInvariant queue c → StreamInvariant (queue ++ [msg]) c') :
    Invariant (afterSend s reader msg freed c') := by
  apply hs.of_pipe hpipe (sendReference_latestId _ _ _ _)
  · intro r hr
    rw [sendReference_queued, Function.update_of_ne hr]
  · intro queue hqueue
    rw [sendReference_queued, Function.update_self, Option.map_eq_some_iff] at hqueue
    obtain ⟨before, hbefore, rfl⟩ := hqueue
    exact hstream before (hs.stream reader c before hpipe hbefore)

theorem Invariant.openPipe {s : State Ctx Other} (hs : Invariant s) {data : List UInt8}
    (hdata : data.length = dataBytes) (writer : ℕ) :
    Invariant { s with
      manager := s.manager.newTask
      pipes := Function.update s.pipes (s.manager.latestId + 1)
        (some { desc := { data := data }, writer := writer }) } := by
  refine ⟨hs.idle_le.trans (Nat.le_succ _), ?_, ?_⟩
  · apply forall_update_pipe (P := fun r _ ↦ idleId < r ∧ r ≤ s.manager.latestId + 1)
    · exact ⟨Nat.lt_succ_of_le hs.idle_le, le_rfl⟩
    · intro r c _ h
      exact ⟨(hs.reader r c h).1, (hs.reader r c h).2.trans (Nat.le_succ _)⟩
  · intro r c queue h hqueue
    dsimp only at h hqueue
    rw [newTask_queued] at hqueue
    by_cases hr : r = s.manager.latestId + 1
    · subst hr
      rw [Function.update_self] at h hqueue
      cases h
      cases hqueue
      exact .opened hdata writer
    · rw [Function.update_of_ne hr] at h hqueue
      exact hs.stream r c queue h hqueue

theorem Invariant.readTurn {s : State Ctx Other} (hs : Invariant s) {t len : ℕ} {c : Channel}
    (ctx : Ctx) (hpipe : s.pipes t = some c) (hreading : c.reading = some len) :
    Invariant { s with
      manager := (s.manager.receiveTurn t ctx).2
      pipes := Function.update s.pipes t
        (some (c.turnRead len (s.manager.receiveTurn t ctx).1)) } := by
  obtain ⟨hfront, hqueued⟩ := s.manager.receiveTurn_queued t ctx
  apply hs.of_pipe hpipe (receiveTurn_latestId _ _ _)
  · intro r hr
    rw [hqueued, Function.update_of_ne hr]
  · intro queue hqueue
    rw [hqueued, Function.update_self, Option.map_eq_some_iff] at hqueue
    obtain ⟨before, hbefore, rfl⟩ := hqueue
    have hstream := hs.stream t c before hpipe hbefore
    rw [hfront, hbefore]
    cases before with
    | nil => exact hstream
    | cons msg rest => exact hstream.turnRead hreading

theorem Invariant.step (s : State Ctx Other) (op : Op Ctx Other) (s' : State Ctx Other)
    (hs : Invariant s) (hstep : Step s op s') : Invariant s' := by
  cases hstep with
  | newTask =>
      apply hs.of_manager (Nat.le_succ _)
      intro r queue hpipe hqueue
      obtain ⟨c, hc⟩ := Option.ne_none_iff_exists'.mp hpipe
      have hne : r ≠ s.manager.latestId + 1 := by
        rintro rfl
        exact Nat.not_succ_le_self _ (hs.reader _ c hc).2
      rw [newTask_queued, Function.update_of_ne hne] at hqueue
      exact .inl hqueue
  | wakeup task =>
      apply hs.of_manager (wakeup_none_frame _ _).1.ge
      intro r queue _ hqueue
      rw [wakeup_none_queued] at hqueue
      exact .inl hqueue
  | sendMessage id msg =>
      apply hs.of_manager (sendMessage_latestId _ _ _).ge
      intro r queue _ hqueue
      by_cases hid : s.manager.tasks id = none
      · simp only [TaskManager.sendMessage, hid] at hqueue
        exact .inl hqueue
      · rw [sendMessage_queued _ hid] at hqueue
        by_cases hr : r = id
        · subst hr
          rw [Function.update_self, Option.map_eq_some_iff] at hqueue
          obtain ⟨before, hbefore, rfl⟩ := hqueue
          exact .inr ⟨before, msg, hbefore, rfl⟩
        · rw [Function.update_of_ne hr] at hqueue
          exact .inl hqueue
  | switchTask ctx =>
      apply hs.of_manager (switchTask_frame _ _).1.ge
      intro r queue _ hqueue
      rw [switchTask_queued] at hqueue
      exact .inl hqueue
  | @receive t ctx hcurrent hidle hpipe =>
      apply hs.of_manager (receiveTurn_latestId _ _ _).ge
      intro r queue hne hqueue
      have hr : r ≠ t := by
        rintro rfl
        exact hne hpipe
      rw [(s.manager.receiveTurn_queued t ctx).2, Function.update_of_ne hr] at hqueue
      exact .inl hqueue
  | waitFinish id ctx hcurrent hidle =>
      apply hs.of_manager (waitFinishTurn_latestId _ _ _).ge
      intro r queue _ hqueue
      rw [waitFinishTurn_queued] at hqueue
      exact .inl hqueue
  | @finish t exitCode hcurrent hidle hreader hwriter =>
      apply hs.of_manager (finish_frame _ exitCode hcurrent).1.ge
      intro r queue _ hqueue
      rw [finish_queued _ _ hcurrent] at hqueue
      by_cases hr : r = t
      · simp [hr] at hqueue
      · rw [Function.update_of_ne hr] at hqueue
        exact .inl hqueue
  | openPipe data hdata hcurrent => exact hs.openPipe hdata _
  | @write reader c buf hpipe hcurrent hpending hfinished =>
      apply hs.of_pipe hpipe rfl fun _ _ ↦ rfl
      intro queue hqueue
      exact (hs.stream reader c queue hpipe hqueue).write hpending hfinished buf
  | sendChunk freed hpipe hcurrent hpending =>
      exact hs.afterSend hpipe fun _ h ↦ h.sendChunk hpending
  | finishWrite freed hpipe hcurrent hpending hfinished =>
      exact hs.afterSend hpipe fun _ h ↦ h.finishWrite hpending hfinished
  | @read t c len hlen hcurrent hpipe hreading =>
      apply hs.of_pipe hpipe rfl fun _ _ ↦ rfl
      intro queue hqueue
      exact (hs.stream t c queue hpipe hqueue).callRead hlen
  | readTurn ctx hcurrent hidle hpipe hreading => exact hs.readTurn ctx hpipe hreading

theorem Channel.callRead_history (c : Channel) (len : ℕ) :
    c.reads <+: (c.callRead len).reads ∧ (c.callRead len).finished = c.finished ∧
      (c.callRead len).written = c.written := by
  unfold Channel.callRead
  split
  · exact ⟨List.prefix_append _ _, rfl, rfl⟩
  · exact ⟨List.prefix_refl _, rfl, rfl⟩

theorem Channel.turnRead_history (c : Channel) (len : ℕ) (msg : Option (Message Other)) :
    c.reads <+: (c.turnRead len msg).reads ∧ (c.turnRead len msg).finished = c.finished ∧
      (c.turnRead len msg).written = c.written := by
  unfold Channel.turnRead
  split
  · exact ⟨List.prefix_refl _, rfl, rfl⟩
  · split
    · exact ⟨List.prefix_append _ _, rfl, rfl⟩
    · exact ⟨List.prefix_refl _, rfl, rfl⟩

/-- `c'` is a later state of the pipe `c`: reads are only added, and nothing is
written after `FinishWrite`. -/
def Later (c c' : Channel) : Prop :=
  c.reads <+: c'.reads ∧ (c.finished = true → c'.finished = true ∧ c'.written = c.written)

theorem Later.refl (c : Channel) : Later c c :=
  ⟨List.prefix_refl _, fun h ↦ ⟨h, rfl⟩⟩

theorem Later.trans {c₁ c₂ c₃ : Channel} (h₁ : Later c₁ c₂) (h₂ : Later c₂ c₃) : Later c₁ c₃ := by
  refine ⟨h₁.1.trans h₂.1, ?_⟩
  intro hf
  obtain ⟨hf₂, hw₂⟩ := h₁.2 hf
  obtain ⟨hf₃, hw₃⟩ := h₂.2 hf₂
  exact ⟨hf₃, hw₃.trans hw₂⟩

theorem Later.of_update {pipes : ℕ → Option Channel} {reader other : ℕ} {c c₁ c' : Channel}
    (hpipe : pipes reader = some c) (hother : pipes other = some c₁) (h : Later c₁ c') :
    ∃ c₂, Function.update pipes other (some c') reader = some c₂ ∧ Later c c₂ := by
  by_cases hr : reader = other
  · subst hr
    obtain rfl : c = c₁ := Option.some.inj (hpipe.symm.trans hother)
    exact ⟨c', Function.update_self _ _ _, h⟩
  · exact ⟨c, by rw [Function.update_of_ne hr, hpipe], .refl c⟩

theorem Step.later {s s' : State Ctx Other} {op : Op Ctx Other} (hs : Invariant s)
    (hstep : Step s op s') {reader : ℕ} {c : Channel} (hpipe : s.pipes reader = some c) :
    ∃ c', s'.pipes reader = some c' ∧ Later c c' := by
  cases hstep with
  | newTask | wakeup | sendMessage | switchTask | receive | waitFinish | finish =>
      exact ⟨c, hpipe, .refl c⟩
  | openPipe data hdata hcurrent =>
      have hne : reader ≠ s.manager.latestId + 1 := by
        rintro rfl
        exact Nat.not_succ_le_self _ (hs.reader _ c hpipe).2
      refine ⟨c, ?_, .refl c⟩
      dsimp only
      rw [Function.update_of_ne hne, hpipe]
  | write buf hother hcurrent hpending hfinished =>
      apply Later.of_update hpipe hother
      refine ⟨List.prefix_refl _, ?_⟩
      intro hf
      rw [hfinished] at hf
      cases hf
  | sendChunk freed hother hcurrent hpending =>
      exact Later.of_update hpipe hother ⟨List.prefix_refl _, fun hf ↦ ⟨hf, rfl⟩⟩
  | finishWrite freed hother hcurrent hpending hfinished =>
      exact Later.of_update hpipe hother ⟨List.prefix_refl _, fun _ ↦ ⟨rfl, rfl⟩⟩
  | @read t c₁ len hlen hcurrent hother hreading =>
      obtain ⟨hreads, hf, hw⟩ := c₁.callRead_history len
      exact Later.of_update hpipe hother ⟨hreads, fun h ↦ ⟨hf.trans h, hw⟩⟩
  | @readTurn t len c₁ ctx hcurrent hidle hother hreading =>
      obtain ⟨hreads, hf, hw⟩ := c₁.turnRead_history len (s.manager.receiveTurn t ctx).1
      exact Later.of_update hpipe hother ⟨hreads, fun h ↦ ⟨hf.trans h, hw⟩⟩

theorem later_of_run {s s' : State Ctx Other} {ops : List (Op Ctx Other)} (hs : Invariant s)
    (hrun : Transition.Run Step s ops s') {reader : ℕ} {c : Channel}
    (hpipe : s.pipes reader = some c) :
    Invariant s' ∧ ∃ c', s'.pipes reader = some c' ∧ Later c c' := by
  induction hrun with
  | nil => exact ⟨hs, c, hpipe, .refl c⟩
  | snoc run last ih =>
      obtain ⟨hs₁, c₁, hc₁, hlater₁⟩ := ih
      obtain ⟨c₂, hc₂, hlater₂⟩ := last.later hs₁ hc₁
      exact ⟨hs₁.step _ _ _ last, c₂, hc₂, hlater₁.trans hlater₂⟩

theorem Invariant.exists_stream {s : State Ctx Other} (hs : Invariant s) {reader : ℕ}
    {c : Channel} (hpipe : s.pipes reader = some c) (halive : s.manager.tasks reader ≠ none) :
    ∃ queue, s.manager.queued reader = some queue ∧ StreamInvariant queue c := by
  obtain ⟨queue, hqueue⟩ := Option.ne_none_iff_exists'.mp (mt queued_eq_none.mp halive)
  exact ⟨queue, hqueue, hs.stream reader c queue hpipe hqueue⟩

/-- When the marker is the only payload left, the reader's own turns take it:
they pass over the messages of other types before it and never sleep. -/
theorem exists_run_zero (ctx : Ctx) {t len : ℕ} (hidle : t ≠ idleId)
    (queue : List (Message Other)) :
    ∀ (s : State Ctx Other) (c : Channel), s.manager.currentTask = some t →
      s.pipes t = some c → c.reading = some len → s.manager.queued t = some queue →
      (∀ msg ∈ queue, WellFormed msg) → payloads queue = [[]] →
      ∃ turns s' c', Transition.Run Step s (List.replicate turns (.readTurn ctx)) s' ∧
        s'.pipes t = some c' ∧ c'.reads = c.reads ++ [[]] := by
  induction queue with
  | nil =>
      intro s c _ _ _ _ _ hmarker
      cases hmarker
  | cons msg rest ih =>
      intro s c hcurrent hpipe hreading hqueue hwf hmarker
      obtain ⟨τ, hτ, hmsgs⟩ : ∃ τ, s.manager.tasks t = some τ ∧ τ.msgs = msg :: rest := by
        rwa [queued, Option.map_eq_some_iff] at hqueue
      have hfst : (s.manager.receiveTurn t ctx).1 = some msg := by
        simp [receiveTurn, receiveMessage, hτ, hmsgs]
      have hcurrent' : (s.manager.receiveTurn t ctx).2.currentTask = some t := by
        simpa [receiveTurn, receiveMessage, hτ, hmsgs] using hcurrent
      have hqueue' : (s.manager.receiveTurn t ctx).2.queued t = some rest := by
        rw [(s.manager.receiveTurn_queued t ctx).2, Function.update_self, hqueue]
        rfl
      have hstep := Step.readTurn ctx hcurrent hidle hpipe hreading
      rw [hfst] at hstep
      cases msg with
      | other o =>
          have hsame : payloads (.other o :: rest) = payloads rest :=
            List.filterMap_cons_none rfl
          obtain ⟨turns, s', c', hrun, hpipe', hreads⟩ := ih
            { s with manager := (s.manager.receiveTurn t ctx).2
                     pipes := Function.update s.pipes t (some c) } c hcurrent'
            (Function.update_self _ _ _) hreading hqueue'
            (fun m hm ↦ hwf m (List.mem_cons_of_mem _ hm)) (hsame ▸ hmarker)
          exact ⟨turns + 1, s', c', hrun.head hstep, hpipe', hreads⟩
      | pipe data n =>
          obtain ⟨hdata, hn⟩ := hwf _ List.mem_cons_self
          have hcons : payloads (.pipe data n :: rest) = data.take n :: payloads rest :=
            List.filterMap_cons_some rfl
          rw [hcons] at hmarker
          have hzero : n = 0 := by
            have hlength := congrArg List.length (List.cons.inj hmarker).1
            rwa [List.length_take, hdata, min_eq_left hn, List.length_nil] at hlength
          subst hzero
          exact ⟨1, _, _, .single hstep, Function.update_self _ _ _, rfl⟩

theorem eq_replicate_nil {reads : List (List UInt8)} (h : reads.flatten = []) :
    reads = List.replicate reads.length [] := by
  rw [List.eq_replicate_iff]
  exact ⟨rfl, fun bytes hmem ↦ List.flatten_eq_nil_iff.mp h bytes hmem⟩

/-- In every interleaving, for every pipe whose reader has not finished: the
bytes its reads returned are a prefix of the bytes written, in order; a read
returned 0 only after `FinishWrite` and after every written byte; and from then
on every read returns, and returns 0. -/
theorem pipe_stream_integrity {idleCtx : Ctx} {ops : List (Op Ctx Other)} {s : State Ctx Other}
    (hrun : Transition.Run Step (Pipe.init idleCtx) ops s) {reader : ℕ} {c : Channel}
    (hpipe : s.pipes reader = some c) (halive : s.manager.tasks reader ≠ none) :
    c.reads.flatten <+: c.written ∧
      ([] ∈ c.reads → c.finished = true ∧ c.reads.flatten = c.written) ∧
      (c.finished = true → c.reads.flatten = c.written →
        (∀ ops' s' c', Transition.Run Step s ops' s' → s'.pipes reader = some c' →
          s'.manager.tasks reader ≠ none →
            ∃ zeros, c'.reads = c.reads ++ List.replicate zeros []) ∧
        ∀ len ctx, 1 ≤ len → s.manager.currentTask = some reader → c.reading = none →
          ∃ turns s' c', Transition.Run Step s
              (.read len :: List.replicate turns (.readTurn ctx)) s' ∧
            s'.pipes reader = some c' ∧ c'.reads = c.reads ++ [[]]) := by
  have hs : Invariant s := hrun.invariant Invariant.step (.init idleCtx)
  obtain ⟨queue, hqueue, hstream⟩ := hs.exists_stream hpipe halive
  have hwritten := hstream.stream
  refine ⟨?_, ?_, ?_⟩
  · rw [← hwritten, List.append_assoc, List.append_assoc]
    exact List.prefix_append _ _
  · intro hzero
    have hclosed := hstream.zero hzero
    cases hf : c.finished with
    | false =>
        rw [(hstream.unfinished hf).1] at hclosed
        cases hclosed
    | true =>
        obtain ⟨hpending, ⟨_, hempty, hlen⟩ | ⟨hopen, _⟩⟩ := hstream.finished hf
        · refine ⟨rfl, ?_⟩
          rw [← hwritten, hpending, hempty, PipeDescriptor.leftover, hlen]
          simp
        · rw [hopen] at hclosed
          cases hclosed
  · intro hf hall
    constructor
    · intro ops' s' c' hrun' hpipe' halive'
      obtain ⟨hs', c₁, hc₁, ⟨extra, hextra⟩, hlater⟩ := later_of_run hs hrun' hpipe
      obtain rfl : c₁ = c' := Option.some.inj (hc₁.symm.trans hpipe')
      obtain ⟨queue', _, hstream'⟩ := hs'.exists_stream hpipe' halive'
      have hlength := congrArg List.length hstream'.stream
      rw [(hlater hf).2, ← hextra, List.flatten_append] at hlength
      simp only [List.length_append, hall] at hlength
      have hnil : extra.flatten = [] := List.eq_nil_of_length_eq_zero (by omega)
      exact ⟨extra.length, by rw [← hextra, ← eq_replicate_nil hnil]⟩
    · intro len ctx hlen hcurrent hreading
      have hidle : reader ≠ idleId := ne_of_gt (hs.reader reader c hpipe).1
      have hlength := congrArg List.length hwritten
      simp only [List.length_append, hall] at hlength
      have hleft : c.desc.leftover = [] := List.eq_nil_of_length_eq_zero (by omega)
      have hpayloads : (payloads queue).flatten = [] := List.eq_nil_of_length_eq_zero (by omega)
      have hzero : c.desc.len = 0 := by
        have hnil := congrArg List.length hleft
        rwa [PipeDescriptor.leftover, List.length_take, hstream.data,
          min_eq_left hstream.len, List.length_nil] at hnil
      have hstep := Step.read len hlen hcurrent hpipe hreading
      obtain ⟨hpending, ⟨hclosed, _⟩ | ⟨hopen, front, hfront, hmarker⟩⟩ := hstream.finished hf
      · refine ⟨0, _, _, .single hstep, Function.update_self _ _ _, ?_⟩
        simp [Channel.callRead, PipeDescriptor.readBuffered, hzero, hclosed]
      · have hcall : c.callRead len = { c with reading := some len } := by
          simp [Channel.callRead, PipeDescriptor.readBuffered, hzero, hopen]
        have honly : payloads queue = [[]] := by
          rw [hfront, List.flatten_append, List.append_eq_nil_iff] at hpayloads
          cases front with
          | nil => exact hfront
          | cons first front =>
              have hfirst := List.flatten_eq_nil_iff.mp hpayloads.1 first List.mem_cons_self
              exact absurd (hfirst ▸ List.mem_cons_self) hmarker
        rw [hcall] at hstep
        obtain ⟨turns, s', c', hrun', hpipe', hreads⟩ := exists_run_zero ctx hidle queue
          { s with pipes := Function.update s.pipes reader (some { c with reading := some len }) }
          { c with reading := some len } hcurrent (Function.update_self _ _ _) rfl hqueue
          hstream.wellFormed honly
        exact ⟨turns, s', c', hrun'.head hstep, hpipe', hreads⟩

/-- The main task writes three bytes to a new pipe and finishes it; the reader
asks for two, for five and for one. -/
theorem pipe_stream_integrity_three_bytes :
    ∃ (s : State Unit Unit) (c : Channel), Transition.Run Step (Pipe.init ())
        [.openPipe (List.replicate dataBytes 0), .write 3 [10, 20, 30], .sendChunk 3,
          .sendMessage 3 (), .finishWrite 3, .receive (), .read 2, .readTurn (), .read 5, .read 1,
          .readTurn (), .readTurn ()] s ∧
      s.pipes 3 = some c ∧ c.reads = [[10, 20], [30], []] ∧ c.finished = true ∧
        c.reads.flatten = c.written := by
  have hrun : Transition.Run Step (Pipe.init () : State Unit Unit)
      [.openPipe (List.replicate dataBytes 0), .write 3 [10, 20, 30], .sendChunk 3,
        .sendMessage 3 (), .finishWrite 3, .receive (), .read 2, .readTurn (), .read 5, .read 1,
        .readTurn (), .readTurn ()] _ :=
    .snoc (.snoc (.snoc (.snoc (.snoc (.snoc (.snoc (.snoc (.snoc (.snoc (.snoc (.snoc (.nil _)
      (.openPipe (t := 1) _ rfl rfl)) (.write _ rfl rfl rfl rfl))
      (.sendChunk {} rfl rfl (by decide))) (.sendMessage 3 ()))
      (.finishWrite {} rfl rfl rfl rfl)) (.receive (t := 1) () rfl (by decide) rfl))
      (.read (t := 3) 2 (by decide) rfl rfl rfl)) (.readTurn (t := 3) () rfl (by decide) rfl rfl))
      (.read (t := 3) 5 (by decide) rfl rfl rfl)) (.read (t := 3) 1 (by decide) rfl rfl rfl))
      (.readTurn (t := 3) () rfl (by decide) rfl rfl))
      (.readTurn (t := 3) () rfl (by decide) rfl rfl)
  exact ⟨_, _, hrun, rfl, rfl,
    (@pipe_stream_integrity Unit Unit () _ _ hrun 3 _ rfl (by decide)).2.1 (by decide)⟩

end Pipe
end MinOS
