import MinOS.Terminal.Blink
import MinOS.Timer.CreateTimer

/-!
# Timers and events of apps

What becomes of the timers that apps create: the timer manager holds them, their timeouts wait in
the message queue of the task, and `ReadEvent` gives them to an app, under the value that the app
has chosen.
-/

namespace MinOS
namespace TaskTerminal

open Transition

/-- A state with the timers that apps have created, the events that `ReadEvent` has given to them,
and the messages that others have taken out of the queue. -/
structure History where
  state : State
  created : List (ℕ × ℤ)
  given : List AppEvent
  dropped : List Message

/-- The timeout and the value of the timer that a step creates for an app. -/
def createdBy (s : State) : Op → List (ℕ × ℤ)
  | .createTimer mode timerValue arg3 =>
      if timerValue ≤ 0 then [] else [(appTimeout s.manager.tick mode arg3, timerValue)]
  | _ => []

/-- The event that a step puts into the buffer of a call of `ReadEvent`. -/
def givenBy (s : State) : Op → List AppEvent
  | .readEventTurn =>
      match s.mode with
      | .command (some call) =>
          if call.events.length < call.len then (s.msgs.head?.bind appEvent).toList else []
      | _ => []
  | _ => []

/-- The message that the event loop or a `Read` of the terminal takes out of the queue. -/
def droppedBy (s : State) : Op → List Message
  | .receive => s.msgs.head?.toList
  | .read => s.msgs.head?.toList
  | _ => []

/-- A step and what it adds to the history. -/
structure HistoryStep (taskId : ℕ) (h : History) (op : Op) (h' : History) : Prop where
  step : Step taskId h.state op h'.state
  created : h'.created = h.created ++ createdBy h.state op
  given : h'.given = h.given ++ givenBy h.state op
  dropped : h'.dropped = h.dropped ++ droppedBy h.state op

def noHistory : History := ⟨start, [], [], []⟩

/-- The tick counter is not about to wrap around. -/
def BelowLimit (h : History) : Op → Prop
  | .tick => h.state.manager.tick + 1 < 2 ^ 64
  | _ => True

variable {taskId timeout : ℕ} {value : ℤ} {s s' : State} {op : Op} {h h' : History}

/-! ## Balances -/

/-- The timer of an app with this value. -/
def appTimer (taskId timeout : ℕ) (value : ℤ) : Timer := ⟨timeout, -value, taskId⟩

/-- How often a timer is pending in the timer manager or waits in the message queue. -/
def waiting (taskId timeout : ℕ) (value : ℤ) (s : State) : ℕ :=
  s.manager.timers.count (appTimer taskId timeout value) +
    s.msgs.count (.timerTimeout timeout (-value))

/-- Every timer that an app has created is waiting, or was given to an app, or was taken out of the
queue by someone else. -/
def Balanced (taskId : ℕ) (h : History) : Prop :=
  ∀ timeout value, 0 < value →
    h.created.count (timeout, value) = waiting taskId timeout value h.state +
      h.given.count (.timerTimeout timeout value) +
        h.dropped.count (.timerTimeout timeout (-value))

theorem appEvent_eq_timerTimeout (hvalue : 0 < value) (msg : Message) :
    appEvent msg = some (.timerTimeout timeout value) ↔ msg = .timerTimeout timeout (-value) := by
  cases msg with
  | timerTimeout timeout' value' =>
      rw [appEvent, Message.timerTimeout.injEq]
      split_ifs with hneg
      · rw [Option.some.injEq, AppEvent.timerTimeout.injEq]
        exact and_congr_right fun _ ↦ ⟨fun heq ↦ by omega, fun heq ↦ by omega⟩
      · constructor
        · intro hnone
          cases hnone
        · rintro ⟨-, rfl⟩
          exact absurd (by omega) hneg
  | keyPush modifier keycode ascii press =>
      rw [appEvent]
      split_ifs <;> simp
  | mouseMove => simp [appEvent]
  | mouseButton => simp [appEvent]
  | windowActive => simp [appEvent]
  | windowClose => simp [appEvent]
  | other => simp [appEvent]

/-- The timeouts that a `Tick` sends to the task. -/
theorem count_timeouts (sent : List TimerMessage) :
    ((sent.filter (·.taskId = taskId)).map timeoutMessage).count (.timerTimeout timeout value) =
      sent.count ⟨taskId, timeout, value⟩ := by
  induction sent with
  | nil => rfl
  | cons m sent ih =>
      rw [List.count_cons, ← ih]
      obtain ⟨id, t, v⟩ := m
      by_cases htask : id = taskId
      · rw [List.filter_cons_of_pos (by simpa using htask), List.map_cons, List.count_cons]
        simp [timeoutMessage, htask]
      · rw [List.filter_cons_of_neg (by simpa using htask)]
        simp [htask]

theorem loopStep_count {tick : ℕ} {l l' : TimerManager.Loop} (hstep : TimerManager.LoopStep tick l l')
    {t : Timer} (hvalue : t.value ≠ kTaskTimerValue) :
    l'.timers.count t + l'.sent.count t.message = l.timers.count t + l.sent.count t.message := by
  obtain ⟨u, hu, -, -, hcase⟩ := hstep.cases_of
  rcases hcase with ⟨hrenewed, htimers, -, hsent⟩ | ⟨-, htimers, -, hsent⟩
  · have hne : t ≠ u := by
      rintro rfl
      exact hvalue hrenewed
    have hnew : t ≠ TimerManager.taskTimer tick := by
      rintro rfl
      exact hvalue rfl
    rw [htimers, hsent, Multiset.count_cons_of_ne hnew, Multiset.count_erase_of_ne hne]
  · rw [htimers, hsent, List.count_append]
    by_cases heq : t = u
    · subst heq
      have hpos := Multiset.count_pos.mpr hu
      rw [Multiset.count_erase_self]
      simp
      omega
    · have hmessage : u.message ≠ t.message := by
        intro hm
        rw [Timer.message, Timer.message, TimerMessage.mk.injEq] at hm
        cases t
        cases u
        simp_all
      rw [Multiset.count_erase_of_ne heq, List.count_singleton]
      simp [hmessage]

theorem loopRun_count {tick : ℕ} {l l' : TimerManager.Loop}
    (hrun : Relation.ReflTransGen (TimerManager.LoopStep tick) l l') {t : Timer}
    (hvalue : t.value ≠ kTaskTimerValue) :
    l'.timers.count t + l'.sent.count t.message = l.timers.count t + l.sent.count t.message := by
  induction hrun with
  | refl => rfl
  | tail _ hstep ih => exact (loopStep_count hstep hvalue).trans ih

/-- A `Tick` turns pending timers into messages. -/
theorem waiting_tick (hvalue : 0 < value) {sent : List TimerMessage} {flag : Bool} {m : TimerManager}
    (htick : TimerManager.Step s.manager (.tick sent flag) m) :
    waiting taskId timeout value
      { s with
        manager := m
        msgs := s.msgs ++ (sent.filter (·.taskId = taskId)).map timeoutMessage } =
      waiting taskId timeout value s := by
  cases htick with
  | tick loop exit =>
      have hnot : (appTimer taskId timeout value).value ≠ kTaskTimerValue := by
        intro heq
        change -value = kTaskTimerValue at heq
        rw [kTaskTimerValue] at heq
        omega
      have hloop := loopRun_count loop hnot
      simp only [TimerManager.loopStart, List.count_nil, add_zero] at hloop
      simp only [waiting, List.count_append, count_timeouts]
      change _ + List.count (⟨taskId, timeout, -value⟩ : TimerMessage) _ = _ at hloop
      omega

theorem waiting_addTimer (s : State) (t : Timer) :
    waiting taskId timeout value { s with manager := s.manager.addTimer t } =
      waiting taskId timeout value s + if appTimer taskId timeout value = t then 1 else 0 := by
  simp only [waiting, TimerManager.addTimer, Multiset.count_cons]
  omega

/-- A message is taken out of the queue. -/
theorem waiting_cons {msg : Message} {rest : List Message} (hmsgs : s.msgs = msg :: rest) :
    waiting taskId timeout value s = waiting taskId timeout value { s with msgs := rest } +
      if msg = .timerTimeout timeout (-value) then 1 else 0 := by
  simp only [waiting, hmsgs, List.count_cons, beq_iff_eq]
  omega

theorem waiting_take {msg : Message} {rest : List Message} (hmsgs : s.msgs = msg :: rest) :
    waiting taskId timeout value s = waiting taskId timeout value (s.take msg rest) +
      if msg = .timerTimeout timeout (-value) then 1 else 0 :=
  waiting_cons hmsgs

theorem waiting_addBlinkTimer (hvalue : 0 < value) (s : State) (t : ℕ) :
    waiting taskId timeout value (addBlinkTimer taskId s t) = waiting taskId timeout value s := by
  rw [addBlinkTimer, waiting_addTimer, if_neg, add_zero]
  rw [appTimer, Timer.mk.injEq, blinkValue]
  omega

/-- The event loop adds no timer of an app. -/
theorem waiting_handle (hvalue : 0 < value) (s : State) (msg : Message) :
    waiting taskId timeout value (handle taskId s msg) = waiting taskId timeout value s := by
  cases msg with
  | timerTimeout t v => exact waiting_addBlinkTimer hvalue _ t
  | keyPush modifier keycode ascii press =>
      rw [handle]
      split_ifs <;> rfl
  | mouseMove => rfl
  | mouseButton => rfl
  | windowActive => rfl
  | windowClose => rfl
  | other => rfl

theorem waiting_createTimer (hvalue : 0 < value) (s : State) (mode : BitVec 32) (timerValue : ℤ)
    (arg3 : ℕ) :
    waiting taskId timeout value (createTimer taskId s mode timerValue arg3) =
      waiting taskId timeout value s +
        (createdBy s (.createTimer mode timerValue arg3)).count (timeout, value) := by
  rw [createTimer, createdBy]
  by_cases hpositive : timerValue ≤ 0
  · rw [if_pos hpositive, if_pos hpositive]
    rfl
  · rw [if_neg hpositive, if_neg hpositive, waiting_addTimer, List.count_singleton]
    congr 1
    apply if_congr _ rfl rfl
    rw [appTimer, Timer.mk.injEq, beq_iff_eq, Prod.mk.injEq]
    constructor
    · rintro ⟨rfl, hneg, -⟩
      exact ⟨rfl, by omega⟩
    · rintro ⟨rfl, rfl⟩
      exact ⟨rfl, rfl, rfl⟩

/-- What a turn of the loop of `ReadEvent` can do: it takes a message, waits, or returns. -/
theorem readEventTurn_cases {call : ReadEvent} (hmode : s.mode = .command (some call)) :
    (∃ msg rest, s.msgs = msg :: rest ∧ givenBy s .readEventTurn = (appEvent msg).toList ∧
      readEventTurn s call =
        { s.take msg rest with
          mode := .command (some { call with events := call.events ++ (appEvent msg).toList }) }) ∨
    (givenBy s .readEventTurn = [] ∧
      (readEventTurn s call = s ∨ readEventTurn s call = { s with mode := .command none })) := by
  by_cases hlen : call.events.length < call.len
  · cases hmsgs : s.msgs with
    | nil =>
        right
        constructor
        · simp [givenBy, hmode, hmsgs]
        · by_cases hevents : call.events = []
          · left
            simp only [readEventTurn, if_pos hlen, hmsgs, if_pos hevents]
          · right
            simp only [readEventTurn, if_pos hlen, hmsgs, if_neg hevents]
    | cons msg rest =>
        left
        refine ⟨msg, rest, rfl, ?_, ?_⟩
        · simp [givenBy, hmode, hlen, hmsgs]
        · simp only [readEventTurn, if_pos hlen, hmsgs]
  · right
    constructor
    · simp [givenBy, hmode, hlen]
    · right
      rw [readEventTurn, if_neg hlen]

/-- A turn of the loop of `ReadEvent` gives a timeout of an app to the app, and no other message
becomes one. -/
theorem waiting_readEventTurn (hvalue : 0 < value) {call : ReadEvent}
    (hmode : s.mode = .command (some call)) :
    waiting taskId timeout value s = waiting taskId timeout value (readEventTurn s call) +
      (givenBy s .readEventTurn).count (.timerTimeout timeout value) := by
  rcases readEventTurn_cases hmode with ⟨msg, rest, hmsgs, hgiven, hturn⟩ | ⟨hgiven, hturn | hturn⟩
  · rw [hgiven, hturn, waiting_take hmsgs]
    congr 1
    by_cases hmsg : msg = .timerTimeout timeout (-value)
    · rw [if_pos hmsg, (appEvent_eq_timerTimeout hvalue msg).mpr hmsg]
      simp
    · rw [if_neg hmsg]
      symm
      rw [List.count_eq_zero, Option.mem_toList]
      exact fun hevent ↦ hmsg ((appEvent_eq_timerTimeout hvalue msg).mp hevent)
  · rw [hgiven, hturn]
    rfl
  · rw [hgiven, hturn]
    rfl

/-- What a step adds to the timers of apps that wait, or takes from them. -/
theorem waiting_step (hvalue : 0 < value) (hstep : Step taskId s op s') :
    waiting taskId timeout value s + (createdBy s op).count (timeout, value) =
      waiting taskId timeout value s' + (givenBy s op).count (.timerTimeout timeout value) +
        (droppedBy s op).count (.timerTimeout timeout (-value)) := by
  cases hstep with
  | addTimer hother =>
      rw [waiting_addTimer, if_neg]
      · rfl
      · rintro rfl
        exact hother rfl
  | tick htick =>
      rw [waiting_tick hvalue htick]
      rfl
  | send hmsg =>
      have hne := hmsg timeout (-value)
      simp only [waiting, List.count_append, List.count_singleton, beq_iff_eq, if_neg hne, add_zero]
      rfl
  | startLoop hmode =>
      change _ = waiting taskId timeout value (addBlinkTimer taskId s s.manager.tick) + _ + _
      rw [waiting_addBlinkTimer hvalue]
      rfl
  | receive hmode hmsgs =>
      rw [waiting_handle hvalue, waiting_cons hmsgs]
      simp [createdBy, givenBy, droppedBy, hmsgs, List.count_singleton]
  | createTimer hmode mode timerValue arg3 =>
      rw [waiting_createTimer hvalue]
      rfl
  | readEvent hmode arg1 len =>
      split_ifs <;> rfl
  | readEventTurn hmode =>
      rw [waiting_readEventTurn hvalue hmode]
      rfl
  | read hmsgs =>
      rw [waiting_take hmsgs]
      simp [createdBy, givenBy, droppedBy, hmsgs, List.count_singleton]
  | exit hmode => rfl

theorem Balanced.step (hbalanced : Balanced taskId h) (hstep : HistoryStep taskId h op h') :
    Balanced taskId h' := by
  intro timeout value hvalue
  have hold := hbalanced timeout value hvalue
  have hmoved : _ = waiting taskId timeout value h'.state + _ + _ := waiting_step hvalue hstep.step
  rw [hstep.created, hstep.given, hstep.dropped, List.count_append, List.count_append,
    List.count_append]
  omega

/-! ## No event comes early -/

/-- The timeouts in the queue and those that apps were given are over. -/
structure Due (h : History) : Prop where
  msgs : ∀ timeout value, .timerTimeout timeout value ∈ h.state.msgs →
    timeout ≤ h.state.manager.tick
  given : ∀ timeout value, .timerTimeout timeout value ∈ h.given → timeout ≤ h.state.manager.tick

theorem handle_msgs (s : State) (msg : Message) : (handle taskId s msg).msgs = s.msgs := by
  cases msg with
  | keyPush modifier keycode ascii press =>
      rw [handle]
      split_ifs <;> rfl
  | timerTimeout => rfl
  | mouseMove => rfl
  | mouseButton => rfl
  | windowActive => rfl
  | windowClose => rfl
  | other => rfl

theorem handle_tick (s : State) (msg : Message) :
    (handle taskId s msg).manager.tick = s.manager.tick := by
  cases msg with
  | keyPush modifier keycode ascii press =>
      rw [handle]
      split_ifs <;> rfl
  | timerTimeout => rfl
  | mouseMove => rfl
  | mouseButton => rfl
  | windowActive => rfl
  | windowClose => rfl
  | other => rfl

theorem handle_mode (taskId : ℕ) (s : State) (msg : Message) :
    (handle taskId s msg).mode = s.mode ∨ (handle taskId s msg).mode = .command none ∨
      (handle taskId s msg).mode = .finished := by
  cases msg with
  | keyPush modifier keycode ascii press =>
      rw [handle]
      split_ifs
      · exact .inr (.inl rfl)
      · exact .inl rfl
  | windowClose => exact .inr (.inr rfl)
  | timerTimeout => exact .inl rfl
  | mouseMove => exact .inl rfl
  | mouseButton => exact .inl rfl
  | windowActive => exact .inl rfl
  | other => exact .inl rfl

theorem createTimer_tick (s : State) (mode : BitVec 32) (timerValue : ℤ) (arg3 : ℕ) :
    (createTimer taskId s mode timerValue arg3).manager.tick = s.manager.tick := by
  rw [createTimer]
  split_ifs <;> rfl

theorem createTimer_msgs (s : State) (mode : BitVec 32) (timerValue : ℤ) (arg3 : ℕ) :
    (createTimer taskId s mode timerValue arg3).msgs = s.msgs := by
  rw [createTimer]
  split_ifs <;> rfl

/-- The tick counter does not go back, and a timeout that is new in the queue is over. -/
theorem msgs_step (hstep : Step taskId s op s')
    (hlimit : op = .tick → s.manager.tick + 1 < 2 ^ 64) :
    s.manager.tick ≤ s'.manager.tick ∧
      ∀ timeout value, .timerTimeout timeout value ∈ s'.msgs →
        .timerTimeout timeout value ∈ s.msgs ∨ timeout ≤ s'.manager.tick := by
  cases hstep with
  | addTimer hother => exact ⟨le_rfl, fun _ _ hmem ↦ .inl hmem⟩
  | tick htick =>
      cases htick with
      | tick loop exit =>
          have hnext : s.manager.nextTick = s.manager.tick + 1 := Nat.mod_eq_of_lt (hlimit rfl)
          refine ⟨hnext ▸ Nat.le_succ _, ?_⟩
          intro timeout value hmem
          rcases List.mem_append.mp hmem with hmem | hmem
          · exact .inl hmem
          · obtain ⟨message, hsent, heq⟩ := List.mem_map.mp hmem
            obtain ⟨rfl, -⟩ := Message.timerTimeout.inj heq
            exact .inr (TimerManager.loop_sent_le loop (fun a ha ↦ absurd ha List.not_mem_nil)
              message (List.mem_of_mem_filter hsent))
  | send hmsg =>
      refine ⟨le_rfl, fun timeout value hmem ↦ ?_⟩
      rcases List.mem_append.mp hmem with hmem | hmem
      · exact .inl hmem
      · exact absurd (List.mem_singleton.mp hmem).symm (hmsg timeout value)
  | startLoop hmode => exact ⟨le_rfl, fun _ _ hmem ↦ .inl hmem⟩
  | receive hmode hmsgs =>
      rw [handle_tick, handle_msgs, hmsgs]
      exact ⟨le_rfl, fun _ _ hmem ↦ .inl (List.mem_cons_of_mem _ hmem)⟩
  | createTimer hmode mode timerValue arg3 =>
      rw [createTimer_tick, createTimer_msgs]
      exact ⟨le_rfl, fun _ _ hmem ↦ .inl hmem⟩
  | readEvent hmode arg1 len =>
      split_ifs <;> exact ⟨le_rfl, fun _ _ hmem ↦ .inl hmem⟩
  | readEventTurn hmode =>
      rcases readEventTurn_cases hmode with ⟨msg, rest, hmsgs, -, hturn⟩ | ⟨-, hturn | hturn⟩
      · rw [hturn, hmsgs]
        exact ⟨le_rfl, fun _ _ hmem ↦ .inl (List.mem_cons_of_mem _ hmem)⟩
      · rw [hturn]
        exact ⟨le_rfl, fun _ _ hmem ↦ .inl hmem⟩
      · rw [hturn]
        exact ⟨le_rfl, fun _ _ hmem ↦ .inl hmem⟩
  | read hmsgs =>
      rw [hmsgs]
      exact ⟨le_rfl, fun _ _ hmem ↦ .inl (List.mem_cons_of_mem _ hmem)⟩
  | exit hmode => exact ⟨le_rfl, fun _ _ hmem ↦ .inl hmem⟩

/-- A timeout that an app is given comes from the queue. -/
theorem mem_givenBy (hmem : .timerTimeout timeout value ∈ givenBy s op) :
    ∃ value', .timerTimeout timeout value' ∈ s.msgs := by
  unfold givenBy at hmem
  split at hmem
  · split at hmem
    · split_ifs at hmem
      · rw [Option.mem_toList, Option.bind_eq_some_iff] at hmem
        obtain ⟨msg, hhead, hevent⟩ := hmem
        have hmsg := List.mem_of_mem_head? hhead
        cases msg with
        | timerTimeout t v =>
            rw [appEvent] at hevent
            split_ifs at hevent
            obtain ⟨rfl, -⟩ := AppEvent.timerTimeout.inj (Option.some.inj hevent)
            exact ⟨v, hmsg⟩
        | keyPush modifier keycode ascii press =>
            rw [appEvent] at hevent
            split_ifs at hevent <;> cases hevent
        | mouseMove => cases hevent
        | mouseButton => cases hevent
        | windowActive => cases hevent
        | windowClose => cases hevent
        | other => cases hevent
      · cases hmem
    · cases hmem
  · cases hmem

theorem Due.step (hdue : Due h) (hlimit : BelowLimit h op) (hstep : HistoryStep taskId h op h') :
    Due h' := by
  have hmsgs := msgs_step hstep.step fun hop ↦ by
    subst hop
    exact hlimit
  constructor
  · intro timeout value hmem
    rcases hmsgs.2 timeout value hmem with hold | hnew
    · exact (hdue.msgs timeout value hold).trans hmsgs.1
    · exact hnew
  · intro timeout value hmem
    rw [hstep.given] at hmem
    rcases List.mem_append.mp hmem with hold | hnew
    · exact (hdue.given timeout value hold).trans hmsgs.1
    · obtain ⟨value', hqueue⟩ := mem_givenBy hnew
      exact (hdue.msgs timeout value' hqueue).trans hmsgs.1

/-- The events in the buffer of a call are the last that apps were given. -/
def Buffered (h : History) : Prop :=
  ∀ call, h.state.mode = .command (some call) → call.events <:+ h.given

/-- A call of `ReadEvent` starts with an empty buffer, and only its own turns fill it. -/
theorem call_step (hstep : Step taskId s op s') {call : ReadEvent}
    (hcall : s'.mode = .command (some call)) :
    givenBy s op = [] ∧ (s.mode = .command (some call) ∨ call.events = []) ∨
      ∃ call', s.mode = .command (some call') ∧ call.events = call'.events ++ givenBy s op := by
  cases hstep with
  | addTimer hother => exact .inl ⟨rfl, .inl hcall⟩
  | tick htick => exact .inl ⟨rfl, .inl hcall⟩
  | send hmsg => exact .inl ⟨rfl, .inl hcall⟩
  | startLoop hmode => cases hcall
  | @receive msg rest hmode hmsgs =>
      rcases handle_mode taskId { s with msgs := rest } msg with heq | heq | heq
      · rw [heq, hmode] at hcall
        cases hcall
      · rw [heq] at hcall
        cases hcall
      · rw [heq] at hcall
        cases hcall
  | createTimer hmode mode timerValue arg3 =>
      rw [createTimer] at hcall
      split_ifs at hcall
      · exact .inl ⟨rfl, .inl hcall⟩
      · exact .inl ⟨rfl, .inl hcall⟩
  | readEvent hmode arg1 len =>
      split_ifs at hcall
      · exact .inl ⟨rfl, .inl hcall⟩
      · cases hcall
        exact .inl ⟨rfl, .inr rfl⟩
  | @readEventTurn call' hmode =>
      rcases readEventTurn_cases hmode with ⟨msg, rest, -, hgiven, hturn⟩ | ⟨hgiven, hturn | hturn⟩
      · rw [hturn] at hcall
        cases hcall
        exact .inr ⟨call', hmode, by rw [hgiven]⟩
      · rw [hturn] at hcall
        exact .inl ⟨hgiven, .inl hcall⟩
      · rw [hturn] at hcall
        cases hcall
  | read hmsgs => exact .inl ⟨rfl, .inl hcall⟩
  | exit hmode => cases hcall

theorem Buffered.step (hbuffered : Buffered h) (hstep : HistoryStep taskId h op h') :
    Buffered h' := by
  intro call hcall
  rw [hstep.given]
  rcases call_step hstep.step hcall with ⟨hgiven, hold | hempty⟩ | ⟨call', hold, hevents⟩
  · rw [hgiven, List.append_nil]
    exact hbuffered call hold
  · rw [hempty]
    exact List.nil_suffix
  · rw [hevents]
    exact List.suffix_append_self_iff.mpr (hbuffered call' hold)

/-! ## What the first app is given -/

/-- The terminal has not run a command line yet. -/
def Fresh (s : State) : Prop := s.mode = .starting ∨ s.mode = .eventLoop

/-- Before a command line has run no app has created a timer, and no timeout of an app was taken out
of the queue by others. -/
structure Undropped (h : History) : Prop where
  created : Fresh h.state → h.created = []
  dropped : ∀ timeout value, 0 < value → .timerTimeout timeout (-value) ∉ h.dropped

/-- Only the end of a command line leads back to the event loop. -/
theorem fresh_of_step (hstep : Step taskId s op s') (hexit : op ≠ .exit) (hfresh : Fresh s') :
    Fresh s ∧ createdBy s op = [] := by
  have hcommand (call : Option ReadEvent) (mode : Mode) (hmode : mode = .command call) :
      ¬ (mode = .starting ∨ mode = .eventLoop) := by
    rw [hmode]
    rintro (h | h) <;> cases h
  cases hstep with
  | addTimer hother => exact ⟨hfresh, rfl⟩
  | tick htick => exact ⟨hfresh, rfl⟩
  | send hmsg => exact ⟨hfresh, rfl⟩
  | startLoop hmode => exact ⟨.inl hmode, rfl⟩
  | receive hmode hmsgs => exact ⟨.inr hmode, rfl⟩
  | createTimer hmode mode timerValue arg3 =>
      rw [createTimer] at hfresh
      split_ifs at hfresh
      · exact absurd hfresh (hcommand _ _ hmode)
      · exact absurd hfresh (hcommand _ _ hmode)
  | readEvent hmode arg1 len =>
      split_ifs at hfresh
      · exact absurd hfresh (hcommand _ _ hmode)
      · exact absurd hfresh (hcommand _ _ rfl)
  | readEventTurn hmode =>
      rcases readEventTurn_cases hmode with ⟨msg, rest, -, -, hturn⟩ | ⟨-, hturn | hturn⟩
      · rw [hturn] at hfresh
        exact absurd hfresh (hcommand _ _ rfl)
      · rw [hturn] at hfresh
        exact absurd hfresh (hcommand _ _ hmode)
      · rw [hturn] at hfresh
        exact absurd hfresh (hcommand _ _ rfl)
  | read hmsgs => exact ⟨hfresh, rfl⟩
  | exit hmode => exact absurd rfl hexit

theorem mem_droppedBy (hstep : Step taskId s op s') (hread : op ≠ .read) {msg : Message}
    (hmem : msg ∈ droppedBy s op) : s.mode = .eventLoop ∧ msg ∈ s.msgs := by
  cases hstep with
  | receive hmode hmsgs => exact ⟨hmode, List.mem_of_mem_head? (Option.mem_toList.mp hmem)⟩
  | read hmsgs => exact absurd rfl hread
  | addTimer hother => cases hmem
  | tick htick => cases hmem
  | send hmsg => cases hmem
  | startLoop hmode => cases hmem
  | createTimer hmode mode timerValue arg3 => cases hmem
  | readEvent hmode arg1 len => cases hmem
  | readEventTurn hmode => cases hmem
  | exit hmode => cases hmem

theorem Undropped.step (hundropped : Undropped h) (hbalanced : Balanced taskId h)
    (hstep : HistoryStep taskId h op h') (hexit : op ≠ .exit) (hread : op ≠ .read) :
    Undropped h' := by
  constructor
  · intro hfresh
    obtain ⟨hold, hnone⟩ := fresh_of_step hstep.step hexit hfresh
    rw [hstep.created, hnone, List.append_nil]
    exact hundropped.created hold
  · intro timeout value hvalue hmem
    rw [hstep.dropped] at hmem
    rcases List.mem_append.mp hmem with hold | hnew
    · exact hundropped.dropped timeout value hvalue hold
    · have hcount := hbalanced timeout value hvalue
      obtain ⟨hmode, hqueue⟩ := mem_droppedBy hstep.step hread hnew
      have hpos := List.count_pos_iff.mpr hqueue
      rw [hundropped.created (.inr hmode), List.count_nil, waiting] at hcount
      omega

/-! ## Runs -/

/-- After a `Tick` no pending timer is over. -/
theorem later_of_tick (hstep : Step taskId s .tick s') {t : Timer}
    (ht : t ∈ s'.manager.timers) : s'.manager.tick < t.timeout := by
  cases hstep with
  | tick htick =>
      cases htick with
      | tick loop exit =>
          obtain ⟨top, htop, hlater⟩ := exit
          rw [TimerManager.isTop_iff] at htop
          exact lt_of_lt_of_le hlater (htop.2 t ht)

theorem count_after_tick (hbalanced : Balanced taskId h') (hstep : HistoryStep taskId h .tick h')
    (hvalue : 0 < value) (hover : timeout ≤ h'.state.manager.tick) :
    h'.created.count (timeout, value) =
      h'.state.msgs.count (.timerTimeout timeout (-value)) +
        h'.given.count (.timerTimeout timeout value) +
          h'.dropped.count (.timerTimeout timeout (-value)) := by
  have hnone : h'.state.manager.timers.count (appTimer taskId timeout value) = 0 := by
    rw [Multiset.count_eq_zero]
    exact fun hpending ↦ absurd (later_of_tick hstep.step hpending) (not_lt.mpr hover)
  rw [hbalanced timeout value hvalue, waiting, hnone, zero_add]

/-- What holds in every reachable state. -/
structure Tracked (taskId : ℕ) (h : History) : Prop where
  balanced : Balanced taskId h
  due : Due h
  buffered : Buffered h

theorem tracked_noHistory (taskId : ℕ) : Tracked taskId noHistory where
  balanced timeout value hvalue := by
    symm
    simp only [noHistory, waiting, start, List.count_nil, add_zero]
    rw [Multiset.count_eq_zero]
    intro hmem
    have hvalues : ∀ t ∈ start.manager.timers, 0 ≤ t.value := by decide
    have hnonneg : 0 ≤ -value := hvalues _ hmem
    omega
  due := ⟨fun _ _ hmem ↦ absurd hmem List.not_mem_nil, fun _ _ hmem ↦ absurd hmem List.not_mem_nil⟩
  buffered call hcall := by cases hcall

theorem tracked_of_run {ops : List Op}
    (hrun : Run (Guarded BelowLimit (HistoryStep taskId)) noHistory ops h) : Tracked taskId h := by
  apply hrun.invariant _ (tracked_noHistory taskId)
  rintro h op h' ⟨balanced, due, buffered⟩ ⟨hlimit, hstep⟩
  exact ⟨balanced.step hstep, due.step hlimit hstep, buffered.step hstep⟩

/-- As long as no command line ends and nothing reads from the terminal. -/
theorem undropped_of_run {ops : List Op}
    (hrun : Run (Guarded BelowLimit (HistoryStep taskId)) noHistory ops h)
    (hexit : .exit ∉ ops) (hread : .read ∉ ops) : Undropped h := by
  induction hrun with
  | nil => exact ⟨fun _ ↦ rfl, fun _ _ _ ↦ List.not_mem_nil⟩
  | snoc run last ih =>
      rw [List.mem_append, not_or, List.mem_singleton] at hexit hread
      exact (ih hexit.1 hread.1).step (tracked_of_run run).balanced last.2 (Ne.symm hexit.2)
        (Ne.symm hread.2)

/-- The history after a step. -/
def History.next (h : History) (op : Op) (s : State) : History where
  state := s
  created := h.created ++ createdBy h.state op
  given := h.given ++ givenBy h.state op
  dropped := h.dropped ++ droppedBy h.state op

theorem history_snoc {ops : List Op}
    (hrun : Run (Guarded BelowLimit (HistoryStep taskId)) noHistory ops h)
    (hstep : Step taskId h.state op s') (hlimit : BelowLimit h op) :
    Run (Guarded BelowLimit (HistoryStep taskId)) noHistory (ops ++ [op]) (h.next op s') :=
  hrun.snoc ⟨hlimit, hstep, rfl, rfl, rfl⟩

end TaskTerminal
end MinOS
