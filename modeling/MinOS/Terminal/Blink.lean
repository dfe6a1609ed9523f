import MinOS.Timer.Delivery

/-!
# The blink timer of a terminal

A terminal and the apps it runs are one task: they have one message queue, and
their timers carry one task id.  The event loop of `TaskTerminal` answers every
timeout with a new blink timer, while `ReadEvent` and the `Read` of the terminal
take timeouts out of the queue as well.
-/

namespace MinOS
namespace TaskTerminal

open Transition

/-- `Message`, as far as the terminal and `ReadEvent` look at it. -/
inductive Message where
  | timerTimeout (timeout : ℕ) (value : ℤ)
  | keyPush (modifier keycode ascii : BitVec 8) (press : Bool)
  | mouseMove (x y dx dy : ℤ) (buttons : BitVec 8)
  | mouseButton (x y : ℤ) (press : Bool) (button : ℤ)
  | windowActive (activate : Bool)
  | windowClose (layerId : ℕ)
  | other
deriving DecidableEq

/-- `AppEvent`. -/
inductive AppEvent where
  | quit
  | mouseMove (x y dx dy : ℤ) (buttons : BitVec 8)
  | mouseButton (x y : ℤ) (press : Bool) (button : ℤ)
  | timerTimeout (timeout : ℕ) (value : ℤ)
  | keyPush (modifier keycode ascii : BitVec 8) (press : Bool)
deriving DecidableEq

/-- `kLControlBitMask | kRControlBitMask`. -/
def controlBitMask : BitVec 8 := 0b00010001

/-- The event that `ReadEvent` makes of a message, if any. -/
def appEvent : Message → Option AppEvent
  | .keyPush modifier keycode ascii press =>
      if keycode = 20 ∧ modifier &&& controlBitMask ≠ 0 then some .quit
      else some (.keyPush modifier keycode ascii press)
  | .mouseMove x y dx dy buttons => some (.mouseMove x y dx dy buttons)
  | .mouseButton x y press button => some (.mouseButton x y press button)
  | .timerTimeout timeout value =>
      if value < 0 then some (.timerTimeout timeout (-value)) else none
  | .windowClose _ => some .quit
  | _ => none

/-- What `Read` of the terminal makes of a message: nothing, or the bytes that it
returns. -/
def readKey : Message → Option (List (BitVec 8))
  | .keyPush modifier keycode ascii true =>
      if modifier &&& controlBitMask ≠ 0 then
        if keycode = 7 then some [] else none
      else some [ascii]
  | _ => none

/-- A call of `ReadEvent`: the length of the buffer and the events in it. -/
structure ReadEvent where
  len : ℕ
  events : List AppEvent
deriving DecidableEq

/-- What the task is doing. -/
inductive Mode where
  | starting
  | eventLoop
  /-- A command line runs; the app may be in a call of `ReadEvent`. -/
  | command (call : Option ReadEvent)
  | finished
deriving DecidableEq

/-- The timers, the task's message queue and what it is doing, with the history
of the timeouts that went astray. -/
structure State where
  manager : TimerManager
  msgs : List Message
  mode : Mode
  /-- How many timeouts of other timers the event loop has answered. -/
  stray : ℕ
  /-- How many timeouts of blink timers were not answered by the event loop. -/
  stolen : ℕ

/-- Before the terminal is opened. -/
def start : State where
  manager := .start
  msgs := []
  mode := .starting
  stray := 0
  stolen := 0

def kTimerFreq : ℕ := 1000

/-- The value of the terminal's own timers. -/
def blinkValue : ℤ := 1

/-- `add_blink_timer`. -/
def addBlinkTimer (taskId : ℕ) (s : State) (t : ℕ) : State :=
  { s with manager := s.manager.addTimer ⟨(t + kTimerFreq / 2) % 2 ^ 64, blinkValue, taskId⟩ }

/-- Whether a message is the timeout of a blink timer. -/
def isBlink : Message → Bool
  | .timerTimeout _ value => value = blinkValue
  | _ => false

/-- Whether a message is the timeout of another timer. -/
def isStray : Message → Bool
  | .timerTimeout _ value => value ≠ blinkValue
  | _ => false

/-- What the event loop does with a message.  A pressed newline runs the command
line. -/
def handle (taskId : ℕ) (s : State) : Message → State
  | .timerTimeout timeout value =>
      addBlinkTimer taskId
        { s with stray := s.stray + if isStray (.timerTimeout timeout value) then 1 else 0 } timeout
  | .keyPush _ _ ascii press =>
      if press = true ∧ ascii = 10 then { s with mode := .command none } else s
  | .windowClose _ => { s with mode := .finished }
  | _ => s

/-- The timeout that an app asks for, in ticks. -/
def appTimeout (tick : ℕ) (mode : BitVec 32) (arg3 : ℕ) : ℕ :=
  let timeout := arg3 * kTimerFreq % 2 ^ 64 / 1000
  if mode &&& 1 ≠ 0 then (timeout + tick) % 2 ^ 64 else timeout

/-- `CreateTimer`. -/
def createTimer (taskId : ℕ) (s : State) (mode : BitVec 32) (timerValue : ℤ) (arg3 : ℕ) : State :=
  if timerValue ≤ 0 then s
  else
    { s with
      manager := s.manager.addTimer ⟨appTimeout s.manager.tick mode arg3, -timerValue, taskId⟩ }

/-- A message is taken out of the queue by something other than the event loop. -/
def State.take (s : State) (msg : Message) (rest : List Message) : State :=
  { s with msgs := rest, stolen := s.stolen + if isBlink msg then 1 else 0 }

/-- One turn of the loop of `ReadEvent`. -/
def readEventTurn (s : State) (call : ReadEvent) : State :=
  if call.events.length < call.len then
    match s.msgs with
    | [] => if call.events = [] then s else { s with mode := .command none }
    | msg :: rest =>
        { s.take msg rest with
          mode := .command (some { call with events := call.events ++ (appEvent msg).toList }) }
  else { s with mode := .command none }

/-- The message that a `Tick` sends. -/
def timeoutMessage (m : TimerMessage) : Message := .timerTimeout m.timeout m.value

inductive Op where
  | addTimer (timer : Timer)
  | tick
  | send (msg : Message)
  | startLoop
  | receive
  | createTimer (mode : BitVec 32) (timerValue : ℤ) (arg3 : ℕ)
  | readEvent (arg1 len : ℕ)
  | readEventTurn
  | read
  | exit

/-- The steps.  Only `Tick` sends timeouts, and only the task itself creates timers
with its task id.  The `Read` may also be that of an app which `noterm` runs in
a task of its own. -/
inductive Step (taskId : ℕ) : State → Op → State → Prop where
  | addTimer (s : State) {timer : Timer} (hother : timer.taskId ≠ taskId) :
      Step taskId s (.addTimer timer) { s with manager := s.manager.addTimer timer }
  | tick {s : State} {sent : List TimerMessage} {flag : Bool} {m : TimerManager}
      (htick : TimerManager.Step s.manager (.tick sent flag) m) :
      Step taskId s .tick
        { s with
          manager := m
          msgs := s.msgs ++ (sent.filter (·.taskId = taskId)).map timeoutMessage }
  | send (s : State) {msg : Message} (hmsg : ∀ timeout value, msg ≠ .timerTimeout timeout value) :
      Step taskId s (.send msg) { s with msgs := s.msgs ++ [msg] }
  | startLoop {s : State} (hmode : s.mode = .starting) :
      Step taskId s .startLoop
        { addBlinkTimer taskId s s.manager.tick with mode := .eventLoop }
  | receive {s : State} {msg : Message} {rest : List Message} (hmode : s.mode = .eventLoop)
      (hmsgs : s.msgs = msg :: rest) :
      Step taskId s .receive (handle taskId { s with msgs := rest } msg)
  | createTimer {s : State} (hmode : s.mode = .command none) (mode : BitVec 32) (timerValue : ℤ)
      (arg3 : ℕ) :
      Step taskId s (.createTimer mode timerValue arg3) (createTimer taskId s mode timerValue arg3)
  | readEvent {s : State} (hmode : s.mode = .command none) (arg1 len : ℕ) :
      Step taskId s (.readEvent arg1 len)
        (if arg1 < 2 ^ 63 then s else { s with mode := .command (some ⟨len, []⟩) })
  | readEventTurn {s : State} {call : ReadEvent} (hmode : s.mode = .command (some call)) :
      Step taskId s .readEventTurn (readEventTurn s call)
  | read {s : State} {msg : Message} {rest : List Message} (hmsgs : s.msgs = msg :: rest) :
      Step taskId s .read (s.take msg rest)
  | exit {s : State} (hmode : s.mode = .command none) :
      Step taskId s .exit { s with mode := .eventLoop }

/-- A timer of the terminal's own. -/
def IsBlinkTimer (taskId : ℕ) (t : Timer) : Prop := t.taskId = taskId ∧ t.value = blinkValue

instance (taskId : ℕ) (t : Timer) : Decidable (IsBlinkTimer taskId t) :=
  inferInstanceAs (Decidable (_ ∧ _))

/-- The terminal's blink timers that are pending in the timer manager, or delivered
and not handled yet. -/
def State.blinkTimers (taskId : ℕ) (s : State) : ℕ :=
  (s.manager.timers.filter (IsBlinkTimer taskId)).card + s.msgs.countP isBlink

/-- The apps leave the terminal's timeouts alone, and the event loop does not get
to see theirs. -/
def Attributed (s : State) : Op → Prop
  | .receive => ∀ msg ∈ s.msgs.head?, isStray msg = false
  | .readEventTurn => ∀ msg ∈ s.msgs.head?, isBlink msg = false
  | .read => ∀ msg ∈ s.msgs.head?, isBlink msg = false
  | _ => True

instance (s : State) (op : Op) : Decidable (Attributed s op) :=
  match op with
  | .receive => inferInstanceAs (Decidable (∀ msg ∈ s.msgs.head?, isStray msg = false))
  | .readEventTurn => inferInstanceAs (Decidable (∀ msg ∈ s.msgs.head?, isBlink msg = false))
  | .read => inferInstanceAs (Decidable (∀ msg ∈ s.msgs.head?, isBlink msg = false))
  | .addTimer _ => isTrue trivial
  | .tick => isTrue trivial
  | .send _ => isTrue trivial
  | .startLoop => isTrue trivial
  | .createTimer _ _ _ => isTrue trivial
  | .readEvent _ _ => isTrue trivial
  | .exit => isTrue trivial

variable {taskId : ℕ} {s s' : State} {op : Op}

/-- Once the loop has started, every blink timer is accounted for: there is the
first one, and one more for each stray timeout and one less for each stolen
one. -/
def Accounted (taskId : ℕ) (s : State) : Prop :=
  s.blinkTimers taskId + s.stolen = (if s.mode = .starting then 0 else 1) + s.stray

theorem card_addTimer (m : TimerManager) (t : Timer) :
    ((m.addTimer t).timers.filter (IsBlinkTimer taskId)).card =
      (m.timers.filter (IsBlinkTimer taskId)).card + if IsBlinkTimer taskId t then 1 else 0 := by
  rw [TimerManager.addTimer]
  split_ifs with h
  · rw [Multiset.filter_cons_of_pos _ h, Multiset.card_cons]
  · rw [Multiset.filter_cons_of_neg _ h, add_zero]

theorem isBlink_timeoutMessage (m : TimerMessage) :
    isBlink (timeoutMessage m) = decide (m.value = blinkValue) := rfl

/-- The blink timers among the timers of a loop of `Tick` and among the messages that
it has sent. -/
def loopBlinks (taskId : ℕ) (l : TimerManager.Loop) : ℕ :=
  (l.timers.filter (IsBlinkTimer taskId)).card +
    ((l.sent.filter (·.taskId = taskId)).map timeoutMessage).countP isBlink

theorem loopBlinks_step {tick : ℕ} {l l' : TimerManager.Loop}
    (h : TimerManager.LoopStep tick l l') : loopBlinks taskId l' = loopBlinks taskId l := by
  obtain ⟨t, ht, -, -, hcase⟩ := h.cases_of
  have herase := PriorityQueue.filter_erase (IsBlinkTimer taskId) ht
  rcases hcase with ⟨hvalue, htimers, -, hsent⟩ | ⟨-, htimers, -, hsent⟩
  · have hold : ¬ IsBlinkTimer taskId t := fun hb ↦ absurd (hvalue.symm.trans hb.2) (by decide)
    have hnew : ¬ IsBlinkTimer taskId (TimerManager.taskTimer tick) :=
      fun hb ↦ absurd hb.2 (by simp [TimerManager.taskTimer, kTaskTimerValue, blinkValue])
    rw [if_neg hold, zero_add] at herase
    rw [loopBlinks, loopBlinks, htimers, hsent, Multiset.filter_cons_of_neg _ hnew, herase]
  · rw [loopBlinks, loopBlinks, htimers, hsent, herase, Multiset.card_add, List.filter_append,
      List.map_append, List.countP_append]
    by_cases htask : t.taskId = taskId
    · by_cases hvalue : t.value = blinkValue
      · rw [if_pos ⟨htask, hvalue⟩]
        simp [Timer.message, htask, hvalue, isBlink_timeoutMessage]
        omega
      · rw [if_neg fun hb ↦ hvalue hb.2]
        simp [Timer.message, htask, hvalue, isBlink_timeoutMessage]
    · rw [if_neg fun hb ↦ htask hb.1]
      simp [Timer.message, htask]

theorem loopBlinks_run {tick : ℕ} {l l' : TimerManager.Loop}
    (h : Relation.ReflTransGen (TimerManager.LoopStep tick) l l') :
    loopBlinks taskId l' = loopBlinks taskId l := by
  induction h with
  | refl => rfl
  | tail _ hstep ih => rw [loopBlinks_step hstep, ih]

theorem blinkTimers_tick {sent : List TimerMessage} {flag : Bool} {m : TimerManager}
    (h : TimerManager.Step s.manager (.tick sent flag) m) :
    ({ s with
        manager := m
        msgs := s.msgs ++ (sent.filter (·.taskId = taskId)).map timeoutMessage } :
      State).blinkTimers taskId = s.blinkTimers taskId := by
  cases h with
  | tick loop exit =>
      have hloop : loopBlinks taskId _ = loopBlinks taskId _ := loopBlinks_run loop
      simp only [loopBlinks, TimerManager.loopStart, List.filter_nil, List.map_nil,
        List.countP_nil, add_zero] at hloop
      simp only [State.blinkTimers, List.countP_append]
      omega

theorem blinkTimers_addBlinkTimer (s : State) (t : ℕ) :
    (addBlinkTimer taskId s t).blinkTimers taskId = s.blinkTimers taskId + 1 := by
  rw [State.blinkTimers, State.blinkTimers, addBlinkTimer, card_addTimer, if_pos ⟨rfl, rfl⟩]
  exact Nat.add_right_comm _ _ _

theorem isStray_timerTimeout (timeout : ℕ) (value : ℤ) :
    isStray (.timerTimeout timeout value) = !isBlink (.timerTimeout timeout value) := by
  simp [isStray, isBlink]

/-- Taking a blink timeout out of the queue is what `stolen` counts. -/
theorem blinkTimers_take {msg : Message} {rest : List Message} (hmsgs : s.msgs = msg :: rest) :
    (s.take msg rest).blinkTimers taskId + (s.take msg rest).stolen =
      s.blinkTimers taskId + s.stolen := by
  rw [State.blinkTimers, State.blinkTimers, State.take, hmsgs, List.countP_cons]
  dsimp only
  omega

theorem Accounted.addTimer (h : Accounted taskId s) {timer : Timer}
    (hother : ¬ IsBlinkTimer taskId timer) :
    Accounted taskId { s with manager := s.manager.addTimer timer } := by
  rw [Accounted, State.blinkTimers] at h ⊢
  rw [card_addTimer, if_neg hother]
  exact h

theorem Accounted.take (h : Accounted taskId s) {msg : Message} {rest : List Message}
    (hmsgs : s.msgs = msg :: rest) : Accounted taskId (s.take msg rest) := by
  rw [Accounted, blinkTimers_take hmsgs]
  exact h

theorem accounted_iff (hmode : s.mode ≠ .starting) :
    Accounted taskId s ↔ s.blinkTimers taskId + s.stolen = 1 + s.stray := by
  rw [Accounted, if_neg hmode]

/-- The event loop answers a timeout with one new blink timer. -/
theorem Accounted.handle_timeout (h : Accounted taskId s) (hmode : s.mode = .eventLoop)
    {timeout : ℕ} {value : ℤ} {rest : List Message}
    (hmsgs : s.msgs = .timerTimeout timeout value :: rest) :
    Accounted taskId (handle taskId { s with msgs := rest } (.timerTimeout timeout value)) := by
  have hstarted : s.mode ≠ .starting := by simp [hmode]
  have hcount : s.blinkTimers taskId = ({ s with msgs := rest } : State).blinkTimers taskId +
      if isBlink (.timerTimeout timeout value) then 1 else 0 := by
    rw [State.blinkTimers, State.blinkTimers, hmsgs, List.countP_cons]
    exact (add_assoc _ _ _).symm
  have hold := (accounted_iff hstarted).mp h
  have hafter : (handle taskId { s with msgs := rest } (.timerTimeout timeout value)).mode ≠
      .starting := hstarted
  rw [accounted_iff hafter, handle, blinkTimers_addBlinkTimer, isStray_timerTimeout]
  change ({ s with msgs := rest } : State).blinkTimers taskId + 1 + s.stolen = 1 + (s.stray + _)
  rw [hcount] at hold
  cases hblink : isBlink (.timerTimeout timeout value) with
  | true =>
      simp only [hblink, if_true] at hold
      simp only [Bool.not_true, Bool.false_eq_true, if_false]
      omega
  | false =>
      simp only [hblink, Bool.false_eq_true, if_false] at hold
      simp only [Bool.not_false, if_true]
      omega

/-- Any other message leaves the timers alone. -/
theorem Accounted.handle_other (h : Accounted taskId s) (hmode : s.mode = .eventLoop)
    {msg : Message} {rest : List Message} (hmsgs : s.msgs = msg :: rest)
    (hmsg : ∀ timeout value, msg ≠ .timerTimeout timeout value) :
    Accounted taskId (handle taskId { s with msgs := rest } msg) := by
  have hblink : isBlink msg = false := by
    cases msg <;> first | rfl | exact absurd rfl (hmsg _ _)
  have hrest (mode : Mode) (hstarting : mode ≠ .starting) :
      Accounted taskId { s with msgs := rest, mode := mode } := by
    rw [Accounted, State.blinkTimers, hmode, hmsgs, List.countP_cons, hblink] at h
    rw [Accounted, State.blinkTimers, if_neg hstarting]
    exact h
  have hsame := hrest .eventLoop (by decide)
  rw [← hmode] at hsame
  cases msg with
  | timerTimeout timeout value => exact absurd rfl (hmsg timeout value)
  | keyPush modifier keycode ascii press =>
      rw [handle]
      split_ifs
      · exact hrest (.command none) (by decide)
      · exact hsame
  | windowClose => exact hrest .finished (by decide)
  | mouseMove => exact hsame
  | mouseButton => exact hsame
  | windowActive => exact hsame
  | other => exact hsame

theorem Accounted.createTimer (h : Accounted taskId s) (mode : BitVec 32) (timerValue : ℤ)
    (arg3 : ℕ) : Accounted taskId (createTimer taskId s mode timerValue arg3) := by
  rw [TaskTerminal.createTimer]
  split_ifs with hvalue
  · exact h
  · apply h.addTimer
    rintro ⟨-, hblink⟩
    simp only [blinkValue] at hblink
    omega

theorem Accounted.setMode (h : Accounted taskId s) (hmode : s.mode ≠ .starting) {mode : Mode}
    (hstarting : mode ≠ .starting) : Accounted taskId { s with mode := mode } := by
  rw [Accounted, if_neg hmode] at h
  rw [Accounted, if_neg hstarting]
  exact h

theorem Accounted.readEventTurn (h : Accounted taskId s) {call : ReadEvent}
    (hmode : s.mode = .command (some call)) : Accounted taskId (readEventTurn s call) := by
  have hstarted : s.mode ≠ .starting := by simp [hmode]
  have hreturned : Accounted taskId { s with mode := .command none } :=
    h.setMode hstarted (by simp)
  rw [TaskTerminal.readEventTurn]
  by_cases hlen : call.events.length < call.len
  · rw [if_pos hlen]
    cases hmsgs : s.msgs with
    | nil =>
        by_cases hevents : call.events = []
        · simp only [hevents, if_true]
          exact h
        · simp only [hmsgs] at hreturned
          simp only [hevents, if_false]
          exact hreturned
    | cons msg rest => exact (h.take hmsgs).setMode hstarted (by simp)
  · rw [if_neg hlen]
    exact hreturned

theorem Accounted.step (h : Accounted taskId s) (hstep : Step taskId s op s') :
    Accounted taskId s' := by
  cases hstep with
  | addTimer hother => exact h.addTimer fun hb ↦ hother hb.1
  | tick htick =>
      rw [Accounted, blinkTimers_tick htick]
      exact h
  | @send msg hmsg =>
      have hblink : isBlink msg = false := by
        cases msg <;> first | rfl | exact absurd rfl (hmsg _ _)
      rw [Accounted, State.blinkTimers] at h ⊢
      rw [List.countP_append, List.countP_singleton, hblink]
      exact h
  | startLoop hmode =>
      rw [Accounted, hmode, if_pos rfl] at h
      change (addBlinkTimer taskId s s.manager.tick).blinkTimers taskId + s.stolen = 1 + s.stray
      rw [blinkTimers_addBlinkTimer]
      omega
  | @receive msg rest hmode hmsgs =>
      cases msg with
      | timerTimeout timeout value => exact h.handle_timeout hmode hmsgs
      | keyPush => exact h.handle_other hmode hmsgs (by simp)
      | mouseMove => exact h.handle_other hmode hmsgs (by simp)
      | mouseButton => exact h.handle_other hmode hmsgs (by simp)
      | windowActive => exact h.handle_other hmode hmsgs (by simp)
      | windowClose => exact h.handle_other hmode hmsgs (by simp)
      | other => exact h.handle_other hmode hmsgs (by simp)
  | createTimer hmode mode timerValue arg3 => exact h.createTimer mode timerValue arg3
  | readEvent hmode arg1 len =>
      split_ifs
      · exact h
      · exact h.setMode (by simp [hmode]) (by simp)
  | readEventTurn hmode => exact h.readEventTurn hmode
  | read hmsgs => exact h.take hmsgs
  | exit hmode => exact h.setMode (by simp [hmode]) (by simp)

theorem accounted_start (taskId : ℕ) : Accounted taskId start := by
  have hfilter : start.manager.timers.filter (IsBlinkTimer taskId) = 0 := by
    apply Multiset.filter_eq_nil.mpr
    rintro t ht ⟨-, hvalue⟩
    have hvalues : ∀ t ∈ start.manager.timers, t.value ≠ blinkValue := by decide
    exact hvalues t ht hvalue
  rw [Accounted, State.blinkTimers, hfilter]
  rfl

/-- In every run the terminal has one blink timer, and one more for each stray and
one less for each stolen timeout. -/
theorem accounted_of_run {ops : List Op} (hrun : Run (Step taskId) start ops s)
    (hmode : s.mode = .eventLoop) : s.blinkTimers taskId + s.stolen = 1 + s.stray := by
  have h := hrun.invariant (fun _ _ _ h hstep ↦ Accounted.step h hstep) (accounted_start taskId)
  rwa [accounted_iff (by simp [hmode])] at h

theorem astray_of_attributed (hattributed : Attributed s op) (hstep : Step taskId s op s') :
    s'.stray = s.stray ∧ s'.stolen = s.stolen := by
  have htake {msg : Message} (rest : List Message) (hblink : isBlink msg = false) :
      (s.take msg rest).stray = s.stray ∧ (s.take msg rest).stolen = s.stolen := by
    rw [State.take, hblink]
    exact ⟨rfl, rfl⟩
  cases hstep with
  | addTimer => exact ⟨rfl, rfl⟩
  | tick => exact ⟨rfl, rfl⟩
  | send => exact ⟨rfl, rfl⟩
  | startLoop => exact ⟨rfl, rfl⟩
  | @receive msg rest hmode hmsgs =>
      have hstray : isStray msg = false := hattributed msg (by rw [hmsgs]; rfl)
      cases msg with
      | timerTimeout timeout value =>
          rw [handle, hstray]
          exact ⟨rfl, rfl⟩
      | keyPush =>
          rw [handle]
          split_ifs <;> exact ⟨rfl, rfl⟩
      | mouseMove => exact ⟨rfl, rfl⟩
      | mouseButton => exact ⟨rfl, rfl⟩
      | windowActive => exact ⟨rfl, rfl⟩
      | windowClose => exact ⟨rfl, rfl⟩
      | other => exact ⟨rfl, rfl⟩
  | createTimer =>
      rw [createTimer]
      split_ifs <;> exact ⟨rfl, rfl⟩
  | readEvent => split_ifs <;> exact ⟨rfl, rfl⟩
  | @readEventTurn call hmode =>
      rw [readEventTurn]
      by_cases hlen : call.events.length < call.len
      · rw [if_pos hlen]
        cases hmsgs : s.msgs with
        | nil =>
            dsimp only
            split_ifs <;> exact ⟨rfl, rfl⟩
        | cons msg rest => exact htake rest (hattributed msg (by rw [hmsgs]; rfl))
      · rw [if_neg hlen]
        exact ⟨rfl, rfl⟩
  | read hmsgs => exact htake _ (hattributed _ (by rw [hmsgs]; rfl))
  | exit => exact ⟨rfl, rfl⟩

instance (t u : Timer) : Decidable (t.lt u) := inferInstanceAs (Decidable (_ > _))

/-- The timers that are left once the terminal's own is the first. -/
def laterTimers : Multiset Timer :=
  {⟨500, 1, 5⟩, TimerManager.taskTimer 0, TimerManager.sentinel}

/-- The first tick after an app has asked for a timer that is already due. -/
theorem tick_due : TimerManager.Step ⟨0, ⟨0, -1, 5⟩ ::ₘ laterTimers⟩ (.tick [⟨5, 0, -1⟩] false)
    ⟨1, laterTimers⟩ := by
  have htop : TimerManager.IsTop (⟨0, -1, 5⟩ ::ₘ laterTimers) ⟨0, -1, 5⟩ := ⟨by decide, by decide⟩
  have hlate : TimerManager.IsTop laterTimers (TimerManager.taskTimer 0) := ⟨by decide, by decide⟩
  have hsend : TimerManager.LoopStep 1 ⟨⟨0, -1, 5⟩ ::ₘ laterTimers, false, []⟩ _ :=
    .send htop (by decide) (by decide)
  rw [Multiset.erase_cons_head] at hsend
  have hstep : TimerManager.Step ⟨0, ⟨0, -1, 5⟩ ::ₘ laterTimers⟩ _ _ :=
    .tick (.single hsend) ⟨_, hlate, by decide⟩
  exact hstep

/-- The newline key that runs a command line. -/
def enter : Message := .keyPush 0 40 10 true

/-- The app has asked for a timer. -/
def created : State := ⟨⟨0, ⟨0, -1, 5⟩ ::ₘ laterTimers⟩, [], .command none, 0, 0⟩

theorem run_snoc {t : State} {ops : List Op} (hrun : Run (Guarded Attributed (Step taskId)) t ops s)
    (hstep : Step taskId s op s') (hattributed : Attributed s op) :
    Run (Guarded Attributed (Step taskId)) t (ops ++ [op]) s' :=
  hrun.snoc ⟨hattributed, hstep⟩

theorem run_created : Run (Guarded Attributed (Step 5)) start
    [.startLoop, .send enter, .receive, .createTimer 0 1 0] created := by
  have hloop : Run (Guarded Attributed (Step 5)) start [.startLoop] _ :=
    .single ⟨trivial, .startLoop rfl⟩
  have hkey := run_snoc hloop (.send _ (show ∀ timeout value, enter ≠ .timerTimeout timeout value
    by simp [enter])) trivial
  have hcommand := run_snoc hkey (.receive rfl rfl) (by decide)
  exact run_snoc hcommand (.createTimer rfl 0 1 0) trivial

end TaskTerminal
end MinOS
