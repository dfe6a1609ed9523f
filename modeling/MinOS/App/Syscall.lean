import MinOS.App.Regions
import MinOS.App.Stores
import MinOS.Task.Pipe

/-!
# System calls

`SyscallEntry` masks the number in `eax` and calls through `syscall_table` with a
32-bit address.  Of the sixteen handlers, `ReadEvent`, `ReadFile` and `MapFile`
store through a pointer argument; only the first of them looks at it.  A handler
is modelled by the stores it makes through its arguments.
-/

namespace MinOS
namespace App

/-- The registers of a system call: its number and its six arguments. -/
structure Registers where
  rax : BitVec 64
  arg1 : BitVec 64 := 0
  arg2 : BitVec 64 := 0
  arg3 : BitVec 64 := 0
  arg4 : BitVec 64 := 0
  arg5 : BitVec 64 := 0
  arg6 : BitVec 64 := 0

/-- The fields of a message that decide what is stored. -/
inductive Message where
  | keyPush (modifier keycode : ℕ) (press : Bool)
  | mouseMove
  | mouseButton
  | timerTimeout (value : ℤ)
  | windowClose
  | pipe (data : List UInt8) (len : ℕ)
  | other

/-- An open file: a file of the volume with its size and read position, the
terminal, or a pipe. -/
inductive File where
  | fat (fileSize rdOff : ℕ)
  | terminal
  | pipe (desc : Pipe.PipeDescriptor)

/-- The open files of the calling task, and what its calls of `ReceiveMessage`
return, in order. -/
structure TaskState where
  files : List (Option File)
  receives : List (Option Message)

/-- `kLControlBitMask | kRControlBitMask`. -/
def controlBitMask : ℕ := 0b00010001

/-! ## `ReadEvent` -/

/-- `sizeof(AppEvent)`. -/
def appEventBytes : ℕ := 32

def quitStores : List (ℕ × ℕ) := [(0, 4)]

/-- The fields of an `AppEvent` that a message fills, as offsets and sizes. -/
def eventFields : Message → Option (List (ℕ × ℕ))
  | .keyPush modifier keycode _ =>
      if keycode = 20 ∧ modifier &&& controlBitMask ≠ 0 then some quitStores
      else some [(0, 4), (8, 1), (9, 1), (10, 1), (12, 4)]
  | .mouseMove => some [(0, 4), (8, 4), (12, 4), (16, 4), (20, 4), (24, 1)]
  | .mouseButton => some [(0, 4), (8, 4), (12, 4), (16, 4), (20, 4)]
  | .timerTimeout value => if value < 0 then some [(0, 4), (8, 8), (16, 4)] else none
  | .windowClose => some quitStores
  | .pipe _ _ => none
  | .other => none

/-- The stores to `app_events[i]`. -/
def eventStores (appEvents i : ℕ) (fields : List (ℕ × ℕ)) : List (ℕ × ℕ) :=
  fields.map fun f ↦ ((appEvents + appEventBytes * i + f.1) % 2 ^ 64, f.2)

/-- The loop of `ReadEvent` from event `i` on.  With no event yet, an empty
queue puts the task to sleep and the loop goes on. -/
def readEventLoop (appEvents len : ℕ) : ℕ → List (Option Message) → List (ℕ × ℕ)
  | _, [] => []
  | i, none :: receives => if i = 0 ∧ 0 < len then readEventLoop appEvents len i receives else []
  | i, some msg :: receives =>
      if i < len then
        match eventFields msg with
        | some fields =>
            eventStores appEvents i fields ++ readEventLoop appEvents len (i + 1) receives
        | none => readEventLoop appEvents len i receives
      else []

def readEvent (s : TaskState) (r : Registers) : List (ℕ × ℕ) :=
  if r.arg1.toNat < 0x8000000000000000 then []
  else readEventLoop r.arg1.toNat r.arg2.toNat 0 s.receives

/-! ## `ReadFile` and `MapFile` -/

/-- `TerminalFileDescriptor::Read`, which does not look at the length. -/
def terminalRead (buf : ℕ) : List (Option Message) → List (ℕ × ℕ)
  | [] => []
  | some (.keyPush modifier keycode press) :: receives =>
      if ¬ press then terminalRead buf receives
      else if modifier &&& controlBitMask ≠ 0 then
        if keycode = 7 then [] else terminalRead buf receives
      else [(buf, 1)]
  | _ :: receives => terminalRead buf receives

/-- The loop of `PipeDescriptor::Read`. -/
def pipeReadLoop (desc : Pipe.PipeDescriptor) (buf len : ℕ) :
    List (Option Message) → List (ℕ × ℕ)
  | [] => []
  | some (.pipe data msgLen) :: receives =>
      match desc.readMessage len (.pipe data msgLen : Pipe.Message Unit) with
      | some (bytes, _) => [(buf, bytes.length)]
      | none => pipeReadLoop desc buf len receives
  | _ :: receives => pipeReadLoop desc buf len receives

/-- The stores of `Read(buf, len)`. -/
def File.read (f : File) (receives : List (Option Message)) (buf len : ℕ) : List (ℕ × ℕ) :=
  match f with
  | .fat fileSize rdOff => [(buf, min len (uint64Sub fileSize rdOff))]
  | .terminal => terminalRead buf receives
  | .pipe desc =>
      match desc.readBuffered len with
      | some (bytes, _) => [(buf, bytes.length)]
      | none => pipeReadLoop desc buf len receives

/-- The open file that an `int fd` argument names. -/
def TaskState.file (s : TaskState) (arg : BitVec 64) : Option File :=
  match toInt arg.toNat with
  | none => none
  | some fd => s.files[fd]?.join

def readFile (s : TaskState) (r : Registers) : List (ℕ × ℕ) :=
  match s.file r.arg1 with
  | none => []
  | some f => f.read s.receives r.arg2.toNat r.arg3.toNat

/-- The store to `*file_size`. -/
def mapFileStores (s : TaskState) (r : Registers) : List (ℕ × ℕ) :=
  match s.file r.arg1 with
  | none => []
  | some _ => [(r.arg2.toNat, 8)]

/-! ## The dispatcher -/

inductive Handler where
  | LogString | PutString | Exit | OpenWindow | WinWriteString | WinFillRectangle
  | GetCurrentTick | WinRedraw | WinDrawLine | CloseWindow | ReadEvent | CreateTimer
  | OpenFile | ReadFile | DemandPages | MapFile
deriving DecidableEq

def syscallTable : List Handler :=
  [.LogString, .PutString, .Exit, .OpenWindow, .WinWriteString, .WinFillRectangle,
    .GetCurrentTick, .WinRedraw, .WinDrawLine, .CloseWindow, .ReadEvent, .CreateTimer, .OpenFile,
    .ReadFile, .DemandPages, .MapFile]

/-- The stores a handler makes through its pointer arguments. -/
def Handler.stores (s : TaskState) (r : Registers) : Handler → List (ℕ × ℕ)
  | .ReadEvent => readEvent s r
  | .ReadFile => readFile s r
  | .MapFile => mapFileStores s r
  | _ => []

/-- What `SyscallEntry` calls: a handler, with its stores, or what it finds at an
address outside the table. -/
inductive Call where
  | handler (h : Handler) (stores : List (ℕ × ℕ))
  | outside (addr : ℕ)

/-- `call [syscall_table + 8 * eax]` with the masked number in `eax`: the address
has 32 bits. -/
def syscallEntry (table : ℕ) (s : TaskState) (r : Registers) : Call :=
  let eax := r.rax.toNat % 2 ^ 31
  let addr := (table + 8 * eax) % 2 ^ 32
  if table ≤ addr ∧ addr < table + 8 * syscallTable.length then
    match syscallTable[(addr - table) / 8]? with
    | some h => .handler h (h.stores s r)
    | none => .outside addr
  else .outside addr

/-- A handler of the table is called, and it stores in the user half only. -/
def Call.Confined : Call → Prop
  | .handler _ stores => ∀ store ∈ stores, InUserHalf store
  | .outside _ => False

/-- The number is that of a table entry, up to multiples of `2 ^ 29`, and the
memory the arguments name for the answer, at its largest, is in the user half. -/
structure Safe (r : Registers) : Prop where
  number : r.rax.toNat % 2 ^ 29 < 16
  readEvent : r.rax.toNat % 2 ^ 29 = 10 → r.arg1.toNat < 0x8000000000000000 ∨ r.arg2.toNat = 0 ∨
    userBase ≤ r.arg1.toNat ∧ r.arg1.toNat + appEventBytes * (r.arg2.toNat - 1) + 25 ≤ 2 ^ 64
  readFile : r.rax.toNat % 2 ^ 29 = 13 → toInt r.arg1.toNat = none ∨
    userBase ≤ r.arg2.toNat ∧ r.arg2.toNat + max r.arg3.toNat 1 ≤ 2 ^ 64
  mapFile : r.rax.toNat % 2 ^ 29 = 15 → toInt r.arg1.toNat = none ∨
    userBase ≤ r.arg2.toNat ∧ r.arg2.toNat + 8 ≤ 2 ^ 64

/-- The 32-bit address of the call is in the table for the numbers below 16, up
to multiples of `2 ^ 29`. -/
theorem syscallEntry_of_lt {table : ℕ} (htable : table + 8 * 16 ≤ 2 ^ 32) (s : TaskState)
    {r : Registers} (h : r.rax.toNat % 2 ^ 29 < 16) :
    ∃ handler, syscallTable[r.rax.toNat % 2 ^ 29]? = some handler ∧
      syscallEntry table s r = .handler handler (handler.stores s r) := by
  have hlen : syscallTable.length = 16 := rfl
  have hslot : ((table + 8 * (r.rax.toNat % 2 ^ 31)) % 2 ^ 32 - table) / 8 =
      r.rax.toNat % 2 ^ 29 := by omega
  have hin : table ≤ (table + 8 * (r.rax.toNat % 2 ^ 31)) % 2 ^ 32 ∧
      (table + 8 * (r.rax.toNat % 2 ^ 31)) % 2 ^ 32 < table + 8 * syscallTable.length := by
    rw [hlen]
    omega
  obtain ⟨handler, hget⟩ : ∃ handler, syscallTable[r.rax.toNat % 2 ^ 29]? = some handler :=
    ⟨_, List.getElem?_eq_getElem (by rw [hlen]; exact h)⟩
  refine ⟨handler, hget, ?_⟩
  simp only [syscallEntry]
  rw [if_pos hin, hslot, hget]

theorem syscallEntry_of_ge (table : ℕ) (s : TaskState)
    {r : Registers} (h : 16 ≤ r.rax.toNat % 2 ^ 29) :
    ∃ addr, syscallEntry table s r = .outside addr := by
  have hlen : syscallTable.length = 16 := rfl
  refine ⟨(table + 8 * (r.rax.toNat % 2 ^ 31)) % 2 ^ 32, ?_⟩
  simp only [syscallEntry]
  rw [if_neg]
  rw [hlen]
  omega

/-! ## Safe arguments -/

theorem eventFields_le {msg : Message} {fields : List (ℕ × ℕ)}
    (h : eventFields msg = some fields) : ∀ f ∈ fields, f.1 + f.2 ≤ 25 := by
  cases msg <;> simp only [eventFields, quitStores] at h
  case keyPush modifier keycode press =>
    split_ifs at h
    · obtain rfl := Option.some.inj h
      decide
    · obtain rfl := Option.some.inj h
      decide
  case timerTimeout value =>
    split_ifs at h
    obtain rfl := Option.some.inj h
    decide
  all_goals
    first
    | (obtain rfl := Option.some.inj h; decide)
    | cases h

theorem readEventLoop_inUserHalf {appEvents len : ℕ} (hlow : userBase ≤ appEvents)
    (hhigh : appEvents + appEventBytes * (len - 1) + 25 ≤ 2 ^ 64) (i : ℕ)
    (receives : List (Option Message)) :
    ∀ store ∈ readEventLoop appEvents len i receives, InUserHalf store := by
  induction receives generalizing i with
  | nil => simp [readEventLoop]
  | cons receive receives ih =>
      cases receive with
      | none =>
          rw [readEventLoop]
          split_ifs
          · exact ih i
          · simp
      | some msg =>
          rw [readEventLoop]
          split_ifs with hi
          · cases hfields : eventFields msg with
            | none => exact ih i
            | some fields =>
                intro store hstore
                rcases List.mem_append.mp hstore with hstore | hstore
                · obtain ⟨f, hf, rfl⟩ := List.mem_map.mp hstore
                  have hend := eventFields_le hfields f hf
                  have hle : appEventBytes * i ≤ appEventBytes * (len - 1) :=
                    Nat.mul_le_mul_left _ (Nat.le_sub_one_of_lt hi)
                  intro k hk
                  dsimp only at hk
                  rw [Nat.mod_add_mod, Nat.mod_eq_of_lt (by omega)]
                  omega
                · exact ih (i + 1) store hstore
          · simp

theorem terminalRead_inUserHalf {buf : ℕ} (h : InUserHalf (buf, 1))
    (receives : List (Option Message)) :
    ∀ store ∈ terminalRead buf receives, InUserHalf store := by
  induction receives with
  | nil => simp [terminalRead]
  | cons receive receives ih =>
      cases receive with
      | none => exact ih
      | some msg =>
          cases msg
          case keyPush modifier keycode press =>
            rw [terminalRead]
            split_ifs
            · simp
            · exact ih
            · simpa using h
            · exact ih
          all_goals exact ih

theorem pipeReadLoop_inUserHalf {buf len : ℕ} (h : InUserHalf (buf, len))
    (desc : Pipe.PipeDescriptor) (receives : List (Option Message)) :
    ∀ store ∈ pipeReadLoop desc buf len receives, InUserHalf store := by
  induction receives with
  | nil => simp [pipeReadLoop]
  | cons receive receives ih =>
      cases receive with
      | none => exact ih
      | some msg =>
          cases msg
          case pipe data msgLen =>
            simp only [pipeReadLoop, Pipe.PipeDescriptor.readMessage]
            split_ifs
            · simpa using inUserHalf_empty buf
            · have hlen : (data.take (min msgLen len)).length ≤ len :=
                (List.length_take_le _ _).trans (min_le_right _ _)
              simpa using h.take hlen
          all_goals exact ih

/-- Reading at most `len` bytes, or one byte from the terminal. -/
theorem File.read_inUserHalf {buf len : ℕ} (h : InUserHalf (buf, max len 1)) (f : File)
    (receives : List (Option Message)) :
    ∀ store ∈ f.read receives buf len, InUserHalf store := by
  have hpart : ∀ n ≤ max len 1, InUserHalf (buf, n) := fun n hn ↦ h.take hn
  cases f with
  | fat fileSize rdOff =>
      intro store hstore
      obtain rfl := List.mem_singleton.mp hstore
      exact hpart _ ((min_le_left _ _).trans (le_max_left _ _))
  | terminal => exact terminalRead_inUserHalf (hpart 1 (le_max_right _ _)) receives
  | pipe desc =>
      simp only [File.read, Pipe.PipeDescriptor.readBuffered]
      split_ifs
      · intro store hstore
        obtain rfl := List.mem_singleton.mp hstore
        apply hpart
        simp only [List.length_take]
        omega
      · simpa using inUserHalf_empty buf
      · exact pipeReadLoop_inUserHalf (hpart len (le_max_left _ _)) desc receives

theorem readEventLoop_zero (appEvents : ℕ) (receives : List (Option Message)) :
    readEventLoop appEvents 0 0 receives = [] := by
  cases receives with
  | nil => rfl
  | cons receive receives => cases receive <;> simp [readEventLoop]

theorem mem_readEventLoop_mouseMove {appEvents len i j n : ℕ} (hij : i ≤ j) (hjn : j < i + n)
    (hlen : j < len) {f : ℕ × ℕ}
    (hf : f ∈ [((0 : ℕ), (4 : ℕ)), (8, 4), (12, 4), (16, 4), (20, 4), (24, 1)]) :
    ((appEvents + appEventBytes * j + f.1) % 2 ^ 64, f.2) ∈
      readEventLoop appEvents len i (List.replicate n (some .mouseMove)) := by
  induction n generalizing i with
  | zero => omega
  | succ n ih =>
      rw [List.replicate_succ, readEventLoop, if_pos (lt_of_le_of_lt hij hlen)]
      simp only [eventFields, List.mem_append]
      rcases Nat.eq_or_lt_of_le hij with rfl | hlt
      · exact .inl (List.mem_map_of_mem hf)
      · exact .inr (ih hlt (by omega))

/-! ## The handlers that store -/

theorem readEvent_confined_iff (r : Registers) :
    (∀ s, ∀ store ∈ readEvent s r, InUserHalf store) ↔
      r.arg1.toNat < 0x8000000000000000 ∨ r.arg2.toNat = 0 ∨
        userBase ≤ r.arg1.toNat ∧
          r.arg1.toNat + appEventBytes * (r.arg2.toNat - 1) + 25 ≤ 2 ^ 64 := by
  have hlt := r.arg1.isLt
  constructor
  · intro h
    by_contra hbad
    push Not at hbad
    obtain ⟨hchecked, hlen, hbase⟩ := hbad
    -- the event whose last byte is the first to wrap around
    have hmove : ∀ j < r.arg2.toNat, ∀ f ∈ [((0 : ℕ), (4 : ℕ)), (8, 4), (12, 4), (16, 4), (20, 4),
        (24, 1)], InUserHalf ((r.arg1.toNat + appEventBytes * j + f.1) % 2 ^ 64, f.2) := by
      intro j hj f hf
      apply h ⟨[], List.replicate (j + 1) (some .mouseMove)⟩
      rw [readEvent, if_neg (not_lt_of_ge hchecked)]
      exact mem_readEventLoop_mouseMove (Nat.zero_le j) (by omega) hj hf
    have hfirst := hmove 0 (Nat.pos_of_ne_zero hlen) (0, 4) (by decide) 0 (Nat.succ_pos 3)
    simp only [Nat.mul_zero, Nat.add_zero, Nat.mod_eq_of_lt hlt] at hfirst
    have hover := hbase hfirst
    simp only [appEventBytes] at hover hmove
    have hwrap := hmove ((2 ^ 64 - r.arg1.toNat + 7) / 32) (by omega) (24, 1) (by decide) 0
      Nat.one_pos
    simp only [userBase] at hwrap
    omega
  · rintro hsafe s
    rw [readEvent]
    split_ifs with hlow
    · simp
    · rcases hsafe with hrejected | hnone | ⟨hbase, hend⟩
      · exact absurd hrejected hlow
      · rw [hnone, readEventLoop_zero]
        simp
      · exact readEventLoop_inUserHalf hbase hend 0 s.receives

theorem file_none {s : TaskState} {arg : BitVec 64} (h : toInt arg.toNat = none) :
    s.file arg = none := by
  simp [TaskState.file, h]

theorem exists_file {arg : BitVec 64} (h : toInt arg.toNat ≠ none) (f : File)
    (receives : List (Option Message)) :
    ∃ s : TaskState, s.receives = receives ∧ s.file arg = some f := by
  obtain ⟨fd, hfd⟩ := Option.ne_none_iff_exists'.mp h
  refine ⟨⟨List.replicate fd none ++ [some f], receives⟩, rfl, ?_⟩
  simp [TaskState.file, hfd]

theorem readFile_confined_iff (r : Registers) :
    (∀ s, ∀ store ∈ readFile s r, InUserHalf store) ↔
      toInt r.arg1.toNat = none ∨
        userBase ≤ r.arg2.toNat ∧ r.arg2.toNat + max r.arg3.toNat 1 ≤ 2 ^ 64 := by
  have hbuf := r.arg2.isLt
  have hcount := r.arg3.isLt
  constructor
  · intro h
    by_contra hbad
    obtain ⟨hfd, hrange⟩ := not_or.mp hbad
    apply hrange
    rcases Nat.eq_zero_or_pos r.arg3.toNat with hzero | hpos
    · -- a key from the terminal is stored whatever the length
      obtain ⟨s, hreceives, hfile⟩ := exists_file hfd .terminal [some (.keyPush 0 4 true)]
      have hstore := h s (r.arg2.toNat, 1) (by
        rw [readFile, hfile]
        simp [File.read, hreceives, terminalRead])
      have hin := (inUserHalf_iff hbuf).mp hstore
      rw [hzero]
      exact hin.resolve_left (by decide)
    · -- a file that was shortened below the read position
      obtain ⟨s, -, hfile⟩ := exists_file hfd (.fat 0 1) []
      have hmin : min r.arg3.toNat (uint64Sub 0 1) = r.arg3.toNat := by
        have hleft : uint64Sub 0 1 = 2 ^ 64 - 1 := by decide
        rw [hleft]
        omega
      have hstore := h s (r.arg2.toNat, r.arg3.toNat) (by
        rw [readFile, hfile]
        simp [File.read, hmin])
      have hin := (inUserHalf_iff hbuf).mp hstore
      rw [max_eq_left hpos]
      exact hin.resolve_left (Nat.pos_iff_ne_zero.mp hpos)
  · rintro (hnone | hrange) s
    · rw [readFile, file_none hnone]
      simp
    · rw [readFile]
      cases s.file r.arg1 with
      | none => simp
      | some f =>
          exact File.read_inUserHalf ((inUserHalf_iff hbuf).mpr (.inr hrange)) f s.receives

theorem mapFile_confined_iff (r : Registers) :
    (∀ s, ∀ store ∈ mapFileStores s r, InUserHalf store) ↔
      toInt r.arg1.toNat = none ∨ userBase ≤ r.arg2.toNat ∧ r.arg2.toNat + 8 ≤ 2 ^ 64 := by
  have hptr := r.arg2.isLt
  constructor
  · intro h
    by_contra hbad
    obtain ⟨hfd, hrange⟩ := not_or.mp hbad
    obtain ⟨s, -, hfile⟩ := exists_file hfd .terminal []
    have hstore := h s (r.arg2.toNat, 8) (by simp [mapFileStores, hfile])
    exact hrange (((inUserHalf_iff hptr).mp hstore).resolve_left (by decide))
  · rintro (hnone | hrange) s
    · rw [mapFileStores, file_none hnone]
      simp
    · rw [mapFileStores]
      cases s.file r.arg1 with
      | none => simp
      | some f =>
          intro store hstore
          obtain rfl := List.mem_singleton.mp hstore
          exact (inUserHalf_iff hptr).mpr (.inr hrange)

theorem stores_eq_nil {n : ℕ} {handler : Handler} (hget : syscallTable[n]? = some handler)
    (h10 : n ≠ 10) (h13 : n ≠ 13) (h15 : n ≠ 15) (s : TaskState) (r : Registers) :
    handler.stores s r = [] := by
  have hn : n < 16 := (List.getElem?_eq_some_iff.mp hget).1
  interval_cases n
  all_goals
    first
    | (obtain rfl := Option.some.inj hget; rfl)
    | contradiction

/-- A system call stays in the table and its handler in the user half, in every
state of the calling task, exactly for the safe register values. -/
theorem syscall_confined_iff {table : ℕ} (htable : table + 8 * 16 ≤ 2 ^ 32) (r : Registers) :
    (∀ s, (syscallEntry table s r).Confined) ↔ Safe r := by
  rcases Nat.lt_or_ge (r.rax.toNat % 2 ^ 29) 16 with hlt | hge
  · have hcall : ∀ handler, syscallTable[r.rax.toNat % 2 ^ 29]? = some handler →
        ((∀ s, (syscallEntry table s r).Confined) ↔
          ∀ s, ∀ store ∈ handler.stores s r, InUserHalf store) := by
      intro handler hget
      apply forall_congr'
      intro s
      obtain ⟨handler', hget', hcall⟩ := syscallEntry_of_lt htable s hlt
      obtain rfl : handler = handler' := Option.some.inj (hget.symm.trans hget')
      rw [hcall]
      exact Iff.rfl
    by_cases h10 : r.rax.toNat % 2 ^ 29 = 10
    · rw [hcall .ReadEvent (by rw [h10]; rfl)]
      refine (readEvent_confined_iff r).trans ⟨fun h ↦ ⟨hlt, fun _ ↦ h, ?_, ?_⟩,
        fun h ↦ h.readEvent h10⟩ <;> omega
    · by_cases h13 : r.rax.toNat % 2 ^ 29 = 13
      · rw [hcall .ReadFile (by rw [h13]; rfl)]
        refine (readFile_confined_iff r).trans ⟨fun h ↦ ⟨hlt, ?_, fun _ ↦ h, ?_⟩,
          fun h ↦ h.readFile h13⟩ <;> omega
      · by_cases h15 : r.rax.toNat % 2 ^ 29 = 15
        · rw [hcall .MapFile (by rw [h15]; rfl)]
          refine (mapFile_confined_iff r).trans ⟨fun h ↦ ⟨hlt, ?_, ?_, fun _ ↦ h⟩,
            fun h ↦ h.mapFile h15⟩ <;> omega
        · obtain ⟨handler, hget⟩ : ∃ handler, syscallTable[r.rax.toNat % 2 ^ 29]? = some handler :=
            ⟨_, List.getElem?_eq_getElem hlt⟩
          rw [hcall handler hget]
          constructor
          · intro _
            exact ⟨hlt, fun h ↦ absurd h h10, fun h ↦ absurd h h13, fun h ↦ absurd h h15⟩
          · intro _ s store hstore
            rw [stores_eq_nil hget h10 h13 h15] at hstore
            cases hstore
  · constructor
    · intro h
      obtain ⟨addr, hcall⟩ := syscallEntry_of_ge table ⟨[], []⟩ hge
      have hconfined := h ⟨[], []⟩
      rw [hcall] at hconfined
      exact hconfined.elim
    · intro h
      exact absurd h.number (not_lt_of_ge hge)

/-- `ReadFile(0, 0xffff800000002000, 4096)` with the terminal as descriptor 0. -/
theorem syscall_confined_readFile :
    (syscallEntry 0x120000 ⟨[some .terminal], [some (.keyPush 0 4 true)]⟩
      { rax := 0x8000000d, arg1 := 0, arg2 := 0xffff800000002000, arg3 := 4096 }).Confined :=
  (syscall_confined_iff (by decide) _).mpr
    ⟨by decide, by decide, fun _ ↦ .inr (by decide), by decide⟩
    ⟨[some .terminal], [some (.keyPush 0 4 true)]⟩

/-- `ReadFile(0, 0x120000, 1)` with the terminal as descriptor 0: a key press is
stored over the system call table. -/
theorem not_confined_readFile :
    ¬ (syscallEntry 0x120000 ⟨[some .terminal], [some (.keyPush 0 4 true)]⟩
      { rax := 0x8000000d, arg1 := 0, arg2 := 0x120000, arg3 := 1 }).Confined := by
  intro h
  exact absurd (h (0x120000, 1) (by decide) 0 (by decide)) (by decide)

end App
end MinOS
