import MinOS.Task.EventLoop

/-!
# Pipes

`PipeDescriptor` of `terminal.cpp`: the writer cuts its bytes into messages of
at most 16 bytes for the reader task, the reader cuts them again by the lengths
it asks for and keeps what is left of a message, and a message of length 0 marks
the end.  The messages share the reader's queue with those of other types.

The system interleaves any number of pipes, each between the terminal that set
it up and the subtask it created, with the scheduler and all other messages.
-/

namespace MinOS
namespace Pipe

open TaskManager

variable {Ctx Other : Type}

/-- `Message`: the pipe argument, or a message of another type. -/
inductive Message (Other : Type) where
  | pipe (data : List UInt8) (len : ℕ)
  | other (msg : Other)

/-- `sizeof(msg.arg.pipe.data)`. -/
def dataBytes : ℕ := 16

/-- `memcpy` and `memmove` to the start of a buffer. -/
def memcpy (dst src : List UInt8) : List UInt8 :=
  src ++ dst.drop src.length

/-- `PipeDescriptor` without its task reference, which is the key it is stored
under.  The constructor leaves `data_` as it finds it. -/
structure PipeDescriptor where
  data : List UInt8
  len : ℕ := 0
  closed : Bool := false

/-- `Read` before its loop; `none` goes on to the loop. -/
def PipeDescriptor.readBuffered (p : PipeDescriptor) (len : ℕ) :
    Option (List UInt8 × PipeDescriptor) :=
  if p.len > 0 then
    let copyBytes := min p.len len
    some (p.data.take copyBytes,
      { p with len := p.len - copyBytes
               data := memcpy p.data ((p.data.drop copyBytes).take (p.len - copyBytes)) })
  else if p.closed then some ([], p)
  else none

/-- The loop of `Read` on a message it received; `none` continues the loop. -/
def PipeDescriptor.readMessage (p : PipeDescriptor) (len : ℕ) :
    Message Other → Option (List UInt8 × PipeDescriptor)
  | .other _ => none
  | .pipe data msgLen =>
      if msgLen = 0 then some ([], { p with closed := true })
      else
        let copyBytes := min msgLen len
        some (data.take copyBytes,
          { p with len := msgLen - copyBytes
                   data := memcpy p.data ((data.drop copyBytes).take (msgLen - copyBytes)) })

/-- One pipe: its descriptor, the writer's progress in `Write` (the `data` of
its local message and the bytes still to send), the length of a `Read` that is
in its loop, and the history of both ends. -/
structure Channel where
  desc : PipeDescriptor
  writer : ℕ
  buffer : List UInt8 := []
  pending : List UInt8 := []
  reading : Option ℕ := none
  written : List UInt8 := []
  finished : Bool := false
  reads : List (List UInt8) := []

/-- The manager, the pipes by their reader task, and for each message sent
through a pipe its reader and whether `tasks_` still owned it. -/
structure State (Ctx Other : Type) where
  manager : TaskManager Ctx (Message Other)
  pipes : ℕ → Option Channel
  sends : List (ℕ × Bool)

def init (idleCtx : Ctx) : State Ctx Other where
  manager := TaskManager.init idleCtx
  pipes := fun _ ↦ none
  sends := []

/-- `task_.SendMessage(msg)` through the reference in a descriptor.  Behind a
reference to a task that `tasks_` no longer owns, `Wakeup` finds whatever the
freed memory holds. -/
def sendReference (m : TaskManager Ctx (Message Other)) (task : ℕ) (msg : Message Other)
    (freed : Task Ctx (Message Other)) : TaskManager Ctx (Message Other) :=
  match m.tasks task with
  | some _ => (m.sendMessage task msg).2
  | none =>
      if freed.running then m
      else
        let m₁ := m.setQueue freed.level (m.running freed.level ++ [task])
        if freed.level > m.currentLevel then { m₁ with levelChanged := true } else m₁

inductive Op (Ctx Other : Type) where
  | newTask
  | wakeup (task : ℕ)
  | sendMessage (id : ℕ) (msg : Other)
  | switchTask (ctx : Ctx)
  | receive (ctx : Ctx)
  | waitFinish (id : ℕ) (ctx : Ctx)
  | finish (exitCode : ℤ)
  | openPipe (data : List UInt8)
  | write (reader : ℕ) (buf : List UInt8)
  | sendChunk (reader : ℕ)
  | finishWrite (reader : ℕ)
  | read (len : ℕ)
  | readTurn (ctx : Ctx)

/-- Record a message sent through the pipe of `reader`, and its new state. -/
def afterSend (s : State Ctx Other) (reader : ℕ) (msg : Message Other)
    (freed : Task Ctx (Message Other)) (c : Channel) : State Ctx Other where
  manager := sendReference s.manager reader msg freed
  pipes := Function.update s.pipes reader (some c)
  sends := s.sends ++ [(reader, (s.manager.tasks reader).isSome)]

/-- The call of `Read(len)`: it returns at once or enters its loop. -/
def Channel.callRead (c : Channel) (len : ℕ) : Channel :=
  match c.desc.readBuffered len with
  | some (bytes, desc) => { c with desc := desc, reads := c.reads ++ [bytes] }
  | none => { c with reading := some len }

/-- The loop of `Read(len)` on the result of one `ReceiveMessage`. -/
def Channel.turnRead (c : Channel) (len : ℕ) : Option (Message Other) → Channel
  | none => c
  | some msg =>
      match c.desc.readMessage len msg with
      | some (bytes, desc) =>
          { c with desc := desc, reading := none, reads := c.reads ++ [bytes] }
      | none => c

/-- The loop of `Write`: the message it sends and what it leaves to send. -/
def Channel.chunkLen (c : Channel) : ℕ := min c.pending.length dataBytes

def Channel.chunkData (c : Channel) : List UInt8 := memcpy c.buffer (c.pending.take c.chunkLen)

/-- The steps of the system.  `ExecuteLine` creates the reader and its pipe; its
task alone writes to the pipe, calls `FinishWrite` after its last `Write` has
returned, and finishes after that.  The reader takes messages in `Read` only,
and does not finish inside it.  Every other message is of another type. -/
inductive Step : State Ctx Other → Op Ctx Other → State Ctx Other → Prop where
  | newTask {s : State Ctx Other} : Step s .newTask { s with manager := s.manager.newTask }
  | wakeup {s : State Ctx Other} (task : ℕ) :
      Step s (.wakeup task) { s with manager := s.manager.wakeup task none }
  | sendMessage {s : State Ctx Other} (id : ℕ) (msg : Other) :
      Step s (.sendMessage id msg)
        { s with manager := (s.manager.sendMessage id (.other msg)).2 }
  | switchTask {s : State Ctx Other} (ctx : Ctx) :
      Step s (.switchTask ctx) { s with manager := s.manager.switchTask ctx }
  | receive {s : State Ctx Other} {t : ℕ} (ctx : Ctx) (hcurrent : s.manager.currentTask = some t)
      (hidle : t ≠ idleId) (hpipe : s.pipes t = none) :
      Step s (.receive ctx) { s with manager := (s.manager.receiveTurn t ctx).2 }
  | waitFinish {s : State Ctx Other} {t : ℕ} (id : ℕ) (ctx : Ctx)
      (hcurrent : s.manager.currentTask = some t) (hidle : t ≠ idleId) :
      Step s (.waitFinish id ctx) { s with manager := (s.manager.waitFinishTurn id ctx).2 }
  | finish {s : State Ctx Other} {t : ℕ} (exitCode : ℤ)
      (hcurrent : s.manager.currentTask = some t) (hidle : t ≠ idleId)
      (hreader : ∀ c, s.pipes t = some c → c.reading = none)
      (hwriter : ∀ reader c, s.pipes reader = some c → c.writer = t → c.finished = true) :
      Step s (.finish exitCode) { s with manager := s.manager.finish exitCode }
  | openPipe {s : State Ctx Other} {t : ℕ} (data : List UInt8) (hdata : data.length = dataBytes)
      (hcurrent : s.manager.currentTask = some t) :
      Step s (.openPipe data)
        { s with manager := s.manager.newTask
                 pipes := Function.update s.pipes (s.manager.latestId + 1)
                   (some { desc := { data := data }, writer := t }) }
  | write {s : State Ctx Other} {reader : ℕ} {c : Channel} (buf : List UInt8)
      (hpipe : s.pipes reader = some c) (hcurrent : s.manager.currentTask = some c.writer)
      (hpending : c.pending = []) (hfinished : c.finished = false) :
      Step s (.write reader buf)
        { s with pipes := Function.update s.pipes reader (some { c with
            buffer := List.replicate dataBytes 0, pending := buf, written := c.written ++ buf }) }
  | sendChunk {s : State Ctx Other} {reader : ℕ} {c : Channel} (freed : Task Ctx (Message Other))
      (hpipe : s.pipes reader = some c) (hcurrent : s.manager.currentTask = some c.writer)
      (hpending : c.pending ≠ []) :
      Step s (.sendChunk reader) (afterSend s reader (.pipe c.chunkData c.chunkLen) freed
        { c with buffer := c.chunkData, pending := c.pending.drop c.chunkLen })
  | finishWrite {s : State Ctx Other} {reader : ℕ} {c : Channel}
      (freed : Task Ctx (Message Other))
      (hpipe : s.pipes reader = some c) (hcurrent : s.manager.currentTask = some c.writer)
      (hpending : c.pending = []) (hfinished : c.finished = false) :
      Step s (.finishWrite reader) (afterSend s reader
        (.pipe (List.replicate dataBytes 0) 0) freed { c with finished := true })
  | read {s : State Ctx Other} {t : ℕ} {c : Channel} (len : ℕ) (hlen : 1 ≤ len)
      (hcurrent : s.manager.currentTask = some t) (hpipe : s.pipes t = some c)
      (hreading : c.reading = none) :
      Step s (.read len)
        { s with pipes := Function.update s.pipes t (some (c.callRead len)) }
  | readTurn {s : State Ctx Other} {t len : ℕ} {c : Channel} (ctx : Ctx)
      (hcurrent : s.manager.currentTask = some t) (hidle : t ≠ idleId)
      (hpipe : s.pipes t = some c) (hreading : c.reading = some len) :
      Step s (.readTurn ctx)
        { s with manager := (s.manager.receiveTurn t ctx).2
                 pipes := Function.update s.pipes t
                   (some (c.turnRead len (s.manager.receiveTurn t ctx).1)) }

end Pipe
end MinOS
