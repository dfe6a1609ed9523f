import MinOS.Library.Program
import MinOS.Terminal.CommandLine
import MinOS.Terminal.Screen
import MinOS.Fat.Walk
import Mathlib.Logic.Function.Basic

/-!
# Terminals without a window

The reader of a pipe and the terminal of `noterm` have `show_window_ = false`: their `window_`
is null and their `layer_id_` is never set.  `InputKey` and `ExecuteLine` as programs
whose events tell what they use of a terminal.
-/

namespace MinOS

/-- `Error::Name`. -/
def Error.name : Error → String
  | .kFull => "kFull"
  | .kNoEnoughMemory => "kNoEnoughMemory"
  | .kIndexOutOfRange => "kIndexOutOfRange"
  | .kAlreadyAllocated => "kAlreadyAllocated"
  | .kNoSuchTask => "kNoSuchTask"
  | .kInvalidFormat => "kInvalidFormat"
  | .kInvalidFile => "kInvalidFile"
  | .kIsDirectory => "kIsDirectory"
  | .kNoSuchEntry => "kNoSuchEntry"

/-- `FindCommand`, with a bound on its recursion.  The directory of last resort is `apps`. -/
def Fat.Volume.findCommand (v : Fat.Volume) (fuel : ℕ) :
    ℕ → List UInt8 → ℕ → Option (Option ℕ)
  | 0, _, _ => none
  | depth + 1, command, dirCluster =>
      (v.findFile fuel command dirCluster).bind fun found ↦
        match found.1 with
        | some entry =>
            some (if v.entryAttr entry = Fat.kDirectory ∨ found.2 then none else some entry)
        | none =>
            if dirCluster ≠ 0 ∨ Fat.slash ∈ command then some none
            else
              (v.findFile fuel [0x61, 0x70, 0x70, 0x73] 0).bind fun apps ↦
                match apps.1 with
                | none => some none
                | some dir =>
                    if v.entryAttr dir ≠ Fat.kDirectory then some none
                    else v.findCommand fuel depth command (v.firstCluster dir)

namespace Windowless

open Graphics CommandLine Program

abbrev Text := List (BitVec 8)

def text (s : String) : Text := s.toList.map fun c ↦ BitVec.ofNat 8 c.toNat

def bytes (s : Text) : List UInt8 := s.map UInt8.ofBitVec

/-- A `FileDescriptor` of one of the three kinds: the terminal of a task, a directory entry,
the pipe to a task. -/
inductive Descriptor where
  | terminal (taskId : ℕ)
  | file (entry : ℕ)
  | pipe (taskId : ℕ)
deriving DecidableEq

/-- `files_`. -/
abbrev Files := Fin 3 → Descriptor

structure TerminalDescriptor where
  commandLine : Option Text
  exitAfterCommand : Bool
  showWindow : Bool
  files : Files

/-- The fields of a `Terminal`, and the map of the layers to their tasks.  Without a window
`layerId` is what its memory has held before. -/
structure Terminal where
  taskId : ℕ
  showWindow : Bool
  layerId : ℕ
  cursor : Vector2D
  linebufIndex : ℤ
  linebuf : Line
  cmdHistory : List Line
  cmdHistoryIndex : ℤ
  files : Files
  lastExitCode : ℤ
  layerTaskMap : ℕ → Option ℕ

/-- What a terminal does to its surroundings. -/
inductive Event where
  /-- `window_` is dereferenced. -/
  | window
  /-- `(*layer_task_map)[layer_id_] = taskId`. -/
  | layerKey (layerId taskId : ℕ)
  /-- A message for a layer. -/
  | layerMessage (taskId layerId : ℕ) (area : Rectangle)
  | write (fd : Descriptor) (text : Text)
  | newTerminal (taskId : ℕ) (desc : TerminalDescriptor)
  | finishWrite (taskId : ℕ)
  | log (text : Text)

/-- Whether `window_` or `layer_id_` is used. -/
def Event.touchesWindow : Event → Bool
  | .window | .layerKey _ _ | .layerMessage _ _ _ => true
  | _ => false

/-- What the calls out of a terminal come to.  Those that may not come back have `none`
then; the lists are what has been read until the end, or until nothing more comes. -/
structure World where
  innerSize : Vector2D
  findFile : Text → Option (Option ℕ × Bool)
  createFile : Text → Option (Except Error ℕ)
  findCommand : Text → Option (Option ℕ)
  isDirectory : ℕ → Bool
  firstCluster : ℕ → ℕ
  rootCluster : ℕ
  formatName : ℕ → Text
  /-- The lines that `ListAllEntries` prints, and whether it returns. -/
  listAllEntries : ℕ → List Text × Bool
  /-- The pieces that `ReadDelim` reads, and whether it comes to the end. -/
  readDelims : Descriptor → List Text × Bool
  /-- The lines of `lspci`. -/
  devices : List Text
  /-- The lines of `memstat`. -/
  memoryLines : List Text
  /-- `ExecuteFile` up to the end of `CallApp`: an error, or the value of the app. -/
  runApp : ℕ → Text → Option Text → Option (Except Error ℤ)
  /-- The error with which `CleanPageMaps` and `FreePML4` end. -/
  cleanUp : Option Error
  /-- The task that `NewTask` makes. -/
  newTask : ℕ
  waitFinish : ℕ → Option (ℤ × Option Error)

/-- The world with the files of a volume that no other task changes. -/
def World.onVolume (w : World) (v : Fat.Volume) (fuel : ℕ) : World :=
  { w with
    findFile := fun path ↦ v.findFile fuel (bytes path) 0
    createFile := fun path ↦ (v.createFile fuel fuel (bytes path)).map Prod.fst
    findCommand := fun command ↦ v.findCommand fuel fuel (bytes command) 0
    isDirectory := fun entry ↦ v.entryAttr entry = Fat.kDirectory
    firstCluster := v.firstCluster
    rootCluster := v.rootCluster
    formatName := fun entry ↦ (v.formatName entry).map UInt8.toBitVec
    listAllEntries := fun cluster ↦
      match v.listAllEntries fuel cluster with
      | some lines => (lines.map (·.map UInt8.toBitVec), true)
      | none => ([], false) }

abbrev Action (α : Type) := Program Terminal Event α

/-! ## Drawing and printing -/

def calcCursorPos (cursor : Vector2D) : Vector2D :=
  Terminal.kTopLeftMargin + ⟨4 + 8 * cursor.x, 4 + 16 * cursor.y⟩

/-- A drawing function is called `if (show_window_)`. -/
def drawIfShown : Action Unit := do
  if (← get).showWindow then emit .window else pure ()

/-- `DrawCursor`, in either color. -/
def drawCursor : Action Unit := drawIfShown

/-- `Scroll1`: the window moves its lines, and the last one is cleared. -/
def scroll1 : Action Unit := do
  emit .window
  emit .window

/-- The lambda `newline`. -/
def newline : Action Unit := do
  let t ← get
  if t.cursor.y < kRows - 1 then set { t with cursor := ⟨0, t.cursor.y + 1⟩ }
  else
    set { t with cursor := ⟨0, t.cursor.y⟩ }
    scroll1

/-- `WriteUnicode` at the cursor, in the next line when this one is full, and the cursor then
moves on. -/
def put (full : Bool) (width : ℤ) : Action Unit := do
  (if full then newline else pure ())
  emit .window
  modify fun t ↦ { t with cursor := ⟨t.cursor.x + width, t.cursor.y⟩ }

/-- `Print(char32_t)`. -/
def printChar (c : ℕ) : Action Unit := do
  let t ← get
  if !t.showWindow then pure ()
  else if c = 10 then newline
  else if Font.isHankaku c then put (t.cursor.x = kColumns) 1
  else put (t.cursor.x ≥ kColumns - 1) 2

/-- `Print(const char*)` of ASCII text. -/
def print (w : World) (s : Text) : Action Unit := do
  let cursorBefore := calcCursorPos (← get).cursor
  drawCursor
  s.forM fun c ↦ printChar c.toNat
  drawCursor
  let t ← get
  let cursorAfter := calcCursorPos t.cursor
  emit .window
  emit (.layerMessage t.taskId t.layerId
    ⟨⟨Terminal.kTopLeftMargin.x, cursorBefore.y⟩,
      ⟨w.innerSize.x, cursorAfter.y - cursorBefore.y + 16⟩⟩)

/-- `PrintToFD(*files_[i], ...)`. -/
def printToFD (i : Fin 3) (s : Text) : Action Unit := do
  emit (.write ((← get).files i) s)

/-! ## The parts of `ExecuteLine` -/

def setFile (i : Fin 3) (fd : Descriptor) : Action Unit :=
  modify fun t ↦ { t with files := Function.update t.files i fd }

/-- `(*layer_task_map)[layer_id_] = taskId`. -/
def setLayerTask (taskId : ℕ) : Action Unit := do
  let t ← get
  emit (.layerKey t.layerId taskId)
  set { t with layerTaskMap := Function.update t.layerTaskMap t.layerId (some taskId) }

/-- The entry of the file that the line redirects to, or the message of an error. -/
def openRedirect (w : World) (dest : Text) : Option (Except Text ℕ) :=
  (w.findFile dest).bind fun found ↦
    match found.1 with
    | none =>
        (w.createFile dest).map fun created ↦
          match created with
          | .error err => .error (text "failed to create a redirect file: " ++ text err.name ++ text "\n")
          | .ok file => .ok file
    | some file =>
        if w.isDirectory file || found.2 then
          some (.error (text "cannot redirect to a directory\n"))
        else some (.ok file)

/-- The redirection, and whether `ExecuteLine` goes on behind it. -/
def redirect (w : World) : Option Text → Action Bool
  | none => pure true
  | some dest => do
      match ← call (openRedirect w dest) with
      | .error message => printToFD 2 message; pure false
      | .ok file => setFile 1 (.file file); pure true

/-- A terminal without a window is started to read the pipe. -/
def openPipe (w : World) : Option Text → Action (Option ℕ)
  | none => pure none
  | some subcommand => do
      let files := (← get).files
      emit (.newTerminal w.newTask
        ⟨some subcommand, true, false, ![.pipe w.newTask, files 1, files 2]⟩)
      setFile 1 (.pipe w.newTask)
      setLayerTask w.newTask
      pure (some w.newTask)

/-- The end of the pipe: the exit code becomes the one of its reader. -/
def joinPipe (w : World) (exitCode : ℤ) : Option ℕ → Action ℤ
  | none => pure exitCode
  | some subtaskId => do
      emit (.finishWrite subtaskId)
      let finished ← call (w.waitFinish subtaskId)
      setLayerTask (← get).taskId
      match finished.2 with
      | none => pure finished.1
      | some err => 
          emit (.log (text "failed to wait finish: " ++ text err.name ++ text "\n"))
          pure finished.1

inductive Builtin where
  | echo
  | clear
  | lspci
  | ls
  | cat
  | noterm
  | memstat
deriving DecidableEq

/-- The comparisons of the command with the words that `ExecuteLine` knows. -/
def builtin (command : Text) : Option Builtin :=
  if command = text "echo" then some .echo
  else if command = text "clear" then some .clear
  else if command = text "lspci" then some .lspci
  else if command = text "ls" then some .ls
  else if command = text "cat" then some .cat
  else if command = text "noterm" then some .noterm
  else if command = text "memstat" then some .memstat
  else none

/-- Lines that are printed one after another, by a loop that may not end. -/
def printLines (lines : List Text × Bool) : Action Unit := do
  lines.1.forM (printToFD 1)
  call (if lines.2 then some () else none)

/-- What `echo` prints of its argument. -/
def echoArg : Option Text → Action Unit
  | none => pure ()
  | some arg =>
      if arg.head? = some 0x24 then
        if arg.tail = text "?" then do printToFD 1 (text (toString (← get).lastExitCode))
        else pure ()
      else printToFD 1 arg

def echo (firstArg : Option Text) : Action Unit := do
  echoArg firstArg
  printToFD 1 (text "\n")

/-- What `ls` is about: the cluster of a directory, the name of a file, or an error. -/
def lsTarget (w : World) : Option Text → Option (Except Text (ℕ ⊕ Text))
  | none | some [] => some (.ok (.inl w.rootCluster))
  | some arg =>
      (w.findFile arg).map fun found ↦
        match found.1 with
        | none => .error (text "No such file or directory: " ++ arg ++ text "\n")
        | some entry =>
            if w.isDirectory entry then .ok (.inl (w.firstCluster entry))
            else if found.2 then .error (w.formatName entry ++ text " is not a directory\n")
            else .ok (.inr (w.formatName entry))

def ls (w : World) (firstArg : Option Text) : Action ℤ := do
  match ← call (lsTarget w firstArg) with
  | .error message => printToFD 2 message; pure 1
  | .ok (.inl cluster) =>
      printLines (w.listAllEntries cluster)
      pure 0
  | .ok (.inr name) => printToFD 1 (name ++ text "\n"); pure 0

/-- What `cat` reads, or an error. -/
def catInput (w : World) (stdin : Descriptor) : Option Text → Option (Except Text Descriptor)
  | none | some [] => some (.ok stdin)
  | some arg =>
      (w.findFile arg).map fun found ↦
        match found.1 with
        | none => .error (text "no such file: " ++ arg ++ text "\n")
        | some entry =>
            if !w.isDirectory entry && found.2 then
              .error (w.formatName entry ++ text " is not a directory\n")
            else .ok (.file entry)

def cat (w : World) (firstArg : Option Text) : Action ℤ := do
  match ← call (catInput w ((← get).files 0) firstArg) with
  | .error message => printToFD 2 message; pure 1
  | .ok fd =>
      drawCursor
      printLines (w.readDelims fd)
      drawCursor
      pure 0

/-- `ExecuteFile`. -/
def executeFile (w : World) (entry : ℕ) (command : Text) (firstArg : Option Text) :
    Action (ℤ × Option Error) := do
  match ← call (w.runApp entry command firstArg) with
  | .error err => pure (0, some err)
  | .ok ret =>
      print w (text "app exited. ret = " ++ text (toString ret) ++ text "\n")
      pure (ret, w.cleanUp)

/-- A command that is no word of `ExecuteLine`. -/
def external (w : World) (command : Text) (firstArg : Option Text) : Action ℤ := do
  match ← call (w.findCommand command) with
  | none => printToFD 2 (text "no such command: " ++ command ++ text "\n"); pure 1
  | some entry =>
      let r ← executeFile w entry command firstArg
      match r.2 with
      | some err =>
          printToFD 2 (text "failed to exec file: " ++ text err.name ++ text "\n")
          pure (-r.1)
      | none => pure r.1

/-- The command of the line, and its exit code. -/
def runCommand (w : World) (p : Parsed) : Action ℤ :=
  match builtin p.command with
  | some .echo => do echo p.firstArg; pure 0
  | some .clear => do
      drawIfShown
      modify fun t ↦ { t with cursor := ⟨t.cursor.x, 0⟩ }
      pure 0
  | some .lspci => do printLines (w.devices, true); pure 0
  | some .ls => ls w p.firstArg
  | some .cat => cat w p.firstArg
  | some .noterm => do
      emit (.newTerminal w.newTask ⟨p.firstArg, true, false, (← get).files⟩)
      pure 0
  | some .memstat => do printLines (w.memoryLines, true); pure 0
  | none => if p.command = [] then pure 0 else external w p.command p.firstArg

/-- `ExecuteLine` behind the redirection. -/
def executeRest (w : World) (p : Parsed) (originalStdout : Descriptor) : Action Unit := do
  let pipe ← openPipe w p.subcommand
  let exitCode ← runCommand w p
  let exitCode ← joinPipe w exitCode pipe
  modify fun t ↦
    { t with lastExitCode := exitCode, files := Function.update t.files 1 originalStdout }

/-- `ExecuteLine`.  `parse` cuts a copy of the line; the next one is typed over it anyway. -/
def executeLine (w : World) : Action Unit := do
  let t ← get
  let p := parse t.linebuf.toList
  if ← redirect w p.redirDest then executeRest w p (t.files 1) else pure ()

/-! ## Keys -/

/-- The state in which `InputKey` calls `ExecuteLine`. -/
def entered (t : Terminal) : Terminal :=
  let line := t.linebuf.setIfInBounds t.linebufIndex.toNat 0
  { t with
    linebuf := line
    cmdHistory := if t.linebufIndex > 0 then line :: t.cmdHistory.dropLast else t.cmdHistory
    linebufIndex := 0
    cmdHistoryIndex := -1
    cursor := ⟨0, if t.cursor.y < kRows - 1 then t.cursor.y + 1 else t.cursor.y⟩ }

/-- The branch of `InputKey` for a newline, with the area to be drawn again. -/
def enter (w : World) : Action Rectangle := do
  let t ← get
  set (entered t)
  (if t.cursor.y < kRows - 1 then pure () else scroll1)
  executeLine w
  print w (text ">")
  emit .window
  pure ⟨Terminal.kTopLeftMargin, w.innerSize⟩

/-- The branch of `InputKey` for a backspace. -/
def backspace (drawArea : Rectangle) : Action Rectangle := do
  let t ← get
  if t.cursor.x > 1 then
    let cursor : Vector2D := ⟨t.cursor.x - 1, t.cursor.y⟩
    set { t with
      cursor := cursor
      linebufIndex := if t.linebufIndex > 0 then t.linebufIndex - 1 else t.linebufIndex }
    drawIfShown
    pure { drawArea with pos := calcCursorPos cursor }
  else pure drawArea

/-- The branch of `InputKey` for any other character. -/
def typeChar (ascii : BitVec 8) : Action Unit := do
  let t ← get
  if t.cursor.x < kColumns - 1 ∧ t.linebufIndex < kLineMax - 1 then
    set { t with
      linebuf := t.linebuf.setIfInBounds t.linebufIndex.toNat ascii
      linebufIndex := t.linebufIndex + 1 }
    drawIfShown
    modify fun t ↦ { t with cursor := ⟨t.cursor.x + 1, t.cursor.y⟩ }
  else pure ()

/-- `cmd_history_index_` after `HistoryUpDown` has moved it. -/
def historyIndex (t : Terminal) (direction : ℤ) : ℤ :=
  if direction = -1 ∧ t.cmdHistoryIndex ≥ 0 then t.cmdHistoryIndex - 1
  else if direction = 1 ∧ t.cmdHistoryIndex + 1 < t.cmdHistory.length then t.cmdHistoryIndex + 1
  else t.cmdHistoryIndex

/-- `HistoryUpDown`.  Both its calls draw into the window, whether there is one or not. -/
def historyUpDown (direction : ℤ) : Action Rectangle := do
  let t ← get
  let index := historyIndex t direction
  let firstPos := calcCursorPos ⟨1, t.cursor.y⟩
  let history := if index ≥ 0 then t.cmdHistory[index.toNat]?.getD .empty else .empty
  emit .window
  emit .window
  set { t with
    cmdHistoryIndex := index
    linebuf := t.linebuf.strcpy history
    linebufIndex := history.strlen
    cursor := ⟨history.strlen + 1, t.cursor.y⟩ }
  pure ⟨firstPos, ⟨8 * (kColumns - 1), 16⟩⟩

/-- The branches of `InputKey`, with the area to be drawn again. -/
def pressKey (w : World) (keycode ascii : BitVec 8) (drawArea : Rectangle) : Action Rectangle :=
  if ascii = 10 then enter w
  else if ascii = 8 then backspace drawArea
  else if ascii ≠ 0 then do typeChar ascii; pure drawArea
  else if keycode = 0x51 then historyUpDown (-1)
  else if keycode = 0x52 then historyUpDown 1
  else pure drawArea

/-- `InputKey`, which does not look at the modifier. -/
def inputKey (w : World) (_modifier keycode ascii : BitVec 8) : Action Rectangle := do
  drawCursor
  let drawArea ← pressKey w keycode ascii ⟨calcCursorPos (← get).cursor, ⟨8 * 2, 16⟩⟩
  drawCursor
  pure drawArea

end Windowless
end MinOS
