import MinOS.App.Elf
import MinOS.App.PageFault
import MinOS.Paging.Copy

/-!
# Launching an application

`Terminal::ExecuteFile` of `terminal.cpp` up to `CallApp`.  Page tables, CR3 and
the table of loaded images change step by step, and every step may fail.
-/

namespace MinOS
namespace App

open Paging Paging.Machine ByteMemory

/-- `pml4` is the frame of the table. -/
structure AppLoadInfo where
  vaddrEnd : ℕ
  entry : ℕ
  pml4 : ℕ

/-- What `ExecuteFile` changes: the machine, the fields of the current task, and
`app_loads` by the address of the directory entry.  `contextCr3` is an address. -/
structure LaunchState extends FaultTask where
  machine : Machine
  contextCr3 : ℕ
  fileMapEnd : ℕ
  appLoads : ℕ → Option AppLoadInfo

/-- The arguments of `CallApp`. -/
structure AppCall where
  argc : ℕ
  argv : ℕ
  rip : ℕ
  rsp : ℕ

def isElf (image : ℕ → UInt8) : Bool :=
  readBytes image 0 4 = [0x7f, 0x45, 0x4c, 0x46]

/-- The memory from the start of `file_buf` on; `behind` is what lies after it. -/
def fileBuf (v : Fat.Volume) (behind : ℕ → UInt8) (fileEntry : ℕ) : Option (ℕ → UInt8) :=
  (v.read (.fresh fileEntry) (v.fileSize fileEntry)).map fun r i ↦ (r.1[i]?).getD (behind i)

namespace LaunchState

/-- The lower half of the current PML4 is copied. -/
def setupPML4 (s : LaunchState) : Except Error ℕ × LaunchState :=
  match s.machine.newPageMap with
  | (.error err, m) => (.error err, { s with machine := m })
  | (.ok pml4, m) =>
      let table := fun i ↦ if i < 256 then m.mem m.cr3 i else m.mem pml4 i
      (.ok pml4,
        { s with
          machine := { m with mem := Function.update m.mem pml4 table, cr3 := pml4 }
          contextCr3 := pml4 * 4096 })

/-- The shallow copy of an image for the application, with the result of `LoadApp`. -/
def copyImage (s : LaunchState) (dest src : ℕ) (appLoad : AppLoadInfo) :
    Except Error AppLoadInfo × LaunchState :=
  match s.machine.copyPageMaps 4 256 dest src with
  | (.error err, m) => (.error err, { s with machine := m })
  | (.ok (), m) => (.ok { appLoad with pml4 := dest }, { s with machine := m })

/-- `LoadApp` for a file that is not in `app_loads`, from the first PML4 on. -/
def loadNew (image : ℕ → UInt8) (fileEntry tempPml4 : ℕ) (s : LaunchState) :
    Option (Except Error AppLoadInfo × LaunchState) :=
  if isElf image = false then some (.error .kInvalidFile, s)
  else
    let load := loadELF image s.machine
    let s := { s with machine := load.machine }
    match load.result with
    | none => none
    | some (.error err) => some (.error err, s)
    | some (.ok lastAddr) =>
        let appLoad := ⟨lastAddr, eEntry image, tempPml4⟩
        let s := { s with appLoads := Function.update s.appLoads fileEntry (some appLoad) }
        match s.setupPML4 with
        | (.error err, s) => some (.error err, s)
        | (.ok pml4, s) => some (s.copyImage pml4 tempPml4 appLoad)

/-- `none` is a fault of the kernel. -/
def loadApp (v : Fat.Volume) (behind : ℕ → UInt8) (fileEntry : ℕ) (s : LaunchState) :
    Option (Except Error AppLoadInfo × LaunchState) :=
  match s.setupPML4 with
  | (.error err, s) => some (.error err, s)
  | (.ok tempPml4, s) =>
      match s.appLoads fileEntry with
      | some appLoad => some (s.copyImage tempPml4 appLoad.pml4 appLoad)
      | none => (fileBuf v behind fileEntry).bind fun image ↦ s.loadNew image fileEntry tempPml4

end LaunchState

/-! ## The arguments -/

def argsFrameAddr : ℕ := 0xfffffffffffff000

def argvLen : ℕ := 32

def argbuf : ℕ := argsFrameAddr + 8 * argvLen

def argbufLen : ℕ := 4096 - 8 * argvLen

/-- The local variables of `MakeArgVector`, and the memory that it fills. -/
structure ArgVector where
  machine : Machine
  argc : ℕ
  argbufIndex : ℕ

/-- A string is the list of its bytes without the final zero. -/
def ArgVector.push (av : ArgVector) (s : List UInt8) : Option (Except Error Unit × ArgVector) :=
  if argvLen ≤ av.argc ∨ argbufLen ≤ av.argbufIndex then some (.error .kFull, av)
  else do
    let arg := argbuf + av.argbufIndex
    let m ← av.machine.storeBytes (argsFrameAddr + 8 * av.argc)
      ((List.range 8).map fun k ↦ UInt8.ofNat (arg / 256 ^ k))
    let m ← m.storeBytes arg (s ++ [0])
    return (.ok (), ⟨m, av.argc + 1, av.argbufIndex + (s.length + 1)⟩)

def isspace (c : UInt8) : Bool := c = 0x20 ∨ 0x09 ≤ c ∧ c ≤ 0x0d

/-- The loop over the bytes of `first_arg`; `arg` has been passed since its last
turn began. -/
def ArgVector.pushArgs (av : ArgVector) (arg : List UInt8) :
    List UInt8 → Option (Except Error Unit × ArgVector)
  | [] => if arg = [] then some (.ok (), av) else av.push arg
  | c :: p =>
      if isspace c then
        (av.push arg).bind fun r ↦
          match r with
          | (.error err, av) => some (.error err, av)
          | (.ok (), av) => av.pushArgs [] p
      else av.pushArgs (arg ++ [c]) p

def makeArgVector (m : Machine) (command : List UInt8) (firstArg : Option (List UInt8)) :
    Option (Except Error Unit × ArgVector) :=
  (ArgVector.push ⟨m, 0, 0⟩ command).bind fun r ↦
    match r, firstArg with
    | (.error err, av), _ => some (.error err, av)
    | (.ok (), av), none => some (.ok (), av)
    | (.ok (), av), some p => av.pushArgs [] p

namespace LaunchState

/-- `ExecuteFile` from the loaded image on. -/
def prepareCall (s : LaunchState) (terminalFiles : List (Option OpenFile)) (appLoad : AppLoadInfo)
    (command : List UInt8) (firstArg : Option (List UInt8)) :
    Option (Except Error AppCall × LaunchState) :=
  let stack := s.machine.setupPageMaps (.ofValue stackFrameAddr) 0x100 true
  match stack.result with
  | .error err => some (.error err, { s with machine := stack.machine })
  | .ok _ =>
      let args := stack.machine.setupPageMaps (.ofValue argsFrameAddr) 1 true
      match args.result with
      | .error err => some (.error err, { s with machine := args.machine })
      | .ok _ =>
          (makeArgVector args.machine command firstArg).map fun r ↦
            match r with
            | (.error err, av) => (.error err, { s with machine := av.machine })
            | (.ok (), av) =>
                let elfNextPage := pageDown (uint64Add appLoad.vaddrEnd 4095)
                (.ok ⟨av.argc, argsFrameAddr, appLoad.entry, stackFrameAddr + 0x100 * 4096 - 8⟩,
                  { s with
                    machine := av.machine
                    files := s.files ++ terminalFiles
                    dpagingBegin := elfNextPage
                    dpagingEnd := elfNextPage
                    fileMapEnd := stackFrameAddr })

/-- A result `.ok` is the call of the application. -/
def executeFile (v : Fat.Volume) (behind : ℕ → UInt8) (terminalFiles : List (Option OpenFile))
    (fileEntry : ℕ) (command : List UInt8) (firstArg : Option (List UInt8)) (s : LaunchState) :
    Option (Except Error AppCall × LaunchState) :=
  (s.loadApp v behind fileEntry).bind fun r ↦
    match r with
    | (.error err, s) => some (.error err, s)
    | (.ok appLoad, s) => s.prepareCall terminalFiles appLoad command firstArg

end LaunchState

/-! ## Traces -/

/-- The tables and the pages of the user half below a PML4, with its own frame. -/
def imageFrames (m : Machine) (pml4 : ℕ) : Set ℕ :=
  {f | f = pml4 ∨ ∃ d q, Entry userHalf d q ∧ m.frameAt pml4 d q = some f}

/-- A launch that fails leaves these as they were. -/
structure NoTrace (s s' : LaunchState) : Prop where
  cr3 : s'.machine.cr3 = s.machine.cr3
  contextCr3 : s'.contextCr3 = s.contextCr3
  files : s'.files = s.files
  fileMaps : s'.fileMaps = s.fileMaps
  frames : ∀ f, s'.machine.memoryManager.getBit f = s.machine.memoryManager.getBit f ∨
    ∃ fileEntry appLoad, s.appLoads fileEntry = none ∧ s'.appLoads fileEntry = some appLoad ∧
      f ∈ imageFrames s'.machine appLoad.pml4

/-! ## Frames are only taken -/

section Takes

variable {m m' : Machine}

theorem takes_copySegment {image : ℕ → UInt8} {ph : Phdr} (h : copySegment image ph m = some m') :
    Takes Set.univ m m' := by
  obtain ⟨m₁, hcopy, hfill⟩ := Option.bind_eq_some_iff.mp h
  exact (takes_storeBytes hcopy).then (takes_storeBytes hfill)

theorem takes_copyLoadSegments (image : ℕ → UInt8) {phdrs : List Phdr} : ∀ {m : Machine}
    {lastAddr : ℕ}, Takes Set.univ m (copyLoadSegments image phdrs lastAddr m).machine := by
  induction phdrs with
  | nil => exact fun {m _} ↦ .refl _ m
  | cons ph phdrs ih =>
      intro m lastAddr
      have hsetup := takes_setupPageMaps m (.ofValue ph.pVaddr) ph.num4kpages false
      rw [copyLoadSegments]
      split_ifs
      · exact ih
      · dsimp only
        split
        · exact hsetup
        · split
          · exact hsetup
          · next m₁ hcopy => exact hsetup.then ((takes_copySegment hcopy).then ih)

theorem takes_loadELF (image : ℕ → UInt8) (m : Machine) :
    Takes Set.univ m (loadELF image m).machine := by
  rw [loadELF]
  split_ifs
  · exact .refl _ m
  · exact .refl _ m
  · exact takes_copyLoadSegments image

theorem takes_push {av av' : ArgVector} {arg : List UInt8} {r : Except Error Unit}
    (h : av.push arg = some (r, av')) : Takes Set.univ av.machine av'.machine := by
  rw [ArgVector.push] at h
  split_ifs at h
  · obtain ⟨-, rfl⟩ := Prod.mk.inj (Option.some.inj h)
    exact .refl _ _
  · obtain ⟨m₁, hargv, h⟩ := Option.bind_eq_some_iff.mp h
    obtain ⟨m₂, hcopy, h⟩ := Option.bind_eq_some_iff.mp h
    obtain ⟨-, rfl⟩ := Prod.mk.inj (Option.some.inj h)
    exact (takes_storeBytes hargv).then (takes_storeBytes hcopy)

theorem takes_pushArgs {p : List UInt8} : ∀ {av av' : ArgVector} {arg : List UInt8}
    {r : Except Error Unit}, av.pushArgs arg p = some (r, av') →
      Takes Set.univ av.machine av'.machine := by
  induction p with
  | nil =>
      intro av av' arg r h
      rw [ArgVector.pushArgs] at h
      split_ifs at h
      · obtain ⟨-, rfl⟩ := Prod.mk.inj (Option.some.inj h)
        exact .refl _ _
      · exact takes_push h
  | cons c p ih =>
      intro av av' arg r h
      rw [ArgVector.pushArgs] at h
      split_ifs at h
      · obtain ⟨⟨r₁, av₁⟩, hpush, h⟩ := Option.bind_eq_some_iff.mp h
        cases r₁ with
        | error err =>
            obtain ⟨-, rfl⟩ := Prod.mk.inj (Option.some.inj h)
            exact takes_push hpush
        | ok u => exact (takes_push hpush).then (ih h)
      · exact ih h

theorem takes_makeArgVector {command : List UInt8} {firstArg : Option (List UInt8)}
    {r : Except Error Unit} {av : ArgVector} (h : makeArgVector m command firstArg = some (r, av)) :
    Takes Set.univ m av.machine := by
  obtain ⟨⟨r₁, av₁⟩, hpush, h⟩ := Option.bind_eq_some_iff.mp h
  have hfirst := takes_push hpush
  cases r₁ with
  | error err =>
      obtain ⟨-, rfl⟩ := Prod.mk.inj (Option.some.inj h)
      exact hfirst
  | ok u =>
      cases firstArg with
      | none =>
          obtain ⟨-, rfl⟩ := Prod.mk.inj (Option.some.inj h)
          exact hfirst
      | some p => exact hfirst.then (takes_pushArgs h)

end Takes

/-! ## Which launches leave no trace -/

/-- A new PML4 is in use, and more frames may have been taken. -/
structure Launched (s s' : LaunchState) : Prop where
  cr3 : s'.machine.cr3 ∈ s.machine.memoryManager.freeFrames
  contextCr3 : s'.contextCr3 = s'.machine.cr3 * 4096
  free : s'.machine.memoryManager.freeFrames ⊆ s.machine.memoryManager.freeFrames
  files : s'.files = s.files
  fileMaps : s'.fileMaps = s.fileMaps

section Launched

variable {s s' s'' : LaunchState} {v : Fat.Volume} {behind image : ℕ → UInt8} {fileEntry : ℕ}

theorem Launched.trans (h : Launched s s') (h' : Launched s' s'') : Launched s s'' where
  cr3 := h.free h'.cr3
  contextCr3 := h'.contextCr3
  free := h'.free.trans h.free
  files := h'.files.trans h.files
  fileMaps := h'.fileMaps.trans h.fileMaps

/-- The machine goes on while the fields of the task stay. -/
theorem Launched.takes (h : Launched s s') {m : Machine} {appLoads : ℕ → Option AppLoadInfo}
    (hm : Takes Set.univ s'.machine m) :
    Launched s { s' with machine := m, appLoads := appLoads } where
  cr3 := hm.cr3 ▸ h.cr3
  contextCr3 := h.contextCr3.trans (congrArg (· * 4096) hm.cr3.symm)
  free := hm.free.trans h.free
  files := h.files
  fileMaps := h.fileMaps

theorem setupPML4_cases (s : LaunchState) :
    (∃ pml4 s', s.setupPML4 = (.ok pml4, s') ∧ Launched s s' ∧ s'.appLoads = s.appLoads) ∨
      (s.machine.memoryManager.freeFrames = ∅ ∧
        s.setupPML4 = (.error .kNoEnoughMemory, s)) := by
  rcases newPageMap_cases s.machine with ⟨pml4, hfree, m, hnew, htakes, -⟩ | ⟨hempty, hnew⟩
  · refine .inl ⟨pml4, s.setupPML4.2, ?_, ?_, ?_⟩ <;> rw [LaunchState.setupPML4, hnew]
    exact ⟨hfree, rfl, htakes.free, rfl, rfl⟩
  · exact .inr ⟨hempty, by rw [LaunchState.setupPML4, hnew]⟩

theorem Launched.copyImage (h : Launched s s') (dest src : ℕ) (appLoad : AppLoadInfo) :
    Launched s (s'.copyImage dest src appLoad).2 := by
  have hcopy := (takes_copyPageMaps 4 256 s'.machine dest src).mono (Set.subset_univ _)
  rw [LaunchState.copyImage]
  rcases hresult : s'.machine.copyPageMaps 4 256 dest src with ⟨err | u, m⟩ <;>
    rw [hresult] at hcopy
  · exact h.takes hcopy
  · exact h.takes hcopy

theorem Launched.loadNew (h : Launched s s') {tempPml4 : ℕ} {r : Except Error AppLoadInfo}
    (hload : s'.loadNew image fileEntry tempPml4 = some (r, s'')) : Launched s s'' := by
  have htakes := takes_loadELF image s'.machine
  rw [LaunchState.loadNew] at hload
  split_ifs at hload
  · obtain ⟨-, rfl⟩ := Prod.mk.inj (Option.some.inj hload)
    exact h
  · dsimp only at hload
    split at hload
    · cases hload
    · obtain ⟨-, rfl⟩ := Prod.mk.inj (Option.some.inj hload)
      exact h.takes htakes
    · next lastAddr _ =>
      obtain ⟨s₁, hs₁⟩ : ∃ s₁ : LaunchState, s₁ = { s' with
          machine := (loadELF image s'.machine).machine
          appLoads := Function.update s'.appLoads fileEntry
            (some ⟨lastAddr, eEntry image, tempPml4⟩) } := ⟨_, rfl⟩
      have hlaunched : Launched s s₁ := hs₁ ▸ h.takes htakes
      rw [← hs₁] at hload
      rcases setupPML4_cases s₁ with ⟨pml4, s₂, hsetup, hlaunched₂, -⟩ | ⟨-, hsetup⟩
      · rw [hsetup] at hload
        have hcopy := (hlaunched.trans hlaunched₂).copyImage pml4 tempPml4
          ⟨lastAddr, eEntry image, tempPml4⟩
        rwa [Option.some.inj hload] at hcopy
      · rw [hsetup] at hload
        obtain ⟨-, rfl⟩ := Prod.mk.inj (Option.some.inj hload)
        exact hlaunched

theorem loadApp_cases {r : Except Error AppLoadInfo}
    (h : s.loadApp v behind fileEntry = some (r, s')) :
    s.machine.memoryManager.freeFrames = ∅ ∧ r = .error .kNoEnoughMemory ∧ s' = s ∨
      Launched s s' := by
  rw [LaunchState.loadApp] at h
  rcases setupPML4_cases s with ⟨pml4, s₁, hsetup, hlaunched, -⟩ | ⟨hempty, hsetup⟩
  · rw [hsetup] at h
    refine .inr ?_
    dsimp only at h
    split at h
    · next appLoad _ =>
      have hcopy := hlaunched.copyImage pml4 appLoad.pml4 appLoad
      rwa [Option.some.inj h] at hcopy
    · obtain ⟨image, -, hload⟩ := Option.bind_eq_some_iff.mp h
      exact hlaunched.loadNew hload
  · rw [hsetup] at h
    obtain ⟨rfl, rfl⟩ := Prod.mk.inj (Option.some.inj h)
    exact .inl ⟨hempty, rfl, rfl⟩

variable {terminalFiles : List (Option OpenFile)} {command : List UInt8}
  {firstArg : Option (List UInt8)} {err : Error}

theorem Launched.prepareCall (h : Launched s s') {appLoad : AppLoadInfo}
    (hcall : s'.prepareCall terminalFiles appLoad command firstArg = some (.error err, s'')) :
    Launched s s'' := by
  have hstack := takes_setupPageMaps s'.machine (.ofValue stackFrameAddr) 0x100 true
  have hargs := hstack.then (takes_setupPageMaps
    (s'.machine.setupPageMaps (.ofValue stackFrameAddr) 0x100 true).machine
      (.ofValue argsFrameAddr) 1 true)
  rw [LaunchState.prepareCall] at hcall
  dsimp only at hcall
  split at hcall
  · obtain ⟨-, rfl⟩ := Prod.mk.inj (Option.some.inj hcall)
    exact h.takes hstack
  · split at hcall
    · obtain ⟨-, rfl⟩ := Prod.mk.inj (Option.some.inj hcall)
      exact h.takes hargs
    · obtain ⟨⟨r, av⟩, hvector, hcall⟩ := Option.map_eq_some_iff.mp hcall
      cases r with
      | error e =>
          obtain ⟨-, rfl⟩ := Prod.mk.inj hcall
          exact h.takes (hargs.then (takes_makeArgVector hvector))
      | ok u => cases (Prod.mk.inj hcall).1

/-- An error without a free frame at the call changes nothing; after any other
error a PML4 that was free at the call stays in CR3. -/
theorem executeFile_cases
    (h : s.executeFile v behind terminalFiles fileEntry command firstArg = some (.error err, s')) :
    s.machine.memoryManager.freeFrames = ∅ ∧ s' = s ∨ Launched s s' := by
  obtain ⟨⟨r, s₁⟩, hload, h⟩ := Option.bind_eq_some_iff.mp h
  have hcases := loadApp_cases hload
  cases r with
  | error e =>
      obtain ⟨-, rfl⟩ := Prod.mk.inj (Option.some.inj h)
      rcases hcases with ⟨hempty, -, heq⟩ | hlaunched
      · exact .inl ⟨hempty, heq⟩
      · exact .inr hlaunched
  | ok appLoad =>
      rcases hcases with ⟨-, hr, -⟩ | hlaunched
      · cases hr
      · exact .inr (hlaunched.prepareCall h)

/-- A file that is no ELF file is given up after the first PML4. -/
theorem executeFile_notElf (hfree : s.machine.memoryManager.freeFrames.Nonempty)
    (hnew : s.appLoads fileEntry = none) (hbuf : fileBuf v behind fileEntry = some image)
    (helf : isElf image = false) : ∃ s',
      s.executeFile v behind terminalFiles fileEntry command firstArg =
        some (.error .kInvalidFile, s') ∧ Launched s s' := by
  rcases setupPML4_cases s with ⟨pml4, s₁, hsetup, hlaunched, happLoads⟩ | ⟨hempty, -⟩
  · refine ⟨s₁, ?_, hlaunched⟩
    have hload : s.loadApp v behind fileEntry = some (.error .kInvalidFile, s₁) := by
      simp [LaunchState.loadApp, hsetup, happLoads, hnew, hbuf, LaunchState.loadNew, helf]
    simp [LaunchState.executeFile, hload]
  · exact absurd hempty hfree.ne_empty

theorem NoTrace.refl (s : LaunchState) : NoTrace s s :=
  ⟨rfl, rfl, rfl, rfl, fun _ ↦ .inl rfl⟩

theorem Launched.not_noTrace (h : Launched s s')
    (hcr3 : s.machine.memoryManager.getBit s.machine.cr3 = true) : ¬ NoTrace s s' := by
  intro hno
  have hfree := h.cr3
  rw [hno.cr3] at hfree
  exact notMem_freeFrames_of_getBit hcr3 hfree

/-- A launch that fails leaves no trace exactly when no frame was free at the call.
The current PML4 is in use, so it is not given out again. -/
theorem executeFile_noTrace_iff (hcr3 : s.machine.memoryManager.getBit s.machine.cr3 = true)
    (h : s.executeFile v behind terminalFiles fileEntry command firstArg = some (.error err, s')) :
    NoTrace s s' ↔ s.machine.memoryManager.freeFrames = ∅ := by
  constructor
  · intro hno
    rcases executeFile_cases h with ⟨hempty, -⟩ | hlaunched
    · exact hempty
    · exact absurd hno (hlaunched.not_noTrace hcr3)
  · intro hempty
    rcases executeFile_cases h with ⟨-, rfl⟩ | hlaunched
    · exact .refl s'
    · have hfree := hlaunched.cr3
      simp [hempty] at hfree

end Launched

/-- A terminal that has not run an application yet. -/
def idleState : LaunchState where
  dpagingBegin := 0
  dpagingEnd := 0
  fileMaps := []
  files := []
  machine := gigaMachine
  contextCr3 := 0x1000
  fileMapEnd := 0
  appLoads := fun _ ↦ none

theorem executeFile_abcVolume : ∃ s',
    idleState.executeFile Fat.abcVolume (fun _ ↦ 0) [] Fat.sampleEntry [0x61, 0x62, 0x63] none =
      some (.error .kInvalidFile, s') ∧ Launched idleState s' := by
  have hread : (Fat.abcVolume.read (.fresh Fat.sampleEntry)
      (Fat.abcVolume.fileSize Fat.sampleEntry)).map Prod.fst = some [0x61, 0x62, 0x63] := by
    decide +kernel
  obtain ⟨r, hr, hbytes⟩ := Option.map_eq_some_iff.mp hread
  refine executeFile_notElf ⟨8, by decide +kernel⟩ rfl (by rw [fileBuf, hr]; rfl) ?_
  simp only [isElf, ByteMemory.readBytes, hbytes]
  decide

/-- A launch that fails leaves the new PML4 in CR3. -/
theorem not_noTrace_abcVolume : ∃ s',
    idleState.executeFile Fat.abcVolume (fun _ ↦ 0) [] Fat.sampleEntry [0x61, 0x62, 0x63] none =
      some (.error .kInvalidFile, s') ∧ ¬ NoTrace idleState s' := by
  obtain ⟨s', hresult, hlaunched⟩ := executeFile_abcVolume
  exact ⟨s', hresult, hlaunched.not_noTrace (by decide)⟩

theorem executeFile_noTrace_iff_abcVolume : ∃ s',
    idleState.executeFile Fat.abcVolume (fun _ ↦ 0) [] Fat.sampleEntry [0x61, 0x62, 0x63] none =
      some (.error .kInvalidFile, s') ∧
        (NoTrace idleState s' ↔ idleState.machine.memoryManager.freeFrames = ∅) := by
  obtain ⟨s', hresult, -⟩ := executeFile_abcVolume
  exact ⟨s', hresult, executeFile_noTrace_iff (by decide) hresult⟩

end App
end MinOS
