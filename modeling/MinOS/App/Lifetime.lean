import MinOS.App.Frames
import MinOS.Library.Transition
import MinOS.Terminal.Screen

/-!
# Lifetimes of applications

Calls of `ExecuteFile` by several tasks, interleaved step by step.  A call loads its
application, runs it with page faults, and gives its frames back.
-/

namespace MinOS
namespace App
namespace Lifetime

open Paging Paging.Machine Ownership Transition

/-- How far a call of `ExecuteFile` has come.  A call that failed after `LoadApp` keeps what it
has. -/
inductive Phase where
  | loaded
  | stackReady
  | running
  | failed
  | cleaned
deriving DecidableEq

/-- The fields of a task that `ExecuteFile` and the page faults of its application use. -/
structure AppTask extends FaultTask where
  cr3 : ℕ
  contextCr3 : ℕ
  fileMapEnd : ℕ

/-- A call of `ExecuteFile` after `LoadApp`, with its local variables. -/
structure Call extends AppTask where
  fileEntry : ℕ
  appLoad : AppLoadInfo
  phase : Phase

/-- Memory, `app_loads` and the calls, which are numbered.  The calls of one task follow one
another, those of different tasks are interleaved. -/
structure System where
  mem : ℕ → ℕ → PageMapEntry
  memoryManager : BitmapMemoryManager
  appLoads : ℕ → Option AppLoadInfo
  calls : ℕ → Option Call

inductive Op where
  | loadApp (n : ℕ) (task : AppTask) (v : Fat.Volume) (behind : ℕ → UInt8) (fileEntry : ℕ)
  | setupStack (n : ℕ)
  | setupArgs (n : ℕ) (terminalFiles : List (Option OpenFile)) (command : List UInt8)
      (firstArg : Option (List UInt8))
  | store (n vaddr : ℕ) (bytes : List UInt8)
  | systemCall (n : ℕ) (task : FaultTask) (fileMapEnd : ℕ)
  | pageFault (n : ℕ) (v : Fat.Volume) (errorCode causalAddr : ℕ)
  | cleanPageMaps (n : ℕ)
  | freePML4 (n : ℕ)

/-- The call that takes the step. -/
def Op.call : Op → ℕ
  | .loadApp n _ _ _ _ => n
  | .setupStack n => n
  | .setupArgs n _ _ _ => n
  | .store n _ _ => n
  | .systemCall n _ _ => n
  | .pageFault n _ _ _ => n
  | .cleanPageMaps n => n
  | .freePML4 n => n

namespace System

/-- What a task with this CR3 works on. -/
def machine (s : System) (cr3 : ℕ) : Machine := ⟨s.mem, s.memoryManager, cr3⟩

/-- A call has worked on the memory. -/
def update (s : System) (m : Machine) (n : ℕ) (c : Option Call) : System where
  mem := m.mem
  memoryManager := m.memoryManager
  appLoads := s.appLoads
  calls := Function.update s.calls n c

@[simp] theorem calls_update (s : System) (m : Machine) (n : ℕ) (c : Option Call) :
    (s.update m n c).calls n = c := by
  simp [update]

/-- `LoadApp` for a call that begins. -/
def loadApp (s : System) (n : ℕ) (task : AppTask) (v : Fat.Volume) (behind : ℕ → UInt8)
    (fileEntry : ℕ) : Option System :=
  if (s.calls n).isSome then none
  else
    (LaunchState.loadApp v behind fileEntry
      ⟨task.toFaultTask, s.machine task.cr3, task.contextCr3, task.fileMapEnd, s.appLoads⟩).bind
      fun r ↦
        match r with
        | (.error _, _) => none
        | (.ok appLoad, l) => some
            { mem := l.machine.mem
              memoryManager := l.machine.memoryManager
              appLoads := l.appLoads
              calls := Function.update s.calls n (some
                ⟨⟨l.toFaultTask, l.machine.cr3, l.contextCr3, l.fileMapEnd⟩, fileEntry, appLoad,
                  .loaded⟩) }

/-- `SetupPageMaps` for the stack. -/
def setupStack (s : System) (n : ℕ) (c : Call) : Option System :=
  let stack := (s.machine c.cr3).setupPageMaps (.ofValue stackFrameAddr) 0x100 true
  match stack.result with
  | .error _ => none
  | .ok _ => some (s.update stack.machine n (some { c with phase := .stackReady }))

/-- `SetupPageMaps` for the arguments, and what follows up to `CallApp`. -/
def setupArgs (s : System) (n : ℕ) (terminalFiles : List (Option OpenFile)) (command : List UInt8)
    (firstArg : Option (List UInt8)) (c : Call) : Option System :=
  let args := (s.machine c.cr3).setupPageMaps (.ofValue argsFrameAddr) 1 true
  match args.result with
  | .error _ => none
  | .ok _ =>
      (makeArgVector args.machine command firstArg).map fun r ↦
        match r with
        | (.error _, av) => s.update av.machine n (some { c with phase := .failed })
        | (.ok (), av) =>
            let elfNextPage := pageDown (uint64Add c.appLoad.vaddrEnd 4095)
            s.update av.machine n (some
              { c with
                files := c.files ++ terminalFiles
                dpagingBegin := elfNextPage
                dpagingEnd := elfNextPage
                fileMapEnd := stackFrameAddr
                phase := .running })

/-- Bytes that the application or a system call stores. -/
def store (s : System) (n vaddr : ℕ) (bytes : List UInt8) (c : Call) : Option System :=
  ((s.machine c.cr3).storeBytes vaddr bytes).map fun m ↦ s.update m n (some c)

/-- System calls change the files and the regions of the task. -/
def systemCall (s : System) (n : ℕ) (task : FaultTask) (fileMapEnd : ℕ) (c : Call) : System :=
  s.update (s.machine c.cr3) n
    (some { c with toFaultTask := task, fileMapEnd := fileMapEnd })

/-- An application whose fault is not resolved is killed, without a change of the memory. -/
def pageFault (s : System) (n : ℕ) (v : Fat.Volume) (errorCode causalAddr : ℕ) (c : Call) :
    Option System :=
  (handlePageFault v c.toFaultTask (s.machine c.cr3) errorCode causalAddr).bind fun r ↦
    match r with
    | (.error _, _) => none
    | (.ok (), m) => some (s.update m n (some c))

def cleanPageMaps (s : System) (n : ℕ) (c : Call) : System × List ℕ :=
  let cleaned := (s.machine c.cr3).cleanPageMaps (.ofValue 0xffff800000000000)
  (s.update cleaned.machine n (some { c with files := [], fileMaps := [], phase := .cleaned }),
    cleaned.freed)

/-- The call returns, and its task goes back to the page maps of the kernel. -/
def freePML4 (s : System) (n : ℕ) (c : Call) : System × List ℕ :=
  (s.update ((s.machine c.cr3).freeFrame (c.contextCr3 / 4096)) n none, [c.contextCr3 / 4096])

/-- The call, if it has come so far. -/
def callIn (s : System) (n : ℕ) (phase : Phase) : Option Call :=
  (s.calls n).filter fun c ↦ c.phase = phase

/-- A step, with the frames that it frees.  There is none when an allocation fails. -/
def exec (s : System) : Op → Option (System × List ℕ)
  | .loadApp n task v behind fileEntry => (s.loadApp n task v behind fileEntry).map (·, [])
  | .setupStack n => ((s.callIn n .loaded).bind (s.setupStack n)).map (·, [])
  | .setupArgs n terminalFiles command firstArg =>
      ((s.callIn n .stackReady).bind (s.setupArgs n terminalFiles command firstArg)).map (·, [])
  | .store n vaddr bytes => ((s.callIn n .running).bind (s.store n vaddr bytes)).map (·, [])
  | .systemCall n task fileMapEnd =>
      (s.callIn n .running).map fun c ↦ (s.systemCall n task fileMapEnd c, [])
  | .pageFault n v errorCode causalAddr =>
      ((s.callIn n .running).bind (s.pageFault n v errorCode causalAddr)).map (·, [])
  | .cleanPageMaps n => (s.callIn n .running).map (s.cleanPageMaps n)
  | .freePML4 n => (s.callIn n .cleaned).map (s.freePML4 n)

/-- The frames that the page maps below a PML4 lead to, with its own. -/
def framesOf (s : System) (pml4 : ℕ) : Set ℕ := imageFrames (s.machine pml4) pml4

def Allocated (s : System) (f : ℕ) : Prop := s.memoryManager.getBit f = true

/-- The frame belongs to an image in `app_loads`. -/
def ImageHolds (s : System) (f : ℕ) : Prop :=
  ∃ fileEntry app, s.appLoads fileEntry = some app ∧ f ∈ s.framesOf app.pml4

/-- The frame is reachable from the address space of a call, or of one other than `n`. -/
def CallHolds (s : System) (f : ℕ) : Prop :=
  ∃ n c, s.calls n = some c ∧ f ∈ s.framesOf c.appLoad.pml4

def OtherHolds (s : System) (n f : ℕ) : Prop :=
  ∃ k c, k ≠ n ∧ s.calls k = some c ∧ f ∈ s.framesOf c.appLoad.pml4

end System

/-- Images are loaded below the stack, a command line is shorter than `kLineMax`, stores go to the
user half, and a fault is one that the processor raises. -/
def Admissible (s : System) : Op → Prop
  | .loadApp _ _ v behind fileEntry => s.appLoads fileEntry = none → ∀ image,
      fileBuf v behind fileEntry = some image →
        ∀ ph ∈ programHeaders image, ph.pType = ptLoad → ph.BelowStack
  | .setupArgs _ _ command firstArg =>
      command.length < kLineMax ∧ (firstArg.getD []).length < kLineMax
  | .store _ vaddr bytes => bytes ≠ [] → userBase ≤ vaddr ∧ vaddr + bytes.length ≤ 2 ^ 64
  | .pageFault n _ errorCode causalAddr => ∀ c, s.calls n = some c →
      Raises (s.machine c.cr3) errorCode causalAddr
  | _ => True

def Step (s : System) (op : Op) (s' : System) : Prop :=
  Admissible s op ∧ ∃ freed, s.exec op = some (s', freed)

/-- No fault is handled at an address of the kernel. -/
def UserFaults (_ : System) : Op → Prop
  | .pageFault _ _ _ causalAddr => userBase ≤ causalAddr
  | _ => True

/-- No application has been loaded. -/
structure System.Fresh (s : System) : Prop where
  rangeEnd : s.memoryManager.rangeEnd ≤ kFrameCount
  appLoads : ∀ fileEntry, s.appLoads fileEntry = none
  calls : ∀ n, s.calls n = none

/-! ## The address spaces of a system -/

namespace System

/-- The PML4s of the images and of the calls. -/
def root (s : System) : AppSpace → Option ℕ
  | .image fileEntry => (s.appLoads fileEntry).map AppLoadInfo.pml4
  | .app fileEntry n => (s.calls n).bind fun c ↦
      if c.fileEntry = fileEntry then some c.appLoad.pml4 else none

/-- The page map entries of the address spaces. -/
noncomputable def entry (s : System) (x : AppSpace) (k : ℕ × ℕ) : Option (ℕ × Bool) :=
  ((s.machine 0).spaces s.root).entry x k

end System

/-- The frames are accounted for, the images lie below the stack, and the calls work on their own
page maps. -/
structure Inv (base : ℕ → Prop) (s : System) : Prop where
  accounted : Accounted appPolicy (s.machine 0) s.root base
  pages : ∀ {fileEntry p f w}, s.entry (.image fileEntry) (3, p) = some (f, w) → p < stackPage
  calls : ∀ {n c}, s.calls n = some c → c.cr3 = c.appLoad.pml4 ∧
    c.contextCr3 = c.appLoad.pml4 * 4096 ∧
      (c.phase = .cleaned → ∀ k, s.entry (.app c.fileEntry n) k = none)

/-- Only the address space of the call `n` may have changed, and images may have been added. -/
structure Moves (n : ℕ) (s s' : System) : Prop where
  calls : ∀ k, k ≠ n → s'.calls k = s.calls k
  images : ∀ {fileEntry app}, s.appLoads fileEntry = some app → s'.appLoads fileEntry = some app
  entries : ∀ {x r} (k : ℕ × ℕ), (∀ fileEntry, x ≠ .app fileEntry n) → s.root x = some r →
    s'.entry x k = s.entry x k

/-- What a step of the call `n` guarantees. -/
structure Keeps (base : ℕ → Prop) (n : ℕ) (s s' : System) (freed : List ℕ) : Prop where
  inv : Inv base s'
  moves : Moves n s s'
  nodup : freed.Nodup
  freed : ∀ f ∈ freed, s.Allocated f ∧ ¬ s'.Allocated f

theorem spaces_of_mem {ι : Type*} {m m' : Machine} (h : m'.mem = m.mem) (root : ι → Option ℕ) :
    m'.spaces root = m.spaces root :=
  (spaces_congr fun _ _ _ ↦ by rw [h]).1

section Spaces

variable {s s' : System} {base : ℕ → Prop} {n : ℕ} {c c' : Call} {m : Machine}

theorem root_app (hc : s.calls n = some c) : s.root (.app c.fileEntry n) = some c.appLoad.pml4 := by
  simp [System.root, hc]

theorem root_app_of_none (hn : s.calls n = none) (fileEntry : ℕ) :
    s.root (.app fileEntry n) = none := by
  simp [System.root, hn]

/-- The spaces are the same for every CR3. -/
theorem entry_machine (s : System) (cr3 : ℕ) (x : AppSpace) (k : ℕ × ℕ) :
    ((s.machine cr3).spaces s.root).entry x k = s.entry x k := by
  have hmem : (s.machine cr3).mem = (s.machine 0).mem := rfl
  rw [System.entry, spaces_of_mem hmem]

theorem Inv.machine (h : Inv base s) (cr3 : ℕ) :
    Accounted appPolicy (s.machine cr3) s.root base := by
  have hsame : (s.machine cr3).memoryManager = (s.machine 0).memoryManager := rfl
  exact (h.accounted.of_pages hsame fun _ _ _ ↦ rfl).1

theorem Inv.root (h : Inv base s) (hc : s.calls n = some c) :
    s.root (.app c.fileEntry n) = some (s.machine c.cr3).cr3 :=
  (root_app hc).trans (congrArg some (h.calls hc).1.symm)

theorem Moves.roots (h : Moves n s s') {x : AppSpace} {r : ℕ} (hx : ∀ fileEntry, x ≠ .app fileEntry n)
    (hroot : s.root x = some r) : s'.root x = some r := by
  cases x with
  | image fileEntry =>
      obtain ⟨app, happ, rfl⟩ := Option.map_eq_some_iff.mp hroot
      simp [System.root, h.images happ]
  | app fileEntry k =>
      have hk : k ≠ n := by
        rintro rfl
        exact hx fileEntry rfl
      simpa [System.root, h.calls k hk] using hroot

theorem Moves.refl (n : ℕ) (s : System) : Moves n s s := ⟨fun _ _ ↦ rfl, id, fun _ _ _ ↦ rfl⟩

theorem Moves.trans {s'' : System} (h : Moves n s s') (h' : Moves n s' s'') : Moves n s s'' where
  calls := fun k hk ↦ (h'.calls k hk).trans (h.calls k hk)
  images := fun happ ↦ h'.images (h.images happ)
  entries := fun k hx hroot ↦
    (h'.entries k hx (h.roots hx hroot)).trans (h.entries k hx hroot)

/-- The root stays while the call goes on with its address space. -/
theorem root_update (hc : s.calls n = some c) (m : Machine) (hfile : c'.fileEntry = c.fileEntry)
    (hload : c'.appLoad = c.appLoad) : (s.update m n (some c')).root = s.root := by
  funext x
  cases x with
  | image fileEntry => rfl
  | app fileEntry k =>
      by_cases hk : k = n
      · subst hk
        simp [System.root, System.update, hc, hfile, hload]
      · simp [System.root, System.update, hk]

end Spaces

/-! ## Steps -/

section Steps

variable {s s' : System} {base : ℕ → Prop} {n : ℕ} {c c' : Call} {m : Machine} {freed : List ℕ}

/-- A step that changes the address space of its call. -/
theorem keeps_of_updates (h : Inv base s) (hc : s.calls n = some c)
    (hupdates : Updates appPolicy s.root base (.app c.fileEntry n) Set.univ (s.machine c.cr3) m)
    (hfile : c'.fileEntry = c.fileEntry) (hload : c'.appLoad = c.appLoad) (hcr3 : c'.cr3 = c.cr3)
    (hcontext : c'.contextCr3 = c.contextCr3) (hclean : c'.phase = .cleaned →
      ∀ k, (m.spaces s.root).entry (.app c.fileEntry n) k = none) :
    Inv base (s.update m n (some c')) ∧ Moves n s (s.update m n (some c')) := by
  have hroot := root_update hc m hfile hload
  have hmem : ((s.update m n (some c')).machine 0).mem = m.mem := rfl
  have hmm : ((s.update m n (some c')).machine 0).memoryManager = m.memoryManager := rfl
  have hentry : ∀ x k, (s.update m n (some c')).entry x k = (m.spaces s.root).entry x k := by
    intro x k
    rw [System.entry, hroot, spaces_of_mem hmem]
  have hsame : ∀ x k, x ≠ .app c.fileEntry n → (s.update m n (some c')).entry x k = s.entry x k := by
    intro x k hx
    rw [hentry, hupdates.changes.same fun heq ↦ absurd heq hx, entry_machine]
  refine ⟨⟨?_, ?_, ?_⟩, ⟨?_, id, ?_⟩⟩
  · rw [hroot]
    exact (hupdates.accounted.of_pages hmm fun _ _ _ ↦ rfl).1
  · intro fileEntry p f w hf
    rw [hsame _ _ (image_ne_app fileEntry c.fileEntry n)] at hf
    exact h.pages hf
  · intro k call hcall
    by_cases hk : k = n
    · subst hk
      obtain rfl : c' = call := by simpa [System.update] using hcall
      obtain ⟨hpml4, haddr, -⟩ := h.calls hc
      rw [hcr3, hcontext, hload, hfile]
      exact ⟨hpml4, haddr, fun hphase k' ↦ (hentry _ _).trans (hclean hphase k')⟩
    · have hold : s.calls k = some call := by simpa [System.update, hk] using hcall
      obtain ⟨hpml4, haddr, hempty⟩ := h.calls hold
      refine ⟨hpml4, haddr, fun hphase k' ↦ ?_⟩
      rw [hsame _ _ fun heq ↦ hk (by injection heq)]
      exact hempty hphase k'
  · intro k hk
    simp [System.update, hk]
  · intro x r k hx _
    exact hsame x k (hx c.fileEntry)

/-- A step that frees no frame. -/
theorem keeps_of_moves (h : Inv base s' ∧ Moves n s s') : Keeps base n s s' [] :=
  ⟨h.1, h.2, List.nodup_nil, by simp⟩

/-- From the stack on a call has only pages of its own. -/
theorem own_of_stackPage (h : Inv base s) {fileEntry p f : ℕ} {w : Bool} (hp : stackPage ≤ p)
    (hf : s.entry (.app fileEntry n) (3, p) = some (f, w)) : w = true := by
  by_contra hw
  have howns := h.accounted.separated.shared ((h.accounted.leaf _).mpr rfl) hf hw
  obtain ⟨w', himage, -⟩ := howns
  exact absurd (h.pages himage) (not_lt.mpr hp)

theorem updates_setupStackPages (h : Inv base s) (hc : s.calls n = some c) {a k : ℕ}
    (ha : stackPage ≤ pageOf a) :
    Updates appPolicy s.root base (.app c.fileEntry n) Set.univ (s.machine c.cr3)
      ((s.machine c.cr3).setupPageMaps (.ofValue a) k true).machine := by
  refine updates_setupPageMaps (h.machine _) (h.root hc) rfl (LinearAddress4Level.valid_ofValue a) ?_
  rw [← pageOf_eq]
  have hpage : stackPage = 2 ^ 36 - 1 - 0x100 := rfl
  intro p hlow hhigh hlt
  refine ⟨?_, fun f w hf ↦ own_of_stackPage h (ha.trans hlow) ((entry_machine s _ _ _).symm.trans hf)⟩
  change 256 ≤ p / 512 ^ 3
  omega

theorem keeps_setupStack (h : Inv base s) (hc : s.calls n = some c)
    (hexec : s.setupStack n c = some s') : Keeps base n s s' [] := by
  have hupdates := updates_setupStackPages h hc (a := stackFrameAddr) (k := 0x100) le_rfl
  rw [System.setupStack] at hexec
  cases hresult : ((s.machine c.cr3).setupPageMaps (.ofValue stackFrameAddr) 0x100 true).result with
  | error err =>
      rw [hresult] at hexec
      cases hexec
  | ok r =>
      rw [hresult] at hexec
      obtain rfl := Option.some.inj hexec
      exact keeps_of_moves (keeps_of_updates h hc hupdates rfl rfl rfl rfl nofun)

theorem keeps_setupArgs (h : Inv base s) (hc : s.calls n = some c)
    {terminalFiles : List (Option OpenFile)} {command : List UInt8} {firstArg : Option (List UInt8)}
    (hcommand : command.length < kLineMax) (hargs : (firstArg.getD []).length < kLineMax)
    (hexec : s.setupArgs n terminalFiles command firstArg c = some s') : Keeps base n s s' [] := by
  have hupdates := updates_setupStackPages h hc (a := argsFrameAddr) (k := 1) (by decide)
  rw [System.setupArgs] at hexec
  cases hresult : ((s.machine c.cr3).setupPageMaps (.ofValue argsFrameAddr) 1 true).result with
  | error err =>
      rw [hresult] at hexec
      cases hexec
  | ok r =>
      rw [hresult] at hexec
      obtain ⟨⟨result, av⟩, hvector, rfl⟩ := Option.map_eq_some_iff.mp hexec
      have hfit : command.length + (firstArg.getD []).length + 1 < argbufLen := by
        have hbuf : argbufLen = 30 * kLineMax := rfl
        have hmax : kLineMax = 128 := rfl
        omega
      have hstored := updates_makeArgVector hupdates.accounted (hupdates.cr3 ▸ h.root hc) hfit hvector
      have hboth := hupdates.trans (hstored.mono (Set.empty_subset _))
      cases result with
      | error err => exact keeps_of_moves (keeps_of_updates h hc hboth rfl rfl rfl rfl nofun)
      | ok u => exact keeps_of_moves (keeps_of_updates h hc hboth rfl rfl rfl rfl nofun)

theorem keeps_store (h : Inv base s) (hc : s.calls n = some c) (hphase : c.phase = .running)
    {vaddr : ℕ} {bytes : List UInt8}
    (hfit : bytes ≠ [] → userBase ≤ vaddr ∧ vaddr + bytes.length ≤ 2 ^ 64)
    (hexec : s.store n vaddr bytes c = some s') : Keeps base n s s' [] := by
  obtain ⟨m, hstore, rfl⟩ := Option.map_eq_some_iff.mp hexec
  have hstored := (h.machine c.cr3).storeBytes (h.root hc) hfit hstore
  exact keeps_of_moves (keeps_of_updates h hc (hstored.mono (Set.empty_subset _)) rfl rfl rfl rfl
    (by simp [hphase]))

theorem keeps_systemCall (h : Inv base s) (hc : s.calls n = some c) (hphase : c.phase = .running)
    (task : FaultTask) (fileMapEnd : ℕ) : Keeps base n s (s.systemCall n task fileMapEnd c) [] :=
  keeps_of_moves (keeps_of_updates h hc (.refl (h.machine c.cr3) _ _) rfl rfl rfl rfl
    (by simp [hphase]))

theorem keeps_pageFault (h : Inv base s) (hc : s.calls n = some c) (hphase : c.phase = .running)
    {v : Fat.Volume} {errorCode a : ℕ} (hlow : userBase ≤ a)
    (hraises : Raises (s.machine c.cr3) errorCode a)
    (hexec : s.pageFault n v errorCode a c = some s') : Keeps base n s s' [] := by
  obtain ⟨⟨result, m⟩, hfault, hexec⟩ := Option.bind_eq_some_iff.mp hexec
  cases result with
  | error err => cases hexec
  | ok u =>
      obtain rfl := Option.some.inj hexec
      have hupdates := updates_handlePageFault (h.machine c.cr3) (h.root hc) rfl hlow hraises hfault
      exact keeps_of_moves (keeps_of_updates h hc hupdates rfl rfl rfl rfl (by simp [hphase]))

theorem keeps_cleanPageMaps (h : Inv base s) (hc : s.calls n = some c) :
    Keeps base n s (s.cleanPageMaps n c).1 (s.cleanPageMaps n c).2 := by
  have hemptied := (h.machine c.cr3).cleanPageMaps rfl (template_ne_app · c.fileEntry n) (h.root hc)
  obtain ⟨hinv, hmoves⟩ : Inv base (s.cleanPageMaps n c).1 ∧ Moves n s (s.cleanPageMaps n c).1 :=
    keeps_of_updates h hc hemptied.toUpdates rfl rfl rfl rfl fun _ k ↦ hemptied.empty k trivial
  refine ⟨hinv, hmoves, hemptied.frees.nodup, fun f hf ↦ ⟨hemptied.frees.allocated f hf, fun hbit ↦ ?_⟩⟩
  exact ((hemptied.frees.getBit f).mp hbit).2 hf

theorem root_update_none (hc : s.calls n = some c) (m : Machine) :
    (s.update m n none).root = Function.update s.root (.app c.fileEntry n) none := by
  funext x
  cases x with
  | image fileEntry => rw [Function.update_of_ne (image_ne_app _ _ _)]; rfl
  | app fileEntry k =>
      by_cases hk : k = n
      · subst hk
        by_cases hfile : c.fileEntry = fileEntry
        · subst hfile
          simp [System.root, System.update]
        · have hne : AppSpace.app fileEntry k ≠ .app c.fileEntry k := fun heq ↦
            hfile (by injection heq with hfile'; exact hfile'.symm)
          rw [Function.update_of_ne hne]
          simp [System.root, System.update, hc, hfile]
      · have hne : AppSpace.app fileEntry k ≠ .app c.fileEntry n := fun heq ↦
          hk (by injection heq)
        rw [Function.update_of_ne hne]
        simp [System.root, System.update, hk]

theorem keeps_freePML4 (h : Inv base s) (hc : s.calls n = some c) (hphase : c.phase = .cleaned) :
    Keeps base n s (s.freePML4 n c).1 (s.freePML4 n c).2 := by
  obtain ⟨-, haddr, hempty⟩ := h.calls hc
  have hframe : c.contextCr3 / 4096 = c.appLoad.pml4 := by
    rw [haddr]
    exact Nat.mul_div_cancel _ (by decide)
  obtain ⟨s', hs'⟩ : ∃ s', s' = (s.freePML4 n c).1 := ⟨_, rfl⟩
  have hmem : (s'.machine 0).mem = (s.machine 0).mem := by rw [hs']; rfl
  have hmm : (s'.machine 0).memoryManager =
      (s.machine 0).memoryManager.free c.appLoad.pml4 1 := by
    rw [hs', ← hframe]
    rfl
  have hroot : s'.root = Function.update s.root (.app c.fileEntry n) none := by
    rw [hs']
    exact root_update_none hc _
  obtain ⟨h', hspaces⟩ := h.accounted.removeRoot (root_app hc) (hempty hphase) hmem hmm
  have hentry : ∀ x k, s'.entry x k = s.entry x k := by
    intro x k
    rw [System.entry, hroot, hspaces, Spaces.setRoot_entry]
    rfl
  have hcalls : ∀ k, k ≠ n → s'.calls k = s.calls k := by
    intro k hk
    rw [hs']
    exact Function.update_of_ne hk _ _
  rw [← hs']
  refine ⟨⟨hroot ▸ h', fun hf ↦ h.pages ((hentry _ _).symm.trans hf), fun {k call} hcall ↦ ?_⟩,
    ⟨hcalls, ?_, fun k _ _ ↦ hentry _ k⟩, List.nodup_singleton _, ?_⟩
  · have hk : k ≠ n := by
      rintro rfl
      rw [hs'] at hcall
      simp [System.freePML4, System.update] at hcall
    obtain ⟨hpml4, hcontext, hcleaned⟩ := h.calls ((hcalls k hk).symm.trans hcall)
    exact ⟨hpml4, hcontext, fun hphase k' ↦ (hentry _ _).trans (hcleaned hphase k')⟩
  · rw [hs']
    exact id
  · intro f hf
    obtain rfl : f = c.appLoad.pml4 := (List.mem_singleton.mp hf).trans hframe
    refine ⟨h.accounted.separated.alloc_of_owns (o := .root (.app c.fileEntry n)) (root_app hc), ?_⟩
    have hbit := (Accounted.getBit_free_iff (m := s.machine 0) c.appLoad.pml4 c.appLoad.pml4).mp
    rw [← hmm] at hbit
    exact fun halloc ↦ (hbit halloc).1 rfl

/-- The roots after `LoadApp`, which may have added an image. -/
theorem root_loadApp (hn : s.calls n = none) {fileEntry : ℕ} {first : AppLoadInfo}
    (happLoads : s'.appLoads = Function.update s.appLoads fileEntry (some first))
    (hcalls : s'.calls = Function.update s.calls n (some c)) (hfile : c.fileEntry = fileEntry) :
    s'.root = Function.update (Function.update s.root (.image fileEntry) (some first.pml4))
      (.app fileEntry n) (some c.appLoad.pml4) := by
  funext x
  cases x with
  | image g =>
      rw [Function.update_of_ne (image_ne_app _ _ _), System.root, happLoads]
      by_cases hg : g = fileEntry
      · rw [hg, Function.update_self, Function.update_self, Option.map_some]
      · rw [Function.update_of_ne hg, Function.update_of_ne (by simpa using hg)]
        rfl
  | app g k =>
      rw [System.root, hcalls]
      by_cases hk : k = n
      · subst hk
        rw [Function.update_self, Option.bind_some]
        split_ifs with hg
        · rw [← hg, hfile, Function.update_self]
        · have hne : g ≠ fileEntry := fun heq ↦ hg (hfile.trans heq.symm)
          rw [Function.update_of_ne (by simpa using hne),
            Function.update_of_ne (image_ne_app _ _ _).symm, root_app_of_none hn]
      · rw [Function.update_of_ne hk, Function.update_of_ne (by simp [hk]),
          Function.update_of_ne (image_ne_app _ _ _).symm]
        rfl

theorem keeps_loadApp (h : Inv base s) {task : AppTask} {v : Fat.Volume} {behind : ℕ → UInt8}
    {fileEntry : ℕ} (hadmissible : Admissible s (.loadApp n task v behind fileEntry))
    (hexec : s.loadApp n task v behind fileEntry = some s') : Keeps base n s s' [] := by
  rw [System.loadApp] at hexec
  split_ifs at hexec with hcall
  have hn : s.calls n = none := by simpa using hcall
  obtain ⟨⟨result, l⟩, hload, hexec⟩ := Option.bind_eq_some_iff.mp hexec
  cases result with
  | error err => cases hexec
  | ok appLoad =>
      obtain ⟨l₀, hl₀⟩ : ∃ l₀ : LaunchState, l₀ = ⟨task.toFaultTask, s.machine task.cr3,
        task.contextCr3, task.fileMapEnd, s.appLoads⟩ := ⟨_, rfl⟩
      have hmachine₀ : l₀.machine = s.machine task.cr3 := by rw [hl₀]
      have happLoads₀ : l₀.appLoads = s.appLoads := by rw [hl₀]
      rw [← hl₀] at hload
      obtain ⟨root', first, hloaded⟩ := loaded_loadApp (hmachine₀ ▸ h.machine task.cr3)
        (root_app_of_none hn fileEntry) (by rw [happLoads₀]; rfl)
        (fun hnone ↦ hadmissible (happLoads₀ ▸ hnone)) hload
      have hs' := (Option.some.inj hexec).symm
      have happLoads : s'.appLoads = Function.update s.appLoads fileEntry (some first) := by
        rw [hs', ← happLoads₀, ← hloaded.appLoads]
      have hcalls : s'.calls = Function.update s.calls n (some ⟨⟨l.toFaultTask, l.machine.cr3,
          l.contextCr3, l.fileMapEnd⟩, fileEntry, appLoad, .loaded⟩) := by
        rw [hs']
      have hroot : s'.root = root' := (root_loadApp hn happLoads hcalls rfl).trans hloaded.roots.symm
      have hmem : (s'.machine 0).mem = l.machine.mem := by rw [hs']; rfl
      have hmm : (s'.machine 0).memoryManager = l.machine.memoryManager := by rw [hs']; rfl
      have hentry : ∀ x k, s'.entry x k = (l.machine.spaces root').entry x k := by
        intro x k
        rw [System.entry, hroot, spaces_of_mem hmem]
      have hkept : ∀ {x r} k, s.root x = some r → s'.entry x k = s.entry x k := fun {x r} k hx ↦ by
        rw [hentry, hloaded.keeps.entries k hx, hmachine₀]
        exact entry_machine s task.cr3 x k
      refine keeps_of_moves ⟨⟨?_, ?_, ?_⟩, ⟨fun k hk ↦ by rw [hcalls, Function.update_of_ne hk], ?_,
        fun k _ hx ↦ hkept k hx⟩⟩
      · rw [hroot]
        exact (hloaded.accounted.of_pages hmm fun _ _ _ ↦ by rw [hmem]).1
      · intro g p f w hf
        cases hg : s.root (.image g) with
        | some r => exact h.pages ((hkept _ hg).symm.trans hf)
        | none =>
            have happ : s.appLoads g = none := Option.map_eq_none_iff.mp hg
            by_cases hfile : g = fileEntry
            · subst hfile
              exact hloaded.pages (happLoads₀ ▸ happ) ((hentry _ _).symm.trans hf)
            · have hnone : s'.root (.image g) = none := by
                rw [System.root, happLoads, Function.update_of_ne hfile, happ, Option.map_none]
              rw [System.entry, spaces_entry_of_root hnone] at hf
              cases hf
      · intro k call hcall
        rw [hcalls] at hcall
        by_cases hk : k = n
        · subst hk
          rw [Function.update_self] at hcall
          obtain rfl := Option.some.inj hcall
          exact ⟨hloaded.cr3, hloaded.contextCr3, nofun⟩
        · rw [Function.update_of_ne hk] at hcall
          obtain ⟨hpml4, hcontext, hcleaned⟩ := h.calls hcall
          exact ⟨hpml4, hcontext, fun hphase k' ↦ (hkept _ (root_app hcall)).trans (hcleaned hphase k')⟩
      · intro g app happ
        rw [happLoads]
        by_cases hg : g = fileEntry
        · subst hg
          rw [Function.update_self, hloaded.cached ((congrFun happLoads₀ g).trans happ)]
        · rw [Function.update_of_ne hg, happ]

theorem callIn_eq_some {phase : Phase} (h : s.callIn n phase = some c) :
    s.calls n = some c ∧ c.phase = phase := by
  simpa [System.callIn] using h

/-- Every step keeps the frames accounted for. -/
theorem keeps_exec (h : Inv base s) {op : Op} (hfault : UserFaults s op) (hop : Admissible s op)
    (hexec : s.exec op = some (s', freed)) : Keeps base op.call s s' freed := by
  cases op with
  | loadApp n task v behind fileEntry =>
      obtain ⟨s₁, hload, heq⟩ := Option.map_eq_some_iff.mp hexec
      obtain ⟨rfl, rfl⟩ := Prod.mk.inj heq
      exact keeps_loadApp h hop hload
  | setupStack n =>
      obtain ⟨s₁, hstack, heq⟩ := Option.map_eq_some_iff.mp hexec
      obtain ⟨rfl, rfl⟩ := Prod.mk.inj heq
      obtain ⟨c, hin, hstack⟩ := Option.bind_eq_some_iff.mp hstack
      exact keeps_setupStack h (callIn_eq_some hin).1 hstack
  | setupArgs n terminalFiles command firstArg =>
      obtain ⟨s₁, hargs, heq⟩ := Option.map_eq_some_iff.mp hexec
      obtain ⟨rfl, rfl⟩ := Prod.mk.inj heq
      obtain ⟨c, hin, hargs⟩ := Option.bind_eq_some_iff.mp hargs
      exact keeps_setupArgs h (callIn_eq_some hin).1 hop.1 hop.2 hargs
  | store n vaddr bytes =>
      obtain ⟨s₁, hstore, heq⟩ := Option.map_eq_some_iff.mp hexec
      obtain ⟨rfl, rfl⟩ := Prod.mk.inj heq
      obtain ⟨c, hin, hstore⟩ := Option.bind_eq_some_iff.mp hstore
      obtain ⟨hc, hphase⟩ := callIn_eq_some hin
      exact keeps_store h hc hphase hop hstore
  | systemCall n task fileMapEnd =>
      obtain ⟨c, hin, heq⟩ := Option.map_eq_some_iff.mp hexec
      obtain ⟨rfl, rfl⟩ := Prod.mk.inj heq
      obtain ⟨hc, hphase⟩ := callIn_eq_some hin
      exact keeps_systemCall h hc hphase task fileMapEnd
  | pageFault n v errorCode causalAddr =>
      obtain ⟨s₁, hfaulted, heq⟩ := Option.map_eq_some_iff.mp hexec
      obtain ⟨rfl, rfl⟩ := Prod.mk.inj heq
      obtain ⟨c, hin, hfaulted⟩ := Option.bind_eq_some_iff.mp hfaulted
      obtain ⟨hc, hphase⟩ := callIn_eq_some hin
      exact keeps_pageFault h hc hphase hfault (hop c hc) hfaulted
  | cleanPageMaps n =>
      obtain ⟨c, hin, heq⟩ := Option.map_eq_some_iff.mp hexec
      obtain ⟨rfl, rfl⟩ := Prod.mk.inj heq
      exact keeps_cleanPageMaps h (callIn_eq_some hin).1
  | freePML4 n =>
      obtain ⟨c, hin, heq⟩ := Option.map_eq_some_iff.mp hexec
      obtain ⟨rfl, rfl⟩ := Prod.mk.inj heq
      obtain ⟨hc, hphase⟩ := callIn_eq_some hin
      exact keeps_freePML4 h hc hphase

end Steps

end Lifetime
end App
end MinOS
