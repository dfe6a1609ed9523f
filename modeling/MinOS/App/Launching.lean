import MinOS.App.ElfConfined
import MinOS.App.Lifetime

/-!
# Launches that succeed

With enough free frames an application without pages is loaded, and its call comes to the point
where the application runs.  The kernel's page maps stay as they are.
-/

namespace MinOS
namespace App

open Paging Paging.Machine PageMapEntry Ownership Transition

/-! ## The first page -/

/-- The entries that lead to the first page of the identity mapping. -/
structure FirstPage (m : Machine) (pdpt pd : ℕ) : Prop where
  pml4 : (m.mem m.cr3 0).present = true ∧ (m.mem m.cr3 0).pointer = pdpt
  supervisor : (m.mem m.cr3 0).user = false
  pdptEntry : (m.mem pdpt 0).present = true ∧ (m.mem pdpt 0).pointer = pd
  small : (m.mem pdpt 0).hugePage = false
  pdEntry : (m.mem pd 0).present = true ∧ (m.mem pd 0).pointer = 0
  huge : (m.mem pd 0).hugePage = true

section FirstPage

variable {m m' : Machine} {pdpt pd a f errorCode : ℕ}

theorem FirstPage.of_same (h : FirstPage m pdpt pd) (hpml4 : m'.mem m'.cr3 0 = m.mem m.cr3 0)
    (hpdpt : m'.mem pdpt 0 = m.mem pdpt 0) (hpd : m'.mem pd 0 = m.mem pd 0) :
    FirstPage m' pdpt pd where
  pml4 := hpml4.symm ▸ h.pml4
  supervisor := hpml4.symm ▸ h.supervisor
  pdptEntry := hpdpt.symm ▸ h.pdptEntry
  small := hpdpt.symm ▸ h.small
  pdEntry := hpd.symm ▸ h.pdEntry
  huge := hpd.symm ▸ h.huge

theorem FirstPage.page (h : FirstPage m pdpt pd) {p : ℕ} (hp : p < 512) :
    m.page p = some (1, m.mem pd 0) := by
  have hindex : ∀ level, level ≠ 0 → p / 512 ^ level % 512 = 0 := by
    intro level hlevel
    rw [Nat.div_eq_of_lt (hp.trans_le (Nat.le_self_pow hlevel 512))]
  have hpml4 := hindex 3 (by decide)
  have hpdpt := hindex 2 (by decide)
  have hpd := hindex 1 (by decide)
  rw [Machine.page, leaf_down (by rw [hpml4]; exact h.pml4.1) (by decide) (fun hlt ↦ absurd hlt (by decide)),
    hpml4, h.pml4.2, leaf_down (by rw [hpdpt]; exact h.pdptEntry.1) (by decide)
    (fun _ ↦ by rw [hpdpt]; exact h.small), hpdpt, h.pdptEntry.2, leaf_huge (by rw [hpd]; exact h.pdEntry.1)
    (by decide) (by rw [hpd]; exact h.huge), hpd]

theorem pageOf_low (ha : a < 2 ^ 21) : pageOf a = a / 4096 ∧ pageOf a < 512 := by
  simp only [pageOf]
  omega

/-- Writes of an application to the first page are faults. -/
theorem FirstPage.raises (h : FirstPage m pdpt pd) (ha : a < 2 ^ 21) (hwrite : UserWrite errorCode) :
    Raises m errorCode a where
  canonical := .inl (ha.trans (by decide))
  lt := ha.trans (by decide)
  present := by
    rw [hwrite.1, h.page (pageOf_low ha).2]
    rfl
  denied := by
    refine fun _ ↦ ⟨hwrite.2.2, .inl ⟨?_, ?_⟩⟩
    · rw [h.page (pageOf_low ha).2]
      exact Option.some_ne_none _
    · have hindex : pageOf a / 512 ^ 3 % 512 = 0 := by
        have hp := (pageOf_low ha).2
        omega
      rw [userAccess, hindex]
      simp [h.supervisor]

/-- A copy of the first page is linked at the physical address 0. -/
theorem FirstPage.copyOnePage (h : FirstPage m pdpt pd) (ha : a < 2 ^ 21)
    (hbit : ∀ g ∈ [m.cr3, pdpt, pd], m.memoryManager.getBit g = true)
    (hfree : m.memoryManager.freeFrames ≠ ∅) : ∃ frame ∈ m.memoryManager.freeFrames, ∃ m',
      copyOnePage m a = some (.ok (), m') ∧ m'.memoryManager = m.memoryManager.markAllocated frame 1 ∧
        m'.cr3 = m.cr3 ∧ ∀ g, g ≠ frame → g ≠ 0 → m'.mem g = m.mem g := by
  rcases newPageMap_eq m with ⟨frame, hframe, hnew⟩ | ⟨hempty, -⟩
  · have hne : ∀ g ∈ [m.cr3, pdpt, pd], g ≠ frame := by
      rintro g hg rfl
      exact notMem_freeFrames_of_getBit (hbit g hg) hframe
    have hdown : pageDown a < 2 ^ 21 := by
      simp only [pageDown]
      omega
    have hkept : ∀ words : ℕ → PageMapEntry, FirstPage (m.takeFrame frame words) pdpt pd := by
      intro words
      have hsame : ∀ g ∈ [m.cr3, pdpt, pd], (m.takeFrame frame words).mem g = m.mem g :=
        fun g hg ↦ by rw [mem_takeFrame, if_neg (hne g hg)]
      exact h.of_same (congrFun (hsame m.cr3 (by simp)) 0) (congrFun (hsame pdpt (by simp)) 0)
        (congrFun (hsame pd (by simp)) 0)
    obtain ⟨phys, hphys⟩ : ∃ phys,
        (m.takeFrame frame fun _ ↦ 0#64).translate (pageDown a) = some phys := by
      rw [translate_eq (.inl (hdown.trans (by decide))), (hkept _).page (pageOf_low hdown).2]
      exact ⟨_, rfl⟩
    have hpart : ∀ L < 4, L ≠ 0 → (LinearAddress4Level.ofValue a).part (L + 1) = 0 := by
      intro L hL hpos
      have hp := (pageOf_low ha).2
      rw [(LinearAddress4Level.valid_ofValue a).part_eq hL, ← pageOf_eq,
        Nat.div_eq_of_lt (hp.trans_le (Nat.le_self_pow hpos 512))]
    obtain ⟨m₁, hm₁⟩ : ∃ m₁, m₁ = m.takeFrame frame
      ((m.takeFrame frame fun _ ↦ 0#64).mem (phys / 4096)) := ⟨_, rfl⟩
    have h₁ : FirstPage m₁ pdpt pd := hm₁ ▸ hkept _
    have hcr3 : m₁.cr3 = m.cr3 := by rw [hm₁]; rfl
    refine ⟨frame, hframe, setPageContent 4 m₁ m₁.cr3 (.ofValue a) frame, ?_, ?_⟩
    · rw [copyOnePage_eq hnew, hphys, Option.map_some, ← hm₁, hcr3]
    · rw [setPageContent, hpart 3 (by decide) (by decide), h₁.pml4.2, setPageContent,
        hpart 2 (by decide) (by decide), h₁.pdptEntry.2, setPageContent,
        hpart 1 (by decide) (by decide), h₁.pdEntry.2, setPageContent]
      refine ⟨by rw [hm₁]; rfl, hcr3, fun g hg hzero ↦ ?_⟩
      rw [Machine.setEntry]
      dsimp only
      rw [Function.update_of_ne hzero, hm₁, mem_takeFrame, if_neg hg]
  · exact absurd hempty hfree

end FirstPage

/-! ## Loading -/

section Loading

variable {s s' s₁ s₂ : LaunchState} {image behind : ℕ → UInt8} {v : Fat.Volume}
  {fileEntry pml4 pml4' src taken taken' : ℕ} {first : AppLoadInfo}

/-- A new PML4 with an empty user half, after a number of frames have been taken. -/
structure FreshPml4 (s s' : LaunchState) (pml4 taken : ℕ) : Prop where
  cr3 : s'.machine.cr3 = pml4
  allocated : s'.machine.memoryManager.getBit pml4 = true
  busy : ∀ g, s.machine.memoryManager.getBit g = true → g ≠ pml4 ∧ s'.machine.memoryManager.getBit g = true
  card : s'.machine.memoryManager.freeFrames.card + taken = s.machine.memoryManager.freeFrames.card
  empty : ∀ k, 256 ≤ k → s'.machine.mem pml4 k = 0#64
  low : ∀ k < 256, s'.machine.mem pml4 k = s.machine.mem s.machine.cr3 k
  same : ∀ g, s.machine.memoryManager.getBit g = true → s'.machine.mem g = s.machine.mem g

theorem FreshPml4.trans (h : FreshPml4 s s₁ pml4 taken) (hmachine : s₂.machine = s₁.machine)
    (h' : FreshPml4 s₂ s' pml4' taken') : FreshPml4 s s' pml4' (taken' + taken) where
  cr3 := h'.cr3
  allocated := h'.allocated
  busy := fun g hg ↦ h'.busy g (hmachine ▸ (h.busy g hg).2)
  card := by
    have hcard := h.card
    have hcard' := h'.card
    rw [hmachine] at hcard'
    omega
  empty := h'.empty
  low := by
    intro k hk
    rw [h'.low k hk, hmachine, h.cr3, h.low k hk]
  same := by
    intro g hg
    rw [h'.same g (hmachine ▸ (h.busy g hg).2), hmachine, h.same g hg]

theorem exists_setupPML4 (hcr3 : s.machine.memoryManager.getBit s.machine.cr3 = true)
    (hfree : s.machine.memoryManager.freeFrames ≠ ∅) : ∃ pml4 s',
      s.setupPML4 = (.ok pml4, s') ∧ FreshPml4 s s' pml4 1 ∧ s'.appLoads = s.appLoads := by
  rcases newPageMap_eq s.machine with ⟨frame, hframe, htake⟩ | ⟨hempty, -⟩
  · obtain ⟨s', hs'⟩ : ∃ s', s.setupPML4 = (.ok frame, s') := by
      rw [LaunchState.setupPML4, htake]
      exact ⟨_, rfl⟩
    have hnew := newPml4_of_setupPML4 hs'
    have hbusy : ∀ g, s.machine.memoryManager.getBit g = true → g ≠ frame := by
      rintro g hg rfl
      exact notMem_freeFrames_of_getBit hg hframe
    have hbit : ∀ g, s'.machine.memoryManager.getBit g = true ↔
        g = frame ∨ s.machine.memoryManager.getBit g = true := by
      rw [hnew.memoryManager]
      exact Accounted.getBit_markAllocated_iff frame
    refine ⟨frame, s', hs', ⟨hnew.cr3, (hbit frame).mpr (.inl rfl),
      fun g hg ↦ ⟨hbusy g hg, (hbit g).mpr (.inr hg)⟩, ?_, hnew.empty, ?_,
      fun g hg ↦ hnew.same g (hbusy g hg)⟩, by rw [hnew.state]⟩
    · rw [hnew.memoryManager, BitmapMemoryManager.freeFrames_markAllocated_one]
      exact Finset.card_erase_add_one hframe
    · intro k hk
      rw [LaunchState.setupPML4, htake] at hs'
      obtain ⟨-, rfl⟩ := Prod.mk.inj hs'
      dsimp only
      rw [Function.update_self, if_pos hk, mem_takeFrame]
      exact congrFun (if_neg (hbusy _ hcr3)) k
  · exact absurd hempty hfree

theorem setupPageMaps_zero (m : Machine) (addr : LinearAddress4Level) (w : Bool) :
    m.setupPageMaps addr 0 w = ⟨.ok 0, m, []⟩ :=
  EntrySet.setupLoop_zero (w := w) (setupPageMap w 3) m.cr3 4 512 m addr

/-- A file whose only segment is empty. -/
theorem loadELF_empty {ph : Phdr} (htype : eType image = etExec) (hheaders : programHeaders image = [ph])
    (hload : ph.pType = ptLoad) (hbase : userBase ≤ ph.pVaddr) (hpages : ph.num4kpages = 0)
    (hstores : ¬ ph.Stores) (m : Machine) :
    (loadELF image m).machine = m ∧ ∃ last, (loadELF image m).result = some (.ok last) := by
  have hfirst : getFirstLoadAddress [ph] = ph.pVaddr := by simp [getFirstLoadAddress, hload]
  rw [loadELF, if_neg (not_not.mpr htype), hheaders, hfirst, if_neg (not_lt.mpr hbase),
    copyLoadSegments, if_neg (not_not.mpr hload), hpages]
  simp only [setupPageMaps_zero, copySegment_empty hstores]
  exact ⟨rfl, _, rfl⟩

/-- An image without pages is copied without a change. -/
theorem copyImage_empty (habsent : ∀ k, 256 ≤ k → k < 512 → (s.machine.mem src k).present = false)
    (dest : ℕ) (appLoad : AppLoadInfo) :
    s.copyImage dest src appLoad = (.ok { appLoad with pml4 := dest }, s) := by
  have hcopy : s.machine.copyPageMaps 4 256 dest src = (.ok (), s.machine) :=
    copyTables_absent _ 256 fun k hlow hk ↦ habsent k hlow hk
  rw [LaunchState.copyImage, hcopy]

theorem loadApp_cached (v : Fat.Volume) (behind : ℕ → UInt8)
    (hfirst : s.appLoads fileEntry = some first)
    (himage : s.machine.memoryManager.getBit first.pml4 = true)
    (habsent : ∀ k, 256 ≤ k → k < 512 → (s.machine.mem first.pml4 k).present = false)
    (hcr3 : s.machine.memoryManager.getBit s.machine.cr3 = true)
    (hfree : s.machine.memoryManager.freeFrames ≠ ∅) :
    ∃ appLoad s', s.loadApp v behind fileEntry = some (.ok appLoad, s') ∧
      FreshPml4 s s' appLoad.pml4 1 := by
  obtain ⟨pml4, s', hsetup, hnew, happLoads⟩ := exists_setupPML4 hcr3 hfree
  refine ⟨{ first with pml4 := pml4 }, s', ?_, hnew⟩
  rw [LaunchState.loadApp, hsetup]
  dsimp only
  rw [happLoads, hfirst]
  dsimp only
  rw [copyImage_empty (by rwa [hnew.same _ himage])]

theorem loadApp_empty {ph : Phdr} (hbuf : fileBuf v behind fileEntry = some image)
    (helf : isElf image = true) (htype : eType image = etExec) (hheaders : programHeaders image = [ph])
    (hload : ph.pType = ptLoad) (hbase : userBase ≤ ph.pVaddr) (hpages : ph.num4kpages = 0)
    (hstores : ¬ ph.Stores) (hnone : s.appLoads fileEntry = none)
    (hcr3 : s.machine.memoryManager.getBit s.machine.cr3 = true)
    (hcard : 2 ≤ s.machine.memoryManager.freeFrames.card) :
    ∃ appLoad s' first, s.loadApp v behind fileEntry = some (.ok appLoad, s') ∧
      FreshPml4 s s' appLoad.pml4 2 ∧ s'.appLoads fileEntry = some first ∧
        ∀ k, 256 ≤ k → s'.machine.mem first.pml4 k = 0#64 := by
  obtain ⟨pml4, s₁, hsetup, hnew, happLoads⟩ :=
    exists_setupPML4 hcr3 fun hempty ↦ by simp [hempty] at hcard
  obtain ⟨hmachine, last, hlast⟩ :=
    loadELF_empty htype hheaders hload hbase hpages hstores s₁.machine
  obtain ⟨s₂, hs₂⟩ : ∃ s₂ : LaunchState, s₂ = { s₁ with
      machine := (loadELF image s₁.machine).machine
      appLoads := Function.update s₁.appLoads fileEntry (some ⟨last, eEntry image, pml4⟩) } :=
    ⟨_, rfl⟩
  have hmachine₂ : s₂.machine = s₁.machine := by rw [hs₂, hmachine]
  have hallocated : s₂.machine.memoryManager.getBit pml4 = true := hmachine₂ ▸ hnew.allocated
  have hcr3₂ : s₂.machine.cr3 = pml4 := by rw [hmachine₂, hnew.cr3]
  obtain ⟨pml4', s₃, hsetup', hnew', happLoads'⟩ :=
    exists_setupPML4 (s := s₂) (by rw [hcr3₂]; exact hallocated) (fun hempty ↦ by
      have hcard₁ := hnew.card
      rw [← hmachine₂, hempty, Finset.card_empty] at hcard₁
      omega)
  have himage : ∀ k, 256 ≤ k → s₃.machine.mem pml4 k = 0#64 := by
    intro k hk
    rw [hnew'.same _ hallocated, hmachine₂, hnew.empty k hk]
  refine ⟨⟨last, eEntry image, pml4'⟩, s₃, ⟨last, eEntry image, pml4⟩, ?_,
    hnew.trans hmachine₂ hnew', ?_, himage⟩
  · rw [LaunchState.loadApp, hsetup]
    dsimp only
    rw [happLoads, hnone]
    dsimp only
    rw [hbuf, Option.bind_some, LaunchState.loadNew, helf, if_neg (by decide)]
    dsimp only
    rw [hlast]
    dsimp only
    rw [← hs₂, hsetup']
    dsimp only
    rw [copyImage_empty fun k hlow _ ↦ by rw [himage k hlow, present_zero]]
  · rw [happLoads', hs₂]
    exact Function.update_self fileEntry _ s₁.appLoads

end Loading

/-! ## Arguments -/

section ArgVector

variable {total : ℕ} {N : Finset (ℕ × ℕ)}

/-- A string that fits is pushed. -/
theorem exists_push (av : ArgVector) (arg : List UInt8)
    (h : Mapped userHalf av.machine.cr3 total av.machine N)
    (hpage : (3, pageOf argsFrameAddr) ∈ N) (hargc : av.argc < argvLen)
    (hfit : av.argbufIndex + arg.length < argbufLen) :
    ∃ av', av.push arg = some (.ok (), av') ∧ av'.machine.cr3 = av.machine.cr3 ∧
      Mapped userHalf av.machine.cr3 total av'.machine N := by
  have hframe : argsFrameAddr = 2 ^ 64 - 4096 := rfl
  have hbuf : argbuf = 2 ^ 64 - argbufLen := rfl
  have hlen : argbufLen = 4096 - 256 := rfl
  have hmax : argvLen = 32 := rfl
  have hmem : ∀ a, argsFrameAddr ≤ a → a < 2 ^ 64 → (3, a / 4096 % 2 ^ 36) ∈ N := by
    intro a hlow hhigh
    have hsame : a / 4096 % 2 ^ 36 = pageOf argsFrameAddr := by
      simp only [pageOf]
      omega
    rwa [hsame]
  obtain ⟨m₁, hargv, hcr3₁, hm₁⟩ := Mapped.storeBytes
    ((List.range 8).map fun k ↦ UInt8.ofNat ((argbuf + av.argbufIndex) / 256 ^ k)) av.machine
    (argsFrameAddr + 8 * av.argc) h
    (fun _ ↦ by rw [List.length_map, List.length_range]; omega)
    (fun a hlow hhigh ↦ hmem a (by omega) (by
      rw [List.length_map, List.length_range] at hhigh
      omega))
  rw [← hcr3₁] at hm₁
  obtain ⟨m₂, hcopy, hcr3₂, hm₂⟩ := Mapped.storeBytes (arg ++ [0]) m₁ (argbuf + av.argbufIndex) hm₁
    (fun _ ↦ by rw [List.length_append, List.length_singleton]; omega)
    (fun a hlow hhigh ↦ hmem a (by omega) (by
      rw [List.length_append, List.length_singleton] at hhigh
      omega))
  refine ⟨⟨m₂, av.argc + 1, av.argbufIndex + (arg.length + 1)⟩, ?_, hcr3₂.trans hcr3₁, hcr3₁ ▸ hm₂⟩
  rw [ArgVector.push, if_neg (by omega)]
  simp only [hargv, hcopy, Option.bind_eq_bind, Option.bind_some]
  rfl

end ArgVector

namespace Lifetime

/-! ## Steps of a launch -/

/-- A call that is being launched, with the entries `N` of its page maps. -/
structure Launching (base : ℕ → Prop) (s : System) (n : ℕ) (c : Call) (total : ℕ)
    (N : Finset (ℕ × ℕ)) : Prop where
  inv : Inv base s
  calls : s.calls n = some c
  mapped : Mapped userHalf c.cr3 total (s.machine c.cr3) N

/-- The step that changes the memory to `m` for the call `n`. -/
structure Launches (base : ℕ → Prop) (s : System) (n : ℕ) (c : Call) (op : Op) (m : Machine)
    (c' : Call) : Prop where
  step : Guarded UserFaults Step s op (s.update m n (some c'))
  updates : Updates appPolicy s.root base (.app c.fileEntry n) Set.univ (s.machine c.cr3) m

section Launching

variable {base : ℕ → Prop} {s : System} {n total pdpt pd : ℕ} {c c' : Call} {N N' : Finset (ℕ × ℕ)}
  {m : Machine} {op : Op}

/-- The kernel's page maps stay. -/
theorem Launches.firstPage (h : Launches base s n c op m c') (hpdpt : base pdpt) (hpd : base pd) {r : ℕ}
    (hr : Outside s.root base r 0) (hpage : FirstPage (s.machine r) pdpt pd) :
    FirstPage ((s.update m n (some c')).machine r) pdpt pd :=
  hpage.of_same (h.updates.outside hr) (h.updates.outside (.inl hpdpt)) (h.updates.outside (.inl hpd))

theorem Launching.update (h : Launching base s n c total N) (hstep : Launches base s n c op m c')
    (hmapped : Mapped userHalf c.cr3 total m N') (hfile : c'.fileEntry = c.fileEntry)
    (hload : c'.appLoad = c.appLoad) (hcr3 : c'.cr3 = c.cr3) (hcontext : c'.contextCr3 = c.contextCr3)
    (hphase : c'.phase ≠ .cleaned) : Launching base (s.update m n (some c')) n c' total N' where
  inv := (keeps_of_updates h.inv h.calls hstep.updates hfile hload hcr3 hcontext
    fun hcleaned ↦ absurd hcleaned hphase).1
  calls := System.calls_update s m n (some c')
  mapped := by
    have hm : (s.update m n (some c')).machine c'.cr3 = m := by
      rw [hcr3, show c.cr3 = m.cr3 from hstep.updates.cr3.symm]
      rfl
    rw [hm, hcr3]
    exact hmapped

/-- The user half of a call that has just been loaded is empty. -/
theorem Launching.of_empty (h : Inv base s) (hc : s.calls n = some c)
    (hempty : ∀ k, 256 ≤ k → s.mem c.cr3 k = 0#64) :
    Launching base s n c s.memoryManager.freeFrames.card ∅ where
  inv := h
  calls := hc
  mapped := .of_empty ((h.machine c.cr3).separated.alloc_of_owns (o := .root (.app c.fileEntry n))
    (h.root hc)) h.accounted.rangeEnd fun k hk _ ↦ hempty k hk

/-- The step of a `LoadApp` that succeeds. -/
theorem exists_loadApp (h : Inv base s) (hn : s.calls n = none) {task : AppTask} {v : Fat.Volume}
    {behind : ℕ → UInt8} {fileEntry : ℕ} (hadmissible : Admissible s (.loadApp n task v behind fileEntry))
    {appLoad : AppLoadInfo} {l : LaunchState}
    (hload : LaunchState.loadApp v behind fileEntry
      ⟨task.toFaultTask, s.machine task.cr3, task.contextCr3, task.fileMapEnd, s.appLoads⟩ =
        some (.ok appLoad, l)) :
    ∃ s' c, Guarded UserFaults Step s (.loadApp n task v behind fileEntry) s' ∧ c.phase = .loaded ∧
      c.cr3 = l.machine.cr3 ∧ Inv base s' ∧ s'.machine c.cr3 = l.machine ∧
        s'.appLoads = l.appLoads ∧ s'.calls = Function.update s.calls n (some c) := by
  have hexec : s.exec (.loadApp n task v behind fileEntry) = some (
      { mem := l.machine.mem
        memoryManager := l.machine.memoryManager
        appLoads := l.appLoads
        calls := Function.update s.calls n (some
          ⟨⟨l.toFaultTask, l.machine.cr3, l.contextCr3, l.fileMapEnd⟩, fileEntry, appLoad,
            .loaded⟩) }, []) := by
    rw [System.exec, System.loadApp, hn, if_neg (by decide), hload]
    rfl
  have hfault : UserFaults s (.loadApp n task v behind fileEntry) := trivial
  have hkeeps := keeps_exec h hfault hadmissible hexec
  exact ⟨_, _, ⟨trivial, hadmissible, [], hexec⟩, rfl, rfl, hkeeps.inv, rfl, rfl, rfl⟩

/-- The entries above the pages from an address on. -/
def pageEntries (a k : ℕ) : Finset (ℕ × ℕ) :=
  entriesFrom 0 (LinearAddress4Level.ofValue a).pageNumber
    (min ((LinearAddress4Level.ofValue a).pageNumber + k) (512 ^ 4))

theorem card_pageEntries_le (a k : ℕ) : (pageEntries a k).card ≤ 4 * k :=
  (card_entriesFrom_le _ _ _).trans (by omega)

theorem Launching.setupPages (h : Launching base s n c total N) {a k : ℕ}
    (ha : stackPage ≤ pageOf a) (hcard : N.card + 4 * k ≤ total) :
    ∃ r, ((s.machine c.cr3).setupPageMaps (.ofValue a) k true).result = .ok r ∧
      Mapped userHalf c.cr3 total ((s.machine c.cr3).setupPageMaps (.ofValue a) k true).machine
        (N ∪ pageEntries a k) := by
  have hpage : stackPage = 2 ^ 36 - 1 - 0x100 := rfl
  have hset := (h.mapped.setupPageMaps (m := s.machine c.cr3) (LinearAddress4Level.valid_ofValue a)
    (fun p hlow _ _ ↦ by
      rw [← pageOf_eq] at hlow
      change 256 ≤ p / 512 ^ 3
      omega) true (E := pageEntries a k) rfl).2
  rcases hset with ⟨r, hok, -, -, hmapped⟩ | ⟨-, hlt⟩
  · exact ⟨r, hok, hmapped⟩
  · have hentries := card_pageEntries_le a k
    have hunion := Finset.card_union_le N (pageEntries a k)
    omega

theorem Launching.setupStack (h : Launching base s n c total N) (hphase : c.phase = .loaded)
    (hcard : N.card + 4 * 0x100 ≤ total) :
    ∃ m, Launches base s n c (.setupStack n) m { c with phase := .stackReady } ∧
      Launching base (s.update m n (some { c with phase := .stackReady })) n
        { c with phase := .stackReady } total (N ∪ pageEntries stackFrameAddr 0x100) := by
  obtain ⟨r, hok, hmapped⟩ := h.setupPages (a := stackFrameAddr) (k := 0x100) le_rfl hcard
  have hupdates := updates_setupStackPages h.inv h.calls (a := stackFrameAddr) (k := 0x100) le_rfl
  obtain ⟨m, hm⟩ : ∃ m, m = ((s.machine c.cr3).setupPageMaps (.ofValue stackFrameAddr) 0x100 true).machine :=
    ⟨_, rfl⟩
  rw [← hm] at hmapped hupdates
  have hexec : s.exec (.setupStack n) =
      some (s.update m n (some { c with phase := .stackReady }), []) := by
    simp only [System.exec, System.callIn, h.calls, Option.filter_some, hphase, decide_true, if_true,
      Option.bind_some, System.setupStack, hok, ← hm, Option.map_some]
  have hstep : Launches base s n c (.setupStack n) m { c with phase := .stackReady } :=
    ⟨⟨trivial, trivial, [], hexec⟩, hupdates⟩
  exact ⟨m, hstep, h.update hstep hmapped rfl rfl rfl rfl (by simp)⟩

theorem Launching.setupArgs (h : Launching base s n c total N) (hphase : c.phase = .stackReady)
    (hcard : N.card + 4 ≤ total) {command : List UInt8} (hcommand : command.length < kLineMax) :
    ∃ m c', Launches base s n c (.setupArgs n [] command none) m c' ∧ c'.phase = .running ∧
      c'.cr3 = c.cr3 ∧ Launching base (s.update m n (some c')) n c' total
        (N ∪ pageEntries argsFrameAddr 1) := by
  obtain ⟨r, hok, hmapped⟩ := h.setupPages (a := argsFrameAddr) (k := 1) (by decide) hcard
  have hupdates := updates_setupStackPages h.inv h.calls (a := argsFrameAddr) (k := 1) (by decide)
  obtain ⟨m, hm⟩ : ∃ m, m = ((s.machine c.cr3).setupPageMaps (.ofValue argsFrameAddr) 1 true).machine :=
    ⟨_, rfl⟩
  rw [← hm] at hmapped hupdates
  have hcr3 : m.cr3 = c.cr3 := hupdates.cr3
  have hmax : kLineMax = 128 := rfl
  have hlen : argbufLen = 4096 - 256 := rfl
  have hpage : (3, pageOf argsFrameAddr) ∈ N ∪ pageEntries argsFrameAddr 1 := by
    refine Finset.mem_union_right _ ?_
    rw [pageEntries, mem_entriesFrom]
    exact ⟨by decide, pageOf argsFrameAddr, by decide, by decide⟩
  have hstart : Mapped userHalf m.cr3 total m (N ∪ pageEntries argsFrameAddr 1) := hcr3.symm ▸ hmapped
  obtain ⟨av, hpush, hcr3', hstored⟩ := exists_push ⟨m, 0, 0⟩ command hstart hpage
    (show (0 : ℕ) < argvLen by decide) (show 0 + command.length < argbufLen by omega)
  have hvector : makeArgVector m command none = some (.ok (), av) := by
    rw [makeArgVector, hpush]
    rfl
  have hvectors := updates_makeArgVector hupdates.accounted (hupdates.cr3 ▸ h.inv.root h.calls)
    (show command.length + ((none : Option (List UInt8)).getD []).length + 1 < argbufLen by
      rw [Option.getD_none, List.length_nil]
      omega) hvector
  obtain ⟨c', hc'⟩ : ∃ c' : Call, c' = { c with
      files := c.files ++ []
      dpagingBegin := pageDown (uint64Add c.appLoad.vaddrEnd 4095)
      dpagingEnd := pageDown (uint64Add c.appLoad.vaddrEnd 4095)
      fileMapEnd := stackFrameAddr
      phase := .running } := ⟨_, rfl⟩
  have hexec : s.exec (.setupArgs n [] command none) = some (s.update av.machine n (some c'), []) := by
    simp only [System.exec, System.callIn, h.calls, Option.filter_some, hphase, decide_true, if_true,
      Option.bind_some, System.setupArgs, hok, ← hm, hvector, Option.map_some, hc']
  have hstep : Launches base s n c (.setupArgs n [] command none) av.machine c' :=
    ⟨⟨trivial, ⟨hcommand, by decide⟩, [], hexec⟩, hupdates.trans (hvectors.mono (Set.empty_subset _))⟩
  refine ⟨av.machine, c', hstep, by rw [hc'], by rw [hc'],
    h.update hstep (hcr3 ▸ hstored) ?_ ?_ ?_ ?_ ?_⟩ <;> rw [hc']
  simp

/-- The stack and the arguments, with the kernel's page maps as they were. -/
theorem Launching.run (h : Launching base s n c total ∅) (hphase : c.phase = .loaded)
    (htotal : 1028 ≤ total) (command : List UInt8) (hcommand : command.length < kLineMax) :
    ∃ s' c', Run (Guarded UserFaults Step) s [.setupStack n, .setupArgs n [] command none] s' ∧
      Inv base s' ∧ s'.calls n = some c' ∧ c'.phase = .running ∧ c'.cr3 = c.cr3 ∧
        total ≤ s'.memoryManager.freeFrames.card + 1028 ∧
          ∀ {r pdpt pd}, Outside s.root base r 0 → base pdpt → base pd →
            FirstPage (s.machine r) pdpt pd → FirstPage (s'.machine r) pdpt pd := by
  obtain ⟨m, hstack, h₁⟩ := h.setupStack hphase (by rw [Finset.card_empty]; omega)
  have hcard : (∅ ∪ pageEntries stackFrameAddr 0x100).card ≤ 1024 := by
    rw [Finset.empty_union]
    exact card_pageEntries_le _ _
  obtain ⟨m', c', hargs, hphase', hcr3, h₂⟩ := h₁.setupArgs rfl (by omega) hcommand
  refine ⟨_, c', (Run.single hstack.step).snoc hargs.step, h₂.inv, h₂.calls, hphase', hcr3, ?_,
    fun hr hpdpt hpd hpage ↦ hargs.firstPage hpdpt hpd ?_ (hstack.firstPage hpdpt hpd hr hpage)⟩
  · have hunion := Finset.card_union_le (∅ ∪ pageEntries stackFrameAddr 0x100)
      (pageEntries argsFrameAddr 1)
    have hcard' := card_pageEntries_le argsFrameAddr 1
    have hcount : m'.memoryManager.freeFrames.card + _ = total := h₂.mapped.count
    exact hcount.symm.trans_le (Nat.add_le_add_left (by omega) _)
  · have hroot : (s.update m n (some { c with phase := .stackReady })).root = s.root :=
      root_update h.calls m rfl rfl
    rwa [hroot]

end Launching

end Lifetime
end App
end MinOS
