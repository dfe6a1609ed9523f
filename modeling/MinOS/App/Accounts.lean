import MinOS.App.Launching

/-!
# Accounts of the frames

In every run of the system the frames that are allocated are those from the start and those that
an image or a call leads to, as long as no fault is handled at an address of the kernel.
-/

namespace MinOS
namespace App
namespace Lifetime

open Paging Paging.Machine Ownership Transition

/-! ## Frames in use -/

section Frames

variable {s s' : System} {base : ℕ → Prop} {n f : ℕ} {x : AppSpace} {r : ℕ}

theorem mem_framesOf (hroot : s.root x = some r) :
    f ∈ s.framesOf r ↔ f = r ∨ ∃ k w, s.entry x k = some (f, w) := by
  refine or_congr Iff.rfl ⟨?_, ?_⟩
  · rintro ⟨d, q, hentry, hframe⟩
    obtain ⟨w, hw⟩ := entryAt_of_frameAt hframe
    exact ⟨(d, q), w, (entry_machine s r _ _).symm.trans ((spaces_entry hroot hentry).trans hw)⟩
  · rintro ⟨⟨d, q⟩, w, hw⟩
    rw [← entry_machine s r] at hw
    by_cases hentry : Entry userHalf d q
    · exact ⟨d, q, hentry, frameAt_of_entry hroot hentry hw⟩
    · rw [spaces_entry_of_not hentry] at hw
      cases hw

theorem exists_root_iff : (∃ x r, s.root x = some r ∧ f ∈ s.framesOf r) ↔
    s.ImageHolds f ∨ s.CallHolds f := by
  constructor
  · rintro ⟨x | ⟨fileEntry, n⟩, r, hroot, hf⟩
    · obtain ⟨app, happ, rfl⟩ := Option.map_eq_some_iff.mp hroot
      exact .inl ⟨x, app, happ, hf⟩
    · obtain ⟨c, hc, hr⟩ := Option.bind_eq_some_iff.mp hroot
      split_ifs at hr
      exact .inr ⟨n, c, hc, (Option.some.inj hr).symm ▸ hf⟩
  · rintro (⟨fileEntry, app, happ, hf⟩ | ⟨n, c, hc, hf⟩)
    · exact ⟨.image fileEntry, app.pml4, by rw [System.root, happ, Option.map_some], hf⟩
    · exact ⟨.app c.fileEntry n, c.appLoad.pml4, root_app hc, hf⟩

/-- A frame is allocated from the start, or an image or a call leads to it. -/
theorem Inv.allocated_iff (h : Inv base s) (f : ℕ) :
    s.Allocated f ↔ base f ∨ s.ImageHolds f ∨ s.CallHolds f := by
  rw [← exists_root_iff]
  constructor
  · intro halloc
    rcases (h.accounted.separated.accounted f).mp halloc with hbase | ⟨o, howns⟩
    · exact .inl hbase
    · refine .inr ?_
      cases o with
      | root x => exact ⟨x, f, howns, (mem_framesOf howns).mpr (.inl rfl)⟩
      | entry x k =>
          obtain ⟨w, hw, -⟩ := howns
          cases hroot : s.root x with
          | none =>
              rw [spaces_entry_of_root hroot] at hw
              cases hw
          | some r => exact ⟨x, r, hroot, (mem_framesOf hroot).mpr (.inr ⟨k, w, hw⟩)⟩
  · rintro (hbase | ⟨x, r, hroot, hf⟩)
    · exact (h.accounted.separated.accounted f).mpr (.inl hbase)
    · rcases (mem_framesOf hroot).mp hf with rfl | ⟨k, w, hw⟩
      · exact h.accounted.separated.alloc_of_owns (o := .root x) hroot
      · exact h.accounted.separated.alloc_of_entry hw

theorem Moves.framesOf (h : Moves n s s') (hx : ∀ fileEntry, x ≠ .app fileEntry n)
    (hroot : s.root x = some r) : s'.framesOf r = s.framesOf r := by
  ext f
  rw [mem_framesOf hroot, mem_framesOf (h.roots hx hroot)]
  simp only [h.entries _ hx hroot]

end Frames

/-! ## Runs -/

/-- The frame belongs to an image that has been loaded in between. -/
def NewImageHolds (s s' : System) (f : ℕ) : Prop :=
  ∃ fileEntry app, s.appLoads fileEntry = none ∧ s'.appLoads fileEntry = some app ∧
    f ∈ s'.framesOf app.pml4

/-- What a step frees was allocated once, and nothing but the call of the step leads to it. -/
structure FreesOwn (s₀ s : System) (n : ℕ) (freed : List ℕ) : Prop where
  nodup : freed.Nodup
  allocated : ∀ f ∈ freed, s.Allocated f ∧ ¬ s₀.Allocated f
  unreachable : ∀ f ∈ freed, ¬ s.ImageHolds f ∧ ¬ s.OtherHolds n f

/-- Between two states without the call `n`, frames have come from new images and from other
calls, and have gone from other calls. -/
def LeavesImages (n : ℕ) (s s' : System) : Prop :=
  ∀ f, s'.Allocated f ∨ s.OtherHolds n f ↔
    s.Allocated f ∨ NewImageHolds s s' f ∨ s'.OtherHolds n f

/-- The accounts of a state that is reached by steps under a guard. -/
structure Accounts (guard : System → Op → Prop) (s₀ s : System) : Prop where
  allocated : ∀ f, s.Allocated f ↔ s₀.Allocated f ∨ s.ImageHolds f ∨ s.CallHolds f
  frees : ∀ {op s' freed}, guard s op → Admissible s op → s.exec op = some (s', freed) →
    FreesOwn s₀ s op.call freed
  exit : ∀ {n ops s'}, Run (Guarded guard Step) s ops s' → s.calls n = none → s'.calls n = none →
    LeavesImages n s s' ∧ ((∀ op ∈ ops, op.call = n) →
      ∀ f, s'.Allocated f ↔ s.Allocated f ∨ NewImageHolds s s' f)

section Runs

variable {s₀ s s' : System} {base : ℕ → Prop} {n : ℕ} {ops : List Op} {freed : List ℕ}

theorem System.Fresh.inv (h : s₀.Fresh) : Inv s₀.Allocated s₀ := by
  have hroot : ∀ x, s₀.root x = none := by
    rintro (x | ⟨fileEntry, n⟩)
    · simp [System.root, h.appLoads]
    · simp [System.root, h.calls]
  have hentry : ∀ x k, s₀.entry x k = none := fun x k ↦ spaces_entry_of_root (hroot x) k
  have howns : ∀ f o, ¬ Owns appPolicy ((s₀.machine 0).spaces s₀.root) f o := by
    rintro f (x | ⟨x, k⟩) howns
    · cases (hroot x).symm.trans howns
    · obtain ⟨w, hw, -⟩ := howns
      cases (hentry x k).symm.trans hw
  refine ⟨⟨fun _ ↦ Iff.rfl, ⟨?_, ?_, ?_, ?_⟩, ?_, ?_, h.rangeEnd⟩, ?_, ?_⟩
  · exact fun ho _ ↦ absurd ho (howns _ _)
  · exact fun f ↦ ⟨.inl, fun hor ↦ hor.resolve_right (not_exists.mpr (howns f))⟩
  · exact fun _ ↦ howns _ _
  · exact fun {x k} _ _ _ hw _ ↦ by cases (hentry x k).symm.trans hw
  · exact fun {x d q} _ _ _ hw ↦ by cases (hentry x (d, q)).symm.trans hw
  · exact fun {x} _ _ _ _ hx ↦ by cases (hroot x).symm.trans hx
  · exact fun {fileEntry p} _ _ hf ↦ by cases (hentry (.image fileEntry) (3, p)).symm.trans hf
  · exact fun {n} _ hc ↦ by cases (h.calls n).symm.trans hc

/-- The images stay, with their frames. -/
def KeepsImages (s s' : System) : Prop :=
  ∀ fileEntry app, s.appLoads fileEntry = some app →
    s'.appLoads fileEntry = some app ∧ s'.framesOf app.pml4 = s.framesOf app.pml4

theorem Moves.keepsImages (h : Moves n s s') : KeepsImages s s' := fun fileEntry app happ ↦
  ⟨h.images happ, h.framesOf (image_ne_app fileEntry · n)
    (by rw [System.root, happ, Option.map_some])⟩

theorem KeepsImages.trans {s'' : System} (h : KeepsImages s s') (h' : KeepsImages s' s'') :
    KeepsImages s s'' := by
  intro fileEntry app happ
  obtain ⟨happ', hframes⟩ := h fileEntry app happ
  obtain ⟨happ'', hframes'⟩ := h' fileEntry app happ'
  exact ⟨happ'', hframes'.trans hframes⟩

/-- What other calls hold is held afterwards, as it was before. -/
theorem Moves.otherHolds_iff (h : Moves n s s') (f : ℕ) : s'.OtherHolds n f ↔ s.OtherHolds n f := by
  have hframes : ∀ {k c}, k ≠ n → s.calls k = some c →
      s'.framesOf c.appLoad.pml4 = s.framesOf c.appLoad.pml4 := fun {k c} hk hc ↦
    h.framesOf (x := .app c.fileEntry k) (fun _ heq ↦ hk (by injection heq)) (root_app hc)
  constructor
  · rintro ⟨k, c, hk, hc, hf⟩
    have hold := (h.calls k hk).symm.trans hc
    exact ⟨k, c, hk, hold, hframes hk hold ▸ hf⟩
  · rintro ⟨k, c, hk, hc, hf⟩
    exact ⟨k, c, hk, (h.calls k hk).trans hc, (hframes hk hc).symm ▸ hf⟩

theorem callHolds_of_other {f : ℕ} (h : s.OtherHolds n f) : s.CallHolds f := by
  obtain ⟨k, c, -, hc, hf⟩ := h
  exact ⟨k, c, hc, hf⟩

theorem callHolds_iff (hn : s.calls n = none) (f : ℕ) : s.CallHolds f ↔ s.OtherHolds n f := by
  refine ⟨?_, callHolds_of_other⟩
  rintro ⟨k, c, hc, hf⟩
  refine ⟨k, c, ?_, hc, hf⟩
  rintro rfl
  cases hn.symm.trans hc

theorem imageHolds_iff (h : KeepsImages s s') (f : ℕ) :
    s'.ImageHolds f ↔ s.ImageHolds f ∨ NewImageHolds s s' f := by
  constructor
  · rintro ⟨fileEntry, app, happ, hf⟩
    cases hold : s.appLoads fileEntry with
    | none => exact .inr ⟨fileEntry, app, hold, happ, hf⟩
    | some app' =>
        obtain ⟨happ', hframes⟩ := h fileEntry app' hold
        obtain rfl := Option.some.inj (happ.symm.trans happ')
        exact .inl ⟨fileEntry, app, hold, hframes ▸ hf⟩
  · rintro (⟨fileEntry, app, happ, hf⟩ | ⟨fileEntry, app, -, happ, hf⟩)
    · obtain ⟨happ', hframes⟩ := h fileEntry app happ
      exact ⟨fileEntry, app, happ', hframes.symm ▸ hf⟩
    · exact ⟨fileEntry, app, happ, hf⟩

theorem Keeps.freesOwn (hkeeps : Keeps base n s s' freed) {f : ℕ} (hf : f ∈ freed) :
    ¬ base f ∧ ¬ s.ImageHolds f ∧ ¬ s.OtherHolds n f := by
  have hnot := (hkeeps.freed f hf).2
  rw [hkeeps.inv.allocated_iff, not_or, not_or] at hnot
  refine ⟨hnot.1, fun himage ↦ hnot.2.1 ?_, fun hother ↦ hnot.2.2 ?_⟩
  · exact (imageHolds_iff hkeeps.moves.keepsImages f).mpr (.inl himage)
  · exact callHolds_of_other ((hkeeps.moves.otherHolds_iff f).mpr hother)

theorem inv_run (h : Inv base s) (hrun : Run (Guarded UserFaults Step) s ops s') :
    Inv base s' ∧ KeepsImages s s' ∧ ((∀ op ∈ ops, op.call = n) → Moves n s s') := by
  induction hrun with
  | nil => exact ⟨h, fun _ _ happ ↦ ⟨happ, rfl⟩, fun _ ↦ .refl n _⟩
  | snoc run last ih =>
      obtain ⟨hinv, himages, hmoves⟩ := ih
      obtain ⟨hfault, hop, freed, hexec⟩ := last
      have hkeeps := keeps_exec hinv hfault hop hexec
      refine ⟨hkeeps.inv, himages.trans hkeeps.moves.keepsImages, fun hcalls ↦ ?_⟩
      have hlast := hcalls _ (List.mem_append_right _ List.mem_cons_self)
      exact (hmoves fun op hin ↦ hcalls op (List.mem_append_left _ hin)).trans (hlast ▸ hkeeps.moves)

end Runs

/-! ## An application without pages -/

/-- The headers of an application with one empty segment. -/
def emptyImage : ℕ → UInt8 :=
  ByteMemory.writeBytes (elfFile [(0xffff800000000000, 0, 0)]) 0 [0x7f, 0x45, 0x4c, 0x46]

/-- The application as a file of 120 bytes. -/
def elfVolume : Fat.Volume where
  bpb := Fat.abcVolume.bpb
  mem := fun x ↦
    if x = 17436 then 120 else if 17920 ≤ x then emptyImage (x - 17920) else Fat.abcVolume.mem x

theorem fileBuf_elfVolume : ∃ image, fileBuf elfVolume (fun _ ↦ 0) Fat.sampleEntry = some image ∧
    isElf image = true ∧ eType image = etExec ∧
      programHeaders image = [⟨1, 0, 0xffff800000000000, 0, 0⟩] := by
  have hread : (elfVolume.read (.fresh Fat.sampleEntry)
      (elfVolume.fileSize Fat.sampleEntry)).map Prod.fst = some ((List.range 120).map emptyImage) := by
    decide +kernel
  obtain ⟨r, hr, hbytes⟩ := Option.map_eq_some_iff.mp hread
  refine ⟨fun i ↦ (r.1[i]?).getD 0, by rw [fileBuf, hr]; rfl, ?_⟩
  rw [hbytes]
  decide +kernel

/-- The page maps of the kernel, and 4029 free frames. -/
def bootSystem : System where
  mem := kernelMachine.mem
  memoryManager :=
    ⟨fun line ↦ if line = 0 then 0xffffffffffffffff#64 else if line = 1 then 0x7#64 else 0#64, 0, 4096⟩
  appLoads := fun _ ↦ none
  calls := fun _ ↦ none

/-- The terminal runs with the page maps of the kernel. -/
def bootTask : AppTask where
  dpagingBegin := 0
  dpagingEnd := 0
  fileMaps := []
  files := []
  cr3 := 1
  contextCr3 := 0x1000
  fileMapEnd := 0

def launchOps : List Op :=
  [.loadApp 0 bootTask elfVolume (fun _ ↦ 0) Fat.sampleEntry, .setupStack 0,
    .setupArgs 0 [] [0x61, 0x70, 0x70] none]

theorem bootSystem_fresh : bootSystem.Fresh := ⟨by decide, fun _ ↦ rfl, fun _ ↦ rfl⟩

theorem bootSystem_allocated : ∀ g ∈ [0, 1, 2, 3], bootSystem.Allocated g := by
  have hall : ∀ g ∈ [0, 1, 2, 3], bootSystem.memoryManager.getBit g = true := by decide +kernel
  exact hall

theorem card_bootSystem : 3968 ≤ bootSystem.memoryManager.freeFrames.card := by
  have hsub : Finset.Ico 128 4096 ⊆ bootSystem.memoryManager.freeFrames := by
    intro f hf
    obtain ⟨hlow, hhigh⟩ := Finset.mem_Ico.mp hf
    have hline : ¬ f / 64 = 0 ∧ ¬ f / 64 = 1 := by omega
    refine BitmapMemoryManager.mem_freeFrames.mpr ⟨⟨Nat.zero_le f, hhigh⟩, ?_⟩
    rw [BitmapMemoryManager.getBit_eq_getLsbD]
    simp [bootSystem, hline]
  exact (Finset.card_le_card hsub).trans' (by simp)

theorem firstPage_bootSystem : FirstPage (bootSystem.machine 1) 2 3 :=
  ⟨⟨rfl, rfl⟩, rfl, ⟨rfl, rfl⟩, rfl, ⟨rfl, rfl⟩, rfl⟩

theorem admissible_loadApp (s : System) (n : ℕ) :
    Admissible s (.loadApp n bootTask elfVolume (fun _ ↦ 0) Fat.sampleEntry) := by
  obtain ⟨image, hbuf, -, -, hheaders⟩ := fileBuf_elfVolume
  intro _ image' hbuf' ph hph _
  obtain rfl := Option.some.inj (hbuf.symm.trans hbuf')
  rw [hheaders] at hph
  obtain rfl := List.mem_singleton.mp hph
  exact ⟨le_rfl, by decide, by decide⟩

/-- The first page is mapped for a call whose PML4 has the lower half of the kernel's. -/
theorem firstPage_of_boot {s : System} {r : ℕ} (hlow : s.mem r 0 = bootSystem.mem 1 0)
    (hsame : ∀ g ∈ [0, 1, 2, 3], s.mem g = bootSystem.mem g) : FirstPage (s.machine r) 2 3 :=
  firstPage_bootSystem.of_same hlow (congrFun (hsame 2 (by simp)) 0) (congrFun (hsame 3 (by simp)) 0)

/-- The application is running, and its image has no pages. -/
structure Started (s : System) (c : Call) (first : AppLoadInfo) : Prop where
  inv : Inv bootSystem.Allocated s
  calls : s.calls 0 = some c
  phase : c.phase = .running
  other : s.calls 1 = none
  firstPage : FirstPage (s.machine c.cr3) 2 3
  card : 2900 ≤ s.memoryManager.freeFrames.card
  appLoads : s.appLoads Fat.sampleEntry = some first
  empty : ∀ k, Entry userHalf 0 k → s.entry (.image Fat.sampleEntry) (0, k) = none

theorem exists_launch : ∃ s c first, Run (Guarded UserFaults Step) bootSystem launchOps s ∧
    Started s c first := by
  obtain ⟨image, hbuf, helf, htype, hheaders⟩ := fileBuf_elfVolume
  obtain ⟨appLoad, l, first, hload, hfresh, hfirst, hempty⟩ := loadApp_empty
    (s := ⟨bootTask.toFaultTask, bootSystem.machine bootTask.cr3, bootTask.contextCr3,
      bootTask.fileMapEnd, bootSystem.appLoads⟩)
    hbuf helf htype hheaders rfl (by decide) (by decide) (by simp [Phdr.Stores]) rfl
    (bootSystem_allocated 1 (by simp)) ((show 2 ≤ 3968 by decide).trans card_bootSystem)
  obtain ⟨s₁, c₁, hstep, hphase₁, hcr3, hinv, hmachine, happLoads, hcalls⟩ :=
    exists_loadApp bootSystem_fresh.inv rfl (admissible_loadApp bootSystem 0) hload
  have hmem : s₁.mem = l.machine.mem := congrArg Machine.mem hmachine
  have hmm : s₁.memoryManager = l.machine.memoryManager := congrArg Machine.memoryManager hmachine
  have hc₁ : s₁.calls 0 = some c₁ := by rw [hcalls, Function.update_self]
  have h₁ := Launching.of_empty hinv hc₁ fun k hk ↦ by
    rw [hmem, hcr3, hfresh.cr3, hfresh.empty k hk]
  have hpage₁ : FirstPage (s₁.machine c₁.cr3) 2 3 := firstPage_of_boot (by
    rw [hmem, hcr3, hfresh.cr3]
    exact hfresh.low 0 (by decide)) fun g hg ↦ by
      rw [hmem]
      exact hfresh.same g (bootSystem_allocated g hg)
  have hcard : s₁.memoryManager.freeFrames.card + 2 = bootSystem.memoryManager.freeFrames.card :=
    hmm ▸ hfresh.card
  have hfree := card_bootSystem
  obtain ⟨s, c, hrun, hinv', hc, hphase, hcr3', hcard', hpage⟩ := h₁.run hphase₁ (by omega)
    [0x61, 0x70, 0x70] (by decide)
  have hmoves := (inv_run (n := 0) hinv hrun).2.2 (by simp [Op.call])
  have hfirst₁ : s₁.appLoads Fat.sampleEntry = some first := happLoads ▸ hfirst
  have hroot : s₁.root (.image Fat.sampleEntry) = some first.pml4 := by
    rw [System.root, hfirst₁, Option.map_some]
  refine ⟨s, c, first, (Run.single hstep).append hrun, hinv', hc, hphase, ?_, ?_, by omega,
    hmoves.images hfirst₁, ?_⟩
  · rw [hmoves.calls 1 (by decide), hcalls, Function.update_of_ne (by decide)]
    rfl
  · rw [hcr3']
    exact hpage (.inr ⟨by decide, _, hinv.root hc₁⟩) (bootSystem_allocated 2 (by simp))
      (bootSystem_allocated 3 (by simp)) hpage₁
  · intro k hk
    rw [hmoves.entries _ (image_ne_app Fat.sampleEntry · 0) hroot, System.entry,
      spaces_entry hroot hk]
    refine Accounted.entry_zero_none (fun k hk ↦ ?_) hk
    change s₁.mem first.pml4 k = 0#64
    rw [hmem, hempty k hk]

/-- A call ends, and its task is back on the page maps of the kernel. -/
theorem exists_exit {s : System} {n : ℕ} {c : Call} (hc : s.calls n = some c)
    (hphase : c.phase = .running) : ∃ s', s'.calls n = none ∧
      Run (Guarded UserFaults Step) s [.cleanPageMaps n, .freePML4 n] s' := by
  have hclean : s.exec (.cleanPageMaps n) = some (s.cleanPageMaps n c) := by
    simp only [System.exec, System.callIn, hc, Option.filter_some, hphase, decide_true, if_true,
      Option.map_some]
  obtain ⟨c', hcalls, hphase'⟩ : ∃ c', (s.cleanPageMaps n c).1.calls n = some c' ∧
      c'.phase = .cleaned := by
    refine ⟨{ c with files := [], fileMaps := [], phase := .cleaned }, ?_, rfl⟩
    exact Function.update_self n (some _) s.calls
  have hfree : (s.cleanPageMaps n c).1.exec (.freePML4 n) =
      some ((s.cleanPageMaps n c).1.freePML4 n c') := by
    simp only [System.exec, System.callIn, hcalls, Option.filter_some, hphase', decide_true, if_true,
      Option.map_some]
  refine ⟨_, ?_, (Run.single ⟨trivial, trivial, _, hclean⟩).snoc ⟨trivial, trivial, _, hfree⟩⟩
  exact Function.update_self n none (s.cleanPageMaps n c).1.calls

/-! ## Every run -/

variable {s₀ s : System} {ops : List Op}

/-- In every run whose faults are in the user half, the frames of the applications are
accounted for. -/
theorem run_accounts (hfresh : s₀.Fresh) (hrun : Run (Guarded UserFaults Step) s₀ ops s) :
    Accounts UserFaults s₀ s := by
  obtain ⟨hinv, -, -⟩ := inv_run (n := 0) hfresh.inv hrun
  refine ⟨hinv.allocated_iff, fun {op s' freed} hfault hop hexec ↦ ?_, fun {n ops s'} hmore hn hn' ↦ ?_⟩
  · have hkeeps := keeps_exec hinv hfault hop hexec
    refine ⟨hkeeps.nodup, fun f hf ↦ ⟨(hkeeps.freed f hf).1, (hkeeps.freesOwn hf).1⟩,
      fun f hf ↦ (hkeeps.freesOwn hf).2⟩
  · obtain ⟨hinv', himages, hmoves⟩ := inv_run (n := n) hinv hmore
    have hallocated : ∀ f, s.Allocated f ↔
        s₀.Allocated f ∨ s.ImageHolds f ∨ s.OtherHolds n f := by
      intro f
      rw [hinv.allocated_iff, callHolds_iff hn]
    have hallocated' : ∀ f, s'.Allocated f ↔
        s₀.Allocated f ∨ (s.ImageHolds f ∨ NewImageHolds s s' f) ∨ s'.OtherHolds n f := by
      intro f
      rw [hinv'.allocated_iff, imageHolds_iff himages, callHolds_iff hn']
    constructor
    · intro f
      rw [hallocated, hallocated']
      tauto
    · intro hcalls f
      rw [hallocated, hallocated', (hmoves hcalls).otherHolds_iff]
      tauto

theorem run_accounts_launch : ∃ s,
    Run (Guarded UserFaults Step) bootSystem (launchOps ++ [.cleanPageMaps 0, .freePML4 0]) s ∧
      Accounts UserFaults bootSystem s := by
  obtain ⟨s, c, first, hrun, h⟩ := exists_launch
  obtain ⟨s', -, hexit⟩ := exists_exit h.calls h.phase
  exact ⟨s', hrun.append hexit, run_accounts bootSystem_fresh (hrun.append hexit)⟩

/-! ## Faults in the kernel -/

section Lost

variable {s : System} {base : ℕ → Prop} {n pdpt pd causalAddr f : ℕ} {c : Call}

/-- A write of an application to the first page takes a frame that no application gets. -/
theorem Inv.kernelFault (v : Fat.Volume) (errorCode : ℕ) (h : Inv base s) (hc : s.calls n = some c) (hphase : c.phase = .running)
    (hpage : FirstPage (s.machine c.cr3) pdpt pd) (hbase : ∀ g ∈ [0, pdpt, pd], base g)
    (hfree : s.memoryManager.freeFrames ≠ ∅) (hlow : causalAddr < 2 ^ 21)
    (hwrite : UserWrite errorCode) :
    ∃ s' f, Step s (.pageFault n v errorCode causalAddr) s' ∧ s'.calls = s.calls ∧
      s'.appLoads = s.appLoads ∧ f ∈ s.memoryManager.freeFrames ∧
        s'.memoryManager = s.memoryManager.markAllocated f 1 ∧
          (∀ g, g ≠ f → g ≠ 0 → s'.mem g = s.mem g) ∧ Inv (fun g ↦ base g ∨ g = f) s' := by
  have halloc : ∀ g ∈ [0, pdpt, pd], s.Allocated g := fun g hg ↦
    (h.allocated_iff g).mpr (.inl (hbase g hg))
  have hcr3 : s.Allocated c.cr3 :=
    (h.machine c.cr3).separated.alloc_of_owns (o := .root (.app c.fileEntry n)) (h.root hc)
  obtain ⟨f, hf, m, hcopy, hmm, hm, hmem⟩ := hpage.copyOnePage hlow (by
    intro g hg
    rcases List.mem_cons.mp hg with rfl | hg
    · exact hcr3
    · exact halloc g (List.mem_cons_of_mem 0 hg)) hfree
  have hexec : s.exec (.pageFault n v errorCode causalAddr) = some (s.update m n (some c), []) := by
    have hin : s.callIn n .running = some c := by simp [System.callIn, hc, hphase]
    have hfault : handlePageFault v c.toFaultTask (s.machine c.cr3) errorCode causalAddr =
        some (.ok (), m) := (handlePageFault_userWrite hwrite).trans hcopy
    simp only [System.exec, hin, Option.bind_some, System.pageFault, hfault, Option.map_some]
  have hcalls : (s.update m n (some c)).calls = s.calls := by
    rw [System.update, ← hc]
    exact Function.update_eq_self n s.calls
  have hroot : (s.update m n (some c)).root = s.root := root_update hc m rfl rfl
  have htables : ∀ {j r d q table}, s.root j = some r → Entry userHalf d q →
      (s.machine c.cr3).tableOf r d q = some table →
        m.mem table (q % 512) = (s.machine c.cr3).mem table (q % 512) := by
    intro j r d q table hj hentry htable
    have howns := (h.machine c.cr3).owns_table hj hentry htable
    rw [hmem]
    · rintro rfl
      exact Accounted.not_allocated_of_free hf ((h.machine c.cr3).allocated_table hj hentry htable)
    · rintro rfl
      exact (h.machine c.cr3).separated.outside (hbase 0 (by simp)) howns
  obtain ⟨haccounted, hspaces⟩ := (h.machine c.cr3).join hf hmm htables
  have hentry : ∀ x k, (s.update m n (some c)).entry x k = s.entry x k := by
    intro x k
    have hmem' : ((s.update m n (some c)).machine 0).mem = m.mem := rfl
    rw [System.entry, hroot, spaces_of_mem hmem', hspaces, entry_machine]
  refine ⟨s.update m n (some c), f, ⟨fun c' hc' ↦ ?_, [], hexec⟩, hcalls, rfl, hf, hmm, hmem,
    ⟨?_, ?_, ?_⟩⟩
  · obtain rfl := Option.some.inj (hc.symm.trans hc')
    exact hpage.raises hlow hwrite
  · have hsame : ((s.update m n (some c)).machine 0).memoryManager = m.memoryManager := rfl
    rw [hroot]
    exact (haccounted.of_pages hsame fun _ _ _ ↦ rfl).1
  · intro fileEntry p g w hg
    rw [hentry] at hg
    exact h.pages hg
  · intro k call hcall
    rw [hcalls] at hcall
    obtain ⟨hpml4, hcontext, hcleaned⟩ := h.calls hcall
    exact ⟨hpml4, hcontext, fun hphase k' ↦ (hentry _ _).trans (hcleaned hphase k')⟩

/-- A frame outside of the address spaces stays so. -/
theorem Inv.lost (h : Inv base s) (hf : base f) :
    s.Allocated f ∧ ¬ s.ImageHolds f ∧ ¬ s.CallHolds f := by
  refine ⟨(h.allocated_iff f).mpr (.inl hf), not_or.mp fun hholds ↦ ?_⟩
  obtain ⟨x, r, hroot, hin⟩ := exists_root_iff.mpr hholds
  rcases (mem_framesOf hroot).mp hin with rfl | ⟨⟨d, q⟩, w, hw⟩
  · exact h.accounted.separated.outside (o := .root x) hf hroot
  · by_cases hd : d = 3
    · obtain ⟨j, howns⟩ := h.accounted.separated.leaf_owner ((h.accounted.leaf _).mpr hd) hw
      exact h.accounted.separated.outside hf howns
    · exact h.accounted.separated.outside hf
        (Separated.owns_inner (fun hleaf ↦ hd ((h.accounted.leaf _).mp hleaf)) hw)

end Lost

/-- A second call of the same application, during which the first one writes to `0x100`. -/
def leakOps : List Op :=
  [.loadApp 1 bootTask elfVolume (fun _ ↦ 0) Fat.sampleEntry, .pageFault 0 elfVolume 7 0x100,
    .setupStack 1, .setupArgs 1 [] [0x61, 0x70, 0x70] none, .cleanPageMaps 1, .freePML4 1]

/-- The image leads to nothing. -/
theorem Started.absent {s : System} {c : Call} {first : AppLoadInfo} (h : Started s c first) {k : ℕ}
    (hlow : 256 ≤ k) (hk : k < 512) : (s.mem first.pml4 k).present = false := by
  have hentry : Entry userHalf 0 k := ⟨by decide, by simpa using hk, by simpa [userHalf] using hlow⟩
  have hroot : s.root (.image Fat.sampleEntry) = some first.pml4 := by
    rw [System.root, h.appLoads, Option.map_some]
  have hnone := h.empty k hentry
  rw [System.entry, spaces_entry hroot hentry] at hnone
  change (s.machine 0).cell first.pml4 (k % 512) = none at hnone
  rw [Nat.mod_eq_of_lt hk] at hnone
  by_contra hpresent
  cases hnone.symm.trans (cell_eq rfl (eq_true_of_ne_false hpresent))

/-- The second call is loaded, and the first one writes to the kernel. -/
theorem Started.exists_leak {s : System} {c : Call} {first : AppLoadInfo} (h : Started s c first) :
    ∃ s' c' total f, Run Step s
      [.loadApp 1 bootTask elfVolume (fun _ ↦ 0) Fat.sampleEntry, .pageFault 0 elfVolume 7 0x100] s' ∧
      Launching (fun g ↦ bootSystem.Allocated g ∨ g = f) s' 1 c' total ∅ ∧ c'.phase = .loaded ∧
        1028 ≤ total ∧ ¬ s.Allocated f := by
  have hbase : ∀ g ∈ [0, 1, 2, 3], s.Allocated g := fun g hg ↦
    (h.inv.allocated_iff g).mpr (.inl (bootSystem_allocated g hg))
  have hcard := h.card
  have hfree : s.memoryManager.freeFrames ≠ ∅ := by
    intro hnone
    rw [hnone, Finset.card_empty] at hcard
    omega
  have hroot : s.root (.image Fat.sampleEntry) = some first.pml4 := by
    rw [System.root, h.appLoads, Option.map_some]
  obtain ⟨appLoad, l, hload, hfresh⟩ := loadApp_cached elfVolume (fun _ ↦ 0)
    (s := ⟨bootTask.toFaultTask, s.machine bootTask.cr3, bootTask.contextCr3, bootTask.fileMapEnd,
      s.appLoads⟩) h.appLoads
    (h.inv.accounted.separated.alloc_of_owns (o := .root (.image Fat.sampleEntry)) hroot)
    (fun _ ↦ h.absent) (hbase 1 (by simp)) hfree
  obtain ⟨s₁, c', hstep, hphase, hcr3, hinv, hmachine, -, hcalls⟩ :=
    exists_loadApp h.inv h.other (admissible_loadApp s 1) hload
  have hmem : s₁.mem = l.machine.mem := congrArg Machine.mem hmachine
  have hmm : s₁.memoryManager = l.machine.memoryManager := congrArg Machine.memoryManager hmachine
  have hsame : ∀ g, s.Allocated g → s₁.mem g = s.mem g := hmem ▸ hfresh.same
  have hcard₁ : s₁.memoryManager.freeFrames.card + 1 = s.memoryManager.freeFrames.card :=
    hmm ▸ hfresh.card
  have hfree₁ : s₁.memoryManager.freeFrames ≠ ∅ := by
    intro hnone
    rw [hnone, Finset.card_empty] at hcard₁
    omega
  have hc : s₁.calls 0 = some c := by rw [hcalls, Function.update_of_ne (by decide), h.calls]
  have hc' : s₁.calls 1 = some c' := by rw [hcalls, Function.update_self]
  have hpml4 : s.Allocated c.cr3 := (h.inv.machine c.cr3).separated.alloc_of_owns
    (o := .root (.app c.fileEntry 0)) (h.inv.root h.calls)
  have hpage : FirstPage (s₁.machine c.cr3) 2 3 := h.firstPage.of_same
    (congrFun (hsame c.cr3 hpml4) 0) (congrFun (hsame 2 (hbase 2 (by simp))) 0)
    (congrFun (hsame 3 (hbase 3 (by simp))) 0)
  obtain ⟨s₂, f, hfault, hcalls₂, -, hf, hmm₂, hmem₂, hinv₂⟩ :=
    Inv.kernelFault elfVolume 7 hinv hc h.phase hpage
      (fun g hg ↦ bootSystem_allocated g (by
        simp only [List.mem_cons, List.not_mem_nil, or_false] at hg ⊢
        tauto))
      hfree₁ (show 0x100 < 2 ^ 21 by decide)
      ⟨by decide, by decide, by decide⟩
  have hcard₂ : s₂.memoryManager.freeFrames.card + 1 = s₁.memoryManager.freeFrames.card := by
    rw [hmm₂, BitmapMemoryManager.freeFrames_markAllocated_one]
    exact Finset.card_erase_add_one hf
  -- the page maps of the second call are as they were loaded
  have hne : c'.cr3 ≠ f ∧ c'.cr3 ≠ 0 := by
    rw [hcr3, hfresh.cr3]
    refine ⟨?_, (hfresh.busy 0 (hbase 0 (by simp))).1.symm⟩
    rintro rfl
    exact notMem_freeFrames_of_getBit (hmm ▸ hfresh.allocated) hf
  have hlaunching := Launching.of_empty hinv₂ (hcalls₂ ▸ hc') fun k hk ↦ by
    rw [hmem₂ _ hne.1 hne.2, hmem, hcr3, hfresh.cr3, hfresh.empty k hk]
  refine ⟨s₂, c', _, f, (Run.single hstep.2).snoc hfault, hlaunching, hphase, by omega, fun hbit ↦ ?_⟩
  exact notMem_freeFrames_of_getBit (hmm ▸ (hfresh.busy f hbit).2) hf

/-- The second call has exited, and a frame is allocated that was free before and that no image
and no call leads to. -/
theorem run_leaks : bootSystem.Fresh ∧ ∃ s s' f, Run Step bootSystem launchOps s ∧
    Run Step s leakOps s' ∧ s.calls 1 = none ∧ s'.calls 1 = none ∧ ¬ s.Allocated f ∧
      s'.Allocated f ∧ ¬ s'.ImageHolds f ∧ ¬ s'.CallHolds f ∧
        ¬ Accounts (fun _ _ ↦ True) bootSystem s := by
  have hunguarded : ∀ {s ops s'}, Run (Guarded UserFaults Step) s ops s' → Run Step s ops s' :=
    fun hrun ↦ hrun.mono fun _ _ _ h ↦ h.2
  obtain ⟨s, c, first, hrun, h⟩ := exists_launch
  obtain ⟨s₁, c₁, total, f, hleak, hlaunching, hphase, htotal, hold⟩ := h.exists_leak
  obtain ⟨s₂, c₂, hlaunch, hinv, hc₂, hphase₂, -⟩ := hlaunching.run hphase htotal
    [0x61, 0x70, 0x70] (by decide)
  obtain ⟨s', hnone, hexit⟩ := exists_exit hc₂ hphase₂
  obtain ⟨hallocated, himage, hcall⟩ := (inv_run (n := 1) hinv hexit).1.lost (f := f) (.inr rfl)
  have hall : Run Step s leakOps s' := hleak.append (hunguarded (hlaunch.append hexit))
  refine ⟨bootSystem_fresh, s, s', f, hunguarded hrun, hall, h.other, hnone, hold, hallocated, himage,
    hcall, fun haccounts ↦ ?_⟩
  have hbalance := (haccounts.exit (n := 1) (hall.mono fun _ _ _ hs ↦ ⟨trivial, hs⟩) h.other hnone).1 f
  rcases hbalance.mp (.inl hallocated) with hbit | ⟨fileEntry, app, -, happ, hholds⟩ | hother
  · exact hold hbit
  · exact himage ⟨fileEntry, app, happ, hholds⟩
  · exact hcall (callHolds_of_other hother)

end Lifetime
end App
end MinOS
