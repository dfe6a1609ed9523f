import MinOS.App.Lifetime
import MinOS.Paging.Isolates

/-!
# Isolation of applications

What an application reads in the user half does not depend on the other applications, as long as
nothing is stored to pages that are read-only.
-/

namespace MinOS
namespace App

open Paging Paging.Machine PageMapEntry Ownership

/-! ## Faults -/

section Faults

variable {ι : Type*} [DecidableEq ι] {σ : Policy ι (ℕ × ℕ)} {m m' : Machine} {root : ι → Option ℕ}
  {base : ℕ → Prop} {i : ι} {a errorCode f : ℕ} {v : Fat.Volume} {task : FaultTask}

omit [DecidableEq ι] in
/-- `CopyOnePage` writes the table of the page and the new page. -/
theorem mem_copyOnePage (h : Accounted σ m root base) (hroot : root i = some m.cr3)
    (hentry : Entry userHalf 3 (pageOf a)) {w : Bool}
    (hpage : (m.spaces root).entry i (3, pageOf a) = some (f, w))
    (hok : copyOnePage m a = some (.ok (), m')) :
    ∃ table frame, m.tableOf m.cr3 3 (pageOf a) = some table ∧ frame ∈ m.memoryManager.freeFrames ∧
      ∀ g, g ≠ table → g ≠ frame → m'.mem g = m.mem g := by
  rcases newPageMap_eq m with ⟨frame, hfree, hnew⟩ | ⟨-, hnew⟩
  · rw [copyOnePage_eq hnew] at hok
    obtain ⟨phys, -, hok⟩ := Option.map_eq_some_iff.mp hok
    obtain ⟨-, rfl⟩ := Prod.mk.inj hok
    obtain ⟨m₁, hm₁⟩ : ∃ m₁, m₁ = m.takeFrame frame
      ((m.takeFrame frame fun _ ↦ 0#64).mem (phys / 4096)) := ⟨_, rfl⟩
    rw [← hm₁]
    have hmem₁ : ∀ g, g ≠ frame → m₁.mem g = m.mem g := by
      intro g hg
      rw [hm₁, mem_takeFrame, if_neg hg]
    obtain ⟨e, hleaf, -⟩ := Option.map_eq_some_iff.mp
      ((entry_eq_pageEntry hroot hentry).symm.trans hpage)
    obtain ⟨table, htable, -⟩ := Option.bind_eq_some_iff.mp hleaf
    have htables : m₁.tableOf m.cr3 3 (pageOf a) = m.tableOf m.cr3 3 (pageOf a) :=
      (spaces_congr fun hroot' hentry' htable' ↦ by
        rw [hmem₁ _ (h.free_ne_table hroot' hentry' htable' hfree).symm]).2 hroot hentry
    refine ⟨table, frame, htable, hfree, fun g htable' hframe ↦ ?_⟩
    rw [setPageContent_eq (LinearAddress4Level.valid_ofValue a)
      (pageOf_eq a ▸ htables.trans htable) le_rfl rfl, mem_setEntry_of_ne _ htable', hmem₁ g hframe]
  · rw [copyOnePage, hnew] at hok
    cases (Prod.mk.inj (Option.some.inj hok)).1

theorem isolates_copyOnePage (h : Accounted σ m root base) (hroot : root i = some m.cr3)
    (hown : σ.own i = true) (hentry : Entry userHalf 3 (pageOf a))
    (hshared : (m.spaces root).entry i (3, pageOf a) = some (f, false))
    (hok : copyOnePage m a = some (.ok (), m')) : Isolates σ root base i Set.univ m m' := by
  obtain ⟨table, frame, htable, hfree, hmem⟩ := mem_copyOnePage h hroot hentry hshared hok
  refine ⟨updates_copyOnePage h hroot hown hentry hshared hok, fun hg ↦ hmem _ ?_ ?_⟩
  · exact h.foreign_ne_table hroot hentry htable hg
  · exact h.foreign_ne_free hfree hg

theorem isolates_setupPages (h : Accounted σ m root base) (hroot : root i = some m.cr3)
    (hown : σ.own i = true) {addr : LinearAddress4Level} (haddr : addr.Valid) {n : ℕ}
    (hpages : ∀ p, addr.pageNumber ≤ p → p < addr.pageNumber + n → p < 512 ^ 4 →
      p / 512 ^ 3 ∈ userHalf ∧ ∀ f w, (m.spaces root).entry i (3, p) = some (f, w) → w = true) :
    Isolates σ root base i Set.univ m (m.setupPageMaps addr n true).machine ∧
      GetsOwnPages σ root i m (m.setupPageMaps addr n true).machine := by
  have hisolates := h.isolates_setupPageMaps hroot haddr (hown.symm ▸ hpages)
  rwa [hown] at hisolates

omit [DecidableEq ι] in
theorem entry_of_page_none (h : Accounted σ m root base) (hroot : root i = some m.cr3)
    (hentry : Entry userHalf 3 (pageOf a)) (hpage : m.page (pageOf a) = none) :
    (m.spaces root).entry i (3, pageOf a) = none := by
  rw [h.page_eq hroot hentry, Option.map_eq_none_iff] at hpage
  rw [entry_eq_pageEntry hroot hentry, hpage, Option.map_none]

/-- A page that was not mapped. -/
theorem isolates_setupPage (h : Accounted σ m root base) (hroot : root i = some m.cr3)
    (hown : σ.own i = true) (hentry : Entry userHalf 3 (pageOf a)) (hpage : m.page (pageOf a) = none) :
    Isolates σ root base i Set.univ m (m.setupPageMaps (.ofValue a) 1 true).machine ∧
      GetsOwnPages σ root i m (m.setupPageMaps (.ofValue a) 1 true).machine := by
  refine isolates_setupPages h hroot hown (LinearAddress4Level.valid_ofValue a) ?_
  rw [← pageOf_eq]
  intro p hlow hhigh _
  obtain rfl : p = pageOf a := by omega
  refine ⟨hentry.top, fun f w hf ↦ ?_⟩
  cases (entry_of_page_none h hroot hentry hpage).symm.trans hf

/-- The file is loaded into the new page. -/
theorem isolates_preparePageCache (h : Accounted σ m root base) (hroot : root i = some m.cr3)
    (hown : σ.own i = true) (hlow : userBase ≤ a) (hlt : a < 2 ^ 64)
    (hpage : m.page (pageOf a) = none) {fd : OpenFile} {fm : FileMapping}
    (hok : preparePageCache v fd fm a m = some (.ok (), m')) :
    Isolates σ root base i Set.univ m m' := by
  have hbase : userBase = 2 ^ 64 - 2 ^ 47 := rfl
  have hdown : pageDown a + 4096 ≤ 2 ^ 64 ∧ userBase ≤ pageDown a ∧ pageDown a % 4096 = 0 := by
    simp only [pageDown]
    omega
  have hentry : Entry userHalf 3 (pageOf (pageDown a)) := entry_pageOf (by omega) (by omega)
  rw [← pageOf_pageDown a] at hpage
  obtain ⟨hsetup, hgets⟩ := isolates_setupPage h hroot hown hentry hpage
  simp only [preparePageCache, setPart_zero, value_ofValue] at hok
  cases hresult : (m.setupPageMaps (.ofValue (pageDown a)) 1 true).result with
  | error err =>
      rw [hresult] at hok
      cases (Prod.mk.inj (Option.some.inj hok)).1
  | ok r =>
      rw [hresult] at hok
      obtain ⟨bytes, hload, hok⟩ := Option.bind_eq_some_iff.mp hok
      obtain ⟨m₁, hstore, hok⟩ := Option.bind_eq_some_iff.mp hok
      obtain ⟨-, rfl⟩ := Prod.mk.inj (Option.some.inj hok)
      have hlen := OpenFile.load_length hload
      have hstored := hsetup.accounted.isolates_storeBytes (hsetup.cr3 ▸ hroot)
        (fun _ ↦ ⟨by omega, by omega⟩) (fun k hk f w hf ↦ by
          have hsame : pageOf (pageDown a + k) = pageOf (pageDown a) := by
            simp only [pageOf]
            omega
          rw [hsame] at hf
          exact (hgets hf).resolve_left fun hold ↦ by
            cases (entry_of_page_none h hroot hentry hpage).symm.trans hold) hstore
      exact hsetup.trans (hstored.mono (Set.empty_subset _))

/-- A fault in the user half. -/
theorem isolates_handlePageFault (h : Accounted σ m root base) (hroot : root i = some m.cr3)
    (hown : σ.own i = true) (hlow : userBase ≤ a) (hraises : Raises m errorCode a)
    (hok : handlePageFault v task m errorCode a = some (.ok (), m')) :
    Isolates σ root base i Set.univ m m' := by
  have hentry : Entry userHalf 3 (pageOf a) := entry_pageOf hlow hraises.lt
  by_cases hwrite : UserWrite errorCode
  · rw [handlePageFault_userWrite hwrite] at hok
    obtain ⟨f, hshared⟩ := readOnly_of_denied h hroot hentry hraises hwrite.1
    exact isolates_copyOnePage h hroot hown hentry hshared hok
  · by_cases hregion : errorCode.testBit 0 = false ∧ InRegions task a
    · obtain ⟨herror, hin⟩ := hregion
      have hpage : m.page (pageOf a) = none := by
        have hpresent := hraises.present
        rw [herror] at hpresent
        simpa using hpresent.symm
      by_cases hdpaging : task.dpagingBegin ≤ a ∧ a < task.dpagingEnd
      · rw [handlePageFault_dpaging herror hdpaging] at hok
        obtain ⟨-, rfl⟩ := Prod.mk.inj (Option.some.inj hok)
        exact (isolates_setupPage h hroot hown hentry hpage).1
      · obtain ⟨fm, hfm⟩ := Option.ne_none_iff_exists'.mp (hin.resolve_left hdpaging)
        simp only [handlePageFault, herror, Bool.false_and, Bool.false_eq_true, if_false,
          if_neg hdpaging, hfm] at hok
        obtain ⟨fd, -, hok⟩ := Option.bind_eq_some_iff.mp hok
        exact isolates_preparePageCache h hroot hown hlow hraises.lt hpage hok
    · obtain ⟨err, hsame⟩ := handlePageFault_unchanged (v := v) (m := m) hwrite fun herror hin ↦
        hregion ⟨herror, hin⟩
      rw [hsame] at hok
      cases (Prod.mk.inj (Option.some.inj hok)).1

end Faults

/-! ## Arguments -/

section Arguments

variable {ι : Type*} {σ : Policy ι (ℕ × ℕ)} {m m' : Machine} {root : ι → Option ℕ} {base : ℕ → Prop}
  {i : ι} {av av' : ArgVector} {r : Except Error Unit}

/-- From the stack on the space has only pages of its own. -/
def OwnStack (σ : Policy ι (ℕ × ℕ)) (root : ι → Option ℕ) (i : ι) (m : Machine) : Prop :=
  ∀ p, stackPage ≤ p → ∀ f w, (m.spaces root).entry i (3, p) = some (f, w) → w = σ.own i

theorem OwnStack.range (h : OwnStack σ root i m) {vaddr len : ℕ} (hlow : stackFrameAddr ≤ vaddr)
    (hend : vaddr + len ≤ 2 ^ 64) : OwnRange σ (m.spaces root) i vaddr len := by
  have hstack : stackFrameAddr = 2 ^ 64 - 4096 - 0x100 * 4096 := rfl
  intro k hk f w hf
  refine h _ ?_ f w hf
  simp only [stackPage, pageOf]
  omega

theorem OwnStack.of_isolates (h : OwnStack σ root i m) (hisolates : Isolates σ root base i ∅ m m') :
    OwnStack σ root i m' := by
  intro p hp f w hf
  rw [hisolates.changes.same fun _ hin ↦ hin] at hf
  exact h p hp f w hf

theorem isolates_push (h : Accounted σ av.machine root base) (hroot : root i = some av.machine.cr3)
    (hown : OwnStack σ root i av.machine) {arg : List UInt8}
    (hfit : av.argbufIndex + arg.length < argbufLen) (hpush : av.push arg = some (r, av')) :
    Isolates σ root base i ∅ av.machine av'.machine ∧
      av'.argbufIndex ≤ av.argbufIndex + arg.length + 1 := by
  have hframe : argsFrameAddr = 2 ^ 64 - 4096 := rfl
  have hbuf : argbuf = 2 ^ 64 - argbufLen := rfl
  have hlen : argbufLen = 4096 - 256 := rfl
  have hstack : stackFrameAddr = 2 ^ 64 - 4096 - 0x100 * 4096 := rfl
  rw [ArgVector.push] at hpush
  split_ifs at hpush with hfull
  · obtain ⟨-, rfl⟩ := Prod.mk.inj (Option.some.inj hpush)
    exact ⟨.refl h i ∅, by omega⟩
  · have hargc : av.argc < 32 := not_le.mp (not_or.mp hfull).1
    obtain ⟨m₁, hargv, hpush⟩ := Option.bind_eq_some_iff.mp hpush
    obtain ⟨m₂, hcopy, hpush⟩ := Option.bind_eq_some_iff.mp hpush
    obtain ⟨-, rfl⟩ := Prod.mk.inj (Option.some.inj hpush)
    have hend : argsFrameAddr + 8 * av.argc + ((List.range 8).map fun k ↦
        UInt8.ofNat ((argbuf + av.argbufIndex) / 256 ^ k)).length ≤ 2 ^ 64 := by
      rw [List.length_map, List.length_range]
      omega
    have hfirst := h.isolates_storeBytes hroot (fun _ ↦ ⟨by omega, hend⟩)
      (hown.range (by omega) hend) hargv
    have hend' : argbuf + av.argbufIndex + (arg ++ [0]).length ≤ 2 ^ 64 := by
      rw [List.length_append, List.length_singleton]
      omega
    have hsecond := hfirst.accounted.isolates_storeBytes (hfirst.cr3 ▸ hroot)
      (fun _ ↦ ⟨by omega, hend'⟩) ((hown.of_isolates hfirst).range (by omega) hend') hcopy
    exact ⟨hfirst.trans hsecond, le_rfl⟩

theorem isolates_pushArgs {p : List UInt8} : ∀ {av : ArgVector} {arg : List UInt8},
    Accounted σ av.machine root base → root i = some av.machine.cr3 →
      OwnStack σ root i av.machine → av.argbufIndex + arg.length + p.length < argbufLen →
        av.pushArgs arg p = some (r, av') → Isolates σ root base i ∅ av.machine av'.machine := by
  induction p with
  | nil =>
      intro av arg h hroot hown hfit hargs
      rw [ArgVector.pushArgs] at hargs
      split_ifs at hargs
      · obtain ⟨-, rfl⟩ := Prod.mk.inj (Option.some.inj hargs)
        exact .refl h i ∅
      · exact (isolates_push h hroot hown hfit hargs).1
  | cons c p ih =>
      intro av arg h hroot hown hfit hargs
      rw [List.length_cons] at hfit
      rw [ArgVector.pushArgs] at hargs
      split_ifs at hargs
      · obtain ⟨⟨r₁, av₁⟩, hpush, hargs⟩ := Option.bind_eq_some_iff.mp hargs
        obtain ⟨hfirst, hindex⟩ := isolates_push h hroot hown (by omega) hpush
        cases r₁ with
        | error err =>
            obtain ⟨-, rfl⟩ := Prod.mk.inj (Option.some.inj hargs)
            exact hfirst
        | ok u =>
            refine hfirst.trans (ih hfirst.accounted (hfirst.cr3 ▸ hroot) (hown.of_isolates hfirst)
              ?_ hargs)
            rw [List.length_nil]
            omega
      · refine ih h hroot hown ?_ hargs
        rw [List.length_append, List.length_singleton]
        omega

theorem isolates_makeArgVector (h : Accounted σ m root base) (hroot : root i = some m.cr3)
    (hown : OwnStack σ root i m) {command : List UInt8} {firstArg : Option (List UInt8)}
    (hfit : command.length + (firstArg.getD []).length + 1 < argbufLen)
    (hvector : makeArgVector m command firstArg = some (r, av)) :
    Isolates σ root base i ∅ m av.machine := by
  obtain ⟨⟨r₁, av₁⟩, hpush, hvector⟩ := Option.bind_eq_some_iff.mp hvector
  have hstart : Accounted σ (ArgVector.mk m 0 0).machine root base := h
  obtain ⟨hfirst, hindex⟩ : Isolates σ root base i ∅ m av₁.machine ∧
      av₁.argbufIndex ≤ 0 + command.length + 1 :=
    isolates_push hstart hroot hown (by dsimp only; omega) hpush
  cases r₁ with
  | error err =>
      obtain ⟨-, rfl⟩ := Prod.mk.inj (Option.some.inj hvector)
      exact hfirst
  | ok u =>
      cases firstArg with
      | none =>
          obtain ⟨-, rfl⟩ := Prod.mk.inj (Option.some.inj hvector)
          exact hfirst
      | some p =>
          refine hfirst.trans (isolates_pushArgs hfirst.accounted (hfirst.cr3 ▸ hroot)
            (hown.of_isolates hfirst) ?_ hvector)
          rw [Option.getD_some] at hfit
          rw [List.length_nil]
          omega

end Arguments

/-! ## Images -/

section Images

variable {ι : Type*} {σ : Policy ι (ℕ × ℕ)} {m m' : Machine} {root : ι → Option ℕ} {base : ℕ → Prop}
  {i : ι} {image : ℕ → UInt8} {ph : Phdr}

theorem ownRange_of_template (h : Accounted σ m root base) (htemplate : σ.template i = i)
    (vaddr len : ℕ) : OwnRange σ (m.spaces root) i vaddr len := by
  intro k _ f w hf
  exact own_of_template h htemplate hf

theorem isolates_copySegment (h : Accounted σ m root base) (hroot : root i = some m.cr3)
    (htemplate : σ.template i = i) (hbelow : ph.BelowStack) (hok : copySegment image ph m = some m') :
    Isolates σ root base i ∅ m m' := by
  obtain ⟨hfilesz, hbase, hend⟩ := hbelow
  have hstack : stackFrameAddr = 2 ^ 64 - 4096 - 0x100 * 4096 := rfl
  have huser : userBase = 2 ^ 64 - 2 ^ 47 := rfl
  have haddr : uint64Add ph.pVaddr ph.pFilesz = ph.pVaddr + ph.pFilesz := by
    simp only [uint64Add]
    omega
  have hsize : uint64Sub ph.pMemsz ph.pFilesz = ph.pMemsz - ph.pFilesz := by
    simp only [uint64Sub]
    omega
  obtain ⟨m₁, hcopy, hfill⟩ := Option.bind_eq_some_iff.mp hok
  have hcopied := h.isolates_storeBytes hroot (fun _ ↦ by
    rw [ByteMemory.length_readBytes]
    omega) (ownRange_of_template h htemplate _ _) hcopy
  rw [haddr, hsize] at hfill
  exact hcopied.trans (hcopied.accounted.isolates_storeBytes (hcopied.cr3 ▸ hroot) (fun _ ↦ by
    rw [List.length_replicate]
    omega) (ownRange_of_template hcopied.accounted htemplate _ _) hfill)

variable [DecidableEq ι]

theorem isolates_copyLoadSegments (hown : σ.own i = false) (htemplate : σ.template i = i)
    {phdrs : List Phdr} : ∀ {m : Machine} {lastAddr last : ℕ}, Accounted σ m root base →
      root i = some m.cr3 → (∀ ph ∈ phdrs, ph.pType = ptLoad → ph.BelowStack) →
      (copyLoadSegments image phdrs lastAddr m).result = some (.ok last) →
        Isolates σ root base i Set.univ m (copyLoadSegments image phdrs lastAddr m).machine := by
  induction phdrs with
  | nil => exact fun {m _ _} h _ _ _ ↦ .refl h i _
  | cons ph phdrs ih =>
      intro m lastAddr last h hroot hsegments hok
      have hrest : ∀ ph ∈ phdrs, ph.pType = ptLoad → ph.BelowStack := fun ph hin ↦
        hsegments ph (List.mem_cons_of_mem _ hin)
      rw [copyLoadSegments] at hok ⊢
      split_ifs at hok ⊢ with hload
      · exact ih h hroot hrest hok
      · have hbelow := hsegments ph List.mem_cons_self (not_not.mp hload)
        have hsetup := (h.isolates_setupPageMaps hroot
          (LinearAddress4Level.valid_ofValue ph.pVaddr) (n := ph.num4kpages)
          fun p hlow hhigh _ ↦ ⟨(hbelow.pages hlow hhigh).1, fun _ _ hf ↦
            own_of_template h htemplate hf⟩).1
        rw [hown] at hsetup
        dsimp only at hok ⊢
        split at hok
        · cases hok
        · split at hok
          · cases hok
          · next m₁ hcopy =>
            have hcopied := isolates_copySegment hsetup.accounted (hsetup.cr3 ▸ hroot) htemplate
              hbelow hcopy
            have hhere := hsetup.trans (hcopied.mono (Set.empty_subset _))
            exact hhere.trans (ih hhere.accounted (hhere.cr3 ▸ hroot) hrest hok)

theorem isolates_loadELF (h : Accounted σ m root base) (hroot : root i = some m.cr3)
    (hown : σ.own i = false) (htemplate : σ.template i = i)
    (hsegments : ∀ ph ∈ programHeaders image, ph.pType = ptLoad → ph.BelowStack) {last : ℕ}
    (hok : (loadELF image m).result = some (.ok last)) :
    Isolates σ root base i Set.univ m (loadELF image m).machine := by
  rw [loadELF] at hok ⊢
  split_ifs at hok ⊢
  · cases hok
  · cases hok
  · exact isolates_copyLoadSegments hown htemplate h hroot hsegments hok

end Images

/-! ## Loaded applications -/

section LoadApp

variable {s s' s₁ : LaunchState} {root : AppSpace → Option ℕ} {base : ℕ → Prop}
  {v : Fat.Volume} {behind image : ℕ → UInt8} {fileEntry pml4 src f : ℕ}
  {appLoad appLoad' : AppLoadInfo} {o : Owner AppSpace (ℕ × ℕ)}

theorem NewPml4.kept (h : NewPml4 s s₁ pml4) (hf : s.machine.memoryManager.getBit f = true) :
    f ≠ pml4 ∧ s₁.machine.memoryManager.getBit f = true ∧ s₁.machine.mem f = s.machine.mem f := by
  have hne : f ≠ pml4 := by
    rintro rfl
    exact notMem_freeFrames_of_getBit hf h.free
  refine ⟨hne, ?_, h.same f hne⟩
  rw [h.memoryManager]
  exact (Accounted.getBit_markAllocated_iff pml4 f).mpr (.inr hf)

/-- `SetupPML4` and the copy write frames that were free. -/
theorem mem_copyImage (hnew : NewPml4 s s₁ pml4)
    (hcopy : s₁.copyImage pml4 src appLoad = (.ok appLoad', s'))
    (hf : s.machine.memoryManager.getBit f = true) : s'.machine.mem f = s.machine.mem f := by
  obtain ⟨hne, hbit, hsame⟩ := hnew.kept hf
  have htakes := takes_copyPageMaps 4 256 s₁.machine pml4 src
  rw [LaunchState.copyImage] at hcopy
  rcases hresult : s₁.machine.copyPageMaps 4 256 pml4 src with ⟨err | u, m'⟩ <;>
    rw [hresult] at hcopy htakes
  · cases (Prod.mk.inj hcopy).1
  · obtain ⟨-, rfl⟩ := Prod.mk.inj hcopy
    exact (htakes.same hbit hne).trans hsame

/-- `LoadELF` and the copy of the image are what a first launch does. -/
theorem loadNew_cases (hload : s₁.loadNew image fileEntry pml4 = some (.ok appLoad, s')) :
    ∃ last s₂ s₃ pml4', (loadELF image s₁.machine).result = some (.ok last) ∧
      s₂.machine = (loadELF image s₁.machine).machine ∧
      s₂.appLoads = Function.update s₁.appLoads fileEntry (some ⟨last, eEntry image, pml4⟩) ∧
      NewPml4 s₂ s₃ pml4' ∧
      s₃.copyImage pml4' pml4 ⟨last, eEntry image, pml4⟩ = (.ok appLoad, s') := by
  rw [LaunchState.loadNew] at hload
  split_ifs at hload
  · cases (Prod.mk.inj (Option.some.inj hload)).1
  dsimp only at hload
  cases hresult : (loadELF image s₁.machine).result with
  | none =>
      rw [hresult] at hload
      cases hload
  | some result =>
      cases result with
      | error err =>
          rw [hresult] at hload
          cases (Prod.mk.inj (Option.some.inj hload)).1
      | ok last =>
          rw [hresult] at hload
          dsimp only at hload
          obtain ⟨s₂, hs₂⟩ : ∃ s₂ : LaunchState, s₂ = { s₁ with
              machine := (loadELF image s₁.machine).machine
              appLoads := Function.update s₁.appLoads fileEntry
                (some ⟨last, eEntry image, pml4⟩) } := ⟨_, rfl⟩
          rw [← hs₂] at hload
          rcases hsetup : s₂.setupPML4 with ⟨err | pml4', s₃⟩ <;> rw [hsetup] at hload
          · cases (Prod.mk.inj (Option.some.inj hload)).1
          · exact ⟨last, s₂, s₃, pml4', rfl, by rw [hs₂], by rw [hs₂], newPml4_of_setupPML4 hsetup,
              Option.some.inj hload⟩

/-- A space without a root owns no frame. -/
theorem space_ne_of_root {m : Machine} {x : AppSpace} (hroot : root x = none)
    (ho : Owns appPolicy (m.spaces root) f o) : o.space ≠ x := by
  rintro rfl
  cases o with
  | root x => cases hroot.symm.trans ho
  | entry x k =>
      obtain ⟨w, hw, -⟩ := ho
      cases (spaces_entry_of_root hroot k).symm.trans hw

theorem mem_loadNew (h : Accounted appPolicy s.machine root base)
    (himage : root (.image fileEntry) = none) (hnew : NewPml4 s s₁ pml4)
    (hsegments : ∀ ph ∈ programHeaders image, ph.pType = ptLoad → ph.BelowStack)
    (hload : s₁.loadNew image fileEntry pml4 = some (.ok appLoad, s'))
    (hf : s.machine.memoryManager.getBit f = true) : s'.machine.mem f = s.machine.mem f := by
  obtain ⟨h₁, hspaces⟩ := h.addRoot himage hnew.free hnew.same hnew.empty hnew.memoryManager
  obtain ⟨last, s₂, s₃, pml4', hresult, hmachine, -, hnew', hcopy⟩ := loadNew_cases hload
  have hforeign : Foreign appPolicy (s₁.machine.spaces
      (Function.update root (.image fileEntry) (some pml4))) base (.image fileEntry) f := by
    refine ((h.separated.accounted f).mp hf).imp_right ?_
    rintro ⟨o, ho⟩
    have hspace := space_ne_of_root himage ho
    have hroot : o ≠ .root (.image fileEntry) := by
      rintro rfl
      exact hspace rfl
    refine ⟨o, ?_, hspace⟩
    rw [hspaces]
    exact (Separated.owns_setRoot_of_ne _ _ hroot).mpr ho
  have hcr3 : Function.update root (AppSpace.image fileEntry) (some pml4) (.image fileEntry) =
      some s₁.machine.cr3 := by
    rw [Function.update_self, hnew.cr3]
  have helf := isolates_loadELF h₁ hcr3 rfl rfl hsegments hresult
  have halloc := helf.accounted.separated.alloc_of_foreign (helf.foreign_iff.mpr hforeign)
  calc
    s'.machine.mem f = s₂.machine.mem f := mem_copyImage hnew' hcopy (hmachine ▸ halloc)
    _ = s₁.machine.mem f := hmachine ▸ helf.foreign hforeign
    _ = s.machine.mem f := (hnew.kept hf).2.2

/-- `LoadApp` writes no frame that was in use. -/
theorem mem_loadApp (h : Accounted appPolicy s.machine root base)
    (himage : root (.image fileEntry) = (s.appLoads fileEntry).map AppLoadInfo.pml4)
    (hsegments : s.appLoads fileEntry = none → ∀ image, fileBuf v behind fileEntry = some image →
      ∀ ph ∈ programHeaders image, ph.pType = ptLoad → ph.BelowStack)
    (hload : s.loadApp v behind fileEntry = some (.ok appLoad, s'))
    (hf : s.machine.memoryManager.getBit f = true) : s'.machine.mem f = s.machine.mem f := by
  rw [LaunchState.loadApp] at hload
  rcases hsetup : s.setupPML4 with ⟨err | pml4, s₁⟩ <;> rw [hsetup] at hload
  · cases (Prod.mk.inj (Option.some.inj hload)).1
  · have hnew := newPml4_of_setupPML4 hsetup
    have happLoads : s₁.appLoads = s.appLoads := by rw [hnew.state]
    dsimp only at hload
    rw [happLoads] at hload
    cases hfirst : s.appLoads fileEntry with
    | some first =>
        rw [hfirst] at hload
        exact mem_copyImage hnew (Option.some.inj hload) hf
    | none =>
        rw [hfirst] at hload himage
        obtain ⟨image, hbuf, hload⟩ := Option.bind_eq_some_iff.mp hload
        exact mem_loadNew h himage hnew (hsegments hfirst image hbuf) hload hf

/-- The copy of an image leads to the pages of the image. -/
theorem frames_copyImage {ι : Type*} [DecidableEq ι] {σ : Policy ι (ℕ × ℕ)} {root : ι → Option ℕ}
    {i : ι} (h : Accounted σ s.machine root base) (hσ : Shared σ i) (hroot : root i = none)
    (hsrc : root (σ.template i) = some src) (hnew : NewPml4 s s₁ pml4)
    (hcopy : s₁.copyImage pml4 src appLoad = (.ok appLoad', s')) {p : ℕ}
    (hentry : Entry userHalf 3 p) :
    ((s'.machine.spaces (Function.update root i (some pml4))).entry i (3, p)).map Prod.fst =
      ((s'.machine.spaces (Function.update root i (some pml4))).entry (σ.template i) (3, p)).map
        Prod.fst := by
  obtain ⟨h₁, hspaces⟩ := h.addRoot hroot hnew.free hnew.same hnew.empty hnew.memoryManager
  have hempty : ∀ k, (s₁.machine.spaces (Function.update root i (some pml4))).entry i k = none := by
    intro k
    rw [hspaces, Spaces.setRoot_entry]
    exact spaces_entry_of_root hroot k
  rw [LaunchState.copyImage] at hcopy
  rcases hresult : s₁.machine.copyPageMaps 4 256 pml4 src with ⟨err | u, m'⟩ <;>
    rw [hresult] at hcopy
  · cases (Prod.mk.inj hcopy).1
  · obtain ⟨-, rfl⟩ := Prod.mk.inj hcopy
    exact h₁.frames_copyPageMaps hσ (Function.update_self i _ _)
      ((Function.update_of_ne hσ.ne _ _).trans hsrc) hempty hresult hentry

/-- What `copyImage` leaves beside the memory. -/
theorem copyImage_fields (hcopy : s₁.copyImage pml4 src appLoad = (.ok appLoad', s')) :
    s'.appLoads = s₁.appLoads ∧ appLoad'.pml4 = pml4 := by
  rw [LaunchState.copyImage] at hcopy
  rcases hresult : s₁.machine.copyPageMaps 4 256 pml4 src with ⟨err | u, m'⟩ <;>
    rw [hresult] at hcopy
  · cases (Prod.mk.inj hcopy).1
  · obtain ⟨happ, rfl⟩ := Prod.mk.inj hcopy
    injection happ with happ
    exact ⟨rfl, happ ▸ rfl⟩

/-- The pages of an application that has been loaded are those of its image. -/
theorem frames_loadApp {n : ℕ} (h : Accounted appPolicy s.machine root base)
    (hn : root (.app fileEntry n) = none)
    (himage : root (.image fileEntry) = (s.appLoads fileEntry).map AppLoadInfo.pml4)
    (hsegments : s.appLoads fileEntry = none → ∀ image, fileBuf v behind fileEntry = some image →
      ∀ ph ∈ programHeaders image, ph.pType = ptLoad → ph.BelowStack)
    (hload : s.loadApp v behind fileEntry = some (.ok appLoad, s')) :
    ∃ first, s'.appLoads fileEntry = some first ∧ ∀ p, Entry userHalf 3 p →
      ((s'.machine.spaces (Function.update (Function.update root (.image fileEntry)
          (some first.pml4)) (.app fileEntry n) (some appLoad.pml4))).entry
            (.app fileEntry n) (3, p)).map Prod.fst =
        ((s'.machine.spaces (Function.update (Function.update root (.image fileEntry)
          (some first.pml4)) (.app fileEntry n) (some appLoad.pml4))).entry
            (.image fileEntry) (3, p)).map Prod.fst := by
  rw [LaunchState.loadApp] at hload
  rcases hsetup : s.setupPML4 with ⟨err | pml4, s₁⟩ <;> rw [hsetup] at hload
  · cases (Prod.mk.inj (Option.some.inj hload)).1
  · have hnew := newPml4_of_setupPML4 hsetup
    have happLoads : s₁.appLoads = s.appLoads := by rw [hnew.state]
    dsimp only at hload
    rw [happLoads] at hload
    cases hfirst : s.appLoads fileEntry with
    | some first =>
        rw [hfirst] at hload himage
        obtain ⟨happ, hpml4⟩ := copyImage_fields (Option.some.inj hload)
        have hsame : Function.update root (AppSpace.image fileEntry) (some first.pml4) = root := by
          rw [← Option.map_some, ← himage, Function.update_eq_self]
        refine ⟨first, by rw [happ, happLoads, hfirst], fun p hentry ↦ ?_⟩
        rw [hsame, hpml4]
        exact frames_copyImage h (shared_app fileEntry n) hn himage hnew (Option.some.inj hload) hentry
    | none =>
        rw [hfirst] at hload himage
        obtain ⟨image, hbuf, hload⟩ := Option.bind_eq_some_iff.mp hload
        obtain ⟨h₁, -⟩ := h.addRoot himage hnew.free hnew.same hnew.empty hnew.memoryManager
        obtain ⟨last, s₂, s₃, pml4', hresult, hmachine, happ₂, hnew', hcopy⟩ := loadNew_cases hload
        have himage₁ : Function.update root (AppSpace.image fileEntry) (some pml4)
            (.image fileEntry) = some pml4 := Function.update_self _ _ _
        have helf := isolates_loadELF h₁ (himage₁.trans (congrArg some hnew.cr3.symm)) rfl rfl
          (hsegments hfirst image hbuf) hresult
        obtain ⟨happ, hpml4⟩ := copyImage_fields hcopy
        have happ₃ : s₃.appLoads = s₂.appLoads := by rw [hnew'.state]
        refine ⟨⟨last, eEntry image, pml4⟩, ?_, fun p hentry ↦ ?_⟩
        · rw [happ, happ₃, happ₂, Function.update_self]
        · have hn₁ := (Function.update_of_ne (image_ne_app fileEntry fileEntry n).symm
            (some pml4) root).trans hn
          rw [hpml4]
          exact frames_copyImage (hmachine ▸ helf.accounted) (shared_app fileEntry n) hn₁ himage₁ hnew'
            hcopy hentry

end LoadApp

end App
end MinOS
