import MinOS.App.PageFault
import MinOS.Fat.Load
import MinOS.Memory.Bounds
import MinOS.Paging.Copy

/-!
# What a page fault may change

`HandlePageFault` only looks at the error code.  It takes every write of an application to a
present page for a write to a page of its own, also one to the identity mapping of the kernel.
-/

namespace MinOS
namespace App

open Paging Paging.Machine PageMapEntry

def pml4Index (a : ℕ) : ℕ := (LinearAddress4Level.ofValue a).pml4

/-- The page maps that the kernel builds: supervisor pages of 2 MiB below the first entry of the
PML4, and user pages of 4 KiB in the user half. -/
structure KernelSpace (m : Machine) : Prop extends AddressSpace m where
  identity : ∀ p < kPageDirectoryCount * 512 ^ 2,
    ∃ e, m.page p = some (1, e) ∧ e.pointer = p / 512 * 512
  supervisor : (m.mem m.cr3 0).user = false
  empty : ∀ i, 0 < i → i < 256 → m.mem m.cr3 i = 0#64
  pages : ∀ {d q table}, Entry userHalf d q → m.tableOf m.cr3 d q = some table →
    (m.mem table (q % 512)).present = true → (m.mem table (q % 512)).user = true ∧
      (0 < d → d < 3 → (m.mem table (q % 512)).hugePage = false)

/-- The word is an entry of the page maps in the user half. -/
def UserEntry (m : Machine) (f i : ℕ) : Prop :=
  ∃ d q, Entry userHalf d q ∧ m.tableOf m.cr3 d q = some f ∧ q % 512 = i

/-- All entries on the way to a page are user entries. -/
def userAccess (m : Machine) : ℕ → ℕ → ℕ → Bool
  | 0, _, _ => true
  | level + 1, table, p =>
      let e := m.mem table (p / 512 ^ level % 512)
      e.user && (decide (level = 0) || decide (level < 3) && e.hugePage ||
        userAccess m level e.pointer p)

def SupervisorPage (m : Machine) (p : ℕ) : Prop :=
  m.page p ≠ none ∧ userAccess m 4 m.cr3 p = false

/-- An application has written to a page that is present. -/
def UserWrite (errorCode : ℕ) : Prop :=
  errorCode.testBit 0 = true ∧ errorCode.testBit 1 = true ∧ errorCode.testBit 2 = true

/-- Frames are only taken, and only these and entries of the user half have been written. -/
structure ChangesUserHalf (m m' : Machine) : Prop where
  takes : Takes Set.univ m m'
  written : ∀ f i, m'.mem f i ≠ m.mem f i →
    (f ∈ m.memoryManager.freeFrames ∧ m'.memoryManager.getBit f = true) ∨ UserEntry m f i

/-- What is wanted of `HandlePageFault`. -/
def Confines (v : Fat.Volume) (task : FaultTask) (m : Machine) (errorCode a : ℕ) : Prop :=
  ∃ result m', handlePageFault v task m errorCode a = some (result, m') ∧ ChangesUserHalf m m' ∧
    (UserWrite errorCode → SupervisorPage m (pageOf a) → (∃ err, result = .error err) ∧ m' = m)

/-- The address lies in the demand-paging range or in a mapping. -/
def InRegions (task : FaultTask) (a : ℕ) : Prop :=
  (task.dpagingBegin ≤ a ∧ a < task.dpagingEnd) ∨ findFileMapping task.fileMaps a ≠ none

/-- Applications write to mapped pages of the user half, and the regions lie in the user half,
unless no frame is free. -/
def Harmless (task : FaultTask) (m : Machine) (errorCode a : ℕ) : Prop :=
  (UserWrite errorCode → m.memoryManager.freeFrames = ∅ ∨
    256 ≤ pml4Index a ∧ m.page (pageOf a) ≠ none) ∧
  (errorCode.testBit 0 = false → InRegions task a → 256 ≤ pml4Index a ∨
    0 < pml4Index a ∧ m.memoryManager.freeFrames = ∅)

/-- The files of the mappings are open, as `MapFile` leaves them. -/
def MapsOpenFiles (task : FaultTask) : Prop :=
  ∀ fm ∈ task.fileMaps, ∃ fd, task.files[fm.fd]? = some (some fd)

/-! ## The user half -/

section UserHalf

variable {m m' : Machine} {addr : LinearAddress4Level}

theorem KernelSpace.small (hm : KernelSpace m) {d q : ℕ} (h : Entry userHalf d q) :
    m.Small m.cr3 d q := by
  induction d generalizing q with
  | zero => exact h.lt
  | succ d ih =>
      have hholds : (m.smallEntries m.cr3).Holds (d + 1) q := ⟨h.depth, ih h.parent⟩
      apply small_of_holds hholds
      intro hpos hd table htable
      cases hpresent : (m.mem table (q % 512)).present with
      | false => exact hm.clear hholds hpos hd htable hpresent
      | true => exact (hm.pages h htable hpresent).2 hpos hd

theorem entry_ancestor (haddr : addr.Valid) (hhigh : 256 ≤ addr.pml4) {L : ℕ} (hL : L < 4) :
    Entry userHalf (3 - L) (addr.pageNumber / 512 ^ L) := by
  refine entry_of_page hL haddr.pageNumber_lt ?_
  rw [← EntrySet.pml4_eq_pageNumber haddr]
  exact hhigh

theorem entry_pageNumber (haddr : addr.Valid) (hhigh : 256 ≤ addr.pml4) :
    Entry userHalf 3 addr.pageNumber := by
  simpa using entry_ancestor haddr hhigh (L := 0) (by decide)

theorem entry_of_visited (haddr : addr.Valid) (hhigh : 256 ≤ addr.pml4) {d q : ℕ}
    (hin : (d, q) ∈ entriesFrom 0 addr.pageNumber (addr.pageNumber + 1)) : Entry userHalf d q := by
  obtain ⟨⟨-, hd⟩, p, ⟨hlow, hlt⟩, hq⟩ := mem_entriesFrom.mp hin
  obtain rfl : p = addr.pageNumber := by omega
  have hentry := entry_ancestor haddr hhigh (show 3 - d < 4 by omega)
  have hdepth : 3 - (3 - d) = d := by
    have hlt : d < 4 := hd
    omega
  have hq' : addr.pageNumber / 512 ^ (3 - d) = q := hq
  rwa [hdepth, hq'] at hentry

theorem ChangesUserHalf.refl (m : Machine) : ChangesUserHalf m m :=
  ⟨.refl _ m, fun _ _ hne ↦ absurd rfl hne⟩

/-- A store to a frame that has been taken. -/
theorem ChangesUserHalf.stores {m'' : Machine} {f : ℕ} (h : ChangesUserHalf m m')
    (hto : StoresTo f m' m'') (hfree : f ∈ m.memoryManager.freeFrames)
    (hbit : m'.memoryManager.getBit f = true) : ChangesUserHalf m m'' where
  takes := by
    refine h.takes.then ⟨hto.cr3, ?_, ?_, fun hg ↦ ?_, fun _ hout ↦ absurd (Set.mem_univ _) hout⟩
    · rw [hto.memoryManager]
    · rw [hto.memoryManager]
    · rwa [hto.memoryManager]
  written := by
    intro g i hne
    rw [hto.memoryManager]
    by_cases hg : g = f
    · exact .inl (hg ▸ ⟨hfree, hbit⟩)
    · exact h.written g i (hto.same g hg ▸ hne)

/-- Visits of entries in the user half. -/
theorem changesUserHalf_of_grown {W : Finset (ℕ × ℕ)} (htakes : Takes Set.univ m m')
    (h : Grown (m.smallEntries m.cr3) m m' W)
    (hW : ∀ d q, (d, q) ∈ W → Entry userHalf d q) : ChangesUserHalf m m' := by
  refine ⟨htakes, fun f i hne ↦ ?_⟩
  by_contra hnot
  rw [not_or, not_and] at hnot
  refine hne (h.same (fun hfree ↦ by simpa using hnot.1 hfree) fun d q hin hmem htable hi ↦ ?_)
  rcases h.tableOf_cases (EntrySet.holds hmem) htable with hold | ⟨-, hfree⟩
  · exact hnot.2 ⟨d, q, hW d q hin, hold, hi⟩
  · exact hnot.1 hfree (h.tree.tableOf_allocated (EntrySet.holds hmem) htable)

theorem changesUserHalf_setupPageMaps (hm : KernelSpace m) (haddr : addr.Valid)
    (hhigh : 256 ≤ addr.pml4) : ChangesUserHalf m (m.setupPageMaps addr 1 true).machine := by
  have htree := hm.toPageTree.isTree
  have htakes := takes_setupPageMaps m addr 1 true
  have hwalk := (m.smallEntries m.cr3).setupPageMaps_walked (w := true) (V := ∅) (n := 1)
    (Grown.visitKeeps (m.smallEntries m.cr3) m true) (fun _ _ hP ↦ hP.1.tree)
    ⟨.refl htree, fun _ _ hin ↦ absurd hin (Finset.notMem_empty _)⟩ haddr fun q hlow hlt _ ↦ by
      obtain rfl : q = addr.pageNumber := by omega
      exact hm.small (entry_pageNumber haddr hhigh)
  have hend : min (addr.pageNumber + 1) (512 ^ 4) = addr.pageNumber + 1 :=
    Nat.min_eq_left haddr.pageNumber_lt
  rw [hend] at hwalk
  have hentry : ∀ d q, (d, q) ∈ ∅ ∪ entriesFrom 0 addr.pageNumber (addr.pageNumber + 1) →
      Entry userHalf d q := by
    intro d q hin
    rw [Finset.empty_union] at hin
    exact entry_of_visited haddr hhigh hin
  cases hresult : (m.setupPageMaps addr 1 true).result with
  | ok r => exact changesUserHalf_of_grown htakes (hwalk.ok r hresult).2.1 hentry
  | error err =>
      obtain ⟨-, -, ⟨V', hsub, hgrown, -⟩, -⟩ := hwalk.error err hresult
      exact changesUserHalf_of_grown htakes hgrown fun d q hin ↦ hentry d q (hsub hin)

end UserHalf

/-! ## The copy of a page -/

section Copy

variable {m : Machine} {addr : LinearAddress4Level} {frame a : ℕ}

theorem noTable_of_free (hm : PageTree m) (hfree : frame ∈ m.memoryManager.freeFrames) :
    NoTable m frame :=
  fun _ _ _ hholds htable ↦ (hm.isTree.free_ne_table hfree hholds htable).symm

theorem page_takeFrame (hm : PageTree m) (hfree : frame ∈ m.memoryManager.freeFrames)
    (words : ℕ → PageMapEntry) {p : ℕ} (hlt : p < 512 ^ 4) :
    (m.takeFrame frame words).page p = m.page p := by
  have hto : StoresTo frame m { m with mem := Function.update m.mem frame words } :=
    ⟨rfl, rfl, fun g hg ↦ Function.update_of_ne hg _ _⟩
  exact hto.page_eq (noTable_of_free hm hfree) hlt

theorem tableOf_takeFrame (hm : PageTree m) (hfree : frame ∈ m.memoryManager.freeFrames)
    (words : ℕ → PageMapEntry) {d q : ℕ} (hholds : (m.smallEntries m.cr3).Holds d q) :
    (m.takeFrame frame words).tableOf m.cr3 d q = m.tableOf m.cr3 d q := by
  have hto : StoresTo frame m { m with mem := Function.update m.mem frame words } :=
    ⟨rfl, rfl, fun g hg ↦ Function.update_of_ne hg _ _⟩
  rw [← hto.tableOf_eq (noTable_of_free hm hfree) hholds]
  apply tableOf_congr
  exact fun _ _ ↦ rfl

theorem copyOnePage_eq (hnew : m.newPageMap = (.ok frame, m.takeFrame frame fun _ ↦ 0#64)) :
    copyOnePage m a = ((m.takeFrame frame fun _ ↦ 0#64).translate (pageDown a)).map fun phys ↦
      (.ok (), setPageContent 4 (m.takeFrame frame ((m.takeFrame frame fun _ ↦ 0#64).mem (phys / 4096)))
        m.cr3 (.ofValue a) frame) := by
  rw [copyOnePage, hnew]
  dsimp only
  cases (m.takeFrame frame fun _ ↦ 0#64).translate (pageDown a) with
  | none => rfl
  | some phys => simp [takeFrame]

/-- The copy goes to a fresh frame, which becomes the page; without a free frame nothing happens. -/
theorem copyOnePage_cases (hm : PageTree m) (hcanon : Canonical a) :
    (m.memoryManager.freeFrames = ∅ ∧ copyOnePage m a = some (.error .kNoEnoughMemory, m)) ∨
      ∃ frame ∈ m.memoryManager.freeFrames, ∃ words : ℕ → ℕ → PageMapEntry,
        copyOnePage m a = (m.translate (pageDown a)).map fun phys ↦
          (.ok (), setPageContent 4 (m.takeFrame frame (words phys)) m.cr3 (.ofValue a) frame) := by
  rcases newPageMap_eq m with ⟨frame, hfree, hnew⟩ | ⟨hempty, hnew⟩
  · refine .inr ⟨frame, hfree,
      fun phys ↦ (m.takeFrame frame fun _ ↦ 0#64).mem (phys / 4096), ?_⟩
    have hcanon' := canonical_pageDown hcanon
    rw [copyOnePage_eq hnew, translate_eq hcanon', translate_eq hcanon',
      page_takeFrame hm hfree _ (pageOf_lt _)]
  · exact .inl ⟨hempty, by rw [copyOnePage, hnew]⟩

/-- `SetPageContent` writes the entry of the page. -/
theorem setPageContent_eq {root content t : ℕ} (haddr : addr.Valid)
    (hleaf : m.tableOf root 3 addr.pageNumber = some t) : ∀ {L table : ℕ}, L ≤ 3 →
    m.tableOf root (3 - L) (addr.pageNumber / 512 ^ L) = some table →
      setPageContent (L + 1) m table addr content = m.setEntry t (addr.pageNumber % 512)
        (((m.mem t (addr.pageNumber % 512)).setPointer content).setFlag 1 true) := by
  intro L
  induction L with
  | zero =>
      intro table _ htable
      have htable' : m.tableOf root 3 addr.pageNumber = some table := by simpa using htable
      obtain rfl := Option.some.inj (htable'.symm.trans hleaf)
      have hpart := haddr.part_eq (show 0 < 4 by decide)
      rw [pow_zero, Nat.div_one] at hpart
      rw [setPageContent, hpart]
  | succ L ih =>
      intro table hL htable
      have hbelow := tableOf_below hL htable
      cases hchild : m.child table (addr.pageNumber / 512 ^ (L + 1) % 512) with
      | none =>
          rw [hchild] at hbelow
          cases hleaf.symm.trans (tableOf_below_none (Nat.le_of_succ_le hL) hbelow)
      | some f =>
          obtain ⟨-, rfl⟩ := Mapped.child_eq_some hchild
          rw [setPageContent, haddr.part_eq (show L + 1 < 4 by omega)]
          exact ih (Nat.le_of_succ_le hL) (hbelow.trans hchild)

theorem pageOf_eq (a : ℕ) : pageOf a = (LinearAddress4Level.ofValue a).pageNumber :=
  (LinearAddress4Level.pageNumber_ofValue a).symm

theorem pml4Index_eq (a : ℕ) : pml4Index a = pageOf a / 512 ^ 3 := by
  rw [pml4Index, pageOf_eq, EntrySet.pml4_eq_pageNumber (LinearAddress4Level.valid_ofValue a)]

/-- A mapped page of the user half has an entry of its own. -/
theorem KernelSpace.exists_entry (hm : KernelSpace m) (haddr : addr.Valid)
    (hhigh : 256 ≤ addr.pml4) (hpage : m.page addr.pageNumber ≠ none) :
    ∃ t, m.tableOf m.cr3 3 addr.pageNumber = some t ∧
      (m.mem t (addr.pageNumber % 512)).present = true := by
  have hentry := entry_pageNumber haddr hhigh
  obtain ⟨⟨l, e⟩, he⟩ := Option.ne_none_iff_exists'.mp hpage
  obtain ⟨t, ht, hchild⟩ :=
    Option.bind_eq_some_iff.mp (frameAt_of_page hm.toPageTree (hm.small hentry) he)
  exact ⟨t, ht, (Mapped.child_eq_some hchild).1⟩

theorem changesUserHalf_setPageContent (hm : KernelSpace m) (haddr : addr.Valid)
    (hhigh : 256 ≤ addr.pml4) (hpage : m.page addr.pageNumber ≠ none)
    (hfree : frame ∈ m.memoryManager.freeFrames) (words : ℕ → PageMapEntry) :
    ChangesUserHalf m (setPageContent 4 (m.takeFrame frame words) m.cr3 addr frame) := by
  obtain ⟨t, ht, -⟩ := hm.exists_entry haddr hhigh hpage
  have hentry := entry_pageNumber haddr hhigh
  have hsmall : (m.smallEntries m.cr3).Mem 3 addr.pageNumber := hm.small hentry
  have ht' := tableOf_takeFrame hm.toPageTree hfree words (EntrySet.holds hsmall)
  rw [setPageContent_eq haddr (ht'.trans ht) (le_refl 3) rfl]
  refine ⟨((takes_takeFrame hfree words).mono (Set.subset_univ _)).then (takes_setEntry _ t _ _),
    fun f i hne ↦ ?_⟩
  rw [mem_setEntry] at hne
  by_cases hhere : f = t ∧ i = addr.pageNumber % 512
  · obtain ⟨rfl, rfl⟩ := hhere
    exact .inr ⟨3, addr.pageNumber, hentry, ht, rfl⟩
  · rw [if_neg hhere] at hne
    refine .inl ?_
    obtain rfl : f = frame := by
      by_contra hother
      exact hne (by rw [mem_takeFrame, if_neg hother])
    exact ⟨hfree, getBit_takeFrame m f words⟩

/-- A mapped page of the user half is no supervisor page. -/
theorem KernelSpace.userAccess_eq (hm : KernelSpace m) (haddr : addr.Valid)
    (hhigh : 256 ≤ addr.pml4) (hpage : m.page addr.pageNumber ≠ none) :
    ∀ {L table : ℕ}, L ≤ 3 → m.tableOf m.cr3 (3 - L) (addr.pageNumber / 512 ^ L) = some table →
      userAccess m (L + 1) table addr.pageNumber = true := by
  obtain ⟨t, ht, hpresent⟩ := hm.exists_entry haddr hhigh hpage
  intro L
  induction L with
  | zero =>
      intro table _ htable
      have htable' : m.tableOf m.cr3 3 addr.pageNumber = some table := by simpa using htable
      obtain rfl := Option.some.inj (htable'.symm.trans ht)
      have hentry := entry_ancestor haddr hhigh (show 0 < 4 by decide)
      have huser := (hm.pages hentry htable (by simpa using hpresent)).1
      rw [userAccess, huser, decide_eq_true rfl, Bool.true_or, Bool.true_or, Bool.true_and]
  | succ L ih =>
      intro table hL htable
      have hbelow := tableOf_below hL htable
      cases hchild : m.child table (addr.pageNumber / 512 ^ (L + 1) % 512) with
      | none =>
          rw [hchild] at hbelow
          cases ht.symm.trans (tableOf_below_none (Nat.le_of_succ_le hL) hbelow)
      | some f =>
          obtain ⟨hpresent', rfl⟩ := Mapped.child_eq_some hchild
          have huser := (hm.pages (entry_ancestor haddr hhigh (by omega)) htable hpresent').1
          have hnext := ih (Nat.le_of_succ_le hL) (hbelow.trans hchild)
          rw [userAccess, huser, hnext, Bool.or_true, Bool.true_and]
/-- Every mapped page below the user half is a supervisor page. -/
theorem KernelSpace.supervisorPage (hm : KernelSpace m) {p : ℕ} (hlow : p / 512 ^ 3 < 256)
    (hpage : m.page p ≠ none) : SupervisorPage m p := by
  have hindex : p / 512 ^ 3 % 512 = p / 512 ^ 3 := Nat.mod_eq_of_lt (by omega)
  refine ⟨hpage, ?_⟩
  rcases Nat.eq_zero_or_pos (p / 512 ^ 3) with hzero | hpos
  · rw [userAccess, hindex, hzero, hm.supervisor]
    rfl
  · refine absurd (leaf_absent ?_) hpage
    rw [hindex, hm.empty _ hpos hlow, present_zero]

/-- What a write to a present page does is right in the user half only. -/
theorem confines_userWrite_iff (hm : KernelSpace m) (hcanon : Canonical a) :
    (∃ result m', copyOnePage m a = some (result, m') ∧ ChangesUserHalf m m' ∧
      (SupervisorPage m (pageOf a) → (∃ err, result = .error err) ∧ m' = m)) ↔
      m.memoryManager.freeFrames = ∅ ∨ 256 ≤ pml4Index a ∧ m.page (pageOf a) ≠ none := by
  have haddr := LinearAddress4Level.valid_ofValue a
  rcases copyOnePage_cases hm.toPageTree hcanon with ⟨hempty, hcopy⟩ | ⟨frame, hfree, words, hcopy⟩
  · exact ⟨fun _ ↦ .inl hempty, fun _ ↦
      ⟨_, _, hcopy, .refl m, fun _ ↦ ⟨⟨_, rfl⟩, rfl⟩⟩⟩
  · have hnone : m.memoryManager.freeFrames ≠ ∅ := Finset.ne_empty_of_mem hfree
    rw [translate_eq (canonical_pageDown hcanon), pageOf_pageDown] at hcopy
    rw [hcopy]
    constructor
    · rintro ⟨result, m', hsome, -, hsuper⟩
      have hpage : m.page (pageOf a) ≠ none := by
        intro hpage
        rw [hpage] at hsome
        cases hsome
      refine .inr ⟨?_, hpage⟩
      by_contra hlow
      rw [pml4Index_eq, not_le] at hlow
      obtain ⟨⟨err, rfl⟩, -⟩ := hsuper (hm.supervisorPage hlow hpage)
      obtain ⟨phys, -, heq⟩ := Option.map_eq_some_iff.mp hsome
      cases heq
    · rintro (hempty | ⟨hhigh, hpage⟩)
      · exact absurd hempty hnone
      · obtain ⟨⟨l, e⟩, he⟩ := Option.ne_none_iff_exists'.mp hpage
        rw [pageOf_eq] at hpage
        rw [he]
        refine ⟨_, _, rfl, changesUserHalf_setPageContent hm haddr hhigh hpage hfree _, ?_⟩
        rintro ⟨-, haccess⟩
        rw [pageOf_eq, hm.userAccess_eq haddr hhigh hpage (le_refl 3) rfl] at haccess
        cases haccess

end Copy

/-! ## Below the user half -/

/-- User bits in frames in use stay set. -/
def KeepsUser (m m' : Machine) : Prop :=
  ∀ f i, m.memoryManager.getBit f = true → (m.mem f i).user = true →
    m'.memoryManager.getBit f = true ∧ (m'.mem f i).user = true

theorem user_setPointer (e : PageMapEntry) (frame : ℕ) : (e.setPointer frame).user = e.user :=
  getLsbD_setPointer e frame (by decide)

theorem user_setFlag_zero (e : PageMapEntry) (b : Bool) : (e.setFlag 0 b).user = e.user := by
  rw [user, getLsbD_setFlag e (by decide), if_neg (by decide), user]

theorem keepsUser_attach {m : Machine} {frame : ℕ} (hfree : frame ∈ m.memoryManager.freeFrames)
    (table i : ℕ) : KeepsUser m (m.attach table i frame) := by
  intro f j hbit huser
  have hne : f ≠ frame := by
    rintro rfl
    exact notMem_freeFrames_of_getBit hbit hfree
  refine ⟨by rw [Grown.getBit_attach, hbit, Bool.or_true], ?_⟩
  by_cases hf : f = table
  · subst hf
    rw [mem_attach m hne.symm]
    split_ifs with hhere
    · rwa [user_setFlag_zero, user_setPointer, ← hhere.2]
    · exact huser
  · have hsame : (m.attach table i frame).mem f = m.mem f := by
      rw [attach]
      dsimp only
      rw [Function.update_of_ne hf, Function.update_of_ne hne]
    rwa [hsame]

theorem stepsKeep_keepsUser : StepsKeep KeepsUser where
  refl m f i hbit huser := ⟨hbit, huser⟩
  trans := by
    intro m m' m'' h h' f i hbit huser
    obtain ⟨hbit', huser'⟩ := h f i hbit huser
    exact h' f i hbit' huser'
  newPageMap := by
    intro m table i
    rcases m.setNewPageMapIfNotPresent_cases table i with
      ⟨frame, -, heq⟩ | ⟨-, -, heq⟩ | ⟨frame, hfree, -, heq⟩
    · rw [heq]
      exact fun f j hbit huser ↦ ⟨hbit, huser⟩
    · rw [heq]
      exact fun f j hbit huser ↦ ⟨hbit, huser⟩
    · rw [heq]
      exact keepsUser_attach hfree table i
  setFlags := by
    intro m table i w f j hbit huser
    refine ⟨hbit, ?_⟩
    rw [mem_setFlags]
    split_ifs
    · exact user_flags _ w
    · exact huser

section LowerHalf

variable {m m' : Machine} {addr : LinearAddress4Level}

/-- The entry of the PML4 is a user entry afterwards if there is a table for it. -/
theorem user_setupPageMaps (hroot : m.memoryManager.getBit m.cr3 = true)
    (htable : m.child m.cr3 addr.pml4 ≠ none ∨ m.memoryManager.freeFrames ≠ ∅) :
    ((m.setupPageMaps addr 1 true).machine.mem m.cr3 addr.pml4).user = true := by
  obtain ⟨frame, m₁, hset, hbit⟩ : ∃ frame m₁,
      m.setNewPageMapIfNotPresent m.cr3 (addr.part 4) = (.ok frame, m₁) ∧
        m₁.memoryManager.getBit m.cr3 = true := by
    rcases m.setNewPageMapIfNotPresent_cases m.cr3 (addr.part 4) with
      ⟨frame, -, heq⟩ | ⟨hnone, hempty, -⟩ | ⟨frame, -, -, heq⟩
    · exact ⟨frame, m, heq, hroot⟩
    · exact absurd htable (by simp [show m.child m.cr3 addr.pml4 = none from hnone, hempty])
    · exact ⟨frame, _, heq, by rw [Grown.getBit_attach, hroot, Bool.or_true]⟩
  have hturn := stepsKeep_keepsUser.turn (w := true)
    (stepsKeep_keepsUser.setupPageMap (w := true) 3)
    (stepsKeep_keepsUser.setupLoop (stepsKeep_keepsUser.setupPageMap 3) m.cr3 4 511)
    Nat.one_ne_zero hset
  refine (hturn m.cr3 addr.pml4 hbit ?_).2
  rw [mem_setFlags, if_pos ⟨rfl, rfl⟩, user_flags]

theorem setupPageMaps_refused (hnone : m.child m.cr3 addr.pml4 = none)
    (hempty : m.memoryManager.freeFrames = ∅) :
    m.setupPageMaps addr 1 true = ⟨.error .kNoEnoughMemory, m, []⟩ := by
  have hset : m.setNewPageMapIfNotPresent m.cr3 (addr.part 4) = (.error .kNoEnoughMemory, m) := by
    rcases m.setNewPageMapIfNotPresent_cases m.cr3 (addr.part 4) with
      ⟨frame, hsome, -⟩ | ⟨-, -, heq⟩ | ⟨frame, hfree, -, -⟩
    · cases hnone.symm.trans hsome
    · exact heq
    · rw [hempty] at hfree
      exact absurd hfree (Finset.notMem_empty frame)
  change setupLoop true (setupPageMap true 3) m.cr3 4 (511 + 1) m addr 1 = _
  rw [setupLoop, if_neg Nat.one_ne_zero]
  dsimp only
  rw [hset]

theorem KernelSpace.present (hm : KernelSpace m) : (m.mem m.cr3 0).present = true := by
  obtain ⟨e, he, -⟩ := hm.identity 0 (by decide)
  by_contra habsent
  rw [page, leaf_absent (by simpa using habsent)] at he
  cases he

/-- No entry of the PML4 below the user half may become a user entry. -/
theorem KernelSpace.not_changesUserHalf (hm : KernelSpace m) {i : ℕ} (hlow : i < 256)
    (huser : (m'.mem m.cr3 i).user = true) : ¬ ChangesUserHalf m m' := by
  intro h
  have hbefore : (m.mem m.cr3 i).user = false := by
    rcases Nat.eq_zero_or_pos i with rfl | hpos
    · exact hm.supervisor
    · rw [hm.empty i hpos hlow]
      rfl
  have hne : m'.mem m.cr3 i ≠ m.mem m.cr3 i := by
    intro heq
    rw [heq, hbefore] at huser
    cases huser
  rcases h.written m.cr3 i hne with ⟨hfree, -⟩ | ⟨d, q, hentry, htable, hi⟩
  · exact notMem_freeFrames_of_getBit hm.rootAllocated hfree
  · cases d with
    | zero =>
        have htop := hentry.top
        have hlt := hentry.lt
        rw [pow_zero, Nat.div_one] at htop
        have hhigh : 256 ≤ q := htop
        omega
    | succ d =>
        have hdepth := hentry.depth
        exact hm.ne_root (hm.small hentry.parent) (by omega) htable rfl

end LowerHalf

/-! ## Faults in the regions -/

/-- `SetupPageMaps` for one page, and a store to the fresh page if that succeeds. -/
def SetsUp (m m' : Machine) (addr : LinearAddress4Level) : Prop :=
  m' = (m.setupPageMaps addr 1 true).machine ∨
    (∃ r, (m.setupPageMaps addr 1 true).result = .ok r) ∧ ∃ f ∈ m.memoryManager.freeFrames,
      (m.setupPageMaps addr 1 true).machine.memoryManager.getBit f = true ∧
        StoresTo f (m.setupPageMaps addr 1 true).machine m'

section Regions

variable {v : Fat.Volume} {task : FaultTask} {m m' : Machine} {addr : LinearAddress4Level} {a : ℕ}

theorem SetsUp.changesUserHalf (h : SetsUp m m' addr) (hm : KernelSpace m) (haddr : addr.Valid)
    (hhigh : 256 ≤ addr.pml4) : ChangesUserHalf m m' := by
  have hsetup := changesUserHalf_setupPageMaps hm haddr hhigh
  rcases h with rfl | ⟨-, f, hfree, hbit, hto⟩
  · exact hsetup
  · exact hsetup.stores hto hfree hbit

/-- Below the user half only a lack of frames keeps the PML4 as it is. -/
theorem SetsUp.changesUserHalf_iff_of_low (h : SetsUp m m' addr) (hm : KernelSpace m)
    (hlow : addr.pml4 < 256) :
    ChangesUserHalf m m' ↔ 0 < addr.pml4 ∧ m.memoryManager.freeFrames = ∅ := by
  constructor
  · intro hchanges
    by_contra hnot
    have htable : m.child m.cr3 addr.pml4 ≠ none ∨ m.memoryManager.freeFrames ≠ ∅ := by
      rcases Nat.eq_zero_or_pos addr.pml4 with hzero | hpos
      · rw [hzero, child_of_present hm.present]
        exact .inl (Option.some_ne_none _)
      · exact .inr fun hempty ↦ hnot ⟨hpos, hempty⟩
    have huser := user_setupPageMaps hm.rootAllocated htable
    rcases h with rfl | ⟨-, f, hfree, -, hto⟩
    · exact hm.not_changesUserHalf hlow huser hchanges
    · have hne : m.cr3 ≠ f := by
        rintro rfl
        exact notMem_freeFrames_of_getBit hm.rootAllocated hfree
      rw [← hto.same m.cr3 hne] at huser
      exact hm.not_changesUserHalf hlow huser hchanges
  · rintro ⟨hpos, hempty⟩
    have habsent : (m.mem m.cr3 addr.pml4).present = false := by
      rw [hm.empty _ hpos hlow, present_zero]
    have hrefused := setupPageMaps_refused (child_of_absent habsent) hempty
    rcases h with rfl | ⟨⟨r, hr⟩, -⟩
    · rw [hrefused]
      exact .refl m
    · rw [hrefused] at hr
      cases hr

theorem OpenFile.load_total (hcluster : 0 < v.bytesPerCluster) (fd : OpenFile) (len offset : ℕ) :
    ∃ bytes, fd.load v len offset = some bytes ∧ bytes.length ≤ len := by
  cases fd with
  | fat fd => exact Fat.load_total hcluster fd len offset
  | stream => exact ⟨[], rfl, Nat.zero_le len⟩

theorem preparePageCache_setsUp (hcluster : 0 < v.bytesPerCluster) (hm : AddressSpace m)
    (ha : a < 2 ^ 64) (hcanon : Canonical a) (hpage : m.page (pageOf a) = none) (fd : OpenFile)
    (fm : FileMapping) :
    ∃ result m', preparePageCache v fd fm a m = some (result, m') ∧
      SetsUp m m' (.ofValue (pageDown a)) := by
  obtain ⟨bytes, hload, hlen⟩ :=
    fd.load_total hcluster 4096 (uint64Sub (pageDown a) fm.vaddrBegin)
  simp only [preparePageCache, setPart_zero, value_ofValue, hload]
  cases hsetup : (m.setupPageMaps (.ofValue (pageDown a)) 1 true).result with
  | error err => exact ⟨_, _, rfl, .inl rfl⟩
  | ok r =>
      have hnumber : (LinearAddress4Level.ofValue (pageDown a)).pageNumber = pageOf (pageDown a) :=
        LinearAddress4Level.pageNumber_ofValue _
      have hzero := resolves_setupPageMaps hm (LinearAddress4Level.valid_ofValue (pageDown a))
        (by rw [hnumber, pageOf_pageDown, hpage]) hsetup
      rw [hnumber] at hzero
      obtain ⟨e, he, -, -, hfree, hbit, hno, -⟩ := hzero.page
      have haligned : pageDown a % 4096 = 0 := Nat.mul_mod_left _ _
      obtain ⟨m', hstore, hto, -⟩ := storeBytes_page bytes hzero.space
        (canonical_pageDown hcanon) (lt_of_le_of_lt (pageDown_le a) ha) he hno (by omega)
      exact ⟨.ok (), m', by simp [hstore], .inr ⟨⟨r, hsetup⟩, e.pointer, hfree, hbit, hto⟩⟩

theorem handlePageFault_setsUp {errorCode : ℕ} (hcluster : 0 < v.bytesPerCluster)
    (hopen : MapsOpenFiles task) (hm : AddressSpace m) (ha : a < 2 ^ 64) (hcanon : Canonical a)
    (herror : errorCode.testBit 0 = false) (hpage : m.page (pageOf a) = none)
    (hin : InRegions task a) :
    ∃ addr : LinearAddress4Level, addr.Valid ∧ addr.pml4 = pml4Index a ∧ ∃ result m',
      handlePageFault v task m errorCode a = some (result, m') ∧ SetsUp m m' addr := by
  by_cases hdpaging : task.dpagingBegin ≤ a ∧ a < task.dpagingEnd
  · exact ⟨.ofValue a, LinearAddress4Level.valid_ofValue a, rfl, _, _,
      handlePageFault_dpaging herror hdpaging, .inl rfl⟩
  · obtain ⟨fm, hfm⟩ := Option.ne_none_iff_exists'.mp (hin.resolve_left hdpaging)
    obtain ⟨fd, hfd⟩ := hopen fm (List.mem_of_find?_eq_some hfm)
    obtain ⟨result, m', hprepare, hsets⟩ :=
      preparePageCache_setsUp hcluster hm ha hcanon hpage fd fm
    refine ⟨.ofValue (pageDown a), LinearAddress4Level.valid_ofValue _, ?_, result, m', ?_, hsets⟩
    · simp only [pml4Index, LinearAddress4Level.ofValue, pageDown]
      omega
    · simp only [handlePageFault, herror, Bool.false_and, Bool.false_eq_true, if_false,
        if_neg hdpaging, hfm, hfd, Option.join_some, Option.bind_some]
      exact hprepare

theorem handlePageFault_userWrite {errorCode : ℕ} (h : UserWrite errorCode) :
    handlePageFault v task m errorCode a = copyOnePage m a := by
  obtain ⟨hpresent, hwrite, huser⟩ := h
  simp only [handlePageFault, hpresent, hwrite, huser, Bool.and_self, if_true]

/-- A page fault of which nothing is asked changes nothing. -/
theorem handlePageFault_unchanged {errorCode : ℕ} (hnot : ¬ UserWrite errorCode)
    (hout : errorCode.testBit 0 = false → ¬ InRegions task a) :
    ∃ err, handlePageFault v task m errorCode a = some (.error err, m) := by
  cases hpresent : errorCode.testBit 0 with
  | true =>
      have hflags : (errorCode.testBit 1 && errorCode.testBit 2) = false := by
        rw [Bool.eq_false_iff, ne_eq, Bool.and_eq_true]
        exact fun h ↦ hnot ⟨hpresent, h⟩
      refine ⟨.kAlreadyAllocated, ?_⟩
      simp only [handlePageFault, hpresent, Bool.true_and, hflags, Bool.false_eq_true, if_false,
        if_true]
  | false =>
      obtain ⟨hdpaging, hmapping⟩ := not_or.mp (hout hpresent)
      refine ⟨.kIndexOutOfRange, ?_⟩
      simp only [handlePageFault, hpresent, Bool.false_and, Bool.false_eq_true, if_false,
        if_neg hdpaging, not_not.mp hmapping]

/-- `HandlePageFault` confines its changes to the user half exactly for the harmless faults. -/
theorem handlePageFault_confines_iff {errorCode : ℕ} (hcluster : 0 < v.bytesPerCluster)
    (hopen : MapsOpenFiles task) (hm : KernelSpace m) (ha : a < 2 ^ 64) (hcanon : Canonical a)
    (hfault : errorCode.testBit 0 = false → m.page (pageOf a) = none) :
    Confines v task m errorCode a ↔ Harmless task m errorCode a := by
  by_cases hwrite : UserWrite errorCode
  · have hpresent : errorCode.testBit 0 ≠ false := by simp [hwrite.1]
    rw [Confines, Harmless, handlePageFault_userWrite hwrite, ← confines_userWrite_iff hm hcanon]
    simp [hwrite, hpresent]
  · by_cases hregion : errorCode.testBit 0 = false ∧ InRegions task a
    · obtain ⟨herror, hin⟩ := hregion
      obtain ⟨addr, haddr, hindex, result, m', hfault', hsets⟩ :=
        handlePageFault_setsUp hcluster hopen hm.toAddressSpace ha hcanon herror (hfault herror) hin
      have hconfines : Confines v task m errorCode a ↔ ChangesUserHalf m m' := by
        rw [Confines, hfault']
        constructor
        · rintro ⟨result', m'', heq, hchanges, -⟩
          obtain ⟨-, rfl⟩ : result = result' ∧ m' = m'' := by simpa using heq
          exact hchanges
        · exact fun hchanges ↦ ⟨result, m', rfl, hchanges, fun h ↦ absurd h hwrite⟩
      rw [hconfines, Harmless]
      rcases le_or_gt 256 (pml4Index a) with hhigh | hlow
      · simp [hwrite, hhigh, hsets.changesUserHalf hm haddr (hindex ▸ hhigh)]
      · rw [hsets.changesUserHalf_iff_of_low hm (hindex ▸ hlow), hindex]
        simp [hwrite, herror, hin, not_le.mpr hlow]
    · have hout : errorCode.testBit 0 = false → ¬ InRegions task a :=
        fun herror hin ↦ hregion ⟨herror, hin⟩
      obtain ⟨err, hsame⟩ := handlePageFault_unchanged (v := v) (m := m) hwrite hout
      refine ⟨fun _ ↦ ⟨fun h ↦ absurd h hwrite, fun herror hin ↦ absurd hin (hout herror)⟩,
        fun _ ↦ ⟨_, _, hsame, .refl m, fun h ↦ absurd h hwrite⟩⟩

end Regions

/-! ## The identity mapping -/

/-- What `SetupIdentityPageTable` writes, with its tables in the frames 1 to 66, and free frames
behind them. -/
def kernelMachine : Machine where
  mem := fun frame i ↦
    if frame = 1 ∧ i = 0 then 0x2003#64
    else if frame = 2 ∧ i < kPageDirectoryCount then BitVec.ofNat 64 ((i + 3) * 0x1000 + 0x003)
    else if 3 ≤ frame ∧ frame < 3 + kPageDirectoryCount then
      BitVec.ofNat 64 ((frame - 3) * 0x40000000 + i * 0x200000 + 0x083)
    else 0#64
  memoryManager := ⟨fun line ↦ if line = 0 then 0xffffffffffffffff#64 else 0x7#64, 0, 96⟩
  cr3 := 1

section KernelMachine

theorem present_ofNat (n : ℕ) : present (BitVec.ofNat 64 n) = decide (n % 2 = 1) := by
  rw [present, BitVec.getLsbD_ofNat, Nat.testBit_eq_decide_div_mod_eq, pow_zero, Nat.div_one]
  rfl

theorem hugePage_ofNat (n : ℕ) : hugePage (BitVec.ofNat 64 n) = decide (n / 128 % 2 = 1) := by
  rw [hugePage, BitVec.getLsbD_ofNat, Nat.testBit_eq_decide_div_mod_eq]
  rfl

theorem pointer_ofNat (n : ℕ) : pointer (BitVec.ofNat 64 n) = n / 4096 % 2 ^ 40 := by
  rw [pointer, BitVec.extractLsb'_toNat, BitVec.toNat_ofNat, Nat.shiftRight_eq_div_pow]
  omega

theorem mem_pml4 {i : ℕ} (hi : i ≠ 0) : kernelMachine.mem 1 i = 0#64 := by
  simp [kernelMachine, hi]

theorem mem_pdpt {i : ℕ} (hi : i < 64) :
    (kernelMachine.mem 2 i).present = true ∧ (kernelMachine.mem 2 i).hugePage = false ∧
      (kernelMachine.mem 2 i).pointer = i + 3 := by
  have hmem : kernelMachine.mem 2 i = BitVec.ofNat 64 ((i + 3) * 0x1000 + 0x003) := by
    simp [kernelMachine, kPageDirectoryCount, hi]
  rw [hmem, present_ofNat, hugePage_ofNat, pointer_ofNat]
  refine ⟨decide_eq_true ?_, decide_eq_false ?_, ?_⟩ <;> omega

theorem mem_pdpt_behind {i : ℕ} (hi : 64 ≤ i) : kernelMachine.mem 2 i = 0#64 := by
  simp [kernelMachine, kPageDirectoryCount, not_lt.mpr hi]

theorem mem_pageDirectory {j i : ℕ} (hj : j < 64) (hi : i < 512) :
    (kernelMachine.mem (j + 3) i).present = true ∧ (kernelMachine.mem (j + 3) i).hugePage = true ∧
      (kernelMachine.mem (j + 3) i).pointer = (j * 512 + i) * 512 := by
  have hmem : kernelMachine.mem (j + 3) i =
      BitVec.ofNat 64 (j * 0x40000000 + i * 0x200000 + 0x083) := by
    simp [kernelMachine, kPageDirectoryCount, hj, Nat.add_comm 3 64]
  rw [hmem, present_ofNat, hugePage_ofNat, pointer_ofNat]
  refine ⟨decide_eq_true ?_, decide_eq_true ?_, ?_⟩ <;> omega

/-- Only the PML4 and the page directory pointers lead to tables. -/
theorem frameAt_kernelMachine {d q frame : ℕ} (hsmall : kernelMachine.Small 1 d q)
    (hframe : kernelMachine.frameAt 1 d q = some frame) :
    (d = 0 ∧ q = 0 ∧ frame = 2) ∨ (d = 1 ∧ q < 64 ∧ frame = q + 3) := by
  induction d generalizing q frame with
  | zero =>
      have hlt : q < 512 := hsmall
      change kernelMachine.child 1 (q % 512) = some frame at hframe
      rw [Nat.mod_eq_of_lt hlt] at hframe
      obtain ⟨hpresent, hpointer⟩ := Mapped.child_eq_some hframe
      by_cases hq : q = 0
      · subst hq
        exact .inl ⟨rfl, rfl, hpointer.symm⟩
      · rw [mem_pml4 hq] at hpresent
        cases hpresent
  | succ d ih =>
      obtain ⟨table, htable, hchild⟩ := Option.bind_eq_some_iff.mp hframe
      rcases ih hsmall.1 htable with ⟨rfl, hq, rfl⟩ | ⟨rfl, hq, rfl⟩
      · obtain ⟨hpresent, hpointer⟩ := Mapped.child_eq_some hchild
        have hindex : q % 512 = q := by omega
        rw [hindex] at hpresent hpointer
        rcases Nat.lt_or_ge q 64 with hlt | hge
        · exact .inr ⟨rfl, hlt, hpointer.symm.trans (mem_pdpt hlt).2.2⟩
        · rw [mem_pdpt_behind hge] at hpresent
          cases hpresent
      · have hclear := hsmall.2.2 (by decide) _ htable
        rw [(mem_pageDirectory hq (Nat.mod_lt q (by decide))).2.1] at hclear
        cases hclear

theorem addressSpace_kernelMachine : AddressSpace kernelMachine where
  rootAllocated := by decide
  rangeEnd := by decide
  allocated := by
    intro d q frame hsmall hframe
    have hall : ∀ f < 67, kernelMachine.memoryManager.getBit f = true := by decide +kernel
    rcases frameAt_kernelMachine hsmall hframe with ⟨-, -, rfl⟩ | ⟨-, hq, rfl⟩
    · exact hall 2 (by decide)
    · exact hall (q + 3) (by omega)
  ne_root := by
    intro d q frame hsmall _ hframe
    change frame ≠ 1
    rcases frameAt_kernelMachine hsmall hframe with ⟨-, -, rfl⟩ | ⟨-, -, rfl⟩ <;> omega
  inj := by
    intro d q d' q' frame hsmall hsmall' _ _ hframe hframe'
    rcases frameAt_kernelMachine hsmall hframe with ⟨rfl, rfl, hf⟩ | ⟨rfl, -, hf⟩ <;>
      rcases frameAt_kernelMachine hsmall' hframe' with ⟨rfl, rfl, hf'⟩ | ⟨rfl, -, hf'⟩ <;> omega
  clear := by
    intro d q table hholds hpos hd htable habsent
    cases d with
    | zero => omega
    | succ d =>
        rcases frameAt_kernelMachine hholds.2 htable with ⟨rfl, hq, rfl⟩ | ⟨rfl, hq, rfl⟩
        · rcases Nat.lt_or_ge (q % 512) 64 with hlt | hge
          · exact (mem_pdpt hlt).2.1
          · rw [mem_pdpt_behind hge]
            rfl
        · rw [(mem_pageDirectory hq (Nat.mod_lt q (by decide))).1] at habsent
          cases habsent

theorem frameAt_user_kernelMachine {d q : ℕ} (h : Entry userHalf d q) :
    kernelMachine.frameAt 1 d q = none := by
  induction d generalizing q with
  | zero =>
      have hlt := h.lt
      have htop : 256 ≤ q / 512 ^ 0 := h.top
      apply child_of_absent
      rw [mem_pml4 (by omega), present_zero]
  | succ d ih =>
      rw [frameAt, tableOf_succ, ih h.parent]
      rfl

theorem kernelSpace_kernelMachine : KernelSpace kernelMachine where
  toAddressSpace := addressSpace_kernelMachine
  identity := by
    intro p hp
    have hlt : p < 64 * 512 ^ 2 := hp
    have hpml4 : p / 512 ^ 3 % 512 = 0 := by omega
    have hpdpt : p / 512 ^ 2 % 512 = p / 512 ^ 2 := by omega
    have hj : p / 512 ^ 2 < 64 := by omega
    have hi : p / 512 ^ 1 % 512 < 512 := Nat.mod_lt _ (by decide)
    obtain ⟨hpresent, hclear, hpointer⟩ := mem_pdpt hj
    obtain ⟨hpresent', hhuge, hpointer'⟩ := mem_pageDirectory hj hi
    refine ⟨_, ?_, hpointer'.trans (by omega)⟩
    rw [page, leaf_down (by rw [hpml4]; rfl) (by decide) (fun h ↦ absurd h (by decide)), hpml4]
    change kernelMachine.leaf 3 2 p = _
    rw [leaf_down (by rwa [hpdpt]) (by decide) (fun _ ↦ by rwa [hpdpt]), hpdpt, hpointer,
      leaf_huge hpresent' (by decide) hhuge]
  supervisor := rfl
  empty := fun i hpos _ ↦ mem_pml4 (Nat.pos_iff_ne_zero.mp hpos)
  pages := by
    intro d q table hentry htable hpresent
    have hframe := frameAt_user_kernelMachine hentry
    change (kernelMachine.tableOf 1 d q).bind _ = none at hframe
    rw [show kernelMachine.tableOf 1 d q = some table from htable, Option.bind_some,
      child_of_present hpresent] at hframe
    cases hframe

/-- The write of `fault wr_kernel` succeeds: the handler links a copy of the page into the
memory of the kernel. -/
theorem handlePageFault_writes_kernel :
    KernelSpace kernelMachine ∧ SupervisorPage kernelMachine (pageOf 0x100) ∧
      ¬ Confines Fat.abcVolume abcTask kernelMachine 7 0x100 := by
  have hwrite : UserWrite 7 := ⟨by decide, by decide, by decide⟩
  have hm := kernelSpace_kernelMachine
  obtain ⟨e, he, -⟩ := hm.identity (pageOf 0x100) (by decide)
  refine ⟨hm, hm.supervisorPage (by decide) (by rw [he]; exact Option.some_ne_none _), ?_⟩
  rintro ⟨result, m', hfault, hchanges, hsuper⟩
  rw [handlePageFault_userWrite hwrite] at hfault
  have hcanon : Canonical 0x100 := by decide
  rcases (confines_userWrite_iff hm hcanon).mp ⟨result, m', hfault, hchanges, hsuper hwrite⟩ with
    hempty | ⟨hhigh, -⟩
  · have hfree : 67 ∈ kernelMachine.memoryManager.freeFrames :=
      BitmapMemoryManager.mem_freeFrames.mpr (by decide +kernel)
    rw [hempty] at hfree
    exact absurd hfree (Finset.notMem_empty 67)
  · exact absurd hhigh (by decide)

/-- A first access to the demand-paging range. -/
theorem handlePageFault_confines_heap :
    Confines Fat.abcVolume abcTask kernelMachine 4 0xffff800000010000 := by
  have hopen : MapsOpenFiles abcTask := by
    intro fm hfm
    obtain rfl := List.mem_singleton.mp hfm
    exact ⟨_, rfl⟩
  refine (handlePageFault_confines_iff Fat.abcVolume_geometry.bytesPerCluster_pos hopen
    kernelSpace_kernelMachine (by decide) (by decide) (fun _ ↦ leaf_absent (by decide))).mpr
      ⟨fun h ↦ absurd h.1 (by decide), fun _ _ ↦ .inl (by decide)⟩

end KernelMachine

end App
end MinOS
