import MinOS.Paging.Range

/-!
# Copies of page maps

`CopyPageMaps` of `paging.cpp` clones the tables below a PML4.  The tables of the
clone are fresh frames, and its pages are the pages of the source, read-only.
-/

namespace MinOS
namespace Paging

open PageMapEntry

namespace Machine

/-- The loop of `CopyPageMaps` for a page table. -/
def copyPages (dest src : ℕ) : ℕ → ℕ → Machine → Machine
  | 0, _, m => m
  | turns + 1, i, m =>
      if (m.mem src i).present = false then copyPages dest src turns (i + 1) m
      else
        let m := m.setEntry dest i (m.mem src i)
        let m := m.setEntry dest i ((m.mem dest i).setFlag 1 false)
        copyPages dest src turns (i + 1) m

/-- The loop of `CopyPageMaps` for the levels above; `copy` is the recursive call. -/
def copyTables (copy : Machine → ℕ → ℕ → Except Error Unit × Machine) (dest src : ℕ) :
    ℕ → ℕ → Machine → Except Error Unit × Machine
  | 0, _, m => (.ok (), m)
  | turns + 1, i, m =>
      if (m.mem src i).present = false then copyTables copy dest src turns (i + 1) m
      else
        match m.newPageMap with
        | (.error err, m) => (.error err, m)
        | (.ok table, m) =>
            let m := m.setEntry dest i (m.mem src i)
            let m := m.setEntry dest i ((m.mem dest i).setPointer table)
            match copy m table (m.mem src i).pointer with
            | (.error err, m) => (.error err, m)
            | (.ok (), m) => copyTables copy dest src turns (i + 1) m

/-- The parts are counted from 1; no call has part 0. -/
def copyPageMaps : ℕ → ℕ → Machine → ℕ → ℕ → Except Error Unit × Machine
  | 0, _, m, _, _ => (.ok (), m)
  | 1, start, m, dest, src => (.ok (), copyPages dest src (512 - start) start m)
  | part + 2, start, m, dest, src =>
      copyTables (copyPageMaps (part + 1) 0) dest src (512 - start) start m

end Machine

/-! ## Growing memory -/

/-- Frames are only taken, and the allocated ones outside of `W` are not written. -/
structure Takes (W : Set ℕ) (m m' : Machine) : Prop where
  cr3 : m'.cr3 = m.cr3
  rangeEnd : m'.memoryManager.rangeEnd = m.memoryManager.rangeEnd
  free : m'.memoryManager.freeFrames ⊆ m.memoryManager.freeFrames
  allocated : ∀ {g}, m.memoryManager.getBit g = true → m'.memoryManager.getBit g = true
  same : ∀ {g}, m.memoryManager.getBit g = true → g ∉ W → m'.mem g = m.mem g

namespace Takes

variable {W W' : Set ℕ} {m m' m'' : Machine}

theorem refl (W : Set ℕ) (m : Machine) : Takes W m m where
  cr3 := rfl
  rangeEnd := rfl
  free := Finset.Subset.refl _
  allocated := id
  same := fun _ _ ↦ rfl

/-- What is written after the first part may also be a frame that it took. -/
theorem trans (h : Takes W m m') (h' : Takes W' m' m'')
    (hW : ∀ g ∈ W', g ∈ W ∨ g ∈ m.memoryManager.freeFrames) : Takes W m m'' where
  cr3 := h'.cr3.trans h.cr3
  rangeEnd := h'.rangeEnd.trans h.rangeEnd
  free := h'.free.trans h.free
  allocated := fun hg ↦ h'.allocated (h.allocated hg)
  same := by
    intro g hg hout
    refine (h'.same (h.allocated hg) fun hin ↦ ?_).trans (h.same hg hout)
    rcases hW g hin with hin | hfree
    · exact hout hin
    · exact notMem_freeFrames_of_getBit hg hfree

theorem setEntry (h : Takes W m m') {table : ℕ} (hin : table ∈ W) (i : ℕ) (e : PageMapEntry) :
    Takes W m (m'.setEntry table i e) where
  cr3 := h.cr3
  rangeEnd := h.rangeEnd
  free := h.free
  allocated := h.allocated
  same := by
    intro g hg hout
    have hne : g ≠ table := fun heq ↦ hout (heq ▸ hin)
    simpa [Machine.setEntry, hne] using h.same hg hout

theorem mono (h : Takes W m m') (hW : W ⊆ W') : Takes W' m m' :=
  ⟨h.cr3, h.rangeEnd, h.free, h.allocated, fun hg hout ↦ h.same hg fun hin ↦ hout (hW hin)⟩

end Takes

/-- A frame is taken and filled with the given words. -/
def Machine.takeFrame (m : Machine) (frame : ℕ) (words : ℕ → PageMapEntry) : Machine where
  mem := Function.update m.mem frame words
  memoryManager := m.memoryManager.markAllocated frame 1
  cr3 := m.cr3

theorem mem_takeFrame (m : Machine) (frame : ℕ) (words : ℕ → PageMapEntry) (g : ℕ) :
    (m.takeFrame frame words).mem g = if g = frame then words else m.mem g :=
  Function.update_apply m.mem frame words g

theorem takes_takeFrame {m : Machine} {frame : ℕ} (hfree : frame ∈ m.memoryManager.freeFrames)
    (words : ℕ → PageMapEntry) : Takes ∅ m (m.takeFrame frame words) where
  cr3 := rfl
  rangeEnd := m.memoryManager.markAllocated_rangeEnd frame 1
  free := by
    rw [Machine.takeFrame, BitmapMemoryManager.freeFrames_markAllocated_one]
    exact Finset.erase_subset _ _
  allocated := by
    intro g hg
    rw [Machine.takeFrame, BitmapMemoryManager.getBit_markAllocated_one, hg, Bool.or_true]
  same := by
    intro g hg _
    have hne : g ≠ frame := by
      rintro rfl
      exact notMem_freeFrames_of_getBit hg hfree
    exact Function.update_of_ne hne _ _

theorem getBit_takeFrame (m : Machine) (frame : ℕ) (words : ℕ → PageMapEntry) :
    (m.takeFrame frame words).memoryManager.getBit frame = true := by
  rw [Machine.takeFrame, BitmapMemoryManager.getBit_markAllocated_one, decide_eq_true rfl, Bool.true_or]

/-- A new page map is a free frame, which is cleared. -/
theorem newPageMap_eq (m : Machine) :
    (∃ frame ∈ m.memoryManager.freeFrames,
        m.newPageMap = (.ok frame, m.takeFrame frame fun _ ↦ 0#64)) ∨
      (m.memoryManager.freeFrames = ∅ ∧ m.newPageMap = (.error .kNoEnoughMemory, m)) := by
  rcases m.memoryManager.allocate_one_cases with ⟨frame, hfree, halloc⟩ | ⟨hempty, halloc⟩
  · exact .inl ⟨frame, hfree, by rw [Machine.newPageMap, halloc, Machine.takeFrame]⟩
  · exact .inr ⟨hempty, by rw [Machine.newPageMap, halloc]⟩

theorem newPageMap_cases (m : Machine) :
    (∃ frame ∈ m.memoryManager.freeFrames, ∃ m', m.newPageMap = (.ok frame, m') ∧
        Takes ∅ m m' ∧ m'.memoryManager.getBit frame = true ∧ m'.mem frame = fun _ ↦ 0#64) ∨
      (m.memoryManager.freeFrames = ∅ ∧ m.newPageMap = (.error .kNoEnoughMemory, m)) := by
  rcases newPageMap_eq m with ⟨frame, hfree, hnew⟩ | hnone
  · exact .inl ⟨frame, hfree, _, hnew, takes_takeFrame hfree _, getBit_takeFrame m frame _,
      Function.update_self frame _ _⟩
  · exact .inr hnone

section Takes

variable {m m' : Machine} {dest src table : ℕ}

theorem takes_copyPages (dest src turns i : ℕ) (m : Machine) :
    Takes {dest} m (Machine.copyPages dest src turns i m) := by
  induction turns generalizing i m with
  | zero => exact .refl _ m
  | succ turns ih =>
      rw [Machine.copyPages]
      split_ifs
      · exact ih (i + 1) m
      · have hset := ((Takes.refl {dest} m).setEntry (Set.mem_singleton dest) i
          (m.mem src i)).setEntry (Set.mem_singleton dest) i
            (((m.setEntry dest i (m.mem src i)).mem dest i).setFlag 1 false)
        exact hset.trans (ih (i + 1) _) fun g hg ↦ .inl hg

theorem takes_copyTables {copy : Machine → ℕ → ℕ → Except Error Unit × Machine}
    (hcopy : ∀ m dest src, Takes {dest} m (copy m dest src).2) (dest src turns i : ℕ)
    (m : Machine) : Takes {dest} m (Machine.copyTables copy dest src turns i m).2 := by
  induction turns generalizing i m with
  | zero => exact .refl _ m
  | succ turns ih =>
      rw [Machine.copyTables]
      split_ifs
      · exact ih (i + 1) m
      · rcases newPageMap_cases m with ⟨frame, hfree, m₁, hnew, htakes, -, -⟩ | ⟨-, hnew⟩
        · rw [hnew]
          dsimp only
          have hlink := ((htakes.mono (Set.empty_subset {dest})).setEntry
            (Set.mem_singleton dest) i (m₁.mem src i)).setEntry (Set.mem_singleton dest) i
              (((m₁.setEntry dest i (m₁.mem src i)).mem dest i).setPointer frame)
          rcases hsub : copy _ frame _ with ⟨result, m₂⟩
          have hm₂ : m₂ = (copy _ frame _).2 := (congrArg Prod.snd hsub).symm
          have hboth : Takes {dest} m m₂ := hm₂ ▸ hlink.trans (hcopy _ frame _) fun g hg ↦
            .inr (Set.mem_singleton_iff.mp hg ▸ hfree)
          cases result with
          | error e => exact hboth
          | ok _ => exact hboth.trans (ih (i + 1) m₂) fun g hg ↦ .inl hg
        · rw [hnew]
          exact .refl _ m

/-- Whatever its result, a copy writes to its destination and to fresh frames only. -/
theorem takes_copyPageMaps (part start : ℕ) (m : Machine) (dest src : ℕ) :
    Takes {dest} m (Machine.copyPageMaps part start m dest src).2 := by
  induction part generalizing start m dest src with
  | zero => exact .refl _ m
  | succ part ih =>
      cases part with
      | zero => exact takes_copyPages dest src (512 - start) start m
      | succ part => exact takes_copyTables (fun m dest src ↦ ih 0 m dest src) dest src _ start m

end Takes

section Run

open Machine

variable {m m' : Machine}

theorem takes_setEntry (m : Machine) (table i : ℕ) (e : PageMapEntry) :
    Takes Set.univ m (m.setEntry table i e) :=
  (Takes.refl Set.univ m).setEntry (Set.mem_univ table) i e

theorem Takes.then {m'' : Machine} (h : Takes Set.univ m m') (h' : Takes Set.univ m' m'') :
    Takes Set.univ m m'' :=
  h.trans h' fun _ _ ↦ .inl trivial

theorem takes_newPageMap (m : Machine) : Takes Set.univ m m.newPageMap.2 := by
  rcases newPageMap_cases m with ⟨frame, -, m', hnew, htakes, -⟩ | ⟨-, hnew⟩
  · rw [hnew]
    exact htakes.mono (Set.subset_univ _)
  · rw [hnew]
    exact .refl _ m

theorem takes_setNewPageMap (m : Machine) (table i : ℕ) :
    Takes Set.univ m (m.setNewPageMapIfNotPresent table i).2 := by
  have hnew := takes_newPageMap m
  rw [setNewPageMapIfNotPresent]
  split_ifs
  · exact .refl _ m
  · rcases h : m.newPageMap with ⟨err | frame, m₁⟩
    · rwa [h] at hnew
    · rw [h] at hnew
      exact Takes.then hnew (takes_setEntry m₁ table i _)

theorem stepsKeep_takes : StepsKeep (Takes Set.univ) where
  refl := Takes.refl Set.univ
  trans := Takes.then
  newPageMap := takes_setNewPageMap
  setFlags m table i _ := takes_setEntry m table i _

theorem takes_setupPageMaps (m : Machine) (addr : LinearAddress4Level) (n : ℕ) (w : Bool) :
    Takes Set.univ m (m.setupPageMaps addr n w).machine :=
  stepsKeep_takes.setupPageMaps m addr n

theorem takes_storeBytes {bytes : List UInt8} : ∀ {m : Machine} {vaddr : ℕ},
    m.storeBytes vaddr bytes = some m' → Takes Set.univ m m' := by
  induction bytes with
  | nil =>
      intro m vaddr h
      obtain rfl := Option.some.inj h
      exact .refl _ m
  | cons b bytes ih =>
      intro m vaddr h
      obtain ⟨m₁, hstore, hrest⟩ := Option.bind_eq_some_iff.mp h
      obtain ⟨phys, -, rfl⟩ := Option.map_eq_some_iff.mp hstore
      exact Takes.then (takes_setEntry m _ _ _) (ih hrest)

end Run

/-! ## Clones -/

/-- The tables that a present entry leads to satisfy `Q`, and there is no huge page
among their entries.  The level `L` of the entry is counted from zero. -/
def Below (mem : ℕ → ℕ → PageMapEntry) (Q : ℕ → Prop) : ℕ → PageMapEntry → Prop
  | 0, _ => True
  | L + 1, e => (L + 1 < 3 → e.hugePage = false) ∧ Q e.pointer ∧
      ∀ i < 512, (mem e.pointer i).present = true → Below mem Q L (mem e.pointer i)

/-- The entry `e'` is a clone of the present entry `e`: its tables satisfy `New`,
and at the last level it is the same but for the writable bit. -/
def CloneAt (mem : ℕ → ℕ → PageMapEntry) (New : ℕ → Prop) : ℕ → PageMapEntry → PageMapEntry → Prop
  | 0, e', e => e' = e.setFlag 1 false
  | L + 1, e', e => ∃ f, New f ∧ e' = e.setPointer f ∧ ∀ i < 512,
      ((mem e.pointer i).present = false → mem f i = 0#64) ∧
        ((mem e.pointer i).present = true → CloneAt mem New L (mem f i) (mem e.pointer i))

section Clone

variable {mem mem' : ℕ → ℕ → PageMapEntry} {Q Q' New New' : ℕ → Prop}

theorem Below.mono (hmem : ∀ g, Q g → mem' g = mem g) (hQ : ∀ g, Q g → Q' g) :
    ∀ {L : ℕ} {e : PageMapEntry}, Below mem Q L e → Below mem' Q' L e := by
  intro L
  induction L with
  | zero => exact fun _ ↦ trivial
  | succ L ih =>
      rintro e ⟨hhuge, hq, hbelow⟩
      refine ⟨hhuge, hQ _ hq, fun i hi hpresent ↦ ?_⟩
      rw [hmem _ hq] at hpresent ⊢
      exact ih (hbelow i hi hpresent)

/-- A clone is kept while its tables and those of the source are. -/
theorem CloneAt.mono (hmem : ∀ g, Q g → mem' g = mem g)
    (hnew : ∀ f, New f → New' f ∧ mem' f = mem f) :
    ∀ {L : ℕ} {e' e : PageMapEntry}, Below mem Q L e → CloneAt mem New L e' e →
      CloneAt mem' New' L e' e := by
  intro L
  induction L with
  | zero => exact fun _ h ↦ h
  | succ L ih =>
      rintro e' e ⟨-, hq, hbelow⟩ ⟨f, hf, he', hclone⟩
      obtain ⟨hf', hsame⟩ := hnew f hf
      refine ⟨f, hf', he', fun i hi ↦ ?_⟩
      rw [hsame, hmem _ hq]
      exact ⟨(hclone i hi).1, fun hpresent ↦
        ih (hbelow i hi hpresent) ((hclone i hi).2 hpresent)⟩

end Clone

/-- The frames that were taken between two states. -/
def New (m m' : Machine) (f : ℕ) : Prop :=
  f ∈ m.memoryManager.freeFrames ∧ m'.memoryManager.getBit f = true

/-- The entries from `i` on of a table are clones of the entries of another. -/
structure Copied (L : ℕ) (m m' : Machine) (dest src i : ℕ) : Prop where
  takes : Takes {dest} m m'
  before : ∀ j, j < i → m'.mem dest j = m.mem dest j
  absent : ∀ j, (m.mem src j).present = false → m'.mem dest j = m.mem dest j
  clone : ∀ j, i ≤ j → j < 512 → (m.mem src j).present = true →
    CloneAt m'.mem (New m m') L (m'.mem dest j) (m.mem src j)

/-- What a copy of the entries from `i` on needs: the tables of the source are
allocated, and the destination is none of them. -/
structure Copyable (L : ℕ) (m : Machine) (dest src i : ℕ) : Prop where
  destAllocated : m.memoryManager.getBit dest = true
  srcAllocated : m.memoryManager.getBit src = true
  ne : src ≠ dest
  rangeEnd : m.memoryManager.rangeEnd ≤ kFrameCount
  below : ∀ j, i ≤ j → j < 512 → (m.mem src j).present = true →
    Below m.mem (fun g ↦ m.memoryManager.getBit g = true ∧ g ≠ dest) L (m.mem src j)

section Copied

variable {m m' : Machine} {dest src : ℕ}

theorem mem_copyPages (hne : src ≠ dest) (turns i : ℕ) (m : Machine) (g j : ℕ) :
    (Machine.copyPages dest src turns i m).mem g j =
      if g = dest ∧ (i ≤ j ∧ j < i + turns) ∧ (m.mem src j).present = true then
        (m.mem src j).setFlag 1 false
      else m.mem g j := by
  induction turns generalizing i m with
  | zero =>
      rw [if_neg (by omega)]
      rfl
  | succ turns ih =>
      rw [Machine.copyPages]
      split_ifs with habsent hhere hhere
      · rw [ih]
        have hi : j ≠ i := by
          rintro rfl
          rw [habsent] at hhere
          cases hhere.2.2
        rw [if_pos ⟨hhere.1, by omega, hhere.2.2⟩]
      · rw [ih, if_neg]
        rintro ⟨hg, hij, hpresent⟩
        exact hhere ⟨hg, by omega, hpresent⟩
      · rw [ih]
        simp only [Machine.mem_setEntry, hne, false_and, if_false, and_true]
        by_cases hi : j = i
        · subst hi
          simp [hhere.1]
        · rw [if_pos ⟨hhere.1, by omega, hhere.2.2⟩]
      · rw [ih]
        have hi : ¬ (g = dest ∧ j = i) := by
          rintro ⟨hg, rfl⟩
          exact hhere ⟨hg, by omega, by simpa using habsent⟩
        simp only [Machine.mem_setEntry, hne, false_and, if_false, hi]
        rw [if_neg]
        rintro ⟨hg, hij, hpresent⟩
        exact hhere ⟨hg, by omega, hpresent⟩

theorem copied_copyPages (hne : src ≠ dest) {i : ℕ} (hi : i ≤ 512) :
    Copied 0 m (Machine.copyPages dest src (512 - i) i m) dest src i where
  takes := takes_copyPages dest src _ i m
  before := by
    intro j hj
    rw [mem_copyPages hne, if_neg (by omega)]
  absent := by
    intro j habsent
    rw [mem_copyPages hne, if_neg]
    rintro ⟨-, -, hpresent⟩
    cases habsent.symm.trans hpresent
  clone := by
    intro j hij hj hpresent
    rw [mem_copyPages hne, if_pos ⟨rfl, by omega, hpresent⟩]
    rfl

/-- What is needed is still there after other frames were taken. -/
theorem Copyable.of_takes {L i k : ℕ} (h : Copyable L m dest src i) (hik : i ≤ k)
    (htakes : Takes {dest} m m') : Copyable L m' dest src k := by
  have hsrc : m'.mem src = m.mem src := htakes.same h.srcAllocated h.ne
  refine ⟨htakes.allocated h.destAllocated, htakes.allocated h.srcAllocated, h.ne,
    htakes.rangeEnd ▸ h.rangeEnd, fun j hkj hj hpresent ↦ ?_⟩
  rw [hsrc] at hpresent ⊢
  exact (h.below j (hik.trans hkj) hj hpresent).mono (fun g hg ↦ htakes.same hg.1 hg.2)
    fun g hg ↦ ⟨htakes.allocated hg.1, hg.2⟩

/-- The tables below an entry can be copied to a frame that was free. -/
theorem Copyable.child {L i frame : ℕ} (h : Copyable (L + 1) m dest src i)
    (htakes : Takes {dest} m m') (hfree : frame ∈ m.memoryManager.freeFrames)
    (hbit : m'.memoryManager.getBit frame = true) (hi : i < 512)
    (hpresent : (m.mem src i).present = true) :
    Copyable L m' frame (m.mem src i).pointer 0 := by
  obtain ⟨-, ⟨hchild, hne⟩, hbelow⟩ := h.below i le_rfl hi hpresent
  have hfresh : ∀ {g}, m.memoryManager.getBit g = true → g ≠ frame := by
    rintro g hg rfl
    exact notMem_freeFrames_of_getBit hg hfree
  refine ⟨hbit, htakes.allocated hchild, hfresh hchild, htakes.rangeEnd ▸ h.rangeEnd, ?_⟩
  rw [htakes.same hchild hne]
  exact fun j _ hj hpresent' ↦ (hbelow j hj hpresent').mono (fun g hg ↦ htakes.same hg.1 hg.2)
    fun g hg ↦ ⟨htakes.allocated hg.1, hfresh hg.1⟩

theorem Copied.cons {L i frame : ℕ} {m₁ m₂ : Machine} (h : Copyable (L + 1) m dest src i)
    (hfree : frame ∈ m.memoryManager.freeFrames) (htakes : Takes {dest} m m₁)
    (hzero : ∀ j, m₁.mem frame j = 0#64)
    (hdest : ∀ j, m₁.mem dest j = if j = i then (m.mem src i).setPointer frame else m.mem dest j)
    (hbit : m₁.memoryManager.getBit frame = true)
    (hi : i < 512) (hpresent : (m.mem src i).present = true)
    (hsub : Copied L m₁ m₂ frame (m.mem src i).pointer 0)
    (hrest : Copied (L + 1) m₂ m' dest src (i + 1)) : Copied (L + 1) m m' dest src i := by
  obtain ⟨-, ⟨hchild, hne⟩, hbelow⟩ := h.below i le_rfl hi hpresent
  have hframe : frame ≠ dest := by
    rintro rfl
    exact notMem_freeFrames_of_getBit h.destAllocated hfree
  have htakes₂ : Takes {dest} m m₂ := htakes.trans hsub.takes fun g hg ↦
    .inr (Set.mem_singleton_iff.mp hg ▸ hfree)
  have hall : Takes {dest} m m' := htakes₂.trans hrest.takes fun g hg ↦ .inl hg
  have hsrc₂ : m₂.mem src = m.mem src := htakes₂.same h.srcAllocated h.ne
  have hdest₂ : m₂.mem dest = m₁.mem dest :=
    hsub.takes.same (htakes.allocated h.destAllocated) hframe.symm
  have hnew : ∀ f, New m₁ m₂ f → New m m' f ∧ m'.mem f = m₂.mem f := by
    rintro f ⟨hf, hbit'⟩
    refine ⟨⟨htakes.free hf, hrest.takes.allocated hbit'⟩, hrest.takes.same hbit' ?_⟩
    rintro rfl
    exact notMem_freeFrames_of_getBit (htakes.allocated h.destAllocated) hf
  have hkeep : ∀ g, m.memoryManager.getBit g = true ∧ g ≠ dest → m'.mem g = m₂.mem g :=
    fun g hg ↦ hrest.takes.same (htakes₂.allocated hg.1) hg.2
  have hkeep₂ : ∀ g, m.memoryManager.getBit g = true ∧ g ≠ dest → m₂.mem g = m.mem g :=
    fun g hg ↦ htakes₂.same hg.1 hg.2
  refine ⟨hall, fun j hj ↦ ?_, fun j habsent ↦ ?_, fun j hij hj hpresent' ↦ ?_⟩
  · rw [hrest.before j (by omega), hdest₂, hdest, if_neg (by omega)]
  · have hji : j ≠ i := by
      rintro rfl
      cases habsent.symm.trans hpresent
    rw [hrest.absent j (hsrc₂ ▸ habsent), hdest₂, hdest, if_neg hji]
  · rcases Nat.eq_or_lt_of_le hij with rfl | hlt
    · have hbit₂ := hsub.takes.allocated hbit
      have hsame : m'.mem frame = m₂.mem frame := hrest.takes.same hbit₂ hframe
      have hchild₁ : m₁.mem (m.mem src i).pointer = m.mem (m.mem src i).pointer :=
        htakes.same hchild hne
      refine ⟨frame, ⟨hfree, hrest.takes.allocated hbit₂⟩, ?_, fun k hk ↦ ?_⟩
      · rw [hrest.before i (Nat.lt_succ_self i), hdest₂, hdest, if_pos rfl]
      · rw [hsame, hkeep _ ⟨hchild, hne⟩, hkeep₂ _ ⟨hchild, hne⟩]
        refine ⟨fun habsent ↦ ?_, fun hpresent₂ ↦ ?_⟩
        · rw [hsub.absent k (hchild₁ ▸ habsent), hzero]
        · have hclone := hsub.clone k (Nat.zero_le k) hk (hchild₁ ▸ hpresent₂)
          rw [hchild₁] at hclone
          exact hclone.mono hkeep hnew ((hbelow k hk hpresent₂).mono hkeep₂ fun g hg ↦ hg)
    · have hclone := hrest.clone j hlt hj (hsrc₂ ▸ hpresent')
      rw [hsrc₂] at hclone
      refine hclone.mono (Q := fun g ↦ m.memoryManager.getBit g = true ∧ g ≠ dest)
        (fun g _ ↦ rfl) (fun f hf ↦ ⟨⟨htakes₂.free hf.1, hf.2⟩, rfl⟩) ?_
      exact (h.below j hij hj hpresent').mono (fun g hg ↦ (hkeep g hg).trans (hkeep₂ g hg))
        fun g hg ↦ hg

theorem copied_copyTables {L : ℕ} {copy : Machine → ℕ → ℕ → Except Error Unit × Machine}
    (hcopy : ∀ {m m' : Machine} {dest src : ℕ}, Copyable L m dest src 0 →
      copy m dest src = (.ok (), m') → Copied L m m' dest src 0) (turns : ℕ) :
    ∀ {i : ℕ} {m : Machine}, i + turns = 512 → Copyable (L + 1) m dest src i →
      Machine.copyTables copy dest src turns i m = (.ok (), m') →
      Copied (L + 1) m m' dest src i := by
  induction turns with
  | zero =>
      intro i m hi _ hok
      obtain ⟨-, rfl⟩ := Prod.mk.inj hok
      exact ⟨.refl _ m, fun _ _ ↦ rfl, fun _ _ ↦ rfl, fun j hij hj ↦ by omega⟩
  | succ turns ih =>
      intro i m hi h hok
      rw [Machine.copyTables] at hok
      split_ifs at hok with habsent
      · -- an entry that is not present is skipped
        obtain ⟨htakes, hbefore, habsent', hclone⟩ := ih (by omega)
          (h.of_takes (Nat.le_succ i) (.refl _ m)) hok
        refine ⟨htakes, fun j hj ↦ hbefore j (by omega), habsent', fun j hij hj hpresent ↦ ?_⟩
        rcases Nat.eq_or_lt_of_le hij with rfl | hlt
        · cases habsent.symm.trans hpresent
        · exact hclone j hlt hj hpresent
      · have hpresent : (m.mem src i).present = true := by simpa using habsent
        rcases newPageMap_cases m with ⟨frame, hfree, m₁, hnew, htakes, hbit, hzero⟩ | ⟨-, hnew⟩
        · rw [hnew] at hok
          dsimp only at hok
          have hsrc : m₁.mem src = m.mem src := htakes.same h.srcAllocated (Set.notMem_empty _)
          have hdest : m₁.mem dest = m.mem dest :=
            htakes.same h.destAllocated (Set.notMem_empty _)
          have hframe : frame ≠ dest := by
            rintro rfl
            exact notMem_freeFrames_of_getBit h.destAllocated hfree
          obtain ⟨m₂, hm₂⟩ : ∃ m₂, m₂ = (m₁.setEntry dest i (m₁.mem src i)).setEntry dest i
              (((m₁.setEntry dest i (m₁.mem src i)).mem dest i).setPointer frame) := ⟨_, rfl⟩
          have hmem₂ : ∀ g j, m₂.mem g j =
              if g = dest ∧ j = i then (m.mem src i).setPointer frame else m₁.mem g j := by
            intro g j
            simp only [hm₂, Machine.mem_setEntry, and_self, if_true, hsrc]
            split_ifs <;> rfl
          have htakes₂ : Takes {dest} m m₂ := hm₂ ▸ ((htakes.mono (Set.empty_subset _)).setEntry
            (Set.mem_singleton dest) i _).setEntry (Set.mem_singleton dest) i _
          have hsrc₂ : m₂.mem src = m.mem src := htakes₂.same h.srcAllocated h.ne
          have hbit₂ : m₂.memoryManager.getBit frame = true := hm₂ ▸ hbit
          rw [← hm₂, hsrc₂] at hok
          rcases hsub : copy m₂ frame (m.mem src i).pointer with ⟨result, m₃⟩
          rw [hsub] at hok
          cases result with
          | error e => cases hok
          | ok _ =>
              dsimp only at hok
              have hcopied := hcopy (h.child htakes₂ hfree hbit₂ (by omega) hpresent) hsub
              refine Copied.cons h hfree htakes₂ ?_ ?_ hbit₂ (by omega) hpresent hcopied
                (ih (by omega) ?_ hok)
              · intro j
                rw [hmem₂, if_neg (fun hhere ↦ hframe hhere.1), hzero]
              · intro j
                simp only [hmem₂, true_and, hdest]
              · refine h.of_takes (Nat.le_succ i) (htakes₂.trans hcopied.takes fun g hg ↦ ?_)
                exact .inr (Set.mem_singleton_iff.mp hg ▸ hfree)
        · rw [hnew] at hok
          cases hok

/-- A copy that succeeds is a clone. -/
theorem copied_copyPageMaps (L : ℕ) : ∀ {m m' : Machine} {dest src i : ℕ}, i ≤ 512 →
    Copyable L m dest src i → Machine.copyPageMaps (L + 1) i m dest src = (.ok (), m') →
    Copied L m m' dest src i := by
  induction L with
  | zero =>
      intro m m' dest src i hi h hok
      obtain ⟨-, rfl⟩ := Prod.mk.inj hok
      exact copied_copyPages h.ne hi
  | succ L ih =>
      intro m m' dest src i hi h hok
      exact copied_copyTables (ih (Nat.zero_le 512)) (512 - i) (by omega) h hok

end Copied
/-! ## The user half -/

open Machine

/-- The user half of a PML4 leads to allocated tables, without huge pages. -/
structure UserTables (m : Machine) (src : ℕ) : Prop where
  allocated : ∀ {d q table}, Entry userHalf d q → m.tableOf src d q = some table →
    m.memoryManager.getBit table = true
  notHuge : ∀ {d q table}, Entry userHalf d q → 0 < d → d < 3 → m.tableOf src d q = some table →
    (m.mem table (q % 512)).present = true → (m.mem table (q % 512)).hugePage = false

/-- An allocated PML4 with an empty user half, which is none of the lower tables
of the source. -/
structure EmptyUser (m : Machine) (dest src : ℕ) : Prop where
  allocated : m.memoryManager.getBit dest = true
  empty : ∀ i, 256 ≤ i → i < 512 → (m.mem dest i).present = false
  apart : ∀ {d q}, Entry userHalf (d + 1) q → m.tableOf src (d + 1) q ≠ some dest

/-- The user half of `dest` translates as that of `src`, read-only, through tables
of its own. -/
structure Clones (m m' : Machine) (dest src : ℕ) : Prop where
  pages : ∀ p, 2 ^ 35 ≤ p → p < 2 ^ 36 →
    m'.leaf 4 dest p = (m.leaf 4 src p).map fun x ↦ (x.1, x.2.setFlag 1 false)
  inner : ∀ {d q table}, Entry userHalf d q → d < 3 → m.tableOf src d q = some table →
    (m.mem table (q % 512)).present = true → ∃ table' frame, m'.tableOf dest d q = some table' ∧
      m'.mem table' (q % 512) = (m.mem table (q % 512)).setPointer frame
  fresh : ∀ {d q frame}, Entry userHalf d q → d < 3 → m'.frameAt dest d q = some frame →
    New m m' frame ∧ ∀ {d' q'}, Entry userHalf d' q' → m'.tableOf src d' q' ≠ some frame
  tables : ∀ {d q table}, Entry userHalf d q → m.tableOf src d q = some table →
    m'.mem table = m.mem table
  lower : ∀ i < 256, m'.mem dest i = m.mem dest i

section User

variable {m m' : Machine} {dest src : ℕ}

theorem Entry.child {S : Set ℕ} {d q : ℕ} (h : Entry S d q) (hd : d < 3) {i : ℕ} (hi : i < 512) :
    Entry S (d + 1) (512 * q + i) := by
  have hquot : (512 * q + i) / 512 = q := by omega
  refine ⟨by omega, ?_, ?_⟩
  · have hlt := h.lt
    rw [Nat.pow_succ]
    omega
  · rw [Nat.pow_succ', ← Nat.div_div_eq_div_mul, hquot]
    exact h.top

theorem tableOf_child {root d q table i : ℕ} (hi : i < 512)
    (htable : m.tableOf root d q = some table) (hpresent : (m.mem table (q % 512)).present = true) :
    m.tableOf root (d + 1) (512 * q + i) = some (m.mem table (q % 512)).pointer := by
  have hquot : (512 * q + i) / 512 = q := by omega
  rw [tableOf, hquot, htable, Option.bind_some, child_of_present hpresent]

theorem UserTables.below (h : UserTables m src) (hdest : EmptyUser m dest src) :
    ∀ {L q table : ℕ}, L ≤ 3 → Entry userHalf (3 - L) q → m.tableOf src (3 - L) q = some table →
      (m.mem table (q % 512)).present = true →
      Below m.mem (fun g ↦ m.memoryManager.getBit g = true ∧ g ≠ dest) L
        (m.mem table (q % 512)) := by
  intro L
  induction L with
  | zero => exact fun _ _ _ _ ↦ trivial
  | succ L ih =>
      intro q table hL hentry htable hpresent
      have hdepth : 3 - L = 3 - (L + 1) + 1 := by omega
      have hchild : ∀ {i}, i < 512 → Entry userHalf (3 - (L + 1) + 1) (512 * q + i) ∧
          m.tableOf src (3 - (L + 1) + 1) (512 * q + i) =
            some (m.mem table (q % 512)).pointer := fun hi ↦
        ⟨hentry.child (by omega) hi, tableOf_child hi htable hpresent⟩
      refine ⟨fun hlt ↦ h.notHuge hentry (by omega) (by omega) htable hpresent, ⟨?_, ?_⟩, ?_⟩
      · exact h.allocated (hchild (show 0 < 512 by decide)).1 (hchild (by decide)).2
      · rintro hsame
        exact hdest.apart (hchild (show 0 < 512 by decide)).1 (hsame ▸ (hchild (by decide)).2)
      · intro i hi hpresent'
        have hmod : (512 * q + i) % 512 = i := by omega
        have hbelow := @ih (512 * q + i) _ (by omega) (hdepth ▸ (hchild hi).1)
          (hdepth ▸ (hchild hi).2) (by rwa [hmod])
        rwa [hmod] at hbelow

theorem UserTables.copyable (h : UserTables m src) (hdest : EmptyUser m dest src)
    (hne : src ≠ dest) (hrange : m.memoryManager.rangeEnd ≤ kFrameCount) :
    Copyable 3 m dest src 256 where
  destAllocated := hdest.allocated
  srcAllocated := by
    refine h.allocated (d := 0) (q := 256) ⟨by decide, by decide, ?_⟩ rfl
    change 256 ≤ 256 / 512 ^ 0
    decide
  ne := hne
  rangeEnd := hrange
  below := by
    intro j hlow hj hpresent
    have hentry : Entry userHalf (3 - 3) j := by
      refine ⟨by decide, by simpa using hj, ?_⟩
      change 256 ≤ j / 512 ^ 0
      simpa using hlow
    have hmod : j % 512 = j := Nat.mod_eq_of_lt hj
    have hbelow := h.below hdest (le_refl 3) hentry (rfl : m.tableOf src (3 - 3) j = some src)
      (by rwa [hmod])
    rwa [hmod] at hbelow

theorem present_setPointer (e : PageMapEntry) (f : ℕ) : (e.setPointer f).present = e.present :=
  getLsbD_setPointer e f (by decide)

theorem writable_setPointer (e : PageMapEntry) (f : ℕ) : (e.setPointer f).writable = e.writable :=
  getLsbD_setPointer e f (by decide)

/-- The tables of the clone stand beside those of the source. -/
theorem Copied.tableOf_cases (h : Copied 3 m m' dest src 256) (hsrc : UserTables m src)
    (hdest : EmptyUser m dest src) (hrange : m.memoryManager.rangeEnd ≤ kFrameCount) :
    ∀ {d q : ℕ}, Entry userHalf d q →
      (m.tableOf src d q = none ∧ m'.tableOf dest d q = none) ∨
        ∃ s t, m.tableOf src d q = some s ∧ m'.tableOf dest d q = some t ∧
          ((m.mem s (q % 512)).present = false → (m'.mem t (q % 512)).present = false) ∧
          ((m.mem s (q % 512)).present = true →
            CloneAt m'.mem (New m m') (3 - d) (m'.mem t (q % 512)) (m.mem s (q % 512))) := by
  intro d
  induction d with
  | zero =>
      intro q hentry
      have hlt : q < 512 := by simpa using hentry.lt
      have hlow : 256 ≤ q := by
        have htop : 256 ≤ q / 512 ^ 0 := hentry.top
        simpa using htop
      rw [Nat.mod_eq_of_lt hlt]
      refine .inr ⟨src, dest, rfl, rfl, fun habsent ↦ ?_, h.clone q hlow hlt⟩
      rw [h.absent q habsent]
      exact hdest.empty q hlow hlt
  | succ d ih =>
      intro q hentry
      have hdepth := hentry.depth
      rcases ih hentry.parent with ⟨hnone, hnone'⟩ | ⟨s, t, hs, ht, habsent, hclone⟩
      · left
        rw [tableOf, tableOf, hnone, hnone']
        exact ⟨rfl, rfl⟩
      · rw [tableOf, tableOf, hs, ht, Option.bind_some, Option.bind_some]
        cases hpresent : (m.mem s (q / 512 % 512)).present with
        | false =>
            left
            exact ⟨child_of_absent hpresent, child_of_absent (habsent hpresent)⟩
        | true =>
            have hlevel : 3 - d = 3 - (d + 1) + 1 := by omega
            have hclone' := hclone hpresent
            rw [hlevel] at hclone'
            obtain ⟨f, hf, hentry', hsub⟩ := hclone'
            have hchild := child_of_present hpresent
            have htable : m.tableOf src (d + 1) q = some (m.mem s (q / 512 % 512)).pointer := by
              rw [tableOf, hs, Option.bind_some, hchild]
            have hpresent' : (m'.mem t (q / 512 % 512)).present = true := by
              rw [hentry', present_setPointer, hpresent]
            have hchild' := child_of_present hpresent'
            rw [hentry', pointer_setPointer _
              (BitmapMemoryManager.lt_of_mem_freeFrames hrange hf.1)] at hchild'
            have hkept : m'.mem (m.mem s (q / 512 % 512)).pointer =
                m.mem (m.mem s (q / 512 % 512)).pointer :=
              h.takes.same (hsrc.allocated hentry htable) fun hin ↦
                hdest.apart hentry (Set.mem_singleton_iff.mp hin ▸ htable)
            refine .inr ⟨_, f, hchild, hchild', fun habsent' ↦ ?_, fun hpresent₂ ↦ ?_⟩
            · rw [(hsub (q % 512) (Nat.mod_lt _ (by decide))).1 (hkept ▸ habsent'), present_zero]
            · have hclone₂ := (hsub (q % 512) (Nat.mod_lt _ (by decide))).2 (hkept ▸ hpresent₂)
              rwa [hkept] at hclone₂

theorem Copied.clones (h : Copied 3 m m' dest src 256) (hsrc : UserTables m src)
    (hdest : EmptyUser m dest src) (hne : src ≠ dest)
    (hrange : m.memoryManager.rangeEnd ≤ kFrameCount) : Clones m m' dest src := by
  have hcases : ∀ {d q : ℕ}, Entry userHalf d q → _ := fun {d q} ↦
    h.tableOf_cases hsrc hdest hrange (d := d) (q := q)
  have hkept : ∀ {d q table}, Entry userHalf d q → m.tableOf src d q = some table →
      m'.mem table = m.mem table := by
    intro d q table hentry htable
    refine h.takes.same (hsrc.allocated hentry htable) fun hin ↦ ?_
    obtain rfl := Set.mem_singleton_iff.mp hin
    cases d with
    | zero => exact hne (Option.some.inj htable)
    | succ d => exact hdest.apart hentry htable
  -- a present entry of an upper level
  have hinner : ∀ {d q s : ℕ}, Entry userHalf d q → d < 3 → m.tableOf src d q = some s →
      (m.mem s (q % 512)).present = true → ∃ t f, m'.tableOf dest d q = some t ∧ New m m' f ∧
        m'.mem t (q % 512) = (m.mem s (q % 512)).setPointer f := by
    intro d q s hentry hd hs hpresent
    rcases hcases hentry with ⟨hnone, -⟩ | ⟨s', t, hs', ht, -, hclone⟩
    · cases hnone.symm.trans hs
    · obtain rfl := Option.some.inj (hs.symm.trans hs')
      have hlevel : 3 - d = 2 - d + 1 := by omega
      have hclone' := hclone hpresent
      rw [hlevel] at hclone'
      obtain ⟨f, hf, he, -⟩ := hclone'
      exact ⟨t, f, ht, hf, he⟩
  have hpresent_of : ∀ {d q t : ℕ}, Entry userHalf d q → m'.tableOf dest d q = some t →
      (m'.mem t (q % 512)).present = true → ∃ s, m.tableOf src d q = some s ∧
        (m.mem s (q % 512)).present = true := by
    intro d q t hentry ht hpresent
    rcases hcases hentry with ⟨-, hnone⟩ | ⟨s, t', hs, ht', habsent, -⟩
    · cases hnone.symm.trans ht
    · obtain rfl := Option.some.inj (ht.symm.trans ht')
      refine ⟨s, hs, ?_⟩
      by_contra hnot
      cases hpresent.symm.trans (habsent (by simpa using hnot))
  refine ⟨fun p hlow hhigh ↦ ?_, ?_, ?_, hkept, fun i hi ↦ h.before i hi⟩
  · have hentry : ∀ {d : ℕ}, d ≤ 3 → Entry userHalf d (p / 512 ^ (3 - d)) := by
      intro d hd
      have hpage : (EntrySet.below userHalf).Mem 3 p := by
        refine ⟨by decide, by omega, ?_⟩
        change 256 ≤ p / 512 ^ 3
        omega
      have hmem := EntrySet.ancestor hpage (show 3 - d ≤ 3 by omega)
      have hdepth : 3 - (3 - d) = d := by omega
      rw [hdepth] at hmem
      exact hmem
    have hleaf : m.leaf 4 src p = (pageEntry m src p).map fun e ↦ (0, e) := leaf_of_path
      (fun {d table} hpos hd ↦ hsrc.notHuge (hentry (by omega)) hpos hd) (le_refl 3) rfl
    have hleaf' : m'.leaf 4 dest p = (pageEntry m' dest p).map fun e ↦ (0, e) := leaf_of_path
      (fun {d table} hpos hd htable hpresent ↦ by
        obtain ⟨s, hs, hpresent'⟩ := hpresent_of (hentry (by omega)) htable hpresent
        obtain ⟨t, f, ht, -, he⟩ := hinner (hentry (by omega)) hd hs hpresent'
        obtain rfl := Option.some.inj (htable.symm.trans ht)
        rw [he, hugePage_setPointer]
        exact hsrc.notHuge (hentry (by omega)) hpos hd hs hpresent') (le_refl 3) rfl
    have hpage : pageEntry m' dest p = (pageEntry m src p).map fun e ↦ e.setFlag 1 false := by
      have hentry₃ := hentry (le_refl 3)
      rw [Nat.sub_self, pow_zero, Nat.div_one] at hentry₃
      rw [pageEntry, pageEntry]
      rcases hcases hentry₃ with ⟨hnone, hnone'⟩ | ⟨s, t, hs, ht, habsent, hclone⟩
      · rw [hnone, hnone']
        rfl
      · rw [hs, ht, Option.bind_some, Option.bind_some]
        cases hpresent : (m.mem s (p % 512)).present with
        | false => simp [habsent hpresent]
        | true =>
            have he : m'.mem t (p % 512) = (m.mem s (p % 512)).setFlag 1 false := hclone hpresent
            have hpresent' : (m'.mem t (p % 512)).present = true := by
              rw [he, present_setFlag _ (by decide) (by decide), hpresent]
            rw [he] at hpresent'
            simp only [he, hpresent', if_true, Option.map_some]
    rw [hleaf', hleaf, hpage, Option.map_map, Option.map_map]
    rfl
  · intro d q s hentry hd hs hpresent
    obtain ⟨t, f, ht, -, he⟩ := hinner hentry hd hs hpresent
    exact ⟨t, f, ht, he⟩
  · intro d q frame hentry hd hframe
    obtain ⟨t, ht, hchild⟩ := Option.bind_eq_some_iff.mp hframe
    obtain ⟨hpresent, hpointer⟩ := Mapped.child_eq_some hchild
    obtain ⟨s, hs, hpresent'⟩ := hpresent_of hentry ht hpresent
    obtain ⟨t', f, ht', hnew, he⟩ := hinner hentry hd hs hpresent'
    obtain rfl := Option.some.inj (ht.symm.trans ht')
    rw [he, pointer_setPointer _ (BitmapMemoryManager.lt_of_mem_freeFrames hrange hnew.1)]
      at hpointer
    subst hpointer
    refine ⟨hnew, fun {d' q'} hentry' htable ↦ ?_⟩
    -- the tables of the source are where they were
    have hsame : m'.tableOf src d' q' = m.tableOf src d' q' := by
      refine Tree.tableOf_of_frameAt (fun {d q} ↦ Tree.frameAt_of_same ?_) hentry'
      intro d q table hentry htable
      rw [child, hkept hentry htable, child]
    exact notMem_freeFrames_of_getBit (hsrc.allocated hentry' (hsame ▸ htable)) hnew.1

theorem copyTables_absent (copy : Machine → ℕ → ℕ → Except Error Unit × Machine) (turns : ℕ) :
    ∀ {i : ℕ}, (∀ j, i ≤ j → j < i + turns → (m.mem src j).present = false) →
      copyTables copy dest src turns i m = (.ok (), m) := by
  induction turns with
  | zero => exact fun _ ↦ rfl
  | succ turns ih =>
      intro i habsent
      rw [copyTables, if_pos (habsent i le_rfl (by omega))]
      exact ih fun j hij hj ↦ habsent j (by omega) (by omega)

theorem EmptyUser.frameAt_none (h : EmptyUser m src src) : ∀ {d q : ℕ}, Entry userHalf d q →
    m.frameAt src d q = none := by
  intro d
  induction d with
  | zero =>
      intro q hentry
      have hlt : q < 512 := by simpa using hentry.lt
      have htop : 256 ≤ q / 512 ^ 0 := hentry.top
      apply child_of_absent
      rw [Nat.mod_eq_of_lt hlt]
      exact h.empty q (by simpa using htop) hlt
  | succ d ih =>
      intro q hentry
      rw [frameAt, tableOf_succ, ih hentry.parent]
      rfl

theorem EmptyUser.clones (h : EmptyUser m src src) : Clones m m src src where
  pages := by
    intro p hlow hhigh
    rw [leaf_absent (h.empty _ (by omega) (by omega))]
    rfl
  inner := by
    intro d q table hentry _ htable hpresent
    have hnone := h.frameAt_none hentry
    rw [frameAt, htable, Option.bind_some, child_of_present hpresent] at hnone
    cases hnone
  fresh := fun hentry _ hframe ↦ by cases (h.frameAt_none hentry).symm.trans hframe
  tables := fun _ _ ↦ rfl
  lower := fun _ _ ↦ rfl

/-- A successful `CopyPageMaps` of the user half clones it read-only. -/
theorem copyPageMaps_clones (hsrc : UserTables m src) (hdest : EmptyUser m dest src)
    (hrange : m.memoryManager.rangeEnd ≤ kFrameCount)
    (hok : m.copyPageMaps 4 256 dest src = (.ok (), m')) : Clones m m' dest src := by
  by_cases hne : src = dest
  · subst hne
    have habsent : copyTables (fun m ↦ copyPageMaps 3 0 m) src src 256 256 m = (.ok (), m) :=
      copyTables_absent _ 256 fun j hlow hj ↦ hdest.empty j hlow hj
    obtain ⟨-, rfl⟩ := Prod.mk.inj (habsent.symm.trans hok)
    exact hdest.clones
  · exact (copied_copyPageMaps 3 (by decide) (hsrc.copyable hdest hne hrange) hok).clones hsrc hdest
      hne hrange

/-- One page, mapped below the PML4 in frame 1; the PML4 in frame 6 is empty. -/
def pageMachine : Machine where
  mem := fun frame i ↦
    if frame = 1 ∧ i = 256 then 0x2007#64
    else if frame = 2 ∧ i = 0 then 0x3007#64
    else if frame = 3 ∧ i = 0 then 0x4007#64
    else if frame = 4 ∧ i = 0 then 0x5007#64
    else 0#64
  memoryManager := ⟨fun _ ↦ 0xff#64, 0, 32⟩
  cr3 := 6

theorem entry_pageMachine {table i : ℕ} (hpresent : (pageMachine.mem table i).present = true) :
    1 ≤ table ∧ table ≤ 4 ∧ (pageMachine.mem table i).pointer = table + 1 ∧
      (pageMachine.mem table i).hugePage = false := by
  simp only [pageMachine] at hpresent ⊢
  split_ifs at hpresent ⊢ with h₁ h₂ h₃ h₄
  · obtain ⟨rfl, rfl⟩ := h₁
    decide
  · obtain ⟨rfl, rfl⟩ := h₂
    decide
  · obtain ⟨rfl, rfl⟩ := h₃
    decide
  · obtain ⟨rfl, rfl⟩ := h₄
    decide
  · cases hpresent

theorem tableOf_pageMachine {d q table : ℕ} (htable : pageMachine.tableOf 1 d q = some table) :
    1 ≤ table ∧ table ≤ 5 := by
  cases d with
  | zero =>
      obtain rfl := Option.some.inj htable
      decide
  | succ d =>
      obtain ⟨parent, -, hchild⟩ := Option.bind_eq_some_iff.mp htable
      obtain ⟨hpresent, rfl⟩ := Mapped.child_eq_some hchild
      obtain ⟨hlow, hhigh, hpointer, -⟩ := entry_pageMachine hpresent
      rw [hpointer]
      omega

theorem userTables_pageMachine : UserTables pageMachine 1 where
  allocated := by
    intro d q table _ htable
    obtain ⟨hlow, hhigh⟩ := tableOf_pageMachine htable
    interval_cases table <;> decide
  notHuge := fun _ _ _ _ hpresent ↦ (entry_pageMachine hpresent).2.2.2

theorem emptyUser_pageMachine : EmptyUser pageMachine 6 1 where
  allocated := by decide
  empty := fun i _ _ ↦ by simp [pageMachine]
  apart := by
    intro d q _ htable
    have hle := (tableOf_pageMachine htable).2
    omega

theorem clones_pageMachine : Clones pageMachine (pageMachine.copyPageMaps 4 256 6 1).2 6 1 := by
  have hok : (pageMachine.copyPageMaps 4 256 6 1).1 = .ok () := by decide +kernel
  generalize hcopy : pageMachine.copyPageMaps 4 256 6 1 = r at hok ⊢
  obtain ⟨result, m'⟩ := r
  obtain rfl : result = .ok () := hok
  exact copyPageMaps_clones userTables_pageMachine emptyUser_pageMachine (by decide) hcopy

end User
end Paging
end MinOS
