import MinOS.Paging.Machine

/-!
# Sets of page map entries

An entry of the page maps is named by its depth and by the indices on the way to
it, read as a number in base 512: the entry of depth `d` above page `p` is
`p / 512 ^ (3 - d)`.  A set of entries that goes up to the PML4 forms a tree when
no two of them lead to the same table; outside of it the page maps may hold
anything, huge pages too.
-/

namespace MinOS

namespace BitmapMemoryManager

/-- The frames that `Allocate` can still return. -/
def freeFrames (m : BitmapMemoryManager) : Finset ℕ :=
  (Finset.Ico m.rangeBegin m.rangeEnd).filter fun frame ↦ m.getBit frame = false

theorem mem_freeFrames {m : BitmapMemoryManager} {frame : ℕ} :
    frame ∈ m.freeFrames ↔
      (m.rangeBegin ≤ frame ∧ frame < m.rangeEnd) ∧ m.getBit frame = false := by
  simp [freeFrames]

/-- A frame number fits the pointer of an entry. -/
theorem lt_of_mem_freeFrames {m : BitmapMemoryManager} (hrange : m.rangeEnd ≤ kFrameCount)
    {frame : ℕ} (hfree : frame ∈ m.freeFrames) : frame < 2 ^ 40 := by
  have hlt := (mem_freeFrames.mp hfree).1.2
  have hcount : kFrameCount ≤ 2 ^ 40 := by decide
  omega

@[simp] theorem markAllocated_rangeBegin (m : BitmapMemoryManager) (s n : ℕ) :
    (m.markAllocated s n).rangeBegin = m.rangeBegin := m.setBits_rangeBegin s true n

@[simp] theorem markAllocated_rangeEnd (m : BitmapMemoryManager) (s n : ℕ) :
    (m.markAllocated s n).rangeEnd = m.rangeEnd := m.setBits_rangeEnd s true n

theorem getBit_markAllocated_one (m : BitmapMemoryManager) (s frame : ℕ) :
    (m.markAllocated s 1).getBit frame = (decide (frame = s) || m.getBit frame) := by
  rw [getBit_markAllocated]
  congr 2
  exact propext ⟨fun h ↦ by omega, fun h ↦ by omega⟩

theorem freeFrames_markAllocated_one (m : BitmapMemoryManager) (s : ℕ) :
    (m.markAllocated s 1).freeFrames = m.freeFrames.erase s := by
  ext frame
  simp only [mem_freeFrames, Finset.mem_erase, markAllocated_rangeBegin, markAllocated_rangeEnd,
    getBit_markAllocated_one, Bool.or_eq_false_iff, decide_eq_false_iff_not]
  tauto

/-- One frame at a time: a free one, which is then marked, or there is none. -/
theorem allocate_one_cases (m : BitmapMemoryManager) :
    (∃ frame ∈ m.freeFrames, m.allocate 1 = (.ok frame, m.markAllocated frame 1)) ∨
      (m.freeFrames = ∅ ∧ m.allocate 1 = (.error .kNoEnoughMemory, m)) := by
  have hfit := m.allocate_firstFit (le_refl 1)
  rcases halloc : m.allocate 1 with ⟨result, m'⟩
  rw [halloc] at hfit
  cases result with
  | ok frame =>
      obtain ⟨⟨hbegin, hend, hclear⟩, -, rfl⟩ := hfit
      exact .inl ⟨frame, mem_freeFrames.mpr
        ⟨⟨hbegin, hend⟩, hclear frame le_rfl (Nat.lt_succ_self frame)⟩, rfl⟩
  | error e =>
      obtain ⟨rfl, hnone, rfl⟩ := hfit
      refine .inr ⟨?_, rfl⟩
      apply Finset.eq_empty_of_forall_notMem
      intro frame hframe
      obtain ⟨⟨hbegin, hend⟩, hclear⟩ := mem_freeFrames.mp hframe
      refine hnone frame ⟨hbegin, hend, ?_⟩
      intro other hlower hupper
      obtain rfl : other = frame := by omega
      exact hclear

end BitmapMemoryManager

namespace Paging

open PageMapEntry

namespace Machine

/-- The frame behind a present entry. -/
def child (m : Machine) (table i : ℕ) : Option ℕ :=
  if (m.mem table i).present then some (m.mem table i).pointer else none

/-- The table that holds an entry. -/
def tableOf (m : Machine) (root : ℕ) : ℕ → ℕ → Option ℕ
  | 0, _ => some root
  | d + 1, q => (m.tableOf root d (q / 512)).bind fun table ↦ m.child table (q / 512 % 512)

/-- The frame behind an entry: the next table, or a page's frame at depth three. -/
def frameAt (m : Machine) (root d q : ℕ) : Option ℕ :=
  (m.tableOf root d q).bind fun table ↦ m.child table (q % 512)

theorem tableOf_succ (m : Machine) (root d q : ℕ) :
    m.tableOf root (d + 1) q = m.frameAt root d (q / 512) := rfl

theorem tableOf_congr {m m' : Machine} (h : ∀ table i, m'.child table i = m.child table i)
    (root d q : ℕ) : m'.tableOf root d q = m.tableOf root d q := by
  induction d generalizing q with
  | zero => rfl
  | succ d ih => simp only [tableOf, ih, h]

theorem frameAt_congr {m m' : Machine} (h : ∀ table i, m'.child table i = m.child table i)
    (root d q : ℕ) : m'.frameAt root d q = m.frameAt root d q := by
  simp only [frameAt, tableOf_congr h, h]

theorem frameAt_eq_some {m : Machine} {root d q table frame : ℕ}
    (htable : m.tableOf root d q = some table) :
    m.frameAt root d q = some frame ↔ m.child table (q % 512) = some frame := by
  rw [frameAt, htable, Option.bind_some]

theorem child_of_present {m : Machine} {table i : ℕ} (h : (m.mem table i).present = true) :
    m.child table i = some (m.mem table i).pointer := by
  rw [child, if_pos h]

theorem child_of_absent {m : Machine} {table i : ℕ} (h : (m.mem table i).present = false) :
    m.child table i = none := by
  rw [child, h]
  rfl

end Machine

/-- The entries below the PML4 indices `S`. -/
structure Entry (S : Set ℕ) (d q : ℕ) : Prop where
  depth : d < 4
  lt : q < 512 ^ (d + 1)
  top : q / 512 ^ d ∈ S

theorem Entry.parent {S : Set ℕ} {d q : ℕ} (h : Entry S (d + 1) q) : Entry S d (q / 512) where
  depth := (Nat.lt_succ_self d).trans h.depth
  lt := by
    rw [Nat.div_lt_iff_lt_mul (by decide), ← Nat.pow_succ]
    exact h.lt
  top := by
    rw [Nat.div_div_eq_div_mul, ← Nat.pow_succ']
    exact h.top

/-! ## The steps of `SetupPageMap` -/

namespace Machine

/-- A fresh frame behind an entry that was not present. -/
def attach (m : Machine) (table i frame : ℕ) : Machine where
  mem := Function.update (Function.update m.mem frame fun _ ↦ 0#64) table
    (Function.update (Function.update m.mem frame (fun _ ↦ 0#64) table) i
      (((Function.update m.mem frame (fun _ ↦ 0#64) table i).setPointer frame).setFlag 0 true))
  memoryManager := m.memoryManager.markAllocated frame 1
  cr3 := m.cr3

theorem setNewPageMapIfNotPresent_cases (m : Machine) (table i : ℕ) :
    (∃ frame, m.child table i = some frame ∧
        m.setNewPageMapIfNotPresent table i = (.ok frame, m)) ∨
      (m.child table i = none ∧ m.memoryManager.freeFrames = ∅ ∧
        m.setNewPageMapIfNotPresent table i = (.error .kNoEnoughMemory, m)) ∨
      ∃ frame ∈ m.memoryManager.freeFrames, m.child table i = none ∧
        m.setNewPageMapIfNotPresent table i = (.ok frame, m.attach table i frame) := by
  cases hpresent : (m.mem table i).present with
  | true =>
      refine .inl ⟨_, child_of_present hpresent, ?_⟩
      rw [setNewPageMapIfNotPresent, if_pos hpresent]
  | false =>
      have hchild := child_of_absent hpresent
      rcases m.memoryManager.allocate_one_cases with ⟨frame, hfree, halloc⟩ | ⟨hempty, halloc⟩
      · refine .inr (.inr ⟨frame, hfree, hchild, ?_⟩)
        simp [setNewPageMapIfNotPresent, hpresent, newPageMap, halloc, setEntry, attach]
      · refine .inr (.inl ⟨hchild, hempty, ?_⟩)
        simp [setNewPageMapIfNotPresent, hpresent, newPageMap, halloc]

theorem mem_setEntry (m : Machine) (table i g j : ℕ) (e : PageMapEntry) :
    (m.setEntry table i e).mem g j = if g = table ∧ j = i then e else m.mem g j := by
  simp only [setEntry, Function.update_apply]
  split_ifs <;> grind

theorem mem_attach (m : Machine) {table frame : ℕ} (hne : frame ≠ table) (i g j : ℕ) :
    (m.attach table i frame).mem g j =
      if g = table ∧ j = i then ((m.mem table i).setPointer frame).setFlag 0 true
      else if g = frame then 0#64 else m.mem g j := by
  simp only [attach, Function.update_apply]
  grind

theorem child_attach (m : Machine) {table frame : ℕ} (hne : frame ≠ table)
    (hlt : frame < 2 ^ 40) (i g j : ℕ) :
    (m.attach table i frame).child g j =
      if g = table ∧ j = i then some frame else if g = frame then none else m.child g j := by
  rw [child, mem_attach m hne]
  by_cases hhere : g = table ∧ j = i
  · rw [if_pos hhere, if_pos hhere, if_pos (present_setFlag_zero _),
      pointer_setFlag _ (by decide), pointer_setPointer _ hlt]
  · rw [if_neg hhere, if_neg hhere]
    by_cases hg : g = frame
    · rw [if_pos hg, if_pos hg, present_zero]
      rfl
    · rw [if_neg hg, if_neg hg, child]

theorem mem_setFlags (m : Machine) (table i : ℕ) (w : Bool) (g j : ℕ) :
    (m.setFlags table i w).mem g j =
      if g = table ∧ j = i then ((m.mem table i).setFlag 2 true).setFlag 1 w else m.mem g j :=
  m.mem_setEntry table i g j _

/-- The flags that are assigned afterwards change no child and no page size. -/
theorem child_setFlags (m : Machine) (table i : ℕ) (w : Bool) (g j : ℕ) :
    (m.setFlags table i w).child g j = m.child g j := by
  rw [child, mem_setFlags]
  split_ifs with hhere hpresent hpresent
  all_goals rw [child]
  · obtain ⟨rfl, rfl⟩ := hhere
    rw [present_setFlag _ (by decide) (by decide), present_setFlag _ (by decide) (by decide)]
      at hpresent
    rw [if_pos hpresent, pointer_setFlag _ (by decide), pointer_setFlag _ (by decide)]
  · obtain ⟨rfl, rfl⟩ := hhere
    rw [present_setFlag _ (by decide) (by decide), present_setFlag _ (by decide) (by decide)]
      at hpresent
    rw [if_neg hpresent]
  · rw [if_pos (by assumption)]
  · rw [if_neg (by assumption)]

theorem hugePage_setFlags (m : Machine) (table i : ℕ) (w : Bool) (g j : ℕ) :
    ((m.setFlags table i w).mem g j).hugePage = (m.mem g j).hugePage := by
  rw [mem_setFlags]
  split_ifs with hhere
  · obtain ⟨rfl, rfl⟩ := hhere
    rw [hugePage_setFlag _ (by decide) (by decide), hugePage_setFlag _ (by decide) (by decide)]
  · rfl

end Machine

open Machine

/-- A set of entries that contains the entries above its own. -/
structure EntrySet where
  Mem : ℕ → ℕ → Prop
  entry : ∀ {d q : ℕ}, Mem d q → Entry Set.univ d q
  parent : ∀ {d q : ℕ}, Mem (d + 1) q → Mem d (q / 512)

namespace EntrySet

variable {E : EntrySet} {m m' : Machine} {root d q d' q' table frame : ℕ}

/-- The entries below PML4 indices. -/
def below (S : Set ℕ) : EntrySet where
  Mem := Entry S
  entry h := ⟨h.depth, h.lt, trivial⟩
  parent := Entry.parent

/-- The entries that the tables behind the set hold. -/
def Holds (E : EntrySet) : ℕ → ℕ → Prop
  | 0, q => q < 512
  | d + 1, q => d + 1 < 4 ∧ E.Mem d (q / 512)

theorem holds (h : E.Mem d q) : E.Holds d q := by
  cases d with
  | zero => simpa [Holds] using (E.entry h).lt
  | succ d => exact ⟨(E.entry h).depth, E.parent h⟩

theorem ancestor (h : E.Mem d q) {k : ℕ} (hk : k ≤ d) : E.Mem (d - k) (q / 512 ^ k) := by
  induction k with
  | zero => simpa using h
  | succ k ih =>
      have hdepth : d - k = d - (k + 1) + 1 := by omega
      have hmem := ih (Nat.le_of_succ_le hk)
      rw [hdepth] at hmem
      simpa [Nat.div_div_eq_div_mul, ← Nat.pow_succ] using E.parent hmem

theorem frameAt_of_same
    (hchild : ∀ d q table, E.Mem d q → m.tableOf root d q = some table →
      m'.child table (q % 512) = m.child table (q % 512)) :
    ∀ {d q : ℕ}, E.Mem d q → m'.frameAt root d q = m.frameAt root d q := by
  intro d
  induction d with
  | zero => exact fun {q} hmem ↦ hchild 0 q root hmem rfl
  | succ d ih =>
      intro q hmem
      have htable : m'.tableOf root (d + 1) q = m.tableOf root (d + 1) q := ih (E.parent hmem)
      rw [frameAt, frameAt, htable]
      cases hold : m.tableOf root (d + 1) q with
      | none => rfl
      | some table => exact hchild (d + 1) q table hmem hold

/-- The tables of the set form a tree of allocated frames without huge pages, and
the frames behind its pages are allocated. -/
structure IsTree (E : EntrySet) (m : Machine) (root : ℕ) : Prop where
  rootAllocated : m.memoryManager.getBit root = true
  rangeEnd : m.memoryManager.rangeEnd ≤ kFrameCount
  allocated : ∀ {d q frame}, E.Mem d q → m.frameAt root d q = some frame →
    m.memoryManager.getBit frame = true
  ne_root : ∀ {d q frame}, E.Mem d q → d < 3 → m.frameAt root d q = some frame → frame ≠ root
  inj : ∀ {d q d' q' frame}, E.Mem d q → E.Mem d' q' → d < 3 → d' < 3 →
    m.frameAt root d q = some frame → m.frameAt root d' q' = some frame → d = d' ∧ q = q'
  notHuge : ∀ {d q table}, E.Mem d q → 0 < d → d < 3 → m.tableOf root d q = some table →
    (m.mem table (q % 512)).hugePage = false

namespace IsTree

theorem tableOf_allocated (h : E.IsTree m root) (hholds : E.Holds d q)
    (htable : m.tableOf root d q = some table) : m.memoryManager.getBit table = true := by
  cases d with
  | zero =>
      obtain rfl := Option.some.inj htable
      exact h.rootAllocated
  | succ d => exact h.allocated hholds.2 htable

/-- An entry is stored at one place. -/
theorem entry_unique (h : E.IsTree m root) (hholds : E.Holds d q) (hholds' : E.Holds d' q')
    (htable : m.tableOf root d q = some table) (htable' : m.tableOf root d' q' = some table)
    (hindex : q % 512 = q' % 512) : d = d' ∧ q = q' := by
  cases d with
  | zero =>
      obtain rfl := Option.some.inj htable
      cases d' with
      | zero =>
          have hlt : q < 512 := hholds
          have hlt' : q' < 512 := hholds'
          exact ⟨rfl, by omega⟩
      | succ d' =>
          have hdepth' := hholds'.1
          exact absurd rfl (h.ne_root hholds'.2 (by omega) htable')
  | succ d =>
      have hdepth := hholds.1
      cases d' with
      | zero =>
          obtain rfl := Option.some.inj htable'
          exact absurd rfl (h.ne_root hholds.2 (by omega) htable)
      | succ d' =>
          have hdepth' := hholds'.1
          obtain ⟨rfl, hq⟩ := h.inj hholds.2 hholds'.2 (by omega) (by omega) htable htable'
          exact ⟨rfl, by omega⟩

/-- A change that keeps the children and the page size bits of the set's entries
keeps the tree. -/
theorem of_same (h : E.IsTree m root) (hmm : m'.memoryManager = m.memoryManager)
    (hchild : ∀ d q table, E.Mem d q → m.tableOf root d q = some table →
      m'.child table (q % 512) = m.child table (q % 512) ∧
        (m'.mem table (q % 512)).hugePage = (m.mem table (q % 512)).hugePage) :
    E.IsTree m' root := by
  have hframe : ∀ {d q : ℕ}, E.Mem d q → m'.frameAt root d q = m.frameAt root d q :=
    frameAt_of_same fun d q table hmem htable ↦ (hchild d q table hmem htable).1
  refine ⟨by simpa [hmm] using h.rootAllocated, by simpa [hmm] using h.rangeEnd, ?_, ?_, ?_, ?_⟩
  · intro d q frame hmem hsome
    simpa [hmm] using h.allocated hmem (hframe hmem ▸ hsome)
  · intro d q frame hmem hd hsome
    exact h.ne_root hmem hd (hframe hmem ▸ hsome)
  · intro d q d' q' frame hmem hmem' hd hd' hsome hsome'
    exact h.inj hmem hmem' hd hd' (hframe hmem ▸ hsome) (hframe hmem' ▸ hsome')
  · intro d q table hmem hpos hd htable
    have htable' : m.tableOf root d q = some table := by
      cases d with
      | zero => exact htable
      | succ d => exact (hframe (E.parent hmem)).symm.trans htable
    exact (hchild d q table hmem htable').2.trans (h.notHuge hmem hpos hd htable')

theorem setFlags (h : E.IsTree m root) (table i : ℕ) (w : Bool) :
    E.IsTree (m.setFlags table i w) root :=
  h.of_same rfl fun _ _ _ _ _ ↦ ⟨m.child_setFlags .., m.hugePage_setFlags ..⟩

/-! ### A fresh frame -/

theorem free_ne_table (h : E.IsTree m root) (hfree : frame ∈ m.memoryManager.freeFrames)
    (hholds : E.Holds d q) (htable : m.tableOf root d q = some table) : frame ≠ table := by
  rintro rfl
  have hbusy := h.tableOf_allocated hholds htable
  rw [(BitmapMemoryManager.mem_freeFrames.mp hfree).2] at hbusy
  exact Bool.false_ne_true hbusy

theorem free_lt (h : E.IsTree m root) (hfree : frame ∈ m.memoryManager.freeFrames) :
    frame < 2 ^ 40 :=
  BitmapMemoryManager.lt_of_mem_freeFrames h.rangeEnd hfree

/-- A fresh frame is attached at one entry and at no other. -/
theorem frameAt_attach (h : E.IsTree m root) (hmem : E.Mem d q)
    (htable : m.tableOf root d q = some table) (hfree : frame ∈ m.memoryManager.freeFrames)
    (habsent : m.child table (q % 512) = none) :
    ∀ {d' q' : ℕ}, E.Mem d' q' → (m.attach table (q % 512) frame).frameAt root d' q' =
      if d' = d ∧ q' = q then some frame else m.frameAt root d' q' := by
  have hne := h.free_ne_table hfree (holds hmem) htable
  have hlt := h.free_lt hfree
  -- an entry whose table was there before
  have hold : ∀ {d' q' g : ℕ}, E.Mem d' q' → m.tableOf root d' q' = some g →
      (m.attach table (q % 512) frame).child g (q' % 512) =
        if d' = d ∧ q' = q then some frame else m.frameAt root d' q' := by
    intro d' q' g hmem' htable'
    have hg : g ≠ frame := (h.free_ne_table hfree (holds hmem') htable').symm
    rw [child_attach m hne hlt, if_neg hg, frameAt, htable', Option.bind_some]
    by_cases hhere : d' = d ∧ q' = q
    · obtain ⟨rfl, rfl⟩ := hhere
      obtain rfl := Option.some.inj (htable.symm.trans htable')
      simp
    · rw [if_neg hhere, if_neg]
      rintro ⟨rfl, hindex⟩
      exact hhere (h.entry_unique (holds hmem') (holds hmem) htable' htable hindex)
  intro d'
  induction d' with
  | zero => exact fun {q'} hmem' ↦ hold hmem' rfl
  | succ d' ih =>
      intro q' hmem'
      have hparent : (m.attach table (q % 512) frame).tableOf root (d' + 1) q' = _ :=
        ih (E.parent hmem')
      rw [frameAt, hparent]
      by_cases hnew : d' = d ∧ q' / 512 = q
      · -- the new table is empty, and was not there before
        obtain ⟨rfl, rfl⟩ := hnew
        have hnone : m.tableOf root (d' + 1) q' = none := by
          rw [tableOf_succ, frameAt, htable, Option.bind_some, habsent]
        rw [if_pos ⟨rfl, rfl⟩, Option.bind_some, child_attach m hne hlt,
          if_neg (fun hhere ↦ hne hhere.1), if_pos rfl, if_neg (by omega), frameAt, hnone]
        rfl
      · rw [if_neg hnew]
        cases hold' : m.frameAt root d' (q' / 512) with
        | none =>
            have hnone : m.tableOf root (d' + 1) q' = none := hold'
            have hother : ¬ (d' + 1 = d ∧ q' = q) := by
              rintro ⟨rfl, rfl⟩
              cases htable.symm.trans hnone
            rw [if_neg hother, frameAt, hnone]
            rfl
        | some g => exact hold hmem' hold'

/-- The tables that are there after a fresh frame was attached. -/
theorem tableOf_attach (h : E.IsTree m root) (hmem : E.Mem d q)
    (htable : m.tableOf root d q = some table) (hfree : frame ∈ m.memoryManager.freeFrames)
    (habsent : m.child table (q % 512) = none) (hholds : E.Holds d' q') {g : ℕ}
    (htable' : (m.attach table (q % 512) frame).tableOf root d' q' = some g) :
    (d' = d + 1 ∧ q' / 512 = q ∧ g = frame) ∨ m.tableOf root d' q' = some g := by
  cases d' with
  | zero => exact .inr htable'
  | succ d' =>
      rw [tableOf_succ, h.frameAt_attach hmem htable hfree habsent hholds.2] at htable'
      split_ifs at htable' with hhere
      · exact .inl ⟨by rw [hhere.1], hhere.2, (Option.some.inj htable').symm⟩
      · exact .inr htable'

theorem attach (h : E.IsTree m root) (hmem : E.Mem d q)
    (htable : m.tableOf root d q = some table) (hfree : frame ∈ m.memoryManager.freeFrames)
    (habsent : m.child table (q % 512) = none) :
    E.IsTree (m.attach table (q % 512) frame) root := by
  have hne := h.free_ne_table hfree (holds hmem) htable
  have hframe : ∀ {d' q' : ℕ}, E.Mem d' q' →
      (m.attach table (q % 512) frame).frameAt root d' q' =
        if d' = d ∧ q' = q then some frame else m.frameAt root d' q' :=
    h.frameAt_attach hmem htable hfree habsent
  have hclear : m.memoryManager.getBit frame = false :=
    (BitmapMemoryManager.mem_freeFrames.mp hfree).2
  have hbit : ∀ g, (m.attach table (q % 512) frame).memoryManager.getBit g =
      (decide (g = frame) || m.memoryManager.getBit g) := fun g ↦
    m.memoryManager.getBit_markAllocated_one frame g
  have hbusy : ∀ {d' q' : ℕ}, E.Mem d' q' → m.frameAt root d' q' ≠ some frame := by
    intro d' q' hmem' hsome
    cases hclear.symm.trans (h.allocated hmem' hsome)
  have hroot : frame ≠ root := by
    rintro rfl
    cases hclear.symm.trans h.rootAllocated
  refine ⟨by simp [hbit, h.rootAllocated], h.rangeEnd, ?_, ?_, ?_, ?_⟩
  · intro d' q' g hmem' hsome
    rw [hframe hmem'] at hsome
    split_ifs at hsome with hhere
    · simp [hbit, ← Option.some.inj hsome]
    · simp [hbit, h.allocated hmem' hsome]
  · intro d' q' g hmem' hd hsome
    rw [hframe hmem'] at hsome
    split_ifs at hsome with hhere
    · exact Option.some.inj hsome ▸ hroot
    · exact h.ne_root hmem' hd hsome
  · intro d₁ q₁ d₂ q₂ g hmem₁ hmem₂ hd₁ hd₂ hsome₁ hsome₂
    rw [hframe hmem₁] at hsome₁
    rw [hframe hmem₂] at hsome₂
    split_ifs at hsome₁ hsome₂ with hhere₁ hhere₂ hhere₂
    · exact ⟨hhere₁.1.trans hhere₂.1.symm, hhere₁.2.trans hhere₂.2.symm⟩
    · exact absurd (hsome₂.trans hsome₁.symm) (hbusy hmem₂)
    · exact absurd (hsome₁.trans hsome₂.symm) (hbusy hmem₁)
    · exact h.inj hmem₁ hmem₂ hd₁ hd₂ hsome₁ hsome₂
  · intro d' q' g hmem' hpos hd htable'
    rw [mem_attach m hne]
    rcases h.tableOf_attach hmem htable hfree habsent (holds hmem') htable' with
      ⟨-, -, rfl⟩ | hkept
    · rw [if_neg (fun hhere ↦ hne hhere.1), if_pos rfl]
      rfl
    · rw [if_neg (h.free_ne_table hfree (holds hmem') hkept).symm]
      split_ifs with hhere
      · obtain ⟨rfl, hindex⟩ := hhere
        rw [hugePage_setFlag _ (by decide) (by decide), hugePage_setPointer, ← hindex]
        exact h.notHuge hmem' hpos hd hkept
      · exact h.notHuge hmem' hpos hd hkept

end IsTree
end EntrySet
end Paging
end MinOS
