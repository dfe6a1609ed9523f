import MinOS.Paging.Setup

/-!
# Page maps that grow

What visits of entries leave of the page maps that were there before them:
entries that were not present lead to fresh frames, all others lead where they
led, and no word is written but the visited entries and the fresh frames.
-/

namespace MinOS
namespace Paging

open PageMapEntry Machine

/-- `m'` arises from `m` by visits of the entries in `W`. -/
structure Grown (E : EntrySet) (m m' : Machine) (W : Finset (ℕ × ℕ)) : Prop where
  cr3 : m'.cr3 = m.cr3
  tree : E.IsTree m' m.cr3
  allocated : ∀ {g}, m.memoryManager.getBit g = true → m'.memoryManager.getBit g = true
  free : m'.memoryManager.freeFrames ⊆ m.memoryManager.freeFrames
  kept : E.Kept m.cr3 m m'
  absent : ∀ {d q}, E.Mem d q → (d, q) ∉ W → m.frameAt m.cr3 d q = none →
    m'.frameAt m.cr3 d q = none
  fresh : ∀ {d q frame}, E.Mem d q → m.frameAt m.cr3 d q = none →
    m'.frameAt m.cr3 d q = some frame → frame ∈ m.memoryManager.freeFrames
  inj : ∀ {d q d' q' frame}, E.Mem d q → E.Mem d' q' → m.frameAt m.cr3 d q = none →
    m.frameAt m.cr3 d' q' = none → m'.frameAt m.cr3 d q = some frame →
    m'.frameAt m.cr3 d' q' = some frame → d = d' ∧ q = q'
  same : ∀ {g i}, (g ∈ m.memoryManager.freeFrames → m'.memoryManager.getBit g = false) →
    (∀ d q, (d, q) ∈ W → E.Mem d q → m'.tableOf m.cr3 d q = some g → q % 512 ≠ i) →
    m'.mem g i = m.mem g i
  zero : ∀ {g i}, g ∈ m.memoryManager.freeFrames → m'.memoryManager.getBit g = true →
    (∀ d q, (d, q) ∈ W → E.Mem d q → m'.tableOf m.cr3 d q = some g → q % 512 ≠ i) →
    m'.mem g i = 0#64

/-- The entries of `W` are present with the flags that a visit assigns. -/
def Flagged (E : EntrySet) (w : Bool) (root : ℕ) (m : Machine) (W : Finset (ℕ × ℕ)) : Prop :=
  ∀ ⦃d q : ℕ⦄, (d, q) ∈ W → E.Mem d q → ∃ table, m.tableOf root d q = some table ∧
    (m.mem table (q % 512)).present = true ∧ (m.mem table (q % 512)).user = true ∧
      (m.mem table (q % 512)).writable = if d = 3 then w else true

theorem user_flags (e : PageMapEntry) (w : Bool) :
    ((e.setFlag 2 true).setFlag 1 w).user = true := by
  rw [user, getLsbD_setFlag _ (by decide), if_neg (by decide), getLsbD_setFlag _ (by decide),
    if_pos rfl]

theorem writable_flags (e : PageMapEntry) (w : Bool) :
    ((e.setFlag 2 true).setFlag 1 w).writable = w := by
  rw [writable, getLsbD_setFlag _ (by decide), if_pos rfl]

theorem present_flags (e : PageMapEntry) (w : Bool) :
    ((e.setFlag 2 true).setFlag 1 w).present = e.present := by
  simp [present_setFlag]

theorem notMem_freeFrames_of_getBit {mm : BitmapMemoryManager} {g : ℕ} (h : mm.getBit g = true) :
    g ∉ mm.freeFrames := by
  simp [BitmapMemoryManager.mem_freeFrames, h]

theorem tableOf_setFlags (m : Machine) (table i : ℕ) (w : Bool) (root d q : ℕ) :
    (m.setFlags table i w).tableOf root d q = m.tableOf root d q :=
  tableOf_congr (fun g j ↦ m.child_setFlags table i w g j) root d q

namespace EntrySet.IsTree

variable {E : EntrySet} {m : Machine} {root d q d' q' table frame g : ℕ}

/-- A table stays where it is when a fresh frame is attached. -/
theorem tableOf_attach_kept (h : E.IsTree m root) (hmem : E.Mem d q)
    (htable : m.tableOf root d q = some table) (hfree : frame ∈ m.memoryManager.freeFrames)
    (habsent : m.child table (q % 512) = none) (hholds : E.Holds d' q')
    (htable' : m.tableOf root d' q' = some g) :
    (m.attach table (q % 512) frame).tableOf root d' q' = some g := by
  cases d' with
  | zero => exact htable'
  | succ d' =>
      rw [tableOf_succ, h.frameAt_attach hmem htable hfree habsent hholds.2, if_neg]
      · exact htable'
      · rintro ⟨rfl, rfl⟩
        have hnone : m.frameAt root d' (q' / 512) = none := by
          rw [frameAt, htable, Option.bind_some, habsent]
        cases hnone.symm.trans htable'

end EntrySet.IsTree

namespace Grown

variable {E : EntrySet} {m m' : Machine} {W : Finset (ℕ × ℕ)} {d q table frame : ℕ}

theorem refl (h : E.IsTree m m.cr3) : Grown E m m ∅ where
  cr3 := rfl
  tree := h
  allocated := id
  free := Finset.Subset.refl _
  kept := EntrySet.Kept.refl m
  absent := fun _ _ hnone ↦ hnone
  fresh := fun _ hnone hsome ↦ by cases hnone.symm.trans hsome
  inj := fun _ _ hnone _ hsome _ ↦ by cases hnone.symm.trans hsome
  same := fun _ _ ↦ rfl
  zero := fun hfree hbit _ ↦ absurd hfree (notMem_freeFrames_of_getBit hbit)

theorem getBit_attach (m : Machine) (table i frame g : ℕ) :
    (m.attach table i frame).memoryManager.getBit g =
      (decide (g = frame) || m.memoryManager.getBit g) :=
  m.memoryManager.getBit_markAllocated_one frame g

theorem attach (h : Grown E m m' W) (hmem : E.Mem d q)
    (htable : m'.tableOf m.cr3 d q = some table) (hfree : frame ∈ m'.memoryManager.freeFrames)
    (habsent : m'.child table (q % 512) = none) :
    Grown E m (m'.attach table (q % 512) frame) (insert (d, q) W) := by
  have hne := h.tree.free_ne_table hfree (EntrySet.holds hmem) htable
  have hframe : ∀ {d' q' : ℕ}, E.Mem d' q' →
      (m'.attach table (q % 512) frame).frameAt m.cr3 d' q' =
        if d' = d ∧ q' = q then some frame else m'.frameAt m.cr3 d' q' :=
    h.tree.frameAt_attach hmem htable hfree habsent
  have hhere : m'.frameAt m.cr3 d q = none := by
    rw [frameAt, htable, Option.bind_some, habsent]
  have hkept : E.Kept m.cr3 m' (m'.attach table (q % 512) frame) := by
    intro d' q' g hmem' hsome
    rw [hframe hmem', if_neg]
    · exact hsome
    · rintro ⟨rfl, rfl⟩
      cases hhere.symm.trans hsome
  have hbusy : ∀ {d' q' : ℕ}, E.Mem d' q' → m'.frameAt m.cr3 d' q' ≠ some frame := by
    intro d' q' hmem' hsome
    exact notMem_freeFrames_of_getBit (h.tree.allocated hmem' hsome) hfree
  -- the place of the entry is no longer asked about
  have hplace : ∀ {g i : ℕ}, (∀ d' q', (d', q') ∈ insert (d, q) W → E.Mem d' q' →
      (m'.attach table (q % 512) frame).tableOf m.cr3 d' q' = some g → q' % 512 ≠ i) →
      ¬ (g = table ∧ i = q % 512) ∧
        ∀ d' q', (d', q') ∈ W → E.Mem d' q' → m'.tableOf m.cr3 d' q' = some g → q' % 512 ≠ i := by
    intro g i hW
    refine ⟨?_, fun d' q' hin hmem' htable' ↦ hW d' q' (Finset.mem_insert_of_mem hin) hmem'
      (h.tree.tableOf_attach_kept hmem htable hfree habsent (EntrySet.holds hmem') htable')⟩
    rintro ⟨rfl, rfl⟩
    exact hW d q (Finset.mem_insert_self _ _) hmem
      (h.tree.tableOf_attach_kept hmem htable hfree habsent (EntrySet.holds hmem) htable) rfl
  refine ⟨h.cr3, h.tree.attach hmem htable hfree habsent, ?_, ?_, h.kept.trans hkept, ?_, ?_, ?_,
    ?_, ?_⟩
  · intro g hg
    simp [getBit_attach, h.allocated hg]
  · refine Finset.Subset.trans ?_ h.free
    change (m'.memoryManager.markAllocated frame 1).freeFrames ⊆ _
    rw [BitmapMemoryManager.freeFrames_markAllocated_one]
    exact Finset.erase_subset _ _
  · intro d' q' hmem' hnot hnone
    rw [Finset.mem_insert, Prod.mk.injEq, not_or] at hnot
    rw [hframe hmem', if_neg hnot.1]
    exact h.absent hmem' hnot.2 hnone
  · intro d' q' g hmem' hnone hsome
    rw [hframe hmem'] at hsome
    split_ifs at hsome with heq
    · exact Option.some.inj hsome ▸ h.free hfree
    · exact h.fresh hmem' hnone hsome
  · intro d₁ q₁ d₂ q₂ g hmem₁ hmem₂ hnone₁ hnone₂ hsome₁ hsome₂
    rw [hframe hmem₁] at hsome₁
    rw [hframe hmem₂] at hsome₂
    split_ifs at hsome₁ hsome₂ with heq₁ heq₂ heq₂
    · exact ⟨heq₁.1.trans heq₂.1.symm, heq₁.2.trans heq₂.2.symm⟩
    · exact absurd (hsome₂.trans hsome₁.symm) (hbusy hmem₂)
    · exact absurd (hsome₁.trans hsome₂.symm) (hbusy hmem₁)
    · exact h.inj hmem₁ hmem₂ hnone₁ hnone₂ hsome₁ hsome₂
  · intro g i hold hW
    obtain ⟨hnot, hW'⟩ := hplace hW
    have hg : g ≠ frame := by
      rintro rfl
      have hbit := hold (h.free hfree)
      simp [getBit_attach] at hbit
    rw [mem_attach m' hne, if_neg hnot, if_neg hg]
    refine h.same (fun hgfree ↦ ?_) hW'
    have hbit := hold hgfree
    simpa [getBit_attach, hg] using hbit
  · intro g i hgfree hbit hW
    obtain ⟨hnot, hW'⟩ := hplace hW
    rw [mem_attach m' hne, if_neg hnot]
    split_ifs with hg
    · rfl
    · exact h.zero hgfree (by simpa [getBit_attach, hg] using hbit) hW'

theorem setFlags (h : Grown E m m' W) (hmem : E.Mem d q)
    (htable : m'.tableOf m.cr3 d q = some table) (w : Bool) :
    Grown E m (m'.setFlags table (q % 512) w) (insert (d, q) W) := by
  have hplace : ∀ {g i : ℕ}, (∀ d' q', (d', q') ∈ insert (d, q) W → E.Mem d' q' →
      (m'.setFlags table (q % 512) w).tableOf m.cr3 d' q' = some g → q' % 512 ≠ i) →
      (m'.setFlags table (q % 512) w).mem g i = m'.mem g i ∧
        ∀ d' q', (d', q') ∈ W → E.Mem d' q' → m'.tableOf m.cr3 d' q' = some g → q' % 512 ≠ i := by
    intro g i hW
    simp only [tableOf_setFlags] at hW
    refine ⟨?_, fun d' q' hin hmem' htable' ↦
      hW d' q' (Finset.mem_insert_of_mem hin) hmem' htable'⟩
    rw [mem_setFlags, if_neg]
    rintro ⟨rfl, rfl⟩
    exact hW d q (Finset.mem_insert_self _ _) hmem htable rfl
  refine ⟨h.cr3, h.tree.setFlags _ _ _, h.allocated, h.free, ?_, ?_, ?_, ?_, ?_, ?_⟩
  · intro d' q' g hmem' hsome
    rw [frameAt_setFlags]
    exact h.kept hmem' hsome
  · intro d' q' hmem' hnot hnone
    rw [frameAt_setFlags]
    exact h.absent hmem' (fun hin ↦ hnot (Finset.mem_insert_of_mem hin)) hnone
  · intro d' q' g hmem' hnone hsome
    rw [frameAt_setFlags] at hsome
    exact h.fresh hmem' hnone hsome
  · intro d₁ q₁ d₂ q₂ g hmem₁ hmem₂ hnone₁ hnone₂ hsome₁ hsome₂
    rw [frameAt_setFlags] at hsome₁ hsome₂
    exact h.inj hmem₁ hmem₂ hnone₁ hnone₂ hsome₁ hsome₂
  · intro g i hold hW
    obtain ⟨hsame, hW'⟩ := hplace hW
    exact hsame.trans (h.same hold hW')
  · intro g i hfree hbit hW
    obtain ⟨hsame, hW'⟩ := hplace hW
    exact hsame.trans (h.zero hfree hbit hW')

end Grown

namespace Flagged

variable {E : EntrySet} {m m' : Machine} {W : Finset (ℕ × ℕ)} {root d q table frame : ℕ} {w : Bool}

theorem attach (h : Flagged E w root m W) (htree : E.IsTree m root) (hmem : E.Mem d q)
    (htable : m.tableOf root d q = some table) (hfree : frame ∈ m.memoryManager.freeFrames)
    (habsent : m.child table (q % 512) = none) :
    Flagged E w root (m.attach table (q % 512) frame) W := by
  intro d' q' hin hmem'
  obtain ⟨g, hg, hpresent, huser, hwritable⟩ := h hin hmem'
  have hgne := htree.free_ne_table hfree (EntrySet.holds hmem') hg
  have hsame : (m.attach table (q % 512) frame).mem g (q' % 512) = m.mem g (q' % 512) := by
    rw [mem_attach m (htree.free_ne_table hfree (EntrySet.holds hmem) htable), if_neg,
      if_neg hgne.symm]
    rintro ⟨rfl, hindex⟩
    rw [← hindex, child_of_present hpresent] at habsent
    cases habsent
  refine ⟨g, htree.tableOf_attach_kept hmem htable hfree habsent (EntrySet.holds hmem') hg, ?_⟩
  rw [hsame]
  exact ⟨hpresent, huser, hwritable⟩

theorem setFlags (h : Flagged E w root m W) (htree : E.IsTree m root) (hmem : E.Mem d q)
    (htable : m.tableOf root d q = some table) (hframe : m.frameAt root d q = some frame) :
    Flagged E w root (m.setFlags table (q % 512) (if d = 3 then w else true))
      (insert (d, q) W) := by
  intro d' q' hin hmem'
  rcases Finset.mem_insert.mp hin with heq | hin
  · obtain ⟨rfl, rfl⟩ := Prod.mk.inj heq
    refine ⟨table, (tableOf_setFlags ..).trans htable, ?_⟩
    rw [mem_setFlags, if_pos ⟨rfl, rfl⟩, present_flags]
    refine ⟨?_, user_flags _ _, writable_flags _ _⟩
    have hchild := (frameAt_eq_some htable).mp hframe
    rw [child] at hchild
    split_ifs at hchild with hpresent
    exact hpresent
  · obtain ⟨g, hg, hentry⟩ := h hin hmem'
    refine ⟨g, (tableOf_setFlags ..).trans hg, ?_⟩
    by_cases hhere : g = table ∧ q' % 512 = q % 512
    · obtain ⟨rfl, hindex⟩ := hhere
      obtain ⟨rfl, rfl⟩ := htree.entry_unique (EntrySet.holds hmem') (EntrySet.holds hmem) hg htable
        hindex
      rw [mem_setFlags, if_pos ⟨rfl, rfl⟩, present_flags]
      exact ⟨hentry.1, user_flags _ _, writable_flags _ _⟩
    · rw [mem_setFlags, if_neg hhere]
      exact hentry

end Flagged

theorem Grown.visitKeeps (E : EntrySet) (m : Machine) (w : Bool) :
    E.VisitKeeps m.cr3 w fun m' W ↦ Grown E m m' W ∧ Flagged E w m.cr3 m' W := by
  rintro m₁ m₂ W d q table frame ⟨hgrown, hflagged⟩ hmem htable hset
  rcases visit_cases htable hset with ⟨hframe, rfl⟩ | ⟨hfree, habsent, rfl⟩
  · exact ⟨hgrown.setFlags hmem htable _, hflagged.setFlags hgrown.tree hmem htable hframe⟩
  · have hgrown' := hgrown.attach hmem htable hfree habsent
    have htable' := hgrown.tree.tableOf_attach_kept hmem htable hfree habsent
      (EntrySet.holds hmem) htable
    have hframe' : (m₁.attach table (q % 512) frame).frameAt m.cr3 d q = some frame := by
      simp [hgrown.tree.frameAt_attach hmem htable hfree habsent hmem]
    have hset' := hgrown'.setFlags hmem htable' (if d = 3 then w else true)
    rw [Finset.insert_idem] at hset'
    exact ⟨hset', (hflagged.attach hgrown.tree hmem htable hfree habsent).setFlags hgrown'.tree hmem
      htable' hframe'⟩

end Paging
end MinOS
