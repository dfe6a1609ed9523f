import MinOS.Paging.EntrySet

/-!
# Page maps as trees

Below a set of PML4 indices the tables form a tree when no two entries lead to
the same table and no page is a huge one.
-/

namespace MinOS
namespace Paging

open PageMapEntry

/-- The tables below the PML4 indices `S` form a tree of allocated frames
without huge pages; only pages may share a frame. -/
structure Tree (S : Set ℕ) (m : Machine) (root : ℕ) : Prop where
  rootAllocated : m.memoryManager.getBit root = true
  rangeEnd : m.memoryManager.rangeEnd ≤ kFrameCount
  allocated : ∀ {d q frame}, Entry S d q → m.frameAt root d q = some frame →
    m.memoryManager.getBit frame = true
  ne_root : ∀ {d q frame}, Entry S d q → m.frameAt root d q = some frame → frame ≠ root
  inj : ∀ {d q d' q' frame}, Entry S d q → Entry S d' q' → m.frameAt root d q = some frame →
    m.frameAt root d' q' = some frame → (d = d' ∧ q = q') ∨ (d = 3 ∧ d' = 3)
  notHuge : ∀ {d q table}, Entry S d q → d < 3 → m.tableOf root d q = some table →
    (m.mem table (q % 512)).hugePage = false

namespace Tree

variable {S : Set ℕ} {m : Machine} {root : ℕ}

/-- The tree of the entries below `S`. -/
theorem isTree (h : Tree S m root) : (EntrySet.below S).IsTree m root where
  rootAllocated := h.rootAllocated
  rangeEnd := h.rangeEnd
  allocated := h.allocated
  ne_root := fun hentry _ hframe ↦ h.ne_root hentry hframe
  inj := by
    intro d q d' q' frame hentry hentry' hd _ hframe hframe'
    rcases h.inj hentry hentry' hframe hframe' with hsame | ⟨hd3, -⟩
    · exact hsame
    · omega
  notHuge := fun hentry _ hd htable ↦ h.notHuge hentry hd htable

theorem tableOf_allocated (h : Tree S m root) {d q table : ℕ} (hentry : Entry S d q)
    (htable : m.tableOf root d q = some table) : m.memoryManager.getBit table = true :=
  h.isTree.tableOf_allocated (EntrySet.holds hentry) htable

theorem page_ne_table (h : Tree S m root) {d q p table frame : ℕ} (hentry : Entry S d q)
    (hpage : Entry S 3 p) (htable : m.tableOf root d q = some table)
    (hframe : m.frameAt root 3 p = some frame) : frame ≠ table := by
  rintro rfl
  cases d with
  | zero =>
      obtain rfl := Option.some.inj htable
      exact h.ne_root hpage hframe rfl
  | succ d =>
      have hdepth := hentry.depth
      rcases h.inj hentry.parent hpage htable hframe with ⟨hd, -⟩ | ⟨hd, -⟩ <;> omega

/-- A change that keeps the children of the tree's own entries. -/
theorem frameAt_of_same {m' : Machine}
    (hchild : ∀ d q table, Entry S d q → m.tableOf root d q = some table →
      m'.child table (q % 512) = m.child table (q % 512)) :
    ∀ {d q : ℕ}, Entry S d q → m'.frameAt root d q = m.frameAt root d q :=
  EntrySet.frameAt_of_same (E := EntrySet.below S) hchild

theorem tableOf_of_frameAt {m' : Machine} {d q : ℕ}
    (hframe : ∀ {d q : ℕ}, Entry S d q → m'.frameAt root d q = m.frameAt root d q)
    (hentry : Entry S d q) : m'.tableOf root d q = m.tableOf root d q := by
  cases d with
  | zero => rfl
  | succ d => exact hframe hentry.parent

theorem of_same (h : Tree S m root) {m' : Machine}
    (hmm : m'.memoryManager = m.memoryManager)
    (hchild : ∀ d q table, Entry S d q → m.tableOf root d q = some table →
      m'.child table (q % 512) = m.child table (q % 512) ∧
        (m'.mem table (q % 512)).hugePage = (m.mem table (q % 512)).hugePage) :
    Tree S m' root := by
  have hframe : ∀ {d q : ℕ}, Entry S d q → m'.frameAt root d q = m.frameAt root d q :=
    frameAt_of_same fun d q table hentry htable ↦ (hchild d q table hentry htable).1
  refine ⟨?_, ?_, ?_, ?_, ?_, ?_⟩
  · rw [hmm]
    exact h.rootAllocated
  · rw [hmm]
    exact h.rangeEnd
  · intro d q frame hentry hsome
    rw [hmm]
    exact h.allocated hentry (hframe hentry ▸ hsome)
  · intro d q frame hentry hsome
    exact h.ne_root hentry (hframe hentry ▸ hsome)
  · intro d q d' q' frame hentry hentry' hsome hsome'
    exact h.inj hentry hentry' (hframe hentry ▸ hsome) (hframe hentry' ▸ hsome')
  · intro d q table hentry hd htable
    rw [tableOf_of_frameAt hframe hentry] at htable
    rw [(hchild d q table hentry htable).2]
    exact h.notHuge hentry hd htable

end Tree

namespace Tree

variable {S : Set ℕ} {m : Machine} {root : ℕ}

theorem setFlags (h : Tree S m root) (table i : ℕ) (w : Bool) :
    Tree S (m.setFlags table i w) root :=
  h.of_same rfl fun _ _ _ _ _ ↦ ⟨m.child_setFlags .., m.hugePage_setFlags ..⟩

section Attach

variable {d q table frame : ℕ}

theorem free_ne_table (h : Tree S m root) (hfree : frame ∈ m.memoryManager.freeFrames)
    (hentry : Entry S d q) (htable : m.tableOf root d q = some table) : frame ≠ table :=
  h.isTree.free_ne_table hfree (EntrySet.holds hentry) htable

theorem frameAt_attach (h : Tree S m root) (hentry : Entry S d q)
    (htable : m.tableOf root d q = some table) (hfree : frame ∈ m.memoryManager.freeFrames)
    (habsent : m.child table (q % 512) = none) :
    ∀ {d' q' : ℕ}, Entry S d' q' → (m.attach table (q % 512) frame).frameAt root d' q' =
      if d' = d ∧ q' = q then some frame else m.frameAt root d' q' :=
  h.isTree.frameAt_attach hentry htable hfree habsent

theorem attach (h : Tree S m root) (hentry : Entry S d q)
    (htable : m.tableOf root d q = some table) (hfree : frame ∈ m.memoryManager.freeFrames)
    (habsent : m.child table (q % 512) = none) :
    Tree S (m.attach table (q % 512) frame) root := by
  have hne := h.free_ne_table hfree hentry htable
  have hframe : ∀ {d' q' : ℕ}, Entry S d' q' →
      (m.attach table (q % 512) frame).frameAt root d' q' =
        if d' = d ∧ q' = q then some frame else m.frameAt root d' q' :=
    h.frameAt_attach hentry htable hfree habsent
  have hclear : m.memoryManager.getBit frame = false :=
    (BitmapMemoryManager.mem_freeFrames.mp hfree).2
  have hbit : ∀ g, (m.attach table (q % 512) frame).memoryManager.getBit g =
      (decide (g = frame) || m.memoryManager.getBit g) := fun g ↦
    m.memoryManager.getBit_markAllocated_one frame g
  have hbusy : ∀ {d' q' g : ℕ}, Entry S d' q' → m.frameAt root d' q' = some g → g ≠ frame := by
    rintro d' q' g hentry' hsome rfl
    rw [h.allocated hentry' hsome] at hclear
    cases hclear
  have hroot : frame ≠ root := by
    rintro rfl
    rw [h.rootAllocated] at hclear
    cases hclear
  refine ⟨?_, ?_, ?_, ?_, ?_, ?_⟩
  · rw [hbit, h.rootAllocated, Bool.or_true]
  · exact h.rangeEnd
  · intro d' q' g hentry' hsome
    rw [hframe hentry'] at hsome
    rw [hbit]
    split_ifs at hsome with hhere
    · obtain rfl := Option.some.inj hsome
      simp
    · rw [h.allocated hentry' hsome, Bool.or_true]
  · intro d' q' g hentry' hsome
    rw [hframe hentry'] at hsome
    split_ifs at hsome with hhere
    · obtain rfl := Option.some.inj hsome
      exact hroot
    · exact h.ne_root hentry' hsome
  · intro d₁ q₁ d₂ q₂ g hentry₁ hentry₂ hsome₁ hsome₂
    rw [hframe hentry₁] at hsome₁
    rw [hframe hentry₂] at hsome₂
    split_ifs at hsome₁ hsome₂ with hhere₁ hhere₂ hhere₂
    · exact .inl ⟨hhere₁.1.trans hhere₂.1.symm, hhere₁.2.trans hhere₂.2.symm⟩
    · exact absurd (Option.some.inj hsome₁).symm (hbusy hentry₂ hsome₂)
    · exact absurd (Option.some.inj hsome₂).symm (hbusy hentry₁ hsome₁)
    · exact h.inj hentry₁ hentry₂ hsome₁ hsome₂
  · intro d' q' g hentry' hd htable'
    -- the table is the new one, which is empty, or was there before
    have hcases : g = frame ∨ m.tableOf root d' q' = some g := by
      cases d' with
      | zero => exact .inr htable'
      | succ d' =>
          rw [Machine.tableOf_succ, hframe hentry'.parent] at htable'
          split_ifs at htable' with hhere
          · exact .inl (Option.some.inj htable').symm
          · exact .inr htable'
    rw [Machine.mem_attach m hne]
    clear htable'
    rcases hcases with rfl | htable'
    · rw [if_neg (fun hhere ↦ hne hhere.1), if_pos rfl]
      rfl
    · have hg := h.free_ne_table hfree hentry' htable'
      rw [if_neg hg.symm]
      split_ifs with hhere
      · obtain ⟨rfl, hindex⟩ := hhere
        rw [hugePage_setFlag _ (by decide) (by decide), hugePage_setPointer, ← hindex]
        exact h.notHuge hentry' hd htable'
      · exact h.notHuge hentry' hd htable'

end Attach
end Tree
end Paging
end MinOS
