import MinOS.Paging.Grown
import MinOS.Paging.Mapped

/-!
# The pages that `SetupPageMaps` maps

The page maps may hold huge pages, as those of the kernel do, as long as none of
them lies on the way to a page of the range.  Such a call maps the pages of the
range and changes the translation of no other page.
-/

namespace MinOS
namespace Paging

open PageMapEntry Machine

namespace Machine

/-- The entry that ends the processor's walk to a page, with the level of its
table counted from zero. -/
def leaf (m : Machine) : ℕ → ℕ → ℕ → Option (ℕ × PageMapEntry)
  | 0, _, _ => none
  | level + 1, table, p =>
      let e := m.mem table (p / 512 ^ level % 512)
      if e.present = false then none
      else if level = 0 ∨ level < 3 ∧ e.hugePage then some (level, e)
      else m.leaf level e.pointer p

theorem leaf_absent {m : Machine} {level table p : ℕ}
    (h : (m.mem table (p / 512 ^ level % 512)).present = false) :
    m.leaf (level + 1) table p = none := by
  simp [leaf, h]

/-- A present entry of an upper level leads down unless it is a huge page. -/
theorem leaf_down {m : Machine} {level table p : ℕ}
    (h : (m.mem table (p / 512 ^ level % 512)).present = true) (hpos : level ≠ 0)
    (hhuge : level < 3 → (m.mem table (p / 512 ^ level % 512)).hugePage = false) :
    m.leaf (level + 1) table p = m.leaf level (m.mem table (p / 512 ^ level % 512)).pointer p := by
  have hstay : ¬ (level < 3 ∧ (m.mem table (p / 512 ^ level % 512)).hugePage = true) := by
    rintro ⟨hlt, hset⟩
    simp [hhuge hlt] at hset
  simp [leaf, h, hpos, hstay]

/-- The translation of a page, with its flags. -/
def page (m : Machine) (p : ℕ) : Option (ℕ × PageMapEntry) := m.leaf 4 m.cr3 p

/-- The address that the processor finds is behind the entry. -/
theorem walk_eq_leaf (m : Machine) {addr : LinearAddress4Level} (haddr : addr.Valid) (table : ℕ)
    {level : ℕ} (hlevel : level ≤ 4) :
    m.walk level table addr = (m.leaf level table addr.pageNumber).map fun x ↦
      x.2.pointer * 4096 + addr.value % (4096 * 512 ^ x.1) := by
  induction level generalizing table with
  | zero => rfl
  | succ level ih =>
      have hpart := haddr.part_eq hlevel
      simp only [walk, leaf, hpart]
      split_ifs
      · rfl
      · rfl
      · exact ih _ (Nat.le_of_succ_le hlevel)

/-- The entries that are none of a huge page and have none on the way to them. -/
def Small (m : Machine) (root : ℕ) : ℕ → ℕ → Prop
  | 0, q => q < 512
  | d + 1, q => m.Small root d (q / 512) ∧ d + 1 < 4 ∧ (d + 1 < 3 → ∀ table,
      m.tableOf root (d + 1) q = some table → (m.mem table (q % 512)).hugePage = false)

theorem Small.entry {m : Machine} {root : ℕ} {d q : ℕ} (h : m.Small root d q) :
    Entry Set.univ d q := by
  induction d generalizing q with
  | zero => exact ⟨by decide, by simpa [Small] using h, trivial⟩
  | succ d ih =>
      obtain ⟨hparent, hdepth, -⟩ := h
      refine ⟨hdepth, ?_, trivial⟩
      have hlt := (ih hparent).lt
      rw [Nat.pow_succ]
      omega

/-- The part of the page maps without huge pages. -/
def smallEntries (m : Machine) (root : ℕ) : EntrySet where
  Mem := m.Small root
  entry := Small.entry
  parent := And.left

theorem small_of_holds {m : Machine} {root d q : ℕ} (h : (m.smallEntries root).Holds d q)
    (hhuge : 0 < d → d < 3 → ∀ table, m.tableOf root d q = some table →
      (m.mem table (q % 512)).hugePage = false) : m.Small root d q := by
  cases d with
  | zero => exact h
  | succ d => exact ⟨h.2, h.1, hhuge (Nat.succ_pos d)⟩

theorem small_of_clear {m : Machine} {root L q table : ℕ}
    (h : (m.smallEntries root).Holds (3 - L) q) (htable : m.tableOf root (3 - L) q = some table)
    (hclear : L < 3 → (m.mem table (q % 512)).hugePage = false) : m.Small root (3 - L) q := by
  apply small_of_holds h
  intro hpos _ g hg
  obtain rfl := Option.some.inj (htable.symm.trans hg)
  exact hclear (by omega)

end Machine

/-- Up to huge pages the tables form a tree; they are allocated, and so are the
frames behind the other pages. -/
structure PageTree (m : Machine) : Prop where
  rootAllocated : m.memoryManager.getBit m.cr3 = true
  rangeEnd : m.memoryManager.rangeEnd ≤ kFrameCount
  allocated : ∀ {d q frame}, m.Small m.cr3 d q → m.frameAt m.cr3 d q = some frame →
    m.memoryManager.getBit frame = true
  ne_root : ∀ {d q frame}, m.Small m.cr3 d q → d < 3 → m.frameAt m.cr3 d q = some frame →
    frame ≠ m.cr3
  inj : ∀ {d q d' q' frame}, m.Small m.cr3 d q → m.Small m.cr3 d' q' → d < 3 → d' < 3 →
    m.frameAt m.cr3 d q = some frame → m.frameAt m.cr3 d' q' = some frame → d = d' ∧ q = q'

theorem PageTree.isTree {m : Machine} (h : PageTree m) : (m.smallEntries m.cr3).IsTree m m.cr3 where
  rootAllocated := h.rootAllocated
  rangeEnd := h.rangeEnd
  allocated := h.allocated
  ne_root := h.ne_root
  inj := h.inj
  notHuge := by
    intro d q table hsmall hpos hd htable
    cases d with
    | zero => omega
    | succ d => exact hsmall.2.2 hd table htable

/-- What a call of `SetupPageMaps` for the `n` pages from `p` on has to do. -/
structure MapsRange (m m' : Machine) (p n : ℕ) (w : Bool) : Prop where
  mapped : ∀ q, p ≤ q → q < p + n →
    ∃ e, m'.page q = some (0, e) ∧ e.user = true ∧ e.writable = w
  kept : ∀ q l e e', p ≤ q → q < p + n → m.page q = some (l, e) → m'.page q = some (0, e') →
    e'.pointer = e.pointer
  fresh : ∀ q e, p ≤ q → q < p + n → m.page q = none → m'.page q = some (0, e) →
    e.pointer ∈ m.memoryManager.freeFrames ∧ m'.memoryManager.getBit e.pointer = true ∧
      ∀ i, m'.mem e.pointer i = 0#64
  distinct : ∀ q q' e e', (p ≤ q ∧ q < p + n) → (p ≤ q' ∧ q' < p + n) → m.page q = none →
    m.page q' = none → m'.page q = some (0, e) → m'.page q' = some (0, e') →
    e.pointer = e'.pointer → q = q'
  others : ∀ q, q < 512 ^ 4 → ¬ (p ≤ q ∧ q < p + n) → m'.page q = m.page q
  path : ∀ q d, p ≤ q → q < p + n → d < 3 → ∃ table,
    m'.tableOf m'.cr3 d (q / 512 ^ (3 - d)) = some table ∧
      (m'.mem table (q / 512 ^ (3 - d) % 512)).present = true ∧
      (m'.mem table (q / 512 ^ (3 - d) % 512)).user = true ∧
      (m'.mem table (q / 512 ^ (3 - d) % 512)).writable = true

/-! ## Translations through a tree -/

section Leaf

variable {E : EntrySet} {m m' : Machine} {root p : ℕ}

theorem tableOf_below_none {L : ℕ} (hL : L ≤ 3)
    (hnone : m.tableOf root (3 - L) (p / 512 ^ L) = none) : m.tableOf root 3 p = none := by
  induction L with
  | zero => simpa using hnone
  | succ L ih =>
      apply ih (Nat.le_of_succ_le hL)
      have hdepth : 3 - L = 3 - (L + 1) + 1 := by omega
      rw [hdepth, tableOf, Nat.div_div_eq_div_mul, ← Nat.pow_succ, hnone]
      rfl

/-- The entry of a page in the last table. -/
def pageEntry (m : Machine) (root p : ℕ) : Option PageMapEntry :=
  (m.tableOf root 3 p).bind fun table ↦
    if (m.mem table (p % 512)).present then some (m.mem table (p % 512)) else none

theorem frameAt_eq_pageEntry (m : Machine) (root p : ℕ) :
    m.frameAt root 3 p = (pageEntry m root p).map pointer := by
  rw [frameAt, pageEntry]
  cases m.tableOf root 3 p with
  | none => rfl
  | some table =>
      simp only [Option.bind_some, child]
      split_ifs <;> rfl

theorem parent_eq {L : ℕ} (hL : L < 3) :
    3 - L = 3 - (L + 1) + 1 ∧ p / 512 ^ L / 512 = p / 512 ^ (L + 1) :=
  ⟨by omega, by rw [Nat.div_div_eq_div_mul, ← Nat.pow_succ]⟩

/-- The table below an entry. -/
theorem tableOf_below {L table : ℕ} (hL : L < 3)
    (htable : m.tableOf root (3 - (L + 1)) (p / 512 ^ (L + 1)) = some table) :
    m.tableOf root (3 - L) (p / 512 ^ L) = m.child table (p / 512 ^ (L + 1) % 512) := by
  have hdepth : 3 - L = 3 - (L + 1) + 1 := by omega
  rw [hdepth, tableOf, Nat.div_div_eq_div_mul, ← Nat.pow_succ, htable, Option.bind_some]

theorem leaf_of_path (hclear : ∀ {d table}, 0 < d → d < 3 →
      m.tableOf root d (p / 512 ^ (3 - d)) = some table →
      (m.mem table (p / 512 ^ (3 - d) % 512)).present = true →
      (m.mem table (p / 512 ^ (3 - d) % 512)).hugePage = false) :
    ∀ {L table : ℕ}, L ≤ 3 → m.tableOf root (3 - L) (p / 512 ^ L) = some table →
      m.leaf (L + 1) table p = (pageEntry m root p).map fun e ↦ (0, e) := by
  intro L
  induction L with
  | zero =>
      intro table _ htable
      have htable' : m.tableOf root 3 p = some table := by simpa using htable
      rw [pageEntry, htable', Option.bind_some]
      cases hpresent : (m.mem table (p % 512)).present <;> simp [leaf, hpresent]
  | succ L ih =>
      intro table hL htable
      have hbelow := tableOf_below hL htable
      cases hpresent : (m.mem table (p / 512 ^ (L + 1) % 512)).present with
      | false =>
          rw [child_of_absent hpresent] at hbelow
          rw [pageEntry, tableOf_below_none (Nat.le_of_succ_le hL) hbelow, leaf_absent hpresent]
          rfl
      | true =>
          have hlevel : 3 - (3 - (L + 1)) = L + 1 := by omega
          have hhuge : L + 1 < 3 → (m.mem table (p / 512 ^ (L + 1) % 512)).hugePage = false := by
            intro hlt
            have hclear' := @hclear (3 - (L + 1)) table (by omega) (by omega)
            rw [hlevel] at hclear'
            exact hclear' htable hpresent
          rw [child_of_present hpresent] at hbelow
          rw [leaf_down hpresent (Nat.succ_ne_zero L) hhuge]
          exact ih (Nat.le_of_succ_le hL) hbelow

theorem leaf_of_mem (h : E.IsTree m root) (hmem : E.Mem 3 p) :
    m.leaf 4 root p = (pageEntry m root p).map fun e ↦ (0, e) := by
  refine leaf_of_path (fun {d table} hpos hd htable _ ↦ ?_) (le_refl 3) rfl
  have hmem' := EntrySet.ancestor hmem (show 3 - d ≤ 3 by omega)
  have hdepth : 3 - (3 - d) = d := by omega
  rw [hdepth] at hmem'
  exact h.notHuge hmem' hpos hd htable

theorem page_of_mem (h : E.IsTree m m.cr3) (hmem : E.Mem 3 p) :
    m.page p = (pageEntry m m.cr3 p).map fun e ↦ (0, e) :=
  leaf_of_mem h hmem

end Leaf

/-! ## The other pages -/

namespace Grown

variable {m m' : Machine} {W : Finset (ℕ × ℕ)} {w : Bool} {p : ℕ}

theorem mem_unvisited {E : EntrySet} (h : Grown E m m' W) (hE : E.IsTree m m.cr3)
    {d q table : ℕ} (hholds : E.Holds d q)
    (htable : m.tableOf m.cr3 d q = some table) (htable' : m'.tableOf m.cr3 d q = some table)
    (hnot : (d, q) ∉ W) : m'.mem table (q % 512) = m.mem table (q % 512) := by
  apply h.same
  · intro hfree
    exact absurd hfree (notMem_freeFrames_of_getBit (hE.tableOf_allocated hholds htable))
  · intro d' q' hin hmem hg hindex
    obtain ⟨rfl, rfl⟩ := h.tree.entry_unique (EntrySet.holds hmem) hholds hg htable' hindex
    exact hnot hin

section Tables

variable (h : Grown (m.smallEntries m.cr3) m m' W)

include h

/-- A table of the grown page maps was one before, or is fresh. -/
theorem tableOf_cases {d q table : ℕ} (hholds : (m.smallEntries m.cr3).Holds d q)
    (htable : m'.tableOf m.cr3 d q = some table) :
    m.tableOf m.cr3 d q = some table ∨
      m.tableOf m.cr3 d q = none ∧ table ∈ m.memoryManager.freeFrames := by
  cases d with
  | zero => exact .inl htable
  | succ d =>
      cases hold : m.frameAt m.cr3 d (q / 512) with
      | none => exact .inr ⟨hold, h.fresh hholds.2 hold htable⟩
      | some g => exact .inl (hold.trans ((h.kept hholds.2 hold).symm.trans htable))

theorem table_ne_page {p f d q table : ℕ} (hp : (m.smallEntries m.cr3).Mem 3 p)
    (hnone : m.frameAt m.cr3 3 p = none) (hf : m'.frameAt m.cr3 3 p = some f)
    (hholds : (m.smallEntries m.cr3).Holds d q) (htable : m'.tableOf m.cr3 d q = some table)
    (htree : PageTree m) : table ≠ f := by
  rintro rfl
  have hfree := h.fresh hp hnone hf
  rcases h.tableOf_cases hholds htable with hold | ⟨hold, -⟩
  · exact notMem_freeFrames_of_getBit (htree.isTree.tableOf_allocated hholds hold) hfree
  · cases d with
    | zero => cases hold
    | succ d =>
        obtain ⟨hd, -⟩ := h.inj hp hholds.2 hnone hold hf htable
        have hdepth := hholds.1
        omega

end Tables

section Small

variable (h : Grown (m.smallEntries m.cr3) m m' W) (hm : PageTree m)
  (hflag : Flagged (m.smallEntries m.cr3) w m.cr3 m' W)
  (hW : ∀ d q, (d, q) ∈ W → m.Small m.cr3 d q)

include h

theorem leaf_unvisited {L table : ℕ}
    (htable : m'.tableOf m.cr3 (3 - L) (p / 512 ^ L) = some table)
    (hmem : m.Small m.cr3 (3 - L) (p / 512 ^ L))
    (hnone : m.frameAt m.cr3 (3 - L) (p / 512 ^ L) = none) (hnot : (3 - L, p / 512 ^ L) ∉ W) :
    m'.leaf (L + 1) table p = none := by
  have habsent := h.absent (d := 3 - L) (q := p / 512 ^ L) hmem hnot hnone
  rw [frameAt, htable, Option.bind_some, child] at habsent
  apply leaf_absent
  by_contra hpresent
  rw [if_pos (by simpa using hpresent)] at habsent
  cases habsent

include hflag hW

theorem leaf_visited {L table : ℕ} (hL : L < 3)
    (htable : m'.tableOf m.cr3 (3 - (L + 1)) (p / 512 ^ (L + 1)) = some table)
    (hin : (3 - (L + 1), p / 512 ^ (L + 1)) ∈ W) :
    ∃ frame, m'.frameAt m.cr3 (3 - (L + 1)) (p / 512 ^ (L + 1)) = some frame ∧
      m'.tableOf m.cr3 (3 - L) (p / 512 ^ L) = some frame ∧
      m'.leaf (L + 1 + 1) table p = m'.leaf (L + 1) frame p := by
  have hmem := hW _ _ hin
  obtain ⟨g, hg, hpresent, -⟩ := hflag hin hmem
  obtain rfl := Option.some.inj (htable.symm.trans hg)
  have hchild := child_of_present hpresent
  refine ⟨_, (frameAt_eq_some htable).mpr hchild, (tableOf_below hL htable).trans hchild, ?_⟩
  exact leaf_down hpresent (Nat.succ_ne_zero L) fun _ ↦
    h.tree.notHuge hmem (by omega) (by omega) htable

theorem leaf_new (hp : (3, p) ∉ W) : ∀ {L table : ℕ}, L ≤ 3 →
    (m.smallEntries m.cr3).Holds (3 - L) (p / 512 ^ L) →
    m.tableOf m.cr3 (3 - L) (p / 512 ^ L) = none →
    m'.tableOf m.cr3 (3 - L) (p / 512 ^ L) = some table → m'.leaf (L + 1) table p = none := by
  intro L
  induction L with
  | zero =>
      intro table _ hholds hnone htable
      have hmem := small_of_holds hholds fun _ _ g hg ↦ by cases hnone.symm.trans hg
      have hframe : m.frameAt m.cr3 (3 - 0) (p / 512 ^ 0) = none := Option.bind_eq_none_iff.mpr
        fun g hg ↦ by cases hnone.symm.trans hg
      exact leaf_unvisited h htable hmem hframe (by simpa using hp)
  | succ L ih =>
      intro table hL hholds hnone htable
      have hmem := small_of_holds hholds fun _ _ g hg ↦ by cases hnone.symm.trans hg
      have hframe : m.frameAt m.cr3 (3 - (L + 1)) (p / 512 ^ (L + 1)) = none :=
        Option.bind_eq_none_iff.mpr fun g hg ↦ by cases hnone.symm.trans hg
      by_cases hin : (3 - (L + 1), p / 512 ^ (L + 1)) ∈ W
      · obtain ⟨g, -, hg, hleaf⟩ := leaf_visited h hflag hW hL htable hin
        obtain ⟨hdepth, hquot⟩ := parent_eq (p := p) hL
        rw [hleaf]
        refine ih (Nat.le_of_succ_le hL) ?_ ?_ hg
        · rw [hdepth]
          exact ⟨by omega, by rwa [hquot]⟩
        · rwa [hdepth, tableOf_succ, hquot]
      · exact leaf_unvisited h htable hmem hframe hin

include hm

theorem leaf_other (hp : (3, p) ∉ W) : ∀ {L table : ℕ}, L ≤ 3 →
    (m.smallEntries m.cr3).Holds (3 - L) (p / 512 ^ L) →
    m.tableOf m.cr3 (3 - L) (p / 512 ^ L) = some table →
    m'.tableOf m.cr3 (3 - L) (p / 512 ^ L) = some table →
    m'.leaf (L + 1) table p = m.leaf (L + 1) table p := by
  intro L
  induction L with
  | zero =>
      intro table _ hholds htable htable'
      have hsame := h.mem_unvisited hm.isTree hholds htable htable' (by simpa using hp)
      simp only [pow_zero, Nat.div_one] at hsame
      simp [leaf, hsame]
  | succ L ih =>
      intro table hL hholds htable htable'
      obtain ⟨hdepth, hquot⟩ := parent_eq (p := p) hL
      have hbelow := tableOf_below hL htable
      by_cases hin : (3 - (L + 1), p / 512 ^ (L + 1)) ∈ W
      · have hmem := hW _ _ hin
        have hholds' : (m.smallEntries m.cr3).Holds (3 - L) (p / 512 ^ L) := by
          rw [hdepth]
          exact ⟨by omega, by rwa [hquot]⟩
        obtain ⟨g, hframe, hg, hleaf⟩ := leaf_visited h hflag hW hL htable' hin
        rw [hleaf]
        cases hpresent : (m.mem table (p / 512 ^ (L + 1) % 512)).present with
        | false =>
            rw [child_of_absent hpresent] at hbelow
            rw [leaf_new h hflag hW hp (Nat.le_of_succ_le hL) hholds' hbelow hg,
              leaf_absent hpresent]
        | true =>
            have hchild := child_of_present hpresent
            have hkept := h.kept hmem ((frameAt_eq_some htable).mpr hchild)
            obtain rfl := Option.some.inj (hkept.symm.trans hframe)
            rw [ih (Nat.le_of_succ_le hL) hholds' (hbelow.trans hchild) hg,
              leaf_down hpresent (Nat.succ_ne_zero L) fun _ ↦
                hm.isTree.notHuge hmem (by omega) (by omega) htable]
      · have hsame := h.mem_unvisited hm.isTree hholds htable htable' hin
        have hbelow' := tableOf_below hL htable'
        cases hpresent : (m.mem table (p / 512 ^ (L + 1) % 512)).present with
        | false => rw [leaf_absent hpresent, leaf_absent (hsame ▸ hpresent)]
        | true =>
            by_cases hhuge : L + 1 < 3 ∧ (m.mem table (p / 512 ^ (L + 1) % 512)).hugePage = true
            · simp [leaf, hsame, hpresent, hhuge]
            · have hclear : L + 1 < 3 →
                  (m.mem table (p / 512 ^ (L + 1) % 512)).hugePage = false := by
                intro hlt
                simpa [hlt] using hhuge
              have hmem : m.Small m.cr3 (3 - (L + 1)) (p / 512 ^ (L + 1)) :=
                small_of_clear hholds htable hclear
              have hchild := child_of_present hpresent
              have hchild' : m'.child table (p / 512 ^ (L + 1) % 512) =
                  some (m.mem table (p / 512 ^ (L + 1) % 512)).pointer := by
                rw [child, hsame, if_pos hpresent]
              rw [leaf_down hpresent (Nat.succ_ne_zero L) hclear,
                leaf_down (hsame ▸ hpresent) (Nat.succ_ne_zero L) (hsame ▸ hclear), hsame]
              refine ih (Nat.le_of_succ_le hL) ?_ (hbelow.trans hchild) (hbelow'.trans hchild')
              rw [hdepth]
              exact ⟨by omega, by rwa [hquot]⟩

theorem page_other (hp : (3, p) ∉ W) (hlt : p < 512 ^ 4) : m'.page p = m.page p := by
  rw [page, page, h.cr3]
  refine leaf_other h hm hflag hW hp (le_refl 3) ?_ rfl rfl
  change p / 512 ^ 3 < 512
  omega

end Small
end Grown
/-! ## The range -/

section Range

variable {m : Machine} {addr : LinearAddress4Level} {n : ℕ} {w : Bool}

theorem small_of_mem_entriesFrom {a b : ℕ} (hpath : ∀ q, a ≤ q → q < b → m.Small m.cr3 3 q)
    {d q : ℕ} (hin : (d, q) ∈ entriesFrom 0 a b) : m.Small m.cr3 d q := by
  obtain ⟨⟨-, hdepth⟩, p, ⟨hlow, hhigh⟩, hq⟩ := mem_entriesFrom.mp hin
  have hpage : (m.smallEntries m.cr3).Mem 3 p := hpath p hlow hhigh
  have hsmall := EntrySet.ancestor hpage (show 3 - d ≤ 3 by omega)
  have hd : 3 - (3 - d) = d := by
    have hlt : d < 4 := hdepth
    omega
  have hq' : p / 512 ^ (3 - d) = q := hq
  rw [hd, hq'] at hsmall
  exact hsmall

/-- A call that succeeds has visited the entries above the pages of the range, and
no page remains. -/
theorem setupPageMaps_grown (hm : PageTree m) (haddr : addr.Valid)
    (hend : addr.pageNumber + n ≤ 512 ^ 4)
    (hpath : ∀ q, addr.pageNumber ≤ q → q < addr.pageNumber + n → m.Small m.cr3 3 q) {r : ℕ}
    (hok : (m.setupPageMaps addr n w).result = .ok r) :
    r = 0 ∧ Grown (m.smallEntries m.cr3) m (m.setupPageMaps addr n w).machine
        (entriesFrom 0 addr.pageNumber (addr.pageNumber + n)) ∧
      Flagged (m.smallEntries m.cr3) w m.cr3 (m.setupPageMaps addr n w).machine
        (entriesFrom 0 addr.pageNumber (addr.pageNumber + n)) := by
  have hwalk := (m.smallEntries m.cr3).setupPageMaps_walked (w := w) (V := ∅)
    (Grown.visitKeeps (m.smallEntries m.cr3) m w) (fun _ _ hP ↦ hP.1.tree)
    ⟨.refl hm.isTree, fun _ _ hin ↦ absurd hin (Finset.notMem_empty _)⟩ haddr
    fun q hlow hhigh _ ↦ hpath q hlow hhigh
  obtain ⟨hr, hP⟩ := hwalk.ok r hok
  rw [Finset.empty_union, Nat.min_eq_left hend] at hP
  exact ⟨by omega, hP⟩

variable {m' : Machine} {a b : ℕ}

theorem frameAt_of_page (hm : PageTree m) {q l : ℕ} {e : PageMapEntry}
    (hsmall : (m.smallEntries m.cr3).Mem 3 q) (hpage : m.page q = some (l, e)) :
    m.frameAt m.cr3 3 q = some e.pointer := by
  rw [page_of_mem hm.isTree hsmall] at hpage
  obtain ⟨e', he, heq⟩ := Option.map_eq_some_iff.mp hpage
  obtain ⟨-, rfl⟩ := Prod.mk.inj heq
  rw [frameAt_eq_pageEntry, he]
  rfl

theorem frameAt_of_page_none (hm : PageTree m) {q : ℕ}
    (hsmall : (m.smallEntries m.cr3).Mem 3 q) (hpage : m.page q = none) : m.frameAt m.cr3 3 q = none := by
  rw [page_of_mem hm.isTree hsmall, Option.map_eq_none_iff] at hpage
  rw [frameAt_eq_pageEntry, hpage]
  rfl

namespace Grown

variable (h : Grown (m.smallEntries m.cr3) m m' (entriesFrom 0 a b))
  (hflag : Flagged (m.smallEntries m.cr3) w m.cr3 m' (entriesFrom 0 a b)) (hm : PageTree m)
  (hpath : ∀ q, a ≤ q → q < b → m.Small m.cr3 3 q)

include h

theorem page_eq {q : ℕ} (hsmall : (m.smallEntries m.cr3).Mem 3 q) :
    m'.page q = (pageEntry m' m.cr3 q).map fun e ↦ (0, e) := by
  rw [page, h.cr3]
  exact leaf_of_mem h.tree hsmall

theorem frameAt_of_page {q l : ℕ} {e : PageMapEntry} (hsmall : (m.smallEntries m.cr3).Mem 3 q)
    (hpage : m'.page q = some (l, e)) : m'.frameAt m.cr3 3 q = some e.pointer := by
  rw [h.page_eq hsmall] at hpage
  obtain ⟨e', he, heq⟩ := Option.map_eq_some_iff.mp hpage
  obtain ⟨-, rfl⟩ := Prod.mk.inj heq
  rw [frameAt_eq_pageEntry, he]
  rfl

include hflag hpath

theorem page_mapped {q : ℕ} (hlow : a ≤ q) (hhigh : q < b) :
    ∃ e, m'.page q = some (0, e) ∧ e.user = true ∧ e.writable = w := by
  have hin : (3, q) ∈ entriesFrom 0 a b :=
    mem_entriesFrom.mpr ⟨⟨Nat.zero_le 3, Nat.lt_succ_self 3⟩, q, ⟨hlow, hhigh⟩, by simp⟩
  have hsmall : (m.smallEntries m.cr3).Mem 3 q := hpath q hlow hhigh
  obtain ⟨table, htable, hpresent, huser, hwritable⟩ := hflag hin hsmall
  refine ⟨_, ?_, huser, by simpa using hwritable⟩
  rw [h.page_eq hsmall, pageEntry, htable, Option.bind_some, if_pos hpresent]
  rfl

theorem path_mapped {q d : ℕ} (hlow : a ≤ q) (hhigh : q < b) (hd : d < 3) : ∃ table,
    m'.tableOf m'.cr3 d (q / 512 ^ (3 - d)) = some table ∧
      (m'.mem table (q / 512 ^ (3 - d) % 512)).present = true ∧
      (m'.mem table (q / 512 ^ (3 - d) % 512)).user = true ∧
      (m'.mem table (q / 512 ^ (3 - d) % 512)).writable = true := by
  have hin : (d, q / 512 ^ (3 - d)) ∈ entriesFrom 0 a b :=
    mem_entriesFrom.mpr ⟨⟨Nat.zero_le d, by omega⟩, q, ⟨hlow, hhigh⟩, rfl⟩
  obtain ⟨table, htable, hpresent, huser, hwritable⟩ :=
    hflag hin (small_of_mem_entriesFrom hpath hin)
  exact ⟨table, h.cr3 ▸ htable, hpresent, huser, by simpa [Nat.ne_of_lt hd] using hwritable⟩

end Grown

/-- A successful call maps exactly the pages of its range. -/
theorem setupPageMaps_mapsRange (hm : PageTree m) (haddr : addr.Valid)
    (hend : addr.pageNumber + n ≤ 2 ^ 36)
    (hpath : ∀ q, addr.pageNumber ≤ q → q < addr.pageNumber + n → m.Small m.cr3 3 q) {r : ℕ}
    (hok : (m.setupPageMaps addr n w).result = .ok r) :
    MapsRange m (m.setupPageMaps addr n w).machine addr.pageNumber n w := by
  obtain ⟨-, hgrown, hflag⟩ := setupPageMaps_grown hm haddr hend hpath hok
  have hW : ∀ d q, (d, q) ∈ entriesFrom 0 addr.pageNumber (addr.pageNumber + n) →
      m.Small m.cr3 d q := fun d q hin ↦ small_of_mem_entriesFrom hpath hin
  refine ⟨?_, ?_, ?_, ?_, ?_, ?_⟩
  · exact fun q hlow hhigh ↦ hgrown.page_mapped hflag hpath hlow hhigh
  · intro q l e e' hlow hhigh hpage hpage'
    have hsmall : (m.smallEntries m.cr3).Mem 3 q := hpath q hlow hhigh
    have hkept := hgrown.kept hsmall (frameAt_of_page hm hsmall hpage)
    exact Option.some.inj ((hgrown.frameAt_of_page hsmall hpage').symm.trans hkept)
  · intro q e hlow hhigh hpage hpage'
    have hsmall : (m.smallEntries m.cr3).Mem 3 q := hpath q hlow hhigh
    have hframe := hgrown.frameAt_of_page hsmall hpage'
    have hfree := hgrown.fresh hsmall (frameAt_of_page_none hm hsmall hpage) hframe
    have hbit := hgrown.tree.allocated hsmall hframe
    refine ⟨hfree, hbit, fun i ↦ hgrown.zero hfree hbit ?_⟩
    -- the frame of a page is no table of the range
    intro d k hin hmem htable
    exact absurd rfl (hgrown.table_ne_page hsmall (frameAt_of_page_none hm hsmall hpage) hframe
      (EntrySet.holds hmem) htable hm)
  · intro q q' e e' hq hq' hpage hpage' hnew hnew' hpointer
    have hsmall : (m.smallEntries m.cr3).Mem 3 q := hpath q hq.1 hq.2
    have hsmall' : (m.smallEntries m.cr3).Mem 3 q' := hpath q' hq'.1 hq'.2
    exact (hgrown.inj hsmall hsmall' (frameAt_of_page_none hm hsmall hpage)
      (frameAt_of_page_none hm hsmall' hpage') (hgrown.frameAt_of_page hsmall hnew)
      (hpointer ▸ hgrown.frameAt_of_page hsmall' hnew')).2
  · intro q hlt hout
    refine hgrown.page_other hm hflag hW ?_ hlt
    intro hin
    obtain ⟨-, p, hp, hq⟩ := mem_entriesFrom.mp hin
    have hpq : p = q := by simpa using hq
    exact hout (hpq ▸ hp)
  · exact fun q d hlow hhigh hd ↦ hgrown.path_mapped hflag hpath hlow hhigh hd

/-- An identity mapping by pages of one gigabyte in frames 1 and 2, and 24 free frames. -/
def gigaMachine : Machine where
  mem := fun frame i ↦
    if frame = 1 ∧ i = 0 then 0x2003#64
    else if frame = 2 then BitVec.ofNat 64 (i * 0x40000000) ||| 0x83#64
    else 0#64
  memoryManager := ⟨fun _ ↦ 0xff#64, 0, 32⟩
  cr3 := 1

theorem hugePage_gigaMachine (i : ℕ) : (gigaMachine.mem 2 i).hugePage = true := by
  change (BitVec.ofNat 64 (i * 0x40000000) ||| 0x83#64).getLsbD 7 = true
  rw [BitVec.getLsbD_or]
  simp

theorem frameAt_gigaMachine {d q frame : ℕ} (hsmall : gigaMachine.Small 1 d q)
    (hframe : gigaMachine.frameAt 1 d q = some frame) : d = 0 ∧ q = 0 ∧ frame = 2 := by
  induction d generalizing q frame with
  | zero =>
      have hlt : q < 512 := hsmall
      change gigaMachine.child 1 (q % 512) = some frame at hframe
      rw [Nat.mod_eq_of_lt hlt] at hframe
      obtain ⟨hpresent, hpointer⟩ := Mapped.child_eq_some hframe
      by_cases hq : q = 0
      · subst hq
        exact ⟨rfl, rfl, hpointer.symm⟩
      · have hzero : gigaMachine.mem 1 q = 0#64 := by simp [gigaMachine, hq]
        rw [hzero] at hpresent
        cases hpresent
  | succ d ih =>
      obtain ⟨table, htable, -⟩ := Option.bind_eq_some_iff.mp hframe
      obtain ⟨rfl, -, rfl⟩ := ih hsmall.1 htable
      have hclear := hsmall.2.2 (by decide) 2 htable
      rw [hugePage_gigaMachine] at hclear
      cases hclear

theorem pageTree_gigaMachine : PageTree gigaMachine where
  rootAllocated := by decide
  rangeEnd := by decide
  allocated := by
    intro d q frame hsmall hframe
    obtain ⟨-, -, rfl⟩ := frameAt_gigaMachine hsmall hframe
    decide
  ne_root := by
    intro d q frame hsmall _ hframe
    obtain ⟨-, -, rfl⟩ := frameAt_gigaMachine hsmall hframe
    decide
  inj := by
    intro d q d' q' frame hsmall hsmall' _ _ hframe hframe'
    obtain ⟨rfl, rfl, -⟩ := frameAt_gigaMachine hsmall hframe
    obtain ⟨rfl, rfl, -⟩ := frameAt_gigaMachine hsmall' hframe'
    exact ⟨rfl, rfl⟩

/-- Nothing is mapped outside of the first PML4 entry. -/
theorem small_gigaMachine {d k : ℕ} (hd : d < 4) (hk : k / 512 ^ d ≠ 0) (hlt : k < 512 ^ (d + 1)) :
    gigaMachine.Small 1 d k ∧ gigaMachine.frameAt 1 d k = none := by
  induction d generalizing k with
  | zero =>
      have hlt' : k < 512 := by simpa using hlt
      have hne : k % 512 ≠ 0 := by
        rw [Nat.mod_eq_of_lt hlt']
        simpa using hk
      exact ⟨hlt', by simp [frameAt, tableOf, child, gigaMachine, hne]⟩
  | succ d ih =>
      have hparent : k / 512 / 512 ^ d ≠ 0 := by
        rwa [Nat.div_div_eq_div_mul, ← Nat.pow_succ']
      have hlt' : k / 512 < 512 ^ (d + 1) := by
        rw [Nat.div_lt_iff_lt_mul (by decide), ← Nat.pow_succ]
        exact hlt
      obtain ⟨hsmall, hnone⟩ := ih (Nat.lt_of_succ_lt hd) hparent hlt'
      have htable : gigaMachine.tableOf 1 (d + 1) k = none := hnone
      refine ⟨⟨hsmall, hd, fun _ table hsome ↦ ?_⟩, by rw [frameAt, htable]; rfl⟩
      cases htable.symm.trans hsome

/-- Two pages in two page tables. -/
theorem mapsRange_gigaMachine :
    MapsRange gigaMachine
      (gigaMachine.setupPageMaps (.ofValue 0xffff8000001ff000) 2 true).machine 0x8000001ff 2 true := by
  have hok : (gigaMachine.setupPageMaps (.ofValue 0xffff8000001ff000) 2 true).result = .ok 0 := by
    decide +kernel
  refine setupPageMaps_mapsRange pageTree_gigaMachine
    (LinearAddress4Level.valid_ofValue _) (by decide) (fun q hlow hhigh ↦ ?_) hok
  have hpage : (LinearAddress4Level.ofValue 0xffff8000001ff000).pageNumber = 0x8000001ff := by decide
  rw [hpage] at hlow hhigh
  exact (small_gigaMachine (by decide) (by omega) (by omega)).1

end Range
end Paging
end MinOS
