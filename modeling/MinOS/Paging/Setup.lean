import MinOS.Paging.Tree

/-!
# What `SetupPageMap` visits

`SetupPageMap` goes down to every page of a range and visits each entry on the
way once: it attaches a fresh frame if the entry is not present, and assigns the
flags.  A property that one such visit keeps is kept by the whole walk.
-/

namespace MinOS
namespace Paging

open PageMapEntry Machine

/-- The entries from depth `d` on above the pages from `a` up to `b`. -/
def entriesFrom (d a b : ℕ) : Finset (ℕ × ℕ) :=
  (Finset.Ico d 4 ×ˢ Finset.Ico a b).image fun x ↦ (x.1, x.2 / 512 ^ (3 - x.1))

theorem mem_entriesFrom {d a b : ℕ} {x : ℕ × ℕ} :
    x ∈ entriesFrom d a b ↔
      (d ≤ x.1 ∧ x.1 < 4) ∧ ∃ p, (a ≤ p ∧ p < b) ∧ p / 512 ^ (3 - x.1) = x.2 := by
  simp only [entriesFrom, Finset.mem_image, Finset.mem_product, Finset.mem_Ico, Prod.exists]
  constructor
  · rintro ⟨d', p, ⟨hd, hp⟩, rfl⟩
    exact ⟨hd, p, hp, rfl⟩
  · rintro ⟨hd, p, hp, hq⟩
    exact ⟨x.1, p, ⟨hd, hp⟩, by rw [hq]⟩

theorem entriesFrom_empty {d a b : ℕ} (h : b ≤ a) : entriesFrom d a b = ∅ := by
  rw [entriesFrom, Finset.Ico_eq_empty_of_le h, Finset.product_empty, Finset.image_empty]

theorem entriesFrom_four (a b : ℕ) : entriesFrom 4 a b = ∅ := by
  rw [entriesFrom, Finset.Ico_self, Finset.empty_product, Finset.image_empty]

theorem card_entriesFrom_le (d a b : ℕ) : (entriesFrom d a b).card ≤ 4 * (b - a) := by
  refine Finset.card_image_le.trans ?_
  rw [Finset.card_product, Nat.card_Ico, Nat.card_Ico]
  exact Nat.mul_le_mul_right _ (Nat.sub_le 4 d)

theorem entriesFrom_split {d a b c : ℕ} (hac : a ≤ c) (hcb : c ≤ b) :
    entriesFrom d a b = entriesFrom d a c ∪ entriesFrom d c b := by
  rw [entriesFrom, ← Finset.Ico_union_Ico_eq_Ico hac hcb, Finset.product_union, Finset.image_union]
  rfl

theorem entriesFrom_mono {d d' a a' b b' : ℕ} (hd : d ≤ d') (ha : a ≤ a') (hb : b' ≤ b) :
    entriesFrom d' a' b' ⊆ entriesFrom d a b := by
  intro x hx
  obtain ⟨⟨hlow, hlt⟩, p, ⟨hap, hpb⟩, hq⟩ := mem_entriesFrom.mp hx
  exact mem_entriesFrom.mpr ⟨⟨hd.trans hlow, hlt⟩, p, ⟨ha.trans hap, hpb.trans_le hb⟩, hq⟩

/-- Pages below one entry. -/
theorem entriesFrom_head {d a b q : ℕ} (hd : d < 4) (hab : a < b)
    (hq : ∀ p, a ≤ p → p < b → p / 512 ^ (3 - d) = q) :
    entriesFrom d a b = insert (d, q) (entriesFrom (d + 1) a b) := by
  ext x
  rw [Finset.mem_insert, mem_entriesFrom, mem_entriesFrom]
  constructor
  · rintro ⟨⟨hlow, hlt⟩, p, ⟨hap, hpb⟩, hx⟩
    rcases hlow.eq_or_lt with hhere | hbelow
    · left
      refine Prod.ext hhere.symm ?_
      rw [← hx, ← hhere]
      exact hq p hap hpb
    · exact .inr ⟨⟨hbelow, hlt⟩, p, ⟨hap, hpb⟩, hx⟩
  · rintro (rfl | ⟨⟨hlow, hlt⟩, hp⟩)
    · exact ⟨⟨le_rfl, hd⟩, a, ⟨le_rfl, hab⟩, hq a le_rfl hab⟩
    · exact ⟨⟨(Nat.le_succ d).trans hlow, hlt⟩, hp⟩

/-! ## What every step keeps -/

/-- The steps of `SetupPageMap` are in the relation. -/
structure StepsKeep (R : Machine → Machine → Prop) : Prop where
  refl : ∀ m, R m m
  trans : ∀ {m m' m''}, R m m' → R m' m'' → R m m''
  newPageMap : ∀ m table i, R m (m.setNewPageMapIfNotPresent table i).2
  setFlags : ∀ m table i w, R m (m.setFlags table i w)

namespace StepsKeep

variable {R : Machine → Machine → Prop} (h : StepsKeep R) {w : Bool}

include h

/-- What follows the first visit of a loop. -/
theorem turn {child : Machine → ℕ → LinearAddress4Level → ℕ → Setup} {table level turns n : ℕ}
    (hchild : ∀ m table addr n, R m (child m table addr n).machine)
    (hrest : ∀ m addr n, R m (setupLoop w child table level turns m addr n).machine)
    {m m₁ : Machine} {addr : LinearAddress4Level} {childMap : ℕ} (hn : n ≠ 0)
    (hset : m.setNewPageMapIfNotPresent table (addr.part level) = (.ok childMap, m₁)) :
    R (m₁.setFlags table (addr.part level) (if level = 1 then w else true))
      (setupLoop w child table level (turns + 1) m addr n).machine := by
  rw [setupLoop, if_neg hn]
  dsimp only
  rw [hset]
  dsimp only
  by_cases hlevel : level = 1
  · rw [if_pos hlevel, if_pos hlevel]
    split_ifs
    · exact h.refl _
    · exact hrest _ _ _
  · rw [if_neg hlevel, if_neg hlevel]
    have hsub := hchild (m₁.setFlags table (addr.part level) true) childMap addr n
    split
    · exact hsub
    · split_ifs
      · exact hsub
      · exact h.trans hsub (hrest _ _ _)

theorem setupLoop {child : Machine → ℕ → LinearAddress4Level → ℕ → Setup}
    (hchild : ∀ m table addr n, R m (child m table addr n).machine) (table level turns : ℕ) :
    ∀ (m : Machine) (addr : LinearAddress4Level) (n : ℕ),
      R m (Machine.setupLoop w child table level turns m addr n).machine := by
  induction turns with
  | zero => exact fun m _ _ ↦ h.refl m
  | succ turns ih =>
      intro m addr n
      have hnew := h.newPageMap m table (addr.part level)
      by_cases hn : n = 0
      · rw [Machine.setupLoop, if_pos hn]
        exact h.refl m
      · rcases hset : m.setNewPageMapIfNotPresent table (addr.part level) with ⟨err | childMap, m₁⟩
        · rw [hset] at hnew
          rw [Machine.setupLoop, if_neg hn]
          dsimp only
          rw [hset]
          exact hnew
        · rw [hset] at hnew
          exact h.trans (h.trans hnew (h.setFlags m₁ _ _ _)) (h.turn hchild ih hn hset)

theorem setupPageMap (level : ℕ) : ∀ (m : Machine) (table : ℕ) (addr : LinearAddress4Level)
    (n : ℕ), R m (Machine.setupPageMap w level m table addr n).machine := by
  induction level with
  | zero => exact fun m _ _ _ ↦ h.refl m
  | succ level ih => exact fun m table addr n ↦ h.setupLoop ih table (level + 1) 512 m addr n

theorem setupPageMaps (m : Machine) (addr : LinearAddress4Level) (n : ℕ) :
    R m (m.setupPageMaps addr n w).machine :=
  h.setupPageMap 4 m m.cr3 addr n

end StepsKeep

/-! ## Visits -/

section Visit

variable {root : ℕ} {m m' : Machine} {d q table frame : ℕ}

theorem visit_cases (htable : m.tableOf root d q = some table)
    (hset : m.setNewPageMapIfNotPresent table (q % 512) = (.ok frame, m')) :
    (m.frameAt root d q = some frame ∧ m' = m) ∨
      (frame ∈ m.memoryManager.freeFrames ∧ m.child table (q % 512) = none ∧
        m' = m.attach table (q % 512) frame) := by
  rcases m.setNewPageMapIfNotPresent_cases table (q % 512) with
    ⟨f, hchild, heq⟩ | ⟨-, -, heq⟩ | ⟨f, hfree, hchild, heq⟩
  · obtain ⟨hf, rfl⟩ := Prod.ext_iff.mp (heq.symm.trans hset)
    obtain rfl := Except.ok.inj hf
    exact .inl ⟨(frameAt_eq_some htable).mpr hchild, rfl⟩
  · cases heq.symm.trans hset
  · obtain ⟨hf, rfl⟩ := Prod.ext_iff.mp (heq.symm.trans hset)
    obtain rfl := Except.ok.inj hf
    exact .inr ⟨hfree, hchild, rfl⟩

theorem frameAt_setFlags (m : Machine) (table i : ℕ) (w : Bool) (root d q : ℕ) :
    (m.setFlags table i w).frameAt root d q = m.frameAt root d q :=
  frameAt_congr (fun g j ↦ m.child_setFlags table i w g j) root d q

end Visit

namespace EntrySet

/-- The frames of the set stay where they are. -/
def Kept (E : EntrySet) (root : ℕ) (m m' : Machine) : Prop :=
  ∀ ⦃d q frame : ℕ⦄, E.Mem d q → m.frameAt root d q = some frame →
    m'.frameAt root d q = some frame

namespace Kept

variable {E : EntrySet} {root : ℕ} {m m' m'' : Machine}

theorem refl (m : Machine) : E.Kept root m m := fun _ _ _ _ h ↦ h

theorem trans (h : E.Kept root m m') (h' : E.Kept root m' m'') : E.Kept root m m'' :=
  fun _ _ _ hmem hframe ↦ h' hmem (h hmem hframe)

theorem tableOf (h : E.Kept root m m') {d q table : ℕ} (hmem : E.Mem d q)
    (htable : m.tableOf root d q = some table) : m'.tableOf root d q = some table := by
  cases d with
  | zero => exact htable
  | succ d => exact h (E.parent hmem) htable

end Kept

/-- One visit: the entry leads to the frame afterwards, and no other is lost. -/
theorem IsTree.visit {E : EntrySet} {root : ℕ} {m m' : Machine} {d q table frame : ℕ}
    (h : E.IsTree m root) (hmem : E.Mem d q) (htable : m.tableOf root d q = some table)
    (hset : m.setNewPageMapIfNotPresent table (q % 512) = (.ok frame, m')) (w : Bool) :
    E.Kept root m (m'.setFlags table (q % 512) w) ∧
      (m'.setFlags table (q % 512) w).frameAt root d q = some frame := by
  rcases visit_cases htable hset with ⟨hframe, rfl⟩ | ⟨hfree, habsent, rfl⟩
  · refine ⟨fun _ _ _ _ hsome ↦ ?_, ?_⟩ <;> rw [frameAt_setFlags] <;> assumption
  · refine ⟨fun d' q' f hmem' hsome ↦ ?_, ?_⟩
    · rw [frameAt_setFlags, h.frameAt_attach hmem htable hfree habsent hmem']
      split_ifs with hhere
      · obtain ⟨rfl, rfl⟩ := hhere
        rw [frameAt_eq_some htable, habsent] at hsome
        cases hsome
      · exact hsome
    · rw [frameAt_setFlags, h.frameAt_attach hmem htable hfree habsent hmem,
        if_pos ⟨rfl, rfl⟩]

/-! ## The walk -/

section Walk

variable {E : EntrySet} {root : ℕ} {w : Bool} {P : Machine → Finset (ℕ × ℕ) → Prop}

/-- What a walk over the pages from `a` up to `b` leaves, when it has visited
`V` before and `n` pages were asked for. -/
structure Walked (E : EntrySet) (root : ℕ) (P : Machine → Finset (ℕ × ℕ) → Prop) (m : Machine)
    (V : Finset (ℕ × ℕ)) (d a b n : ℕ) (s : Setup) : Prop where
  kept : E.Kept root m s.machine
  touched : ∀ i ∈ s.touched, E.Mem 0 i
  ok : ∀ r, s.result = .ok r → r = n - (b - a) ∧ P s.machine (V ∪ entriesFrom d a b)
  error : ∀ e, s.result = .error e → e = .kNoEnoughMemory ∧ s.machine.memoryManager.freeFrames = ∅ ∧
    (∃ V', V' ⊆ V ∪ entriesFrom d a b ∧ P s.machine V') ∧
      ∃ x ∈ entriesFrom d a b, s.machine.frameAt root x.1 x.2 = none

theorem Walked.of_ok {m : Machine} {V : Finset (ℕ × ℕ)} {d a b n r : ℕ} {s : Setup}
    (hresult : s.result = .ok r) (hkept : E.Kept root m s.machine)
    (htouched : ∀ i ∈ s.touched, E.Mem 0 i) (hr : r = n - (b - a))
    (hP : P s.machine (V ∪ entriesFrom d a b)) : E.Walked root P m V d a b n s where
  kept := hkept
  touched := htouched
  ok := by
    intro r' hr'
    obtain rfl := Except.ok.inj (hresult.symm.trans hr')
    exact ⟨hr, hP⟩
  error := by
    intro e he
    cases hresult.symm.trans he

theorem Walked.nothing (m : Machine) (V : Finset (ℕ × ℕ)) (d : ℕ) {a b : ℕ} (hba : b ≤ a)
    (hP : P m V) (n : ℕ) : E.Walked root P m V d a b n ⟨.ok n, m, []⟩ := by
  refine Walked.of_ok rfl (Kept.refl m) (by simp) (by omega) ?_
  rwa [entriesFrom_empty hba, Finset.union_empty]

/-- The walk goes on behind its first part. -/
theorem Walked.append {m : Machine} {V V₁ : Finset (ℕ × ℕ)} {d a b b₁ n r : ℕ} {s s' : Setup}
    (hkept : E.Kept root m s.machine) (htouched : ∀ i ∈ s.touched, E.Mem 0 i) (hab : a ≤ b₁)
    (hb : b₁ ≤ b) (hV₁ : V₁ = V ∪ entriesFrom d a b₁) (hr : r = n - (b₁ - a))
    (h' : E.Walked root P s.machine V₁ d b₁ b r s') :
    E.Walked root P m V d a b n (s'.after s.touched) where
  kept := hkept.trans h'.kept
  touched := by
    intro i hi
    rcases List.mem_append.mp hi with hi | hi
    · exact htouched i hi
    · exact h'.touched i hi
  ok := by
    intro r' hr'
    obtain ⟨rfl, hP⟩ := h'.ok r' hr'
    rw [hV₁, Finset.union_assoc, ← entriesFrom_split hab hb] at hP
    exact ⟨by omega, hP⟩
  error := by
    intro e he
    obtain ⟨rfl, hfree, ⟨V', hV', hP⟩, x, hx, hnone⟩ := h'.error e he
    rw [hV₁, Finset.union_assoc, ← entriesFrom_split hab hb] at hV'
    exact ⟨rfl, hfree, ⟨V', hV', hP⟩, x, entriesFrom_mono le_rfl hab le_rfl hx, hnone⟩

theorem next_chunk {L : ℕ} (hL : L < 4) (a : ℕ) :
    a < (a / 512 ^ L + 1) * 512 ^ L ∧
      (a / 512 ^ L + 1) * 512 ^ L ≤ (a / 512 ^ (L + 1) + 1) * 512 ^ (L + 1) ∧
      (a / 512 ^ L % 512 = 511 →
        (a / 512 ^ L + 1) * 512 ^ L = (a / 512 ^ (L + 1) + 1) * 512 ^ (L + 1)) ∧
      (a / 512 ^ L % 512 ≠ 511 →
        (a / 512 ^ L + 1) * 512 ^ L / 512 ^ (L + 1) = a / 512 ^ (L + 1)) := by
  interval_cases L <;> refine ⟨?_, ?_, ?_, ?_⟩ <;> omega

theorem div_of_mem_chunk {L a p : ℕ} (hap : a ≤ p) (hp : p < (a / 512 ^ L + 1) * 512 ^ L) :
    p / 512 ^ L = a / 512 ^ L := by
  have hlow : a / 512 ^ L ≤ p / 512 ^ L := Nat.div_le_div_right hap
  have hhigh : p / 512 ^ L < a / 512 ^ L + 1 :=
    (Nat.div_lt_iff_lt_mul (Nat.pow_pos (by decide))).mpr hp
  omega

/-- A property that every visit keeps. -/
def VisitKeeps (E : EntrySet) (root : ℕ) (w : Bool) (P : Machine → Finset (ℕ × ℕ) → Prop) : Prop :=
  ∀ ⦃m m' : Machine⦄ ⦃V : Finset (ℕ × ℕ)⦄ ⦃d q table frame : ℕ⦄, P m V → E.Mem d q →
    m.tableOf root d q = some table →
    m.setNewPageMapIfNotPresent table (q % 512) = (.ok frame, m') →
    P (m'.setFlags table (q % 512) (if d = 3 then w else true)) (insert (d, q) V)

/-- What is asked of the walk of a level. -/
def WalksLevel (E : EntrySet) (root : ℕ) (P : Machine → Finset (ℕ × ℕ) → Prop) (L : ℕ)
    (walk : Machine → ℕ → LinearAddress4Level → ℕ → Setup) : Prop :=
  ∀ (m : Machine) (V : Finset (ℕ × ℕ)) (table : ℕ) (addr : LinearAddress4Level) (n : ℕ),
    P m V → addr.Valid → m.tableOf root (3 - L) (addr.pageNumber / 512 ^ L) = some table →
    (∀ p, addr.pageNumber ≤ p → p < addr.pageNumber + n →
      p < (addr.pageNumber / 512 ^ (L + 1) + 1) * 512 ^ (L + 1) → E.Mem 3 p) →
    E.Walked root P m V (3 - L) addr.pageNumber
      (min (addr.pageNumber + n) ((addr.pageNumber / 512 ^ (L + 1) + 1) * 512 ^ (L + 1))) n
      (walk m table addr n)

theorem tableOf_sibling (m : Machine) (root d : ℕ) {q q' : ℕ} (h : q / 512 = q' / 512) :
    m.tableOf root d q = m.tableOf root d q' := by
  cases d with
  | zero => rfl
  | succ d => rw [tableOf, tableOf, h]

theorem setupLoop_zero (child : Machine → ℕ → LinearAddress4Level → ℕ → Setup)
    (table level turns : ℕ) (m : Machine) (addr : LinearAddress4Level) :
    setupLoop w child table level turns m addr 0 = ⟨.ok 0, m, []⟩ := by
  cases turns <;> rfl

/-- An error of the first part ends the walk. -/
theorem Walked.error_of {m : Machine} {V V₁ : Finset (ℕ × ℕ)} {d d₁ a b b₁ n : ℕ} {s : Setup}
    {e : Error} (hkept : E.Kept root m s.machine) (htouched : ∀ i ∈ s.touched, E.Mem 0 i)
    (hd : d ≤ d₁) (hb : b₁ ≤ b) (hV₁ : V₁ ⊆ V ∪ entriesFrom d a b) (he : s.result = .error e)
    (h : e = .kNoEnoughMemory ∧ s.machine.memoryManager.freeFrames = ∅ ∧
      (∃ V', V' ⊆ V₁ ∪ entriesFrom d₁ a b₁ ∧ P s.machine V') ∧
        ∃ x ∈ entriesFrom d₁ a b₁, s.machine.frameAt root x.1 x.2 = none) :
    E.Walked root P m V d a b n s where
  kept := hkept
  touched := htouched
  ok := by
    intro r hr
    cases he.symm.trans hr
  error := by
    intro e' he'
    obtain rfl := Except.error.inj (he.symm.trans he')
    obtain ⟨rfl, hfree, ⟨V', hV', hP⟩, x, hx, hnone⟩ := h
    have hsub : entriesFrom d₁ a b₁ ⊆ entriesFrom d a b := entriesFrom_mono hd le_rfl hb
    refine ⟨rfl, hfree, ⟨V', hV'.trans (Finset.union_subset hV₁ ?_), hP⟩, x, hsub hx, hnone⟩
    exact hsub.trans Finset.subset_union_right

/-- No frame is left for an entry that is visited. -/
theorem Walked.refused {m m₁ : Machine} {V : Finset (ℕ × ℕ)} {d q table a b n : ℕ} {e : Error}
    (hP : P m V) (hvisited : (d, q) ∈ entriesFrom d a b)
    (htable : m.tableOf root d q = some table)
    (hset : m.setNewPageMapIfNotPresent table (q % 512) = (.error e, m₁)) :
    E.Walked root P m V d a b n ⟨.error e, m₁, []⟩ := by
  rcases m.setNewPageMapIfNotPresent_cases table (q % 512) with
    ⟨f, -, heq⟩ | ⟨hnone, hfree, heq⟩ | ⟨f, -, -, heq⟩
  · cases heq.symm.trans hset
  · obtain ⟨he, rfl⟩ := Prod.ext_iff.mp (heq.symm.trans hset)
    obtain rfl := Except.error.inj he
    refine ⟨Kept.refl _, by simp, fun r hr ↦ (by cases hr), fun e' he' ↦ ?_⟩
    obtain rfl := Except.error.inj he'
    refine ⟨rfl, hfree, ⟨V, Finset.subset_union_left, hP⟩, _, hvisited, ?_⟩
    rw [frameAt, htable, Option.bind_some, hnone]
  · cases heq.symm.trans hset

theorem pml4_eq_pageNumber {addr : LinearAddress4Level} (hvalid : addr.Valid) :
    addr.pml4 = addr.pageNumber / 512 ^ 3 := by
  obtain ⟨h1, h2, h3, h4⟩ := hvalid
  simp only [LinearAddress4Level.pageNumber]
  omega

/-- What is asked of the loop of a level while it has `turns` turns to spare. -/
def WalksLoop (E : EntrySet) (root : ℕ) (w : Bool) (P : Machine → Finset (ℕ × ℕ) → Prop) (L : ℕ)
    (child : Machine → ℕ → LinearAddress4Level → ℕ → Setup) (turns : ℕ) : Prop :=
  ∀ (m : Machine) (V : Finset (ℕ × ℕ)) (table : ℕ) (addr : LinearAddress4Level) (n : ℕ),
    512 ≤ turns + addr.part (L + 1) → P m V → addr.Valid →
    m.tableOf root (3 - L) (addr.pageNumber / 512 ^ L) = some table →
    (∀ p, addr.pageNumber ≤ p → p < addr.pageNumber + n →
      p < (addr.pageNumber / 512 ^ (L + 1) + 1) * 512 ^ (L + 1) → E.Mem 3 p) →
    E.Walked root P m V (3 - L) addr.pageNumber
      (min (addr.pageNumber + n) ((addr.pageNumber / 512 ^ (L + 1) + 1) * 512 ^ (L + 1))) n
      (setupLoop w child table (L + 1) turns m addr n)

/-- The rest of the loop, from the entry behind the one that was visited on. -/
theorem WalksLoop.rest {L : ℕ} {child : Machine → ℕ → LinearAddress4Level → ℕ → Setup}
    {turns : ℕ} (hloop : E.WalksLoop root w P L child turns) (hL : L < 4) {m m₂ : Machine}
    {V₂ : Finset (ℕ × ℕ)} {table : ℕ} {addr : LinearAddress4Level} {n r b₁ b : ℕ}
    (hturns : 512 ≤ turns + 1 + addr.part (L + 1)) (hvalid : addr.Valid)
    (htable : m.tableOf root (3 - L) (addr.pageNumber / 512 ^ L) = some table)
    (hE : ∀ p, addr.pageNumber ≤ p → p < addr.pageNumber + n →
      p < (addr.pageNumber / 512 ^ (L + 1) + 1) * 512 ^ (L + 1) → E.Mem 3 p)
    (hmem : E.Mem (3 - L) (addr.pageNumber / 512 ^ L))
    (hb₁ : b₁ = min (addr.pageNumber + n) ((addr.pageNumber / 512 ^ L + 1) * 512 ^ L))
    (hb : b = min (addr.pageNumber + n)
      ((addr.pageNumber / 512 ^ (L + 1) + 1) * 512 ^ (L + 1)))
    (hkept : E.Kept root m m₂) (hP : P m₂ V₂) (hr : r = n - (b₁ - addr.pageNumber))
    (hne : addr.part (L + 1) ≠ 511) :
    E.Walked root P m₂ V₂ (3 - L) b₁ b r
      (setupLoop w child table (L + 1) turns m₂
        ((addr.setPart (L + 1) (addr.part (L + 1) + 1)).clearBelow (L + 1)) r) := by
  have hpart := hvalid.part_eq hL
  have hlt := hvalid.pageNumber_lt
  obtain ⟨hafter, hwithin, -, hsame⟩ := next_chunk hL addr.pageNumber
  rcases Nat.eq_zero_or_pos r with hzero | hpos
  · rw [hzero, setupLoop_zero]
    exact .nothing m₂ V₂ _ (by omega) hP 0
  · have hlast : addr.part (L + 1) < 511 := by omega
    have hvalid' := hvalid.next hL hlast
    have hpage := hvalid.pageNumber_next hL hlast
    have hb₁' : (addr.pageNumber / 512 ^ L + 1) * 512 ^ L = b₁ := by omega
    have hbound := hsame (by omega)
    have hquot : b₁ / 512 ^ L = addr.pageNumber / 512 ^ L + 1 := by
      rw [← hb₁', Nat.mul_div_cancel _ (Nat.pow_pos (by decide))]
    rw [hb₁'] at hpage hbound
    have hwalk := hloop m₂ V₂ table _ r (by
        rw [hvalid'.part_eq hL, hpage, hquot]
        omega) hP hvalid' (by
        rw [hpage, hquot, ← hkept.tableOf hmem htable]
        apply tableOf_sibling
        omega) (by
        rw [hpage, hbound]
        intro p hlow hhigh hp
        exact hE p (by omega) (by omega) hp)
    rw [hpage, hbound] at hwalk
    have hend : min (b₁ + r) ((addr.pageNumber / 512 ^ (L + 1) + 1) * 512 ^ (L + 1)) = b := by
      omega
    rwa [hend] at hwalk

theorem walksLevel_loop (hvisit : E.VisitKeeps root w P) (htree : ∀ m V, P m V → E.IsTree m root)
    {L : ℕ} (hL : L < 4) {child : Machine → ℕ → LinearAddress4Level → ℕ → Setup}
    (hchild : ∀ k, L = k + 1 → E.WalksLevel root P k child) (turns : ℕ) :
    E.WalksLoop root w P L child turns := by
  induction turns with
  | zero =>
      intro m V table addr n hturns hP hvalid
      have hpart : addr.part (L + 1) < 512 := by
        rw [hvalid.part_eq hL]
        exact Nat.mod_lt _ (by decide)
      omega
  | succ turns ih =>
      intro m V table addr n hturns hP hvalid htable hE
      have hpart := hvalid.part_eq hL
      have hlt := hvalid.pageNumber_lt
      obtain ⟨hafter, hwithin, hlast, -⟩ := next_chunk hL addr.pageNumber
      rw [setupLoop]
      by_cases hn : n = 0
      · subst hn
        rw [if_pos rfl]
        exact .nothing m V _ (min_le_left _ _) hP 0
      · rw [if_neg hn]
        have hpage : E.Mem 3 addr.pageNumber :=
          hE _ le_rfl (by omega) (lt_of_lt_of_le hafter hwithin)
        have hmem : E.Mem (3 - L) (addr.pageNumber / 512 ^ L) := ancestor hpage (by omega)
        have hpml4 : E.Mem 0 addr.pml4 := by
          rw [pml4_eq_pageNumber hvalid]
          exact ancestor hpage (show 3 ≤ 3 by decide)
        -- the pages below the entry that is visited now
        obtain ⟨b₁, hb₁⟩ : ∃ b₁, b₁ = min (addr.pageNumber + n)
          ((addr.pageNumber / 512 ^ L + 1) * 512 ^ L) := ⟨_, rfl⟩
        obtain ⟨b, hb⟩ : ∃ b, b = min (addr.pageNumber + n)
          ((addr.pageNumber / 512 ^ (L + 1) + 1) * 512 ^ (L + 1)) := ⟨_, rfl⟩
        have hab₁ : addr.pageNumber < b₁ := by omega
        have hb₁b : b₁ ≤ b := by omega
        have hhead : entriesFrom (3 - L) addr.pageNumber b₁ =
            insert (3 - L, addr.pageNumber / 512 ^ L)
              (entriesFrom (3 - L + 1) addr.pageNumber b₁) := by
          apply entriesFrom_head (E.entry hmem).depth hab₁
          intro p hap hpb
          have hlevel : 3 - (3 - L) = L := by omega
          rw [hlevel]
          exact div_of_mem_chunk hap (by omega)
        have hvisited : (3 - L, addr.pageNumber / 512 ^ L) ∈ entriesFrom (3 - L) addr.pageNumber b := by
          apply entriesFrom_mono le_rfl le_rfl hb₁b
          rw [hhead]
          exact Finset.mem_insert_self _ _
        rw [← hb]
        dsimp only
        rcases hset : m.setNewPageMapIfNotPresent table (addr.part (L + 1)) with ⟨result, m₁⟩
        rw [hpart] at hset
        cases result with
        | error e => exact .refused hP hvisited htable hset
        | ok frame =>
            have hP₁ := hvisit hP hmem htable hset
            obtain ⟨hkept, hframe⟩ :=
              (htree m V hP).visit hmem htable hset (if 3 - L = 3 then w else true)
            have hfull : addr.part (L + 1) = 511 → b = b₁ := by
              intro hfull
              have := hlast (by omega)
              omega
            cases L with
            | zero =>
                have hb₁' : b₁ = addr.pageNumber + 1 := by omega
                have hV : insert (3 - 0, addr.pageNumber / 512 ^ 0) V =
                    V ∪ entriesFrom (3 - 0) addr.pageNumber b₁ := by
                  rw [hhead, entriesFrom_four, Finset.union_insert, Finset.union_empty]
                rw [if_pos rfl, ← hpart] at hP₁ hkept
                dsimp only
                rw [if_pos rfl]
                split_ifs with h511
                · rw [hfull h511]
                  exact .of_ok rfl hkept (by simpa using hpml4) (by omega) (hV ▸ hP₁)
                · exact .append (s := ⟨.ok (n - 1), _, [addr.pml4]⟩) hkept (by simpa using hpml4)
                    hab₁.le hb₁b hV (by omega) (ih.rest hL hturns hvalid htable hE hmem hb₁ hb
                    hkept hP₁ (by omega) h511)
            | succ k =>
                have hdepth : 3 - (k + 1) + 1 = 3 - k := by omega
                have hflag : ¬ 3 - (k + 1) = 3 := by omega
                have hlevel : ¬ k + 1 + 1 = 1 := by omega
                rw [if_neg hflag, ← hpart] at hP₁ hkept hframe
                rw [hdepth] at hhead
                have htable' : (m₁.setFlags table (addr.part (k + 1 + 1)) true).tableOf root (3 - k)
                    (addr.pageNumber / 512 ^ k) = some frame := by
                  have hquot : addr.pageNumber / 512 ^ k / 512 =
                      addr.pageNumber / 512 ^ (k + 1) := by
                    rw [Nat.div_div_eq_div_mul, ← Nat.pow_succ]
                  rw [← hdepth, tableOf_succ, hquot]
                  exact hframe
                have hsub := hchild k rfl _ _ frame addr n hP₁ hvalid htable'
                  fun p hlow hhigh hp ↦ hE p hlow hhigh (by omega)
                rw [← hb₁] at hsub
                have hV : insert (3 - (k + 1), addr.pageNumber / 512 ^ (k + 1)) V ∪
                    entriesFrom (3 - k) addr.pageNumber b₁ =
                      V ∪ entriesFrom (3 - (k + 1)) addr.pageNumber b₁ := by
                  rw [hhead, Finset.union_insert, Finset.insert_union]
                dsimp only
                rw [if_neg hlevel]
                obtain ⟨sub, hsub'⟩ : ∃ sub, sub =
                    child (m₁.setFlags table (addr.part (k + 1 + 1)) true) frame addr n := ⟨_, rfl⟩
                rw [← hsub'] at hsub ⊢
                have hkept' := hkept.trans hsub.kept
                have htouched : ∀ i ∈ (sub.after [addr.pml4]).touched, E.Mem 0 i := by
                  intro i hi
                  rcases List.mem_cons.mp hi with rfl | hi
                  · exact hpml4
                  · exact hsub.touched i hi
                cases hresult : sub.result with
                | error e =>
                    have hres : (sub.after [addr.pml4]).result = .error e := hresult
                    rw [hres]
                    refine .error_of hkept' htouched (by omega) hb₁b ?_ hres (hsub.error e hresult)
                    exact Finset.insert_subset (Finset.mem_union_right _ hvisited)
                      Finset.subset_union_left
                | ok r =>
                    have hres : (sub.after [addr.pml4]).result = .ok r := hresult
                    obtain ⟨hr, hP₂⟩ := hsub.ok r hresult
                    rw [hV] at hP₂
                    rw [hres]
                    dsimp only
                    split_ifs with h511
                    · rw [hfull h511]
                      exact .of_ok hres hkept' htouched hr hP₂
                    · exact .append hkept' htouched hab₁.le hb₁b rfl hr
                        (ih.rest hL hturns hvalid htable hE hmem hb₁ hb hkept' hP₂ hr h511)

theorem walksLevel_setupPageMap (hvisit : E.VisitKeeps root w P)
    (htree : ∀ m V, P m V → E.IsTree m root) :
    ∀ {L : ℕ}, L < 4 → E.WalksLevel root P L (setupPageMap w (L + 1)) := by
  intro L
  induction L with
  | zero =>
      intro hL m V table addr n hP hvalid htable hE
      exact walksLevel_loop hvisit htree hL (fun k hk ↦ (by omega)) 512 m V table addr n
        (by omega) hP hvalid htable hE
  | succ L ih =>
      intro hL m V table addr n hP hvalid htable hE
      refine walksLevel_loop hvisit htree hL ?_ 512 m V table addr n (by omega) hP hvalid htable hE
      intro k hk
      obtain rfl : L = k := by omega
      exact ih (by omega)

/-- A property that every visit keeps is kept by `SetupPageMaps`, which visits
the entries above the pages of the range. -/
theorem setupPageMaps_walked {m : Machine} {V : Finset (ℕ × ℕ)}
    (hvisit : E.VisitKeeps m.cr3 w P) (htree : ∀ m' V, P m' V → E.IsTree m' m.cr3) (hP : P m V)
    {addr : LinearAddress4Level} (hvalid : addr.Valid) {n : ℕ}
    (hE : ∀ p, addr.pageNumber ≤ p → p < addr.pageNumber + n → p < 512 ^ 4 → E.Mem 3 p) :
    E.Walked m.cr3 P m V 0 addr.pageNumber (min (addr.pageNumber + n) (512 ^ 4)) n
      (m.setupPageMaps addr n w) := by
  have hlt := hvalid.pageNumber_lt
  have hzero : addr.pageNumber / 512 ^ (3 + 1) = 0 := Nat.div_eq_of_lt hlt
  have hwalk := walksLevel_setupPageMap hvisit htree (show 3 < 4 by decide) m V m.cr3 addr n hP
    hvalid rfl (by
      rw [hzero]
      intro p hlow hhigh hp
      exact hE p hlow hhigh (by omega))
  rw [hzero] at hwalk
  exact hwalk

end Walk
end EntrySet

/-! ## Below PML4 indices -/

/-- The frames of the tree stay where they are. -/
def Kept (S : Set ℕ) (root : ℕ) (m m' : Machine) : Prop :=
  ∀ ⦃d q frame : ℕ⦄, Entry S d q → m.frameAt root d q = some frame →
    m'.frameAt root d q = some frame

section Walk

variable {S : Set ℕ} {root : ℕ} {w : Bool} {P : Machine → Finset (ℕ × ℕ) → Prop}

/-- What a walk over the pages from `a` up to `b` leaves, when it has visited
`V` before and `n` pages were asked for. -/
structure Walked (S : Set ℕ) (root : ℕ) (P : Machine → Finset (ℕ × ℕ) → Prop) (m : Machine)
    (V : Finset (ℕ × ℕ)) (d a b n : ℕ) (s : Setup) : Prop where
  kept : Kept S root m s.machine
  touched : ∀ i ∈ s.touched, i ∈ S
  ok : ∀ r, s.result = .ok r → r = n - (b - a) ∧ P s.machine (V ∪ entriesFrom d a b)
  error : ∀ e, s.result = .error e → e = .kNoEnoughMemory ∧ s.machine.memoryManager.freeFrames = ∅ ∧
    (∃ V', V' ⊆ V ∪ entriesFrom d a b ∧ P s.machine V') ∧
      ∃ x ∈ entriesFrom d a b, s.machine.frameAt root x.1 x.2 = none

theorem entry_of_page {S : Set ℕ} {L a : ℕ} (hL : L < 4) (hlt : a < 512 ^ 4)
    (htop : a / 512 ^ 3 ∈ S) : Entry S (3 - L) (a / 512 ^ L) where
  depth := by omega
  lt := by
    interval_cases L <;> simp only [Nat.reduceSub] <;> omega
  top := by
    have hdiv : a / 512 ^ L / 512 ^ (3 - L) = a / 512 ^ 3 := by
      rw [Nat.div_div_eq_div_mul, ← Nat.pow_add]
      congr 2
      omega
    rwa [hdiv]

/-- A property that every visit keeps. -/
def VisitKeeps (S : Set ℕ) (root : ℕ) (w : Bool) (P : Machine → Finset (ℕ × ℕ) → Prop) : Prop :=
  ∀ ⦃m m' : Machine⦄ ⦃V : Finset (ℕ × ℕ)⦄ ⦃d q table frame : ℕ⦄, P m V → Entry S d q →
    m.tableOf root d q = some table →
    m.setNewPageMapIfNotPresent table (q % 512) = (.ok frame, m') →
    P (m'.setFlags table (q % 512) (if d = 3 then w else true)) (insert (d, q) V)

/-- The walk over pages below the indices of `S`. -/
theorem setupPageMaps_walked {m : Machine} {V : Finset (ℕ × ℕ)} (hvisit : VisitKeeps S m.cr3 w P)
    (htree : ∀ m' V, P m' V → Tree S m' m.cr3) (hP : P m V) {addr : LinearAddress4Level}
    (hvalid : addr.Valid) {n : ℕ}
    (hS : ∀ p, addr.pageNumber ≤ p → p < addr.pageNumber + n → p < 512 ^ 4 → p / 512 ^ 3 ∈ S) :
    Walked S m.cr3 P m V 0 addr.pageNumber (min (addr.pageNumber + n) (512 ^ 4)) n
      (m.setupPageMaps addr n w) := by
  have hwalk := (EntrySet.below S).setupPageMaps_walked hvisit
    (fun m' V hm ↦ (htree m' V hm).isTree) hP hvalid fun p hlow hhigh hlt ↦
      ⟨by decide, hlt, hS p hlow hhigh hlt⟩
  refine ⟨hwalk.kept, fun i hi ↦ ?_, hwalk.ok, hwalk.error⟩
  simpa using (hwalk.touched i hi).top

end Walk
end Paging
end MinOS
