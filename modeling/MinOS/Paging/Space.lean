import MinOS.Library.Ownership
import MinOS.Paging.Mapped

/-!
# Address spaces

The user halves of several PML4s in one memory.  Every frame behind them has one
owner, and two address spaces meet only in the frames of pages.
-/

namespace MinOS
namespace Paging

open PageMapEntry Machine Ownership

namespace Machine

/-- The frame behind an entry with its writable bit, if the entry is present. -/
def cell (m : Machine) (table i : ℕ) : Option (ℕ × Bool) :=
  (m.child table i).map fun frame ↦ (frame, (m.mem table i).writable)

def entryAt (m : Machine) (root d q : ℕ) : Option (ℕ × Bool) :=
  (m.tableOf root d q).bind fun table ↦ m.cell table (q % 512)

theorem frameAt_eq (m : Machine) (root d q : ℕ) :
    m.frameAt root d q = (m.entryAt root d q).map Prod.fst := by
  rw [frameAt, entryAt]
  cases m.tableOf root d q with
  | none => rfl
  | some table =>
      simp only [Option.bind_some, cell, Option.map_map]
      cases m.child table (q % 512) <;> rfl

theorem entryAt_of_frameAt {m : Machine} {root d q frame : ℕ}
    (h : m.frameAt root d q = some frame) : ∃ w, m.entryAt root d q = some (frame, w) := by
  rw [frameAt_eq] at h
  obtain ⟨⟨f, w⟩, hentry, rfl⟩ := Option.map_eq_some_iff.mp h
  exact ⟨w, hentry⟩

/-- The user halves below the given roots. -/
noncomputable def spaces {ι : Type*} (m : Machine) (root : ι → Option ℕ) : Spaces ι (ℕ × ℕ) ℕ where
  root := root
  entry i k := open Classical in
    if Entry userHalf k.1 k.2 then (root i).bind fun r ↦ m.entryAt r k.1 k.2 else none

section Spaces

variable {ι : Type*} {m : Machine} {root : ι → Option ℕ} {i : ι} {r d q : ℕ}

@[simp] theorem spaces_root (m : Machine) (root : ι → Option ℕ) : (m.spaces root).root = root := rfl

theorem spaces_entry (hroot : root i = some r) (hentry : Entry userHalf d q) :
    (m.spaces root).entry i (d, q) = m.entryAt r d q := by
  rw [spaces]
  dsimp only
  rw [if_pos hentry, hroot, Option.bind_some]

theorem spaces_entry_of_root (hroot : root i = none) (k : ℕ × ℕ) :
    (m.spaces root).entry i k = none := by
  rw [spaces]
  dsimp only
  rw [hroot]
  exact ite_self none

theorem spaces_entry_of_not (h : ¬ Entry userHalf d q) : (m.spaces root).entry i (d, q) = none := by
  rw [spaces]
  dsimp only
  rw [if_neg h]

end Spaces
end Machine

/-- Pages may be shared, page maps not. -/
def pagePolicy {ι : Type*} (own : ι → Bool) (template : ι → ι) : Policy ι (ℕ × ℕ) where
  leaf k := k.1 = 3
  own := own
  template := template

/-- A word in the user half: a user entry if it is present, and no huge page. -/
structure UserWord (d : ℕ) (e : PageMapEntry) : Prop where
  notHuge : d < 3 → e.hugePage = false
  user : e.present = true → e.user = true

/-- The frames of the address spaces are accounted for; the rest of the allocated
frames is `base`. -/
structure Accounted {ι : Type*} (σ : Policy ι (ℕ × ℕ)) (m : Machine) (root : ι → Option ℕ)
    (base : ℕ → Prop) : Prop where
  leaf : ∀ k, σ.leaf k ↔ k.1 = 3
  separated : Separated σ (m.spaces root) (fun f ↦ m.memoryManager.getBit f = true) base
  inner : ∀ {i : ι} {d q f : ℕ} {w : Bool}, d ≠ 3 →
    (m.spaces root).entry i (d, q) = some (f, w) → w = true
  words : ∀ {i : ι} {r d q table : ℕ}, root i = some r → Entry userHalf d q →
    m.tableOf r d q = some table → UserWord d (m.mem table (q % 512))
  rangeEnd : m.memoryManager.rangeEnd ≤ kFrameCount

/-- The owner of the table that holds an entry. -/
def tableOwner {ι : Type*} (i : ι) : ℕ → ℕ → Owner ι (ℕ × ℕ)
  | 0, _ => .root i
  | d + 1, q => .entry i (d, q / 512)

namespace Accounted

variable {ι : Type*} {σ : Policy ι (ℕ × ℕ)} {m : Machine} {root : ι → Option ℕ} {base : ℕ → Prop}
  {i j : ι} {r r' d d' q q' table : ℕ}

theorem owns_of_frameAt (h : Accounted σ m root base) (hroot : root i = some r)
    (hentry : Entry userHalf d q) (hd : d ≠ 3) {frame : ℕ} (hframe : m.frameAt r d q = some frame) :
    Owns σ (m.spaces root) frame (.entry i (d, q)) := by
  obtain ⟨w, hw⟩ := entryAt_of_frameAt hframe
  exact Separated.owns_inner (fun hleaf ↦ hd ((h.leaf _).mp hleaf))
    ((spaces_entry hroot hentry).trans hw)

theorem owns_table (h : Accounted σ m root base) (hroot : root i = some r)
    (hentry : Entry userHalf d q) (htable : m.tableOf r d q = some table) :
    Owns σ (m.spaces root) table (tableOwner i d q) := by
  cases d with
  | zero => exact hroot.trans htable
  | succ d =>
      have hdepth := hentry.depth
      exact h.owns_of_frameAt hroot hentry.parent (by omega) htable

/-- The table of an entry belongs to it alone. -/
theorem table_unique (h : Accounted σ m root base) (hroot : root i = some r)
    (hentry : Entry userHalf d q) (htable : m.tableOf r d q = some table) (hroot' : root j = some r')
    (hentry' : Entry userHalf d' q') (htable' : m.tableOf r' d' q' = some table) :
    i = j ∧ d = d' ∧ q / 512 = q' / 512 := by
  have heq := h.separated.unique (h.owns_table hroot hentry htable)
    (h.owns_table hroot' hentry' htable')
  cases d with
  | zero =>
      cases d' with
      | zero =>
          injection heq with hij
          have hlt := hentry.lt
          have hlt' := hentry'.lt
          exact ⟨hij, rfl, by omega⟩
      | succ d' => cases heq
  | succ d =>
      cases d' with
      | zero => cases heq
      | succ d' =>
          injection heq with hij hk
          obtain ⟨rfl, hq⟩ := Prod.mk.inj hk
          exact ⟨hij, rfl, hq⟩

/-- The place of an entry belongs to it alone. -/
theorem place_unique (h : Accounted σ m root base) (hroot : root i = some r)
    (hentry : Entry userHalf d q) (htable : m.tableOf r d q = some table) (hroot' : root j = some r')
    (hentry' : Entry userHalf d' q') (htable' : m.tableOf r' d' q' = some table)
    (hindex : q % 512 = q' % 512) : i = j ∧ d = d' ∧ q = q' := by
  obtain ⟨hij, hd, hq⟩ := h.table_unique hroot hentry htable hroot' hentry' htable'
  exact ⟨hij, hd, by omega⟩

theorem allocated_table (h : Accounted σ m root base) (hroot : root i = some r)
    (hentry : Entry userHalf d q) (htable : m.tableOf r d q = some table) :
    m.memoryManager.getBit table = true :=
  h.separated.alloc_of_owns (h.owns_table hroot hentry htable)

theorem page_ne_table (h : Accounted σ m root base) (hroot : root i = some r)
    (hentry : Entry userHalf d q) (htable : m.tableOf r d q = some table) {p f : ℕ} {w : Bool}
    (hpage : (m.spaces root).entry j (3, p) = some (f, w)) : f ≠ table := by
  rintro rfl
  obtain ⟨j', howns⟩ := h.separated.leaf_owner ((h.leaf _).mpr rfl) hpage
  have heq := h.separated.unique howns (h.owns_table hroot hentry htable)
  have hdepth := hentry.depth
  cases d with
  | zero => cases heq
  | succ d =>
      injection heq with _ hk
      obtain ⟨hd, -⟩ := Prod.mk.inj hk
      omega

theorem page_ne_inner (h : Accounted σ m root base) (hroot : root i = some r)
    (hentry : Entry userHalf d q) (hd : d ≠ 3) {frame p : ℕ} {w : Bool}
    (hframe : m.frameAt r d q = some frame) (hpage : (m.spaces root).entry j (3, p) = some (frame, w)) :
    False := by
  obtain ⟨j', howns⟩ := h.separated.leaf_owner ((h.leaf _).mpr rfl) hpage
  have heq := h.separated.unique howns (h.owns_of_frameAt hroot hentry hd hframe)
  injection heq with _ hk
  exact hd (Prod.mk.inj hk).1.symm

theorem tree (h : Accounted σ m root base) (hroot : root i = some r) : Tree userHalf m r where
  rootAllocated := h.separated.alloc_of_owns (o := .root i) hroot
  rangeEnd := h.rangeEnd
  allocated := by
    intro d q frame hentry hframe
    obtain ⟨w, hw⟩ := entryAt_of_frameAt hframe
    exact h.separated.alloc_of_entry ((spaces_entry hroot hentry).trans hw)
  ne_root := by
    intro d q frame hentry hframe
    by_cases hd : d = 3
    · subst hd
      obtain ⟨w, hw⟩ := entryAt_of_frameAt hframe
      have htop : Entry userHalf 0 (q / 512 ^ 3) := by
        have htop := hentry.parent.parent.parent
        rwa [Nat.div_div_eq_div_mul, Nat.div_div_eq_div_mul] at htop
      exact h.page_ne_table hroot htop rfl ((spaces_entry hroot hentry).trans hw)
    · rintro rfl
      have howns : Owns σ (m.spaces root) frame (.root i) := hroot
      cases h.separated.unique (h.owns_of_frameAt hroot hentry hd hframe) howns
  inj := by
    intro d q d' q' frame hentry hentry' hframe hframe'
    by_cases hd : d = 3
    · by_cases hd' : d' = 3
      · exact .inr ⟨hd, hd'⟩
      · subst hd
        obtain ⟨w, hw⟩ := entryAt_of_frameAt hframe
        exact (h.page_ne_inner hroot hentry' hd' hframe' ((spaces_entry hroot hentry).trans hw)).elim
    · by_cases hd' : d' = 3
      · subst hd'
        obtain ⟨w, hw⟩ := entryAt_of_frameAt hframe'
        exact (h.page_ne_inner hroot hentry hd hframe ((spaces_entry hroot hentry').trans hw)).elim
      · have heq := h.separated.unique (h.owns_of_frameAt hroot hentry hd hframe)
          (h.owns_of_frameAt hroot hentry' hd' hframe')
        injection heq with _ hk
        exact .inl (Prod.mk.inj hk)
  notHuge := fun hentry hd htable ↦ (h.words hroot hentry htable).notHuge hd

end Accounted

/-! ## Changing one entry -/

/-- The memory `m'` differs from `m`, as far as the page maps of the address spaces
go, in the entry `(d, q)` of the space `i` only, and no entry is below it there
unless it still leads to the same table. -/
structure Retargets {ι : Type*} (m m' : Machine) (root : ι → Option ℕ) (i : ι) (d q table : ℕ) :
    Prop where
  same : ∀ {j : ι} {r' d' q' table' : ℕ}, root j = some r' → Entry userHalf d' q' →
    m.tableOf r' d' q' = some table' → ¬ (j = i ∧ d' = d ∧ q' = q) →
    m'.mem table' (q' % 512) = m.mem table' (q' % 512)
  below : m'.child table (q % 512) = m.child table (q % 512) ∨
    (∀ q', q' / 512 = q → (m.spaces root).entry i (d + 1, q') = none) ∧
      ∀ f, m'.child table (q % 512) = some f → d < 3 → ∀ k, m'.mem f k = 0#64

namespace Retargets

variable {ι : Type*} {m m' : Machine} {root : ι → Option ℕ} {i j : ι} {r r' d d' q q' table : ℕ}

theorem cell_same (h : Retargets m m' root i d q table) (hroot' : root j = some r')
    (hentry' : Entry userHalf d' q') (hne : ¬ (j = i ∧ d' = d ∧ q' = q))
    (htable' : m'.tableOf r' d' q' = m.tableOf r' d' q') :
    m'.entryAt r' d' q' = m.entryAt r' d' q' := by
  rw [entryAt, entryAt, htable']
  cases hold : m.tableOf r' d' q' with
  | none => rfl
  | some table' =>
      rw [Option.bind_some, Option.bind_some, cell, cell, child, child,
        h.same hroot' hentry' hold hne]

theorem tableOf_cases (h : Retargets m m' root i d q table) (hroot : root i = some r)
    (htable : m.tableOf r d q = some table) (hroot' : root j = some r') :
    ∀ {d' q' : ℕ}, Entry userHalf d' q' →
      m'.tableOf r' d' q' = m.tableOf r' d' q' ∨
        (j = i ∧ d' = d + 1 ∧ m'.entryAt r' d' q' = none ∧ m.entryAt r' d' q' = none ∧
          ∀ f, m'.tableOf r' d' q' = some f → ∀ k, m'.mem f k = 0#64) := by
  intro d'
  induction d' with
  | zero => exact fun _ ↦ .inl rfl
  | succ d' ih =>
      intro q' hentry'
      rw [tableOf_succ, tableOf_succ]
      rcases ih hentry'.parent with hsame | ⟨rfl, rfl, hnone', hnone, -⟩
      · by_cases hhere : j = i ∧ d' = d ∧ q' / 512 = q
        · obtain ⟨rfl, rfl, rfl⟩ := hhere
          obtain rfl := Option.some.inj (hroot.symm.trans hroot')
          rw [htable] at hsame
          have hold : m.frameAt r d' (q' / 512) = m.child table (q' / 512 % 512) := by
            rw [frameAt, htable, Option.bind_some]
          have hnew : m'.frameAt r d' (q' / 512) = m'.child table (q' / 512 % 512) := by
            rw [frameAt, hsame, Option.bind_some]
          rcases h.below with hchild | ⟨hbelow, hempty⟩
          · exact .inl (by rw [hold, hnew, hchild])
          · have hdepth := hentry'.depth
            have hzero : ∀ f, m'.child table (q' / 512 % 512) = some f → ∀ k, m'.mem f k = 0#64 :=
              fun f hf ↦ hempty f hf (by omega)
            refine .inr ⟨rfl, rfl, ?_, ?_, ?_⟩
            · rw [entryAt, tableOf_succ, hnew]
              cases hf : m'.child table (q' / 512 % 512) with
              | none => rfl
              | some f =>
                  have habsent : (m'.mem f (q' % 512)).present = false := by
                    rw [hzero f hf, present_zero]
                  rw [Option.bind_some, cell, child_of_absent habsent]
                  rfl
            · have hnone := hbelow q' rfl
              rwa [spaces_entry hroot hentry'] at hnone
            · intro f hf
              rw [hnew] at hf
              exact hzero f hf
        · refine .inl ?_
          rw [frameAt_eq, frameAt_eq, h.cell_same hroot' hentry'.parent hhere hsame]
      · refine .inl ?_
        rw [frameAt_eq, frameAt_eq, hnone', hnone]

/-- The address spaces after the change. -/
theorem spaces_eq [DecidableEq ι] (h : Retargets m m' root i d q table) (hroot : root i = some r)
    (hentry : Entry userHalf d q) (htable : m.tableOf r d q = some table) :
    m'.spaces root = (m.spaces root).set i (d, q) (m'.cell table (q % 512)) := by
  have hpoint : ∀ j k, (m'.spaces root).entry j k =
      ((m.spaces root).set i (d, q) (m'.cell table (q % 512))).entry j k := by
    rintro j ⟨d', q'⟩
    simp only [Spaces.set_entry, Prod.mk.injEq]
    by_cases hentry' : Entry userHalf d' q'
    · cases hroot' : root j with
      | none =>
          have hne : ¬ (j = i ∧ d' = d ∧ q' = q) := by
            rintro ⟨rfl, -⟩
            cases hroot.symm.trans hroot'
          rw [if_neg hne, spaces_entry_of_root hroot', spaces_entry_of_root hroot']
      | some r' =>
          rw [spaces_entry hroot' hentry', spaces_entry hroot' hentry']
          by_cases hhere : j = i ∧ d' = d ∧ q' = q
          · obtain ⟨rfl, rfl, rfl⟩ := hhere
            obtain rfl := Option.some.inj (hroot.symm.trans hroot')
            rcases h.tableOf_cases hroot htable hroot hentry with hsame | ⟨-, hd, -⟩
            · rw [if_pos ⟨rfl, rfl, rfl⟩, entryAt, hsame, htable, Option.bind_some]
            · omega
          · rw [if_neg hhere]
            rcases h.tableOf_cases hroot htable hroot' hentry' with hsame | ⟨-, -, hnone', hnone, -⟩
            · exact h.cell_same hroot' hentry' hhere hsame
            · rw [hnone', hnone]
    · have hne : ¬ (j = i ∧ d' = d ∧ q' = q) := by
        rintro ⟨-, rfl, rfl⟩
        exact hentry' hentry
      rw [if_neg hne, spaces_entry_of_not hentry', spaces_entry_of_not hentry']
  exact Spaces.ext rfl (funext fun j ↦ funext (hpoint j))

end Retargets

theorem spaces_congr {ι : Type*} {m m' : Machine} {root : ι → Option ℕ}
    (hsame : ∀ {j : ι} {r d q table : ℕ}, root j = some r → Entry userHalf d q →
      m.tableOf r d q = some table → m'.mem table (q % 512) = m.mem table (q % 512)) :
    m'.spaces root = m.spaces root ∧ ∀ {j : ι} {r d q : ℕ}, root j = some r →
      Entry userHalf d q → m'.tableOf r d q = m.tableOf r d q := by
  have hframe : ∀ {j : ι} {r : ℕ}, root j = some r → ∀ {d q : ℕ}, Entry userHalf d q →
      m'.frameAt r d q = m.frameAt r d q := by
    intro j r hroot
    apply Tree.frameAt_of_same
    intro d q table hentry htable
    rw [child, child, hsame hroot hentry htable]
  have htables : ∀ {j : ι} {r d q : ℕ}, root j = some r → Entry userHalf d q →
      m'.tableOf r d q = m.tableOf r d q := fun hroot hentry ↦
    Tree.tableOf_of_frameAt (hframe hroot) hentry
  refine ⟨Spaces.ext rfl (funext fun j ↦ funext ?_), htables⟩
  rintro ⟨d, q⟩
  by_cases hentry : Entry userHalf d q
  · cases hroot : root j with
    | none => rw [spaces_entry_of_root hroot, spaces_entry_of_root hroot]
    | some r =>
        rw [spaces_entry hroot hentry, spaces_entry hroot hentry, entryAt, entryAt,
          htables hroot hentry]
        cases htable : m.tableOf r d q with
        | none => rfl
        | some table =>
            rw [Option.bind_some, Option.bind_some, cell, cell, child, child,
              hsame hroot hentry htable]
  · rw [spaces_entry_of_not hentry, spaces_entry_of_not hentry]

end Paging
end MinOS
