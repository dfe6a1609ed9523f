import Mathlib.Logic.Function.Basic
import Mathlib.Order.Basic
import Mathlib.Tactic.Tauto

/-!
# Cells owned by spaces

Spaces hold cells of a common store: one as their root, and others behind entries
that carry a mark.  Every allocated cell has one owner.  Only a leaf may lead to
a cell of another space, its template's leaf at the same place, and the mark tells
the two kinds of leaves apart.
-/

namespace MinOS
namespace Ownership

variable {ι κ φ : Type*}

/-- What holds a cell. -/
inductive Owner (ι κ : Type*) where
  | root (i : ι)
  | entry (i : ι) (k : κ)

/-- The cells that each space refers to. -/
@[ext] structure Spaces (ι κ φ : Type*) where
  root : ι → Option φ
  entry : ι → κ → Option (φ × Bool)

/-- Which entries may be shared: a leaf whose mark is not the own one leads to
the cell of the template. -/
structure Policy (ι κ : Type*) where
  leaf : κ → Prop
  own : ι → Bool
  template : ι → ι

/-- The owner holds the cell for itself. -/
def Owns (σ : Policy ι κ) (E : Spaces ι κ φ) (f : φ) : Owner ι κ → Prop
  | .root i => E.root i = some f
  | .entry i k => ∃ w, E.entry i k = some (f, w) ∧ (σ.leaf k → w = σ.own i)

/-- Every allocated cell outside `base` has one owner, and shared leaves lead to
the cells of their templates. -/
structure Separated (σ : Policy ι κ) (E : Spaces ι κ φ) (alloc base : φ → Prop) : Prop where
  unique : ∀ {f : φ} {o o' : Owner ι κ}, Owns σ E f o → Owns σ E f o' → o = o'
  accounted : ∀ f, alloc f ↔ base f ∨ ∃ o, Owns σ E f o
  outside : ∀ {f : φ} {o : Owner ι κ}, base f → ¬ Owns σ E f o
  shared : ∀ {i : ι} {k : κ} {f : φ} {w : Bool}, σ.leaf k → E.entry i k = some (f, w) →
    w ≠ σ.own i → Owns σ E f (.entry (σ.template i) k)

namespace Spaces

variable [DecidableEq ι] [DecidableEq κ]

def set (E : Spaces ι κ φ) (i : ι) (k : κ) (x : Option (φ × Bool)) : Spaces ι κ φ :=
  { E with entry := Function.update E.entry i (Function.update (E.entry i) k x) }

def setRoot (E : Spaces ι κ φ) (i : ι) (r : Option φ) : Spaces ι κ φ :=
  { E with root := Function.update E.root i r }

@[simp] theorem set_root (E : Spaces ι κ φ) (i : ι) (k : κ) (x : Option (φ × Bool)) :
    (E.set i k x).root = E.root := rfl

theorem set_entry (E : Spaces ι κ φ) (i : ι) (k : κ) (x : Option (φ × Bool)) (j : ι) (l : κ) :
    (E.set i k x).entry j l = if j = i ∧ l = k then x else E.entry j l := by
  rw [set]
  dsimp only
  by_cases hj : j = i
  · subst hj
    by_cases hl : l = k
    · subst hl
      simp
    · simp [hl]
  · simp [hj]

theorem set_entry_self (E : Spaces ι κ φ) (i : ι) (k : κ) (x : Option (φ × Bool)) :
    (E.set i k x).entry i k = x := by
  rw [set_entry, if_pos ⟨rfl, rfl⟩]

theorem set_entry_of_ne (E : Spaces ι κ φ) {i j : ι} {k l : κ} (x : Option (φ × Bool))
    (h : ¬ (j = i ∧ l = k)) : (E.set i k x).entry j l = E.entry j l := by
  rw [set_entry, if_neg h]

omit [DecidableEq κ] in
@[simp] theorem setRoot_entry (E : Spaces ι κ φ) (i : ι) (r : Option φ) :
    (E.setRoot i r).entry = E.entry := rfl

omit [DecidableEq κ] in
theorem setRoot_root (E : Spaces ι κ φ) (i : ι) (r : Option φ) (j : ι) :
    (E.setRoot i r).root j = if j = i then r else E.root j := by
  simp only [setRoot, Function.update_apply]

theorem set_set (E : Spaces ι κ φ) (i : ι) (k : κ) (x y : Option (φ × Bool)) :
    (E.set i k x).set i k y = E.set i k y := by
  simp [set]

end Spaces

theorem Owns.cell_unique {σ : Policy ι κ} {E : Spaces ι κ φ} {f g : φ} {o : Owner ι κ}
    (hf : Owns σ E f o) (hg : Owns σ E g o) : f = g := by
  cases o with
  | root i => exact Option.some.inj (hf.symm.trans hg)
  | entry i k =>
      obtain ⟨w, hf, -⟩ := hf
      obtain ⟨w', hg, -⟩ := hg
      exact (Prod.mk.inj (Option.some.inj (hf.symm.trans hg))).1

namespace Separated

variable {σ : Policy ι κ} {E : Spaces ι κ φ} {alloc base : φ → Prop}

theorem alloc_of_owns (h : Separated σ E alloc base) {f : φ} {o : Owner ι κ}
    (howns : Owns σ E f o) : alloc f :=
  (h.accounted f).mpr (.inr ⟨o, howns⟩)

/-- Some leaf at this place owns the cell of a leaf. -/
theorem leaf_owner (h : Separated σ E alloc base) {i : ι} {k : κ} {f : φ} {w : Bool}
    (hleaf : σ.leaf k) (hentry : E.entry i k = some (f, w)) : ∃ j, Owns σ E f (.entry j k) := by
  by_cases hw : w = σ.own i
  · exact ⟨i, w, hentry, fun _ ↦ hw⟩
  · exact ⟨σ.template i, h.shared hleaf hentry hw⟩

/-- An entry that is no leaf owns its cell. -/
theorem owns_inner {i : ι} {k : κ} {f : φ} {w : Bool} (hleaf : ¬ σ.leaf k)
    (hentry : E.entry i k = some (f, w)) : Owns σ E f (.entry i k) :=
  ⟨w, hentry, fun h ↦ absurd h hleaf⟩

theorem alloc_of_entry (h : Separated σ E alloc base) {i : ι} {k : κ} {f : φ} {w : Bool}
    (hentry : E.entry i k = some (f, w)) : alloc f := by
  by_cases hleaf : σ.leaf k
  · obtain ⟨j, howns⟩ := h.leaf_owner hleaf hentry
    exact h.alloc_of_owns howns
  · exact h.alloc_of_owns (owns_inner hleaf hentry)

/-- A cell that no space gets joins those outside. -/
theorem join (h : Separated σ E alloc base) {f : φ} {alloc' : φ → Prop} (hfree : ¬ alloc f)
    (halloc : ∀ g, alloc' g ↔ g = f ∨ alloc g) : Separated σ E alloc' fun g ↦ base g ∨ g = f where
  unique := h.unique
  accounted := by
    intro g
    rw [halloc, h.accounted]
    tauto
  outside := by
    rintro g o (hbase | rfl) howns
    · exact h.outside hbase howns
    · exact hfree (h.alloc_of_owns howns)
  shared := h.shared

section Owners

variable {f : φ}

/-- A new owner of a cell that was not allocated. -/
theorem of_new_owner {E' : Spaces ι κ φ} (o₀ : Owner ι κ) {alloc' : φ → Prop}
    (h : Separated σ E alloc base) (hfree : ¬ alloc f)
    (howns : ∀ g o, Owns σ E' g o ↔ Owns σ E g o ∨ g = f ∧ o = o₀)
    (hleaf : ∀ j l g w, σ.leaf l → E'.entry j l = some (g, w) → w ≠ σ.own j →
      E.entry j l = some (g, w))
    (halloc : ∀ g, alloc' g ↔ g = f ∨ alloc g) : Separated σ E' alloc' base where
  unique := by
    intro g o o' ho ho'
    rcases (howns g o).mp ho with ho | ⟨rfl, rfl⟩ <;>
      rcases (howns _ o').mp ho' with ho' | ⟨heq, rfl⟩
    · exact h.unique ho ho'
    · exact absurd (heq ▸ h.alloc_of_owns ho) hfree
    · exact absurd (h.alloc_of_owns ho') hfree
    · rfl
  accounted := by
    intro g
    rw [halloc, h.accounted]
    constructor
    · rintro (rfl | hbase | ⟨o, ho⟩)
      · exact .inr ⟨o₀, (howns _ _).mpr (.inr ⟨rfl, rfl⟩)⟩
      · exact .inl hbase
      · exact .inr ⟨o, (howns g o).mpr (.inl ho)⟩
    · rintro (hbase | ⟨o, ho⟩)
      · exact .inr (.inl hbase)
      · rcases (howns g o).mp ho with ho | ⟨rfl, -⟩
        · exact .inr (.inr ⟨o, ho⟩)
        · exact .inl rfl
  outside := by
    intro g o hbase ho
    rcases (howns g o).mp ho with ho | ⟨rfl, -⟩
    · exact h.outside hbase ho
    · exact hfree ((h.accounted _).mpr (.inl hbase))
  shared := by
    intro j l g v hl hentry hv
    exact (howns _ _).mpr (.inl (h.shared hl (hleaf j l g v hl hentry hv) hv))

/-- An owner gives its cell back. -/
theorem of_lost_owner {E' : Spaces ι κ φ} (o₀ : Owner ι κ) {alloc' : φ → Prop}
    (h : Separated σ E alloc base) (ho₀ : Owns σ E f o₀)
    (howns : ∀ g o, Owns σ E' g o ↔ Owns σ E g o ∧ o ≠ o₀)
    (hleaf : ∀ j l g w, σ.leaf l → E'.entry j l = some (g, w) → w ≠ σ.own j →
      E.entry j l = some (g, w) ∧ .entry (σ.template j) l ≠ o₀)
    (halloc : ∀ g, alloc' g ↔ g ≠ f ∧ alloc g) : Separated σ E' alloc' base where
  unique := by
    intro g o o' ho ho'
    exact h.unique ((howns g o).mp ho).1 ((howns g o').mp ho').1
  accounted := by
    intro g
    rw [halloc, h.accounted]
    constructor
    · rintro ⟨hne, hbase | ⟨o, ho⟩⟩
      · exact .inl hbase
      · refine .inr ⟨o, (howns g o).mpr ⟨ho, ?_⟩⟩
        rintro rfl
        exact hne (ho.cell_unique ho₀)
    · rintro (hbase | ⟨o, ho⟩)
      · refine ⟨?_, .inl hbase⟩
        rintro rfl
        exact h.outside hbase ho₀
      · obtain ⟨ho, hne⟩ := (howns g o).mp ho
        refine ⟨?_, .inr ⟨o, ho⟩⟩
        rintro rfl
        exact hne (h.unique ho ho₀)
  outside := by
    intro g o hbase ho
    exact h.outside hbase ((howns g o).mp ho).1
  shared := by
    intro j l g v hl hentry hv
    obtain ⟨hold, hne⟩ := hleaf j l g v hl hentry hv
    exact (howns _ _).mpr ⟨h.shared hl hold hv, hne⟩

/-- The owners stay, and the shared leaves still lead to cells of their templates. -/
theorem of_same_owners {E' : Spaces ι κ φ} (h : Separated σ E alloc base)
    (howns : ∀ g o, Owns σ E' g o ↔ Owns σ E g o)
    (hleaf : ∀ j l g w, σ.leaf l → E'.entry j l = some (g, w) → w ≠ σ.own j →
      Owns σ E g (.entry (σ.template j) l)) : Separated σ E' alloc base where
  unique := by
    intro g o o' ho ho'
    exact h.unique ((howns g o).mp ho) ((howns g o').mp ho')
  accounted := by
    intro g
    rw [h.accounted]
    exact or_congr Iff.rfl (exists_congr fun o ↦ (howns g o).symm)
  outside := by
    intro g o hbase ho
    exact h.outside hbase ((howns g o).mp ho)
  shared := by
    intro j l g v hl hentry hv
    exact (howns _ _).mpr (hleaf j l g v hl hentry hv)

end Owners

section Update

variable [DecidableEq ι] [DecidableEq κ] {i : ι} {k : κ} {f : φ} {w : Bool}

theorem owns_set_of_ne (x : Option (φ × Bool)) (g : φ) {o : Owner ι κ} (ho : o ≠ .entry i k) :
    Owns σ (E.set i k x) g o ↔ Owns σ E g o := by
  cases o with
  | root j => rfl
  | entry j l =>
      have hne : ¬ (j = i ∧ l = k) := fun heq ↦ ho (by rw [heq.1, heq.2])
      rw [Owns, Spaces.set_entry_of_ne E x hne]
      rfl

/-- A fresh cell behind an entry that led nowhere. -/
theorem set_private {alloc' : φ → Prop} (h : Separated σ E alloc base)
    (hnone : E.entry i k = none) (hfree : ¬ alloc f) (hown : σ.leaf k → w = σ.own i)
    (halloc : ∀ g, alloc' g ↔ g = f ∨ alloc g) :
    Separated σ (E.set i k (some (f, w))) alloc' base := by
  refine h.of_new_owner (.entry i k) hfree ?_ ?_ halloc
  · intro g o
    by_cases ho : o = .entry i k
    · subst ho
      constructor
      · rintro ⟨v, hv, -⟩
        rw [Spaces.set_entry_self] at hv
        exact .inr ⟨(Prod.mk.inj (Option.some.inj hv)).1.symm, rfl⟩
      · rintro (⟨v, hv, -⟩ | ⟨rfl, -⟩)
        · rw [hnone] at hv
          cases hv
        · exact ⟨w, Spaces.set_entry_self .., hown⟩
    · rw [owns_set_of_ne _ _ ho]
      exact ⟨.inl, fun hor ↦ hor.resolve_right fun heq ↦ ho heq.2⟩
  · intro j l g v hl hentry hv
    by_cases heq : j = i ∧ l = k
    · obtain ⟨rfl, rfl⟩ := heq
      rw [Spaces.set_entry_self] at hentry
      obtain ⟨-, rfl⟩ := Prod.mk.inj (Option.some.inj hentry)
      exact absurd (hown hl) hv
    · rwa [Spaces.set_entry_of_ne E _ heq] at hentry

theorem owns_set_of_shared {x : Option (φ × Bool)}
    (hold : ∀ g, ¬ Owns σ E g (.entry i k)) (hnew : ∀ g v, x = some (g, v) → σ.leaf k ∧ v ≠ σ.own i)
    (g : φ) (o : Owner ι κ) : Owns σ (E.set i k x) g o ↔ Owns σ E g o := by
  by_cases ho : o = .entry i k
  · subst ho
    refine iff_of_false ?_ (hold g)
    rintro ⟨v, hv, hown⟩
    rw [Spaces.set_entry_self] at hv
    obtain ⟨hleaf, hne⟩ := hnew g v hv
    exact hne (hown hleaf)
  · exact owns_set_of_ne x g ho

theorem set_shared (h : Separated σ E alloc base) (hnone : E.entry i k = none) (hleaf : σ.leaf k)
    (hw : w ≠ σ.own i) (htemplate : Owns σ E f (.entry (σ.template i) k)) :
    Separated σ (E.set i k (some (f, w))) alloc base := by
  refine h.of_same_owners (owns_set_of_shared ?_ ?_) ?_
  · rintro g ⟨v, hv, -⟩
    rw [hnone] at hv
    cases hv
  · intro g v hv
    obtain ⟨-, rfl⟩ := Prod.mk.inj (Option.some.inj hv)
    exact ⟨hleaf, hw⟩
  · intro j l g v hl hentry hv
    by_cases heq : j = i ∧ l = k
    · obtain ⟨rfl, rfl⟩ := heq
      rw [Spaces.set_entry_self] at hentry
      obtain ⟨rfl, -⟩ := Prod.mk.inj (Option.some.inj hentry)
      exact htemplate
    · rw [Spaces.set_entry_of_ne E _ heq] at hentry
      exact h.shared hl hentry hv

theorem unset_shared (h : Separated σ E alloc base) (hentry : E.entry i k = some (f, w))
    (hleaf : σ.leaf k) (hw : w ≠ σ.own i) : Separated σ (E.set i k none) alloc base := by
  refine h.of_same_owners (owns_set_of_shared ?_ (by simp)) ?_
  · rintro g ⟨v, hv, hown⟩
    obtain ⟨-, rfl⟩ := Prod.mk.inj (Option.some.inj (hentry.symm.trans hv))
    exact hw (hown hleaf)
  · intro j l g v hl hentry' hv
    by_cases heq : j = i ∧ l = k
    · obtain ⟨rfl, rfl⟩ := heq
      rw [Spaces.set_entry_self] at hentry'
      cases hentry'
    · rw [Spaces.set_entry_of_ne E _ heq] at hentry'
      exact h.shared hl hentry' hv

theorem unset_private {alloc' : φ → Prop} (h : Separated σ E alloc base)
    (howns : Owns σ E f (.entry i k)) (halone : ∀ j, σ.template j ≠ i)
    (halloc : ∀ g, alloc' g ↔ g ≠ f ∧ alloc g) : Separated σ (E.set i k none) alloc' base := by
  refine h.of_lost_owner _ howns ?_ ?_ halloc
  · intro g o
    by_cases ho : o = .entry i k
    · subst ho
      refine iff_of_false ?_ (by simp)
      rintro ⟨v, hv, -⟩
      rw [Spaces.set_entry_self] at hv
      cases hv
    · rw [owns_set_of_ne _ _ ho]
      exact ⟨fun hg ↦ ⟨hg, ho⟩, And.left⟩
  · intro j l g v hl hentry hv
    by_cases heq : j = i ∧ l = k
    · obtain ⟨rfl, rfl⟩ := heq
      rw [Spaces.set_entry_self] at hentry
      cases hentry
    · rw [Spaces.set_entry_of_ne E _ heq] at hentry
      refine ⟨hentry, fun heq' ↦ ?_⟩
      injection heq' with htemplate
      exact halone j htemplate

/-! ### Roots -/

omit [DecidableEq κ]

theorem owns_setRoot_of_ne (r : Option φ) (g : φ) {o : Owner ι κ} (ho : o ≠ .root i) :
    Owns σ (E.setRoot i r) g o ↔ Owns σ E g o := by
  cases o with
  | root j =>
      have hne : j ≠ i := fun heq ↦ ho (by rw [heq])
      rw [Owns, Spaces.setRoot_root, if_neg hne]
      rfl
  | entry j l => rfl

theorem set_root {alloc' : φ → Prop} (h : Separated σ E alloc base) (hnone : E.root i = none)
    (hfree : ¬ alloc f) (halloc : ∀ g, alloc' g ↔ g = f ∨ alloc g) :
    Separated σ (E.setRoot i (some f)) alloc' base := by
  refine h.of_new_owner (.root i) hfree ?_ (fun _ _ _ _ _ hentry _ ↦ hentry) halloc
  intro g o
  by_cases ho : o = .root i
  · subst ho
    rw [Owns, Owns, Spaces.setRoot_root, if_pos rfl, hnone]
    simp [eq_comm]
  · rw [owns_setRoot_of_ne _ _ ho]
    exact ⟨.inl, fun hor ↦ hor.resolve_right fun heq ↦ ho heq.2⟩

theorem unset_root {alloc' : φ → Prop} (h : Separated σ E alloc base) (hroot : E.root i = some f)
    (halloc : ∀ g, alloc' g ↔ g ≠ f ∧ alloc g) : Separated σ (E.setRoot i none) alloc' base := by
  refine h.of_lost_owner (.root i) hroot ?_ (fun _ _ _ _ _ hentry _ ↦ ⟨hentry, nofun⟩) halloc
  intro g o
  by_cases ho : o = .root i
  · subst ho
    rw [Owns, Owns, Spaces.setRoot_root, if_pos rfl]
    simp
  · rw [owns_setRoot_of_ne _ _ ho]
    exact ⟨fun hg ↦ ⟨hg, ho⟩, And.left⟩

end Update

end Separated

/-! ## Cells of other spaces -/

/-- The space of an owner. -/
def Owner.space : Owner ι κ → ι
  | root i => i
  | entry i _ => i

/-- Another space than `i` holds the cell, or it is one of `base`. -/
def Foreign (σ : Policy ι κ) (E : Spaces ι κ φ) (base : φ → Prop) (i : ι) (f : φ) : Prop :=
  base f ∨ ∃ o, Owns σ E f o ∧ o.space ≠ i

section Foreign

variable {σ : Policy ι κ} {E E' : Spaces ι κ φ} {alloc base : φ → Prop} {i : ι} {f : φ}
  {o : Owner ι κ}

theorem Separated.alloc_of_foreign (h : Separated σ E alloc base) (hf : Foreign σ E base i f) :
    alloc f := by
  rcases hf with hbase | ⟨o, ho, -⟩
  · exact (h.accounted f).mpr (.inl hbase)
  · exact h.alloc_of_owns ho

theorem Separated.not_foreign (h : Separated σ E alloc base) (ho : Owns σ E f o)
    (hspace : o.space = i) : ¬ Foreign σ E base i f := by
  rintro (hbase | ⟨o', ho', hne⟩)
  · exact h.outside hbase ho
  · exact hne (h.unique ho' ho ▸ hspace)

theorem owns_congr (hroot : E'.root o.space = E.root o.space)
    (hentry : E'.entry o.space = E.entry o.space) : Owns σ E' f o ↔ Owns σ E f o := by
  cases o with
  | root j => exact iff_of_eq (congrArg (· = some f) hroot)
  | entry j k =>
      have hk : E'.entry j k = E.entry j k := congrFun hentry k
      rw [Owns, Owns, hk]

/-- The cells of other spaces stay the same while only one space changes. -/
theorem foreign_congr (hroot : ∀ j, j ≠ i → E'.root j = E.root j)
    (hentry : ∀ j, j ≠ i → E'.entry j = E.entry j) :
    Foreign σ E' base i f ↔ Foreign σ E base i f := by
  refine or_congr_right (exists_congr fun o ↦ and_congr_left fun hne ↦ ?_)
  exact owns_congr (hroot _ hne) (hentry _ hne)

end Foreign
end Ownership
end MinOS
