import Mathlib.Data.List.Nodup
import Mathlib.Logic.Relation
import Mathlib.Tactic.Common

/-!
# Listing what lies below a place

A place has items, and some of its items lead to a further place.  The listing names every
item and after it all that lies below.  It keeps no record of where it has been: it ends
only where no place lies below itself, and it names nothing twice only where no two items
lead to the same place.
-/

namespace MinOS
namespace Hierarchy

open Relation

variable {B N : Type*}

section

variable (members : B → List N) (next : N → Option B)

/-- An item of place `b` leads to place `c`. -/
def Below (b c : B) : Prop := ∃ v ∈ members b, next v = some c

/-- The items `vs`, each followed by what lies below it. -/
inductive Listing : List N → List N → Prop where
  | nil : Listing [] []
  | leaf {v : N} {vs l : List N} (hnext : next v = none) (rest : Listing vs l) :
      Listing (v :: vs) (v :: l)
  | branch {v : N} {b : B} {vs below l : List N} (hnext : next v = some b)
      (hbelow : Listing (members b) below) (rest : Listing vs l) :
      Listing (v :: vs) (v :: (below ++ l))

/-- No item belongs to two places, and among the places below `a` no place is led to by
two items. -/
structure Tree (a : B) : Prop where
  disjoint : ∀ b c v, v ∈ members b → v ∈ members c → b = c
  nodup : ∀ b, (members b).Nodup
  parent : ∀ b c d v w, ReflTransGen (Below members next) a b →
    ReflTransGen (Below members next) a c → v ∈ members b → w ∈ members c →
    next v = some d → next w = some d → v = w

end

variable {members : B → List N} {next : N → Option B} {vs vs' l l' : List N} {a b c d : B} {v x : N}

theorem Listing.append (h : Listing members next vs l) (h' : Listing members next vs' l') :
    Listing members next (vs ++ vs') (l ++ l') := by
  induction h with
  | nil => exact h'
  | leaf hnext _ ih => exact .leaf hnext ih
  | branch hnext hbelow _ _ ih =>
      rw [List.cons_append, List.cons_append, List.append_assoc]
      exact .branch hnext hbelow ih

theorem Listing.unique (h : Listing members next vs l) (h' : Listing members next vs l') :
    l = l' := by
  induction h generalizing l' with
  | nil =>
      cases h'
      rfl
  | leaf hnext _ ih =>
      cases h' with
      | leaf _ rest => rw [ih rest]
      | branch hnext' _ _ => rw [hnext] at hnext'; cases hnext'
  | branch hnext _ _ ihbelow ih =>
      cases h' with
      | leaf hnext' _ => rw [hnext] at hnext'; cases hnext'
      | branch hnext' hbelow' rest =>
          obtain rfl := Option.some.inj (hnext.symm.trans hnext')
          rw [ihbelow hbelow', ih rest]

/-! ## A listing ends -/

theorem Listing.exists_shorter (h : Listing members next vs l) (hv : v ∈ vs)
    (hnext : next v = some b) : ∃ l', Listing members next (members b) l' ∧ l'.length < l.length := by
  induction h with
  | nil => cases hv
  | @leaf w _ _ hleaf _ ih =>
      rcases List.mem_cons.mp hv with rfl | hv
      · rw [hnext] at hleaf
        cases hleaf
      · obtain ⟨l', hl', hlength⟩ := ih hv
        exact ⟨l', hl', Nat.lt_succ_of_lt hlength⟩
  | @branch w b' _ below l hbranch hbelow _ _ ih =>
      rw [List.length_cons, List.length_append]
      rcases List.mem_cons.mp hv with rfl | hv
      · obtain rfl := Option.some.inj (hnext.symm.trans hbranch)
        exact ⟨below, hbelow, by omega⟩
      · obtain ⟨l', hl', hlength⟩ := ih hv
        exact ⟨l', hl', by omega⟩

theorem Listing.exists_of_transGen (h : Listing members next (members a) l)
    (hbelow : TransGen (Below members next) a c) :
    ∃ l', Listing members next (members c) l' ∧ l'.length < l.length := by
  induction hbelow with
  | single hlast =>
      obtain ⟨v, hv, hnext⟩ := hlast
      exact h.exists_shorter hv hnext
  | tail _ hlast ih =>
      obtain ⟨v, hv, hnext⟩ := hlast
      obtain ⟨l₁, hl₁, hlength₁⟩ := ih
      obtain ⟨l', hl', hlength⟩ := hl₁.exists_shorter hv hnext
      exact ⟨l', hl', Nat.lt_trans hlength hlength₁⟩

theorem Listing.exists_of_reflTransGen (h : Listing members next (members a) l)
    (hbelow : ReflTransGen (Below members next) a c) : ∃ l', Listing members next (members c) l' := by
  rcases reflTransGen_iff_eq_or_transGen.mp hbelow with rfl | hbelow
  · exact ⟨l, h⟩
  · obtain ⟨l', hl', -⟩ := h.exists_of_transGen hbelow
    exact ⟨l', hl'⟩

/-- What can be listed has no place below itself: its listing would be shorter than
itself. -/
theorem Listing.not_transGen_self (h : Listing members next (members a) l)
    (hbelow : ReflTransGen (Below members next) a c) : ¬ TransGen (Below members next) c c := by
  intro hcycle
  obtain ⟨l₁, hl₁⟩ := h.exists_of_reflTransGen hbelow
  obtain ⟨l₂, hl₂, hlength⟩ := hl₁.exists_of_transGen hcycle
  rw [hl₁.unique hl₂] at hlength
  exact Nat.lt_irrefl _ hlength

/-! ## What is listed -/

theorem exists_below_iff :
    (∃ c, ReflTransGen (Below members next) b c ∧ x ∈ members c) ↔
      x ∈ members b ∨ ∃ v ∈ members b, ∃ d, next v = some d ∧
        ∃ c, ReflTransGen (Below members next) d c ∧ x ∈ members c := by
  constructor
  · rintro ⟨c, hc, hx⟩
    rcases ReflTransGen.cases_head hc with rfl | ⟨d, ⟨v, hv, hnext⟩, hdc⟩
    · exact .inl hx
    · exact .inr ⟨v, hv, d, hnext, c, hdc, hx⟩
  · rintro (hx | ⟨v, hv, d, hnext, c, hdc, hx⟩)
    · exact ⟨b, .refl, hx⟩
    · exact ⟨c, .head ⟨v, hv, hnext⟩ hdc, hx⟩

theorem Listing.mem_iff (h : Listing members next vs l) :
    x ∈ l ↔ x ∈ vs ∨ ∃ v ∈ vs, ∃ d, next v = some d ∧
      ∃ c, ReflTransGen (Below members next) d c ∧ x ∈ members c := by
  induction h with
  | nil => simp
  | leaf hnext _ ih => simp [ih, hnext, or_assoc]
  | branch hnext _ _ ihbelow ih =>
      rw [List.mem_cons, List.mem_append, ih, ihbelow, ← exists_below_iff]
      simp only [List.mem_cons, exists_eq_or_imp, hnext, Option.some.injEq, exists_eq_left', or_assoc]
      exact or_congr_right or_left_comm

/-- The listing of a place names the items of all places below it. -/
theorem Listing.mem_iff_of_members (h : Listing members next (members a) l) :
    x ∈ l ↔ ∃ c, ReflTransGen (Below members next) a c ∧ x ∈ members c := by
  rw [h.mem_iff, exists_below_iff]

/-! ## Nothing is listed twice -/

/-- Two places above a third one lie above one another. -/
theorem Tree.comparable (ht : Tree members next a) (hb : ReflTransGen (Below members next) a b)
    (hc : ReflTransGen (Below members next) a c) (hbd : ReflTransGen (Below members next) b d)
    (hcd : ReflTransGen (Below members next) c d) :
    ReflTransGen (Below members next) b c ∨ ReflTransGen (Below members next) c b := by
  induction hbd with
  | refl => exact .inr hcd
  | @tail p d hbp hlast ih =>
      rcases ReflTransGen.cases_tail hcd with rfl | ⟨q, hcq, hlast'⟩
      · exact .inl (hbp.tail hlast)
      · obtain ⟨v, hv, hnext⟩ := hlast
        obtain ⟨w, hw, hnext'⟩ := hlast'
        obtain rfl := ht.parent p q d v w (hb.trans hbp) (hc.trans hcq) hv hw hnext hnext'
        obtain rfl := ht.disjoint p q v hv hw
        exact ih hcq

variable {w : N}

theorem Tree.transGen_self (ht : Tree members next a) (hb : ReflTransGen (Below members next) a b)
    (hv : v ∈ members b) (hw : w ∈ members b) (hne : v ≠ w) (hnext : next v = some c)
    (hnext' : next w = some d) (hcd : ReflTransGen (Below members next) c d) :
    TransGen (Below members next) b b := by
  rcases ReflTransGen.cases_tail hcd with rfl | ⟨p, hcp, u, hu, hlast⟩
  · exact absurd (ht.parent b b _ v w hb hb hv hw hnext hnext') hne
  · have hp : ReflTransGen (Below members next) a p := (hb.tail ⟨v, hv, hnext⟩).trans hcp
    obtain rfl := ht.parent p b d u w hp hb hu hw hlast hnext'
    obtain rfl := ht.disjoint p b u hu hw
    exact TransGen.head' ⟨v, hv, hnext⟩ hcp

theorem Tree.disjoint_below (ht : Tree members next a)
    (hacyclic : ∀ e, ReflTransGen (Below members next) a e → ¬ TransGen (Below members next) e e)
    (hb : ReflTransGen (Below members next) a b) (hv : v ∈ members b) (hw : w ∈ members b)
    (hne : v ≠ w) (hnext : next v = some c) (hnext' : next w = some d) {e : B}
    (hce : ReflTransGen (Below members next) c e) : ¬ ReflTransGen (Below members next) d e := by
  intro hde
  have hc := hb.tail ⟨v, hv, hnext⟩
  have hd := hb.tail ⟨w, hw, hnext'⟩
  rcases ht.comparable hc hd hce hde with hcd | hdc
  · exact hacyclic b hb (ht.transGen_self hb hv hw hne hnext hnext' hcd)
  · exact hacyclic b hb (ht.transGen_self hb hw hv hne.symm hnext' hnext hdc)

/-- What lies below an item of a place is none of its items. -/
theorem Tree.notMem_of_below (ht : Tree members next a)
    (hacyclic : ∀ e, ReflTransGen (Below members next) a e → ¬ TransGen (Below members next) e e)
    (hb : ReflTransGen (Below members next) a b) (hv : v ∈ members b) (hnext : next v = some c)
    (hce : ReflTransGen (Below members next) c d) (hx : x ∈ members b) : x ∉ members d := by
  intro hxd
  obtain rfl := ht.disjoint b d x hx hxd
  exact hacyclic b hb (TransGen.head' ⟨v, hv, hnext⟩ hce)

theorem Listing.notMem (h : Listing members next vs l) (ht : Tree members next a)
    (hacyclic : ∀ e, ReflTransGen (Below members next) a e → ¬ TransGen (Below members next) e e)
    (hb : ReflTransGen (Below members next) a b) (hsubset : ∀ w ∈ vs, w ∈ members b)
    (hv : v ∈ members b) (hnotMem : v ∉ vs) : v ∉ l := by
  intro hmem
  rcases h.mem_iff.mp hmem with hmem | ⟨w, hw, c, hnext, e, hce, he⟩
  · exact hnotMem hmem
  · exact ht.notMem_of_below hacyclic hb (hsubset w hw) hnext hce hv he

theorem Listing.nodup_of_subset (h : Listing members next vs l) (ht : Tree members next a)
    (hacyclic : ∀ e, ReflTransGen (Below members next) a e → ¬ TransGen (Below members next) e e)
    (hb : ReflTransGen (Below members next) a b) (hsubset : ∀ v ∈ vs, v ∈ members b)
    (hnodup : vs.Nodup) : l.Nodup := by
  induction h generalizing b with
  | nil => exact List.nodup_nil
  | leaf hnext hrest ih =>
      rw [List.forall_mem_cons] at hsubset
      rw [List.nodup_cons] at hnodup
      rw [List.nodup_cons]
      exact ⟨hrest.notMem ht hacyclic hb hsubset.2 hsubset.1 hnodup.1, ih hb hsubset.2 hnodup.2⟩
  | @branch v c vs below l hnext hbelow hrest ihbelow ih =>
      rw [List.forall_mem_cons] at hsubset
      rw [List.nodup_cons] at hnodup
      have hc := hb.tail ⟨v, hsubset.1, hnext⟩
      have hapart : ∀ x ∈ members b, x ∉ below := by
        intro x hx hmem
        obtain ⟨e, hce, he⟩ := hbelow.mem_iff_of_members.mp hmem
        exact ht.notMem_of_below hacyclic hb hsubset.1 hnext hce hx he
      have hdisjoint : below.Disjoint l := by
        intro x hxbelow hxl
        rcases hrest.mem_iff.mp hxl with hmem | ⟨w, hw, d, hnext', e, hde, he⟩
        · exact hapart x (hsubset.2 x hmem) hxbelow
        · obtain ⟨e', hce, he'⟩ := hbelow.mem_iff_of_members.mp hxbelow
          obtain rfl := ht.disjoint e e' x he he'
          have hne : v ≠ w := fun h ↦ hnodup.1 (h ▸ hw)
          exact ht.disjoint_below hacyclic hb hsubset.1 (hsubset.2 w hw) hne hnext hnext' hce hde
      rw [List.nodup_cons, List.mem_append, List.nodup_append']
      refine ⟨?_, ?_, ih hb hsubset.2 hnodup.2, hdisjoint⟩
      · rintro (hmem | hmem)
        · exact hapart v hsubset.1 hmem
        · exact hrest.notMem ht hacyclic hb hsubset.2 hsubset.1 hnodup.1 hmem
      · exact ihbelow hc (fun _ h ↦ h) (ht.nodup c)

/-- The listing of the root of a tree names nothing twice. -/
theorem Listing.nodup (h : Listing members next (members a) l) (ht : Tree members next a) :
    l.Nodup :=
  h.nodup_of_subset ht (fun _ he ↦ h.not_transGen_self he) .refl (fun _ h ↦ h) (ht.nodup a)

end Hierarchy
end MinOS
