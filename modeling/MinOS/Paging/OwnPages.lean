import MinOS.Paging.Change
import MinOS.Paging.Content
import MinOS.Paging.Copy

/-!
# Page maps of one owner

`SetupPageMaps`, a copy of a page and stores keep the frames of the address spaces
accounted for.
-/

namespace MinOS
namespace Ownership

/-- Only entries in `D` of one space may differ. -/
structure Spaces.ChangesOnly {ι κ φ : Type*} (i : ι) (D : Set κ) (E E' : Spaces ι κ φ) : Prop where
  root : E'.root = E.root
  same : ∀ {j : ι} {k : κ}, (j = i → k ∉ D) → E'.entry j k = E.entry j k

namespace Spaces.ChangesOnly

variable {ι κ φ : Type*} {i : ι} {D D' : Set κ} {E E' E'' : Spaces ι κ φ}

theorem refl (i : ι) (D : Set κ) (E : Spaces ι κ φ) : ChangesOnly i D E E := ⟨rfl, fun _ ↦ rfl⟩

theorem trans (h : ChangesOnly i D E E') (h' : ChangesOnly i D E' E'') : ChangesOnly i D E E'' :=
  ⟨h'.root.trans h.root, fun hout ↦ (h'.same hout).trans (h.same hout)⟩

theorem mono (h : ChangesOnly i D E E') (hsub : D ⊆ D') : ChangesOnly i D' E E' :=
  ⟨h.root, fun hout ↦ h.same fun hj hin ↦ hout hj (hsub hin)⟩

theorem set [DecidableEq ι] [DecidableEq κ] {k : κ} (hk : k ∈ D) (x : Option (φ × Bool)) :
    ChangesOnly i D E (E.set i k x) where
  root := rfl
  same := by
    intro j l hout
    apply Spaces.set_entry_of_ne
    rintro ⟨rfl, rfl⟩
    exact hout rfl hk

end Spaces.ChangesOnly
end Ownership

namespace Paging

open PageMapEntry Machine Ownership

variable {ι : Type*} {σ : Policy ι (ℕ × ℕ)} {m m' : Machine} {root : ι → Option ℕ}
  {base : ℕ → Prop} {i j : ι} {r d q table frame : ℕ} {w : Bool}

/-- The table of an entry, read off the address spaces. -/
theorem tableOf_eq_of_entry (hroot : root i = some r) (hentry : Entry userHalf d q)
    (hsame : ∀ d₀, d = d₀ + 1 →
      (m'.spaces root).entry i (d₀, q / 512) = (m.spaces root).entry i (d₀, q / 512)) :
    m'.tableOf r d q = m.tableOf r d q := by
  cases d with
  | zero => rfl
  | succ d =>
      have h := hsame d rfl
      rw [spaces_entry hroot hentry.parent, spaces_entry hroot hentry.parent] at h
      rw [tableOf_succ, tableOf_succ, frameAt_eq, frameAt_eq, h]

theorem frameAt_of_entry (hroot : root i = some r) (hentry : Entry userHalf d q)
    (h : (m.spaces root).entry i (d, q) = some (frame, w)) : m.frameAt r d q = some frame := by
  rw [spaces_entry hroot hentry] at h
  rw [frameAt_eq, h]
  rfl

/-- The word is in no user half: its frame belongs to no space, or it is in the lower half of a
PML4. -/
def Outside (root : ι → Option ℕ) (base : ℕ → Prop) (f k : ℕ) : Prop :=
  base f ∨ k < 256 ∧ ∃ j, root j = some f

namespace Accounted

variable {f k : ℕ}

theorem outside_ne_place (h : Accounted σ m root base) (hroot : root i = some r)
    (hentry : Entry userHalf d q) (htable : m.tableOf r d q = some table)
    (hout : Outside root base f k) : ¬ (f = table ∧ k = q % 512) := by
  rintro ⟨rfl, rfl⟩
  rcases hout with hbase | ⟨hlow, j, hj⟩
  · exact h.separated.outside hbase (h.owns_table hroot hentry htable)
  · have htop : Entry userHalf 0 256 := ⟨by decide, by decide, by simp [userHalf]⟩
    obtain ⟨-, rfl, -⟩ := h.table_unique hroot hentry htable hj htop rfl
    obtain ⟨hmod, hhigh⟩ := top_of_entry hentry
    omega

theorem outside_ne_free (h : Accounted σ m root base) (hout : Outside root base f k)
    (hfree : frame ∈ m.memoryManager.freeFrames) : f ≠ frame := by
  rintro rfl
  refine not_allocated_of_free hfree ?_
  rcases hout with hbase | ⟨-, j, hj⟩
  · exact (h.separated.accounted f).mpr (.inl hbase)
  · exact h.separated.alloc_of_owns (o := .root j) hj

theorem outside_ne_page (h : Accounted σ m root base) (hout : Outside root base f k) {p : ℕ}
    (hpage : (m.spaces root).entry j (3, p) = some (frame, w)) : f ≠ frame := by
  rintro rfl
  obtain ⟨j', howns⟩ := h.separated.leaf_owner ((h.leaf _).mpr rfl) hpage
  rcases hout with hbase | ⟨-, l, hl⟩
  · exact h.separated.outside hbase howns
  · have hown : Owns σ (m.spaces root) f (.root l) := hl
    cases h.separated.unique howns hown

end Accounted

/-- The frames stay accounted for, and only entries in `D` of one space may have changed. -/
structure Updates (σ : Policy ι (ℕ × ℕ)) (root : ι → Option ℕ) (base : ℕ → Prop) (i : ι)
    (D : Set (ℕ × ℕ)) (m m' : Machine) : Prop where
  cr3 : m'.cr3 = m.cr3
  accounted : Accounted σ m' root base
  changes : Spaces.ChangesOnly i D (m.spaces root) (m'.spaces root)
  outside : ∀ {f k : ℕ}, Outside root base f k → m'.mem f k = m.mem f k

namespace Updates

variable {D D' : Set (ℕ × ℕ)} {m'' : Machine}

theorem refl (h : Accounted σ m root base) (i : ι) (D : Set (ℕ × ℕ)) :
    Updates σ root base i D m m :=
  ⟨rfl, h, .refl i D _, fun _ ↦ rfl⟩

theorem trans (h : Updates σ root base i D m m') (h' : Updates σ root base i D m' m'') :
    Updates σ root base i D m m'' :=
  ⟨h'.cr3.trans h.cr3, h'.accounted, h.changes.trans h'.changes,
    fun hout ↦ (h'.outside hout).trans (h.outside hout)⟩

theorem mono (h : Updates σ root base i D m m') (hsub : D ⊆ D') : Updates σ root base i D' m m' :=
  ⟨h.cr3, h.accounted, h.changes.mono hsub, h.outside⟩

end Updates

/-- The entries of the user half at whose pages the space has none but its own. -/
def ownEntries (σ : Policy ι (ℕ × ℕ)) (E : Spaces ι (ℕ × ℕ) ℕ) (i : ι) : EntrySet where
  Mem d q := Entry userHalf d q ∧ (d = 3 → ∀ f w, E.entry i (3, q) = some (f, w) → w = σ.own i)
  entry h := ⟨h.1.depth, h.1.lt, trivial⟩
  parent := by
    intro d q h
    refine ⟨h.1.parent, ?_⟩
    rintro rfl
    exact absurd h.1.depth (by decide)

/-- What visits of the entries in `V` leave. -/
structure Visited (σ : Policy ι (ℕ × ℕ)) (root : ι → Option ℕ) (base : ℕ → Prop) (i : ι)
    (m m' : Machine) (V : Finset (ℕ × ℕ)) : Prop extends Updates σ root base i V m m' where
  own : ∀ {p f : ℕ} {w : Bool}, (m'.spaces root).entry i (3, p) = some (f, w) →
    (m.spaces root).entry i (3, p) = some (f, w) ∨ w = σ.own i

theorem Visited.refl (h : Accounted σ m root base) (i : ι) : Visited σ root base i m m ∅ where
  toUpdates := .refl h i _
  own := .inl

theorem EntrySet.IsTree.mono {E E' : EntrySet} (h : E'.IsTree m r)
    (hsub : ∀ {d q}, E.Mem d q → E'.Mem d q) : E.IsTree m r where
  rootAllocated := h.rootAllocated
  rangeEnd := h.rangeEnd
  allocated := fun hmem ↦ h.allocated (hsub hmem)
  ne_root := fun hmem ↦ h.ne_root (hsub hmem)
  inj := fun hmem hmem' ↦ h.inj (hsub hmem) (hsub hmem')
  notHuge := fun hmem ↦ h.notHuge (hsub hmem)

theorem userWord_flags {e : PageMapEntry} (h : UserWord d e) (w : Bool) :
    UserWord d ((e.setFlag 2 true).setFlag 1 w) where
  notHuge := by
    intro hd
    rw [hugePage_setFlag _ (by decide) (by decide), hugePage_setFlag _ (by decide) (by decide)]
    exact h.notHuge hd
  user := fun _ ↦ user_flags e w

theorem userWord_attach {e : PageMapEntry} (h : UserWord d e) (frame : ℕ) (w : Bool) :
    UserWord d ((((e.setPointer frame).setFlag 0 true).setFlag 2 true).setFlag 1 w) where
  notHuge := by
    intro hd
    rw [hugePage_setFlag _ (by decide) (by decide), hugePage_setFlag _ (by decide) (by decide),
      hugePage_setFlag _ (by decide) (by decide), hugePage_setPointer]
    exact h.notHuge hd
  user := fun _ ↦ user_flags _ w

theorem Visited.isTree {V : Finset (ℕ × ℕ)} (h : Visited σ root base i m m' V) (hroot : root i = some r) :
    (ownEntries σ (m.spaces root) i).IsTree m' r :=
  (h.accounted.tree hroot).isTree.mono And.left

section Visit

variable [DecidableEq ι] {m₁ m₂ : Machine} {V : Finset (ℕ × ℕ)}

/-- A visit that assigns the flags of an entry that is present changes no flag. -/
theorem Visited.flags (h : Visited σ root base i m m₁ V) (hroot : root i = some r)
    (hmem : (ownEntries σ (m.spaces root) i).Mem d q) (htable : m₁.tableOf r d q = some table)
    (hframe : m₁.child table (q % 512) = some frame) :
    Visited σ root base i m (m₁.setFlags table (q % 512) (if d = 3 then σ.own i else true)) V := by
  obtain ⟨hentry, hleaf⟩ := hmem
  have hcell : m₁.cell table (q % 512) = some (frame, (m₁.mem table (q % 512)).writable) := by
    rw [cell, hframe, Option.map_some]
  have hold : (m₁.spaces root).entry i (d, q) =
      some (frame, (m₁.mem table (q % 512)).writable) := by
    rw [Accounted.entry_eq_cell hroot hentry htable, hcell]
  have hwritable : (m₁.mem table (q % 512)).writable = if d = 3 then σ.own i else true := by
    split_ifs with hd
    · subst hd
      rcases h.own hold with hfirst | hown
      · exact hleaf rfl frame _ hfirst
      · exact hown
    · exact h.accounted.inner hd hold
  have hsame : (m₁.setFlags table (q % 512) (if d = 3 then σ.own i else true)).cell table
      (q % 512) = m₁.cell table (q % 512) := by
    rw [hcell, cell, child_setFlags, hframe, Option.map_some, mem_setFlags, if_pos ⟨rfl, rfl⟩,
      writable_flags, hwritable]
  obtain ⟨haccounted, hspaces⟩ := h.accounted.reword hroot hentry htable
    (fun g k ↦ m₁.mem_setFlags table (q % 512) _ g k) rfl hsame
    (userWord_flags (h.accounted.words hroot hentry htable) _)
  refine ⟨⟨h.cr3, haccounted, hspaces ▸ h.changes, fun hout ↦ ?_⟩, hspaces ▸ h.own⟩
  rw [mem_setFlags, if_neg (h.accounted.outside_ne_place hroot hentry htable hout)]
  exact h.outside hout

/-- A visit that attaches a fresh frame. -/
theorem Visited.attach (h : Visited σ root base i m m₁ V) (hroot : root i = some r)
    (hentry : Entry userHalf d q) (htable : m₁.tableOf r d q = some table)
    (hfree : frame ∈ m₁.memoryManager.freeFrames) (habsent : m₁.child table (q % 512) = none) :
    Visited σ root base i m ((m₁.attach table (q % 512) frame).setFlags table (q % 512)
      (if d = 3 then σ.own i else true)) (insert (d, q) V) := by
  have hne := h.accounted.free_ne_table hroot hentry htable hfree
  have hlt := BitmapMemoryManager.lt_of_mem_freeFrames h.accounted.rangeEnd hfree
  have hnone : (m₁.spaces root).entry i (d, q) = none := by
    rw [Accounted.entry_eq_cell hroot hentry htable, cell, habsent, Option.map_none]
  have hmem : ∀ g k, ((m₁.attach table (q % 512) frame).setFlags table (q % 512)
      (if d = 3 then σ.own i else true)).mem g k =
        if g = table ∧ k = q % 512 then
          ((((m₁.mem table (q % 512)).setPointer frame).setFlag 0 true).setFlag 2 true).setFlag 1
            (if d = 3 then σ.own i else true)
        else if g = frame then 0#64 else m₁.mem g k := by
    intro g k
    rw [mem_setFlags, mem_attach m₁ hne, mem_attach m₁ hne]
    simp only [and_self, if_true]
    split_ifs <;> rfl
  obtain ⟨haccounted, hspaces⟩ := h.accounted.link hroot hentry htable hfree hmem rfl
    (by rw [present_flags, present_setFlag_zero])
    (by rw [pointer_setFlag _ (by decide), pointer_setFlag _ (by decide),
      pointer_setFlag _ (by decide), pointer_setPointer _ hlt])
    (userWord_attach (h.accounted.words hroot hentry htable) frame _)
    (fun _ ↦ rfl) (fun hd ↦ by rw [writable_flags, if_pos hd])
    (fun hd ↦ by rw [writable_flags, if_neg hd]) (h.accounted.cleared_of_none hnone)
    (fun q' hq' ↦ spaces_below_none hnone hq')
  refine ⟨⟨h.cr3, haccounted, ?_, fun hout ↦ ?_⟩, ?_⟩
  · rw [hspaces]
    have hin : (d, q) ∈ (↑(insert (d, q) V) : Set (ℕ × ℕ)) := by simp
    exact (h.changes.mono (by simp)).trans (.set hin _)
  · rw [hmem, if_neg (h.accounted.outside_ne_place hroot hentry htable hout),
      if_neg (h.accounted.outside_ne_free hout hfree)]
    exact h.outside hout
  · intro p f w hf
    rw [hspaces] at hf
    by_cases hhere : i = i ∧ (3, p) = (d, q)
    · obtain ⟨rfl, rfl⟩ := Prod.mk.inj hhere.2
      rw [Spaces.set_entry_self, writable_flags, if_pos rfl] at hf
      exact .inr (Prod.mk.inj (Option.some.inj hf)).2.symm
    · rw [Spaces.set_entry_of_ne _ _ hhere] at hf
      exact h.own hf

theorem Visited.visitKeeps (m : Machine) (hroot : root i = some r) :
    (ownEntries σ (m.spaces root) i).VisitKeeps r (σ.own i) (Visited σ root base i m) := by
  intro m₁ m₂ V d q table frame h hmem htable hset
  rcases visit_cases htable hset with ⟨hframe, rfl⟩ | ⟨hfree, habsent, rfl⟩
  · have hflags := h.flags hroot hmem htable ((frameAt_eq_some htable).mp hframe)
    exact ⟨hflags.toUpdates.mono (by simp), hflags.own⟩
  · exact h.attach hroot hmem.1 htable hfree habsent

/-- `SetupPageMaps` for pages at which the space has none but its own. -/
theorem Accounted.setupPageMaps (h : Accounted σ m root base) (hroot : root i = some m.cr3)
    {addr : LinearAddress4Level} (haddr : addr.Valid) {n : ℕ}
    (hpages : ∀ p, addr.pageNumber ≤ p → p < addr.pageNumber + n → p < 512 ^ 4 →
      p / 512 ^ 3 ∈ userHalf ∧
        ∀ f w, (m.spaces root).entry i (3, p) = some (f, w) → w = σ.own i) :
    ∃ V ⊆ entriesFrom 0 addr.pageNumber (min (addr.pageNumber + n) (512 ^ 4)),
      Visited σ root base i m (m.setupPageMaps addr n (σ.own i)).machine V := by
  have hwalk := (ownEntries σ (m.spaces root) i).setupPageMaps_walked (V := ∅)
    (Visited.visitKeeps m hroot) (fun m' V h ↦ h.isTree hroot) (Visited.refl h i) haddr
    fun p hlow hhigh hlt ↦ ⟨⟨by decide, hlt, (hpages p hlow hhigh hlt).1⟩,
      fun _ ↦ (hpages p hlow hhigh hlt).2⟩
  cases hresult : (m.setupPageMaps addr n (σ.own i)).result with
  | ok k =>
      have hvisited := (hwalk.ok k hresult).2
      rw [Finset.empty_union] at hvisited
      exact ⟨_, Finset.Subset.refl _, hvisited⟩
  | error err =>
      obtain ⟨-, -, ⟨V, hsub, hvisited⟩, -⟩ := hwalk.error err hresult
      rw [Finset.empty_union] at hsub
      exact ⟨V, hsub, hvisited⟩

end Visit

/-! ## Stores -/

theorem entry_eq_pageEntry (hroot : root i = some m.cr3) {p : ℕ} (hentry : Entry userHalf 3 p) :
    (m.spaces root).entry i (3, p) =
      (pageEntry m m.cr3 p).map fun e ↦ (e.pointer, e.writable) := by
  rw [spaces_entry hroot hentry, entryAt, pageEntry]
  cases m.tableOf m.cr3 3 p with
  | none => rfl
  | some table =>
      simp only [Option.bind_some, cell, child]
      split_ifs <;> rfl

theorem entry_pageOf {vaddr : ℕ} (hlow : 2 ^ 64 - 2 ^ 47 ≤ vaddr) (hlt : vaddr < 2 ^ 64) :
    Entry userHalf 3 (pageOf vaddr) := by
  refine ⟨by decide, ?_, ?_⟩
  · simp only [pageOf]
    omega
  · change 256 ≤ pageOf vaddr / 512 ^ 3
    simp only [pageOf]
    omega

section Stores

variable (h : Accounted σ m root base) (hroot : root i = some m.cr3)

include h hroot

theorem Accounted.page_eq {p : ℕ} (hentry : Entry userHalf 3 p) :
    m.page p = (pageEntry m m.cr3 p).map fun e ↦ (0, e) :=
  page_of_mem (h.tree hroot).isTree hentry

/-- An address of the user half that is translated leads to a page of the space. -/
theorem Accounted.exists_page {vaddr phys : ℕ} (hlow : 2 ^ 64 - 2 ^ 47 ≤ vaddr)
    (hlt : vaddr < 2 ^ 64) (hphys : m.translate vaddr = some phys) :
    ∃ e : PageMapEntry, phys = e.pointer * 4096 + vaddr % 4096 ∧
      (m.spaces root).entry i (3, pageOf vaddr) = some (e.pointer, e.writable) := by
  have hentry := entry_pageOf hlow hlt
  have hcanon : Canonical vaddr := .inr hlow
  have hpage := h.page_eq hroot hentry
  cases hleaf : pageEntry m m.cr3 (pageOf vaddr) with
  | none =>
      rw [hleaf, Option.map_none] at hpage
      rw [translate_eq hcanon, hpage, Option.map_none] at hphys
      cases hphys
  | some e =>
      rw [hleaf, Option.map_some] at hpage
      rw [translate_page hcanon hpage] at hphys
      refine ⟨e, (Option.some.inj hphys).symm, ?_⟩
      rw [entry_eq_pageEntry hroot hentry, hleaf, Option.map_some]

/-- A store to the user half writes to pages only. -/
theorem Accounted.storeBytes {bytes : List UInt8} {vaddr : ℕ}
    (hfit : bytes ≠ [] → 2 ^ 64 - 2 ^ 47 ≤ vaddr ∧ vaddr + bytes.length ≤ 2 ^ 64)
    (hstore : m.storeBytes vaddr bytes = some m') : Updates σ root base i ∅ m m' := by
  induction bytes generalizing m vaddr with
  | nil =>
      obtain rfl := Option.some.inj hstore
      exact .refl h i ∅
  | cons b bytes ih =>
      obtain ⟨m₁, hbyte, hrest⟩ := Option.bind_eq_some_iff.mp hstore
      obtain ⟨phys, hphys, rfl⟩ := Option.map_eq_some_iff.mp hbyte
      obtain ⟨hlow, hend⟩ := hfit (List.cons_ne_nil b bytes)
      rw [List.length_cons] at hend
      obtain ⟨e, hoffset, hentry⟩ := h.exists_page hroot hlow (by omega) hphys
      have hframe : phys / 4096 = e.pointer := by omega
      obtain ⟨h₁, hspaces₁⟩ := h.setEntry_page hentry (phys % 4096 / 8)
        (setByte (m.mem (phys / 4096) (phys % 4096 / 8)) (phys % 8) b)
      rw [← hframe] at h₁ hspaces₁
      have hfirst : Updates σ root base i ∅ m (m.setEntry (phys / 4096) (phys % 4096 / 8)
          (setByte (m.mem (phys / 4096) (phys % 4096 / 8)) (phys % 8) b)) :=
        ⟨rfl, h₁, hspaces₁ ▸ .refl i ∅ _, fun hout ↦ by
          rw [mem_setEntry, if_neg fun heq ↦
            h.outside_ne_page hout hentry (heq.1.trans hframe)]⟩
      exact hfirst.trans (ih h₁ hroot (fun hne ↦ by
        have hpos := List.length_pos_of_ne_nil hne
        omega) hrest)

end Stores

end Paging
end MinOS
