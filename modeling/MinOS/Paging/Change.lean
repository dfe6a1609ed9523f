import MinOS.Paging.Space

/-!
# Changes of one entry

The changes that the kernel makes to the page maps, one entry at a time: each
keeps the frames of the address spaces accounted for.
-/

namespace MinOS
namespace Paging

open PageMapEntry Machine Ownership

section Change

variable {ι : Type*} {σ : Policy ι (ℕ × ℕ)} {m m' : Machine} {root : ι → Option ℕ}
  {base : ℕ → Prop} {i j : ι} {r d q table frame : ℕ} {w : Bool}

theorem cell_eq {e : PageMapEntry} {k : ℕ} (hmem : m.mem table k = e) (hpresent : e.present = true) :
    m.cell table k = some (e.pointer, e.writable) := by
  rw [cell, child, hmem, if_pos hpresent, Option.map_some]

theorem userWord_zero (d : ℕ) : UserWord d 0#64 := ⟨fun _ ↦ rfl, nofun⟩

theorem spaces_below_none (hnone : (m.spaces root).entry i (d, q) = none) {q' : ℕ}
    (hq : q' / 512 = q) : (m.spaces root).entry i (d + 1, q') = none := by
  by_cases hentry : Entry userHalf (d + 1) q'
  · cases hroot : root i with
    | none => exact spaces_entry_of_root hroot _
    | some r =>
        rw [← hq, spaces_entry hroot hentry.parent] at hnone
        rw [spaces_entry hroot hentry, entryAt, tableOf_succ, frameAt_eq, hnone]
        rfl
  · exact spaces_entry_of_not hentry

theorem spaces_below_page {q' : ℕ} : (m.spaces root).entry i (3 + 1, q') = none :=
  spaces_entry_of_not fun hentry ↦ absurd hentry.depth (by decide)

theorem spaces_set_none [DecidableEq ι] {k : ℕ × ℕ} (hnone : (m.spaces root).entry i k = none) :
    (m.spaces root).set i k none = m.spaces root := by
  refine Spaces.ext rfl (funext fun j ↦ funext fun l ↦ ?_)
  rw [Spaces.set_entry]
  split_ifs with heq
  · rw [heq.1, heq.2, hnone]
  · rfl

namespace Accounted

theorem entry_eq_cell (hroot : root i = some r) (hentry : Entry userHalf d q)
    (htable : m.tableOf r d q = some table) :
    (m.spaces root).entry i (d, q) = m.cell table (q % 512) := by
  rw [spaces_entry hroot hentry, entryAt, htable, Option.bind_some]

section Update

variable [DecidableEq ι]

theorem of_retargets {base' : ℕ → Prop} (h : Accounted σ m root base) (hroot : root i = some r)
    (hentry : Entry userHalf d q) (htable : m.tableOf r d q = some table)
    (hchange : Retargets m m' root i d q table)
    (hseparated : Separated σ ((m.spaces root).set i (d, q) (m'.cell table (q % 512)))
      (fun f ↦ m'.memoryManager.getBit f = true) base')
    (hinner : d ≠ 3 → ∀ f v, m'.cell table (q % 512) = some (f, v) → v = true)
    (hword : UserWord d (m'.mem table (q % 512)))
    (hrange : m'.memoryManager.rangeEnd ≤ kFrameCount) :
    Accounted σ m' root base' where
  leaf := h.leaf
  separated := by rwa [hchange.spaces_eq hroot hentry htable]
  inner := by
    intro j d' q' f v hd' hf
    rw [hchange.spaces_eq hroot hentry htable] at hf
    by_cases hhere : j = i ∧ (d', q') = (d, q)
    · obtain ⟨rfl, heq⟩ := hhere
      obtain ⟨rfl, rfl⟩ := Prod.mk.inj heq
      rw [Spaces.set_entry_self] at hf
      exact hinner hd' f v hf
    · rw [Spaces.set_entry_of_ne _ _ hhere] at hf
      exact h.inner hd' hf
  words := by
    intro j r' d' q' table' hroot' hentry' htable'
    rcases hchange.tableOf_cases hroot htable hroot' hentry' with hsame | ⟨-, -, -, -, hzero⟩
    · rw [hsame] at htable'
      by_cases hhere : j = i ∧ d' = d ∧ q' = q
      · obtain ⟨rfl, rfl, rfl⟩ := hhere
        obtain rfl := Option.some.inj (hroot.symm.trans hroot')
        obtain rfl := Option.some.inj (htable.symm.trans htable')
        exact hword
      · rw [hchange.same hroot' hentry' htable' hhere]
        exact h.words hroot' hentry' htable'
    · rw [hzero table' htable']
      exact userWord_zero d'
  rangeEnd := hrange

end Update

theorem not_allocated_of_free (hfree : frame ∈ m.memoryManager.freeFrames) :
    ¬ m.memoryManager.getBit frame = true := by
  rw [(BitmapMemoryManager.mem_freeFrames.mp hfree).2]
  exact Bool.false_ne_true

theorem free_ne_table (h : Accounted σ m root base) (hroot : root i = some r)
    (hentry : Entry userHalf d q) (htable : m.tableOf r d q = some table)
    (hfree : frame ∈ m.memoryManager.freeFrames) : frame ≠ table := by
  rintro rfl
  exact not_allocated_of_free hfree (h.allocated_table hroot hentry htable)

theorem getBit_markAllocated_iff (f g : ℕ) :
    (m.memoryManager.markAllocated f 1).getBit g = true ↔ g = f ∨ m.memoryManager.getBit g = true := by
  rw [BitmapMemoryManager.getBit_markAllocated_one, Bool.or_eq_true, decide_eq_true_eq]

theorem getBit_free_iff (f g : ℕ) :
    (m.memoryManager.free f 1).getBit g = true ↔ g ≠ f ∧ m.memoryManager.getBit g = true := by
  rw [BitmapMemoryManager.getBit_free]
  simp only [Bool.and_eq_true, Bool.not_eq_true', decide_eq_false_iff_not]
  constructor
  · rintro ⟨hne, hbit⟩
    exact ⟨by omega, hbit⟩
  · rintro ⟨hne, hbit⟩
    exact ⟨by omega, hbit⟩

section Ops

variable [DecidableEq ι] {e : PageMapEntry} {c : ℕ → PageMapEntry}

theorem link (h : Accounted σ m root base) (hroot : root i = some r)
    (hentry : Entry userHalf d q) (htable : m.tableOf r d q = some table)
    (hfree : frame ∈ m.memoryManager.freeFrames)
    (hmem : ∀ g k, m'.mem g k =
      if g = table ∧ k = q % 512 then e else if g = frame then c k else m.mem g k)
    (hmm : m'.memoryManager = m.memoryManager.markAllocated frame 1)
    (hpresent : e.present = true) (hpointer : e.pointer = frame)
    (hword : UserWord d e)
    (hc : d < 3 → c = fun _ ↦ 0#64) (hown : d = 3 → e.writable = σ.own i)
    (hinner : d ≠ 3 → e.writable = true)
    (hcleared : Separated σ ((m.spaces root).set i (d, q) none)
      (fun f ↦ m.memoryManager.getBit f = true) base)
    (hbelow : ∀ q', q' / 512 = q → (m.spaces root).entry i (d + 1, q') = none) :
    Accounted σ m' root base ∧
      m'.spaces root = (m.spaces root).set i (d, q) (some (frame, e.writable)) := by
  have hne := h.free_ne_table hroot hentry htable hfree
  have hhere : m'.mem table (q % 512) = e := by rw [hmem, if_pos ⟨rfl, rfl⟩]
  have hcell : m'.cell table (q % 512) = some (frame, e.writable) := by
    rw [cell_eq hhere hpresent, hpointer]
  have hchange : Retargets m m' root i d q table := by
    refine ⟨?_, .inr ⟨hbelow, ?_⟩⟩
    · intro j r' d' q' table' hroot' hentry' htable' hother
      have hne' := h.free_ne_table hroot' hentry' htable' hfree
      rw [hmem, if_neg, if_neg hne'.symm]
      rintro ⟨rfl, hindex⟩
      exact hother (h.place_unique hroot' hentry' htable' hroot hentry htable hindex)
    · intro f hf hd k
      have hf' : f = frame := by
        have hchild := child_of_present (hhere ▸ hpresent)
        rw [hhere, hpointer] at hchild
        exact Option.some.inj (hf.symm.trans hchild)
      subst hf'
      rw [hmem, if_neg (fun hand ↦ hne hand.1), if_pos rfl, hc hd]
  refine ⟨h.of_retargets hroot hentry htable hchange ?_ ?_ ?_ ?_, ?_⟩
  · rw [hcell, hmm]
    have hset := hcleared.set_private (i := i) (k := (d, q)) (f := frame) (w := e.writable)
      (Spaces.set_entry_self _ _ _ _) (not_allocated_of_free hfree)
      (fun hleaf ↦ hown ((h.leaf _).mp hleaf)) (getBit_markAllocated_iff frame)
    rwa [Spaces.set_set] at hset
  · intro hd f v hf
    rw [hcell] at hf
    obtain ⟨-, rfl⟩ := Prod.mk.inj (Option.some.inj hf)
    exact hinner hd
  · rwa [hhere]
  · rw [hmm]
    exact h.rangeEnd
  · rw [hchange.spaces_eq hroot hentry htable, hcell]

/-- An entry that led nowhere has nothing to be cleared. -/
theorem cleared_of_none (h : Accounted σ m root base)
    (hnone : (m.spaces root).entry i (d, q) = none) :
    Separated σ ((m.spaces root).set i (d, q) none) (fun f ↦ m.memoryManager.getBit f = true)
      base := by
  rw [spaces_set_none hnone]
  exact h.separated

/-- The word of an entry is replaced by one that leads to the same frame. -/
theorem reword (h : Accounted σ m root base) (hroot : root i = some r)
    (hentry : Entry userHalf d q) (htable : m.tableOf r d q = some table)
    (hmem : ∀ g k, m'.mem g k = if g = table ∧ k = q % 512 then e else m.mem g k)
    (hmm : m'.memoryManager = m.memoryManager) (hcell : m'.cell table (q % 512) =
      m.cell table (q % 512)) (hword : UserWord d e) :
    Accounted σ m' root base ∧ m'.spaces root = m.spaces root := by
  have hhere : m'.mem table (q % 512) = e := by rw [hmem, if_pos ⟨rfl, rfl⟩]
  have hold := entry_eq_cell hroot hentry htable
  have hchild : m'.child table (q % 512) = m.child table (q % 512) := by
    have hfst := congrArg (Option.map Prod.fst) hcell
    rw [cell, cell, Option.map_map, Option.map_map] at hfst
    simpa [Function.comp_def] using hfst
  have hchange : Retargets m m' root i d q table := by
    refine ⟨?_, .inl hchild⟩
    intro j r' d' q' table' hroot' hentry' htable' hother
    rw [hmem, if_neg]
    rintro ⟨rfl, hindex⟩
    exact hother (h.place_unique hroot' hentry' htable' hroot hentry htable hindex)
  have hsame : (m.spaces root).set i (d, q) (m'.cell table (q % 512)) = m.spaces root := by
    refine Spaces.ext rfl (funext fun j ↦ funext fun l ↦ ?_)
    rw [Spaces.set_entry]
    split_ifs with heq
    · rw [heq.1, heq.2, hold, hcell]
    · rfl
  refine ⟨h.of_retargets hroot hentry htable hchange ?_ ?_ ?_ ?_, ?_⟩
  · rw [hsame, hmm]
    exact h.separated
  · intro hd f v hf
    rw [hcell, ← hold] at hf
    exact h.inner hd hf
  · rwa [hhere]
  · rw [hmm]
    exact h.rangeEnd
  · rw [hchange.spaces_eq hroot hentry htable, hsame]

theorem share (h : Accounted σ m root base) (hroot : root i = some r)
    (hentry : Entry userHalf 3 q) (htable : m.tableOf r 3 q = some table)
    (hmem : ∀ g k, m'.mem g k = if g = table ∧ k = q % 512 then e else m.mem g k)
    (hmm : m'.memoryManager = m.memoryManager) (hpresent : e.present = true)
    (huser : e.user = true) (hown : e.writable ≠ σ.own i)
    (hnone : (m.spaces root).entry i (3, q) = none)
    (htemplate : Owns σ (m.spaces root) e.pointer (.entry (σ.template i) (3, q))) :
    Accounted σ m' root base ∧
      m'.spaces root = (m.spaces root).set i (3, q) (some (e.pointer, e.writable)) := by
  have hhere : m'.mem table (q % 512) = e := by rw [hmem, if_pos ⟨rfl, rfl⟩]
  have hcell := cell_eq hhere hpresent
  have hchange : Retargets m m' root i 3 q table := by
    refine ⟨?_, .inr ⟨fun q' _ ↦ spaces_below_page, fun _ _ hd ↦ absurd hd (by decide)⟩⟩
    intro j r' d' q' table' hroot' hentry' htable' hother
    rw [hmem, if_neg]
    rintro ⟨rfl, hindex⟩
    exact hother (h.place_unique hroot' hentry' htable' hroot hentry htable hindex)
  refine ⟨h.of_retargets hroot hentry htable hchange ?_ (absurd rfl)
    (hhere.symm ▸ ⟨fun hd ↦ absurd hd (by decide), fun _ ↦ huser⟩) ?_, ?_⟩
  · rw [hcell, hmm]
    exact h.separated.set_shared hnone ((h.leaf _).mpr rfl) hown htemplate
  · rw [hmm]
    exact h.rangeEnd
  · rw [hchange.spaces_eq hroot hentry htable, hcell]

/-- An entry is cleared; the frame behind it was given back or is not its own. -/
theorem unlink (h : Accounted σ m root base) (hroot : root i = some r)
    (hentry : Entry userHalf d q) (htable : m.tableOf r d q = some table)
    (hmem : ∀ g k, m'.mem g k = if g = table ∧ k = q % 512 then 0#64 else m.mem g k)
    (hrange : m'.memoryManager.rangeEnd = m.memoryManager.rangeEnd)
    (hbelow : ∀ q', q' / 512 = q → (m.spaces root).entry i (d + 1, q') = none)
    (hcleared : Separated σ ((m.spaces root).set i (d, q) none)
      (fun f ↦ m'.memoryManager.getBit f = true) base) :
    Accounted σ m' root base ∧ m'.spaces root = (m.spaces root).set i (d, q) none := by
  have hhere : m'.mem table (q % 512) = 0#64 := by rw [hmem, if_pos ⟨rfl, rfl⟩]
  have hchild : m'.child table (q % 512) = none := by
    apply child_of_absent
    rw [hhere, present_zero]
  have hcell : m'.cell table (q % 512) = none := by rw [cell, hchild, Option.map_none]
  have hchange : Retargets m m' root i d q table := by
    refine ⟨?_, .inr ⟨hbelow, fun f hf ↦ ?_⟩⟩
    · intro j r' d' q' table' hroot' hentry' htable' hother
      rw [hmem, if_neg]
      rintro ⟨rfl, hindex⟩
      exact hother (h.place_unique hroot' hentry' htable' hroot hentry htable hindex)
    · rw [hchild] at hf
      cases hf
  refine ⟨h.of_retargets hroot hentry htable hchange ?_ ?_ ?_ ?_, ?_⟩
  · rwa [hcell]
  · intro _ f v hf
    rw [hcell] at hf
    cases hf
  · rw [hhere]
    exact userWord_zero d
  · rw [hrange]
    exact h.rangeEnd
  · rw [hchange.spaces_eq hroot hentry htable, hcell]

end Ops

/-- The page maps are the same, and the frames accounted for by other means. -/
theorem of_separated {base' : ℕ → Prop} (h : Accounted σ m root base)
    (hmem : ∀ {j : ι} {r d q table : ℕ}, root j = some r → Entry userHalf d q →
      m.tableOf r d q = some table → m'.mem table (q % 512) = m.mem table (q % 512))
    (hseparated : Separated σ (m.spaces root) (fun f ↦ m'.memoryManager.getBit f = true) base')
    (hrange : m'.memoryManager.rangeEnd = m.memoryManager.rangeEnd) :
    Accounted σ m' root base' ∧ m'.spaces root = m.spaces root := by
  obtain ⟨hspaces, htables⟩ := spaces_congr hmem
  refine ⟨⟨h.leaf, ?_, ?_, ?_, ?_⟩, hspaces⟩
  · rw [hspaces]
    exact hseparated
  · rw [hspaces]
    exact h.inner
  · intro j r' d' q' table' hroot' hentry' htable'
    rw [htables hroot' hentry'] at htable'
    rw [hmem hroot' hentry' htable']
    exact h.words hroot' hentry' htable'
  · rw [hrange]
    exact h.rangeEnd

theorem of_pages (h : Accounted σ m root base) (hmm : m'.memoryManager = m.memoryManager)
    (hmem : ∀ {j : ι} {r d q table : ℕ}, root j = some r → Entry userHalf d q →
      m.tableOf r d q = some table → m'.mem table (q % 512) = m.mem table (q % 512)) :
    Accounted σ m' root base ∧ m'.spaces root = m.spaces root :=
  h.of_separated hmem (hmm.symm ▸ h.separated) (by rw [hmm])

/-- A frame is taken for no space. -/
theorem join (h : Accounted σ m root base) (hfree : frame ∈ m.memoryManager.freeFrames)
    (hmm : m'.memoryManager = m.memoryManager.markAllocated frame 1)
    (hmem : ∀ {j : ι} {r d q table : ℕ}, root j = some r → Entry userHalf d q →
      m.tableOf r d q = some table → m'.mem table (q % 512) = m.mem table (q % 512)) :
    Accounted σ m' root (fun f ↦ base f ∨ f = frame) ∧ m'.spaces root = m.spaces root :=
  h.of_separated hmem (hmm.symm ▸ h.separated.join (not_allocated_of_free hfree)
    (getBit_markAllocated_iff frame)) (by rw [hmm]; rfl)

theorem setEntry_page (h : Accounted σ m root base) {p : ℕ}
    (hpage : (m.spaces root).entry i (3, p) = some (frame, w)) (k : ℕ) (x : PageMapEntry) :
    Accounted σ (m.setEntry frame k x) root base ∧
      (m.setEntry frame k x).spaces root = m.spaces root := by
  refine h.of_pages rfl fun hroot hentry htable ↦ ?_
  rw [mem_setEntry, if_neg]
  rintro ⟨rfl, -⟩
  exact h.page_ne_table hroot hentry htable hpage rfl

/-! ### Roots -/

section Roots

variable [DecidableEq ι]

omit [DecidableEq ι] in
theorem top_of_entry {q : ℕ} (hentry : Entry userHalf 0 q) : q % 512 = q ∧ 256 ≤ q := by
  have hlt : q < 512 ^ (0 + 1) := hentry.lt
  have hq : q / 512 ^ 0 ∈ userHalf := hentry.top
  rw [pow_zero, Nat.div_one] at hq
  exact ⟨Nat.mod_eq_of_lt hlt, hq⟩

omit [DecidableEq ι] in
theorem entry_zero_none {f : ℕ} (hzero : ∀ k, 256 ≤ k → m.mem f k = 0#64) :
    ∀ {d q : ℕ}, Entry userHalf d q → m.entryAt f d q = none := by
  have htop : ∀ {q : ℕ}, Entry userHalf 0 q → m.child f (q % 512) = none := by
    intro q hentry
    obtain ⟨hindex, hq⟩ := top_of_entry hentry
    apply child_of_absent
    rw [hindex, hzero q hq, present_zero]
  have hnone : ∀ {d q : ℕ}, Entry userHalf d q → m.frameAt f d q = none := by
    intro d
    induction d with
    | zero => exact fun hentry ↦ htop hentry
    | succ d ih =>
        intro q hentry
        rw [frameAt, tableOf_succ, ih hentry.parent]
        rfl
  intro d q hentry
  have h := hnone hentry
  rw [frameAt_eq] at h
  exact Option.map_eq_none_iff.mp h

theorem addRoot (h : Accounted σ m root base) (hroot : root i = none)
    (hfree : frame ∈ m.memoryManager.freeFrames)
    (hmem : ∀ g, g ≠ frame → m'.mem g = m.mem g) (hzero : ∀ k, 256 ≤ k → m'.mem frame k = 0#64)
    (hmm : m'.memoryManager = m.memoryManager.markAllocated frame 1) :
    Accounted σ m' (Function.update root i (some frame)) base ∧
      m'.spaces (Function.update root i (some frame)) =
        (m.spaces root).setRoot i (some frame) := by
  have hsame : ∀ {j : ι} {r d q table : ℕ}, root j = some r → Entry userHalf d q →
      m.tableOf r d q = some table → m'.mem table (q % 512) = m.mem table (q % 512) :=
    fun hroot hentry htable ↦ by rw [hmem _ (h.free_ne_table hroot hentry htable hfree).symm]
  obtain ⟨hspaces, htables⟩ := spaces_congr hsame
  have hother : ∀ {j : ι}, j ≠ i → Function.update root i (some frame) j = root j :=
    fun hj ↦ Function.update_of_ne hj _ _
  have hnew : m'.spaces (Function.update root i (some frame)) =
      (m.spaces root).setRoot i (some frame) := by
    refine Spaces.ext rfl (funext fun j ↦ funext ?_)
    rintro ⟨d, q⟩
    rw [Spaces.setRoot_entry]
    by_cases hentry : Entry userHalf d q
    · by_cases hj : j = i
      · rw [hj, spaces_entry (Function.update_self i _ _) hentry, spaces_entry_of_root hroot,
          entry_zero_none hzero hentry]
      · rw [← hspaces]
        cases hroot' : root j with
        | none => rw [spaces_entry_of_root ((hother hj).trans hroot'), spaces_entry_of_root hroot']
        | some r => rw [spaces_entry ((hother hj).trans hroot') hentry, spaces_entry hroot' hentry]
    · rw [spaces_entry_of_not hentry, spaces_entry_of_not hentry]
  refine ⟨⟨h.leaf, ?_, ?_, ?_, ?_⟩, hnew⟩
  · rw [hnew, hmm]
    exact h.separated.set_root hroot (not_allocated_of_free hfree) (getBit_markAllocated_iff frame)
  · rw [hnew]
    exact h.inner
  · intro j r d q table hroot' hentry htable
    by_cases hj : j = i
    · rw [hj, Function.update_self] at hroot'
      obtain rfl := Option.some.inj hroot'
      cases d with
      | zero =>
          obtain rfl := Option.some.inj htable
          obtain ⟨hindex, hq⟩ := top_of_entry hentry
          rw [hindex, hzero q hq]
          exact userWord_zero 0
      | succ d =>
          rw [tableOf_succ, frameAt_eq, entry_zero_none hzero hentry.parent] at htable
          cases htable
    · rw [hother hj] at hroot'
      rw [htables hroot' hentry] at htable
      rw [hsame hroot' hentry htable]
      exact h.words hroot' hentry htable
  · rw [hmm]
    exact h.rangeEnd

theorem spaces_update_none (m : Machine) (root : ι → Option ℕ) (i j : ι) (k : ℕ × ℕ) :
    (m.spaces (Function.update root i none)).entry j k =
      if j = i then none else (m.spaces root).entry j k := by
  rw [spaces, spaces]
  dsimp only
  by_cases hj : j = i
  · rw [if_pos hj, hj, Function.update_self]
    exact ite_self none
  · rw [if_neg hj, Function.update_of_ne hj]

/-- The frame of a PML4 whose user half is empty is given back. -/
theorem removeRoot (h : Accounted σ m root base) (hroot : root i = some r)
    (hempty : ∀ k, (m.spaces root).entry i k = none) (hmem : m'.mem = m.mem)
    (hmm : m'.memoryManager = m.memoryManager.free r 1) :
    Accounted σ m' (Function.update root i none) base ∧
      m'.spaces (Function.update root i none) = (m.spaces root).setRoot i none := by
  have hspaces : ∀ root' : ι → Option ℕ, m'.spaces root' = m.spaces root' := fun root' ↦
    (spaces_congr fun _ _ _ ↦ by rw [hmem]).1
  have htables : ∀ r d q, m'.tableOf r d q = m.tableOf r d q := fun r d q ↦
    tableOf_congr (fun table k ↦ by rw [child, child, hmem]) r d q
  have hnew : m'.spaces (Function.update root i none) = (m.spaces root).setRoot i none := by
    rw [hspaces]
    refine Spaces.ext rfl (funext fun j ↦ funext fun k ↦ ?_)
    rw [spaces_update_none, Spaces.setRoot_entry]
    split_ifs with hj
    · rw [hj, hempty]
    · rfl
  refine ⟨⟨h.leaf, ?_, ?_, ?_, ?_⟩, hnew⟩
  · rw [hnew, hmm]
    exact h.separated.unset_root hroot (getBit_free_iff r)
  · rw [hnew]
    exact h.inner
  · intro j r' d q table hroot' hentry htable
    by_cases hj : j = i
    · rw [hj, Function.update_self] at hroot'
      cases hroot'
    · rw [Function.update_of_ne hj] at hroot'
      rw [htables] at htable
      rw [hmem]
      exact h.words hroot' hentry htable
  · rw [hmm]
    exact h.rangeEnd

end Roots
end Accounted
end Change
end Paging
end MinOS
