import MinOS.Paging.Setup

/-!
# Frames for the page maps

Every visit of an entry that is not present takes one free frame, so the entries
that are present and the frames that are free always add up to the same number:
`SetupPageMaps` succeeds exactly when the entries it has to visit do not exceed it.
-/

namespace MinOS
namespace Paging

open PageMapEntry Machine

/-- The entries of the tree that are present, of which there are at most `total`. -/
structure Mapped (S : Set ℕ) (root total : ℕ) (m : Machine) (N : Finset (ℕ × ℕ)) : Prop where
  tree : Tree S m root
  present : ∀ {d q : ℕ}, Entry S d q → (m.frameAt root d q ≠ none ↔ (d, q) ∈ N)
  count : m.memoryManager.freeFrames.card + N.card = total

namespace Mapped

variable {S : Set ℕ} {root total : ℕ} {m : Machine} {N : Finset (ℕ × ℕ)}

/-- A tree without entries. -/
theorem of_empty (hroot : m.memoryManager.getBit root = true)
    (hrange : m.memoryManager.rangeEnd ≤ kFrameCount)
    (hzero : ∀ i ∈ S, i < 512 → m.mem root i = 0#64) :
    Mapped S root m.memoryManager.freeFrames.card m ∅ := by
  have htop : ∀ {q : ℕ}, Entry S 0 q → m.mem root (q % 512) = 0#64 := by
    intro q hentry
    have hlt : q < 512 := by simpa using hentry.lt
    have hq : q ∈ S := by simpa using hentry.top
    rw [Nat.mod_eq_of_lt hlt]
    exact hzero q hq hlt
  have hnone : ∀ {d q : ℕ}, Entry S d q → m.frameAt root d q = none := by
    intro d
    induction d with
    | zero =>
        intro q hentry
        change m.child root (q % 512) = none
        apply child_of_absent
        rw [htop hentry, present_zero]
    | succ d ih =>
        intro q hentry
        rw [frameAt, tableOf_succ, ih hentry.parent]
        rfl
  refine ⟨⟨hroot, hrange, ?_, ?_, ?_, ?_⟩, ?_, rfl⟩
  · intro d q frame hentry hframe
    cases (hnone hentry).symm.trans hframe
  · intro d q frame hentry hframe
    cases (hnone hentry).symm.trans hframe
  · intro d q d' q' frame hentry _ hframe
    cases (hnone hentry).symm.trans hframe
  · intro d q table hentry _ htable
    cases d with
    | zero =>
        obtain rfl := Option.some.inj htable
        rw [htop hentry]
        rfl
    | succ d => cases (hnone hentry.parent).symm.trans htable
  · intro d q hentry
    simp [hnone hentry]

theorem visitKeeps (w : Bool) : VisitKeeps S root w (Mapped S root total) := by
  intro m m' N d q table frame h hentry htable hset
  have htree := h.tree
  rcases visit_cases htable hset with ⟨hframe, rfl⟩ | ⟨hfree, habsent, rfl⟩
  · have hmem : (d, q) ∈ N := (h.present hentry).mp (by rw [hframe]; exact Option.some_ne_none _)
    rw [Finset.insert_eq_of_mem hmem]
    refine ⟨htree.setFlags _ _ _, ?_, h.count⟩
    intro d' q' hentry'
    rw [frameAt_setFlags]
    exact h.present hentry'
  · have hnew : (d, q) ∉ N := by
      intro hmem
      apply (h.present hentry).mpr hmem
      rw [frameAt, htable, Option.bind_some, habsent]
    refine ⟨(htree.attach hentry htable hfree habsent).setFlags _ _ _, ?_, ?_⟩
    · intro d' q' hentry'
      rw [frameAt_setFlags, htree.frameAt_attach hentry htable hfree habsent hentry',
        Finset.mem_insert, Prod.mk.injEq]
      split_ifs with hhere
      · simp [hhere]
      · simp only [hhere, false_or]
        exact h.present hentry'
    · have hcard : (m.memoryManager.freeFrames.erase frame).card + 1 =
          m.memoryManager.freeFrames.card := Finset.card_erase_add_one hfree
      have hcount := h.count
      rw [Finset.card_insert_of_notMem hnew]
      change (m.memoryManager.markAllocated frame 1).freeFrames.card + (N.card + 1) = total
      rw [m.memoryManager.freeFrames_markAllocated_one]
      omega

theorem visitKeeps_cr3 (cr3 : ℕ) (w : Bool) :
    VisitKeeps S root w fun m N ↦ Mapped S root total m N ∧ m.cr3 = cr3 := by
  intro m m' N d q table frame h hentry htable hset
  refine ⟨visitKeeps w h.1 hentry htable hset, ?_⟩
  rcases visit_cases htable hset with ⟨-, rfl⟩ | ⟨-, -, rfl⟩ <;> exact h.2

theorem entry_of_mem_entriesFrom {a n : ℕ} {x : ℕ × ℕ}
    (hS : ∀ p, a ≤ p → p < a + n → p < 512 ^ 4 → p / 512 ^ 3 ∈ S)
    (hx : x ∈ entriesFrom 0 a (min (a + n) (512 ^ 4))) : Entry S x.1 x.2 := by
  obtain ⟨⟨-, hdepth⟩, p, ⟨hlow, hhigh⟩, hq⟩ := mem_entriesFrom.mp hx
  obtain ⟨hn, hlt⟩ := lt_min_iff.mp hhigh
  have hentry := entry_of_page (show 3 - x.1 < 4 by omega) hlt (hS p hlow hn hlt)
  have hd : 3 - (3 - x.1) = x.1 := by omega
  rwa [hq, hd] at hentry

/-- The pages of a range are set up when there are frames for all their entries,
and only then. -/
theorem setupPageMaps (h : Mapped S m.cr3 total m N) {addr : LinearAddress4Level}
    (hvalid : addr.Valid) {n : ℕ}
    (hS : ∀ p, addr.pageNumber ≤ p → p < addr.pageNumber + n → p < 512 ^ 4 → p / 512 ^ 3 ∈ S)
    (w : Bool) {E : Finset (ℕ × ℕ)}
    (hE : E = entriesFrom 0 addr.pageNumber (min (addr.pageNumber + n) (512 ^ 4))) :
    (∀ i ∈ (m.setupPageMaps addr n w).touched, i ∈ S) ∧
      ((∃ r, (m.setupPageMaps addr n w).result = .ok r ∧ (N ∪ E).card ≤ total ∧
          (m.setupPageMaps addr n w).machine.cr3 = m.cr3 ∧
          Mapped S m.cr3 total (m.setupPageMaps addr n w).machine (N ∪ E)) ∨
        ((m.setupPageMaps addr n w).result = .error .kNoEnoughMemory ∧ total < (N ∪ E).card)) := by
  have hwalk : Walked S m.cr3 (fun m' V ↦ Mapped S m.cr3 total m' V ∧ m'.cr3 = m.cr3) m N 0 _ _ n
      (m.setupPageMaps addr n w) :=
    setupPageMaps_walked (visitKeeps_cr3 m.cr3 w) (fun _ _ hm ↦ hm.1.tree) ⟨h, rfl⟩ hvalid hS
  refine ⟨hwalk.touched, ?_⟩
  cases hresult : (m.setupPageMaps addr n w).result with
  | ok r =>
      obtain ⟨-, hmapped, hcr3⟩ := hwalk.ok r hresult
      rw [← hE] at hmapped
      refine .inl ⟨r, rfl, ?_, hcr3, hmapped⟩
      have hcount := hmapped.count
      omega
  | error e =>
      obtain ⟨rfl, hfree, ⟨V, hV, hmapped, -⟩, x, hx, hnone⟩ := hwalk.error e hresult
      rw [← hE] at hV hx
      refine .inr ⟨rfl, ?_⟩
      -- an entry of the range is missing when the last frame is gone
      have hentry : Entry S x.1 x.2 := entry_of_mem_entriesFrom hS (hE ▸ hx)
      have hmissing : x ∉ V := fun hmem ↦ (hmapped.present hentry).mpr hmem hnone
      have hlt : V.card < (N ∪ E).card := by
        apply Finset.card_lt_card
        refine ⟨hV, fun hsub ↦ hmissing (hsub (Finset.mem_union_right _ hx))⟩
      have hcount := hmapped.count
      rw [hfree, Finset.card_empty, Nat.zero_add] at hcount
      omega

/-! ## Stores to mapped pages -/

theorem child_eq_some {m : Machine} {table i frame : ℕ} (h : m.child table i = some frame) :
    (m.mem table i).present = true ∧ (m.mem table i).pointer = frame := by
  rw [child] at h
  split_ifs at h with hpresent
  exact ⟨hpresent, Option.some.inj h⟩

theorem exists_tableOf {a frame : ℕ} (hframe : m.frameAt root 3 a = some frame) :
    ∀ L < 4, ∃ table, m.tableOf root (3 - L) (a / 512 ^ L) = some table := by
  intro L hL
  induction L with
  | zero =>
      obtain ⟨table, htable, -⟩ := Option.bind_eq_some_iff.mp hframe
      rw [pow_zero, Nat.div_one]
      exact ⟨table, htable⟩
  | succ L ih =>
      obtain ⟨table, htable⟩ := ih (Nat.lt_of_succ_lt hL)
      have hdepth : 3 - L = 3 - (L + 1) + 1 := by omega
      rw [hdepth, tableOf] at htable
      obtain ⟨table', htable', -⟩ := Option.bind_eq_some_iff.mp htable
      rw [Nat.div_div_eq_div_mul, ← Nat.pow_succ] at htable'
      exact ⟨table', htable'⟩

/-- The processor's walk ends at the frame of the page. -/
theorem walk_of_frameAt (h : Tree S m root) {addr : LinearAddress4Level} (hvalid : addr.Valid)
    (htop : addr.pageNumber / 512 ^ 3 ∈ S) {frame : ℕ}
    (hframe : m.frameAt root 3 addr.pageNumber = some frame) :
    ∀ {L table : ℕ}, L < 4 → m.tableOf root (3 - L) (addr.pageNumber / 512 ^ L) = some table →
      m.walk (L + 1) table addr = some (frame * 4096 + addr.value % 4096) := by
  intro L
  induction L with
  | zero =>
      intro table hL htable
      rw [pow_zero, Nat.div_one] at htable
      obtain ⟨hpresent, hpointer⟩ := child_eq_some ((frameAt_eq_some htable).mp hframe)
      have hpart := hvalid.part_eq hL
      rw [pow_zero, Nat.div_one] at hpart
      simp only [walk, hpart, hpresent, Bool.true_eq_false, if_false, true_or, if_true, hpointer,
        pow_zero, Nat.mul_one]
  | succ L ih =>
      intro table hL htable
      have hlt := hvalid.pageNumber_lt
      obtain ⟨table', htable'⟩ := exists_tableOf hframe L (Nat.lt_of_succ_lt hL)
      have hdepth : 3 - L = 3 - (L + 1) + 1 := by omega
      have hchild := htable'
      rw [hdepth, tableOf, Nat.div_div_eq_div_mul, ← Nat.pow_succ, htable, Option.bind_some]
        at hchild
      obtain ⟨hpresent, hpointer⟩ := child_eq_some hchild
      have hhuge := h.notHuge (entry_of_page hL hlt htop) (by omega) htable
      have hne : ¬ L + 1 = 0 := Nat.succ_ne_zero L
      rw [walk, hvalid.part_eq hL]
      simp only [hpresent, hhuge, hpointer, hne, Bool.true_eq_false, Bool.false_eq_true, and_false,
        or_self, if_false]
      exact ih (Nat.lt_of_succ_lt hL) htable'

end Mapped

/-- The PML4 indices of the user half. -/
def userHalf : Set ℕ := {i | 256 ≤ i}

theorem translate_user {m : Machine} (h : Tree userHalf m m.cr3) {vaddr frame : ℕ}
    (hlow : 2 ^ 64 - 2 ^ 47 ≤ vaddr) (hhigh : vaddr < 2 ^ 64)
    (hframe : m.frameAt m.cr3 3 (vaddr / 4096 % 2 ^ 36) = some frame) :
    ∃ offset < 4096, m.translate vaddr = some (frame * 4096 + offset) := by
  have hpage := LinearAddress4Level.pageNumber_ofValue vaddr
  refine ⟨_, Nat.mod_lt (LinearAddress4Level.ofValue vaddr).value (by decide), ?_⟩
  rw [Machine.translate, if_pos (.inr hlow)]
  apply Mapped.walk_of_frameAt h (LinearAddress4Level.valid_ofValue vaddr) _ (hpage ▸ hframe)
    (show 3 < 4 by decide) rfl
  rw [hpage]
  change 256 ≤ _
  omega

namespace Mapped

variable {total : ℕ} {m : Machine} {N : Finset (ℕ × ℕ)}

/-- A change of a page's frame. -/
theorem setEntry_page {S : Set ℕ} {root : ℕ} (h : Mapped S root total m N) {p frame : ℕ}
    (hpage : Entry S 3 p) (hframe : m.frameAt root 3 p = some frame) (i : ℕ) (e : PageMapEntry) :
    Mapped S root total (m.setEntry frame i e) N := by
  have hsame : ∀ d q table, Entry S d q → m.tableOf root d q = some table →
      (m.setEntry frame i e).mem table (q % 512) = m.mem table (q % 512) := by
    intro d q table hentry htable
    rw [mem_setEntry, if_neg]
    rintro ⟨rfl, -⟩
    exact h.tree.page_ne_table hentry hpage htable hframe rfl
  have hchild : ∀ d q table, Entry S d q → m.tableOf root d q = some table →
      (m.setEntry frame i e).child table (q % 512) = m.child table (q % 512) := by
    intro d q table hentry htable
    rw [child, hsame d q table hentry htable, child]
  refine ⟨h.tree.of_same rfl ?_, ?_, h.count⟩
  · intro d q table hentry htable
    exact ⟨hchild d q table hentry htable, by rw [hsame d q table hentry htable]⟩
  · intro d q hentry
    rw [Tree.frameAt_of_same hchild hentry]
    exact h.present hentry

theorem storeByte (h : Mapped userHalf m.cr3 total m N) {vaddr : ℕ}
    (hlow : 2 ^ 64 - 2 ^ 47 ≤ vaddr) (hhigh : vaddr < 2 ^ 64)
    (hmem : (3, vaddr / 4096 % 2 ^ 36) ∈ N) (b : UInt8) :
    ∃ m', m.storeByte vaddr b = some m' ∧ m'.cr3 = m.cr3 ∧ Mapped userHalf m.cr3 total m' N := by
  have hentry : Entry userHalf 3 (vaddr / 4096 % 2 ^ 36) := by
    refine ⟨by decide, by omega, ?_⟩
    change 256 ≤ _
    omega
  obtain ⟨frame, hframe⟩ := Option.ne_none_iff_exists'.mp ((h.present hentry).mpr hmem)
  obtain ⟨offset, hoffset, htranslate⟩ := translate_user h.tree hlow hhigh hframe
  have hdiv : (frame * 4096 + offset) / 4096 = frame := by omega
  have hstore : m.storeByte vaddr b = some (m.setEntry frame ((frame * 4096 + offset) % 4096 / 8)
      (setByte (m.mem frame ((frame * 4096 + offset) % 4096 / 8)) ((frame * 4096 + offset) % 8)
        b)) := by
    rw [Machine.storeByte, htranslate, Option.map_some, hdiv]
  exact ⟨_, hstore, rfl, h.setEntry_page hentry hframe _ _⟩

theorem storeBytes (bytes : List UInt8) : ∀ (m : Machine) (vaddr : ℕ),
    Mapped userHalf m.cr3 total m N →
    (bytes ≠ [] → 2 ^ 64 - 2 ^ 47 ≤ vaddr ∧ vaddr + bytes.length ≤ 2 ^ 64) →
    (∀ a, vaddr ≤ a → a < vaddr + bytes.length → (3, a / 4096 % 2 ^ 36) ∈ N) →
    ∃ m', m.storeBytes vaddr bytes = some m' ∧ m'.cr3 = m.cr3 ∧
      Mapped userHalf m.cr3 total m' N := by
  induction bytes with
  | nil =>
      intro m vaddr h _ _
      exact ⟨m, rfl, rfl, h⟩
  | cons b bytes ih =>
      intro m vaddr h hrange hmem
      obtain ⟨hlow, hhigh⟩ := hrange (List.cons_ne_nil b bytes)
      rw [List.length_cons] at hhigh hmem
      obtain ⟨m₁, hstore, hcr3, hm₁⟩ := h.storeByte hlow (by omega) (hmem vaddr le_rfl (by omega)) b
      rw [← hcr3] at hm₁
      obtain ⟨m₂, hrest, hcr3', hm₂⟩ := ih m₁ ((vaddr + 1) % 2 ^ 64) hm₁ (by
        intro hne
        have hpos := List.length_pos_of_ne_nil hne
        rw [Nat.mod_eq_of_lt (by omega)]
        omega) (by
        intro a hge hlt
        rcases Nat.eq_zero_or_pos bytes.length with hzero | hpos
        · omega
        · rw [Nat.mod_eq_of_lt (by omega)] at hge hlt
          exact hmem a (by omega) (by omega))
      refine ⟨m₂, ?_, hcr3'.trans hcr3, hcr3 ▸ hm₂⟩
      rw [Machine.storeBytes, hstore, Option.bind_some, hrest]

end Mapped
end Paging
end MinOS
