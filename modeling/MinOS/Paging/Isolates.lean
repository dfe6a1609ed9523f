import MinOS.Paging.Clean

/-!
# What other address spaces see

`SetupPageMaps`, stores to pages of one's own, copies of page maps and their cleaning leave
the frames of other address spaces as they are.
-/

namespace MinOS
namespace Paging

open PageMapEntry Machine Ownership

section Isolates

variable {ι : Type*} {σ : Policy ι (ℕ × ℕ)} {m m' m'' : Machine} {root : ι → Option ℕ}
  {base : ℕ → Prop} {i : ι} {r d q f table frame : ℕ} {w : Bool} {D D' : Set (ℕ × ℕ)}

/-- The frames of all other spaces stay as they are. -/
structure Isolates (σ : Policy ι (ℕ × ℕ)) (root : ι → Option ℕ) (base : ℕ → Prop) (i : ι)
    (D : Set (ℕ × ℕ)) (m m' : Machine) : Prop extends Updates σ root base i D m m' where
  foreign : ∀ {f : ℕ}, Foreign σ (m.spaces root) base i f → m'.mem f = m.mem f

theorem Updates.foreign_iff (h : Updates σ root base i D m m') :
    Foreign σ (m'.spaces root) base i f ↔ Foreign σ (m.spaces root) base i f :=
  foreign_congr (fun _ _ ↦ rfl) fun _ hj ↦ funext fun _ ↦ h.changes.same fun heq ↦ absurd heq hj

namespace Isolates

theorem refl (h : Accounted σ m root base) (i : ι) (D : Set (ℕ × ℕ)) :
    Isolates σ root base i D m m :=
  ⟨.refl h i D, fun _ ↦ rfl⟩

theorem trans (h : Isolates σ root base i D m m') (h' : Isolates σ root base i D m' m'') :
    Isolates σ root base i D m m'' :=
  ⟨h.toUpdates.trans h'.toUpdates, fun hf ↦
    (h'.foreign (h.foreign_iff.mpr hf)).trans (h.foreign hf)⟩

theorem mono (h : Isolates σ root base i D m m') (hsub : D ⊆ D') : Isolates σ root base i D' m m' :=
  ⟨h.toUpdates.mono hsub, h.foreign⟩

end Isolates

namespace Accounted

variable (h : Accounted σ m root base)

include h

theorem foreign_ne_table (hroot : root i = some r) (hentry : Entry userHalf d q)
    (htable : m.tableOf r d q = some table) (hf : Foreign σ (m.spaces root) base i f) : f ≠ table := by
  rintro rfl
  refine h.separated.not_foreign (h.owns_table hroot hentry htable) ?_ hf
  cases d <;> rfl

theorem foreign_ne_free (hfree : frame ∈ m.memoryManager.freeFrames)
    (hf : Foreign σ (m.spaces root) base i f) : f ≠ frame := by
  rintro rfl
  exact not_allocated_of_free hfree (h.separated.alloc_of_foreign hf)

theorem foreign_ne_page {p : ℕ} (hpage : (m.spaces root).entry i (3, p) = some (frame, w))
    (hown : w = σ.own i) (hf : Foreign σ (m.spaces root) base i f) : f ≠ frame := by
  rintro rfl
  exact h.separated.not_foreign (o := .entry i (3, p)) ⟨w, hpage, fun _ ↦ hown⟩ rfl hf

end Accounted

/-! ## Page maps -/

theorem mem_setEntry_of_ne (m : Machine) {table f : ℕ} (hne : f ≠ table) (k : ℕ) (e : PageMapEntry) :
    (m.setEntry table k e).mem f = m.mem f := by
  funext j
  rw [mem_setEntry, if_neg fun h ↦ hne h.1]

theorem mem_attach_of_ne (m : Machine) (hne : frame ≠ table) (k : ℕ) (htable : f ≠ table)
    (hframe : f ≠ frame) : (m.attach table k frame).mem f = m.mem f := by
  funext j
  rw [mem_attach m hne, if_neg fun h ↦ htable h.1, if_neg hframe]

variable [DecidableEq ι]

theorem foreign_visitKeeps (m : Machine) (hroot : root i = some r) :
    (ownEntries σ (m.spaces root) i).VisitKeeps r (σ.own i) fun m' V ↦
      Visited σ root base i m m' V ∧ ∀ {f}, Foreign σ (m.spaces root) base i f → m'.mem f = m.mem f := by
  intro m₁ m₂ V d q table frame h hmem htable hset
  obtain ⟨hvisited, hforeign⟩ := h
  refine ⟨Visited.visitKeeps m hroot hvisited hmem htable hset, fun {f} hf ↦ ?_⟩
  have hf₁ := hvisited.foreign_iff.mpr hf
  have htable' := hvisited.accounted.foreign_ne_table hroot hmem.1 htable hf₁
  rw [← hforeign hf]
  rcases visit_cases htable hset with ⟨-, rfl⟩ | ⟨hfree, -, rfl⟩
  · exact mem_setEntry_of_ne _ htable' _ _
  · refine (mem_setEntry_of_ne _ htable' _ _).trans (mem_attach_of_ne _ ?_ _ htable' ?_)
    · exact hvisited.accounted.free_ne_table hroot hmem.1 htable hfree
    · exact hvisited.accounted.foreign_ne_free hfree hf₁

/-- The pages that the space has got are its own. -/
def GetsOwnPages (σ : Policy ι (ℕ × ℕ)) (root : ι → Option ℕ) (i : ι) (m m' : Machine) : Prop :=
  ∀ {p f : ℕ} {w : Bool}, (m'.spaces root).entry i (3, p) = some (f, w) →
    (m.spaces root).entry i (3, p) = some (f, w) ∨ w = σ.own i

/-- `SetupPageMaps` for pages at which the space has none but its own. -/
theorem Accounted.isolates_setupPageMaps (h : Accounted σ m root base) (hroot : root i = some m.cr3)
    {addr : LinearAddress4Level} (haddr : addr.Valid) {n : ℕ}
    (hpages : ∀ p, addr.pageNumber ≤ p → p < addr.pageNumber + n → p < 512 ^ 4 →
      p / 512 ^ 3 ∈ userHalf ∧
        ∀ f w, (m.spaces root).entry i (3, p) = some (f, w) → w = σ.own i) :
    Isolates σ root base i Set.univ m (m.setupPageMaps addr n (σ.own i)).machine ∧
      GetsOwnPages σ root i m (m.setupPageMaps addr n (σ.own i)).machine := by
  have hwalk := (ownEntries σ (m.spaces root) i).setupPageMaps_walked (V := ∅)
    (foreign_visitKeeps m hroot) (fun m' V hP ↦ hP.1.isTree hroot)
    ⟨Visited.refl h i, fun _ ↦ rfl⟩ haddr fun p hlow hhigh hlt ↦
      ⟨⟨by decide, hlt, (hpages p hlow hhigh hlt).1⟩, fun _ ↦ (hpages p hlow hhigh hlt).2⟩
  have hall : ∀ {V : Finset (ℕ × ℕ)} {m' : Machine}, Visited σ root base i m m' V ∧
      (∀ {f}, Foreign σ (m.spaces root) base i f → m'.mem f = m.mem f) →
        Isolates σ root base i Set.univ m m' ∧ GetsOwnPages σ root i m m' :=
    fun hP ↦ ⟨⟨hP.1.toUpdates.mono (Set.subset_univ _), hP.2⟩, hP.1.own⟩
  cases hresult : (m.setupPageMaps addr n (σ.own i)).result with
  | ok k => exact hall (hwalk.ok k hresult).2
  | error err =>
      obtain ⟨-, -, ⟨V, -, hP⟩, -⟩ := hwalk.error err hresult
      exact hall hP

end Isolates

/-! ## Stores -/

section Stores

variable {ι : Type*} {σ : Policy ι (ℕ × ℕ)} {m m' : Machine} {root : ι → Option ℕ}
  {base : ℕ → Prop} {i : ι}

/-- The pages behind the addresses are the space's own. -/
def OwnRange (σ : Policy ι (ℕ × ℕ)) (E : Spaces ι (ℕ × ℕ) ℕ) (i : ι) (vaddr len : ℕ) : Prop :=
  ∀ k < len, ∀ f w, E.entry i (3, pageOf (vaddr + k)) = some (f, w) → w = σ.own i

theorem Accounted.isolates_storeBytes (h : Accounted σ m root base) (hroot : root i = some m.cr3)
    {bytes : List UInt8} {vaddr : ℕ}
    (hfit : bytes ≠ [] → 2 ^ 64 - 2 ^ 47 ≤ vaddr ∧ vaddr + bytes.length ≤ 2 ^ 64)
    (hown : OwnRange σ (m.spaces root) i vaddr bytes.length)
    (hstore : m.storeBytes vaddr bytes = some m') : Isolates σ root base i ∅ m m' := by
  induction bytes generalizing m vaddr with
  | nil =>
      obtain rfl := Option.some.inj hstore
      exact .refl h i ∅
  | cons b bytes ih =>
      obtain ⟨m₁, hbyte, hrest⟩ := Option.bind_eq_some_iff.mp hstore
      obtain ⟨hlow, hend⟩ := hfit (List.cons_ne_nil b bytes)
      rw [List.length_cons] at hend hown
      have hfirst : m.storeBytes vaddr [b] = some m₁ := by
        rw [Machine.storeBytes, hbyte]
        rfl
      have hupdates := h.storeBytes hroot (fun _ ↦ ⟨hlow, by
        rw [List.length_singleton]
        omega⟩) hfirst
      obtain ⟨phys, hphys, rfl⟩ := Option.map_eq_some_iff.mp hbyte
      obtain ⟨e, hoffset, hentry⟩ := h.exists_page hroot hlow (by omega) hphys
      have hframe : phys / 4096 = e.pointer := by omega
      have hpage := hown 0 (Nat.succ_pos _) _ _ (by rwa [Nat.add_zero])
      have hisolates : Isolates σ root base i ∅ m (m.setEntry (phys / 4096) (phys % 4096 / 8)
          (setByte (m.mem (phys / 4096) (phys % 4096 / 8)) (phys % 8) b)) :=
        ⟨hupdates, fun hf ↦ mem_setEntry_of_ne m (hframe ▸ h.foreign_ne_page hentry hpage hf) _ _⟩
      refine hisolates.trans (ih hupdates.accounted hroot (fun hne ↦ ?_) (fun k hk f w hf ↦ ?_) hrest)
      · have hpos := List.length_pos_of_ne_nil hne
        omega
      · have haddr : (vaddr + 1) % 2 ^ 64 + k = vaddr + (k + 1) := by omega
        rw [haddr, hupdates.changes.same fun _ hin ↦ hin] at hf
        exact hown (k + 1) (by omega) f w hf

end Stores

/-! ## Copies and their cleaning -/

section Copies

variable {ι : Type*} [DecidableEq ι] {σ : Policy ι (ℕ × ℕ)} {m m' : Machine} {root : ι → Option ℕ}
  {base : ℕ → Prop} {i : ι} {d Q k table dest src frame : ℕ} {w : Bool}

omit [DecidableEq ι] in
theorem Accounted.frame_eq_leaf (h : Accounted σ m root base) {r p : ℕ} (hroot : root i = some r)
    (hentry : Entry userHalf 3 p) :
    ((m.spaces root).entry i (3, p)).map Prod.fst = (m.leaf 4 r p).map fun x ↦ x.2.pointer := by
  rw [spaces_entry hroot hentry, ← frameAt_eq, frameAt_eq_pageEntry,
    leaf_of_mem (h.tree hroot).isTree hentry, Option.map_map]
  rfl

omit [DecidableEq ι] in
theorem Accounted.userTables (h : Accounted σ m root base) (hsrc : root i = some src) :
    UserTables m src where
  allocated := fun hentry htable ↦ h.allocated_table hsrc hentry htable
  notHuge := fun hentry _ hd htable _ ↦ (h.words hsrc hentry htable).notHuge hd

omit [DecidableEq ι] in
theorem Accounted.emptyUser {j : ι} (h : Accounted σ m root base) (hdest : root i = some dest)
    (hsrc : root j = some src) (hempty : ∀ k, (m.spaces root).entry i k = none) :
    EmptyUser m dest src where
  allocated := h.separated.alloc_of_owns (o := .root i) hdest
  empty := by
    intro l hlow hl
    have hentry : Entry userHalf 0 l := ⟨by decide, by simpa using hl, by simpa [userHalf] using hlow⟩
    have hnone := (Accounted.entry_eq_cell hdest hentry rfl).symm.trans (hempty (0, l))
    rw [Nat.mod_eq_of_lt hl] at hnone
    by_contra hpresent
    cases hnone.symm.trans (cell_eq rfl (eq_true_of_ne_false hpresent))
  apart := by
    intro d q hentry htable
    have howns : Owns σ (m.spaces root) dest (.root i) := hdest
    cases h.separated.unique (h.owns_table hsrc hentry htable) howns

/-- The pages of a copy are those of its template. -/
theorem Accounted.frames_copyPageMaps (h : Accounted σ m root base) (hσ : Shared σ i)
    (hdest : root i = some dest) (hsrc : root (σ.template i) = some src)
    (hempty : ∀ k, (m.spaces root).entry i k = none)
    (hok : m.copyPageMaps 4 256 dest src = (.ok (), m')) {p : ℕ} (hentry : Entry userHalf 3 p) :
    ((m'.spaces root).entry i (3, p)).map Prod.fst =
      ((m'.spaces root).entry (σ.template i) (3, p)).map Prod.fst := by
  have hupdates := h.copyPageMaps hσ hdest hsrc hempty hok
  have hemptyUser := h.emptyUser hdest hsrc hempty
  have hne : src ≠ dest := by
    rintro rfl
    have howns : Owns σ (m.spaces root) src (.root i) := hdest
    have howns' : Owns σ (m.spaces root) src (.root (σ.template i)) := hsrc
    have heq := h.separated.unique howns howns'
    exact hσ.ne (by injection heq with heq; exact heq.symm)
  have hclones := (copied_copyPageMaps 3 (by decide) ((h.userTables hsrc).copyable hemptyUser hne
    h.rangeEnd) hok).clones (h.userTables hsrc) hemptyUser hne h.rangeEnd
  have hlow : 2 ^ 35 ≤ p := by
    have htop : 256 ≤ p / 512 ^ (3 : ℕ) := hentry.top
    omega
  rw [hupdates.changes.same fun heq ↦ absurd heq hσ.ne, hupdates.accounted.frame_eq_leaf hdest hentry,
    h.frame_eq_leaf hsrc hentry, hclones.pages p hlow hentry.lt, Option.map_map]
  congr 1
  funext x
  exact pointer_setFlag x.2 (by decide) false

/-- An entry of a table, after those below it. -/
theorem Emptied.cleanEntry {freed : List ℕ}
    (h : Emptied σ root base i (row (d + 1) (512 * Q + k) 0) m m' freed) (hown : σ.own i = true)
    (halone : ∀ j, σ.template j ≠ i) (hplace : Place root i m d Q table k) (hk : k < 512)
    (hentry : (m.spaces root).entry i (d, 512 * Q + k) = some (frame, w)) :
    Emptied σ root base i (below d (512 * Q + k)) m
      ((if w then m'.freeFrame frame else m').setEntry table k 0#64)
      (freed ++ if w then [frame] else []) := by
  have hplace' := hplace.of_changes hk (h.changes.mono (row_subset_below d _))
  have hsame := (h.changes.same fun _ ↦ notMem_row_parent d (512 * Q + k) 0 _).trans hentry
  rw [below_eq]
  exact h.trans (h.accounted.cleanEntry hown halone hplace' hk hsame fun q' hq' ↦
    h.empty (d + 1, q') ⟨le_rfl, by simpa using hq', Nat.zero_le _⟩)

/-- What is asked of a cleaning of the entries from depth `d` on. -/
def CleansOwn (σ : Policy ι (ℕ × ℕ)) (root : ι → Option ℕ) (base : ℕ → Prop) (i : ι) (d : ℕ)
    (clean : Machine → ℕ → Cleaned) : Prop :=
  CleansTables σ root base i d clean ∧ ∀ {m : Machine} {Q table f : ℕ}, Accounted σ m root base →
    Place root i m d Q table 0 → Foreign σ (m.spaces root) base i f → (clean m table).machine.mem f = m.mem f

theorem Accounted.foreign_cleanLoop (hown : σ.own i = true) (halone : ∀ j, σ.template j ≠ i)
    (hd : d ≤ 3) {clean : Machine → ℕ → Cleaned} (hclean : d < 3 → CleansOwn σ root base i (d + 1) clean)
    {f : ℕ} (turns : ℕ) : ∀ {k : ℕ} {m : Machine}, Accounted σ m root base → k + turns = 512 →
      Place root i m d Q table k → Foreign σ (m.spaces root) base i f →
        (Machine.cleanLoop clean table (4 - d) turns k m).machine.mem f = m.mem f := by
  induction turns with
  | zero => exact fun _ _ _ _ ↦ rfl
  | succ turns ih =>
      intro k m h hturns hplace hf
      have hk : k < 512 := by omega
      obtain ⟨r, hroot, htable⟩ := hplace.table
      have hne := h.foreign_ne_table hroot (hplace.entry k le_rfl hk) (htable k hk) hf
      rw [Machine.cleanLoop]
      dsimp only
      by_cases habsent : (m.mem table k).present = false
      · rw [if_pos habsent]
        exact ih h (by omega) hplace.next hf
      · rw [if_neg habsent]
        have hpresent : (m.mem table k).present = true := by simpa using habsent
        generalize hsub : (if 1 < 4 - d then clean m (m.mem table k).pointer else ⟨m, []⟩) = sub
        have hbelow : Emptied σ root base i (row (d + 1) (512 * Q + k) 0) m sub.machine sub.freed ∧
            sub.machine.mem f = m.mem f := by
          rw [← hsub]
          split_ifs with hlevel
          · have hplace₁ := hplace.child (by omega) hk hpresent
            obtain ⟨hempties, hforeign⟩ := hclean (by omega)
            exact ⟨hempties h hplace₁, hforeign h hplace₁ hf⟩
          · refine ⟨.refl h fun x hx ↦ spaces_entry_of_not fun hentry ↦ ?_, rfl⟩
            have hdepth := hentry.depth
            have hx' := hx.1
            omega
        have hboth := hbelow.1.cleanEntry hown halone hplace hk
          ((Accounted.entry_eq_cell hroot (hplace.entry k le_rfl hk) (htable k hk)).trans
            (by rw [show (512 * Q + k) % 512 = k by omega]; exact cell_eq rfl hpresent))
        refine (ih hboth.accounted (by omega) (hplace.of_changes hk hboth.changes).next
          (hboth.foreign_iff.mpr hf)).trans ?_
        refine (mem_setEntry_of_ne _ hne _ _).trans (Eq.trans ?_ hbelow.2)
        split_ifs <;> rfl

theorem cleansOwn_cleanPageMap (hown : σ.own i = true) (halone : ∀ j, σ.template j ≠ i)
    {addr : LinearAddress4Level} (L : ℕ) (hL : L ≤ 3) (haddr : ∀ l ≤ L, addr.part (l + 1) = 0) :
    CleansOwn σ root base i (3 - L) (Machine.cleanPageMap addr (L + 1)) := by
  refine ⟨cleansTables_cleanPageMap hown halone L hL haddr, ?_⟩
  induction L with
  | zero =>
      intro m Q table f h hplace hf
      rw [Machine.cleanPageMap, haddr 0 le_rfl]
      exact Accounted.foreign_cleanLoop hown halone le_rfl (fun hd ↦ absurd hd (by decide)) 512 h rfl
        hplace hf
  | succ L ih =>
      intro m Q table f h hplace hf
      have hlevel : L + 1 + 1 = 4 - (3 - (L + 1)) := by omega
      have hdepth : 3 - (L + 1) + 1 = 3 - L := by omega
      have hbelow : ∀ l ≤ L, addr.part (l + 1) = 0 := fun l hl ↦ haddr l (Nat.le_succ_of_le hl)
      rw [Machine.cleanPageMap, haddr (L + 1) le_rfl, hlevel]
      exact Accounted.foreign_cleanLoop hown halone (Nat.sub_le 3 _) (fun _ ↦ hdepth ▸
        ⟨cleansTables_cleanPageMap hown halone L (by omega) hbelow, ih (by omega) hbelow⟩) 512 h rfl
        hplace hf

/-- `CleanPageMaps` for the user half. -/
theorem Accounted.isolates_cleanPageMaps (h : Accounted σ m root base) (hown : σ.own i = true)
    (halone : ∀ j, σ.template j ≠ i) (hroot : root i = some m.cr3) :
    Isolates σ root base i Set.univ m
      (m.cleanPageMaps (.ofValue 0xffff800000000000)).machine := by
  refine ⟨(h.cleanPageMaps hown halone hroot).toUpdates, fun hf ↦ ?_⟩
  have hplace : Place root i m 0 0 m.cr3 256 := by
    refine ⟨fun l hlow hl ↦ ⟨by decide, by simpa using hl, ?_⟩, m.cr3, hroot, fun _ _ ↦ rfl⟩
    change 256 ≤ _
    simpa using hlow
  have hchild : CleansOwn σ root base i 1 (Machine.cleanPageMap (.ofValue 0xffff800000000000) 3) :=
    cleansOwn_cleanPageMap hown halone 2 (by decide) (by decide)
  exact Accounted.foreign_cleanLoop hown halone (Nat.zero_le 3) (fun _ ↦ hchild) 256 h rfl hplace hf

end Copies

/-! ## Reading -/

/-- The byte that the processor reads at a linear address, if it is mapped. -/
def Machine.readAt (m : Machine) (vaddr : ℕ) : Option UInt8 := (m.translate vaddr).map m.byteAt

theorem byteAt_congr {m m' : Machine} {phys : ℕ} (h : m'.mem (phys / 4096) = m.mem (phys / 4096)) :
    m'.byteAt phys = m.byteAt phys := by
  rw [byteAt, byteAt, h]

section Reading

variable {ι : Type*} {σ : Policy ι (ℕ × ℕ)} {m m' : Machine} {root root' : ι → Option ℕ}
  {base base' : ℕ → Prop} {i j : ι} {vaddr : ℕ}

/-- In the user half the page maps decide where a byte is read. -/
theorem Accounted.readAt_eq (h : Accounted σ m root base) (hroot : root i = some m.cr3)
    (hlow : 2 ^ 64 - 2 ^ 47 ≤ vaddr) (hlt : vaddr < 2 ^ 64) :
    m.readAt vaddr = ((m.spaces root).entry i (3, pageOf vaddr)).map fun x ↦
      m.byteAt (x.1 * 4096 + vaddr % 4096) := by
  have hentry := entry_pageOf hlow hlt
  have hcanon : Canonical vaddr := .inr hlow
  have hpage := h.page_eq hroot hentry
  rw [entry_eq_pageEntry hroot hentry, readAt]
  cases hleaf : pageEntry m m.cr3 (pageOf vaddr) with
  | none =>
      rw [hleaf, Option.map_none] at hpage
      rw [translate_eq hcanon, hpage]
      rfl
  | some e =>
      rw [hleaf, Option.map_some] at hpage
      rw [translate_page hcanon hpage]
      rfl

/-- Two spaces that lead to the same frames, with the same words in them, read the same. -/
theorem Accounted.readAt_congr (h : Accounted σ m root base) (h' : Accounted σ m' root' base')
    (hroot : root i = some m.cr3) (hroot' : root' j = some m'.cr3) (hlow : 2 ^ 64 - 2 ^ 47 ≤ vaddr)
    (hlt : vaddr < 2 ^ 64)
    (hframe : ((m'.spaces root').entry j (3, pageOf vaddr)).map Prod.fst =
      ((m.spaces root).entry i (3, pageOf vaddr)).map Prod.fst)
    (hmem : ∀ f w, (m.spaces root).entry i (3, pageOf vaddr) = some (f, w) → m'.mem f = m.mem f) :
    m'.readAt vaddr = m.readAt vaddr := by
  rw [h.readAt_eq hroot hlow hlt, h'.readAt_eq hroot' hlow hlt]
  cases hentry : (m.spaces root).entry i (3, pageOf vaddr) with
  | none =>
      rw [hentry, Option.map_none, Option.map_eq_none_iff] at hframe
      rw [hframe]
      rfl
  | some x =>
      rw [hentry, Option.map_some] at hframe
      obtain ⟨y, hy, hfst⟩ := Option.map_eq_some_iff.mp hframe
      rw [hy, Option.map_some, Option.map_some, hfst]
      have hoffset : (x.1 * 4096 + vaddr % 4096) / 4096 = x.1 := by omega
      exact congrArg some (byteAt_congr (hoffset.symm ▸ hmem x.1 x.2 hentry))

end Reading

end Paging
end MinOS
