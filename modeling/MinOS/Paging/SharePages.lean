import MinOS.Paging.OwnPages

/-!
# Copies that share pages

`CopyPageMaps` gives an address space tables of its own and the pages of its
template, read-only.
-/

namespace MinOS
namespace Paging

open PageMapEntry Machine Ownership

/-! ## Entries below an entry -/

/-- An entry with those below it. -/
def below (d q : ℕ) : Set (ℕ × ℕ) := {x | d ≤ x.1 ∧ x.2 / 512 ^ (x.1 - d) = q}

/-- The entries of a table from the index `k` on, with those below them. -/
def row (d Q k : ℕ) : Set (ℕ × ℕ) :=
  {x | d ≤ x.1 ∧ x.2 / 512 ^ (x.1 - d) / 512 = Q ∧ k ≤ x.2 / 512 ^ (x.1 - d) % 512}

theorem mem_below_self (d q : ℕ) : (d, q) ∈ below d q := by
  refine ⟨le_rfl, ?_⟩
  rw [Nat.sub_self, pow_zero, Nat.div_one]

theorem below_subset_row {d Q k : ℕ} (hk : k < 512) : below d (512 * Q + k) ⊆ row d Q k := by
  rintro x ⟨hd, hx⟩
  refine ⟨hd, ?_, ?_⟩ <;> rw [hx] <;> omega

theorem row_mono {d Q k k' : ℕ} (hk : k ≤ k') : row d Q k' ⊆ row d Q k :=
  fun _ hx ↦ ⟨hx.1, hx.2.1, hk.trans hx.2.2⟩

theorem mem_row_cases {d Q k : ℕ} {x : ℕ × ℕ} (hx : x ∈ row d Q k) :
    x ∈ below d (512 * Q + k) ∨ x ∈ row d Q (k + 1) := by
  obtain ⟨hd, hQ, hk⟩ := hx
  rcases hk.eq_or_lt with heq | hlt
  · exact .inl ⟨hd, by omega⟩
  · exact .inr ⟨hd, hQ, hlt⟩

theorem row_eq {d Q k : ℕ} (hk : k < 512) :
    row d Q k = below d (512 * Q + k) ∪ row d Q (k + 1) :=
  Set.Subset.antisymm (fun _ hx ↦ mem_row_cases hx)
    (Set.union_subset (below_subset_row hk) (row_mono (Nat.le_succ k)))

theorem div_pow_succ {d d' q : ℕ} (hd : d < d') :
    q / 512 ^ (d' - (d + 1)) / 512 = q / 512 ^ (d' - d) := by
  have hdepth : d' - d = d' - (d + 1) + 1 := by omega
  rw [Nat.div_div_eq_div_mul, hdepth, Nat.pow_succ]

theorem row_subset_below (d q : ℕ) : row (d + 1) q 0 ⊆ below d q := by
  rintro x ⟨hd, hq, -⟩
  exact ⟨Nat.le_of_succ_le hd, by rw [← hq, div_pow_succ hd]⟩

theorem mem_below_cases {d q : ℕ} {x : ℕ × ℕ} (hx : x ∈ below d q) :
    x = (d, q) ∨ x ∈ row (d + 1) q 0 := by
  obtain ⟨hd, hq⟩ := hx
  rcases hd.eq_or_lt with heq | hlt
  · left
    rw [← heq, Nat.sub_self, pow_zero, Nat.div_one] at hq
    exact Prod.ext heq.symm hq
  · exact .inr ⟨hlt, by rw [div_pow_succ hlt, hq], Nat.zero_le _⟩

theorem below_eq (d q : ℕ) : below d q = row (d + 1) q 0 ∪ {(d, q)} :=
  Set.Subset.antisymm (fun _ hx ↦ (mem_below_cases hx).symm)
    (Set.union_subset (row_subset_below d q) (Set.singleton_subset_iff.mpr (mem_below_self d q)))

theorem notMem_below_sibling {d Q k l : ℕ} (hne : l ≠ k) :
    (d, 512 * Q + l) ∉ below d (512 * Q + k) := by
  rintro ⟨-, hq⟩
  rw [Nat.sub_self, pow_zero, Nat.div_one] at hq
  omega

theorem notMem_row_parent (d Q k : ℕ) (q : ℕ) : (d, q) ∉ row (d + 1) Q k :=
  fun hx ↦ absurd hx.1 (Nat.not_succ_le_self d)

theorem notMem_below_parent (d q q' : ℕ) : (d, q) ∉ below (d + 1) q' :=
  fun hx ↦ absurd hx.1 (Nat.not_succ_le_self d)

/-! ## A space and its template -/

section Share

variable {ι : Type*} {σ : Policy ι (ℕ × ℕ)} {m m' : Machine}
  {root : ι → Option ℕ} {base : ℕ → Prop} {i : ι} {d Q k dest src frame : ℕ}

/-- A table of a space, with entries of the user half from the index `k` on. -/
structure Place (root : ι → Option ℕ) (i : ι) (m : Machine) (d Q table k : ℕ) : Prop where
  entry : ∀ l, k ≤ l → l < 512 → Entry userHalf d (512 * Q + l)
  table : ∃ r, root i = some r ∧ ∀ l < 512, m.tableOf r d (512 * Q + l) = some table

/-- The tables are at the same place in a space and in its template, and the first
has no entries from the index `k` on. -/
structure Facing (σ : Policy ι (ℕ × ℕ)) (root : ι → Option ℕ) (i : ι) (m : Machine)
    (d Q dest src k : ℕ) : Prop where
  dest : Place root i m d Q dest k
  src : Place root (σ.template i) m d Q src k
  none : ∀ l, k ≤ l → l < 512 → (m.spaces root).entry i (d, 512 * Q + l) = none

/-- The space may lead to pages of its template, which has only its own. -/
structure Shared (σ : Policy ι (ℕ × ℕ)) (i : ι) : Prop where
  own : σ.own i = true
  template : σ.own (σ.template i) = false
  fixed : σ.template (σ.template i) = σ.template i

theorem Shared.ne (h : Shared σ i) : σ.template i ≠ i := by
  intro heq
  have hown := h.own
  rw [← heq, h.template] at hown
  cases hown

theorem user_setFlag (e : PageMapEntry) {k : ℕ} (hk : k < 64) (h : 2 ≠ k) (b : Bool) :
    (e.setFlag k b).user = e.user := by
  rw [user, getLsbD_setFlag e hk, if_neg h, user]

theorem user_setPointer (e : PageMapEntry) (f : ℕ) : (e.setPointer f).user = e.user :=
  getLsbD_setPointer e f (by decide)

theorem userWord_setPointer {e : PageMapEntry} (h : UserWord d e) (f : ℕ) :
    UserWord d (e.setPointer f) where
  notHuge := fun hd ↦ (hugePage_setPointer e f).trans (h.notHuge hd)
  user := fun hpresent ↦ (user_setPointer e f).trans
    (h.user ((present_setPointer e f).symm.trans hpresent))

/-- A table after changes elsewhere. -/
theorem Place.of_same {table : ℕ} (h : Place root i m d Q table k) (hk : k < 512)
    (hsame : ∀ d₀, d = d₀ + 1 →
      (m'.spaces root).entry i (d₀, Q) = (m.spaces root).entry i (d₀, Q)) :
    Place root i m' d Q table k := by
  obtain ⟨r, hroot, htable⟩ := h.table
  refine ⟨h.entry, r, hroot, fun l hl ↦ ?_⟩
  have hquot : ∀ l < 512, (512 * Q + l) / 512 = Q := fun l hl ↦ by omega
  have hsibling : ∀ m : Machine, m.tableOf r d (512 * Q + l) = m.tableOf r d (512 * Q + k) :=
    fun m ↦ EntrySet.tableOf_sibling m r d ((hquot l hl).trans (hquot k hk).symm)
  rw [hsibling, ← htable k hk]
  refine tableOf_eq_of_entry hroot (h.entry k le_rfl hk) fun d₀ hd ↦ ?_
  rw [hquot k hk]
  exact hsame d₀ hd

theorem Place.next {table : ℕ} (h : Place root i m d Q table k) : Place root i m d Q table (k + 1) :=
  ⟨fun l hl ↦ h.entry l (by omega), h.table⟩

/-- A table after a change below one of its entries. -/
theorem Place.of_changes {table : ℕ} (h : Place root i m d Q table k) (hk : k < 512)
    (hchanges : Spaces.ChangesOnly i (below d (512 * Q + k)) (m.spaces root) (m'.spaces root)) :
    Place root i m' d Q table k := by
  refine h.of_same hk fun d₀ hd ↦ hchanges.same fun _ ↦ ?_
  subst hd
  exact notMem_below_parent d₀ Q _

/-- A table of another space after the change. -/
theorem Place.of_other {table : ℕ} {j : ι} {D : Set (ℕ × ℕ)} (h : Place root j m d Q table k)
    (hk : k < 512) (hj : j ≠ i) (hchanges : Spaces.ChangesOnly i D (m.spaces root) (m'.spaces root)) :
    Place root j m' d Q table k :=
  h.of_same hk fun _ _ ↦ hchanges.same fun heq ↦ absurd heq hj

/-- The table behind an entry. -/
theorem Place.child {table : ℕ} (h : Place root i m d Q table k) (hd : d < 3) (hk : k < 512)
    (hpresent : (m.mem table k).present = true) :
    Place root i m (d + 1) (512 * Q + k) (m.mem table k).pointer 0 := by
  obtain ⟨r, hroot, htable⟩ := h.table
  have hindex : (512 * Q + k) % 512 = k := by omega
  refine ⟨fun l _ hl ↦ (h.entry k le_rfl hk).child hd hl, r, hroot, fun l hl ↦ ?_⟩
  rw [tableOf_child hl (htable k hk) (by rwa [hindex]), hindex]

theorem Facing.next (h : Facing σ root i m d Q dest src k) (hk : k < 512) (hσ : Shared σ i)
    (hchanges : Spaces.ChangesOnly i (below d (512 * Q + k)) (m.spaces root) (m'.spaces root)) :
    Facing σ root i m' d Q dest src (k + 1) := by
  refine ⟨(h.dest.of_changes hk hchanges).next, (h.src.of_other hk hσ.ne hchanges).next,
    fun l hl hlt ↦ ?_⟩
  rw [hchanges.same fun _ ↦ notMem_below_sibling (show l ≠ k by omega)]
  exact h.none l (by omega) hlt

/-- A present entry of the template owns the frame behind it. -/
theorem Accounted.owns_template (h : Accounted σ m root base) (hσ : Shared σ i) {q f : ℕ} {w : Bool}
    (hentry : (m.spaces root).entry (σ.template i) (3, q) = some (f, w)) :
    Owns σ (m.spaces root) f (.entry (σ.template i) (3, q)) := by
  by_cases hw : w = σ.own (σ.template i)
  · exact ⟨w, hentry, fun _ ↦ hw⟩
  · have howns := h.separated.shared ((h.leaf _).mpr rfl) hentry hw
    rwa [hσ.fixed] at howns

variable [DecidableEq ι]

/-- One page. -/
theorem Accounted.copyPage (h : Accounted σ m root base) (hσ : Shared σ i)
    (hfacing : Facing σ root i m 3 Q dest src k) (hk : k < 512)
    (hpresent : (m.mem src k).present = true) :
    Updates σ root base i (below 3 (512 * Q + k)) m
      ((m.setEntry dest k (m.mem src k)).setEntry dest k
        (((m.setEntry dest k (m.mem src k)).mem dest k).setFlag 1 false)) := by
  obtain ⟨r, hroot, hdest⟩ := hfacing.dest.table
  obtain ⟨r', hroot', hsrc⟩ := hfacing.src.table
  have hentry := hfacing.dest.entry k le_rfl hk
  have hindex : (512 * Q + k) % 512 = k := by omega
  have htemplate : (m.spaces root).entry (σ.template i) (3, 512 * Q + k) =
      some ((m.mem src k).pointer, (m.mem src k).writable) := by
    rw [Accounted.entry_eq_cell hroot' hentry (hsrc k hk), hindex, cell_eq rfl hpresent]
  have hpointer : ((m.mem src k).setFlag 1 false).pointer = (m.mem src k).pointer :=
    pointer_setFlag _ (by decide) false
  have hwritable : ((m.mem src k).setFlag 1 false).writable = false := by
    rw [writable, getLsbD_setFlag _ (by decide), if_pos rfl]
  have huser : ((m.mem src k).setFlag 1 false).user = true := by
    rw [user_setFlag _ (by decide) (by decide)]
    exact (hindex ▸ h.words hroot' hentry (hsrc k hk)).user hpresent
  have hmem : ∀ g l, ((m.setEntry dest k (m.mem src k)).setEntry dest k
      (((m.setEntry dest k (m.mem src k)).mem dest k).setFlag 1 false)).mem g l =
        if g = dest ∧ l = (512 * Q + k) % 512 then (m.mem src k).setFlag 1 false else m.mem g l := by
    intro g l
    simp only [mem_setEntry, and_self, if_true, hindex]
    split_ifs <;> rfl
  obtain ⟨haccounted, hspaces⟩ := h.share hroot hentry (hdest k hk) hmem rfl
    (by rw [present_setFlag _ (by decide) (by decide), hpresent]) huser
    (by rw [hwritable, hσ.own]; decide) (hfacing.none k le_rfl hk)
    (hpointer ▸ h.owns_template hσ htemplate)
  refine ⟨rfl, haccounted, ?_, fun hout ↦ ?_⟩
  · rw [hspaces]
    exact .set (mem_below_self 3 _) _
  · rw [hmem, if_neg (h.outside_ne_place hroot hentry (hdest k hk) hout)]

theorem Accounted.copyPages (hσ : Shared σ i) (turns : ℕ) : ∀ {k : ℕ} {m : Machine},
    Accounted σ m root base → k + turns = 512 → Facing σ root i m 3 Q dest src k →
      Updates σ root base i (row 3 Q k) m (Machine.copyPages dest src turns k m) := by
  induction turns with
  | zero => exact fun h _ _ ↦ .refl h i _
  | succ turns ih =>
      intro k m h hturns hfacing
      have hk : k < 512 := by omega
      rw [Machine.copyPages]
      split_ifs with habsent
      · exact (ih h (by omega) (hfacing.next hk hσ (.refl i _ _))).mono (row_mono (Nat.le_succ k))
      · have hpage := h.copyPage hσ hfacing hk (by simpa using habsent)
        have hrest := ih hpage.accounted (by omega) (hfacing.next hk hσ hpage.changes)
        exact (hpage.mono (below_subset_row hk)).trans (hrest.mono (row_mono (Nat.le_succ k)))

/-- The entry above one table. -/
theorem Accounted.copyTable (h : Accounted σ m root base) (hσ : Shared σ i)
    (hfacing : Facing σ root i m d Q dest src k) (hd : d < 3) (hk : k < 512)
    (hpresent : (m.mem src k).present = true) (hfree : frame ∈ m.memoryManager.freeFrames)
    {m₁ m₂ : Machine} (hm₁ : m₁ = m.takeFrame frame fun _ ↦ 0#64)
    (hm₂ : m₂ = (m₁.setEntry dest k (m₁.mem src k)).setEntry dest k
      (((m₁.setEntry dest k (m₁.mem src k)).mem dest k).setPointer frame)) :
    Updates σ root base i (below d (512 * Q + k)) m m₂ ∧ m₂.mem src k = m.mem src k ∧
      Facing σ root i m₂ (d + 1) (512 * Q + k) frame (m.mem src k).pointer 0 := by
  obtain ⟨r, hroot, hdest⟩ := hfacing.dest.table
  obtain ⟨r', hroot', hsrc⟩ := hfacing.src.table
  have hentry := hfacing.dest.entry k le_rfl hk
  have hindex : (512 * Q + k) % 512 = k := by omega
  have hlt := BitmapMemoryManager.lt_of_mem_freeFrames h.rangeEnd hfree
  have hfresh : src ≠ frame := (h.free_ne_table hroot' hentry (hsrc k hk) hfree).symm
  have hword : m₁.mem src k = m.mem src k := by
    rw [hm₁, mem_takeFrame, if_neg hfresh]
  have htemplate : (m.spaces root).entry (σ.template i) (d, 512 * Q + k) =
      some ((m.mem src k).pointer, (m.mem src k).writable) := by
    rw [Accounted.entry_eq_cell hroot' hentry (hsrc k hk), hindex, cell_eq rfl hpresent]
  have hmem : ∀ g l, m₂.mem g l =
      if g = dest ∧ l = (512 * Q + k) % 512 then (m.mem src k).setPointer frame
      else if g = frame then 0#64 else m.mem g l := by
    intro g l
    simp only [hm₂, mem_setEntry, and_self, if_true, hindex, hword]
    split_ifs with hhere hframe
    · rfl
    · rw [hm₁, mem_takeFrame, if_pos hframe]
    · rw [hm₁, mem_takeFrame, if_neg hframe]
  obtain ⟨haccounted, hspaces⟩ := h.link hroot hentry (hdest k hk) hfree hmem
    (by rw [hm₂, hm₁]; rfl) (by rw [present_setPointer, hpresent]) (pointer_setPointer _ hlt)
    (userWord_setPointer (hindex ▸ h.words hroot' hentry (hsrc k hk)) frame)
    (fun _ ↦ rfl) (fun hd' ↦ absurd hd' hd.ne)
    (fun hd' ↦ (writable_setPointer _ _).trans (h.inner hd' htemplate))
    (h.cleared_of_none (hfacing.none k le_rfl hk))
    (fun q' hq' ↦ spaces_below_none (hfacing.none k le_rfl hk) hq')
  have hchanges : Spaces.ChangesOnly i (below d (512 * Q + k)) (m.spaces root) (m₂.spaces root) := by
    rw [hspaces]
    exact .set (mem_below_self d _) _
  have hsource : m₂.mem src k = m.mem src k := by
    rw [hmem, if_neg, if_neg hfresh]
    rintro ⟨rfl, -⟩
    exact hσ.ne (h.table_unique hroot hentry (hdest k hk) hroot' hentry (hsrc k hk)).1.symm
  have hlink : m₂.mem dest k = (m.mem src k).setPointer frame := by
    rw [hmem, if_pos ⟨rfl, hindex.symm⟩]
  have hdest₂ := (hfacing.dest.of_changes hk hchanges).child hd hk
    (by rw [hlink, present_setPointer, hpresent])
  have hsrc₂ := (hfacing.src.of_other hk hσ.ne hchanges).child hd hk (by rw [hsource, hpresent])
  rw [hlink, pointer_setPointer _ hlt] at hdest₂
  rw [hsource] at hsrc₂
  have houtside : ∀ {f l}, Outside root base f l → m₂.mem f l = m.mem f l := fun hout ↦ by
    rw [hmem, if_neg (h.outside_ne_place hroot hentry (hdest k hk) hout),
      if_neg (h.outside_ne_free hout hfree)]
  refine ⟨⟨by rw [hm₂, hm₁]; rfl, haccounted, hchanges, houtside⟩, hsource,
    ⟨hdest₂, hsrc₂, fun l _ hl ↦ ?_⟩⟩
  have hdepth : ¬ (i = i ∧ (d + 1, 512 * (512 * Q + k) + l) = (d, 512 * Q + k)) := by
    rintro ⟨-, heq⟩
    exact absurd (Prod.mk.inj heq).1 (Nat.succ_ne_self d)
  rw [hspaces, Spaces.set_entry_of_ne _ _ hdepth]
  exact spaces_below_none (hfacing.none k le_rfl hk) (by omega)

/-- What is asked of a copy of the entries from depth `d` on. -/
def CopiesTables (σ : Policy ι (ℕ × ℕ)) (root : ι → Option ℕ) (base : ℕ → Prop) (i : ι) (d : ℕ)
    (copy : Machine → ℕ → ℕ → Except Error Unit × Machine) : Prop :=
  ∀ {m m' : Machine} {Q dest src : ℕ}, Accounted σ m root base →
    Facing σ root i m d Q dest src 0 → copy m dest src = (.ok (), m') →
      Updates σ root base i (row d Q 0) m m'

theorem Accounted.copyTables (hσ : Shared σ i) (hd : d < 3)
    {copy : Machine → ℕ → ℕ → Except Error Unit × Machine}
    (hcopy : CopiesTables σ root base i (d + 1) copy) (turns : ℕ) : ∀ {k : ℕ} {m : Machine},
    Accounted σ m root base → k + turns = 512 → Facing σ root i m d Q dest src k →
      Machine.copyTables copy dest src turns k m = (.ok (), m') →
        Updates σ root base i (row d Q k) m m' := by
  induction turns with
  | zero =>
      intro k m h _ _ hok
      obtain ⟨-, rfl⟩ := Prod.mk.inj hok
      exact .refl h i _
  | succ turns ih =>
      intro k m h hturns hfacing hok
      have hk : k < 512 := by omega
      rw [Machine.copyTables] at hok
      split_ifs at hok with habsent
      · exact (ih h (by omega) (hfacing.next hk hσ (.refl i _ _)) hok).mono (row_mono (Nat.le_succ k))
      · have hpresent : (m.mem src k).present = true := by simpa using habsent
        rcases newPageMap_eq m with ⟨frame, hfree, hnew⟩ | ⟨-, hnew⟩
        · rw [hnew] at hok
          dsimp only at hok
          obtain ⟨m₁, hm₁⟩ : ∃ m₁, m₁ = m.takeFrame frame fun _ ↦ 0#64 := ⟨_, rfl⟩
          obtain ⟨m₂, hm₂⟩ : ∃ m₂, m₂ = (m₁.setEntry dest k (m₁.mem src k)).setEntry dest k
            (((m₁.setEntry dest k (m₁.mem src k)).mem dest k).setPointer frame) := ⟨_, rfl⟩
          obtain ⟨hentry, hsource, hchild⟩ :=
            h.copyTable hσ hfacing hd hk hpresent hfree hm₁ hm₂
          rw [← hm₁, ← hm₂, hsource] at hok
          rcases hsub : copy m₂ frame (m.mem src k).pointer with ⟨result, m₃⟩
          rw [hsub] at hok
          cases result with
          | error e => cases hok
          | ok _ =>
              dsimp only at hok
              have hbelow : Updates σ root base i (below d (512 * Q + k)) m m₃ :=
                hentry.trans ((hcopy hentry.accounted hchild hsub).mono (row_subset_below d _))
              have hrest := ih hbelow.accounted (by omega)
                (hfacing.next hk hσ hbelow.changes) hok
              exact (hbelow.mono (below_subset_row hk)).trans (hrest.mono (row_mono (Nat.le_succ k)))
        · rw [hnew] at hok
          cases hok

theorem copiesTables_copyPageMaps (hσ : Shared σ i) (L : ℕ) (hL : L ≤ 3) :
    CopiesTables σ root base i (3 - L) (Machine.copyPageMaps (L + 1) 0) := by
  induction L with
  | zero =>
      intro m m' Q dest src h hfacing hok
      obtain ⟨-, rfl⟩ := Prod.mk.inj hok
      exact Accounted.copyPages hσ 512 h (by omega) hfacing
  | succ L ih =>
      intro m m' Q dest src h hfacing hok
      have hdepth : 3 - (L + 1) + 1 = 3 - L := by omega
      exact Accounted.copyTables hσ (by omega) (hdepth ▸ ih (by omega)) 512 h (by omega) hfacing hok

/-- The user half of a PML4 becomes a copy of the template's. -/
theorem Accounted.copyPageMaps (h : Accounted σ m root base) (hσ : Shared σ i)
    (hdest : root i = some dest) (hsrc : root (σ.template i) = some src)
    (hempty : ∀ k, (m.spaces root).entry i k = none)
    (hok : m.copyPageMaps 4 256 dest src = (.ok (), m')) :
    Updates σ root base i Set.univ m m' := by
  have hentry : ∀ l, 256 ≤ l → l < 512 → Entry userHalf 0 (512 * 0 + l) := by
    intro l hlow hl
    refine ⟨by decide, by simpa using hl, ?_⟩
    change 256 ≤ _
    simpa using hlow
  have hfacing : Facing σ root i m 0 0 dest src 256 :=
    ⟨⟨hentry, dest, hdest, fun _ _ ↦ rfl⟩, ⟨hentry, src, hsrc, fun _ _ ↦ rfl⟩,
      fun _ _ _ ↦ hempty _⟩
  exact (Accounted.copyTables hσ (by decide) (copiesTables_copyPageMaps hσ 2 (by decide)) 256 h rfl
    hfacing hok).mono (Set.subset_univ _)

end Share

end Paging
end MinOS
