import MinOS.Paging.Range

/-!
# The contents of pages

Page maps that have grown are page maps again.  A store through a page changes
the bytes of its frame, and no translation as long as that frame is no table.
-/

namespace MinOS
namespace Paging

open PageMapEntry Machine

/-- Page maps whose entries that are not present have a clear page size bit. -/
structure AddressSpace (m : Machine) : Prop extends PageTree m where
  clear : ∀ {d q table}, (m.smallEntries m.cr3).Holds d q → 0 < d → d < 3 →
    m.tableOf m.cr3 d q = some table → (m.mem table (q % 512)).present = false →
    (m.mem table (q % 512)).hugePage = false

/-- The frame is none of the tables. -/
def NoTable (m : Machine) (f : ℕ) : Prop :=
  ∀ ⦃d q table : ℕ⦄, (m.smallEntries m.cr3).Holds d q → m.tableOf m.cr3 d q = some table → table ≠ f

theorem quot_eq (p : ℕ) {d : ℕ} (hd : d < 3) :
    p / 512 ^ (3 - (d + 1)) / 512 = p / 512 ^ (3 - d) := by
  have hlevel : 3 - d = (3 - (d + 1)).succ := by omega
  rw [Nat.div_div_eq_div_mul, ← Nat.pow_succ, ← hlevel]

theorem leaf_huge {m : Machine} {level table p : ℕ}
    (h : (m.mem table (p / 512 ^ level % 512)).present = true) (hlevel : level < 3)
    (hhuge : (m.mem table (p / 512 ^ level % 512)).hugePage = true) :
    m.leaf (level + 1) table p = some (level, m.mem table (p / 512 ^ level % 512)) := by
  simp [leaf, h, hlevel, hhuge]

/-- There is no huge page on the way to a page that is in none. -/
theorem AddressSpace.small_of_page {m : Machine} (h : AddressSpace m) {p : ℕ}
    (hlt : p < 512 ^ 4) (hpage : ∀ l e, m.page p = some (l, e) → l = 0) : m.Small m.cr3 3 p := by
  have hdown : ∀ d ≤ 3, m.Small m.cr3 d (p / 512 ^ (3 - d)) ∧ ∀ table,
      m.tableOf m.cr3 d (p / 512 ^ (3 - d)) = some table →
        m.leaf (3 - d + 1) table p = m.page p := by
    intro d
    induction d with
    | zero =>
        refine fun _ ↦ ⟨show p / 512 ^ 3 < 512 by omega, fun table htable ↦ ?_⟩
        obtain rfl := Option.some.inj htable
        rfl
    | succ d ih =>
        intro hd
        obtain ⟨hsmall, hleaf⟩ := ih (by omega)
        have hquot := quot_eq p hd
        have hholds : (m.smallEntries m.cr3).Holds (d + 1) (p / 512 ^ (3 - (d + 1))) := by
          refine ⟨by omega, ?_⟩
          rw [hquot]
          exact hsmall
        have hnext : ∀ table, m.tableOf m.cr3 (d + 1) (p / 512 ^ (3 - (d + 1))) = some table →
            m.leaf (3 - (d + 1) + 1) table p = m.page p := by
          intro table htable
          rw [tableOf, hquot] at htable
          obtain ⟨parent, hparent, hchild⟩ := Option.bind_eq_some_iff.mp htable
          obtain ⟨hpresent, rfl⟩ := Mapped.child_eq_some hchild
          have hlevel : 3 - (d + 1) + 1 = 3 - d := by omega
          rw [hlevel, ← leaf_down hpresent (by omega) fun hhuge ↦
            h.isTree.notHuge hsmall (by omega) hd hparent]
          exact hleaf parent hparent
        refine ⟨small_of_holds hholds fun _ hlt table htable ↦ ?_, hnext⟩
        cases hpresent : (m.mem table (p / 512 ^ (3 - (d + 1)) % 512)).present with
        | false => exact h.clear hholds (Nat.succ_pos d) hlt htable hpresent
        | true =>
            by_contra hhuge
            have hend := leaf_huge hpresent (by omega) (by simpa using hhuge)
            have hzero := hpage _ _ ((hnext table htable).symm.trans hend)
            omega
  simpa using (hdown 3 le_rfl).1

theorem AddressSpace.small_of_page_none {m : Machine} (h : AddressSpace m) {p : ℕ}
    (hlt : p < 512 ^ 4) (hpage : m.page p = none) : m.Small m.cr3 3 p :=
  h.small_of_page hlt fun l e he ↦ by simp [hpage] at he

namespace Grown

variable {m m' : Machine} {W : Finset (ℕ × ℕ)} {w : Bool}
  (h : Grown (m.smallEntries m.cr3) m m' W) (hm : PageTree m)
  (hW : ∀ d q, (d, q) ∈ W → m.Small m.cr3 d q)

include h hm hW

theorem small_iff (d q : ℕ) : m'.Small m.cr3 d q ↔ m.Small m.cr3 d q := by
  induction d generalizing q with
  | zero => exact Iff.rfl
  | succ d ih =>
      constructor
      · rintro ⟨hparent, hdepth, hclear⟩
        by_cases hin : (d + 1, q) ∈ W
        · exact hW _ _ hin
        · have hparent' := (ih _).mp hparent
          refine ⟨hparent', hdepth, fun hlt table htable ↦ ?_⟩
          have htable' : m'.tableOf m.cr3 (d + 1) q = some table := h.kept hparent' htable
          have hholds : (m.smallEntries m.cr3).Holds (d + 1) q := ⟨hdepth, hparent'⟩
          rw [← h.mem_unvisited hm.isTree hholds htable htable' hin]
          exact hclear hlt table htable'
      · intro hsmall
        refine ⟨(ih _).mpr hsmall.1, hsmall.2.1, fun hlt table htable ↦ ?_⟩
        have hmem : (m.smallEntries m.cr3).Mem (d + 1) q := hsmall
        exact h.tree.notHuge hmem (Nat.succ_pos d) hlt htable

theorem smallEntries_eq : m'.smallEntries m'.cr3 = m.smallEntries m.cr3 := by
  rw [h.cr3, smallEntries, smallEntries]
  congr 1
  funext d q
  exact propext (h.small_iff hm hW d q)

theorem pageTree : PageTree m' := by
  have htree := h.tree
  have hsmall : ∀ {d q}, m'.Small m'.cr3 d q → (m.smallEntries m.cr3).Mem d q := by
    intro d q hsmall
    rw [h.cr3] at hsmall
    exact (h.small_iff hm hW d q).mp hsmall
  refine ⟨h.cr3 ▸ htree.rootAllocated, htree.rangeEnd, ?_, ?_, ?_⟩
  · intro d q frame hd hframe
    exact htree.allocated (hsmall hd) (h.cr3 ▸ hframe)
  · intro d q frame hd hlt hframe
    exact h.cr3 ▸ htree.ne_root (hsmall hd) hlt (h.cr3 ▸ hframe)
  · intro d q d' q' frame hd hd' hlt hlt' hframe hframe'
    exact htree.inj (hsmall hd) (hsmall hd') hlt hlt' (h.cr3 ▸ hframe) (h.cr3 ▸ hframe')

end Grown

namespace Grown

variable {m m' : Machine} {W : Finset (ℕ × ℕ)} {w : Bool}
  (h : Grown (m.smallEntries m.cr3) m m' W) (hm : PageTree m)

include h

variable (hW : ∀ d q, (d, q) ∈ W → m.Small m.cr3 d q)

include hm hW

theorem addressSpace (hspace : AddressSpace m)
    (hflag : Flagged (m.smallEntries m.cr3) w m.cr3 m' W) : AddressSpace m' := by
  refine ⟨h.pageTree hm hW, ?_⟩
  rw [h.smallEntries_eq hm hW, h.cr3]
  intro d q table hholds hpos hd htable habsent
  by_cases hin : (d, q) ∈ W
  · obtain ⟨g, hg, hpresent, -⟩ := hflag hin (hW _ _ hin)
    obtain rfl := Option.some.inj (htable.symm.trans hg)
    cases habsent.symm.trans hpresent
  · rcases h.tableOf_cases hholds htable with hold | ⟨-, hfree⟩
    · have hsame := h.mem_unvisited hm.isTree hholds hold htable hin
      rw [hsame] at habsent ⊢
      exact hspace.clear hholds hpos hd hold habsent
    · have hzero : m'.mem table (q % 512) = 0#64 := by
        refine h.zero hfree (h.tree.tableOf_allocated hholds htable) fun d' q' hin' hmem' hg hindex ↦ ?_
        obtain ⟨rfl, rfl⟩ := h.tree.entry_unique (EntrySet.holds hmem') hholds hg htable hindex
        exact hin hin'
      rw [hzero]
      rfl

theorem noTable {f : ℕ} (hbit : m.memoryManager.getBit f = true) (hf : NoTable m f) :
    NoTable m' f := by
  intro d q table hholds htable
  rw [h.smallEntries_eq hm hW] at hholds
  rw [h.cr3] at htable
  rcases h.tableOf_cases hholds htable with hold | ⟨-, hfree⟩
  · exact hf hholds hold
  · rintro rfl
    exact notMem_freeFrames_of_getBit hbit hfree

/-- A frame that is no table keeps its content. -/
theorem mem_same {f : ℕ} (hbit : m.memoryManager.getBit f = true) (hf : NoTable m f) :
    m'.mem f = m.mem f := by
  funext i
  apply h.same
  · exact fun hfree ↦ absurd hfree (notMem_freeFrames_of_getBit hbit)
  · intro d q hin hmem hg
    have hholds := EntrySet.holds hmem
    rw [← h.smallEntries_eq hm hW] at hholds
    exact absurd rfl (h.noTable hm hW hbit hf hholds (h.cr3 ▸ hg))

end Grown

/-! ## Stores -/

/-- Only the words of one frame are written. -/
structure StoresTo (f : ℕ) (m m' : Machine) : Prop where
  cr3 : m'.cr3 = m.cr3
  memoryManager : m'.memoryManager = m.memoryManager
  same : ∀ g, g ≠ f → m'.mem g = m.mem g

namespace StoresTo

variable {f : ℕ} {m m' m'' : Machine}

theorem refl (f : ℕ) (m : Machine) : StoresTo f m m := ⟨rfl, rfl, fun _ _ ↦ rfl⟩

theorem trans (h : StoresTo f m m') (h' : StoresTo f m' m'') : StoresTo f m m'' :=
  ⟨h'.cr3.trans h.cr3, h'.memoryManager.trans h.memoryManager,
    fun g hg ↦ (h'.same g hg).trans (h.same g hg)⟩

section Tables

variable (h : StoresTo f m m') (hf : NoTable m f)

include h hf

theorem frameAt_eq {d q : ℕ} (hmem : (m.smallEntries m.cr3).Mem d q) :
    m'.frameAt m.cr3 d q = m.frameAt m.cr3 d q := by
  refine EntrySet.frameAt_of_same (fun d q table hmem htable ↦ ?_) hmem
  rw [child, h.same table (hf (EntrySet.holds hmem) htable), child]

theorem tableOf_eq {d q : ℕ} (hholds : (m.smallEntries m.cr3).Holds d q) :
    m'.tableOf m.cr3 d q = m.tableOf m.cr3 d q := by
  cases d with
  | zero => rfl
  | succ d => exact h.frameAt_eq hf hholds.2

theorem small_iff (d q : ℕ) : m'.Small m.cr3 d q ↔ m.Small m.cr3 d q := by
  induction d generalizing q with
  | zero => exact Iff.rfl
  | succ d ih =>
      have hsame : m.Small m.cr3 d (q / 512) → d + 1 < 4 → ∀ table,
          m'.tableOf m.cr3 (d + 1) q = m.tableOf m.cr3 (d + 1) q ∧
            (m.tableOf m.cr3 (d + 1) q = some table → m'.mem table = m.mem table) := by
        intro hparent hdepth table
        have hholds : (m.smallEntries m.cr3).Holds (d + 1) q := ⟨hdepth, hparent⟩
        exact ⟨h.tableOf_eq hf hholds, fun htable ↦ h.same table (hf hholds htable)⟩
      constructor
      · rintro ⟨hparent, hdepth, hclear⟩
        have hparent' := (ih _).mp hparent
        refine ⟨hparent', hdepth, fun hlt table htable ↦ ?_⟩
        obtain ⟨heq, hmem⟩ := hsame hparent' hdepth table
        rw [← hmem htable]
        exact hclear hlt table (heq.trans htable)
      · rintro ⟨hparent, hdepth, hclear⟩
        refine ⟨(ih _).mpr hparent, hdepth, fun hlt table htable ↦ ?_⟩
        obtain ⟨heq, hmem⟩ := hsame hparent hdepth table
        rw [heq] at htable
        rw [hmem htable]
        exact hclear hlt table htable

theorem smallEntries_eq : m'.smallEntries m'.cr3 = m.smallEntries m.cr3 := by
  rw [h.cr3, smallEntries, smallEntries]
  congr 1
  funext d q
  exact propext (h.small_iff hf d q)

theorem addressSpace (hm : AddressSpace m) : AddressSpace m' := by
  have hsmall : ∀ {d q}, m'.Small m'.cr3 d q → (m.smallEntries m.cr3).Mem d q := by
    intro d q hsmall
    rw [h.cr3] at hsmall
    exact (h.small_iff hf d q).mp hsmall
  have hframe : ∀ {d q}, m'.Small m'.cr3 d q → m'.frameAt m'.cr3 d q = m.frameAt m.cr3 d q := by
    intro d q hd
    rw [h.cr3]
    exact h.frameAt_eq hf (hsmall hd)
  refine ⟨⟨?_, ?_, ?_, ?_, ?_⟩, ?_⟩
  · rw [h.cr3, h.memoryManager]
    exact hm.rootAllocated
  · rw [h.memoryManager]
    exact hm.rangeEnd
  · intro d q frame hd hsome
    rw [h.memoryManager]
    exact hm.allocated (hsmall hd) (hframe hd ▸ hsome)
  · intro d q frame hd hlt hsome
    rw [h.cr3]
    exact hm.ne_root (hsmall hd) hlt (hframe hd ▸ hsome)
  · intro d q d' q' frame hd hd' hlt hlt' hsome hsome'
    exact hm.inj (hsmall hd) (hsmall hd') hlt hlt' (hframe hd ▸ hsome) (hframe hd' ▸ hsome')
  · rw [h.smallEntries_eq hf, h.cr3]
    intro d q table hholds hpos hd htable habsent
    rw [h.tableOf_eq hf hholds] at htable
    rw [h.same table (hf hholds htable)] at habsent ⊢
    exact hm.clear hholds hpos hd htable habsent

theorem noTable {g : ℕ} (hg : NoTable m g) : NoTable m' g := by
  intro d q table hholds htable
  rw [h.smallEntries_eq hf] at hholds
  rw [h.cr3, h.tableOf_eq hf hholds] at htable
  exact hg hholds htable

theorem leaf_eq {p : ℕ} : ∀ {L table : ℕ}, L ≤ 3 →
    (m.smallEntries m.cr3).Holds (3 - L) (p / 512 ^ L) →
    m.tableOf m.cr3 (3 - L) (p / 512 ^ L) = some table →
    m'.leaf (L + 1) table p = m.leaf (L + 1) table p := by
  intro L
  induction L with
  | zero =>
      intro table _ hholds htable
      simp [leaf, h.same table (hf hholds htable)]
  | succ L ih =>
      intro table hL hholds htable
      have hsame := h.same table (hf hholds htable)
      cases hpresent : (m.mem table (p / 512 ^ (L + 1) % 512)).present with
      | false => rw [leaf_absent hpresent, leaf_absent (hsame ▸ hpresent)]
      | true =>
          by_cases hhuge : L + 1 < 3 ∧ (m.mem table (p / 512 ^ (L + 1) % 512)).hugePage = true
          · rw [leaf_huge hpresent hhuge.1 hhuge.2,
              leaf_huge (hsame ▸ hpresent) hhuge.1 (hsame ▸ hhuge.2), hsame]
          · have hclear : L + 1 < 3 → (m.mem table (p / 512 ^ (L + 1) % 512)).hugePage = false := by
              intro hlt
              simpa [hlt] using hhuge
            have hmem : m.Small m.cr3 (3 - (L + 1)) (p / 512 ^ (L + 1)) :=
              small_of_clear hholds htable hclear
            obtain ⟨hdepth, hquot⟩ := parent_eq (p := p) hL
            rw [leaf_down hpresent (Nat.succ_ne_zero L) hclear,
              leaf_down (hsame ▸ hpresent) (Nat.succ_ne_zero L) (hsame ▸ hclear), hsame]
            refine ih (Nat.le_of_succ_le hL) ?_
              ((tableOf_below hL htable).trans (child_of_present hpresent))
            rw [hdepth]
            exact ⟨by omega, by rwa [hquot]⟩

theorem page_eq {p : ℕ} (hlt : p < 512 ^ 4) : m'.page p = m.page p := by
  rw [page, page, h.cr3]
  exact h.leaf_eq hf (le_refl 3) (show p / 512 ^ 3 < 512 by omega) rfl

end Tables
end StoresTo

theorem byte_setByte (w : BitVec 64) {k j : ℕ} (hj : j < 8) (b : UInt8) :
    (setByte w k b).extractLsb' (8 * j) 8 =
      if j = k then b.toBitVec else w.extractLsb' (8 * j) 8 := by
  apply BitVec.eq_of_getLsbD_eq
  intro i hi
  have hmask : ∀ n, (0xff#64).getLsbD n = decide (n < 8) := by
    intro n
    by_cases hn : n < 64
    · interval_cases n <;> decide
    · rw [BitVec.getLsbD_of_ge _ _ (by omega)]
      simp only [Bool.false_eq, decide_eq_false_iff_not]
      omega
  have hlt : 8 * j + i < 64 := by omega
  simp only [setByte, BitVec.getLsbD_extractLsb', BitVec.getLsbD_or, BitVec.getLsbD_and,
    BitVec.getLsbD_not, BitVec.getLsbD_shiftLeft, BitVec.getLsbD_setWidth, hmask]
  rcases Nat.lt_trichotomy j k with hjk | rfl | hjk
  · have hbelow : 8 * j + i < 8 * k := by omega
    simp [hbelow, hlt, hi, hjk.ne]
  · have hsub : 8 * j + i - 8 * j = i := by omega
    have hi' : i < 64 := by omega
    simp [hsub, hlt, hi, hi']
  · have habove : ¬ 8 * j + i < 8 * k := by omega
    have hfar : ¬ 8 * j + i - 8 * k < 8 := by omega
    have hzero : b.toBitVec.getLsbD (8 * j + i - 8 * k) = false :=
      BitVec.getLsbD_of_ge _ _ (by omega)
    simp [habove, hfar, hzero, hlt, hi, hjk.ne']

theorem byteAt_setEntry (m : Machine) (f : ℕ) {o o' : ℕ} (ho' : o' < 4096)
    (b : UInt8) :
    (m.setEntry f (o / 8) (setByte (m.mem f (o / 8)) (o % 8) b)).byteAt (f * 4096 + o') =
      if o' = o then b else m.byteAt (f * 4096 + o') := by
  have hframe : (f * 4096 + o') / 4096 = f := by omega
  have hoffset : (f * 4096 + o') % 4096 = o' := by omega
  have hbyte : (f * 4096 + o') % 8 = o' % 8 := by omega
  simp only [byteAt, hframe, hoffset, hbyte, mem_setEntry, true_and]
  by_cases hword : o' / 8 = o / 8
  · have hiff : o' % 8 = o % 8 ↔ o' = o := by omega
    rw [if_pos hword, byte_setByte _ (Nat.mod_lt _ (by decide)), hword]
    split_ifs with hsame heq heq
    · rfl
    · exact absurd (hiff.mp hsame) heq
    · exact absurd (hiff.mpr heq) hsame
    · rfl
  · have hne : o' ≠ o := fun heq ↦ hword (by rw [heq])
    rw [if_neg hword, if_neg hne]

/-! ## Accesses to a page -/

/-- The addresses that the processor translates at all. -/
def Canonical (vaddr : ℕ) : Prop := vaddr < 2 ^ 47 ∨ 2 ^ 64 - 2 ^ 47 ≤ vaddr

instance (vaddr : ℕ) : Decidable (Canonical vaddr) := inferInstanceAs (Decidable (_ ∨ _))

/-- The number of the page of an address. -/
def pageOf (vaddr : ℕ) : ℕ := vaddr / 4096 % 2 ^ 36

theorem translate_eq {m : Machine} {vaddr : ℕ} (h : Canonical vaddr) :
    m.translate vaddr = (m.page (pageOf vaddr)).map fun x ↦
      x.2.pointer * 4096 + (LinearAddress4Level.ofValue vaddr).value % (4096 * 512 ^ x.1) := by
  have hcanon : vaddr < 2 ^ 47 ∨ 2 ^ 64 - 2 ^ 47 ≤ vaddr := h
  rw [Machine.translate, if_pos hcanon,
    walk_eq_leaf m (LinearAddress4Level.valid_ofValue vaddr) m.cr3 (le_refl 4),
    LinearAddress4Level.pageNumber_ofValue]
  rfl

theorem translate_page {m : Machine} {vaddr : ℕ} {e : PageMapEntry} (h : Canonical vaddr)
    (hpage : m.page (pageOf vaddr) = some (0, e)) :
    m.translate vaddr = some (e.pointer * 4096 + vaddr % 4096) := by
  have hoffset : (LinearAddress4Level.ofValue vaddr).value % (4096 * 512 ^ 0) = vaddr % 4096 := by
    simp only [LinearAddress4Level.value, LinearAddress4Level.ofValue]
    omega
  rw [translate_eq h, hpage, Option.map_some, hoffset]

/-- A store within one page changes the bytes of its frame. -/
theorem storeBytes_page {e : PageMapEntry} (bytes : List UInt8) : ∀ {m : Machine} {vaddr : ℕ},
    AddressSpace m → Canonical vaddr → vaddr < 2 ^ 64 → m.page (pageOf vaddr) = some (0, e) →
    NoTable m e.pointer → vaddr % 4096 + bytes.length ≤ 4096 →
    ∃ m', m.storeBytes vaddr bytes = some m' ∧ StoresTo e.pointer m m' ∧ ∀ o < 4096,
      m'.byteAt (e.pointer * 4096 + o) =
        if vaddr % 4096 ≤ o then
          (bytes[o - vaddr % 4096]?).getD (m.byteAt (e.pointer * 4096 + o))
        else m.byteAt (e.pointer * 4096 + o) := by
  induction bytes with
  | nil =>
      intro m vaddr _ _ _ _ _ _
      exact ⟨m, rfl, .refl _ m, fun o _ ↦ by simp⟩
  | cons b bytes ih =>
      intro m vaddr hm hcanon hvaddr hpage hf hfit
      rw [List.length_cons] at hfit
      have hlt : vaddr % 4096 < 4096 := Nat.mod_lt _ (by decide)
      have hframe : (e.pointer * 4096 + vaddr % 4096) / 4096 = e.pointer := by omega
      have hoffset : (e.pointer * 4096 + vaddr % 4096) % 4096 = vaddr % 4096 := by omega
      have hbyte : (e.pointer * 4096 + vaddr % 4096) % 8 = vaddr % 4096 % 8 := by omega
      obtain ⟨m₁, hm₁⟩ : ∃ m₁, m₁ = m.setEntry e.pointer (vaddr % 4096 / 8)
          (setByte (m.mem e.pointer (vaddr % 4096 / 8)) (vaddr % 4096 % 8) b) := ⟨_, rfl⟩
      have hstore : m.storeByte vaddr b = some m₁ := by
        rw [storeByte, translate_page hcanon hpage, Option.map_some, hframe, hoffset, hbyte, hm₁]
      have hto : StoresTo e.pointer m m₁ := by
        refine ⟨hm₁ ▸ rfl, hm₁ ▸ rfl, fun g hg ↦ ?_⟩
        funext j
        rw [hm₁, mem_setEntry, if_neg fun hhere ↦ hg hhere.1]
      have hbytes₁ : ∀ o < 4096, m₁.byteAt (e.pointer * 4096 + o) =
          if o = vaddr % 4096 then b else m.byteAt (e.pointer * 4096 + o) :=
        fun o ho ↦ hm₁ ▸ byteAt_setEntry m e.pointer ho b
      rw [Machine.storeBytes, hstore, Option.bind_some]
      cases bytes with
      | nil =>
          refine ⟨m₁, rfl, hto, fun o ho ↦ ?_⟩
          rw [hbytes₁ o ho]
          grind
      | cons b' rest =>
          rw [List.length_cons] at hfit
          -- the next address lies in the same page
          have hnext : (vaddr + 1) % 2 ^ 64 = vaddr + 1 := Nat.mod_eq_of_lt (by omega)
          have hpage₁ : pageOf (vaddr + 1) = pageOf vaddr := by
            simp only [pageOf]
            omega
          have hmod : (vaddr + 1) % 4096 = vaddr % 4096 + 1 := by omega
          have hcanon₁ : Canonical (vaddr + 1) := by
            rcases hcanon with hlow | hhigh
            · exact .inl (by omega)
            · exact .inr (by omega)
          have hsame := hto.page_eq hf (p := pageOf vaddr) (by simp only [pageOf]; omega)
          obtain ⟨m₂, hrest, hto₂, hbytes₂⟩ := ih (hto.addressSpace hf hm) hcanon₁ (by omega)
            (by rw [hpage₁, hsame, hpage]) (hto.noTable hf hf)
            (by rw [hmod, List.length_cons]; omega)
          rw [hnext]
          refine ⟨m₂, hrest, hto.trans hto₂, fun o ho ↦ ?_⟩
          rw [hbytes₂ o ho, hmod, hbytes₁ o ho]
          grind

end Paging
end MinOS
