import MinOS.App.FaultConfined
import MinOS.App.Launch
import MinOS.Paging.Clean

/-!
# The frames of applications

Page faults and `LoadApp` keep the frames of all address spaces accounted for, as long as the
faults are in the user half.
-/

namespace MinOS
namespace App

open Paging Paging.Machine PageMapEntry Ownership

theorem OpenFile.load_length {v : Fat.Volume} {fd : OpenFile} {len offset : ℕ} {bytes : List UInt8}
    (h : fd.load v len offset = some bytes) : bytes.length ≤ len := by
  cases fd with
  | fat fd =>
      obtain ⟨pos, -, h⟩ := Option.bind_eq_some_iff.mp h
      obtain ⟨⟨read, fd'⟩, hread, h⟩ := Option.bind_eq_some_iff.mp h
      obtain rfl := Option.some.inj h
      rw [Fat.Volume.read_eq] at hread
      obtain ⟨⟨loop, pos'⟩, hloop, hread⟩ := Option.map_eq_some_iff.mp hread
      obtain ⟨rfl, -⟩ := Prod.mk.inj hread
      rw [Fat.Volume.readLoop_length hloop]
      exact min_le_left _ _
  | stream =>
      obtain rfl := Option.some.inj h
      exact Nat.zero_le len

/-! ## Faults -/

/-- All entries on the way to a page have the flag. -/
def access (flag : PageMapEntry → Bool) (m : Machine) : ℕ → ℕ → ℕ → Bool
  | 0, _, _ => true
  | level + 1, table, p =>
      let e := m.mem table (p / 512 ^ level % 512)
      flag e && (decide (level = 0) || decide (level < 3) && e.hugePage ||
        access flag m level e.pointer p)

theorem userAccess_eq (m : Machine) (level table p : ℕ) :
    userAccess m level table p = access user m level table p := by
  induction level generalizing table with
  | zero => rfl
  | succ level ih => rw [userAccess, access, ih]

/-- The processor raises the fault: the page is not present, or an application may not access it
in this way.  With `CR0.WP` cleared the kernel may access every page that is present. -/
structure Raises (m : Machine) (errorCode a : ℕ) : Prop where
  canonical : Canonical a
  lt : a < 2 ^ 64
  present : errorCode.testBit 0 = (m.page (pageOf a)).isSome
  denied : errorCode.testBit 0 = true → errorCode.testBit 2 = true ∧
    (SupervisorPage m (pageOf a) ∨
      errorCode.testBit 1 = true ∧ access writable m 4 m.cr3 (pageOf a) = false)

section Faults

variable {ι : Type*} {σ : Policy ι (ℕ × ℕ)} {m m' : Machine} {root : ι → Option ℕ} {base : ℕ → Prop}
  {i : ι} {p a errorCode : ℕ} {e : PageMapEntry}

/-- In the user half the leaf alone decides, as the entries above it have the flag. -/
theorem access_eq (h : Accounted σ m root base) (hroot : root i = some m.cr3)
    (hleaf : pageEntry m m.cr3 p = some e) {flag : PageMapEntry → Bool}
    (hentry : Entry userHalf 3 p)
    (hinner : ∀ {d q table}, d < 3 → Entry userHalf d q → m.tableOf m.cr3 d q = some table →
      (m.mem table (q % 512)).present = true → flag (m.mem table (q % 512)) = true) :
    access flag m 4 m.cr3 p = flag e := by
  have hdown : ∀ L ≤ 3, ∀ table, m.tableOf m.cr3 (3 - L) (p / 512 ^ L) = some table →
      access flag m (L + 1) table p = flag e := by
    intro L
    induction L with
    | zero =>
        intro _ table htable
        have htable' : m.tableOf m.cr3 3 p = some table := by simpa using htable
        rw [pageEntry, htable', Option.bind_some] at hleaf
        split_ifs at hleaf
        rw [access, pow_zero, Nat.div_one, Option.some.inj hleaf]
        simp
    | succ L ih =>
        intro hL table htable
        have hquot : Entry userHalf (3 - (L + 1)) (p / 512 ^ (L + 1)) :=
          entry_of_page (by omega) hentry.lt hentry.top
        have hbelow := tableOf_below hL htable
        cases hpresent : (m.mem table (p / 512 ^ (L + 1) % 512)).present with
        | false =>
            rw [child_of_absent hpresent] at hbelow
            rw [pageEntry, tableOf_below_none (by omega) hbelow] at hleaf
            cases hleaf
        | true =>
            rw [child_of_present hpresent] at hbelow
            have hnext := ih (by omega) _ hbelow
            have hflag := hinner (by omega) hquot htable hpresent
            have hclear := (h.words hroot hquot htable).notHuge (by omega)
            rw [access, hflag, hclear, hnext]
            simp
  exact hdown 3 le_rfl m.cr3 rfl

theorem not_supervisorPage (h : Accounted σ m root base) (hroot : root i = some m.cr3)
    (hentry : Entry userHalf 3 p) : ¬ SupervisorPage m p := by
  rintro ⟨hpage, huser⟩
  rw [h.page_eq hroot hentry] at hpage
  cases hleaf : pageEntry m m.cr3 p with
  | none =>
      rw [hleaf] at hpage
      exact hpage rfl
  | some e =>
      rw [userAccess_eq, access_eq h hroot hleaf hentry fun _ hentry htable hpresent ↦
        (h.words hroot hentry htable).user hpresent] at huser
      obtain ⟨table, htable, hword⟩ := Option.bind_eq_some_iff.mp hleaf
      split_ifs at hword with hpresent
      rw [← Option.some.inj hword, (h.words hroot hentry htable).user hpresent] at huser
      cases huser

/-- A write that the processor denies goes to a page that is read-only. -/
theorem readOnly_of_denied (h : Accounted σ m root base) (hroot : root i = some m.cr3)
    (hentry : Entry userHalf 3 (pageOf a)) (hraises : Raises m errorCode a)
    (hpresent : errorCode.testBit 0 = true) :
    ∃ f, (m.spaces root).entry i (3, pageOf a) = some (f, false) := by
  have hsome := hraises.present
  rw [hpresent, h.page_eq hroot hentry, Option.isSome_map] at hsome
  obtain ⟨e, hleaf⟩ := Option.isSome_iff_exists.mp hsome.symm
  have hdenied := (hraises.denied hpresent).2.resolve_left (not_supervisorPage h hroot hentry)
  rw [access_eq h hroot hleaf hentry fun hd hentry htable hpresent ↦ h.inner hd.ne
    ((Accounted.entry_eq_cell hroot hentry htable).trans (cell_eq rfl hpresent))] at hdenied
  refine ⟨e.pointer, ?_⟩
  rw [entry_eq_pageEntry hroot hentry, hleaf, Option.map_some, hdenied.2]

variable [DecidableEq ι]

/-- The copy of a page that is shared becomes a page of the space. -/
theorem updates_copyOnePage (h : Accounted σ m root base) (hroot : root i = some m.cr3)
    (hown : σ.own i = true) (hentry : Entry userHalf 3 (pageOf a)) {f : ℕ}
    (hshared : (m.spaces root).entry i (3, pageOf a) = some (f, false))
    (hok : copyOnePage m a = some (.ok (), m')) : Updates σ root base i Set.univ m m' := by
  rcases newPageMap_eq m with ⟨frame, hfree, hnew⟩ | ⟨-, hnew⟩
  · rw [copyOnePage_eq hnew] at hok
    obtain ⟨phys, -, hok⟩ := Option.map_eq_some_iff.mp hok
    obtain ⟨-, rfl⟩ := Prod.mk.inj hok
    obtain ⟨words, hwords⟩ : ∃ words, words = (m.takeFrame frame fun _ ↦ 0#64).mem (phys / 4096) :=
      ⟨_, rfl⟩
    obtain ⟨m₁, hm₁⟩ : ∃ m₁, m₁ = m.takeFrame frame words := ⟨_, rfl⟩
    have hcr3 : m₁.cr3 = m.cr3 := by rw [hm₁]; rfl
    rw [← hwords, ← hm₁, ← hcr3]
    have hmem₁ : ∀ g, m₁.mem g = if g = frame then words else m.mem g := by
      rw [hm₁]
      exact mem_takeFrame m frame words
    have hsame : ∀ {j : ι} {r d q table : ℕ}, root j = some r → Entry userHalf d q →
        m.tableOf r d q = some table → m₁.mem table (q % 512) = m.mem table (q % 512) := by
      intro j r d q table hroot hentry htable
      rw [hmem₁, if_neg (h.free_ne_table hroot hentry htable hfree).symm]
    obtain ⟨e, hleaf, -⟩ := Option.map_eq_some_iff.mp
      ((entry_eq_pageEntry hroot hentry).symm.trans hshared)
    obtain ⟨t, htable, hword⟩ := Option.bind_eq_some_iff.mp hleaf
    split_ifs at hword with hpresent
    have hcongr : m₁.spaces root = m.spaces root ∧ ∀ {j : ι} {r d q : ℕ}, root j = some r →
        Entry userHalf d q → m₁.tableOf r d q = m.tableOf r d q := spaces_congr hsame
    have htable₁ : m₁.tableOf m₁.cr3 3 (LinearAddress4Level.ofValue a).pageNumber = some t := by
      rw [← pageOf_eq, ← htable, hcr3]
      exact hcongr.2 hroot hentry
    have hne := h.free_ne_table hroot hentry htable hfree
    have hlt := BitmapMemoryManager.lt_of_mem_freeFrames h.rangeEnd hfree
    have hold : m₁.mem t (pageOf a % 512) = m.mem t (pageOf a % 512) := hsame hroot hentry htable
    rw [setPageContent_eq (LinearAddress4Level.valid_ofValue a) htable₁ le_rfl rfl, ← pageOf_eq, hold]
    have hmem : ∀ g k, (m₁.setEntry t (pageOf a % 512)
        (((m.mem t (pageOf a % 512)).setPointer frame).setFlag 1 true)).mem g k =
          if g = t ∧ k = pageOf a % 512 then
            ((m.mem t (pageOf a % 512)).setPointer frame).setFlag 1 true
          else if g = frame then words k else m.mem g k := by
      intro g k
      rw [mem_setEntry, hmem₁]
      split_ifs <;> rfl
    have hwritable : (((m.mem t (pageOf a % 512)).setPointer frame).setFlag 1 true).writable = true := by
      rw [writable, getLsbD_setFlag _ (by decide), if_pos rfl]
    obtain ⟨haccounted, hspaces⟩ := h.link hroot hentry htable hfree hmem (by rw [hm₁]; rfl)
      (by rw [present_setFlag _ (by decide) (by decide), present_setPointer, hpresent])
      (by rw [pointer_setFlag _ (by decide), pointer_setPointer _ hlt])
      ⟨fun hd ↦ absurd hd (by decide), fun _ ↦ by
        rw [user_setFlag _ (by decide) (by decide), user_setPointer]
        exact (h.words hroot hentry htable).user hpresent⟩
      (fun hd ↦ absurd hd (by decide)) (fun _ ↦ hwritable.trans hown.symm) (absurd rfl)
      (h.separated.unset_shared hshared ((h.leaf _).mpr rfl) (by rw [hown]; decide))
      (fun _ _ ↦ spaces_below_page)
    refine ⟨hcr3, haccounted, ?_, fun hout ↦ ?_⟩
    · rw [hspaces]
      exact .set (Set.mem_univ _) _
    · rw [hmem, if_neg (h.outside_ne_place hroot hentry htable hout),
        if_neg (h.outside_ne_free hout hfree)]
  · rw [copyOnePage, hnew] at hok
    cases (Prod.mk.inj (Option.some.inj hok)).1

theorem updates_setupPageMaps (h : Accounted σ m root base) (hroot : root i = some m.cr3)
    (hown : σ.own i = true) {addr : LinearAddress4Level} (haddr : addr.Valid) {n : ℕ}
    (hpages : ∀ p, addr.pageNumber ≤ p → p < addr.pageNumber + n → p < 512 ^ 4 →
      p / 512 ^ 3 ∈ userHalf ∧ ∀ f w, (m.spaces root).entry i (3, p) = some (f, w) → w = true) :
    Updates σ root base i Set.univ m (m.setupPageMaps addr n true).machine := by
  obtain ⟨V, -, hvisited⟩ := h.setupPageMaps hroot haddr (hown.symm ▸ hpages)
  rw [hown] at hvisited
  exact hvisited.toUpdates.mono (Set.subset_univ _)

/-- A page that was not mapped. -/
theorem updates_setupPage (h : Accounted σ m root base) (hroot : root i = some m.cr3)
    (hown : σ.own i = true) (hentry : Entry userHalf 3 (pageOf a)) (hpage : m.page (pageOf a) = none) :
    Updates σ root base i Set.univ m (m.setupPageMaps (.ofValue a) 1 true).machine := by
  refine updates_setupPageMaps h hroot hown (LinearAddress4Level.valid_ofValue a) ?_
  rw [← pageOf_eq]
  intro p hlow hhigh _
  obtain rfl : p = pageOf a := by omega
  refine ⟨hentry.top, fun f w hf ↦ ?_⟩
  rw [entry_eq_pageEntry hroot hentry] at hf
  rw [h.page_eq hroot hentry, Option.map_eq_none_iff] at hpage
  rw [hpage] at hf
  cases hf

variable {v : Fat.Volume} {task : FaultTask}

theorem updates_preparePageCache (h : Accounted σ m root base) (hroot : root i = some m.cr3)
    (hown : σ.own i = true) (hlow : userBase ≤ a) (hlt : a < 2 ^ 64)
    (hpage : m.page (pageOf a) = none) {fd : OpenFile} {fm : FileMapping}
    (hok : preparePageCache v fd fm a m = some (.ok (), m')) :
    Updates σ root base i Set.univ m m' := by
  have hbase : userBase = 2 ^ 64 - 2 ^ 47 := rfl
  have hdown : pageDown a + 4096 ≤ 2 ^ 64 ∧ userBase ≤ pageDown a := by
    simp only [pageDown]
    omega
  have hsetup := updates_setupPage h hroot hown (a := pageDown a)
    (entry_pageOf (by omega) (by omega)) (pageOf_pageDown a ▸ hpage)
  simp only [preparePageCache, setPart_zero, value_ofValue] at hok
  cases hresult : (m.setupPageMaps (.ofValue (pageDown a)) 1 true).result with
  | error err =>
      rw [hresult] at hok
      cases (Prod.mk.inj (Option.some.inj hok)).1
  | ok r =>
      rw [hresult] at hok
      obtain ⟨bytes, hload, hok⟩ := Option.bind_eq_some_iff.mp hok
      obtain ⟨m₁, hstore, hok⟩ := Option.bind_eq_some_iff.mp hok
      obtain ⟨-, rfl⟩ := Prod.mk.inj (Option.some.inj hok)
      have hlen := OpenFile.load_length hload
      have hstored := hsetup.accounted.storeBytes (hsetup.cr3 ▸ hroot)
        (fun _ ↦ ⟨by omega, by omega⟩) hstore
      exact hsetup.trans (hstored.mono (Set.empty_subset _))

/-- A fault in the user half. -/
theorem updates_handlePageFault (h : Accounted σ m root base) (hroot : root i = some m.cr3)
    (hown : σ.own i = true) (hlow : userBase ≤ a) (hraises : Raises m errorCode a)
    (hok : handlePageFault v task m errorCode a = some (.ok (), m')) :
    Updates σ root base i Set.univ m m' := by
  have hentry : Entry userHalf 3 (pageOf a) := entry_pageOf hlow hraises.lt
  by_cases hwrite : UserWrite errorCode
  · rw [handlePageFault_userWrite hwrite] at hok
    obtain ⟨f, hshared⟩ := readOnly_of_denied h hroot hentry hraises hwrite.1
    exact updates_copyOnePage h hroot hown hentry hshared hok
  · by_cases hregion : errorCode.testBit 0 = false ∧ InRegions task a
    · obtain ⟨herror, hin⟩ := hregion
      have hpage : m.page (pageOf a) = none := by
        have hpresent := hraises.present
        rw [herror] at hpresent
        simpa using hpresent.symm
      by_cases hdpaging : task.dpagingBegin ≤ a ∧ a < task.dpagingEnd
      · rw [handlePageFault_dpaging herror hdpaging] at hok
        obtain ⟨-, rfl⟩ := Prod.mk.inj (Option.some.inj hok)
        exact updates_setupPage h hroot hown hentry hpage
      · obtain ⟨fm, hfm⟩ := Option.ne_none_iff_exists'.mp (hin.resolve_left hdpaging)
        simp only [handlePageFault, herror, Bool.false_and, Bool.false_eq_true, if_false,
          if_neg hdpaging, hfm] at hok
        obtain ⟨fd, -, hok⟩ := Option.bind_eq_some_iff.mp hok
        exact updates_preparePageCache h hroot hown hlow hraises.lt hpage hok
    · obtain ⟨err, hsame⟩ := handlePageFault_unchanged (v := v) (m := m) hwrite fun herror hin ↦
        hregion ⟨herror, hin⟩
      rw [hsame] at hok
      cases (Prod.mk.inj (Option.some.inj hok)).1

end Faults

/-! ## Arguments -/

section Arguments

variable {ι : Type*} {σ : Policy ι (ℕ × ℕ)} {m : Machine} {root : ι → Option ℕ} {base : ℕ → Prop}
  {i : ι} {av av' : ArgVector} {r : Except Error Unit}

theorem updates_push (h : Accounted σ av.machine root base) (hroot : root i = some av.machine.cr3)
    {arg : List UInt8} (hfit : av.argbufIndex + arg.length < argbufLen)
    (hpush : av.push arg = some (r, av')) :
    Updates σ root base i ∅ av.machine av'.machine ∧
      av'.argbufIndex ≤ av.argbufIndex + arg.length + 1 := by
  have hframe : argsFrameAddr = 2 ^ 64 - 4096 := rfl
  have hbuf : argbuf = 2 ^ 64 - argbufLen := rfl
  have hlen : argbufLen = 4096 - 256 := rfl
  rw [ArgVector.push] at hpush
  split_ifs at hpush with hfull
  · obtain ⟨-, rfl⟩ := Prod.mk.inj (Option.some.inj hpush)
    exact ⟨.refl h i ∅, by omega⟩
  · have hargc : av.argc < 32 := not_le.mp (not_or.mp hfull).1
    obtain ⟨m₁, hargv, hpush⟩ := Option.bind_eq_some_iff.mp hpush
    obtain ⟨m₂, hcopy, hpush⟩ := Option.bind_eq_some_iff.mp hpush
    obtain ⟨-, rfl⟩ := Prod.mk.inj (Option.some.inj hpush)
    have hfirst := h.storeBytes hroot (fun _ ↦ by
      rw [List.length_map, List.length_range]
      omega) hargv
    have hsecond := hfirst.accounted.storeBytes (hfirst.cr3 ▸ hroot) (fun _ ↦ by
      rw [List.length_append, List.length_singleton]
      omega) hcopy
    exact ⟨hfirst.trans hsecond, le_rfl⟩

theorem updates_pushArgs {p : List UInt8} : ∀ {av : ArgVector} {arg : List UInt8},
    Accounted σ av.machine root base → root i = some av.machine.cr3 →
      av.argbufIndex + arg.length + p.length < argbufLen → av.pushArgs arg p = some (r, av') →
        Updates σ root base i ∅ av.machine av'.machine := by
  induction p with
  | nil =>
      intro av arg h hroot hfit hargs
      rw [ArgVector.pushArgs] at hargs
      split_ifs at hargs
      · obtain ⟨-, rfl⟩ := Prod.mk.inj (Option.some.inj hargs)
        exact .refl h i ∅
      · exact (updates_push h hroot hfit hargs).1
  | cons c p ih =>
      intro av arg h hroot hfit hargs
      rw [List.length_cons] at hfit
      rw [ArgVector.pushArgs] at hargs
      split_ifs at hargs
      · obtain ⟨⟨r₁, av₁⟩, hpush, hargs⟩ := Option.bind_eq_some_iff.mp hargs
        obtain ⟨hfirst, hindex⟩ := updates_push h hroot (by omega) hpush
        cases r₁ with
        | error err =>
            obtain ⟨-, rfl⟩ := Prod.mk.inj (Option.some.inj hargs)
            exact hfirst
        | ok u =>
            refine hfirst.trans (ih hfirst.accounted (hfirst.cr3 ▸ hroot) ?_ hargs)
            rw [List.length_nil]
            omega
      · refine ih h hroot ?_ hargs
        rw [List.length_append, List.length_singleton]
        omega

/-- The strings of a command line fit into the page of the arguments. -/
theorem updates_makeArgVector (h : Accounted σ m root base) (hroot : root i = some m.cr3)
    {command : List UInt8} {firstArg : Option (List UInt8)}
    (hfit : command.length + (firstArg.getD []).length + 1 < argbufLen)
    (hvector : makeArgVector m command firstArg = some (r, av)) :
    Updates σ root base i ∅ m av.machine := by
  obtain ⟨⟨r₁, av₁⟩, hpush, hvector⟩ := Option.bind_eq_some_iff.mp hvector
  obtain ⟨hfirst, hindex⟩ : Updates σ root base i ∅ m av₁.machine ∧
      av₁.argbufIndex ≤ 0 + command.length + 1 :=
    updates_push h hroot (by dsimp only; omega) hpush
  cases r₁ with
  | error err =>
      obtain ⟨-, rfl⟩ := Prod.mk.inj (Option.some.inj hvector)
      exact hfirst
  | ok u =>
      cases firstArg with
      | none =>
          obtain ⟨-, rfl⟩ := Prod.mk.inj (Option.some.inj hvector)
          exact hfirst
      | some p =>
          refine hfirst.trans (updates_pushArgs hfirst.accounted (hfirst.cr3 ▸ hroot) ?_ hvector)
          rw [Option.getD_some] at hfit
          rw [List.length_nil]
          omega

end Arguments

/-! ## Images -/

/-- The segment is in the user half, below the stack and the arguments. -/
def Phdr.BelowStack (ph : Phdr) : Prop :=
  ph.pFilesz ≤ ph.pMemsz ∧ userBase ≤ ph.pVaddr ∧ ph.pVaddr + ph.pMemsz ≤ stackFrameAddr

def stackPage : ℕ := pageOf stackFrameAddr

/-- The entries of the page maps but for the pages of the stack and the arguments. -/
def belowStack : Set (ℕ × ℕ) := {k | k.1 = 3 → k.2 < stackPage}

section Images

variable {ι : Type*} {σ : Policy ι (ℕ × ℕ)} {m m' : Machine} {root : ι → Option ℕ} {base : ℕ → Prop}
  {i : ι} {image : ℕ → UInt8} {ph : Phdr}

/-- A space that is its own template has only pages of its own. -/
theorem own_of_template (h : Accounted σ m root base) (htemplate : σ.template i = i) {p f : ℕ}
    {w : Bool} (hentry : (m.spaces root).entry i (3, p) = some (f, w)) : w = σ.own i := by
  by_contra hw
  have howns := h.separated.shared ((h.leaf _).mpr rfl) hentry hw
  rw [htemplate] at howns
  obtain ⟨w', hentry', hown⟩ := howns
  obtain ⟨-, rfl⟩ := Prod.mk.inj (Option.some.inj (hentry.symm.trans hentry'))
  exact hw (hown ((h.leaf _).mpr rfl))

/-- The pages of a segment. -/
theorem Phdr.BelowStack.pages (h : ph.BelowStack) {p : ℕ}
    (hlow : (LinearAddress4Level.ofValue ph.pVaddr).pageNumber ≤ p)
    (hhigh : p < (LinearAddress4Level.ofValue ph.pVaddr).pageNumber + ph.num4kpages) :
    256 ≤ p / 512 ^ 3 ∧ p < stackPage := by
  obtain ⟨-, hbase, hend⟩ := h
  have hstack : stackFrameAddr = 2 ^ 64 - 4096 - 0x100 * 4096 := rfl
  have huser : userBase = 2 ^ 64 - 2 ^ 47 := rfl
  have hpage : stackPage = 2 ^ 36 - 1 - 0x100 := rfl
  rw [← pageOf_eq] at hlow hhigh
  simp only [pageOf, Phdr.num4kpages, uint64Add] at hlow hhigh
  omega

theorem updates_copySegment (h : Accounted σ m root base) (hroot : root i = some m.cr3)
    (hbelow : ph.BelowStack) (hok : copySegment image ph m = some m') :
    Updates σ root base i ∅ m m' := by
  obtain ⟨hfilesz, hbase, hend⟩ := hbelow
  have hstack : stackFrameAddr = 2 ^ 64 - 4096 - 0x100 * 4096 := rfl
  have huser : userBase = 2 ^ 64 - 2 ^ 47 := rfl
  have haddr : uint64Add ph.pVaddr ph.pFilesz = ph.pVaddr + ph.pFilesz := by
    simp only [uint64Add]
    omega
  have hsize : uint64Sub ph.pMemsz ph.pFilesz = ph.pMemsz - ph.pFilesz := by
    simp only [uint64Sub]
    omega
  obtain ⟨m₁, hcopy, hfill⟩ := Option.bind_eq_some_iff.mp hok
  have hcopied := h.storeBytes hroot (fun _ ↦ by
    rw [ByteMemory.length_readBytes]
    omega) hcopy
  rw [haddr, hsize] at hfill
  exact hcopied.trans (hcopied.accounted.storeBytes (hcopied.cr3 ▸ hroot) (fun _ ↦ by
    rw [List.length_replicate]
    omega) hfill)

variable [DecidableEq ι]

theorem updates_setupSegment (h : Accounted σ m root base) (hroot : root i = some m.cr3)
    (hown : σ.own i = false) (htemplate : σ.template i = i) (hbelow : ph.BelowStack) :
    Updates σ root base i belowStack m
      (m.setupPageMaps (.ofValue ph.pVaddr) ph.num4kpages false).machine := by
  obtain ⟨V, hsub, hvisited⟩ := h.setupPageMaps hroot
    (LinearAddress4Level.valid_ofValue ph.pVaddr) fun p hlow hhigh _ ↦
      ⟨(hbelow.pages hlow hhigh).1, fun f w hf ↦ own_of_template h htemplate hf⟩
  rw [hown] at hvisited
  refine hvisited.toUpdates.mono ?_
  rintro ⟨d, q⟩ hin rfl
  obtain ⟨-, p, ⟨hlow, hhigh⟩, hq⟩ := mem_entriesFrom.mp (hsub hin)
  obtain rfl : p = q := by simpa using hq
  exact (hbelow.pages hlow (lt_of_lt_of_le hhigh (min_le_left _ _))).2

theorem updates_copyLoadSegments (hown : σ.own i = false) (htemplate : σ.template i = i)
    {phdrs : List Phdr} : ∀ {m : Machine} {lastAddr last : ℕ}, Accounted σ m root base →
      root i = some m.cr3 → (∀ ph ∈ phdrs, ph.pType = ptLoad → ph.BelowStack) →
      (copyLoadSegments image phdrs lastAddr m).result = some (.ok last) →
        Updates σ root base i belowStack m (copyLoadSegments image phdrs lastAddr m).machine := by
  induction phdrs with
  | nil => exact fun {m _ _} h _ _ _ ↦ .refl h i _
  | cons ph phdrs ih =>
      intro m lastAddr last h hroot hsegments hok
      have hrest : ∀ ph ∈ phdrs, ph.pType = ptLoad → ph.BelowStack := fun ph hin ↦
        hsegments ph (List.mem_cons_of_mem _ hin)
      rw [copyLoadSegments] at hok ⊢
      split_ifs at hok ⊢ with hload
      · exact ih h hroot hrest hok
      · have hbelow := hsegments ph List.mem_cons_self (not_not.mp hload)
        have hsetup := updates_setupSegment h hroot hown htemplate hbelow
        dsimp only at hok ⊢
        split at hok
        · cases hok
        · split at hok
          · cases hok
          · next m₁ hcopy =>
            have hcopied := updates_copySegment hsetup.accounted (hsetup.cr3 ▸ hroot) hbelow hcopy
            have hhere := hsetup.trans (hcopied.mono (Set.empty_subset _))
            exact hhere.trans (ih hhere.accounted (hhere.cr3 ▸ hroot) hrest hok)

theorem updates_loadELF (h : Accounted σ m root base) (hroot : root i = some m.cr3)
    (hown : σ.own i = false) (htemplate : σ.template i = i)
    (hsegments : ∀ ph ∈ programHeaders image, ph.pType = ptLoad → ph.BelowStack) {last : ℕ}
    (hok : (loadELF image m).result = some (.ok last)) :
    Updates σ root base i belowStack m (loadELF image m).machine := by
  rw [loadELF] at hok ⊢
  split_ifs at hok ⊢
  · cases hok
  · cases hok
  · exact updates_copyLoadSegments hown htemplate h hroot hsegments hok

/-- `SetupPML4` takes a frame and leaves its upper half empty. -/
structure NewPml4 (s s' : LaunchState) (pml4 : ℕ) : Prop where
  free : pml4 ∈ s.machine.memoryManager.freeFrames
  same : ∀ g, g ≠ pml4 → s'.machine.mem g = s.machine.mem g
  empty : ∀ k, 256 ≤ k → s'.machine.mem pml4 k = 0#64
  memoryManager : s'.machine.memoryManager = s.machine.memoryManager.markAllocated pml4 1
  cr3 : s'.machine.cr3 = pml4
  state : s' = { s with machine := s'.machine, contextCr3 := pml4 * 4096 }

theorem newPml4_of_setupPML4 {s s' : LaunchState} {pml4 : ℕ} (hok : s.setupPML4 = (.ok pml4, s')) :
    NewPml4 s s' pml4 := by
  rcases newPageMap_eq s.machine with ⟨frame, hfree, hnew⟩ | ⟨-, hnew⟩ <;>
    rw [LaunchState.setupPML4, hnew] at hok
  · obtain ⟨hframe, rfl⟩ := Prod.mk.inj hok
    obtain rfl : frame = pml4 := by injection hframe
    refine ⟨hfree, fun g hg ↦ ?_, fun k hk ↦ ?_, rfl, rfl, rfl⟩
    · dsimp only
      rw [Function.update_of_ne hg, mem_takeFrame, if_neg hg]
    · dsimp only
      rw [Function.update_self, if_neg (by omega), mem_takeFrame, if_pos rfl]
  · cases (Prod.mk.inj hok).1

/-- The spaces that were there are there afterwards, with the entries that they had. -/
structure Keeps (m m' : Machine) (root root' : ι → Option ℕ) : Prop where
  roots : ∀ {x : ι} {r : ℕ}, root x = some r → root' x = some r
  entries : ∀ {x : ι} {r : ℕ} (k : ℕ × ℕ), root x = some r →
    (m'.spaces root').entry x k = (m.spaces root).entry x k

omit [DecidableEq ι] in
theorem Keeps.refl (m : Machine) (root : ι → Option ℕ) : Keeps m m root root :=
  ⟨id, fun _ _ ↦ rfl⟩

omit [DecidableEq ι] in
theorem Keeps.trans {m'' : Machine} {root' root'' : ι → Option ℕ} (h : Keeps m m' root root')
    (h' : Keeps m' m'' root' root'') : Keeps m m'' root root'' :=
  ⟨fun hroot ↦ h'.roots (h.roots hroot),
    fun k hroot ↦ (h'.entries k (h.roots hroot)).trans (h.entries k hroot)⟩

section Keeps

variable {m₁ m₂ : Machine} {root₁ : ι → Option ℕ} {frame : ℕ}

theorem Keeps.addRoot (h : Keeps m m₁ root root₁) (hnone : root₁ i = none)
    (hspaces : m₂.spaces (Function.update root₁ i (some frame)) =
      (m₁.spaces root₁).setRoot i (some frame)) :
    Keeps m m₂ root (Function.update root₁ i (some frame)) where
  roots := by
    intro x r hroot
    have hne : x ≠ i := by
      rintro rfl
      cases hnone.symm.trans (h.roots hroot)
    rw [Function.update_of_ne hne]
    exact h.roots hroot
  entries := by
    intro x r k hroot
    rw [hspaces, Spaces.setRoot_entry]
    exact h.entries k hroot

omit [DecidableEq ι] in
/-- The changes are those of a new space. -/
theorem Keeps.updates {D : Set (ℕ × ℕ)} (h : Keeps m m₁ root root₁) (hnone : root i = none)
    (hupdates : Updates σ root₁ base i D m₁ m₂) : Keeps m m₂ root root₁ where
  roots := h.roots
  entries := by
    intro x r k hroot
    have hne : x ≠ i := by
      rintro rfl
      cases hnone.symm.trans hroot
    rw [hupdates.changes.same fun heq ↦ absurd heq hne]
    exact h.entries k hroot

end Keeps

/-- A space that is a shallow copy of its template. -/
theorem accounted_copyImage {s s₁ s' : LaunchState} {pml4 src : ℕ} {appLoad appLoad' : AppLoadInfo}
    (h : Accounted σ s.machine root base) (hσ : Shared σ i) (hroot : root i = none)
    (hsrc : root (σ.template i) = some src) (hnew : NewPml4 s s₁ pml4)
    (hcopy : s₁.copyImage pml4 src appLoad = (.ok appLoad', s')) :
    Accounted σ s'.machine (Function.update root i (some pml4)) base ∧
      Keeps s.machine s'.machine root (Function.update root i (some pml4)) ∧
      s'.machine.cr3 = pml4 ∧ appLoad' = { appLoad with pml4 := pml4 } ∧
      s' = { s with machine := s'.machine, contextCr3 := pml4 * 4096 } := by
  obtain ⟨h₁, hspaces⟩ := h.addRoot hroot hnew.free hnew.same hnew.empty hnew.memoryManager
  have hempty : ∀ k, (s₁.machine.spaces (Function.update root i (some pml4))).entry i k = none := by
    intro k
    rw [hspaces, Spaces.setRoot_entry]
    exact spaces_entry_of_root hroot k
  rw [LaunchState.copyImage] at hcopy
  rcases hresult : s₁.machine.copyPageMaps 4 256 pml4 src with ⟨err | u, m'⟩ <;>
    rw [hresult] at hcopy
  · cases (Prod.mk.inj hcopy).1
  · obtain ⟨happ, rfl⟩ := Prod.mk.inj hcopy
    obtain rfl : { appLoad with pml4 := pml4 } = appLoad' := by injection happ
    have hcopied := h₁.copyPageMaps hσ (Function.update_self i _ _)
      ((Function.update_of_ne hσ.ne _ _).trans hsrc) hempty hresult
    refine ⟨hcopied.accounted, ((Keeps.refl s.machine root).addRoot hroot hspaces).updates hroot
      hcopied, hcopied.cr3.trans hnew.cr3, rfl, ?_⟩
    rw [hnew.state]

end Images

/-! ## Loaded applications -/

/-- The address spaces of the applications: the images that `app_loads` keeps, and those of the
calls of `ExecuteFile`, which are numbered. -/
inductive AppSpace where
  | image (fileEntry : ℕ)
  | app (fileEntry n : ℕ)
deriving DecidableEq

namespace AppSpace

def own : AppSpace → Bool
  | image _ => false
  | app _ _ => true

def template : AppSpace → AppSpace
  | image fileEntry => image fileEntry
  | app fileEntry _ => image fileEntry

end AppSpace

/-- The writable bit of a page tells whether it is the application's own. -/
def appPolicy : Policy AppSpace (ℕ × ℕ) := pagePolicy AppSpace.own AppSpace.template

theorem image_ne_app (f g n : ℕ) : AppSpace.image f ≠ .app g n := nofun

theorem shared_app (fileEntry n : ℕ) : Shared appPolicy (.app fileEntry n) := ⟨rfl, rfl, rfl⟩

theorem template_ne_app (x : AppSpace) (fileEntry n : ℕ) :
    appPolicy.template x ≠ .app fileEntry n := by
  cases x <;> exact nofun

/-- What `LoadApp` leaves for the call `n`, with the image `first` in `app_loads`. -/
structure Loaded (base : ℕ → Prop) (s s' : LaunchState) (root root' : AppSpace → Option ℕ)
    (fileEntry n : ℕ) (appLoad first : AppLoadInfo) : Prop where
  roots : root' = Function.update (Function.update root (.image fileEntry) (some first.pml4))
    (.app fileEntry n) (some appLoad.pml4)
  accounted : Accounted appPolicy s'.machine root' base
  keeps : Keeps s.machine s'.machine root root'
  cr3 : s'.machine.cr3 = appLoad.pml4
  contextCr3 : s'.contextCr3 = appLoad.pml4 * 4096
  appLoads : s'.appLoads = Function.update s.appLoads fileEntry (some first)
  cached : ∀ {app}, s.appLoads fileEntry = some app → app = first
  pages : s.appLoads fileEntry = none → ∀ {p f w},
    (s'.machine.spaces root').entry (.image fileEntry) (3, p) = some (f, w) → p < stackPage

section LoadApp

variable {s s' s₁ : LaunchState} {root : AppSpace → Option ℕ} {base : ℕ → Prop}
  {v : Fat.Volume} {behind image : ℕ → UInt8} {fileEntry n pml4 : ℕ} {appLoad first : AppLoadInfo}

theorem loaded_cached (h : Accounted appPolicy s.machine root base)
    (hn : root (.app fileEntry n) = none) (himage : root (.image fileEntry) = some first.pml4)
    (hfirst : s.appLoads fileEntry = some first) (hnew : NewPml4 s s₁ pml4)
    (hcopy : s₁.copyImage pml4 first.pml4 first = (.ok appLoad, s')) :
    ∃ root', Loaded base s s' root root' fileEntry n appLoad first := by
  obtain ⟨h', hkeeps, hcr3, rfl, hstate⟩ :=
    accounted_copyImage h (shared_app fileEntry n) hn himage hnew hcopy
  have hsame : Function.update root (.image fileEntry) (some first.pml4) = root := by
    rw [← himage, Function.update_eq_self]
  refine ⟨_, by rw [hsame], h', hkeeps, hcr3, by rw [hstate], ?_, ?_, ?_⟩
  · rw [hstate, ← hfirst, Function.update_eq_self]
  · exact fun happ ↦ Option.some.inj (happ.symm.trans hfirst)
  · exact fun hnone ↦ by cases hnone.symm.trans hfirst

theorem loaded_new (h : Accounted appPolicy s.machine root base)
    (hn : root (.app fileEntry n) = none) (himage : root (.image fileEntry) = none)
    (hnone : s.appLoads fileEntry = none) (hnew : NewPml4 s s₁ pml4)
    (hsegments : ∀ ph ∈ programHeaders image, ph.pType = ptLoad → ph.BelowStack)
    (hload : s₁.loadNew image fileEntry pml4 = some (.ok appLoad, s')) :
    ∃ root' first, Loaded base s s' root root' fileEntry n appLoad first := by
  obtain ⟨h₁, hspaces⟩ := h.addRoot himage hnew.free hnew.same hnew.empty hnew.memoryManager
  have hkeeps₁ := (Keeps.refl s.machine root).addRoot himage hspaces
  rw [LaunchState.loadNew] at hload
  split_ifs at hload
  · cases (Prod.mk.inj (Option.some.inj hload)).1
  dsimp only at hload
  cases hresult : (loadELF image s₁.machine).result with
  | none =>
      rw [hresult] at hload
      cases hload
  | some result =>
      cases result with
      | error err =>
          rw [hresult] at hload
          cases (Prod.mk.inj (Option.some.inj hload)).1
      | ok last =>
          rw [hresult] at hload
          have himage₁ : Function.update root (AppSpace.image fileEntry) (some pml4)
              (.image fileEntry) = some pml4 := Function.update_self _ _ _
          have hne := (image_ne_app fileEntry fileEntry n).symm
          have helf := updates_loadELF h₁ (himage₁.trans (congrArg some hnew.cr3.symm)) rfl rfl
            hsegments hresult
          obtain ⟨s₂, hs₂⟩ : ∃ s₂ : LaunchState, s₂ = { s₁ with
              machine := (loadELF image s₁.machine).machine
              appLoads := Function.update s₁.appLoads fileEntry
                (some ⟨last, eEntry image, pml4⟩) } := ⟨_, rfl⟩
          have hmachine₂ : s₂.machine = (loadELF image s₁.machine).machine := by rw [hs₂]
          rw [← hmachine₂] at helf
          dsimp only at hload
          rw [← hs₂] at hload
          rcases hsetup : s₂.setupPML4 with ⟨err | pml4', s₃⟩ <;> rw [hsetup] at hload
          · cases (Prod.mk.inj (Option.some.inj hload)).1
          · obtain ⟨h', hkeeps, hcr3, rfl, hstate⟩ := accounted_copyImage helf.accounted
              (shared_app fileEntry n) ((Function.update_of_ne hne _ _).trans hn) himage₁
              (newPml4_of_setupPML4 hsetup) (Option.some.inj hload)
            refine ⟨_, ⟨last, eEntry image, pml4⟩, rfl, h',
              (hkeeps₁.updates himage helf).trans hkeeps, hcr3, by rw [hstate], ?_, ?_, ?_⟩
            · rw [hstate, hs₂, hnew.state]
            · exact fun happ ↦ by cases hnone.symm.trans happ
            · intro _ p f w hf
              rw [hkeeps.entries _ himage₁] at hf
              by_contra hp
              rw [helf.changes.same fun _ hin ↦ hp (hin rfl), hspaces, Spaces.setRoot_entry,
                spaces_entry_of_root himage] at hf
              cases hf

/-- A successful `LoadApp`. -/
theorem loaded_loadApp (h : Accounted appPolicy s.machine root base)
    (hn : root (.app fileEntry n) = none)
    (himage : root (.image fileEntry) = (s.appLoads fileEntry).map AppLoadInfo.pml4)
    (hsegments : s.appLoads fileEntry = none → ∀ image, fileBuf v behind fileEntry = some image →
      ∀ ph ∈ programHeaders image, ph.pType = ptLoad → ph.BelowStack)
    (hload : s.loadApp v behind fileEntry = some (.ok appLoad, s')) :
    ∃ root' first, Loaded base s s' root root' fileEntry n appLoad first := by
  rw [LaunchState.loadApp] at hload
  rcases hsetup : s.setupPML4 with ⟨err | pml4, s₁⟩ <;> rw [hsetup] at hload
  · cases (Prod.mk.inj (Option.some.inj hload)).1
  · have hnew := newPml4_of_setupPML4 hsetup
    have happLoads : s₁.appLoads = s.appLoads := by rw [hnew.state]
    dsimp only at hload
    rw [happLoads] at hload
    cases hfirst : s.appLoads fileEntry with
    | some first =>
        rw [hfirst] at hload himage
        obtain ⟨root', hloaded⟩ := loaded_cached h hn himage hfirst hnew (Option.some.inj hload)
        exact ⟨root', first, hloaded⟩
    | none =>
        rw [hfirst] at hload himage
        obtain ⟨image, hbuf, hload⟩ := Option.bind_eq_some_iff.mp hload
        exact loaded_new h hn himage hfirst hnew (hsegments hfirst image hbuf) hload

end LoadApp

end App
end MinOS
