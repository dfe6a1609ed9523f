import MinOS.App.Elf

/-!
# Which files the loader confines

The loader checks the address of the first segment only.  The segments that come
later, and the sizes of all of them, decide what it maps and stores.
-/

namespace MinOS
namespace App

open Paging Paging.Machine ByteMemory

namespace Phdr

/-- The fields are 64-bit values. -/
structure Valid (ph : Phdr) : Prop where
  pVaddr : ph.pVaddr < 2 ^ 64
  pFilesz : ph.pFilesz < 2 ^ 64
  pMemsz : ph.pMemsz < 2 ^ 64

theorem valid_phdr (image : ℕ → UInt8) (i : ℕ) : (phdr image i).Valid where
  pVaddr := readLE_lt image _ 8
  pFilesz := readLE_lt image _ 8
  pMemsz := readLE_lt image _ 8

variable {ph : Phdr}

/-- The stores of a segment stay in the user half exactly when the segment is
inside: a file part longer than the segment makes the fill wrap around. -/
theorem stores_inUserHalf_iff (hvalid : ph.Valid) :
    (∀ store ∈ ph.stores, InUserHalf store) ↔ ph.Inside := by
  obtain ⟨hvaddr, hfilesz, hmemsz⟩ := hvalid
  have hadd : uint64Add ph.pVaddr ph.pFilesz < 2 ^ 64 := Nat.mod_lt _ (by decide)
  simp only [stores, List.forall_mem_cons, List.not_mem_nil, IsEmpty.forall_iff, implies_true,
    and_true, inUserHalf_iff hvaddr, inUserHalf_iff hadd]
  simp only [Inside, uint64Add, uint64Sub, userBase]
  constructor
  · rintro ⟨hfirst, hsecond⟩
    omega
  · rintro ⟨hle, hrange⟩
    omega

theorem stores_length_iff (hvalid : ph.Valid) :
    (∀ store ∈ ph.stores, store.2 = 0) ↔ ¬ ph.Stores := by
  obtain ⟨hvaddr, hfilesz, hmemsz⟩ := hvalid
  simp only [stores, List.forall_mem_cons, List.not_mem_nil, IsEmpty.forall_iff, implies_true,
    and_true, Stores, uint64Sub]
  omega

theorem Inside.num4kpages (h : ph.Inside) (hne : ph.pMemsz ≠ 0) :
    ph.num4kpages = (ph.pVaddr % 4096 + ph.pMemsz + 4095) / 4096 := by
  obtain ⟨-, hzero | ⟨hlow, hhigh⟩⟩ := h
  · exact absurd hzero hne
  · simp only [Phdr.num4kpages, uint64Add, userBase] at *
    omega

theorem Inside.mem_entries (h : ph.Inside) {a : ℕ} (hlow : ph.pVaddr ≤ a)
    (hhigh : a < ph.pVaddr + ph.pMemsz) : (3, a / 4096 % 2 ^ 36) ∈ ph.entries := by
  have hpages := h.num4kpages (by omega)
  obtain ⟨-, hzero | ⟨hbase, hend⟩⟩ := h
  · omega
  · refine mem_entriesFrom.mpr ⟨⟨Nat.zero_le _, Nat.lt_succ_self 3⟩, a / 4096 % 2 ^ 36, ⟨?_, ?_⟩, ?_⟩
    · simp only [userBase] at hbase
      omega
    · rw [hpages]
      simp only [userBase] at hbase
      omega
    · simp

theorem MapsUser.top (h : ph.MapsUser) :
    ∀ p, ph.pVaddr / 4096 % 2 ^ 36 ≤ p → p < ph.pVaddr / 4096 % 2 ^ 36 + ph.num4kpages →
      p < 512 ^ 4 → p / 512 ^ 3 ∈ userHalf := by
  intro p hlow hhigh _
  change 256 ≤ _
  rcases h with hzero | htop <;> omega

end Phdr

variable {image : ℕ → UInt8} {total : ℕ} {m : Machine} {N : Finset (ℕ × ℕ)} {ph : Phdr}

theorem setup_segment (h : Mapped userHalf m.cr3 total m N) (hph : ph.MapsUser) :
    (∀ i ∈ (m.setupPageMaps (.ofValue ph.pVaddr) ph.num4kpages false).touched, i ∈ userHalf) ∧
      ((∃ r, (m.setupPageMaps (.ofValue ph.pVaddr) ph.num4kpages false).result = .ok r ∧
          (N ∪ ph.entries).card ≤ total ∧
          (m.setupPageMaps (.ofValue ph.pVaddr) ph.num4kpages false).machine.cr3 = m.cr3 ∧
          Mapped userHalf m.cr3 total
            (m.setupPageMaps (.ofValue ph.pVaddr) ph.num4kpages false).machine (N ∪ ph.entries)) ∨
        ((m.setupPageMaps (.ofValue ph.pVaddr) ph.num4kpages false).result =
            .error .kNoEnoughMemory ∧ total < (N ∪ ph.entries).card)) := by
  have hpage := LinearAddress4Level.pageNumber_ofValue ph.pVaddr
  apply h.setupPageMaps (LinearAddress4Level.valid_ofValue ph.pVaddr)
  · rw [hpage]
    exact hph.top
  · rw [hpage]
    rfl

/-- A segment inside the user half whose pages are mapped is copied. -/
theorem copySegment_inside (image : ℕ → UInt8) (h : Mapped userHalf m.cr3 total m N) (hvalid : ph.Valid)
    (hph : ph.Inside) (hN : ph.entries ⊆ N) :
    ∃ m', copySegment image ph m = some m' ∧ m'.cr3 = m.cr3 ∧
      Mapped userHalf m.cr3 total m' N := by
  have hmem : ∀ a, ph.pVaddr ≤ a → a < ph.pVaddr + ph.pMemsz → (3, a / 4096 % 2 ^ 36) ∈ N :=
    fun a hlow hhigh ↦ hN (hph.mem_entries hlow hhigh)
  obtain ⟨hle, hrange⟩ := hph
  obtain ⟨hvaddr, hfilesz, hmemsz⟩ := hvalid
  have hfill : uint64Sub ph.pMemsz ph.pFilesz = ph.pMemsz - ph.pFilesz := by
    simp only [uint64Sub]
    omega
  obtain ⟨m₁, hstore₁, hcr3₁, hm₁⟩ :=
    Mapped.storeBytes (readBytes image ph.pOffset ph.pFilesz) m ph.pVaddr h (by
      intro hne
      have hpos := List.length_pos_of_ne_nil hne
      rw [length_readBytes] at hpos ⊢
      simp only [userBase] at hrange
      omega) (by
      intro a hlow hhigh
      rw [length_readBytes] at hhigh
      exact hmem a hlow (by omega))
  rw [← hcr3₁] at hm₁
  obtain ⟨m₂, hstore₂, hcr3₂, hm₂⟩ :=
    Mapped.storeBytes (List.replicate (uint64Sub ph.pMemsz ph.pFilesz) 0) m₁
      (uint64Add ph.pVaddr ph.pFilesz) hm₁ (by
      intro hne
      have hpos := List.length_pos_of_ne_nil hne
      rw [List.length_replicate, hfill] at hpos ⊢
      simp only [userBase] at hrange
      simp only [uint64Add]
      omega) (by
      intro a hlow hhigh
      rw [List.length_replicate, hfill] at hhigh
      simp only [userBase] at hrange
      simp only [uint64Add] at hlow hhigh
      exact hmem a (by omega) (by omega))
  refine ⟨m₂, ?_, hcr3₂.trans hcr3₁, hcr3₁ ▸ hm₂⟩
  rw [copySegment, hstore₁, Option.bind_some, hstore₂]

theorem copySegment_empty (hph : ¬ ph.Stores) : copySegment image ph m = some m := by
  obtain ⟨hfilesz, hmemsz⟩ := not_or.mp hph
  rw [copySegment, not_not.mp hfilesz, not_not.mp hmemsz]
  rfl

theorem copyLoadSegments_loads (phdrs : List Phdr) :
    ∀ (lastAddr : ℕ) (m : Machine), copyLoadSegments image phdrs lastAddr m =
      copyLoadSegments image (loads phdrs) lastAddr m := by
  induction phdrs with
  | nil => exact fun _ _ ↦ rfl
  | cons ph phdrs ih =>
      intro lastAddr m
      by_cases htype : ph.pType = ptLoad
      · have hloads : loads (ph :: phdrs) = ph :: loads phdrs :=
          List.filter_cons_of_pos (by simpa using htype)
        rw [hloads, copyLoadSegments, copyLoadSegments]
        simp only [ih]
      · have hloads : loads (ph :: phdrs) = loads phdrs :=
          List.filter_cons_of_neg (by simpa using htype)
        rw [hloads, copyLoadSegments, if_pos htype, ih]

/-! ## The loop over the segments

The three inductions follow the loop: the entries `N` are there when the loop
reaches a segment.
-/

/-- Segments in the user half: the loop ends well when there are frames for all
of them, and only then. -/
theorem copyLoadSegments_confined (image : ℕ → UInt8) : ∀ (phdrs : List Phdr) (lastAddr : ℕ) (m : Machine)
    (N : Finset (ℕ × ℕ)), Mapped userHalf m.cr3 total m N →
    (∀ ph ∈ phdrs, ph.pType = ptLoad ∧ ph.Valid ∧ ph.Inside ∧ ph.MapsUser) →
    (∀ i ∈ (copyLoadSegments image phdrs lastAddr m).touched, i ∈ userHalf) ∧
      (∀ store ∈ (copyLoadSegments image phdrs lastAddr m).stores, InUserHalf store) ∧
      ((∃ r, (copyLoadSegments image phdrs lastAddr m).result = some (.ok r) ∧
          (N ∪ allEntries phdrs).card ≤ total) ∨
        (∃ e, (copyLoadSegments image phdrs lastAddr m).result = some (.error e) ∧
          total < (N ∪ allEntries phdrs).card)) := by
  intro phdrs
  induction phdrs with
  | nil =>
      intro lastAddr m N h _
      refine ⟨by simp [copyLoadSegments], by simp [copyLoadSegments], .inl ⟨lastAddr, rfl, ?_⟩⟩
      rw [allEntries, Finset.union_empty]
      exact (Nat.le_add_left _ _).trans h.count.le
  | cons ph phdrs ih =>
      intro lastAddr m N h hall
      obtain ⟨htype, hvalid, hinside, huser⟩ := hall ph List.mem_cons_self
      obtain ⟨htouched, ⟨r, hok, -, hcr3, hmapped⟩ | ⟨herror, hlt⟩⟩ := setup_segment h huser
      · rw [← hcr3] at hmapped
        obtain ⟨m₁, hcopy, hcr3₁, hm₁⟩ :=
          copySegment_inside image hmapped hvalid hinside Finset.subset_union_right
        rw [← hcr3₁] at hm₁
        obtain ⟨htouched', hstores', hresult⟩ :=
          ih (max lastAddr (uint64Add ph.pVaddr ph.pMemsz)) m₁ _ hm₁ fun ph' hph' ↦
            hall ph' (List.mem_cons_of_mem ph hph')
        simp only [copyLoadSegments, if_neg (not_not.mpr htype), hok, hcopy, allEntries,
          ← Finset.union_assoc]
        refine ⟨?_, ?_, hresult⟩
        · intro i hi
          rcases List.mem_append.mp hi with hi | hi
          · exact htouched i hi
          · exact htouched' i hi
        · intro store hstore
          rcases List.mem_append.mp hstore with hstore | hstore
          · exact (Phdr.stores_inUserHalf_iff hvalid).mpr hinside store hstore
          · exact hstores' store hstore
      · simp only [copyLoadSegments, if_neg (not_not.mpr htype), herror]
        refine ⟨htouched, by simp, .inr ⟨_, rfl, hlt.trans_le (Finset.card_le_card ?_)⟩⟩
        rw [allEntries, ← Finset.union_assoc]
        exact Finset.subset_union_left

/-- When the frames run out in time, nothing was stored. -/
theorem copyLoadSegments_runsOut : ∀ (phdrs : List Phdr) (lastAddr : ℕ) (m : Machine)
    (N : Finset (ℕ × ℕ)), Mapped userHalf m.cr3 total m N →
    (∀ ph ∈ phdrs, ph.pType = ptLoad ∧ ph.Valid) → RunsOut total N phdrs →
    (∃ e, (copyLoadSegments image phdrs lastAddr m).result = some (.error e)) ∧
      ∀ store ∈ (copyLoadSegments image phdrs lastAddr m).stores, store.2 = 0 := by
  intro phdrs
  induction phdrs with
  | nil => exact fun _ _ _ _ _ hout ↦ hout.elim
  | cons ph phdrs ih =>
      intro lastAddr m N h hall hout
      obtain ⟨htype, hvalid⟩ := hall ph List.mem_cons_self
      obtain ⟨huser, hout⟩ := hout
      obtain ⟨-, ⟨r, hok, hle, hcr3, hmapped⟩ | ⟨herror, -⟩⟩ := setup_segment h huser
      · rcases hout with hlt | ⟨hempty, hout⟩
        · omega
        · rw [← hcr3] at hmapped
          obtain ⟨hresult, hstores⟩ := ih (max lastAddr (uint64Add ph.pVaddr ph.pMemsz)) _ _
            hmapped (fun ph' hph' ↦ hall ph' (List.mem_cons_of_mem ph hph')) hout
          simp only [copyLoadSegments, if_neg (not_not.mpr htype), hok, copySegment_empty hempty]
          refine ⟨hresult, ?_⟩
          intro store hstore
          rcases List.mem_append.mp hstore with hstore | hstore
          · exact (Phdr.stores_length_iff hvalid).mpr hempty store hstore
          · exact hstores store hstore
      · simp only [copyLoadSegments, if_neg (not_not.mpr htype), herror]
        exact ⟨⟨_, rfl⟩, by simp⟩

/-- An error without a store is one of these, if no page of the lower half was
set up before. -/
theorem runsOut_of_error : ∀ (phdrs : List Phdr) (lastAddr : ℕ) (m : Machine)
    (N : Finset (ℕ × ℕ)), Mapped userHalf m.cr3 total m N →
    (∀ ph ∈ phdrs, ph.pType = ptLoad ∧ ph.Valid) → ¬ MapsLow phdrs →
    (∃ e, (copyLoadSegments image phdrs lastAddr m).result = some (.error e)) →
    (∀ store ∈ (copyLoadSegments image phdrs lastAddr m).stores, store.2 = 0) →
    RunsOut total N phdrs := by
  intro phdrs
  induction phdrs with
  | nil =>
      rintro lastAddr m N - - - ⟨e, he⟩ -
      simp [copyLoadSegments] at he
  | cons ph phdrs ih =>
      intro lastAddr m N h hall hlow hresult hstores
      obtain ⟨htype, hvalid⟩ := hall ph List.mem_cons_self
      obtain ⟨huser, hlow⟩ := not_or.mp hlow
      refine ⟨not_not.mp huser, ?_⟩
      obtain ⟨-, ⟨r, hok, hle, hcr3, hmapped⟩ | ⟨-, hlt⟩⟩ := setup_segment h (not_not.mp huser)
      · right
        rw [← hcr3] at hmapped
        simp only [copyLoadSegments, if_neg (not_not.mpr htype), hok] at hresult hstores
        have hempty : ¬ ph.Stores := by
          rw [← Phdr.stores_length_iff hvalid]
          intro store hstore
          apply hstores
          split
          · exact hstore
          · exact List.mem_append_left _ hstore
        rw [copySegment_empty hempty] at hresult hstores
        exact ⟨hempty, ih _ _ _ hmapped (fun ph' hph' ↦ hall ph' (List.mem_cons_of_mem ph hph'))
          (fun h ↦ hlow ⟨hempty, h⟩) hresult
          fun store hstore ↦ hstores store (List.mem_append_right _ hstore)⟩
      · exact .inl hlt

/-- The entry of the PML4 is written before anything else. -/
theorem pml4_mem_touched {addr : LinearAddress4Level} {n : ℕ} (hn : n ≠ 0) {w : Bool} {r : ℕ}
    (hok : (m.setupPageMaps addr n w).result = .ok r) :
    addr.pml4 ∈ (m.setupPageMaps addr n w).touched := by
  rw [setupPageMaps, setupPageMap, setupLoop, if_neg hn] at hok ⊢
  dsimp only at hok ⊢
  rcases hset : m.setNewPageMapIfNotPresent m.cr3 (addr.part (3 + 1)) with ⟨result, m₁⟩
  rw [hset] at hok
  cases result with
  | error e => cases hok
  | ok frame =>
      dsimp only at hok ⊢
      rw [if_neg (by decide)] at hok ⊢
      have hmem : ∀ s : Setup, addr.pml4 ∈ (s.after [addr.pml4]).touched := fun s ↦
        List.mem_append_left _ List.mem_cons_self
      split
      · exact hmem _
      · split_ifs
        · exact hmem _
        · exact List.mem_append_left _ (hmem _)

/-- A load that is accepted has touched the pages of every segment and made its
stores. -/
theorem segment_of_ok : ∀ (phdrs : List Phdr) (lastAddr : ℕ) (m : Machine),
    (∀ ph ∈ phdrs, ph.pType = ptLoad) →
    (∃ r, (copyLoadSegments image phdrs lastAddr m).result = some (.ok r)) → ∀ ph ∈ phdrs,
    (ph.num4kpages ≠ 0 → (LinearAddress4Level.ofValue ph.pVaddr).pml4 ∈
        (copyLoadSegments image phdrs lastAddr m).touched) ∧
      ∀ store ∈ ph.stores, store ∈ (copyLoadSegments image phdrs lastAddr m).stores := by
  intro phdrs
  induction phdrs with
  | nil => exact fun _ _ _ _ ph hph ↦ absurd hph List.not_mem_nil
  | cons ph' phdrs ih =>
      intro lastAddr m hall hresult ph hph
      have htype := hall ph' List.mem_cons_self
      simp only [copyLoadSegments, if_neg (not_not.mpr htype)] at hresult ⊢
      cases hsetup : (m.setupPageMaps (.ofValue ph'.pVaddr) ph'.num4kpages false).result with
      | error e =>
          obtain ⟨r, hr⟩ := hresult
          simp [hsetup] at hr
      | ok r =>
          cases hcopy : copySegment image ph'
              (m.setupPageMaps (.ofValue ph'.pVaddr) ph'.num4kpages false).machine with
          | none =>
              obtain ⟨r, hr⟩ := hresult
              simp [hsetup, hcopy] at hr
          | some m₁ =>
              simp only [hsetup, hcopy] at hresult ⊢
              rcases List.mem_cons.mp hph with rfl | hph
              · exact ⟨fun hn ↦ List.mem_append_left _ (pml4_mem_touched hn hsetup),
                  fun store hstore ↦ List.mem_append_left _ hstore⟩
              · obtain ⟨htouched, hstores⟩ := ih _ m₁
                  (fun ph' hph' ↦ hall ph' (List.mem_cons_of_mem _ hph')) hresult ph hph
                exact ⟨fun hn ↦ List.mem_append_right _ (htouched hn),
                  fun store hstore ↦ List.mem_append_right _ (hstores store hstore)⟩

theorem Fresh.mapped (h : Fresh m) :
    Mapped userHalf m.cr3 m.memoryManager.freeFrames.card m ∅ :=
  .of_empty h.allocated h.rangeEnd h.empty

theorem loads_valid (image : ℕ → UInt8) :
    ∀ ph ∈ loads (programHeaders image), ph.pType = ptLoad ∧ ph.Valid := by
  intro ph hph
  obtain ⟨hmem, htype⟩ := List.mem_filter.mp hph
  obtain ⟨i, -, rfl⟩ := List.mem_map.mp hmem
  exact ⟨by simpa using htype, Phdr.valid_phdr image i⟩

theorem Load.confined_error (e : Error) (m : Machine) :
    (⟨some (.error e), m, [], []⟩ : Load).Confined := by
  simp [Load.Confined]

theorem loadELF_confined (image : ℕ → UInt8) (h : Fresh m) (hkeeps : KeepsConfined image m) :
    (loadELF image m).Confined := by
  have hvalid := loads_valid image
  rw [loadELF]
  split_ifs with htype hfirst
  · exact Load.confined_error _ _
  · exact Load.confined_error _ _
  rw [copyLoadSegments_loads]
  rcases hkeeps with hne | hlt | ⟨hall, hcard⟩ | hout
  · exact absurd hne htype
  · exact absurd hlt hfirst
  · obtain ⟨htouched, hstores, ⟨r, hok, -⟩ | ⟨e, -, hlt⟩⟩ :=
      copyLoadSegments_confined image (loads (programHeaders image)) 0 m ∅ h.mapped
        fun ph hph ↦ ⟨(hvalid ph hph).1, (hvalid ph hph).2, hall ph hph⟩
    · rw [Load.Confined, hok]
      exact ⟨htouched, hstores⟩
    · rw [Finset.empty_union] at hlt
      omega
  · obtain ⟨⟨e, herror⟩, hstores⟩ :=
      copyLoadSegments_runsOut (loads (programHeaders image)) 0 m ∅ h.mapped hvalid hout
    rw [Load.Confined, herror]
    exact hstores

theorem keepsConfined_of_confined (image : ℕ → UInt8) (h : Fresh m)
    (hlow : ¬ MapsLow (loads (programHeaders image)))
    (hconfined : (loadELF image m).Confined) : KeepsConfined image m := by
  have hvalid := loads_valid image
  rw [loadELF] at hconfined
  split_ifs at hconfined with htype hfirst
  · exact .inl htype
  · exact .inr (.inl hfirst)
  refine .inr (.inr ?_)
  rw [copyLoadSegments_loads, Load.Confined] at hconfined
  split at hconfined
  · next r hok =>
      -- accepted: what it touched and stored tells about every segment
      have hall : ∀ ph ∈ loads (programHeaders image), ph.Inside ∧ ph.MapsUser := by
        intro ph hph
        obtain ⟨htouched, hstores⟩ := segment_of_ok _ 0 m (fun ph hph ↦ (hvalid ph hph).1)
          ⟨r, hok⟩ ph hph
        refine ⟨(Phdr.stores_inUserHalf_iff (hvalid ph hph).2).mp
          fun store hstore ↦ hconfined.2 store (hstores store hstore), ?_⟩
        by_cases hn : ph.num4kpages = 0
        · exact .inl hn
        · exact .inr (hconfined.1 _ (htouched hn))
      obtain ⟨-, -, ⟨r', -, hcard⟩ | ⟨e, herror, -⟩⟩ :=
        copyLoadSegments_confined image (loads (programHeaders image)) 0 m ∅ h.mapped
          fun ph hph ↦ ⟨(hvalid ph hph).1, (hvalid ph hph).2, hall ph hph⟩
      · rw [Finset.empty_union] at hcard
        exact .inl ⟨hall, hcard⟩
      · cases hok.symm.trans herror
  · next e herror =>
      exact .inr (runsOut_of_error _ 0 m ∅ h.mapped hvalid hlow ⟨e, herror⟩ hconfined)
  · exact hconfined.elim

/-- A segment behind the first one is not checked. -/
theorem not_confined_of_outside (h : Fresh m) (htype : eType image = etExec)
    (hfirst : userBase ≤ getFirstLoadAddress (programHeaders image)) {phdrs : List Phdr}
    (hloads : loads (programHeaders image) = ph :: phdrs) (hstores : ph.Stores)
    (huser : ph.MapsUser) (hframes : ph.entries.card ≤ m.memoryManager.freeFrames.card)
    {ph' : Phdr} (hmem : ph' ∈ phdrs) (hout : ¬ ph'.Inside) : ¬ (loadELF image m).Confined := by
  intro hconfined
  have hlow : ¬ MapsLow (loads (programHeaders image)) := by
    rw [hloads]
    rintro (hmaps | ⟨hempty, -⟩)
    · exact hmaps huser
    · exact hempty hstores
  rcases keepsConfined_of_confined image h hlow hconfined with hne | hlt | ⟨hall, -⟩ | hrunsOut
  · exact hne htype
  · omega
  · rw [hloads] at hall
    exact hout (hall ph' (List.mem_cons_of_mem ph hmem)).1
  · rw [hloads] at hrunsOut
    obtain ⟨-, hlt | ⟨hempty, -⟩⟩ := hrunsOut
    · rw [Finset.empty_union] at hlt
      omega
    · exact hempty hstores

/-- A file with one program header for every address and pair of sizes. -/
def elfFile (segments : List (ℕ × ℕ × ℕ)) : ℕ → UInt8 :=
  segments.zipIdx.foldl
    (fun image seg ↦
      writeLE
        (writeLE
          (writeLE (writeLE image (64 + 56 * seg.2) 4 ptLoad) (64 + 56 * seg.2 + 16) 8 seg.1.1)
          (64 + 56 * seg.2 + 32) 8 seg.1.2.1)
        (64 + 56 * seg.2 + 40) 8 seg.1.2.2)
    (writeLE (writeLE (writeLE (fun _ ↦ 0) 16 2 etExec) 32 8 64) 56 2 segments.length)

/-- The identity mapping in frames 1 to 3, and 24 free frames. -/
def sampleMachine : Machine where
  mem := fun frame i ↦
    if frame = 1 ∧ i = 0 then 0x2003#64
    else if frame = 2 ∧ i = 0 then 0x3003#64
    else if frame = 3 then BitVec.ofNat 64 (i * 0x200000) ||| 0x83#64
    else 0#64
  memoryManager := ⟨fun _ ↦ 0xff#64, 0, 32⟩
  cr3 := 1

theorem fresh_sampleMachine : Fresh sampleMachine where
  allocated := by decide +kernel
  rangeEnd := by decide +kernel
  empty := by
    intro i hlow _
    have h0 : ¬ i = 0 := by omega
    simp [sampleMachine, h0]

theorem loads_one_segment : loads (programHeaders (elfFile [(0xffff800000000000, 4, 8)])) =
    [⟨1, 0, 0xffff800000000000, 4, 8⟩] := by
  decide +kernel

theorem loads_low_segment :
    loads (programHeaders (elfFile [(0xffff800000000000, 4, 8), (0x100000, 4, 8)])) =
      [⟨1, 0, 0xffff800000000000, 4, 8⟩, ⟨1, 0, 0x100000, 4, 8⟩] := by
  decide +kernel

end App
end MinOS
