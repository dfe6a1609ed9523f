import MinOS.App.Regions
import MinOS.Fat.Sharing
import MinOS.Paging.Content

/-!
# Page faults

`HandlePageFault` of `paging.cpp`.  A page that is not present and lies in the
demand-paging range gets a cleared frame, one in a file mapping a frame with the
bytes of the file.  The volume image is no part of the frames that are given out.
-/

namespace MinOS
namespace App

open Paging Paging.Machine

/-- An open file: of the volume, or the terminal or a pipe. -/
inductive OpenFile where
  | fat (fd : Fat.FileDescriptor)
  | stream

/-- `Load`, with the bytes that it copies to the buffer. -/
def OpenFile.load (v : Fat.Volume) : OpenFile → ℕ → ℕ → Option (List UInt8)
  | .fat fd, len, offset => v.load fd len offset
  | .stream, _, _ => some []

/-- The fields of `Task` that `HandlePageFault` reads. -/
structure FaultTask where
  dpagingBegin : ℕ
  dpagingEnd : ℕ
  fileMaps : List FileMapping
  files : List (Option OpenFile)

def findFileMapping (fmaps : List FileMapping) (causalVaddr : ℕ) : Option FileMapping :=
  fmaps.find? fun fm ↦ fm.vaddrBegin ≤ causalVaddr ∧ causalVaddr < fm.vaddrEnd

/-- `none` is a fault of the kernel itself. -/
def preparePageCache (v : Fat.Volume) (fd : OpenFile) (fm : FileMapping) (causalVaddr : ℕ)
    (m : Machine) : Option (Except Error Unit × Machine) :=
  let pageVaddr := (LinearAddress4Level.ofValue causalVaddr).setPart 0 0
  let setup := m.setupPageMaps pageVaddr 1 true
  match setup.result with
  | .error err => some (.error err, setup.machine)
  | .ok _ => do
      let fileOffset := uint64Sub pageVaddr.value fm.vaddrBegin
      let bytes ← fd.load v 4096 fileOffset
      let m ← setup.machine.storeBytes pageVaddr.value bytes
      return (.ok (), m)

def setPageContent : ℕ → Machine → ℕ → LinearAddress4Level → ℕ → Machine
  | 0, m, _, _, _ => m
  | 1, m, table, addr, content =>
      m.setEntry table (addr.part 1) (((m.mem table (addr.part 1)).setPointer content).setFlag 1 true)
  | part + 2, m, table, addr, content =>
      setPageContent (part + 1) m (m.mem table (addr.part (part + 2))).pointer addr content

/-- The copied page starts at a frame, wherever it lies. -/
def copyOnePage (m : Machine) (causalAddr : ℕ) : Option (Except Error Unit × Machine) :=
  match m.newPageMap with
  | (.error err, m) => some (.error err, m)
  | (.ok p, m) => do
      let phys ← m.translate (pageDown causalAddr)
      let m := { m with mem := Function.update m.mem p (m.mem (phys / 4096)) }
      return (.ok (), setPageContent 4 m m.cr3 (.ofValue causalAddr) p)

def handlePageFault (v : Fat.Volume) (task : FaultTask) (m : Machine) (errorCode causalAddr : ℕ) :
    Option (Except Error Unit × Machine) :=
  let present := errorCode.testBit 0
  let rwBit := errorCode.testBit 1
  let user := errorCode.testBit 2
  if present && rwBit && user then copyOnePage m causalAddr
  else if present then some (.error .kAlreadyAllocated, m)
  else if task.dpagingBegin ≤ causalAddr ∧ causalAddr < task.dpagingEnd then
    let setup := m.setupPageMaps (.ofValue causalAddr) 1 true
    some (setup.result.map fun _ ↦ (), setup.machine)
  else
    match findFileMapping task.fileMaps causalAddr with
    | some fm =>
        (task.files[fm.fd]?.join).bind fun fd ↦ preparePageCache v fd fm causalAddr m
    | none => some (.error .kIndexOutOfRange, m)

/-! ## Faults of pages that are not present -/

/-- The demand-paging range and the file mappings are page-aligned and disjoint. -/
structure FaultRegions (task : FaultTask) : Prop where
  dpaging : task.dpagingBegin % 4096 = 0 ∧ task.dpagingEnd % 4096 = 0
  maps : ∀ fm ∈ task.fileMaps, fm.vaddrBegin % 4096 = 0 ∧ fm.vaddrEnd % 4096 = 0 ∧
    fm.vaddrBegin ≤ fm.vaddrEnd ∧ fm.vaddrEnd < 2 ^ 64
  disjoint : ((task.dpagingBegin, task.dpagingEnd) ::
    task.fileMaps.map fun fm ↦ (fm.vaddrBegin, fm.vaddrEnd)).Pairwise Apart

/-- The bytes of an open file; the other descriptors have the size 0. -/
def OpenFile.Contains (v : Fat.Volume) (bound : ℕ) : OpenFile → List UInt8 → Prop
  | .fat fd, data => data.length < 2 ^ 32 ∧ v.fileSize fd.fatEntry = data.length ∧
      ∃ chain, Fat.Owns v bound fd.fatEntry chain ∧ Fat.Holds v chain data
  | .stream, data => data = []

/-- `MapFile` made the mapping of a file with these bytes, which it still has. -/
structure Backed (v : Fat.Volume) (bound : ℕ) (task : FaultTask) (fm : FileMapping)
    (data : List UInt8) : Prop where
  file : ∃ fd, task.files[fm.fd]? = some (some fd) ∧ fd.Contains v bound data
  begin : fm.vaddrBegin = pageDown (uint64Sub fm.vaddrEnd data.length)

/-- A page is mapped, user and writable at every level, to a fresh frame with the given bytes.
Nothing else changes: the other translations, and the frames in use that are no
tables. -/
structure Resolves (m m' : Machine) (p : ℕ) (content : ℕ → UInt8) : Prop where
  space : AddressSpace m'
  page : ∃ e, m'.page p = some (0, e) ∧ e.user = true ∧ e.writable = true ∧
    e.pointer ∈ m.memoryManager.freeFrames ∧ m'.memoryManager.getBit e.pointer = true ∧
      NoTable m' e.pointer ∧ ∀ o < 4096, m'.byteAt (e.pointer * 4096 + o) = content o
  path : ∀ d < 3, ∃ table, m'.tableOf m'.cr3 d (p / 512 ^ (3 - d)) = some table ∧
    (m'.mem table (p / 512 ^ (3 - d) % 512)).user = true ∧
      (m'.mem table (p / 512 ^ (3 - d) % 512)).writable = true
  others : ∀ q, q < 512 ^ 4 → q ≠ p → m'.page q = m.page q
  kept : ∀ f, m.memoryManager.getBit f = true → NoTable m f →
    m'.memoryManager.getBit f = true ∧ NoTable m' f ∧ m'.mem f = m.mem f

/-- The bytes of a mapped file from an address on, with zeros past its end. -/
def mappedByte (fm : FileMapping) (data : List UInt8) (vaddr : ℕ) : UInt8 :=
  (data[vaddr - fm.vaddrBegin]?).getD 0

/-- What `HandlePageFault` has to do about a page that is not present. -/
def ResolvesFaults (v : Fat.Volume) (bound : ℕ) (task : FaultTask) : Prop :=
  ∀ (m : Machine) (errorCode a : ℕ), AddressSpace m → a < 2 ^ 64 → Canonical a →
    m.page (pageOf a) = none → errorCode.testBit 0 = false →
    ∃ result m', handlePageFault v task m errorCode a = some (result, m') ∧
      (result = .ok () →
        (task.dpagingBegin ≤ a → a < task.dpagingEnd → Resolves m m' (pageOf a) fun _ ↦ 0) ∧
          ∀ fm ∈ task.fileMaps, fm.vaddrBegin ≤ a → a < fm.vaddrEnd → ∀ data,
            Backed v bound task fm data →
              Resolves m m' (pageOf a) fun o ↦ mappedByte fm data (pageDown a + o)) ∧
      (¬ (task.dpagingBegin ≤ a ∧ a < task.dpagingEnd) →
        (∀ fm ∈ task.fileMaps, ¬ (fm.vaddrBegin ≤ a ∧ a < fm.vaddrEnd)) →
          result = .error .kIndexOutOfRange ∧ m' = m)

/-- A byte that the application reads.  A fault that is not resolved kills it. -/
def readByte (v : Fat.Volume) (task : FaultTask) (m : Machine) (a : ℕ) :
    Option (UInt8 × Machine) :=
  if Canonical a then
    match m.translate a with
    | some phys => some (m.byteAt phys, m)
    | none =>
        match handlePageFault v task m 4 a with
        | some (.ok _, m') => (m'.translate a).map fun phys ↦ (m'.byteAt phys, m')
        | _ => none
  else none

/-- The bytes that are read at a list of addresses. -/
def readBytesAt (v : Fat.Volume) (task : FaultTask) : Machine → List ℕ →
    Option (List UInt8 × Machine)
  | m, [] => some ([], m)
  | m, a :: as =>
      (readByte v task m a).bind fun r ↦
        (readBytesAt v task r.2 as).map fun rest ↦ (r.1 :: rest.1, rest.2)

/-- From a state in which the pages of the mappings are not mapped yet, every read
within a file returns its byte. -/
def ReadsFiles (v : Fat.Volume) (bound : ℕ) (task : FaultTask) : Prop :=
  ∀ (m : Machine), AddressSpace m →
    (∀ fm ∈ task.fileMaps, ∀ a, fm.vaddrBegin ≤ a → a < fm.vaddrEnd → Canonical a →
      m.page (pageOf a) = none) →
    ∀ (as : List ℕ) (bytes : List UInt8) (m' : Machine), (∀ a ∈ as, a < 2 ^ 64) →
      readBytesAt v task m as = some (bytes, m') →
      ∀ fm ∈ task.fileMaps, ∀ data, Backed v bound task fm data → ∀ i k : ℕ, k < data.length →
        as[i]? = some (fm.vaddrBegin + k) → bytes[i]? = data[k]?

/-! ## One page -/

section Page

variable {m m' : Machine} {addr : LinearAddress4Level}

/-- `SetupPageMaps` for one page that is not mapped. -/
theorem resolves_setupPageMaps (hm : AddressSpace m) (haddr : addr.Valid)
    (hpage : m.page addr.pageNumber = none) {r : ℕ}
    (hok : (m.setupPageMaps addr 1 true).result = .ok r) :
    Resolves m (m.setupPageMaps addr 1 true).machine addr.pageNumber fun _ ↦ 0 := by
  have hlt := haddr.pageNumber_lt
  have hsmall := hm.small_of_page_none hlt hpage
  have hpath : ∀ q, addr.pageNumber ≤ q → q < addr.pageNumber + 1 → m.Small m.cr3 3 q := by
    intro q hlow hhigh
    obtain rfl : q = addr.pageNumber := by omega
    exact hsmall
  obtain ⟨-, hgrown, hflag⟩ := setupPageMaps_grown hm.toPageTree haddr (by omega) hpath hok
  have hrange := setupPageMaps_mapsRange hm.toPageTree haddr (by omega) hpath hok
  have hW : ∀ d q, (d, q) ∈ entriesFrom 0 addr.pageNumber (addr.pageNumber + 1) →
      m.Small m.cr3 d q := fun d q hin ↦ small_of_mem_entriesFrom hpath hin
  obtain ⟨e, he, huser, hwritable⟩ := hrange.mapped addr.pageNumber le_rfl (Nat.lt_succ_self _)
  obtain ⟨hfree, hbit, hzero⟩ := hrange.fresh addr.pageNumber e le_rfl (Nat.lt_succ_self _) hpage he
  have hmem : (m.smallEntries m.cr3).Mem 3 addr.pageNumber := hsmall
  refine ⟨hgrown.addressSpace hm.toPageTree hW hm hflag,
    ⟨e, he, huser, hwritable, hfree, hbit, ?_, ?_⟩, ?_, ?_, ?_⟩
  · intro d q table hholds htable
    rw [hgrown.smallEntries_eq hm.toPageTree hW] at hholds
    rw [hgrown.cr3] at htable
    exact hgrown.table_ne_page hmem (frameAt_of_page_none hm.toPageTree hmem hpage)
      (hgrown.frameAt_of_page hmem he) hholds htable hm.toPageTree
  · intro o ho
    have hframe : (e.pointer * 4096 + o) / 4096 = e.pointer := by omega
    rw [byteAt, hframe, hzero]
    simp
  · intro d hd
    obtain ⟨table, htable, -, huser, hwritable⟩ :=
      hrange.path addr.pageNumber d le_rfl (Nat.lt_succ_self _) hd
    exact ⟨table, htable, huser, hwritable⟩
  · intro q hq hne
    exact hrange.others q hq fun hin ↦ hne (by omega)
  · intro f hf hno
    exact ⟨hgrown.allocated hf, hgrown.noTable hm.toPageTree hW hf hno,
      hgrown.mem_same hm.toPageTree hW hf hno⟩

theorem Resolves.storeBytes {vaddr : ℕ} (h : Resolves m m' (pageOf vaddr) fun _ ↦ 0)
    (hcanon : Canonical vaddr) (hlt : vaddr < 2 ^ 64) (halign : vaddr % 4096 = 0)
    (bytes : List UInt8) (hlen : bytes.length ≤ 4096) :
    ∃ m'', m'.storeBytes vaddr bytes = some m'' ∧
      Resolves m m'' (pageOf vaddr) fun o ↦ (bytes[o]?).getD 0 := by
  obtain ⟨e, he, huser, hwritable, hfree, hbit, hno, hzero⟩ := h.page
  obtain ⟨m'', hstore, hto, hbytes⟩ := storeBytes_page bytes h.space hcanon hlt he hno (by omega)
  have hpage : pageOf vaddr < 512 ^ 4 := by
    simp only [pageOf]
    omega
  refine ⟨m'', hstore, hto.addressSpace hno h.space, ⟨e, ?_, huser, hwritable, hfree, ?_, ?_, ?_⟩,
    ?_, ?_, ?_⟩
  · rw [hto.page_eq hno hpage, he]
  · rw [hto.memoryManager, hbit]
  · exact hto.noTable hno hno
  · intro o ho
    rw [hbytes o ho, halign, if_pos (Nat.zero_le o), hzero o ho, Nat.sub_zero]
  · intro d hd
    obtain ⟨table, htable, hflags⟩ := h.path d hd
    have hsmall : (m'.smallEntries m'.cr3).Mem 3 (pageOf vaddr) := by
      refine h.space.small_of_page hpage fun l e' he' ↦ ?_
      rw [he, Option.some.injEq, Prod.mk.injEq] at he'
      exact he'.1.symm
    have hmem := EntrySet.ancestor hsmall (Nat.sub_le 3 d)
    have hdepth : 3 - (3 - d) = d := by omega
    rw [hdepth] at hmem
    have hholds := EntrySet.holds hmem
    refine ⟨table, ?_, ?_⟩
    · rw [hto.cr3, hto.tableOf_eq hno hholds, htable]
    · rw [hto.same table (hno hholds htable)]
      exact hflags
  · intro q hq hne
    rw [hto.page_eq hno hq]
    exact h.others q hq hne
  · intro f hf hnof
    obtain ⟨hf', hnof', hsame⟩ := h.kept f hf hnof
    refine ⟨hto.memoryManager ▸ hf', hto.noTable hno hnof', ?_⟩
    rw [hto.same f, hsame]
    rintro rfl
    exact notMem_freeFrames_of_getBit hf hfree

theorem Resolves.congr {p : ℕ} {content content' : ℕ → UInt8} (h : Resolves m m' p content)
    (hsame : ∀ o < 4096, content o = content' o) : Resolves m m' p content' := by
  obtain ⟨e, he, huser, hwritable, hfree, hbit, hno, hbytes⟩ := h.page
  exact ⟨h.space, ⟨e, he, huser, hwritable, hfree, hbit, hno,
    fun o ho ↦ (hbytes o ho).trans (hsame o ho)⟩, h.path, h.others, h.kept⟩

theorem Resolves.content_eq {p : ℕ} {content content' : ℕ → UInt8} (h : Resolves m m' p content)
    (h' : Resolves m m' p content') : ∀ o < 4096, content o = content' o := by
  obtain ⟨e, he, -, -, -, -, -, hbytes⟩ := h.page
  obtain ⟨e', he', -, -, -, -, -, hbytes'⟩ := h'.page
  obtain rfl : e = e' := by simpa using he.symm.trans he'
  exact fun o ho ↦ (hbytes o ho).symm.trans (hbytes' o ho)

end Page

/-! ## Regions -/

section Regions

variable {v : Fat.Volume} {bound : ℕ} {task : FaultTask} {fm : FileMapping} {data : List UInt8}
  {a : ℕ}

theorem pageDown_add (a : ℕ) : pageDown a + a % 4096 = a := by
  simp only [pageDown]
  omega

theorem le_pageDown {b : ℕ} (hb : b % 4096 = 0) (hle : b ≤ a) : b ≤ pageDown a := by
  simp only [pageDown]
  omega

theorem Backed.offset_lt (h : Backed v bound task fm data) (hsmall : data.length < 2 ^ 32)
    (hend : fm.vaddrEnd % 4096 = 0) (hlt : fm.vaddrEnd < 2 ^ 64) (hlow : fm.vaddrBegin ≤ a)
    (hhigh : a < fm.vaddrEnd) : pageDown a - fm.vaddrBegin < data.length := by
  have hbegin := h.begin
  simp only [pageDown, uint64Sub] at hbegin ⊢
  omega

theorem Backed.length_lt (h : Backed v bound task fm data) : data.length < 2 ^ 32 := by
  obtain ⟨fd, -, hfd⟩ := h.file
  cases fd with
  | fat fd => exact hfd.1
  | stream =>
      obtain rfl : data = [] := hfd
      simp

theorem Backed.load (h : Backed v bound task fm data) (hg : Fat.Geometry v.bpb bound) {offset : ℕ}
    (hoffset : offset < data.length) : ∃ fd, task.files[fm.fd]? = some (some fd) ∧
      fd.load v 4096 offset = some ((data.drop offset).take 4096) := by
  obtain ⟨fd, hfd, hdata⟩ := h.file
  refine ⟨fd, hfd, ?_⟩
  cases fd with
  | fat fd =>
      obtain ⟨hsmall, hsize, chain, howns, hholds⟩ := hdata
      exact Fat.load_spec hg.bytesPerCluster_pos howns hholds hsize hsmall hoffset.le 4096
  | stream =>
      obtain rfl : data = [] := hdata
      simp at hoffset

theorem FaultRegions.not_dpaging (h : FaultRegions task) (hfm : fm ∈ task.fileMaps)
    (hlow : fm.vaddrBegin ≤ a) (hhigh : a < fm.vaddrEnd) :
    ¬ (task.dpagingBegin ≤ a ∧ a < task.dpagingEnd) := by
  intro hin
  have hapart := (List.pairwise_cons.mp h.disjoint).1 _ (List.mem_map_of_mem hfm)
  exact Set.disjoint_left.mp hapart hin ⟨hlow, hhigh⟩

theorem FaultRegions.find (h : FaultRegions task) (hfm : fm ∈ task.fileMaps)
    (hlow : fm.vaddrBegin ≤ a) (hhigh : a < fm.vaddrEnd) :
    findFileMapping task.fileMaps a = some fm := by
  obtain ⟨fm', hfound⟩ : ∃ fm', findFileMapping task.fileMaps a = some fm' := by
    refine Option.isSome_iff_exists.mp (List.find?_isSome.mpr ⟨fm, hfm, ?_⟩)
    simp [hlow, hhigh]
  rw [hfound]
  obtain ⟨hin, before, after, hsplit, hbefore⟩ := List.find?_eq_some_iff_append.mp hfound
  rw [hsplit, List.mem_append, List.mem_cons] at hfm
  rcases hfm with hfm | rfl | hfm
  · have hnot := hbefore fm hfm
    simp [hlow, hhigh] at hnot
  · rfl
  · have hpair := (List.pairwise_cons.mp h.disjoint).2
    rw [hsplit, List.map_append, List.map_cons] at hpair
    have hapart := (List.pairwise_cons.mp (List.pairwise_append.mp hpair).2.1).1 _
      (List.mem_map_of_mem hfm)
    exact absurd ⟨hlow, hhigh⟩ (Set.disjoint_left.mp hapart (by simpa using hin))

theorem FaultRegions.same_page (h : FaultRegions task) (hfm : fm ∈ task.fileMaps) {a' : ℕ}
    (hlow : fm.vaddrBegin ≤ a') (hhigh : a' < fm.vaddrEnd) (hsame : pageDown a' = pageDown a) :
    fm.vaddrBegin ≤ a ∧ a < fm.vaddrEnd := by
  obtain ⟨hbegin, hend, -, -⟩ := h.maps fm hfm
  simp only [pageDown] at hsame
  omega

theorem findFileMapping_none {fmaps : List FileMapping}
    (h : ∀ fm ∈ fmaps, ¬ (fm.vaddrBegin ≤ a ∧ a < fm.vaddrEnd)) :
    findFileMapping fmaps a = none :=
  List.find?_eq_none.mpr fun fm hfm ↦ by simpa using h fm hfm

theorem pageDown_eq {a a' : ℕ} (ha : a < 2 ^ 64) (ha' : a' < 2 ^ 64) (hcanon : Canonical a)
    (hcanon' : Canonical a') (h : pageOf a = pageOf a') : pageDown a = pageDown a' := by
  simp only [Canonical] at hcanon hcanon'
  simp only [pageOf] at h
  simp only [pageDown]
  omega

theorem pageOf_pageDown (a : ℕ) : pageOf (pageDown a) = pageOf a := by
  simp only [pageOf, pageDown]
  omega

theorem canonical_pageDown (h : Canonical a) : Canonical (pageDown a) := by
  simp only [Canonical, pageDown] at h ⊢
  omega

theorem setPart_zero (a : ℕ) :
    (LinearAddress4Level.ofValue a).setPart 0 0 = .ofValue (pageDown a) := by
  simp only [LinearAddress4Level.ofValue, LinearAddress4Level.setPart, pageDown,
    LinearAddress4Level.mk.injEq]
  omega

theorem value_ofValue (a : ℕ) : (LinearAddress4Level.ofValue a).value = a := by
  simp only [LinearAddress4Level.value, LinearAddress4Level.ofValue]
  omega

end Regions

/-! ## Faults -/

section Faults

variable {v : Fat.Volume} {bound : ℕ} {task : FaultTask} {m : Machine} {a : ℕ}

theorem resolves_preparePageCache {fm : FileMapping} {data : List UInt8} {fd : OpenFile}
    (hm : AddressSpace m) (ha : a < 2 ^ 64) (hcanon : Canonical a)
    (hpage : m.page (pageOf a) = none) (hlow : fm.vaddrBegin ≤ pageDown a)
    (hload : fd.load v 4096 (pageDown a - fm.vaddrBegin) =
      some ((data.drop (pageDown a - fm.vaddrBegin)).take 4096)) :
    ∃ result m', preparePageCache v fd fm a m = some (result, m') ∧ (result = .ok () →
      Resolves m m' (pageOf a) fun o ↦ mappedByte fm data (pageDown a + o)) := by
  have hoffset : uint64Sub (pageDown a) fm.vaddrBegin = pageDown a - fm.vaddrBegin := by
    have hle := pageDown_le a
    simp only [uint64Sub]
    omega
  simp only [preparePageCache, setPart_zero, value_ofValue, hoffset, hload]
  cases hsetup : (m.setupPageMaps (.ofValue (pageDown a)) 1 true).result with
  | error err => exact ⟨_, _, rfl, fun h ↦ by cases h⟩
  | ok r =>
      have hnumber : (LinearAddress4Level.ofValue (pageDown a)).pageNumber = pageOf (pageDown a) :=
        LinearAddress4Level.pageNumber_ofValue _
      have hzero := resolves_setupPageMaps hm (LinearAddress4Level.valid_ofValue (pageDown a))
        (by rw [hnumber, pageOf_pageDown, hpage]) hsetup
      rw [hnumber] at hzero
      have haligned : pageDown a % 4096 = 0 := Nat.mul_mod_left _ _
      obtain ⟨m', hstore, hresolves⟩ := hzero.storeBytes (canonical_pageDown hcanon)
        (lt_of_le_of_lt (pageDown_le a) ha) haligned
        ((data.drop (pageDown a - fm.vaddrBegin)).take 4096) (by simp)
      refine ⟨.ok (), m', by simp [hstore], fun _ ↦ ?_⟩
      rw [pageOf_pageDown] at hresolves
      refine hresolves.congr fun o ho ↦ ?_
      have hindex : pageDown a + o - fm.vaddrBegin = pageDown a - fm.vaddrBegin + o := by omega
      rw [mappedByte, hindex, List.getElem?_take_of_lt ho, List.getElem?_drop]

section NotPresent

variable {errorCode : ℕ} (herror : errorCode.testBit 0 = false)

include herror

theorem handlePageFault_dpaging (h : task.dpagingBegin ≤ a ∧ a < task.dpagingEnd) :
    handlePageFault v task m errorCode a =
      some ((m.setupPageMaps (.ofValue a) 1 true).result.map fun _ ↦ (),
        (m.setupPageMaps (.ofValue a) 1 true).machine) := by
  simp [handlePageFault, herror, h]

theorem handlePageFault_mapping (hregions : FaultRegions task) {fm : FileMapping} {fd : OpenFile}
    (hfm : fm ∈ task.fileMaps) (hlow : fm.vaddrBegin ≤ a) (hhigh : a < fm.vaddrEnd)
    (hfd : task.files[fm.fd]? = some (some fd)) :
    handlePageFault v task m errorCode a = preparePageCache v fd fm a m := by
  have hout := hregions.not_dpaging hfm hlow hhigh
  simp only [handlePageFault, herror, Bool.false_and, Bool.false_eq_true, if_false, if_neg hout,
    hregions.find hfm hlow hhigh, hfd, Option.join_some, Option.bind_some]

theorem handlePageFault_outside (h : ¬ (task.dpagingBegin ≤ a ∧ a < task.dpagingEnd))
    (hnone : ∀ fm ∈ task.fileMaps, ¬ (fm.vaddrBegin ≤ a ∧ a < fm.vaddrEnd)) :
    handlePageFault v task m errorCode a = some (.error .kIndexOutOfRange, m) := by
  simp only [handlePageFault, herror, Bool.false_and, Bool.false_eq_true, if_false, if_neg h,
    findFileMapping_none hnone]

end NotPresent

theorem resolvesFaults (hg : Fat.Geometry v.bpb bound) (hregions : FaultRegions task)
    (hbacked : ∀ fm ∈ task.fileMaps, ∃ data, Backed v bound task fm data) :
    ResolvesFaults v bound task := by
  intro m errorCode a hm ha hcanon hpage herror
  by_cases hdpaging : task.dpagingBegin ≤ a ∧ a < task.dpagingEnd
  · refine ⟨_, _, handlePageFault_dpaging herror hdpaging,
      fun hok ↦ ⟨fun _ _ ↦ ?_, fun fm hfm hlow hhigh ↦ ?_⟩, fun hnot ↦ absurd hdpaging hnot⟩
    · cases hsetup : (m.setupPageMaps (.ofValue a) 1 true).result with
      | error err => simp [hsetup, Except.map] at hok
      | ok r =>
          have hnumber := LinearAddress4Level.pageNumber_ofValue a
          have hresolves := resolves_setupPageMaps hm (LinearAddress4Level.valid_ofValue a)
            (by rw [hnumber]; exact hpage) hsetup
          rwa [hnumber] at hresolves
    · exact absurd hdpaging (hregions.not_dpaging hfm hlow hhigh)
  · by_cases hin : ∃ fm ∈ task.fileMaps, fm.vaddrBegin ≤ a ∧ a < fm.vaddrEnd
    · obtain ⟨fm, hfm, hlow, hhigh⟩ := hin
      have hload : ∀ {data}, Backed v bound task fm data → ∃ fd,
          task.files[fm.fd]? = some (some fd) ∧ ∃ result m',
            preparePageCache v fd fm a m = some (result, m') ∧ (result = .ok () →
              Resolves m m' (pageOf a) fun o ↦ mappedByte fm data (pageDown a + o)) := by
        intro data hdata
        obtain ⟨hbegin, hend, -, hlt⟩ := hregions.maps fm hfm
        obtain ⟨fd, hfd, hload⟩ :=
          hdata.load hg (hdata.offset_lt hdata.length_lt hend hlt hlow hhigh)
        exact ⟨fd, hfd, resolves_preparePageCache hm ha hcanon hpage (le_pageDown hbegin hlow) hload⟩
      obtain ⟨data, hdata⟩ := hbacked fm hfm
      obtain ⟨fd, hfd, result, m', hprepare, -⟩ := hload hdata
      refine ⟨result, m', (handlePageFault_mapping herror hregions hfm hlow hhigh hfd).trans hprepare,
        fun hok ↦ ⟨fun hlow' hhigh' ↦ absurd ⟨hlow', hhigh'⟩ hdpaging, ?_⟩,
        fun _ hnot ↦ absurd ⟨hlow, hhigh⟩ (hnot fm hfm)⟩
      -- the mapping that contains the address is the one that was found
      intro fm' hfm' hlow' hhigh' data' hdata'
      obtain rfl := Option.some.inj
        ((hregions.find hfm hlow hhigh).symm.trans (hregions.find hfm' hlow' hhigh'))
      obtain ⟨fd', hfd', result', m'', hprepare', hresolves⟩ := hload hdata'
      obtain rfl : fd = fd' := by simpa using hfd.symm.trans hfd'
      obtain ⟨rfl, rfl⟩ : result = result' ∧ m' = m'' := by simpa using hprepare.symm.trans hprepare'
      exact hresolves hok
    · have hnone : ∀ fm ∈ task.fileMaps, ¬ (fm.vaddrBegin ≤ a ∧ a < fm.vaddrEnd) :=
        fun fm hfm hhere ↦ hin ⟨fm, hfm, hhere⟩
      exact ⟨.error .kIndexOutOfRange, m, handlePageFault_outside herror hdpaging hnone,
        fun hok ↦ (by cases hok), fun _ _ ↦ ⟨rfl, rfl⟩⟩

end Faults

/-! ## Reads -/

/-- Each page of a mapping is not mapped yet or has the bytes of the file. -/
structure Seen (v : Fat.Volume) (bound : ℕ) (task : FaultTask) (m : Machine) : Prop where
  space : AddressSpace m
  pages : ∀ fm ∈ task.fileMaps, ∀ a, fm.vaddrBegin ≤ a → a < fm.vaddrEnd → Canonical a →
    m.page (pageOf a) = none ∨ ∃ e, m.page (pageOf a) = some (0, e) ∧
      m.memoryManager.getBit e.pointer = true ∧ NoTable m e.pointer ∧
        ∀ data, Backed v bound task fm data → ∀ o < 4096,
          m.byteAt (e.pointer * 4096 + o) = mappedByte fm data (pageDown a + o)

section Reads

variable {v : Fat.Volume} {bound : ℕ} {task : FaultTask} {m m' : Machine} {a : ℕ}

theorem pageOf_lt (a : ℕ) : pageOf a < 512 ^ 4 := by
  simp only [pageOf]
  omega

theorem Seen.of_resolves {content : ℕ → UInt8} (h : Seen v bound task m)
    (hres : Resolves m m' (pageOf a) content)
    (hcontent : ∀ fm ∈ task.fileMaps, ∀ a', fm.vaddrBegin ≤ a' → a' < fm.vaddrEnd → Canonical a' →
      pageOf a' = pageOf a → ∀ data, Backed v bound task fm data → ∀ o < 4096,
        content o = mappedByte fm data (pageDown a' + o)) : Seen v bound task m' := by
  refine ⟨hres.space, fun fm hfm a' hlow hhigh hcanon ↦ ?_⟩
  by_cases hhere : pageOf a' = pageOf a
  · obtain ⟨e, he, -, -, -, hbit, hno, hbytes⟩ := hres.page
    refine .inr ⟨e, hhere ▸ he, hbit, hno, fun data hdata o ho ↦ ?_⟩
    rw [hbytes o ho, hcontent fm hfm a' hlow hhigh hcanon hhere data hdata o ho]
  · rw [hres.others _ (pageOf_lt a') hhere]
    rcases h.pages fm hfm a' hlow hhigh hcanon with hnone | ⟨e, he, hbit, hno, hbytes⟩
    · exact .inl hnone
    · obtain ⟨hbit', hno', hsame⟩ := hres.kept e.pointer hbit hno
      refine .inr ⟨e, he, hbit', hno', fun data hdata o ho ↦ ?_⟩
      have hframe : (e.pointer * 4096 + o) / 4096 = e.pointer := by omega
      rw [← hbytes data hdata o ho, byteAt, byteAt, hframe, hsame]

/-- A read of a mapped page. -/
theorem byteAt_of_translate {phys : ℕ} {e : PageMapEntry} {content : ℕ → UInt8}
    (hcanon : Canonical a) (he : m.page (pageOf a) = some (0, e))
    (hbytes : ∀ o < 4096, m.byteAt (e.pointer * 4096 + o) = content o)
    (hphys : m.translate a = some phys) : m.byteAt phys = content (a % 4096) := by
  obtain rfl := Option.some.inj (hphys.symm.trans (translate_page hcanon he))
  exact hbytes _ (Nat.mod_lt _ (by decide))

theorem readByte_spec (hregions : FaultRegions task) (hfaults : ResolvesFaults v bound task)
    (hbacked : ∀ fm ∈ task.fileMaps, ∃ data, Backed v bound task fm data)
    (h : Seen v bound task m) (ha : a < 2 ^ 64) {b : UInt8}
    (hread : readByte v task m a = some (b, m')) :
    Seen v bound task m' ∧ ∀ fm ∈ task.fileMaps, fm.vaddrBegin ≤ a → a < fm.vaddrEnd →
      ∀ data, Backed v bound task fm data → b = mappedByte fm data a := by
  rw [readByte] at hread
  split_ifs at hread with hcanon
  split at hread
  · next phys hphys =>
    obtain ⟨rfl, rfl⟩ : m.byteAt phys = b ∧ m = m' := by simpa using hread
    refine ⟨h, fun fm hfm hlow hhigh data hdata ↦ ?_⟩
    rcases h.pages fm hfm a hlow hhigh hcanon with hnone | ⟨e, he, -, -, hbytes⟩
    · rw [translate_eq hcanon, hnone] at hphys
      cases hphys
    · rw [byteAt_of_translate hcanon he (hbytes data hdata) hphys, pageDown_add]
  · next hphys =>
    have hnone : m.page (pageOf a) = none := by
      rw [translate_eq hcanon] at hphys
      exact Option.map_eq_none_iff.mp hphys
    obtain ⟨result, m₁, hfault, hok, hout⟩ := hfaults m 4 a h.space ha hcanon hnone (by decide)
    rw [hfault] at hread
    cases result with
    | error err => cases hread
    | ok u =>
        obtain ⟨phys, hphys', hbyte⟩ := Option.map_eq_some_iff.mp hread
        obtain ⟨rfl, rfl⟩ := Prod.mk.inj hbyte
        obtain ⟨hdpaging, hmapping⟩ := hok rfl
        have hkeep : Seen v bound task m₁ := by
          by_cases hin : task.dpagingBegin ≤ a ∧ a < task.dpagingEnd
          · refine h.of_resolves (hdpaging hin.1 hin.2) fun fm hfm a' hlow hhigh hcanon' hsame ↦ ?_
            have hlt := lt_trans hhigh (hregions.maps fm hfm).2.2.2
            obtain ⟨hlow', hhigh'⟩ := hregions.same_page hfm hlow hhigh
              (pageDown_eq hlt ha hcanon' hcanon hsame)
            exact absurd hin (hregions.not_dpaging hfm hlow' hhigh')
          · by_cases hmap : ∃ fm ∈ task.fileMaps, fm.vaddrBegin ≤ a ∧ a < fm.vaddrEnd
            · obtain ⟨fm₀, hfm₀, hlow₀, hhigh₀⟩ := hmap
              obtain ⟨data₀, hdata₀⟩ := hbacked fm₀ hfm₀
              have hres := hmapping fm₀ hfm₀ hlow₀ hhigh₀ data₀ hdata₀
              refine h.of_resolves hres fun fm hfm a' hlow hhigh hcanon' hsame data hdata ↦ ?_
              have hdown := pageDown_eq (lt_trans hhigh (hregions.maps fm hfm).2.2.2) ha hcanon'
                hcanon hsame
              obtain ⟨hlow', hhigh'⟩ := hregions.same_page hfm hlow hhigh hdown
              rw [hdown]
              exact hres.content_eq (hmapping fm hfm hlow' hhigh' data hdata)
            · have hnot : ∀ fm ∈ task.fileMaps, ¬ (fm.vaddrBegin ≤ a ∧ a < fm.vaddrEnd) :=
                fun fm hfm hhere ↦ hmap ⟨fm, hfm, hhere⟩
              cases (hout hin hnot).1
        refine ⟨hkeep, fun fm hfm hlow hhigh data hdata ↦ ?_⟩
        obtain ⟨e, he, -, -, -, -, -, hbytes⟩ := (hmapping fm hfm hlow hhigh data hdata).page
        rw [byteAt_of_translate hcanon he hbytes hphys', pageDown_add]

theorem readBytesAt_spec (hregions : FaultRegions task) (hfaults : ResolvesFaults v bound task)
    (hbacked : ∀ fm ∈ task.fileMaps, ∃ data, Backed v bound task fm data) {as : List ℕ} :
    ∀ {m : Machine} {bytes : List UInt8}, Seen v bound task m → (∀ a ∈ as, a < 2 ^ 64) →
      readBytesAt v task m as = some (bytes, m') → ∀ fm ∈ task.fileMaps, ∀ data,
        Backed v bound task fm data → ∀ (i : ℕ) (a : ℕ), as[i]? = some a → fm.vaddrBegin ≤ a →
          a < fm.vaddrEnd → bytes[i]? = some (mappedByte fm data a) := by
  induction as with
  | nil =>
      intro m bytes _ _ _ fm _ data _ i a hi
      simp at hi
  | cons a as ih =>
      intro m bytes hseen has hread fm hfm data hdata i a' hi hlow hhigh
      rw [List.forall_mem_cons] at has
      obtain ⟨⟨b, m₁⟩, hfirst, hrest⟩ := Option.bind_eq_some_iff.mp hread
      obtain ⟨⟨rest, m₂⟩, hread', hbytes⟩ := Option.map_eq_some_iff.mp hrest
      obtain ⟨rfl, rfl⟩ := Prod.mk.inj hbytes
      obtain ⟨hseen₁, hbyte⟩ := readByte_spec hregions hfaults hbacked hseen has.1 hfirst
      cases i with
      | zero =>
          obtain rfl : a = a' := by simpa using hi
          simp [hbyte fm hfm hlow hhigh data hdata]
      | succ i =>
          rw [List.getElem?_cons_succ] at hi ⊢
          exact ih hseen₁ has.2 hread' fm hfm data hdata i a' hi hlow hhigh

theorem Backed.lt_vaddrEnd {fm : FileMapping} {data : List UInt8} (h : Backed v bound task fm data)
    (hle : fm.vaddrBegin ≤ fm.vaddrEnd) {k : ℕ} (hk : k < data.length) : fm.vaddrBegin + k < fm.vaddrEnd := by
  have hbegin := h.begin
  have hsmall := h.length_lt
  simp only [pageDown, uint64Sub] at hbegin
  omega

theorem readsFiles (hregions : FaultRegions task) (hfaults : ResolvesFaults v bound task)
    (hbacked : ∀ fm ∈ task.fileMaps, ∃ data, Backed v bound task fm data) :
    ReadsFiles v bound task := by
  intro m hm hunmapped as bytes m' has hread fm hfm data hdata i k hk hi
  have hseen : Seen v bound task m :=
    ⟨hm, fun fm hfm a hlow hhigh hcanon ↦ .inl (hunmapped fm hfm a hlow hhigh hcanon)⟩
  obtain ⟨-, -, hle, -⟩ := hregions.maps fm hfm
  rw [readBytesAt_spec hregions hfaults hbacked hseen has hread fm hfm data hdata i _ hi
    (Nat.le_add_right _ k) (hdata.lt_vaddrEnd hle hk), mappedByte, Nat.add_sub_cancel_left,
    List.getElem?_eq_getElem hk, Option.getD_some]

/-- `HandlePageFault` resolves the faults of pages that are not present, and so
every read within a file that is mapped returns its byte. -/
theorem handlePageFault_resolves (hg : Fat.Geometry v.bpb bound) (hregions : FaultRegions task)
    (hbacked : ∀ fm ∈ task.fileMaps, ∃ data, Backed v bound task fm data) :
    ResolvesFaults v bound task ∧ ReadsFiles v bound task := by
  have hfaults := resolvesFaults hg hregions hbacked
  exact ⟨hfaults, readsFiles hregions hfaults hbacked⟩

end Reads

/-- The file `abc` is mapped below the stack. -/
def abcTask : FaultTask where
  dpagingBegin := 0xffff800000010000
  dpagingEnd := 0xffff800000012000
  fileMaps := [⟨3, 0xffffffffffffd000, 0xffffffffffffe000⟩]
  files := [some .stream, some .stream, some .stream, some (.fat (.fresh Fat.sampleEntry))]

theorem abcTask_backed :
    Backed Fat.abcVolume 16 abcTask ⟨3, 0xffffffffffffd000, 0xffffffffffffe000⟩ [97, 98, 99] where
  file := by
    refine ⟨.fat (.fresh Fat.sampleEntry), rfl, by decide, by decide +kernel, [3],
      Fat.abcVolume_owns, ?_⟩
    have hcontent : Fat.content Fat.abcVolume Fat.sampleEntry [3] = [97, 98, 99] := by
      decide +kernel
    exact hcontent ▸ Fat.holds_chainBytes Fat.abcVolume_geometry.bytesPerCluster_pos (by decide +kernel)
  begin := by decide

theorem handlePageFault_resolves_abcTask :
    ResolvesFaults Fat.abcVolume 16 abcTask ∧ ReadsFiles Fat.abcVolume 16 abcTask := by
  refine handlePageFault_resolves Fat.abcVolume_geometry ⟨by decide, ?_, ?_⟩ ?_
  · intro fm hfm
    obtain rfl := List.mem_singleton.mp hfm
    decide
  · refine List.pairwise_pair.mpr (apart_of_le ?_)
    decide
  · intro fm hfm
    obtain rfl := List.mem_singleton.mp hfm
    exact ⟨_, abcTask_backed⟩

end App
end MinOS
