import MinOS.Boot.LoadKernel

/-!
# Where the kernel is loaded

As long as no segment is copied over the buffer of the file, the loop of `CopyLoadSegments`
sees the headers and the bytes that the file has.
-/

namespace MinOS
namespace Boot

open App ByteMemory

/-! ## The buffer of the file -/

/-- Nothing was stored in the buffer. -/
def Intact (mem : ℕ → UInt8) (ehdr size : ℕ) (mem' : ℕ → UInt8) : Prop :=
  ∀ x, ehdr ≤ x → x < ehdr + size → mem' x = mem x

/-- The store touches no byte of the buffer. -/
def Spares (ehdr size : ℕ) (store : ℕ × ℕ) : Prop :=
  ∀ x, store.1 ≤ x → x < store.1 + store.2 → ¬ (ehdr ≤ x ∧ x < ehdr + size)

variable {mem mem' : ℕ → UInt8} {ehdr size : ℕ}

theorem Intact.writeBytes (h : Intact mem ehdr size mem') {addr : ℕ} {bytes : List UInt8}
    (hspares : Spares ehdr size (addr, bytes.length)) :
    Intact mem ehdr size (writeBytes mem' addr bytes) := by
  intro x hx hlt
  rw [writeBytes_of_notMem, h x hx hlt]
  rintro ⟨hle, hlt'⟩
  exact hspares x hle hlt' ⟨hx, hlt⟩

theorem imageAt_eq (hbuffer : ehdr + size ≤ 2 ^ 64) {i : ℕ} (hi : i < size) :
    imageAt mem ehdr i = mem (ehdr + i) := by
  rw [imageAt, uint64Add_of_lt (by omega)]

theorem Intact.imageAt (h : Intact mem ehdr size mem') (hbuffer : ehdr + size ≤ 2 ^ 64) {i : ℕ}
    (hi : i < size) : imageAt mem' ehdr i = imageAt mem ehdr i := by
  rw [imageAt_eq hbuffer hi, imageAt_eq hbuffer hi]
  exact h _ (by omega) (by omega)

theorem Intact.readLE (h : Intact mem ehdr size mem') (hbuffer : ehdr + size ≤ 2 ^ 64)
    {addr width : ℕ} (hin : addr + width ≤ size) :
    readLE (Boot.imageAt mem' ehdr) addr width = readLE (Boot.imageAt mem ehdr) addr width :=
  readLE_congr fun _ _ hlt ↦ h.imageAt hbuffer (by omega)

theorem Intact.readBytes (h : Intact mem ehdr size mem') (hbuffer : ehdr + size ≤ 2 ^ 64)
    {offset len : ℕ} (hin : offset + len ≤ size) :
    readBytes mem' (uint64Add ehdr offset) len = readBytes (Boot.imageAt mem ehdr) offset len := by
  apply List.map_congr_left
  intro i hi
  have hlt : i < len := List.mem_range.mp hi
  rw [imageAt_eq hbuffer (by omega), uint64Add, ← Nat.add_assoc]
  rcases Nat.lt_or_ge (ehdr + offset) (2 ^ 64) with hfits | hwraps
  · rw [Nat.mod_eq_of_lt hfits]
    exact h _ (by omega) (by omega)
  · omega

theorem Intact.ePhnum (h : Intact mem ehdr size mem') (himage : KernelImage mem ehdr size) :
    ePhnum (Boot.imageAt mem' ehdr) = ePhnum (Boot.imageAt mem ehdr) := by
  have hheader := himage.header
  exact h.readLE himage.buffer (by omega)

theorem Intact.phdr (h : Intact mem ehdr size mem') (himage : KernelImage mem ehdr size) {i : ℕ}
    (hi : i < App.ePhnum (Boot.imageAt mem ehdr)) :
    phdr (Boot.imageAt mem' ehdr) i = phdr (Boot.imageAt mem ehdr) i := by
  have hheader := himage.header
  have htable := himage.table
  have hphoff : ePhoff (Boot.imageAt mem' ehdr) = ePhoff (Boot.imageAt mem ehdr) :=
    h.readLE himage.buffer (by omega)
  simp only [App.phdr, hphoff, Phdr.mk.injEq]
  refine ⟨?_, ?_, ?_, ?_, ?_⟩ <;> exact h.readLE himage.buffer (by omega)

/-! ## One turn of the loop -/

/-- Put a segment where it belongs. -/
def place (image mem : ℕ → UInt8) (ph : Phdr) : ℕ → UInt8 :=
  writeBytes mem ph.pVaddr (content image ph)

theorem length_content (image : ℕ → UInt8) {ph : Phdr} (hfilesz : ph.pFilesz ≤ ph.pMemsz) :
    (content image ph).length = ph.pMemsz := by
  rw [content, List.length_append, length_readBytes, List.length_replicate]
  omega

theorem stores_eq {ph : Phdr} (hfilesz : ph.pFilesz ≤ ph.pMemsz)
    (hmemsz : ph.pVaddr + ph.pMemsz < 2 ^ 64) : ph.stores =
      [(ph.pVaddr, ph.pFilesz), (ph.pVaddr + ph.pFilesz, ph.pMemsz - ph.pFilesz)] := by
  rw [Phdr.stores, uint64Add_of_lt (by omega), uint64Sub_of_le (by omega) hfilesz]

variable {c : Copied} {i : ℕ} {ph : Phdr}

theorem copyFile_eq (himage : KernelImage mem ehdr size) (hintact : Intact mem ehdr size c.mem)
    (hphdr : phdr (imageAt c.mem ehdr) i = ph) (hload : ph ∈ loads (headers mem ehdr)) :
    copyFile ehdr i c =
      ⟨writeBytes c.mem ph.pVaddr (readBytes (imageAt mem ehdr) ph.pOffset ph.pFilesz),
        c.stores ++ [(ph.pVaddr, ph.pFilesz)]⟩ := by
  rw [copyFile, hphdr, hintact.readBytes himage.buffer (himage.contents ph hload)]

theorem clearRest_eq (himage : KernelImage mem ehdr size) (hphdr : phdr (imageAt c.mem ehdr) i = ph)
    (hload : ph ∈ loads (headers mem ehdr)) :
    clearRest ehdr i c =
      ⟨writeBytes c.mem (ph.pVaddr + ph.pFilesz) (List.replicate (ph.pMemsz - ph.pFilesz) 0),
        c.stores ++ [(ph.pVaddr + ph.pFilesz, ph.pMemsz - ph.pFilesz)]⟩ := by
  have hfilesz := himage.filesz ph hload
  have hmemsz := himage.memsz ph hload
  rw [clearRest, hphdr, uint64Add_of_lt (by omega), uint64Sub_of_le (by omega) hfilesz]

/-- A turn whose stores spare the buffer puts its segment in place. -/
theorem copySegment_eq (himage : KernelImage mem ehdr size) (hintact : Intact mem ehdr size c.mem)
    (hi : i < ePhnum (imageAt mem ehdr)) (hph : phdr (imageAt mem ehdr) i = ph)
    (hload : ph ∈ loads (headers mem ehdr))
    (hspares : ∀ store ∈ ph.stores, store ∈ (copySegment ehdr i c).stores → Spares ehdr size store) :
    copySegment ehdr i c = ⟨place (imageAt mem ehdr) c.mem ph, c.stores ++ ph.stores⟩ ∧
      Intact mem ehdr size (copySegment ehdr i c).mem := by
  have hfilesz := himage.filesz ph hload
  have hmemsz := himage.memsz ph hload
  have htype : ph.pType = ptLoad := by simpa using (List.mem_filter.mp hload).2
  have hphdr : phdr (imageAt c.mem ehdr) i = ph := (hintact.phdr himage hi).trans hph
  have hturn : copySegment ehdr i c = clearRest ehdr i (copyFile ehdr i c) := by
    rw [copySegment, hphdr, if_neg (not_not.mpr htype)]
  rw [hturn] at hspares ⊢
  rw [stores_eq hfilesz hmemsz] at hspares ⊢
  have hfile := copyFile_eq himage hintact hphdr hload
  -- the first store leaves the header as it is, so that the second one has the same bounds
  have hfirst : Intact mem ehdr size (copyFile ehdr i c).mem := by
    rw [hfile]
    apply hintact.writeBytes
    rw [length_readBytes]
    refine hspares _ List.mem_cons_self (List.mem_append_left _ ?_)
    rw [hfile]
    exact List.mem_append_right _ List.mem_cons_self
  have hrest := clearRest_eq himage ((hfirst.phdr himage hi).trans hph) hload
  have hsecond : Intact mem ehdr size (clearRest ehdr i (copyFile ehdr i c)).mem := by
    have hstore := hspares (ph.pVaddr + ph.pFilesz, ph.pMemsz - ph.pFilesz) (by simp)
    rw [hrest] at hstore ⊢
    apply hfirst.writeBytes
    rw [List.length_replicate]
    exact hstore (List.mem_append_right _ List.mem_cons_self)
  have hplace : (clearRest ehdr i (copyFile ehdr i c)).mem = place (imageAt mem ehdr) c.mem ph := by
    have happend := writeBytes_append c.mem ph.pVaddr
      (readBytes (imageAt mem ehdr) ph.pOffset ph.pFilesz)
      (List.replicate (ph.pMemsz - ph.pFilesz) 0)
    rw [length_readBytes] at happend
    rw [hrest, hfile]
    exact happend
  refine ⟨?_, hsecond⟩
  rw [← hplace, hrest, hfile, List.append_assoc]
  rfl

/-! ## The loop -/

/-- The headers from the `i`-th on. -/
def headersFrom (image : ℕ → UInt8) (i : ℕ) : List Phdr :=
  (List.range' i (ePhnum image - i)).map (phdr image)

theorem headersFrom_of_lt {image : ℕ → UInt8} (hi : i < ePhnum image) :
    headersFrom image i = phdr image i :: headersFrom image (i + 1) := by
  have hlen : ePhnum image - i = (ePhnum image - (i + 1)) + 1 := by omega
  rw [headersFrom, hlen, List.range'_succ, List.map_cons, headersFrom]

theorem headersFrom_zero (image : ℕ → UInt8) : headersFrom image 0 = programHeaders image := by
  rw [headersFrom, programHeaders, Nat.sub_zero, List.range_eq_range']

theorem stores_copySegment (ehdr i : ℕ) (c : Copied) : c.stores <+: (copySegment ehdr i c).stores := by
  rw [copySegment]
  split_ifs
  · exact List.prefix_rfl
  · exact (List.prefix_append _ _).trans (List.prefix_append _ _)

theorem stores_copyLoop (ehdr fuel i : ℕ) (c : Copied) :
    c.stores <+: (copyLoop ehdr fuel i c).stores := by
  induction fuel generalizing i c with
  | zero => exact List.prefix_rfl
  | succ fuel ih =>
      rw [copyLoop]
      split_ifs
      · exact (stores_copySegment ehdr i c).trans (ih _ _)
      · exact List.prefix_rfl

theorem loads_cons (ph : Phdr) (phs : List Phdr) :
    loads (ph :: phs) = if ph.pType = ptLoad then ph :: loads phs else loads phs := by
  simp [loads, List.filter_cons]

theorem headersFrom_of_le {image : ℕ → UInt8} (hi : ePhnum image ≤ i) : headersFrom image i = [] := by
  rw [headersFrom, Nat.sub_eq_zero_of_le hi]
  rfl

theorem phdr_mem_loads (hi : i < ePhnum (imageAt mem ehdr))
    (htype : (phdr (imageAt mem ehdr) i).pType = ptLoad) :
    phdr (imageAt mem ehdr) i ∈ loads (headers mem ehdr) :=
  List.mem_filter.mpr
    ⟨List.mem_map.mpr ⟨i, List.mem_range.mpr hi, rfl⟩, decide_eq_true htype⟩

/-- If every store that the loop makes for a segment spares the buffer, the loop puts every
segment in place. -/
theorem copyLoop_eq (himage : KernelImage mem ehdr size) (fuel : ℕ)
    (hfuel : ePhnum (imageAt mem ehdr) < i + fuel) (hintact : Intact mem ehdr size c.mem)
    (hspares : ∀ ph ∈ loads (headersFrom (imageAt mem ehdr) i), ∀ store ∈ ph.stores,
      store ∈ (copyLoop ehdr fuel i c).stores → Spares ehdr size store) :
    copyLoop ehdr fuel i c =
      ⟨(loads (headersFrom (imageAt mem ehdr) i)).foldl (place (imageAt mem ehdr)) c.mem,
        c.stores ++ (loads (headersFrom (imageAt mem ehdr) i)).flatMap Phdr.stores⟩ := by
  induction fuel generalizing i c with
  | zero =>
      rw [headersFrom_of_le (by omega)]
      exact congrArg (Copied.mk c.mem) (List.append_nil _).symm
  | succ fuel ih =>
      have hnext : ePhnum (imageAt mem ehdr) < i + 1 + fuel := by omega
      rw [copyLoop, hintact.ePhnum himage] at hspares ⊢
      by_cases hi : i < ePhnum (imageAt mem ehdr)
      · rw [if_pos hi] at hspares ⊢
        rw [headersFrom_of_lt hi, loads_cons] at hspares ⊢
        by_cases htype : (phdr (imageAt mem ehdr) i).pType = ptLoad
        · rw [if_pos htype] at hspares ⊢
          rw [List.forall_mem_cons] at hspares
          have hmono := stores_copyLoop ehdr fuel (i + 1) (copySegment ehdr i c)
          have hfirst : ∀ store ∈ (phdr (imageAt mem ehdr) i).stores,
              store ∈ (copySegment ehdr i c).stores → Spares ehdr size store := by
            intro store hstore hmade
            exact hspares.1 store hstore (hmono.subset hmade)
          obtain ⟨hturn, hintact'⟩ :=
            copySegment_eq himage hintact hi rfl (phdr_mem_loads hi htype) hfirst
          rw [ih (i := i + 1) (c := copySegment ehdr i c) hnext hintact' hspares.2, hturn,
            List.flatMap_cons, List.foldl_cons, List.append_assoc]
        · rw [if_neg htype] at hspares ⊢
          have hturn : copySegment ehdr i c = c := by
            rw [copySegment, hintact.phdr himage hi, if_pos htype]
          rw [hturn] at hspares ⊢
          exact ih (i := i + 1) (c := c) hnext hintact hspares
      · rw [if_neg hi, headersFrom_of_le (Nat.le_of_not_lt hi)]
        exact congrArg (Copied.mk c.mem) (List.append_nil _).symm

theorem copyLoadSegments_eq (himage : KernelImage mem ehdr size)
    (hspares : ∀ ph ∈ loads (headers mem ehdr), ∀ store ∈ ph.stores,
      store ∈ (copyLoadSegments ehdr mem).stores → Spares ehdr size store) :
    copyLoadSegments ehdr mem =
      ⟨(loads (headers mem ehdr)).foldl (place (imageAt mem ehdr)) mem,
        (loads (headers mem ehdr)).flatMap Phdr.stores⟩ := by
  have hcount : ePhnum (imageAt mem ehdr) < 2 ^ 16 := readLE_lt _ 56 2
  rw [headers, ← headersFrom_zero] at hspares ⊢
  exact copyLoop_eq himage (2 ^ 16) (by omega) (fun _ _ _ ↦ rfl) hspares

/-! ## What the memory holds -/

/-- Segments apart from a segment leave its bytes alone. -/
theorem foldl_place_of_apart {image : ℕ → UInt8} {segs : List Phdr} {x : ℕ}
    (hfilesz : ∀ seg ∈ segs, seg.pFilesz ≤ seg.pMemsz)
    (hapart : ∀ seg ∈ segs, ¬ (seg.pVaddr ≤ x ∧ x < seg.pVaddr + seg.pMemsz)) :
    segs.foldl (place image) mem x = mem x := by
  induction segs generalizing mem with
  | nil => rfl
  | cons seg segs ih =>
      rw [List.forall_mem_cons] at hfilesz hapart
      rw [List.foldl_cons, ih hfilesz.2 hapart.2, place, writeBytes_of_notMem]
      rw [length_content image hfilesz.1]
      exact hapart.1

theorem readBytes_foldl_place {image : ℕ → UInt8} {segs : List Phdr}
    (hfilesz : ∀ seg ∈ segs, seg.pFilesz ≤ seg.pMemsz) (hapart : segs.Pairwise Apart)
    (hph : ph ∈ segs) :
    readBytes (segs.foldl (place image) mem) ph.pVaddr ph.pMemsz = content image ph := by
  induction segs generalizing mem with
  | nil => cases hph
  | cons seg segs ih =>
      rw [List.forall_mem_cons] at hfilesz
      rw [List.pairwise_cons] at hapart
      rcases List.mem_cons.mp hph with rfl | hph
      · have hlater : readBytes (segs.foldl (place image) (place image mem ph)) ph.pVaddr ph.pMemsz =
            readBytes (place image mem ph) ph.pVaddr ph.pMemsz := by
          apply readBytes_congr
          intro x hx hlt
          exact foldl_place_of_apart hfilesz.2 fun seg hseg ↦ hapart.1 seg hseg x hx hlt
        have hwritten := readBytes_writeBytes mem ph.pVaddr (content image ph)
        rw [length_content image hfilesz.1] at hwritten
        rw [List.foldl_cons, hlater]
        exact hwritten
      · exact ih hfilesz.2 hapart.2 hph

/-! ## The pages -/

variable {allocatePages : ℕ → ℕ → Bool}

theorem mem_store_iff {x : ℕ} (hfilesz : ph.pFilesz ≤ ph.pMemsz)
    (hmemsz : ph.pVaddr + ph.pMemsz < 2 ^ 64) :
    (∃ store ∈ ph.stores, store.1 ≤ x ∧ x < store.1 + store.2) ↔
      ph.pVaddr ≤ x ∧ x < ph.pVaddr + ph.pMemsz := by
  rw [stores_eq hfilesz hmemsz]
  simp only [List.mem_cons, List.not_mem_nil, or_false, exists_eq_or_imp, exists_eq_left]
  omega

theorem store_inPages {range : ℕ × ℕ} (hfilesz : ph.pFilesz ≤ ph.pMemsz)
    (hmemsz : ph.pVaddr + ph.pMemsz < 2 ^ 64)
    (hpages : ∀ x, ph.pVaddr ≤ x → x < ph.pVaddr + ph.pMemsz → InPages range x)
    {store : ℕ × ℕ} (hstore : store ∈ ph.stores) {x : ℕ} (hx : store.1 ≤ x)
    (hx' : x < store.1 + store.2) : InPages range x := by
  obtain ⟨hlow, hhigh⟩ := (mem_store_iff hfilesz hmemsz).mp ⟨store, hstore, hx, hx'⟩
  exact hpages x hlow hhigh

theorem loadsInPages_of_inPages (himage : KernelImage mem ehdr size)
    (hfree : GrantsFree allocatePages ehdr size)
    (hpages : allocatePages (calcLoadAddressRange (headers mem ehdr)).1
        (numPages (calcLoadAddressRange (headers mem ehdr))) = true →
      ∀ ph ∈ loads (headers mem ehdr), ∀ x, ph.pVaddr ≤ x → x < ph.pVaddr + ph.pMemsz →
        InPages (calcLoadAddressRange (headers mem ehdr)) x) :
    LoadsInPages allocatePages ehdr mem := by
  intro c hc
  rw [readKernel, Option.mem_def] at hc
  split_ifs at hc with hgranted
  obtain rfl := Option.some.inj hc
  have hstores : ∀ ph ∈ loads (headers mem ehdr), ∀ store ∈ ph.stores, ∀ x, store.1 ≤ x →
      x < store.1 + store.2 → InPages (calcLoadAddressRange (headers mem ehdr)) x :=
    fun ph hph store hstore x hx hx' ↦
      store_inPages (himage.filesz ph hph) (himage.memsz ph hph) (hpages hgranted ph hph) hstore hx hx'
  rw [copyLoadSegments_eq himage]
  · constructor
    · intro store hstore x hx hx'
      obtain ⟨ph, hph, hmem⟩ := List.mem_flatMap.mp hstore
      exact hstores ph hph store hmem x hx hx'
    · intro hapart ph hph
      exact readBytes_foldl_place himage.filesz hapart hph
  · intro ph hph store hstore _ x hx hx'
    obtain ⟨hlow, hhigh⟩ := hstores ph hph store hstore x hx hx'
    exact hfree _ _ x hgranted hlow hhigh

/-- With no page granted for segments that span the address space, every byte is stored
outside. -/
theorem not_loadsInPages_of_spansAll (himage : KernelImage mem ehdr size)
    (hspan : SpansAll (loads (headers mem ehdr))) (hph : ph ∈ loads (headers mem ehdr))
    (hpos : 0 < ph.pMemsz) (hgrant : allocatePages 0 0 = true) :
    ¬ LoadsInPages allocatePages ehdr mem := by
  intro hloads
  obtain ⟨hfirst, hnone⟩ := himage.numPages_of_spansAll hspan
  have hnoPage : ∀ x, ¬ InPages (calcLoadAddressRange (headers mem ehdr)) x := by
    rintro x ⟨-, hx⟩
    rw [hfirst, hnone] at hx
    exact Nat.not_lt_zero x hx
  have hread : readKernel allocatePages ehdr mem = some (copyLoadSegments ehdr mem) := by
    rw [readKernel, hfirst, hnone, if_pos hgrant]
  obtain ⟨hin, -⟩ := hloads _ hread
  have hcopied := copyLoadSegments_eq himage fun _ _ store _ hmade x hx hx' ↦
    absurd (hin store hmade x hx hx') (hnoPage x)
  obtain ⟨store, hstore, hx, hx'⟩ := (mem_store_iff (himage.filesz ph hph)
    (himage.memsz ph hph)).mpr ⟨le_refl ph.pVaddr, Nat.lt_add_of_pos_right hpos⟩
  refine hnoPage ph.pVaddr (hin store ?_ _ hx hx')
  rw [hcopied]
  exact List.mem_flatMap.mpr ⟨ph, hph, hstore⟩

/-- The kernel is loaded as it should unless its segments span the address space and zero
pages are granted for them. -/
theorem loadsInPages_iff (himage : KernelImage mem ehdr size)
    (hfree : GrantsFree allocatePages ehdr size) :
    LoadsInPages allocatePages ehdr mem ↔
      ¬ (SpansAll (loads (headers mem ehdr)) ∧ (∃ ph ∈ loads (headers mem ehdr), 0 < ph.pMemsz) ∧
        allocatePages 0 0 = true) := by
  constructor
  · rintro hloads ⟨hspan, ⟨ph, hph, hpos⟩, hgrant⟩
    exact not_loadsInPages_of_spansAll himage hspan hph hpos hgrant hloads
  · intro hspan
    refine loadsInPages_of_inPages himage hfree fun hgranted ph hph x hx hx' ↦ ?_
    refine himage.inPages (fun hall ↦ hspan ⟨hall, ⟨ph, hph, by omega⟩, ?_⟩) hph hx hx'
    obtain ⟨hfirst, hnone⟩ := himage.numPages_of_spansAll hall
    rwa [hfirst, hnone] at hgranted

/-- A file in a buffer at the second megabyte. -/
def buffered (file : ℕ → UInt8) : ℕ → UInt8 :=
  fun x ↦ if 0x200000 ≤ x then file (x - 0x200000) else 0

/-- The megabyte before the buffer is free. -/
def allocateFree (first pages : ℕ) : Bool :=
  decide (pages = 0 ∨ 0x100000 ≤ first ∧ first + pages * 0x1000 ≤ 0x200000)

theorem grantsFree_allocateFree (size : ℕ) : GrantsFree allocateFree 0x200000 size := by
  rintro first pages x hgranted hx hx' ⟨hlow, -⟩
  rw [allocateFree, decide_eq_true_eq] at hgranted
  omega

theorem loads_twoSegments :
    loads (headers (buffered (elfFile [(0x101000, 4, 8), (0x103f00, 8, 0x200)])) 0x200000) =
      [⟨1, 0, 0x101000, 4, 8⟩, ⟨1, 0, 0x103f00, 8, 0x200⟩] := by
  decide +kernel

theorem loadsInPages_twoSegments :
    LoadsInPages allocateFree 0x200000
      (buffered (elfFile [(0x101000, 4, 8), (0x103f00, 8, 0x200)])) := by
  have himage : KernelImage (buffered (elfFile [(0x101000, 4, 8), (0x103f00, 8, 0x200)]))
      0x200000 176 := by
    refine ⟨by decide, by decide, by decide +kernel, ?_, ?_, ?_, ?_⟩
    all_goals rw [loads_twoSegments]
    all_goals decide
  refine (loadsInPages_iff himage (grantsFree_allocateFree 176)).mpr ?_
  rw [loads_twoSegments]
  rintro ⟨⟨ph, hph, hzero⟩, -⟩
  revert ph
  decide

theorem loads_bothEnds :
    loads (headers (buffered (elfFile [(0, 0, 0x1000), (0xfffffffffffff000, 0, 0xff0)])) 0x200000) =
      [⟨1, 0, 0, 0, 0x1000⟩, ⟨1, 0, 0xfffffffffffff000, 0, 0xff0⟩] := by
  decide +kernel

/-- Two short segments at the two ends of the address space: zero pages are asked for. -/
theorem not_loadsInPages_bothEnds :
    KernelImage (buffered (elfFile [(0, 0, 0x1000), (0xfffffffffffff000, 0, 0xff0)])) 0x200000 176 ∧
    GrantsFree allocateFree 0x200000 176 ∧
    ¬ LoadsInPages allocateFree 0x200000
      (buffered (elfFile [(0, 0, 0x1000), (0xfffffffffffff000, 0, 0xff0)])) := by
  have himage : KernelImage (buffered (elfFile [(0, 0, 0x1000), (0xfffffffffffff000, 0, 0xff0)]))
      0x200000 176 := by
    refine ⟨by decide, by decide, by decide +kernel, ?_, ?_, ?_, ?_⟩
    all_goals rw [loads_bothEnds]
    all_goals decide
  refine ⟨himage, grantsFree_allocateFree 176, ?_⟩
  refine @not_loadsInPages_of_spansAll _ _ _ ⟨1, 0, 0, 0, 0x1000⟩ _ himage ?_ ?_ (by decide)
    (by decide)
  · rw [loads_bothEnds, SpansAll]
    decide
  · rw [loads_bothEnds]
    exact List.mem_cons_self

end Boot
end MinOS
