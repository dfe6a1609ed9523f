import MinOS.Memory.Init

/-!
# The bounds of the allocator

Which frames `InitializeMemoryManager` indexes in `alloc_map_`, and which frames are
left to be allocated.  The memory map of the firmware, the bitmap of 128 GiB and the
identity mapping of 64 GiB are never compared.
-/

namespace MinOS

/-! ## The accesses of the allocator -/

namespace BitmapMemoryManager

/-- The frames whose bits the inner loop of `Allocate` reads. -/
def scanReads (m : BitmapMemoryManager) (startFrameId : ℕ) : ℕ → ℕ → List ℕ
  | _, 0 => []
  | i, remaining + 1 =>
      if startFrameId + i ≥ m.rangeEnd then []
      else if m.getBit (startFrameId + i) then [startFrameId + i]
      else (startFrameId + i) :: m.scanReads startFrameId (i + 1) remaining

/-- The frames whose bits the outer loop reads. -/
def allocateFromReads (m : BitmapMemoryManager) (numFrames : ℕ) : ℕ → ℕ → List ℕ
  | 0, _ => []
  | turns + 1, startFrameId =>
      m.scanReads startFrameId 0 numFrames ++
        match m.scan startFrameId 0 numFrames with
        | .busy i => m.allocateFromReads numFrames turns (startFrameId + i + 1)
        | _ => []

/-- The frames that `Allocate` reads, and those it marks. -/
def allocateAccesses (m : BitmapMemoryManager) (numFrames : ℕ) : List ℕ :=
  m.allocateFromReads numFrames (m.rangeEnd - m.rangeBegin + 1) m.rangeBegin ++
    match (m.allocate numFrames).1 with
    | .ok startFrame => List.range' startFrame numFrames
    | .error _ => []

/-- Where the search of `Allocate` stops. -/
def stopOf (m : BitmapMemoryManager) (numFrames : ℕ) : Except Error ℕ → ℕ
  | .ok startFrame => startFrame + numFrames
  | .error _ => m.rangeEnd

theorem mem_scanReads_free (m : BitmapMemoryManager) (start i remaining : ℕ)
    (h : m.scan start i remaining = .free) (frame : ℕ) :
    frame ∈ m.scanReads start i remaining ↔
      start + i ≤ frame ∧ frame < start + i + remaining := by
  induction remaining generalizing i with
  | zero =>
      rw [scanReads]
      simp only [List.not_mem_nil, false_iff]
      omega
  | succ remaining ih =>
      rw [scan] at h
      rw [scanReads]
      split_ifs at h ⊢ with hend hbusy
      rw [List.mem_cons, ih (i + 1) h]
      omega

theorem mem_scanReads_busy (m : BitmapMemoryManager) (start i remaining j : ℕ)
    (h : m.scan start i remaining = .busy j) (frame : ℕ) :
    frame ∈ m.scanReads start i remaining ↔ start + i ≤ frame ∧ frame < start + j + 1 := by
  induction remaining generalizing i with
  | zero => simp [scan] at h
  | succ remaining ih =>
      have hle := (m.scan_busy start i (remaining + 1) j h).1
      rw [scan] at h
      rw [scanReads]
      split_ifs at h ⊢ with hend hbusy
      · obtain rfl : i = j := by simpa using h
        rw [List.mem_singleton]
        omega
      · have hle' := (m.scan_busy start (i + 1) remaining j h).1
        rw [List.mem_cons, ih (i + 1) h]
        omega

theorem mem_scanReads_exhausted (m : BitmapMemoryManager) (start i remaining : ℕ)
    (h : m.scan start i remaining = .exhausted) (frame : ℕ) :
    frame ∈ m.scanReads start i remaining ↔ start + i ≤ frame ∧ frame < m.rangeEnd := by
  induction remaining generalizing i with
  | zero => simp [scan] at h
  | succ remaining ih =>
      rw [scan] at h
      rw [scanReads]
      split_ifs at h ⊢ with hend hbusy
      · simp only [List.not_mem_nil, false_iff]
        omega
      · rw [List.mem_cons, ih (i + 1) h]
        omega

theorem le_stopOf (m : BitmapMemoryManager) (n turns start : ℕ) (hle : start ≤ m.rangeEnd) :
    start ≤ m.stopOf n (m.allocateFrom n turns start).1 := by
  induction turns generalizing start with
  | zero => exact hle
  | succ turns ih =>
      rw [allocateFrom]
      cases hscan : m.scan start 0 n with
      | exhausted => exact hle
      | free => exact Nat.le_add_right _ _
      | busy i =>
          have hi := (m.scan_busy start 0 n i hscan).2.2.1
          exact (Nat.le_add_right start (i + 1)).trans (ih (start + i + 1) hi)

/-- The search reads the frames of the range one after another. -/
theorem mem_allocateFromReads (m : BitmapMemoryManager) (n turns start : ℕ)
    (hturns : m.rangeEnd < start + turns) (frame : ℕ) :
    frame ∈ m.allocateFromReads n turns start ↔
      start ≤ frame ∧ frame < m.stopOf n (m.allocateFrom n turns start).1 := by
  induction turns generalizing start with
  | zero =>
      rw [allocateFromReads, allocateFrom]
      simp only [List.not_mem_nil, false_iff, stopOf]
      omega
  | succ turns ih =>
      rw [allocateFromReads, allocateFrom, List.mem_append]
      cases hscan : m.scan start 0 n with
      | exhausted =>
          rw [m.mem_scanReads_exhausted start 0 n hscan]
          simp [stopOf]
      | free =>
          rw [m.mem_scanReads_free start 0 n hscan]
          simp [stopOf]
      | busy i =>
          have hi := (m.scan_busy start 0 n i hscan).2.2.1
          have hstop := m.le_stopOf n turns (start + i + 1) hi
          rw [m.mem_scanReads_busy start 0 n i hscan, ih (start + i + 1) (by omega)]
          dsimp only
          omega

/-- `Allocate` indexes the bitmap for the frames of the range up to where it stops. -/
theorem mem_allocateAccesses (m : BitmapMemoryManager) {n : ℕ} (hn : 1 ≤ n) (frame : ℕ) :
    frame ∈ m.allocateAccesses n ↔
      m.rangeBegin ≤ frame ∧ frame < m.stopOf n (m.allocate n).1 := by
  have hfit := m.allocate_firstFit hn
  rw [allocateAccesses, List.mem_append, m.mem_allocateFromReads n _ _ (by omega), ← allocate]
  cases halloc : m.allocate n with
  | mk result m' =>
      rw [halloc] at hfit
      cases result with
      | error e => simp
      | ok start =>
          have hbegin := hfit.1.1
          simp only [stopOf, List.mem_range'_1]
          omega

/-! ## The frames that can be allocated -/

theorem freeBlock_one {m : BitmapMemoryManager} {frame : ℕ} :
    m.FreeBlock 1 frame ↔
      m.rangeBegin ≤ frame ∧ frame < m.rangeEnd ∧ m.getBit frame = false := by
  refine and_congr_right' (and_congr_right' ⟨fun h ↦ h frame le_rfl (Nat.lt_succ_self _), ?_⟩)
  intro h other hlower hupper
  obtain rfl : other = frame := by omega
  exact h

/-- A single frame comes from the lowest clear frame of the range. -/
theorem allocate_lowest {m : BitmapMemoryManager} {frame : ℕ} (hframe : m.FreeBlock 1 frame) :
    ∃ start ≤ frame, m.FreeBlock 1 start ∧ (∀ other < start, ¬ m.FreeBlock 1 other) ∧
      m.allocate 1 = (.ok start, m.markAllocated start 1) := by
  have hfit := m.allocate_firstFit (n := 1) le_rfl
  cases halloc : m.allocate 1 with
  | mk result m' =>
      rw [halloc] at hfit
      cases result with
      | error e => exact absurd hframe (hfit.2.1 frame)
      | ok start =>
          obtain ⟨hblock, hlowest, rfl⟩ := hfit
          exact ⟨start, not_lt.mp fun hlt ↦ hlowest frame hlt hframe, hblock, hlowest, rfl⟩

/-- Single frames are returned in ascending order, so every clear frame of the range
is returned once those below it are.  The frames that are farther than `k` below it
are taken already. -/
theorem exists_run_of_clear (k : ℕ) :
    ∀ {s : AllocState} {frame : ℕ}, s.manager.FreeBlock 1 frame →
      (∀ other, s.manager.rangeBegin ≤ other → other + k < frame →
        s.manager.getBit other = true) →
      ∃ ops t m', Transition.Run AllocStep s ops t ∧
        t.manager.allocate 1 = (.ok frame, m') := by
  induction k with
  | zero =>
      intro s frame hframe htaken
      obtain ⟨start, hle, hblock, -, halloc⟩ := allocate_lowest hframe
      obtain ⟨hbegin, -, hclear⟩ := freeBlock_one.mp hblock
      have hge : ¬ start < frame := fun hlt ↦ by
        rw [htaken start hbegin hlt] at hclear
        cases hclear
      obtain rfl : start = frame := by omega
      exact ⟨[], s, _, .nil s, halloc⟩
  | succ k ih =>
      intro s frame hframe htaken
      obtain ⟨start, hle, hblock, hlowest, halloc⟩ := allocate_lowest hframe
      obtain ⟨hbegin, -, hclear⟩ := freeBlock_one.mp hblock
      by_cases heq : start = frame
      · subst heq
        exact ⟨[], s, _, .nil s, halloc⟩
      · obtain ⟨hfbegin, hfend, hfclear⟩ := freeBlock_one.mp hframe
        have hframe' : (s.manager.markAllocated start 1).FreeBlock 1 frame := by
          refine freeBlock_one.mpr ⟨by simpa [markAllocated] using hfbegin,
            by simpa [markAllocated] using hfend, ?_⟩
          rw [getBit_markAllocated, hfclear, Bool.or_false]
          exact decide_eq_false (by omega)
        have htaken' : ∀ other, (s.manager.markAllocated start 1).rangeBegin ≤ other →
            other + k < frame →
            (s.manager.markAllocated start 1).getBit other = true := by
          intro other hother hlt
          have hother' : s.manager.rangeBegin ≤ other := by
            simpa [markAllocated] using hother
          rw [getBit_markAllocated, Bool.or_eq_true, decide_eq_true_iff]
          by_contra hnot
          push Not at hnot
          have hfree : s.manager.FreeBlock 1 other :=
            freeBlock_one.mpr ⟨hother', by omega, by simpa using hnot.2⟩
          -- the lowest clear frame is not above `other`, nor far below the frame
          have hstart : ¬ other < start := fun h ↦ hlowest other h hfree
          have hfar : ¬ start + (k + 1) < frame := fun h ↦ by
            rw [htaken start hbegin h] at hclear
            cases hclear
          exact absurd (hnot.1 (by omega)) (by omega)
        obtain ⟨ops, t, m'', hrun, hret⟩ :=
          ih (s := ⟨_, ⟨start, 1⟩ :: s.live⟩) hframe' htaken'
        exact ⟨_, t, m'', hrun.head (.allocated le_rfl halloc), hret⟩

/-- The frames that a run returns were clear at its start. -/
theorem clear_of_allocated {m₀ : BitmapMemoryManager} {ops : List AllocOp}
    {s : AllocState}
    (hrun : Transition.Run AllocStep ⟨m₀, []⟩ ops s) {n start : ℕ}
    {m' : BitmapMemoryManager} (halloc : s.manager.allocate n = (.ok start, m')) {frame : ℕ}
    (hlower : start ≤ frame) (hupper : frame < start + n) : m₀.FreeBlock 1 frame := by
  have hs := hrun.invariant AllocInvariant.step (.init m₀)
  have hfit := s.manager.allocate_firstFit (n := n) (by omega)
  rw [halloc] at hfit
  obtain ⟨⟨hbegin, hend, hclear⟩, -, -⟩ := hfit
  rw [hs.rangeBegin] at hbegin
  rw [hs.rangeEnd] at hend
  have hbit := mt (hs.bitmap frame).mpr (by simp [hclear frame hlower hupper])
  push Not at hbit
  exact freeBlock_one.mpr
    ⟨hbegin.trans hlower, hupper.trans_le hend, by simpa using hbit.1⟩

end BitmapMemoryManager

/-! ## The frames that are marked -/

namespace MemoryDescriptor

/-- The size of the region, computed in 64 bits. -/
def bytes (d : MemoryDescriptor) : ℕ := d.numberOfPages * kUEFIPageSize % 2 ^ 64

def physicalEnd (d : MemoryDescriptor) : ℕ :=
  (d.physicalStart + d.numberOfPages * kUEFIPageSize) % 2 ^ 64

/-- The end of the last available region, after a descriptor. -/
def availableEnd (d : MemoryDescriptor) (before : ℕ) : ℕ :=
  if isAvailable d.type then d.physicalEnd else before

/-- The calls of `MarkAllocated` for a descriptor: first frames and numbers. -/
def markCalls (d : MemoryDescriptor) (availableEnd : ℕ) : List (ℕ × ℕ) :=
  (if availableEnd < d.physicalStart then
      [(availableEnd / kBytesPerFrame, (d.physicalStart - availableEnd) / kBytesPerFrame)]
    else []) ++
  if isAvailable d.type then []
  else [(d.physicalStart / kBytesPerFrame, d.bytes / kBytesPerFrame)]

/-- The frame lies in the gap before the descriptor, or in the descriptor, which is
not available. -/
def Marks (d : MemoryDescriptor) (availableEnd frame : ℕ) : Prop :=
  (availableEnd ≤ frame * kBytesPerFrame ∧ frame * kBytesPerFrame < d.physicalStart) ∨
    (isAvailable d.type = false ∧ d.physicalStart ≤ frame * kBytesPerFrame ∧
      frame * kBytesPerFrame < d.physicalStart + d.bytes)

/-- The gap before the descriptor ends within the memory of the bitmap, and so does
the descriptor, unless it is available. -/
def MarksFit (d : MemoryDescriptor) (availableEnd : ℕ) : Prop :=
  (availableEnd < d.physicalStart → d.physicalStart ≤ kMaxPhysicalMemoryBytes) ∧
    (isAvailable d.type = false → 0 < d.bytes →
      d.physicalStart + d.bytes ≤ kMaxPhysicalMemoryBytes)

/-- A region starts at a page. -/
def Aligned (d : MemoryDescriptor) : Prop := kUEFIPageSize ∣ d.physicalStart

variable {d : MemoryDescriptor} {before : ℕ}

theorem availableEnd_aligned (hd : d.Aligned) (hbefore : kBytesPerFrame ∣ before) :
    kBytesPerFrame ∣ d.availableEnd before := by
  rw [availableEnd]
  split_ifs
  · obtain ⟨p, hp⟩ := hd
    simp only [kUEFIPageSize] at hp
    rw [physicalEnd, kBytesPerFrame, kUEFIPageSize, hp]
    omega
  · exact hbefore

theorem exists_bytes_eq (d : MemoryDescriptor) : ∃ q, d.bytes = 4096 * q := by
  refine ⟨d.numberOfPages % 2 ^ 52, ?_⟩
  simp only [bytes, kUEFIPageSize]
  omega

/-- The frames of the calls are the marked ones. -/
theorem exists_markCalls_iff (hd : d.Aligned) (hbefore : kBytesPerFrame ∣ before) (frame : ℕ) :
    (∃ c ∈ d.markCalls before, c.1 ≤ frame ∧ frame < c.1 + c.2) ↔ d.Marks before frame := by
  obtain ⟨p, hp⟩ := hd
  obtain ⟨a, rfl⟩ := hbefore
  obtain ⟨q, hq⟩ := d.exists_bytes_eq
  simp only [kUEFIPageSize] at hp
  simp only [markCalls, Marks, kBytesPerFrame, hp, hq]
  by_cases hgap : 4096 * a < 4096 * p <;> cases hav : isAvailable d.type <;>
    simp [hgap] <;> omega

/-- All marked frames have a bit exactly when the gap and the descriptor end in time. -/
theorem forall_marks_lt_iff (hd : d.Aligned) (hbefore : kBytesPerFrame ∣ before) :
    (∀ frame, d.Marks before frame → frame < kFrameCount) ↔ d.MarksFit before := by
  obtain ⟨p, hp⟩ := hd
  obtain ⟨a, rfl⟩ := hbefore
  obtain ⟨q, hq⟩ := d.exists_bytes_eq
  simp only [kUEFIPageSize] at hp
  simp only [MarksFit, Marks, kBytesPerFrame, kFrameCount, kMaxPhysicalMemoryBytes, hp, hq]
  constructor
  · intro h
    constructor
    · intro hlt
      have hlast := h (p - 1) (.inl (by omega))
      omega
    · intro hav hpos
      have hlast := h (p + q - 1) (.inr ⟨hav, by omega⟩)
      omega
  · rintro ⟨hgap, hregion⟩ frame (hframe | ⟨hav, hframe⟩)
    · have := hgap (by omega)
      omega
    · have := hregion hav (by omega)
      omega

end MemoryDescriptor

theorem visitDescriptor_manager (s : InitState) (d : MemoryDescriptor) :
    (visitDescriptor s d).manager = (d.markCalls s.availableEnd).foldl
      (fun m c ↦ m.markAllocated c.1 c.2) s.manager := by
  rw [visitDescriptor, MemoryDescriptor.markCalls]
  split_ifs <;> rfl

theorem visitDescriptor_availableEnd (s : InitState) (d : MemoryDescriptor) :
    (visitDescriptor s d).availableEnd = d.availableEnd s.availableEnd := by
  rw [visitDescriptor, MemoryDescriptor.availableEnd]
  split_ifs <;> rfl

/-- The calls of `MarkAllocated` in the loop over the descriptors. -/
def markCalls : ℕ → List MemoryDescriptor → List (ℕ × ℕ)
  | _, [] => []
  | e, d :: descs => d.markCalls e ++ markCalls (d.availableEnd e) descs

/-- The frames that the loop marks. -/
def Marks : ℕ → List MemoryDescriptor → ℕ → Prop
  | _, [], _ => False
  | e, d :: descs, frame => d.Marks e frame ∨ Marks (d.availableEnd e) descs frame

/-- The gaps and the regions that are not available end within the memory of the
bitmap. -/
def MarksFit : ℕ → List MemoryDescriptor → Prop
  | _, [] => True
  | e, d :: descs => d.MarksFit e ∧ MarksFit (d.availableEnd e) descs

section Loop

variable {descs : List MemoryDescriptor} (haligned : ∀ d ∈ descs, d.Aligned)

theorem foldl_visitDescriptor_manager (s : InitState) (descs : List MemoryDescriptor) :
    (descs.foldl visitDescriptor s).manager = (markCalls s.availableEnd descs).foldl
      (fun m c ↦ m.markAllocated c.1 c.2) s.manager := by
  induction descs generalizing s with
  | nil => rfl
  | cons d descs ih =>
      rw [List.foldl_cons, ih, visitDescriptor_availableEnd, visitDescriptor_manager, markCalls,
        List.foldl_append]

theorem foldl_visitDescriptor_availableEnd (s : InitState) (descs : List MemoryDescriptor) :
    (descs.foldl visitDescriptor s).availableEnd =
      descs.foldl (fun e d ↦ d.availableEnd e) s.availableEnd := by
  induction descs generalizing s with
  | nil => rfl
  | cons d descs ih => rw [List.foldl_cons, List.foldl_cons, ih, visitDescriptor_availableEnd]

theorem getBit_foldl_markAllocated (m : BitmapMemoryManager) (calls : List (ℕ × ℕ)) (frame : ℕ) :
    (calls.foldl (fun m c ↦ m.markAllocated c.1 c.2) m).getBit frame = true ↔
      m.getBit frame = true ∨ ∃ c ∈ calls, c.1 ≤ frame ∧ frame < c.1 + c.2 := by
  induction calls generalizing m with
  | nil => simp
  | cons c calls ih =>
      rw [List.foldl_cons, ih, BitmapMemoryManager.getBit_markAllocated, Bool.or_eq_true,
        decide_eq_true_iff, List.exists_mem_cons_iff]
      tauto

include haligned

theorem exists_markCalls_iff {e : ℕ} (he : kBytesPerFrame ∣ e) (frame : ℕ) :
    (∃ c ∈ markCalls e descs, c.1 ≤ frame ∧ frame < c.1 + c.2) ↔ Marks e descs frame := by
  induction descs generalizing e with
  | nil => simp [markCalls, Marks]
  | cons d descs ih =>
      obtain ⟨hd, hdescs⟩ := List.forall_mem_cons.mp haligned
      rw [markCalls, Marks, ← d.exists_markCalls_iff hd he,
        ← ih hdescs (d.availableEnd_aligned hd he)]
      simp only [List.mem_append, or_and_right, exists_or]

theorem forall_marks_lt_iff {e : ℕ} (he : kBytesPerFrame ∣ e) :
    (∀ frame, Marks e descs frame → frame < kFrameCount) ↔ MarksFit e descs := by
  induction descs generalizing e with
  | nil => simp [Marks, MarksFit]
  | cons d descs ih =>
      obtain ⟨hd, hdescs⟩ := List.forall_mem_cons.mp haligned
      simp only [Marks, MarksFit, or_imp, forall_and]
      rw [← d.forall_marks_lt_iff hd he, ← ih hdescs (d.availableEnd_aligned hd he)]

end Loop

/-! ## The memory of a machine -/

/-- The allocator when all descriptors have been visited. -/
def markedManager (map : Array MemoryDescriptor) : BitmapMemoryManager :=
  let s := (sortMemoryMapInPlace map).toList.foldl visitDescriptor
    { manager := BitmapMemoryManager.init, availableEnd := 0 }
  s.manager.setMemoryRange 1 (s.availableEnd / kBytesPerFrame)

theorem initializeMemoryManager_eq (map : Array MemoryDescriptor) :
    initializeMemoryManager map = initializeHeap (markedManager map) := rfl

/-- The frames whose bits `InitializeMemoryManager` sets and reads. -/
def initAccesses (map : Array MemoryDescriptor) : List ℕ :=
  ((markCalls 0 (sortMemoryMapInPlace map).toList).flatMap fun c ↦ List.range' c.1 c.2) ++
    (markedManager map).allocateAccesses kHeapFrames

/-- The indices into `alloc_map_`. -/
def initLines (map : Array MemoryDescriptor) : List ℕ :=
  (initAccesses map).map (· / kBitsPerMapLine)

/-- The end of the last available region of the sorted map. -/
def lastAvailableEnd (map : Array MemoryDescriptor) : ℕ :=
  (sortMemoryMapInPlace map).toList.foldl (fun e d ↦ d.availableEnd e) 0

/-- A frame of the range that no descriptor marks. -/
def Usable (map : Array MemoryDescriptor) (frame : ℕ) : Prop :=
  1 ≤ frame ∧ frame < lastAvailableEnd map / kBytesPerFrame ∧
    ¬ Marks 0 (sortMemoryMapInPlace map).toList frame

/-- As many usable frames as the heap needs follow one another from here on. -/
def HeapFits (map : Array MemoryDescriptor) (start : ℕ) : Prop :=
  ∀ frame, start ≤ frame → frame < start + kHeapFrames → Usable map frame

/-- The lowest place for the heap. -/
def HeapAt (map : Array MemoryDescriptor) (start : ℕ) : Prop :=
  HeapFits map start ∧ ∀ other, other < start → ¬ HeapFits map other

def kPageDirectoryCount : ℕ := 64

def kPageSize1G : ℕ := 512 * 512 * 4096

/-- `InitializeMemoryManager` stays in the bitmap, and the frames that can be
allocated after it have a bit and are identity-mapped. -/
structure InBounds (map : Array MemoryDescriptor) : Prop where
  indexed : ∀ line ∈ initLines map, line < kFrameCount / kBitsPerMapLine
  returned : ∀ heap, (initializeMemoryManager map).1 = .ok heap →
    ∀ ops s, Transition.Run BitmapMemoryManager.AllocStep
      ⟨(initializeMemoryManager map).2, []⟩ ops s →
    ∀ n start m', s.manager.allocate n = (.ok start, m') →
    ∀ frame, start ≤ frame → frame < start + n →
      frame < kFrameCount ∧ (frame + 1) * kBytesPerFrame ≤ kPageDirectoryCount * kPageSize1G

/-- The limits that the code does not compare.  The heap takes the lowest place; what
is left below the end of the range has to be identity-mapped. -/
structure MachineFits (map : Array MemoryDescriptor) : Prop where
  marked : MarksFit 0 (sortMemoryMapInPlace map).toList
  heap : ∀ start, HeapAt map start → start + kHeapFrames ≤ kFrameCount ∧
    ∀ frame, Usable map frame → frame < start ∨ start + kHeapFrames ≤ frame →
      (frame + 1) * kBytesPerFrame ≤ kPageDirectoryCount * kPageSize1G
  noHeap : (∀ start, ¬ HeapAt map start) → lastAvailableEnd map / kBytesPerFrame ≤ kFrameCount

section Machine

variable {map : Array MemoryDescriptor} (haligned : ∀ d ∈ map.toList, d.Aligned)

theorem forall_initLines_iff :
    (∀ line ∈ initLines map, line < kFrameCount / kBitsPerMapLine) ↔
      ∀ frame ∈ initAccesses map, frame < kFrameCount := by
  simp only [initLines, List.forall_mem_map, kFrameCount, kMaxPhysicalMemoryBytes, kBytesPerFrame,
    kBitsPerMapLine]
  exact forall₂_congr fun frame _ ↦ by omega

theorem HeapAt.unique {start other : ℕ} (h : HeapAt map start) (h' : HeapAt map other) :
    start = other := by
  rcases Nat.lt_trichotomy start other with hlt | heq | hlt
  · exact absurd h.1 (h'.2 start hlt)
  · exact heq
  · exact absurd h'.1 (h.2 other hlt)

theorem rangeEnd_markedManager :
    (markedManager map).rangeEnd = lastAvailableEnd map / kBytesPerFrame := by
  rw [markedManager, lastAvailableEnd, ← foldl_visitDescriptor_availableEnd
    { manager := BitmapMemoryManager.init, availableEnd := 0 }]
  rfl

include haligned

theorem aligned_sorted : ∀ d ∈ (sortMemoryMapInPlace map).toList, d.Aligned := fun d hd ↦
  haligned d (mem_sortMemoryMapInPlace.mp hd)

theorem getBit_markedManager (frame : ℕ) :
    (markedManager map).getBit frame = true ↔
      Marks 0 (sortMemoryMapInPlace map).toList frame := by
  have hinit : BitmapMemoryManager.init.getBit frame = false := by
    simp [BitmapMemoryManager.getBit, BitmapMemoryManager.init]
  have hbit := getBit_foldl_markAllocated BitmapMemoryManager.init
    (markCalls 0 (sortMemoryMapInPlace map).toList) frame
  rw [hinit, exists_markCalls_iff (aligned_sorted haligned) (dvd_zero _)] at hbit
  rw [markedManager]
  simp only [foldl_visitDescriptor_manager]
  exact hbit.trans (or_iff_right Bool.false_ne_true)

theorem usable_iff (frame : ℕ) :
    Usable map frame ↔ (markedManager map).FreeBlock 1 frame := by
  rw [BitmapMemoryManager.freeBlock_one, rangeEnd_markedManager, Usable,
    ← getBit_markedManager haligned, Bool.not_eq_true]
  exact Iff.rfl

theorem heapFits_iff (start : ℕ) :
    HeapFits map start ↔ (markedManager map).FreeBlock kHeapFrames start := by
  simp only [HeapFits, usable_iff haligned, BitmapMemoryManager.freeBlock_one]
  constructor
  · intro h
    have hfirst := h start le_rfl (Nat.lt_add_of_pos_right (by decide))
    have hlast := h (start + kHeapFrames - 1) (by simp only [kHeapFrames]; omega)
      (by simp only [kHeapFrames]; omega)
    simp only [kHeapFrames] at hlast ⊢
    exact ⟨hfirst.1, by omega, fun frame hlower hupper ↦ (h frame hlower hupper).2.2⟩
  · rintro ⟨hbegin, hend, hclear⟩ frame hlower hupper
    exact ⟨by omega, by omega, hclear frame hlower hupper⟩

/-- What `InitializeHeap` does with the marked bitmap. -/
theorem heap_cases :
    (∃ start, HeapAt map start ∧ (markedManager map).allocate kHeapFrames =
        (.ok start, (markedManager map).markAllocated start kHeapFrames)) ∨
      (∀ start, ¬ HeapAt map start) ∧
        ((markedManager map).allocate kHeapFrames).1 = .error .kNoEnoughMemory := by
  have hfit := (markedManager map).allocate_firstFit (n := kHeapFrames) (by decide)
  cases halloc : (markedManager map).allocate kHeapFrames with
  | mk result m' =>
      rw [halloc] at hfit
      cases result with
      | ok start =>
          obtain ⟨hblock, hlowest, rfl⟩ := hfit
          exact .inl ⟨start, ⟨(heapFits_iff haligned start).mpr hblock, fun other hlt h ↦
            hlowest other hlt ((heapFits_iff haligned other).mp h)⟩, rfl⟩
      | error e =>
          obtain ⟨rfl, hnone, -⟩ := hfit
          exact .inr ⟨fun start h ↦ hnone start ((heapFits_iff haligned start).mp h.1), rfl⟩

theorem mem_initAccesses_iff (frame : ℕ) :
    frame ∈ initAccesses map ↔ Marks 0 (sortMemoryMapInPlace map).toList frame ∨
      (1 ≤ frame ∧ frame < (markedManager map).stopOf kHeapFrames
        ((markedManager map).allocate kHeapFrames).1) := by
  rw [initAccesses, List.mem_append, BitmapMemoryManager.mem_allocateAccesses _ (by decide),
    ← exists_markCalls_iff (aligned_sorted haligned) (dvd_zero _)]
  simp only [List.mem_flatMap, List.mem_range'_1]
  exact Iff.rfl

theorem forall_initAccesses_iff :
    (∀ frame ∈ initAccesses map, frame < kFrameCount) ↔
      MarksFit 0 (sortMemoryMapInPlace map).toList ∧
        (∀ start, HeapAt map start → start + kHeapFrames ≤ kFrameCount) ∧
        ((∀ start, ¬ HeapAt map start) → lastAvailableEnd map / kBytesPerFrame ≤ kFrameCount) := by
  simp only [mem_initAccesses_iff haligned, or_imp, forall_and]
  rw [forall_marks_lt_iff (aligned_sorted haligned) (dvd_zero _)]
  refine and_congr_right' ?_
  rcases heap_cases haligned with ⟨start, hstart, halloc⟩ | ⟨hnone, herror⟩
  · rw [halloc]
    simp only [BitmapMemoryManager.stopOf, kHeapFrames]
    have hfirst := (hstart.1 start le_rfl (Nat.lt_add_of_pos_right (by decide))).1
    constructor
    · intro h
      have hlast := h (start + 64 * 512 - 1) (by omega)
      exact ⟨fun other hother ↦ by rw [hother.unique hstart]; omega,
        fun hnone ↦ absurd hstart (hnone start)⟩
    · rintro ⟨hheap, -⟩ frame hframe
      have := hheap start hstart
      omega
  · rw [herror]
    simp only [BitmapMemoryManager.stopOf, rangeEnd_markedManager]
    constructor
    · intro h
      refine ⟨fun start hstart ↦ absurd hstart (hnone start), fun _ ↦ ?_⟩
      by_contra hover
      have hpos : 1 ≤ kFrameCount := by decide
      exact absurd (h kFrameCount ⟨hpos, by omega⟩) (lt_irrefl _)
    · rintro ⟨-, hend⟩ frame hframe
      exact hframe.2.trans_le (hend hnone)

/-- The state that `InitializeMemoryManager` leaves: the heap is taken, or there is none. -/
theorem initialized_cases :
    (∃ start heap, HeapAt map start ∧ initializeMemoryManager map =
        (.ok heap, (markedManager map).markAllocated start kHeapFrames)) ∨
      (∀ start, ¬ HeapAt map start) ∧
        (initializeMemoryManager map).1 = .error .kNoEnoughMemory := by
  rw [initializeMemoryManager_eq, initializeHeap]
  rcases heap_cases haligned with ⟨start, hstart, halloc⟩ | ⟨hnone, herror⟩
  · rw [halloc]
    exact .inl ⟨start, _, hstart, rfl⟩
  · refine .inr ⟨hnone, ?_⟩
    cases halloc : (markedManager map).allocate kHeapFrames with
    | mk result m' =>
        rw [halloc] at herror
        obtain rfl : result = _ := herror
        rfl

/-- What is left to be allocated once the heap has its place. -/
theorem freeBlock_markAllocated_iff (start frame : ℕ) :
    ((markedManager map).markAllocated start kHeapFrames).FreeBlock 1 frame ↔
      Usable map frame ∧ (frame < start ∨ start + kHeapFrames ≤ frame) := by
  rw [usable_iff haligned, BitmapMemoryManager.freeBlock_one, BitmapMemoryManager.freeBlock_one,
    BitmapMemoryManager.getBit_markAllocated, Bool.or_eq_false_iff, decide_eq_false_iff_not]
  simp only [BitmapMemoryManager.markAllocated, BitmapMemoryManager.setBits_rangeBegin,
    BitmapMemoryManager.setBits_rangeEnd, not_and_or, not_le, not_lt]
  tauto

/-- The bitmap is indexed within its bounds, and only frames with a bit and an
identity mapping can be allocated, exactly when the memory map fits the machine. -/
theorem inBounds_iff : InBounds map ↔ MachineFits map := by
  have hmapped : ∀ frame, (frame + 1) * kBytesPerFrame ≤ kPageDirectoryCount * kPageSize1G →
      frame < kFrameCount := by
    simp only [kBytesPerFrame, kPageDirectoryCount, kPageSize1G, kFrameCount,
      kMaxPhysicalMemoryBytes]
    omega
  constructor
  · rintro ⟨hindexed, hreturned⟩
    obtain ⟨hmarked, hheap, hnone⟩ :=
      (forall_initAccesses_iff haligned).mp (forall_initLines_iff.mp hindexed)
    refine ⟨hmarked, fun start hstart ↦ ⟨hheap start hstart, fun frame husable hout ↦ ?_⟩, hnone⟩
    rcases initialized_cases haligned with ⟨start', heap, hstart', hinit⟩ | ⟨hno, -⟩
    · obtain rfl := hstart.unique hstart'
      have hfree := (freeBlock_markAllocated_iff haligned start frame).mpr ⟨husable, hout⟩
      obtain ⟨ops, s, m', hrun, halloc⟩ := BitmapMemoryManager.exists_run_of_clear frame
        (s := ⟨(initializeMemoryManager map).2, []⟩) (by rw [hinit]; exact hfree)
        (fun other _ hlt ↦ by omega)
      exact (hreturned heap (by rw [hinit]) ops s hrun 1 frame m' halloc frame le_rfl
        (Nat.lt_succ_self _)).2
    · exact absurd hstart (hno start)
  · rintro ⟨hmarked, hheap, hnone⟩
    refine ⟨forall_initLines_iff.mpr ((forall_initAccesses_iff haligned).mpr
      ⟨hmarked, fun start hstart ↦ (hheap start hstart).1, hnone⟩), ?_⟩
    intro heap hok ops s hrun n start m' halloc frame hlower hupper
    rcases initialized_cases haligned with ⟨start', heap', hstart', hinit⟩ | ⟨-, herror⟩
    · have hfree := BitmapMemoryManager.clear_of_allocated hrun halloc hlower hupper
      rw [hinit] at hfree
      obtain ⟨husable, hout⟩ := (freeBlock_markAllocated_iff haligned start' frame).mp hfree
      have hbound := (hheap start' hstart').2 frame husable hout
      exact ⟨hmapped frame hbound, hbound⟩
    · rw [herror] at hok
      cases hok

end Machine

/-! ## Two machines -/

/-- One available region: the heap takes the frames from 1 on. -/
def smallMap : Array MemoryDescriptor := #[⟨7, 0, 40000⟩]

theorem smallMap_usable (frame : ℕ) : Usable smallMap frame ↔ 1 ≤ frame ∧ frame < 40000 := by
  have hend : lastAvailableEnd smallMap / kBytesPerFrame = 40000 := by decide
  have hsorted : (sortMemoryMapInPlace smallMap).toList = [⟨7, 0, 40000⟩] := by decide
  have havailable : isAvailable 7 = true := by decide
  rw [Usable, hend, hsorted]
  simp [Marks, MemoryDescriptor.Marks, havailable]

theorem smallMap_heapAt : HeapAt smallMap 1 := by
  simp only [HeapAt, HeapFits, smallMap_usable, kHeapFrames]
  refine ⟨fun frame hlower hupper ↦ by omega, fun other hlt h ↦ ?_⟩
  have := h other le_rfl (by omega)
  omega

theorem inBounds_smallMap : InBounds smallMap := by
  have haligned : ∀ d ∈ smallMap.toList, d.Aligned := by
    intro d hd
    obtain rfl : d = ⟨7, 0, 40000⟩ := by simpa [smallMap] using hd
    exact dvd_zero _
  refine (inBounds_iff haligned).mpr ⟨?_, ?_, fun hnone ↦ absurd smallMap_heapAt (hnone 1)⟩
  · rw [show (sortMemoryMapInPlace smallMap).toList = [⟨7, 0, 40000⟩] by decide]
    exact ⟨⟨fun h ↦ absurd h (lt_irrefl 0), fun h ↦ absurd h (by decide)⟩, trivial⟩
  · intro start hstart
    obtain rfl := hstart.unique smallMap_heapAt
    refine ⟨by decide, fun frame husable _ ↦ ?_⟩
    rw [smallMap_usable] at husable
    simp only [kBytesPerFrame, kPageDirectoryCount, kPageSize1G]
    omega

/-- 256 MiB of memory, and a region of device memory at `0xfd00000000`. -/
def deviceMap : Array MemoryDescriptor := #[⟨7, 0, 0x10000⟩, ⟨11, 0xfd00000000, 1⟩]

/-- The device's frame is marked far behind the end of the bitmap. -/
theorem not_inBounds_deviceMap :
    (∀ d ∈ deviceMap.toList, d.Aligned) ∧
      (0xfd00000, 1) ∈ markCalls 0 (sortMemoryMapInPlace deviceMap).toList ∧
      kFrameCount ≤ 0xfd00000 ∧ ¬ InBounds deviceMap := by
  have hcall : (0xfd00000, 1) ∈ markCalls 0 (sortMemoryMapInPlace deviceMap).toList := by decide
  have hframe : 0xfd00000 ∈ initAccesses deviceMap :=
    List.mem_append_left _ (List.mem_flatMap.mpr ⟨_, hcall, by simp⟩)
  refine ⟨?_, hcall, by decide, fun h ↦ ?_⟩
  · simp only [deviceMap, MemoryDescriptor.Aligned, List.forall_mem_cons]
    exact ⟨by decide, by decide, by simp⟩
  · exact absurd (h.indexed _ (List.mem_map_of_mem hframe)) (by decide)

end MinOS
