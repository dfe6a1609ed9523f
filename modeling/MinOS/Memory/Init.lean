import Mathlib.Data.List.Sort
import MinOS.Memory.Bitmap

/-!
# Building the allocator from the firmware memory map

`InitializeMemoryManager` sorts the memory map in place and marks everything
that no available descriptor covers.  Gaps are never listed: they are inferred
from the running end of the available memory.
-/

namespace MinOS

/-- `MemoryType` of `memory_map.hpp`. -/
inductive MemoryType where
  | kEfiReservedMemoryType
  | kEfiLoaderCode
  | kEfiLoaderData
  | kEfiBootServicesCode
  | kEfiBootServicesData
  | kEfiRuntimeServicesCode
  | kEfiRuntimeServicesData
  | kEfiConventionalMemory
  | kEfiUnusableMemory
  | kEfiACPIReclaimMemory
  | kEfiACPIMemoryNVS
  | kEfiMemoryMappedIO
  | kEfiMemoryMappedIOPortSpace
  | kEfiPalCode
  | kEfiPersistentMemory
  | kEfiMaxMemoryType
deriving DecidableEq, Repr

namespace MemoryType

/-- The underlying value, as `operator==` compares it with a descriptor's type. -/
def code (t : MemoryType) : ℕ := t.ctorIdx

end MemoryType

/-- The fields of a UEFI memory descriptor that the kernel reads. -/
structure MemoryDescriptor where
  type : ℕ
  physicalStart : ℕ
  numberOfPages : ℕ
deriving DecidableEq, Repr

def kUEFIPageSize : ℕ := 4096

def isAvailable (memoryType : ℕ) : Bool :=
  memoryType == MemoryType.kEfiBootServicesCode.code ||
    memoryType == MemoryType.kEfiBootServicesData.code ||
      memoryType == MemoryType.kEfiConventionalMemory.code

/-! ## The exchange sort -/

/-- One comparison of the exchange sort. -/
def exchange (map : Array MemoryDescriptor) (i j : ℕ) : Array MemoryDescriptor :=
  if h : i < map.size ∧ j < map.size then
    if map[i].physicalStart > map[j].physicalStart then map.swap i j else map
  else map

/-- The inner loop, with `remaining` further values of `j`. -/
def sortInner (map : Array MemoryDescriptor) (i : ℕ) : ℕ → ℕ → Array MemoryDescriptor
  | _, 0 => map
  | j, remaining + 1 => sortInner (exchange map i j) i (j + 1) remaining

/-- The outer loop, with `remaining` further values of `i`. -/
def sortOuter (descCount : ℕ) (map : Array MemoryDescriptor) :
    ℕ → ℕ → Array MemoryDescriptor
  | _, 0 => map
  | i, remaining + 1 =>
      sortOuter descCount (sortInner map i (i + 1) (descCount - (i + 1))) (i + 1) remaining

def sortMemoryMapInPlace (map : Array MemoryDescriptor) : Array MemoryDescriptor :=
  sortOuter map.size map 0 map.size

theorem exchange_perm (map : Array MemoryDescriptor) (i j : ℕ) :
    (exchange map i j).Perm map := by
  unfold exchange
  split_ifs with h hgt
  · exact Array.swap_perm h.1 h.2
  · exact .refl map
  · exact .refl map

theorem sortInner_perm (map : Array MemoryDescriptor) (i j remaining : ℕ) :
    (sortInner map i j remaining).Perm map := by
  induction remaining generalizing map j with
  | zero => exact .refl map
  | succ remaining ih => exact (ih (exchange map i j) (j + 1)).trans (exchange_perm map i j)

theorem sortOuter_perm (descCount : ℕ) (map : Array MemoryDescriptor) (i remaining : ℕ) :
    (sortOuter descCount map i remaining).Perm map := by
  induction remaining generalizing map i with
  | zero => exact .refl map
  | succ remaining ih => exact (ih _ (i + 1)).trans (sortInner_perm map i _ _)

/-- Sorting the memory map neither loses nor invents a descriptor. -/
theorem mem_sortMemoryMapInPlace {map : Array MemoryDescriptor} {d : MemoryDescriptor} :
    d ∈ (sortMemoryMapInPlace map).toList ↔ d ∈ map.toList := by
  have hperm := sortOuter_perm map.size map 0 map.size
  simpa [sortMemoryMapInPlace] using hperm.mem_iff

/-! ## Marking what is not available -/

/-- The allocator and the end of the last available descriptor. -/
structure InitState where
  manager : BitmapMemoryManager
  availableEnd : ℕ

/-- The body of the loop over the descriptors. -/
def visitDescriptor (s : InitState) (desc : MemoryDescriptor) : InitState :=
  let manager :=
    if s.availableEnd < desc.physicalStart then
      s.manager.markAllocated (s.availableEnd / kBytesPerFrame)
        ((desc.physicalStart - s.availableEnd) / kBytesPerFrame)
    else s.manager
  let physicalEnd := (desc.physicalStart + desc.numberOfPages * kUEFIPageSize) % 2 ^ 64
  if isAvailable desc.type then
    { manager := manager, availableEnd := physicalEnd }
  else
    { manager := manager.markAllocated (desc.physicalStart / kBytesPerFrame)
        (desc.numberOfPages * kUEFIPageSize % 2 ^ 64 / kBytesPerFrame)
      availableEnd := s.availableEnd }

def kHeapFrames : ℕ := 64 * 512

/-- `program_break` and `program_break_end`. -/
structure Heap where
  programBreak : ℕ
  programBreakEnd : ℕ
deriving DecidableEq, Repr

def initializeHeap (m : BitmapMemoryManager) : Except Error Heap × BitmapMemoryManager :=
  match m.allocate kHeapFrames with
  | (.ok heapStart, m') =>
      (.ok { programBreak := heapStart * kBytesPerFrame
             programBreakEnd := heapStart * kBytesPerFrame + kHeapFrames * kBytesPerFrame }, m')
  | (.error e, m') => (.error e, m')

/-- An error of the result is the kernel's `exit(1)`. -/
def initializeMemoryManager (map : Array MemoryDescriptor) :
    Except Error Heap × BitmapMemoryManager :=
  let s := (sortMemoryMapInPlace map).toList.foldl visitDescriptor
    { manager := BitmapMemoryManager.init, availableEnd := 0 }
  initializeHeap (s.manager.setMemoryRange 1 (s.availableEnd / kBytesPerFrame))

/-! ## Every frame left clear is usable -/

/-- The frame lies wholly inside the descriptor. -/
def MemoryDescriptor.Covers (d : MemoryDescriptor) (frame : ℕ) : Prop :=
  d.physicalStart ≤ frame * kBytesPerFrame ∧
    (frame + 1) * kBytesPerFrame ≤ d.physicalStart + d.numberOfPages * kUEFIPageSize

/-- A page-aligned descriptor below the memory the bitmap describes. -/
structure MemoryDescriptor.Wf (d : MemoryDescriptor) : Prop where
  aligned : kUEFIPageSize ∣ d.physicalStart
  bounded : d.physicalStart + d.numberOfPages * kUEFIPageSize ≤ kMaxPhysicalMemoryBytes

/-- The loop invariant.  Below the running end of the available memory a clear
frame is covered by an available descriptor, wherever that descriptor stood in
the map; and no clear frame belongs to an unavailable descriptor already seen. -/
structure InitInvariant (seen : List MemoryDescriptor) (s : InitState) : Prop where
  aligned : kBytesPerFrame ∣ s.availableEnd
  clear_covered : ∀ frame, frame < s.availableEnd / kBytesPerFrame →
    s.manager.getBit frame = false → ∃ d ∈ seen, isAvailable d.type = true ∧ d.Covers frame
  unavailable_marked : ∀ d ∈ seen, isAvailable d.type = false → ∀ frame, d.Covers frame →
    s.manager.getBit frame = true

/-- Filling the gap before a descriptor sets exactly the bits between the
running end and the descriptor. -/
theorem getBit_fillGap (m : BitmapMemoryManager) (a p frame : ℕ) :
    (if 4096 * a < 4096 * p then
        m.markAllocated (4096 * a / 4096) ((4096 * p - 4096 * a) / 4096) else m).getBit frame =
      true ↔ (a ≤ frame ∧ frame < p) ∨ m.getBit frame = true := by
  split_ifs with hgap
  · rw [BitmapMemoryManager.getBit_markAllocated, Bool.or_eq_true, decide_eq_true_eq]
    have hlen : (4096 * p - 4096 * a) / 4096 = p - a := by omega
    have hstart : 4096 * a / 4096 = a := by omega
    rw [hlen, hstart]
    grind
  · have hnone : ¬ (a ≤ frame ∧ frame < p) := by omega
    simp [hnone]

theorem InitInvariant.visitDescriptor {seen : List MemoryDescriptor} {s : InitState}
    (hs : InitInvariant seen s) {d : MemoryDescriptor} (hd : d.Wf) :
    InitInvariant (seen ++ [d]) (visitDescriptor s d) := by
  obtain ⟨⟨a, ha⟩, hcovered, hmarked⟩ := hs
  obtain ⟨⟨p, hp⟩, hbound⟩ := hd
  simp only [kUEFIPageSize, kBytesPerFrame, kMaxPhysicalMemoryBytes,
    MemoryDescriptor.Covers] at ha hp hbound hcovered hmarked
  have hend : (d.physicalStart + d.numberOfPages * 4096) % 2 ^ 64 =
      4096 * (p + d.numberOfPages) := by
    rw [Nat.mod_eq_of_lt (by omega), hp]
    ring
  have hpages : d.numberOfPages * 4096 % 2 ^ 64 / 4096 = d.numberOfPages := by
    rw [Nat.mod_eq_of_lt (by omega)]
    omega
  rw [ha, Nat.mul_div_cancel_left a (by decide)] at hcovered
  simp only [MinOS.visitDescriptor, kUEFIPageSize, kBytesPerFrame, hend, hpages]
  have hgap := getBit_fillGap s.manager a p
  rw [ha, hp]
  generalize (if 4096 * a < 4096 * p then s.manager.markAllocated (4096 * a / 4096)
    ((4096 * p - 4096 * a) / 4096) else s.manager) = m₁ at hgap ⊢
  have hclear_gap : ∀ frame, m₁.getBit frame = false →
      (frame < a ∨ p ≤ frame) ∧ s.manager.getBit frame = false := by
    intro frame hclear
    have hnot := mt (hgap frame).mpr (by simp [hclear])
    push Not at hnot
    exact ⟨by have := hnot.1; omega, by simpa using hnot.2⟩
  have hframes : ∀ k, 4096 * k / 4096 = k := fun k ↦ Nat.mul_div_cancel_left k (by decide)
  cases hav : isAvailable d.type with
  | true =>
      refine ⟨⟨p + d.numberOfPages, rfl⟩, ?_, ?_⟩
      · intro frame hframe hclear
        simp only [if_true, kBytesPerFrame, hframes] at hframe hclear
        obtain ⟨hcases, hold⟩ := hclear_gap frame hclear
        by_cases hnew : p ≤ frame
        · exact ⟨d, by simp, hav, by simp only [kBytesPerFrame]; omega,
            by simp only [kBytesPerFrame, kUEFIPageSize]; omega⟩
        · obtain ⟨e, he, heav, hcov⟩ := hcovered frame (by omega) hold
          exact ⟨e, by simp [he], heav, hcov⟩
      · intro e he hun frame hcov
        have heseen : e ∈ seen := by
          rcases List.mem_append.mp he with he | he
          · exact he
          · obtain rfl : e = d := by simpa using he
            simp [hav] at hun
        exact (hgap frame).mpr (.inr (hmarked e heseen hun frame hcov))
  | false =>
      refine ⟨⟨a, rfl⟩, ?_, ?_⟩
      · intro frame hframe hclear
        simp only [Bool.false_eq_true, if_false, kBytesPerFrame, hframes] at hframe hclear
        rw [BitmapMemoryManager.getBit_markAllocated, Bool.or_eq_false_iff] at hclear
        obtain ⟨e, he, heav, hcov⟩ := hcovered frame hframe (hclear_gap frame hclear.2).2
        exact ⟨e, by simp [he], heav, hcov⟩
      · intro e he hun frame hcov
        simp only [Bool.false_eq_true, if_false, hframes]
        rw [BitmapMemoryManager.getBit_markAllocated, Bool.or_eq_true, hgap]
        rcases List.mem_append.mp he with he | he
        · exact .inr (.inr (hmarked e he hun frame hcov))
        · obtain rfl : e = d := by simpa using he
          obtain ⟨hlower, hupper⟩ := hcov
          simp only [kBytesPerFrame, kUEFIPageSize] at hlower hupper
          exact .inl (decide_eq_true ⟨by omega, by omega⟩)

theorem InitInvariant.foldl {descs seen : List MemoryDescriptor} {s : InitState}
    (hs : InitInvariant seen s) (hwf : ∀ d ∈ descs, d.Wf) :
    InitInvariant (seen ++ descs) (descs.foldl MinOS.visitDescriptor s) := by
  induction descs generalizing seen s with
  | nil => simpa using hs
  | cons d descs ih =>
      have hhead := hs.visitDescriptor (hwf d (by simp))
      have htail := ih hhead fun e he ↦ hwf e (by simp [he])
      simpa [List.append_assoc] using htail

theorem initializeHeap_rangeEnd (m : BitmapMemoryManager) :
    (initializeHeap m).2.rangeEnd = m.rangeEnd ∧ ∀ frame,
      (initializeHeap m).2.getBit frame = false → m.getBit frame = false := by
  have hfit := m.allocate_firstFit (n := kHeapFrames) (by decide)
  unfold initializeHeap
  cases halloc : m.allocate kHeapFrames with
  | mk result m' =>
      rw [halloc] at hfit
      cases result with
      | ok start =>
          obtain ⟨_, _, rfl⟩ := hfit
          refine ⟨by simp [BitmapMemoryManager.markAllocated], ?_⟩
          intro frame hclear
          rw [BitmapMemoryManager.getBit_markAllocated, Bool.or_eq_false_iff] at hclear
          exact hclear.2
      | error e =>
          obtain ⟨_, _, rfl⟩ := hfit
          exact ⟨rfl, fun _ hclear ↦ hclear⟩

/-- Whatever the order, the gaps and the types of the memory map, a frame of
the managed range whose bit is clear lies inside an available descriptor and in
no other one, so every block a later run hands out is usable memory. -/
theorem clear_frames_usable (map : Array MemoryDescriptor) (hwf : ∀ d ∈ map.toList, d.Wf) :
    (∀ frame, (initializeMemoryManager map).2.rangeBegin ≤ frame →
      frame < (initializeMemoryManager map).2.rangeEnd →
      (initializeMemoryManager map).2.getBit frame = false →
      (∃ d ∈ map.toList, isAvailable d.type = true ∧ d.Covers frame) ∧
        ∀ d ∈ map.toList, d.Covers frame → isAvailable d.type = true) ∧
    ∀ ops s, Transition.Run BitmapMemoryManager.AllocStep
        ⟨(initializeMemoryManager map).2, []⟩ ops s →
      ∀ b ∈ s.live, ∀ frame, b.Contains frame →
        (∃ d ∈ map.toList, isAvailable d.type = true ∧ d.Covers frame) ∧
          ∀ d ∈ map.toList, d.Covers frame → isAvailable d.type = true := by
  have hinit : InitInvariant [] { manager := BitmapMemoryManager.init, availableEnd := 0 } :=
    ⟨⟨0, rfl⟩, by simp, by simp⟩
  have hfold : InitInvariant ([] ++ (sortMemoryMapInPlace map).toList)
      ((sortMemoryMapInPlace map).toList.foldl visitDescriptor
        { manager := BitmapMemoryManager.init, availableEnd := 0 }) :=
    hinit.foldl fun d hd ↦ hwf d (mem_sortMemoryMapInPlace.mp hd)
  have hclear : ∀ frame, frame < (initializeMemoryManager map).2.rangeEnd →
      (initializeMemoryManager map).2.getBit frame = false →
      (∃ d ∈ map.toList, isAvailable d.type = true ∧ d.Covers frame) ∧
        ∀ d ∈ map.toList, d.Covers frame → isAvailable d.type = true := by
    intro frame hframe hbit
    unfold initializeMemoryManager at hframe hbit
    rw [(initializeHeap_rangeEnd _).1] at hframe
    have hold := (initializeHeap_rangeEnd _).2 frame hbit
    obtain ⟨d, hd, hav, hcov⟩ := hfold.clear_covered frame hframe hold
    refine ⟨⟨d, mem_sortMemoryMapInPlace.mp (by simpa using hd), hav, hcov⟩, ?_⟩
    intro e he hecov
    by_contra hun
    have hmarked := hfold.unavailable_marked e
      (by simpa using mem_sortMemoryMapInPlace.mpr he) (by simpa using hun) frame hecov
    exact absurd (hold.symm.trans hmarked) (by decide)
  refine ⟨fun frame _ hframe hbit ↦ hclear frame hframe hbit, ?_⟩
  intro ops s hrun b hb frame hframe
  have hs := hrun.invariant BitmapMemoryManager.AllocInvariant.step (.init _)
  obtain ⟨_, hend, hfree⟩ := hs.initiallyFree b hb
  obtain ⟨hlower, hupper⟩ := hframe
  exact hclear frame (by omega) (hfree frame hlower hupper)

theorem clear_frames_usable_one_descriptor :
    (initializeMemoryManager #[⟨7, 0, 16⟩]).2.getBit 5 = false ∧
      (∃ d ∈ [(⟨7, 0, 16⟩ : MemoryDescriptor)], isAvailable d.type = true ∧ d.Covers 5) ∧
        ∀ d ∈ [(⟨7, 0, 16⟩ : MemoryDescriptor)], d.Covers 5 → isAvailable d.type = true := by
  have hclear : (initializeMemoryManager #[⟨7, 0, 16⟩]).2.getBit 5 = false := by decide +kernel
  refine ⟨hclear, (clear_frames_usable #[⟨7, 0, 16⟩] ?_).1 5 ?_ ?_ hclear⟩
  · intro d hd
    obtain rfl : d = ⟨7, 0, 16⟩ := by simpa using hd
    exact ⟨by decide, by decide⟩
  · decide +kernel
  · decide +kernel

end MinOS
