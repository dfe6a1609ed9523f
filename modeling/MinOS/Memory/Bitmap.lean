import Mathlib.Data.BitVec
import Mathlib.Data.Set.Basic
import Mathlib.Tactic
import MinOS.Library.Transition

/-!
# The bitmap frame allocator

`BitmapMemoryManager` of `memory_manager.cpp`: one bit for every 4 KiB frame,
packed in 64-bit lines, and a first-fit search that restarts just past the
first busy frame it meets.
-/

namespace MinOS

/-- The error codes of `error.hpp` that the modelled functions return. -/
inductive Error where
  | kFull
  | kNoEnoughMemory
  | kIndexOutOfRange
  | kAlreadyAllocated
  | kNoSuchTask
  | kInvalidFormat
  | kInvalidFile
  | kIsDirectory
  | kNoSuchEntry
deriving DecidableEq, Repr

def kBytesPerFrame : ℕ := 4096

def kMaxPhysicalMemoryBytes : ℕ := 128 * 1024 * 1024 * 1024

def kFrameCount : ℕ := kMaxPhysicalMemoryBytes / kBytesPerFrame

def kBitsPerMapLine : ℕ := 64

/-- The allocator object.  The array `alloc_map_` of `kFrameCount /
kBitsPerMapLine` lines is a function of the line index. -/
structure BitmapMemoryManager where
  allocMap : ℕ → BitVec 64
  rangeBegin : ℕ
  rangeEnd : ℕ

namespace BitmapMemoryManager

/-- The state built by the constructor. -/
def init : BitmapMemoryManager where
  allocMap := fun _ ↦ 0
  rangeBegin := 0
  rangeEnd := kFrameCount

def getBit (m : BitmapMemoryManager) (frame : ℕ) : Bool :=
  let lineIndex := frame / kBitsPerMapLine
  let bitIndex := frame % kBitsPerMapLine
  (m.allocMap lineIndex &&& (1#64 <<< bitIndex)) != 0#64

def setBit (m : BitmapMemoryManager) (frame : ℕ) (allocated : Bool) :
    BitmapMemoryManager :=
  let lineIndex := frame / kBitsPerMapLine
  let bitIndex := frame % kBitsPerMapLine
  let line := m.allocMap lineIndex
  { m with
    allocMap := Function.update m.allocMap lineIndex
      (if allocated then line ||| (1#64 <<< bitIndex) else line &&& ~~~(1#64 <<< bitIndex)) }

/-- The loop shared by `MarkAllocated` and `Free`: `SetBit` on consecutive
frames, in increasing order. -/
def setBits (m : BitmapMemoryManager) (startFrame : ℕ) (allocated : Bool) :
    ℕ → BitmapMemoryManager
  | 0 => m
  | i + 1 => (m.setBits startFrame allocated i).setBit (startFrame + i) allocated

def markAllocated (m : BitmapMemoryManager) (startFrame : ℕ) (numFrames : ℕ) :
    BitmapMemoryManager :=
  m.setBits startFrame true numFrames

def free (m : BitmapMemoryManager) (startFrame : ℕ) (numFrames : ℕ) :
    BitmapMemoryManager :=
  m.setBits startFrame false numFrames

def setMemoryRange (m : BitmapMemoryManager) (rangeBegin rangeEnd : ℕ) :
    BitmapMemoryManager :=
  { m with rangeBegin := rangeBegin, rangeEnd := rangeEnd }

/-- How the inner loop of `Allocate` ends: past the range, at a busy frame, or
with every wanted frame free. -/
inductive Scan where
  | exhausted
  | busy (i : ℕ)
  | free
deriving DecidableEq, Repr

/-- The inner loop of `Allocate`, with `remaining` further frames wanted from
offset `i` on. -/
def scan (m : BitmapMemoryManager) (startFrameId : ℕ) : ℕ → ℕ → Scan
  | _, 0 => .free
  | i, remaining + 1 =>
      if startFrameId + i ≥ m.rangeEnd then .exhausted
      else if m.getBit (startFrameId + i) then .busy i
      else m.scan startFrameId (i + 1) remaining

/-- The outer loop of `Allocate`.  Every restart moves past a frame of the
range, so as many turns as the range has frames, and one more, are enough. -/
def allocateFrom (m : BitmapMemoryManager) (numFrames : ℕ) :
    ℕ → ℕ → Except Error ℕ × BitmapMemoryManager
  | 0, _ => (.error .kNoEnoughMemory, m)
  | turns + 1, startFrameId =>
      match m.scan startFrameId 0 numFrames with
      | .exhausted => (.error .kNoEnoughMemory, m)
      | .free => (.ok startFrameId, m.markAllocated startFrameId numFrames)
      | .busy i => m.allocateFrom numFrames turns (startFrameId + i + 1)

def allocate (m : BitmapMemoryManager) (numFrames : ℕ) :
    Except Error ℕ × BitmapMemoryManager :=
  m.allocateFrom numFrames (m.rangeEnd - m.rangeBegin + 1) m.rangeBegin

/-! ## Single bits -/

@[simp] theorem setBit_rangeBegin (m : BitmapMemoryManager) (frame : ℕ) (b : Bool) :
    (m.setBit frame b).rangeBegin = m.rangeBegin := rfl

@[simp] theorem setBit_rangeEnd (m : BitmapMemoryManager) (frame : ℕ) (b : Bool) :
    (m.setBit frame b).rangeEnd = m.rangeEnd := rfl

/-- Reading a bit by its mask is reading the bit of the line. -/
theorem getBit_eq_getLsbD (m : BitmapMemoryManager) (frame : ℕ) :
    m.getBit frame = (m.allocMap (frame / 64)).getLsbD (frame % 64) := by
  have hlt : frame % 64 < 64 := Nat.mod_lt _ (by decide)
  have hmask : ∀ w : BitVec 64,
      (w &&& (1#64 <<< (frame % 64))) = 0#64 ↔ w.getLsbD (frame % 64) = false := by
    intro w
    constructor
    · intro h
      have hbit := congrArg (fun v : BitVec 64 ↦ v.getLsbD (frame % 64)) h
      simpa [hlt] using hbit
    · intro h
      apply BitVec.eq_of_getLsbD_eq
      intro i hi
      by_cases heq : i = frame % 64
      · subst heq
        simp [h]
      · have hshift : (1#64 <<< (frame % 64)).getLsbD i = false := by
          simp only [BitVec.getLsbD_shiftLeft, BitVec.getLsbD_one]
          grind
        simp [hshift]
  unfold getBit kBitsPerMapLine
  cases hbit : (m.allocMap (frame / 64)).getLsbD (frame % 64) with
  | false => simpa using (hmask _).mpr hbit
  | true =>
      have hne : ¬ (m.allocMap (frame / 64) &&& (1#64 <<< (frame % 64))) = 0#64 := by
        rw [hmask, hbit]
        decide
      simpa using hne

theorem getBit_setBit (m : BitmapMemoryManager) (frame other : ℕ) (b : Bool) :
    (m.setBit frame b).getBit other = if other = frame then b else m.getBit other := by
  have hlt : other % 64 < 64 := Nat.mod_lt _ (by decide)
  simp only [getBit_eq_getLsbD, setBit, kBitsPerMapLine]
  by_cases hline : other / 64 = frame / 64
  · have hone : (1#64 <<< (frame % 64)).getLsbD (other % 64) = decide (other = frame) := by
      simp only [BitVec.getLsbD_shiftLeft, BitVec.getLsbD_one]
      by_cases h : other = frame
      · subst h
        simp [hlt]
      · have hmod : other % 64 ≠ frame % 64 := by omega
        grind
    rw [hline, Function.update_self]
    cases b with
    | false =>
        simp only [Bool.false_eq_true, if_false, BitVec.getLsbD_and, BitVec.getLsbD_not, hone]
        split_ifs with h <;> simp [h, hlt]
    | true =>
        simp only [if_true, BitVec.getLsbD_or, hone]
        split_ifs with h <;> simp [h]
  · have hne : other ≠ frame := by
      rintro rfl
      exact hline rfl
    rw [Function.update_of_ne hline, if_neg hne]

/-! ## Blocks of consecutive frames -/

@[simp] theorem setBits_rangeBegin (m : BitmapMemoryManager) (s : ℕ) (b : Bool) (n : ℕ) :
    (m.setBits s b n).rangeBegin = m.rangeBegin := by
  induction n with
  | zero => rfl
  | succ n ih => simpa [setBits] using ih

@[simp] theorem setBits_rangeEnd (m : BitmapMemoryManager) (s : ℕ) (b : Bool) (n : ℕ) :
    (m.setBits s b n).rangeEnd = m.rangeEnd := by
  induction n with
  | zero => rfl
  | succ n ih => simpa [setBits] using ih

theorem getBit_setBits (m : BitmapMemoryManager) (s frame : ℕ) (b : Bool) (n : ℕ) :
    (m.setBits s b n).getBit frame =
      if s ≤ frame ∧ frame < s + n then b else m.getBit frame := by
  induction n with
  | zero =>
      have hnot : ¬ (s ≤ frame ∧ frame < s + 0) := by omega
      rw [setBits, if_neg hnot]
  | succ n ih =>
      rw [setBits, getBit_setBit, ih]
      grind

theorem getBit_markAllocated (m : BitmapMemoryManager) (s frame : ℕ) (n : ℕ) :
    (m.markAllocated s n).getBit frame =
      (decide (s ≤ frame ∧ frame < s + n) || m.getBit frame) := by
  rw [markAllocated, getBit_setBits]
  split_ifs with h <;> simp [h]

theorem getBit_free (m : BitmapMemoryManager) (s frame : ℕ) (n : ℕ) :
    (m.free s n).getBit frame =
      (!decide (s ≤ frame ∧ frame < s + n) && m.getBit frame) := by
  rw [free, getBit_setBits]
  split_ifs with h <;> simp [h]

/-! ## First fit -/

/-- `n` consecutive frames of the range, from `start` on, with their bits clear. -/
def FreeBlock (m : BitmapMemoryManager) (n start : ℕ) : Prop :=
  m.rangeBegin ≤ start ∧ start + n ≤ m.rangeEnd ∧
    ∀ frame, start ≤ frame → frame < start + n → m.getBit frame = false

/-- What `Allocate` promises: the lowest free block, marked, or a failure that
changes nothing and only happens when there is no free block at all. -/
def FirstFit (m : BitmapMemoryManager) (n : ℕ) :
    Except Error ℕ × BitmapMemoryManager → Prop
  | (.ok start, m') =>
      m.FreeBlock n start ∧ (∀ other, other < start → ¬ m.FreeBlock n other) ∧
        m' = m.markAllocated start n
  | (.error e, m') => e = .kNoEnoughMemory ∧ (∀ other, ¬ m.FreeBlock n other) ∧ m' = m

theorem scan_free (m : BitmapMemoryManager) (start i remaining : ℕ)
    (h : m.scan start i remaining = .free) :
    ∀ frame, start + i ≤ frame → frame < start + i + remaining →
      frame < m.rangeEnd ∧ m.getBit frame = false := by
  induction remaining generalizing i with
  | zero =>
      intro frame hlower hupper
      omega
  | succ remaining ih =>
      intro frame hlower hupper
      rw [scan] at h
      split_ifs at h with hend hbusy
      by_cases heq : frame = start + i
      · subst heq
        exact ⟨by omega, by simpa using hbusy⟩
      · exact ih (i + 1) h frame (by omega) (by omega)

theorem scan_busy (m : BitmapMemoryManager) (start i remaining j : ℕ)
    (h : m.scan start i remaining = .busy j) :
    i ≤ j ∧ j < i + remaining ∧ start + j < m.rangeEnd ∧ m.getBit (start + j) = true := by
  induction remaining generalizing i with
  | zero => simp [scan] at h
  | succ remaining ih =>
      rw [scan] at h
      split_ifs at h with hend hbusy
      · obtain rfl : i = j := by simpa using h
        exact ⟨le_rfl, by omega, by omega, hbusy⟩
      · obtain ⟨hij, hj, hrest⟩ := ih (i + 1) h
        exact ⟨by omega, by omega, hrest⟩

theorem scan_exhausted (m : BitmapMemoryManager) (start i remaining : ℕ)
    (h : m.scan start i remaining = .exhausted) : m.rangeEnd < start + i + remaining := by
  induction remaining generalizing i with
  | zero => simp [scan] at h
  | succ remaining ih =>
      rw [scan] at h
      split_ifs at h with hend hbusy
      · omega
      · have := ih (i + 1) h
        omega

/-- The search invariant: no start below the current one can succeed.  A busy
frame at offset `i` rules out every start up to and including it, which is why
the search may restart just past it. -/
theorem allocateFrom_firstFit (m : BitmapMemoryManager) {n : ℕ} (hn : 1 ≤ n)
    (turns start : ℕ) (hturns : m.rangeEnd < start + turns) (hbegin : m.rangeBegin ≤ start)
    (hskipped : ∀ other, other < start → ¬ m.FreeBlock n other) :
    m.FirstFit n (m.allocateFrom n turns start) := by
  induction turns generalizing start with
  | zero =>
      refine ⟨rfl, ?_, rfl⟩
      rintro other ⟨_, hend, _⟩
      exact hskipped other (by omega) ⟨by omega, hend, by assumption⟩
  | succ turns ih =>
      rw [allocateFrom]
      cases hscan : m.scan start 0 n with
      | exhausted =>
          have hend := m.scan_exhausted start 0 n hscan
          refine ⟨rfl, ?_, rfl⟩
          intro other hother
          by_cases hlt : other < start
          · exact hskipped other hlt hother
          · have := hother.2.1
            omega
      | free =>
          have hfree := m.scan_free start 0 n hscan
          have hlast := (hfree (start + n - 1) (by omega) (by omega)).1
          exact ⟨⟨hbegin, by omega, fun frame hlower hupper ↦
            (hfree frame (by omega) (by omega)).2⟩, hskipped, rfl⟩
      | busy i =>
          obtain ⟨_, hi, hlt, hbusy⟩ := m.scan_busy start 0 n i hscan
          apply ih (start + i + 1) (by omega) (by omega)
          intro other hother hblock
          by_cases hbelow : other < start
          · exact hskipped other hbelow hblock
          · have hclear := hblock.2.2 (start + i) (by omega) (by omega)
            simp [hclear] at hbusy

theorem allocate_firstFit (m : BitmapMemoryManager) {n : ℕ} (hn : 1 ≤ n) :
    m.FirstFit n (m.allocate n) := by
  apply m.allocateFrom_firstFit hn
  · omega
  · exact le_rfl
  · rintro other hlt ⟨hbegin, _⟩
    omega

/-! ## Runs of the allocator -/

/-- A block as `Allocate` returned it: its first frame and its length. -/
structure Block where
  start : ℕ
  frames : ℕ
deriving DecidableEq, Repr

def Block.Contains (b : Block) (frame : ℕ) : Prop :=
  b.start ≤ frame ∧ frame < b.start + b.frames

/-- The allocator together with the blocks that were allocated and not yet
freed. -/
structure AllocState where
  manager : BitmapMemoryManager
  live : List Block

inductive AllocOp where
  | allocate (n : ℕ)
  | free (b : Block)

/-- The callers' protocol: any positive number of frames may be requested, and
exactly the returned blocks are given back. -/
inductive AllocStep : AllocState → AllocOp → AllocState → Prop where
  | allocated {s : AllocState} {n start : ℕ} {m' : BitmapMemoryManager} (hn : 1 ≤ n)
      (h : s.manager.allocate n = (.ok start, m')) :
      AllocStep s (.allocate n) ⟨m', ⟨start, n⟩ :: s.live⟩
  | failed {s : AllocState} {n : ℕ} {e : Error} {m' : BitmapMemoryManager} (hn : 1 ≤ n)
      (h : s.manager.allocate n = (.error e, m')) :
      AllocStep s (.allocate n) ⟨m', s.live⟩
  | freed {s : AllocState} {b : Block} (hb : b ∈ s.live) :
      AllocStep s (.free b) ⟨s.manager.free b.start b.frames, s.live.erase b⟩

/-- The bitmap is the initial one with the live blocks added, and the live
blocks are disjoint free blocks of the initial range. -/
structure AllocInvariant (m₀ : BitmapMemoryManager) (s : AllocState) : Prop where
  rangeBegin : s.manager.rangeBegin = m₀.rangeBegin
  rangeEnd : s.manager.rangeEnd = m₀.rangeEnd
  disjoint : s.live.Pairwise fun a b ↦ ∀ frame, a.Contains frame → ¬ b.Contains frame
  initiallyFree : ∀ b ∈ s.live, m₀.FreeBlock b.frames b.start
  bitmap : ∀ frame, s.manager.getBit frame = true ↔
    m₀.getBit frame = true ∨ ∃ b ∈ s.live, b.Contains frame

theorem AllocInvariant.init (m₀ : BitmapMemoryManager) : AllocInvariant m₀ ⟨m₀, []⟩ where
  rangeBegin := rfl
  rangeEnd := rfl
  disjoint := .nil
  initiallyFree := by simp
  bitmap := by simp

theorem AllocInvariant.allocated {m₀ : BitmapMemoryManager} {s : AllocState}
    (hs : AllocInvariant m₀ s) {n start : ℕ} (hblock : s.manager.FreeBlock n start) :
    AllocInvariant m₀ ⟨s.manager.markAllocated start n, ⟨start, n⟩ :: s.live⟩ := by
  have hclear : ∀ frame, start ≤ frame → frame < start + n →
      m₀.getBit frame = false ∧ ∀ b ∈ s.live, ¬ b.Contains frame := by
    intro frame hlower hupper
    have hbit := hblock.2.2 frame hlower hupper
    have hnot := mt (hs.bitmap frame).mpr (by simp [hbit])
    push Not at hnot
    exact ⟨by simpa using hnot.1, hnot.2⟩
  refine ⟨?_, ?_, ?_, ?_, ?_⟩
  · simpa [markAllocated] using hs.rangeBegin
  · simpa [markAllocated] using hs.rangeEnd
  · refine List.pairwise_cons.mpr ⟨?_, hs.disjoint⟩
    intro b hb frame hframe
    exact (hclear frame hframe.1 hframe.2).2 b hb
  · intro b hb
    rcases List.mem_cons.mp hb with rfl | hb
    · exact ⟨hs.rangeBegin ▸ hblock.1, hs.rangeEnd ▸ hblock.2.1,
        fun frame hlower hupper ↦ (hclear frame hlower hupper).1⟩
    · exact hs.initiallyFree b hb
  · intro frame
    rw [getBit_markAllocated, Bool.or_eq_true, hs.bitmap frame]
    simp only [decide_eq_true_eq, List.exists_mem_cons_iff, Block.Contains]
    tauto

theorem AllocInvariant.freed {m₀ : BitmapMemoryManager} {s : AllocState}
    (hs : AllocInvariant m₀ s) {b : Block} (hb : b ∈ s.live) :
    AllocInvariant m₀ ⟨s.manager.free b.start b.frames, s.live.erase b⟩ := by
  have hperm : s.live.Perm (b :: s.live.erase b) := List.perm_cons_erase hb
  have hpair : (b :: s.live.erase b).Pairwise
      fun a b ↦ ∀ frame, a.Contains frame → ¬ b.Contains frame :=
    hperm.pairwise hs.disjoint fun h frame ha hb ↦ h frame hb ha
  rw [List.pairwise_cons] at hpair
  refine ⟨?_, ?_, hpair.2, ?_, ?_⟩
  · simpa [free] using hs.rangeBegin
  · simpa [free] using hs.rangeEnd
  · intro c hc
    exact hs.initiallyFree c (List.mem_of_mem_erase hc)
  · intro frame
    have hmem : (∃ c ∈ s.live, c.Contains frame) ↔
        b.Contains frame ∨ ∃ c ∈ s.live.erase b, c.Contains frame := by
      simp only [hperm.mem_iff, List.exists_mem_cons_iff]
    have hinitial : b.Contains frame → m₀.getBit frame = false := fun h ↦
      (hs.initiallyFree b hb).2.2 frame h.1 h.2
    have hother : b.Contains frame → ¬ ∃ c ∈ s.live.erase b, c.Contains frame := by
      rintro h ⟨c, hc, hframe⟩
      exact hpair.1 c hc frame h hframe
    have hbit : (s.manager.free b.start b.frames).getBit frame = true ↔
        ¬ b.Contains frame ∧ s.manager.getBit frame = true := by
      rw [getBit_free, Bool.and_eq_true, Bool.not_eq_true', decide_eq_false_iff_not]
      rfl
    rw [hbit, hs.bitmap frame, hmem]
    by_cases hin : b.Contains frame
    · simp [hin, hinitial hin, hother hin]
    · simp [hin]

theorem AllocInvariant.step {m₀ : BitmapMemoryManager} (s : AllocState) (op : AllocOp)
    (t : AllocState) (hs : AllocInvariant m₀ s) (hstep : AllocStep s op t) :
    AllocInvariant m₀ t := by
  cases hstep with
  | allocated hn h =>
      have hfit := s.manager.allocate_firstFit hn
      rw [h] at hfit
      obtain ⟨hblock, _, rfl⟩ := hfit
      exact hs.allocated hblock
  | failed hn h =>
      have hfit := s.manager.allocate_firstFit hn
      rw [h] at hfit
      obtain ⟨_, _, rfl⟩ := hfit
      exact hs
  | freed hb => exact hs.freed hb

/-- Over any run from any bitmap, the live blocks are disjoint blocks of the
range that were free at the start, the bitmap is the initial one plus the live
blocks, and in every state reached `Allocate` is an exact first fit. -/
theorem live_blocks_of_run (m₀ : BitmapMemoryManager) (hrange : m₀.rangeEnd ≤ kFrameCount)
    {ops : List AllocOp} {s : AllocState}
    (hrun : Transition.Run AllocStep ⟨m₀, []⟩ ops s) :
    (s.live.Pairwise fun a b ↦ ∀ frame, a.Contains frame → ¬ b.Contains frame) ∧
      (∀ b ∈ s.live, ∀ frame, b.Contains frame →
        m₀.rangeBegin ≤ frame ∧ frame < m₀.rangeEnd ∧ frame < kFrameCount ∧
          m₀.getBit frame = false) ∧
      (∀ frame, s.manager.getBit frame = true ↔
        m₀.getBit frame = true ∨ ∃ b ∈ s.live, b.Contains frame) ∧
      (s.manager.rangeBegin = m₀.rangeBegin ∧ s.manager.rangeEnd = m₀.rangeEnd) ∧
      ∀ n, 1 ≤ n → s.manager.FirstFit n (s.manager.allocate n) := by
  have hs : AllocInvariant m₀ s := hrun.invariant AllocInvariant.step (.init m₀)
  refine ⟨hs.disjoint, ?_, hs.bitmap, ⟨hs.rangeBegin, hs.rangeEnd⟩, ?_⟩
  · intro b hb frame hframe
    obtain ⟨hbegin, hend, hclear⟩ := hs.initiallyFree b hb
    obtain ⟨hlower, hupper⟩ := hframe
    exact ⟨by omega, by omega, by omega, hclear frame hlower hupper⟩
  · intro n hn
    exact s.manager.allocate_firstFit hn

theorem firstFit_after_one_allocation :
    ((init.setMemoryRange 1 3).markAllocated 1 1).FirstFit 1
      (((init.setMemoryRange 1 3).markAllocated 1 1).allocate 1) :=
  (live_blocks_of_run (init.setMemoryRange 1 3) (by decide)
    (Transition.Run.single (AllocStep.allocated (n := 1) le_rfl rfl))).2.2.2.2 1 le_rfl

end BitmapMemoryManager
end MinOS
