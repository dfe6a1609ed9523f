import MinOS.Memory.Bitmap

/-!
# Memory statistics

`Stat` adds up the set bits of whole lines, from the line of the first frame of the
range up to the line in which the range ends, which is left out.
-/

namespace MinOS

structure MemoryStat where
  allocatedFrames : ℕ
  totalFrames : ℕ
deriving DecidableEq, Repr

/-- `std::bitset<kBitsPerMapLine>(line).count()`. -/
def lineCount (line : BitVec 64) : ℕ := (List.range kBitsPerMapLine).countP line.getLsbD

namespace BitmapMemoryManager

/-- The lines over which the loop of `Stat` goes. -/
def statLines (m : BitmapMemoryManager) : List ℕ :=
  let first := m.rangeBegin / kBitsPerMapLine
  List.range' first (m.rangeEnd / kBitsPerMapLine - first)

def stat (m : BitmapMemoryManager) : MemoryStat where
  allocatedFrames := (m.statLines.map fun i ↦ lineCount (m.allocMap i)).sum
  totalFrames := m.rangeEnd - m.rangeBegin

/-- How many of the `n` frames from `start` on have their bit set. -/
def setFrames (m : BitmapMemoryManager) (start n : ℕ) : ℕ := (List.range' start n).countP m.getBit

def clearFrames (m : BitmapMemoryManager) (start n : ℕ) : ℕ :=
  (List.range' start n).countP fun frame ↦ !m.getBit frame

/-- The statistics are those of the frames of the range. -/
structure StatExact (m : BitmapMemoryManager) : Prop where
  allocated : m.stat.allocatedFrames = m.setFrames m.rangeBegin (m.rangeEnd - m.rangeBegin)
  le_total : m.stat.allocatedFrames ≤ m.stat.totalFrames
  free : m.stat.allocatedFrames + m.clearFrames m.rangeBegin (m.rangeEnd - m.rangeBegin) =
    m.stat.totalFrames

/-- Of the frames below the range in its first line as many have their bit set as of
the frames of the range in the line in which it ends. -/
def EndsBalance (m : BitmapMemoryManager) : Prop :=
  m.setFrames (m.rangeBegin - m.rangeBegin % kBitsPerMapLine) (m.rangeBegin % kBitsPerMapLine) =
    m.setFrames (m.rangeEnd - m.rangeEnd % kBitsPerMapLine) (m.rangeEnd % kBitsPerMapLine)

instance (m : BitmapMemoryManager) : Decidable m.EndsBalance := inferInstanceAs (Decidable (_ = _))

inductive Call where
  | allocate (numFrames : ℕ)
  | free (startFrame numFrames : ℕ)

def call (m : BitmapMemoryManager) : Call → BitmapMemoryManager
  | .allocate numFrames => (m.allocate numFrames).2
  | .free startFrame numFrames => m.free startFrame numFrames

/-! ## Counting -/

theorem setFrames_add (m : BitmapMemoryManager) (start n k : ℕ) :
    m.setFrames start (n + k) = m.setFrames start n + m.setFrames (start + n) k := by
  rw [setFrames, setFrames, setFrames, ← List.countP_append, List.range'_append_1]

theorem setFrames_add_clearFrames (m : BitmapMemoryManager) (start n : ℕ) :
    m.setFrames start n + m.clearFrames start n = n := by
  have hsplit := List.length_eq_countP_add_countP m.getBit (l := List.range' start n)
  rw [List.length_range'] at hsplit
  simpa [setFrames, clearFrames] using hsplit.symm

theorem lineCount_eq (m : BitmapMemoryManager) (i : ℕ) :
    lineCount (m.allocMap i) = m.setFrames (64 * i) 64 := by
  rw [lineCount, setFrames, List.range'_eq_map_range, List.countP_map]
  apply List.countP_congr
  intro k hk
  have hlt : k < 64 := List.mem_range.mp hk
  rw [Function.comp_apply, getBit_eq_getLsbD, Nat.mul_add_div (by decide), Nat.mul_add_mod,
    Nat.div_eq_of_lt hlt, Nat.mod_eq_of_lt hlt, Nat.add_zero]

theorem sum_lineCount (m : BitmapMemoryManager) (first n : ℕ) :
    ((List.range' first n).map fun i ↦ lineCount (m.allocMap i)).sum =
      m.setFrames (64 * first) (64 * n) := by
  induction n generalizing first with
  | zero => rfl
  | succ n ih =>
      rw [List.range'_succ, List.map_cons, List.sum_cons, ih, lineCount_eq,
        show 64 * (n + 1) = 64 + 64 * n by omega, setFrames_add, Nat.mul_succ]

theorem stat_allocatedFrames (m : BitmapMemoryManager) :
    m.stat.allocatedFrames = m.setFrames (m.rangeBegin - m.rangeBegin % 64)
      (m.rangeEnd - m.rangeEnd % 64 - (m.rangeBegin - m.rangeBegin % 64)) := by
  have hbegin : m.rangeBegin - m.rangeBegin % 64 = 64 * (m.rangeBegin / 64) := by omega
  have hend : m.rangeEnd - m.rangeEnd % 64 = 64 * (m.rangeEnd / 64) := by omega
  rw [hbegin, hend, ← Nat.mul_sub]
  exact m.sum_lineCount _ _

/-- Both ends cut the frames between the line of the first frame and the end of the range
in two. -/
theorem setFrames_ends (m : BitmapMemoryManager) (hrange : m.rangeBegin ≤ m.rangeEnd) :
    m.stat.allocatedFrames +
        m.setFrames (m.rangeEnd - m.rangeEnd % 64) (m.rangeEnd % 64) =
      m.setFrames (m.rangeBegin - m.rangeBegin % 64) (m.rangeBegin % 64) +
        m.setFrames m.rangeBegin (m.rangeEnd - m.rangeBegin) := by
  have hlines : m.rangeBegin / 64 ≤ m.rangeEnd / 64 := Nat.div_le_div_right hrange
  have hlast := m.setFrames_add (m.rangeBegin - m.rangeBegin % 64)
    (m.rangeEnd - m.rangeEnd % 64 - (m.rangeBegin - m.rangeBegin % 64)) (m.rangeEnd % 64)
  have hfirst := m.setFrames_add (m.rangeBegin - m.rangeBegin % 64) (m.rangeBegin % 64)
    (m.rangeEnd - m.rangeBegin)
  rw [show m.rangeBegin - m.rangeBegin % 64 +
      (m.rangeEnd - m.rangeEnd % 64 - (m.rangeBegin - m.rangeBegin % 64)) =
        m.rangeEnd - m.rangeEnd % 64 by omega] at hlast
  rw [show m.rangeBegin - m.rangeBegin % 64 + m.rangeBegin % 64 = m.rangeBegin by omega,
    show m.rangeBegin % 64 + (m.rangeEnd - m.rangeBegin) =
      m.rangeEnd - m.rangeEnd % 64 - (m.rangeBegin - m.rangeBegin % 64) + m.rangeEnd % 64 by omega]
    at hfirst
  rw [stat_allocatedFrames, ← hlast, hfirst]

/-! ## The range stays -/

theorem allocateFrom_range (m : BitmapMemoryManager) (n turns start : ℕ) :
    (m.allocateFrom n turns start).2.rangeBegin = m.rangeBegin ∧
      (m.allocateFrom n turns start).2.rangeEnd = m.rangeEnd := by
  induction turns generalizing start with
  | zero => exact ⟨rfl, rfl⟩
  | succ turns ih =>
      rw [allocateFrom]
      cases m.scan start 0 n with
      | exhausted => exact ⟨rfl, rfl⟩
      | busy i => exact ih _
      | free => exact ⟨setBits_rangeBegin .., setBits_rangeEnd ..⟩

theorem call_range (m : BitmapMemoryManager) (c : Call) :
    (m.call c).rangeBegin = m.rangeBegin ∧ (m.call c).rangeEnd = m.rangeEnd := by
  cases c with
  | allocate n => exact m.allocateFrom_range n _ _
  | free start n => exact ⟨setBits_rangeBegin .., setBits_rangeEnd ..⟩

theorem calls_range (m : BitmapMemoryManager) (calls : List Call) :
    (calls.foldl call m).rangeBegin = m.rangeBegin ∧ (calls.foldl call m).rangeEnd = m.rangeEnd := by
  induction calls generalizing m with
  | nil => exact ⟨rfl, rfl⟩
  | cons c calls ih =>
      obtain ⟨hbegin, hend⟩ := ih (m.call c)
      obtain ⟨hbegin', hend'⟩ := m.call_range c
      exact ⟨hbegin.trans hbegin', hend.trans hend'⟩

theorem statExact_iff (m : BitmapMemoryManager) (hrange : m.rangeBegin ≤ m.rangeEnd) :
    m.StatExact ↔ m.EndsBalance := by
  have hends := m.setFrames_ends hrange
  have hall := m.setFrames_add_clearFrames m.rangeBegin (m.rangeEnd - m.rangeBegin)
  have htotal : m.stat.totalFrames = m.rangeEnd - m.rangeBegin := rfl
  rw [EndsBalance, kBitsPerMapLine]
  constructor
  · intro hexact
    have hallocated := hexact.allocated
    omega
  · intro hbalance
    exact ⟨by omega, by omega, by omega⟩

/-- After any calls of `Allocate` and `Free` the statistics are exact exactly when the
partial lines at the two ends of the range have as many set bits. -/
theorem statExact_calls_iff (m : BitmapMemoryManager) (hrange : m.rangeBegin ≤ m.rangeEnd)
    (calls : List Call) :
    (calls.foldl call m).StatExact ↔ (calls.foldl call m).EndsBalance := by
  obtain ⟨hbegin, hend⟩ := m.calls_range calls
  exact statExact_iff _ (by rwa [hbegin, hend])

def single (frame : ℕ) : BitmapMemoryManager := init.setBit frame true

theorem setFrames_single (frame first last start n : ℕ) :
    (⟨(single frame).allocMap, first, last⟩ : BitmapMemoryManager).setFrames start n =
      if start ≤ frame ∧ frame < start + n then 1 else 0 := by
  have hbit : ∀ other, (⟨(single frame).allocMap, first, last⟩ : BitmapMemoryManager).getBit other =
      decide (other = frame) := by
    intro other
    have hinit : init.getBit other = false := by
      rw [getBit_eq_getLsbD]
      exact BitVec.getLsbD_zero
    change (init.setBit frame true).getBit other = _
    rw [getBit_setBit, hinit]
    split_ifs with heq <;> simp [heq]
  have hcount : (⟨(single frame).allocMap, first, last⟩ : BitmapMemoryManager).setFrames start n =
      (List.range' start n).count frame := by
    rw [setFrames, List.count]
    apply List.countP_congr
    intro other _
    rw [hbit, decide_eq_true_iff, beq_iff_eq]
  rw [hcount, List.Nodup.count List.nodup_range']
  simp only [List.mem_range'_1]

/-- Whatever the bitmap, this is so for the empty range and for whole lines, and for no
other range. -/
theorem forall_statExact_iff {first last : ℕ} (hrange : first ≤ last) :
    (∀ map, (⟨map, first, last⟩ : BitmapMemoryManager).StatExact) ↔
      first = last ∨ 64 ∣ first ∧ 64 ∣ last := by
  have hiff : ∀ map, (⟨map, first, last⟩ : BitmapMemoryManager).StatExact ↔
      (⟨map, first, last⟩ : BitmapMemoryManager).EndsBalance :=
    fun map ↦ statExact_iff ⟨map, first, last⟩ hrange
  constructor
  · intro hall
    by_contra hnot
    push Not at hnot
    obtain ⟨hne, hnot⟩ := hnot
    by_cases hlast : 64 ∣ last
    · -- the frame below the range is counted
      have hfirst : ¬ 64 ∣ first := fun hfirst ↦ hnot hfirst hlast
      have hexact := (hall (single (first - 1)).allocMap).allocated
      rw [stat_allocatedFrames, setFrames_single, setFrames_single] at hexact
      dsimp only at hexact
      rw [if_pos (by omega), if_neg (by omega)] at hexact
      omega
    · -- the last frame of the range is not counted
      have hexact := (hall (single (last - 1)).allocMap).allocated
      rw [stat_allocatedFrames, setFrames_single, setFrames_single] at hexact
      dsimp only at hexact
      rw [if_neg (by omega), if_pos (by omega)] at hexact
      omega
  · rintro (rfl | ⟨hfirst, hlast⟩) map
    · exact (hiff map).mpr rfl
    · apply (hiff map).mpr
      have hzero : first % 64 = 0 ∧ last % 64 = 0 := by omega
      rw [EndsBalance, kBitsPerMapLine, hzero.1, hzero.2]
      rfl

/-- Whole lines: both ends are multiples of 64. -/
theorem statExact_calls_wholeLines :
    ([.allocate 3, .free 65 1].foldl call (init.setMemoryRange 64 192)).StatExact :=
  (statExact_calls_iff (init.setMemoryRange 64 192) (by decide) [.allocate 3, .free 65 1]).mpr
    (by decide)

/-- A range that begins at frame 1, as the kernel sets it, with frame 0 marked. -/
theorem not_statExact_frame0 :
    ((init.markAllocated 0 1).setMemoryRange 1 64).stat = ⟨1, 63⟩ ∧
    ((init.markAllocated 0 1).setMemoryRange 1 64).setFrames 1 63 = 0 ∧
    ¬ ((init.markAllocated 0 1).setMemoryRange 1 64).StatExact := by
  refine ⟨by decide, by decide, ?_⟩
  intro hexact
  exact absurd hexact.allocated (by decide)

end BitmapMemoryManager
end MinOS
