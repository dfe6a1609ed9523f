import Mathlib.Data.BitVec
import Mathlib.Tactic

/-!
# Page map entries and linear addresses

The unions `PageMapEntry` and `LinearAddress4Level` of `paging.hpp`.  Every
table of the page maps is one frame, so an entry's pointer is a frame number.
-/

namespace MinOS
namespace Paging

abbrev PageMapEntry := BitVec 64

namespace PageMapEntry

def present (e : PageMapEntry) : Bool := e.getLsbD 0

def writable (e : PageMapEntry) : Bool := e.getLsbD 1

def user (e : PageMapEntry) : Bool := e.getLsbD 2

def hugePage (e : PageMapEntry) : Bool := e.getLsbD 7

/-- The frame of `Pointer()`: the bit field `addr`. -/
def pointer (e : PageMapEntry) : ℕ := (e.extractLsb' 12 40).toNat

/-- Assignment to the one-bit field at position `k`. -/
def setFlag (e : PageMapEntry) (k : ℕ) (b : Bool) : PageMapEntry :=
  if b then e ||| (1#64 <<< k) else e &&& ~~~(1#64 <<< k)

def setPointer (e : PageMapEntry) (frame : ℕ) : PageMapEntry :=
  (e &&& ~~~0x000ffffffffff000#64) ||| ((BitVec.ofNat 40 frame).setWidth 64 <<< 12)

theorem getLsbD_oneShift {k : ℕ} (hk : k < 64) (i : ℕ) :
    (1#64 <<< k).getLsbD i = decide (i = k) := by
  simp only [BitVec.getLsbD_shiftLeft, BitVec.getLsbD_one]
  grind

theorem getLsbD_setFlag (e : PageMapEntry) {k : ℕ} (hk : k < 64) (b : Bool) (i : ℕ) :
    (e.setFlag k b).getLsbD i = if i = k then b else e.getLsbD i := by
  cases b with
  | false =>
      simp only [setFlag, Bool.false_eq_true, if_false, BitVec.getLsbD_and, BitVec.getLsbD_not,
        getLsbD_oneShift hk]
      split_ifs with h
      · simp [h]
      · by_cases hi : i < 64
        · simp [h, hi]
        · simp [BitVec.getLsbD_of_ge e i (by omega)]
  | true =>
      simp only [setFlag, if_true, BitVec.getLsbD_or, getLsbD_oneShift hk]
      split_ifs with h <;> simp [h]

theorem pointer_setFlag (e : PageMapEntry) {k : ℕ} (hk : k < 12) (b : Bool) :
    (e.setFlag k b).pointer = e.pointer := by
  unfold pointer
  congr 1
  apply BitVec.eq_of_getLsbD_eq
  intro i hi
  have hne : ¬ 12 + i = k := by omega
  simp only [BitVec.getLsbD_extractLsb', getLsbD_setFlag e (hk.trans (by decide)), if_neg hne]

theorem getLsbD_addrMask (i : ℕ) :
    (0x000ffffffffff000#64).getLsbD i = decide (12 ≤ i ∧ i < 52) := by
  by_cases hi : i < 64
  · interval_cases i <;> decide
  · rw [BitVec.getLsbD_of_ge _ _ (by omega)]
    symm
    simp only [decide_eq_false_iff_not]
    omega

theorem getLsbD_setPointer (e : PageMapEntry) (frame : ℕ) {i : ℕ} (hi : i < 12) :
    (e.setPointer frame).getLsbD i = e.getLsbD i := by
  have hmask : ¬ (12 ≤ i ∧ i < 52) := by omega
  simp only [setPointer, BitVec.getLsbD_or, BitVec.getLsbD_and, BitVec.getLsbD_not, getLsbD_addrMask,
    BitVec.getLsbD_shiftLeft, hmask, decide_false, hi]
  have hlt : i < 64 := hi.trans (by decide)
  simp [hlt]

theorem pointer_setPointer (e : PageMapEntry) {frame : ℕ} (hframe : frame < 2 ^ 40) :
    (e.setPointer frame).pointer = frame := by
  have hbits : (e.setPointer frame).extractLsb' 12 40 = BitVec.ofNat 40 frame := by
    apply BitVec.eq_of_getLsbD_eq
    intro i hi
    have hmask : 12 ≤ 12 + i ∧ 12 + i < 52 := by omega
    have hlt : ¬ 12 + i < 12 := by omega
    have hsub : 12 + i - 12 = i := by omega
    have hwidth : i < 64 := by omega
    have hwide : 12 + i < 64 := by omega
    simp only [setPointer, BitVec.getLsbD_extractLsb', BitVec.getLsbD_or, BitVec.getLsbD_and,
      BitVec.getLsbD_not, getLsbD_addrMask, BitVec.getLsbD_shiftLeft, BitVec.getLsbD_setWidth,
      hmask, hlt, hsub, hi, hwidth, hwide]
    simp
  rw [pointer, hbits, BitVec.toNat_ofNat, Nat.mod_eq_of_lt hframe]

@[simp] theorem present_zero : present 0#64 = false := rfl

theorem present_setFlag (e : PageMapEntry) {k : ℕ} (hk : k < 64) (h : 0 ≠ k) (b : Bool) :
    (e.setFlag k b).present = e.present := by
  rw [present, getLsbD_setFlag e hk, if_neg h, present]

theorem present_setFlag_zero (e : PageMapEntry) : (e.setFlag 0 true).present = true := by
  rw [present, getLsbD_setFlag e (by decide), if_pos rfl]

theorem hugePage_setFlag (e : PageMapEntry) {k : ℕ} (hk : k < 64) (h : 7 ≠ k) (b : Bool) :
    (e.setFlag k b).hugePage = e.hugePage := by
  rw [hugePage, getLsbD_setFlag e hk, if_neg h, hugePage]

theorem hugePage_setPointer (e : PageMapEntry) (frame : ℕ) :
    (e.setPointer frame).hugePage = e.hugePage :=
  getLsbD_setPointer e frame (by decide)

end PageMapEntry

/-- The union `LinearAddress4Level`, by the fields of `parts`; `high` are the
upper sixteen bits. -/
structure LinearAddress4Level where
  offset : ℕ
  page : ℕ
  dir : ℕ
  pdp : ℕ
  pml4 : ℕ
  high : ℕ
deriving DecidableEq, Repr

namespace LinearAddress4Level

def ofValue (value : ℕ) : LinearAddress4Level where
  offset := value % 4096
  page := value / 2 ^ 12 % 512
  dir := value / 2 ^ 21 % 512
  pdp := value / 2 ^ 30 % 512
  pml4 := value / 2 ^ 39 % 512
  high := value / 2 ^ 48

def value (addr : LinearAddress4Level) : ℕ :=
  addr.offset + 2 ^ 12 * addr.page + 2 ^ 21 * addr.dir + 2 ^ 30 * addr.pdp + 2 ^ 39 * addr.pml4 +
    2 ^ 48 * addr.high

def part (addr : LinearAddress4Level) : ℕ → ℕ
  | 0 => addr.offset
  | 1 => addr.page
  | 2 => addr.dir
  | 3 => addr.pdp
  | 4 => addr.pml4
  | _ => 0

def setPart (addr : LinearAddress4Level) (level value : ℕ) : LinearAddress4Level :=
  match level with
  | 0 => { addr with offset := value % 4096 }
  | 1 => { addr with page := value % 512 }
  | 2 => { addr with dir := value % 512 }
  | 3 => { addr with pdp := value % 512 }
  | 4 => { addr with pml4 := value % 512 }
  | _ => addr

/-- The loop that clears the parts below a level. -/
def clearBelow (addr : LinearAddress4Level) : ℕ → LinearAddress4Level
  | 0 => addr
  | 1 => addr
  | level + 2 => (addr.setPart (level + 1) 0).clearBelow (level + 1)

/-- The 36-bit number of the page. -/
def pageNumber (addr : LinearAddress4Level) : ℕ :=
  addr.page + 512 * (addr.dir + 512 * (addr.pdp + 512 * addr.pml4))

/-- Every index field is below 512. -/
structure Valid (addr : LinearAddress4Level) : Prop where
  page : addr.page < 512
  dir : addr.dir < 512
  pdp : addr.pdp < 512
  pml4 : addr.pml4 < 512

theorem valid_ofValue (value : ℕ) : (ofValue value).Valid where
  page := Nat.mod_lt _ (by decide)
  dir := Nat.mod_lt _ (by decide)
  pdp := Nat.mod_lt _ (by decide)
  pml4 := Nat.mod_lt _ (by decide)

theorem pageNumber_ofValue (value : ℕ) :
    (ofValue value).pageNumber = value / 4096 % 2 ^ 36 := by
  simp only [pageNumber, ofValue]
  omega

theorem Valid.pageNumber_lt {addr : LinearAddress4Level} (h : addr.Valid) :
    addr.pageNumber < 512 ^ 4 := by
  obtain ⟨h1, h2, h3, h4⟩ := h
  simp only [pageNumber]
  omega

/-- The index that a level reads is a digit of the page number in base 512. -/
theorem Valid.part_eq {addr : LinearAddress4Level} (h : addr.Valid) {level : ℕ} (hlevel : level < 4) :
    addr.part (level + 1) = addr.pageNumber / 512 ^ level % 512 := by
  obtain ⟨h1, h2, h3, h4⟩ := h
  interval_cases level <;> simp only [part, pageNumber] <;> omega

theorem Valid.next {addr : LinearAddress4Level} (h : addr.Valid) {level : ℕ} (hlevel : level < 4)
    (hpart : addr.part (level + 1) < 511) :
    ((addr.setPart (level + 1) (addr.part (level + 1) + 1)).clearBelow (level + 1)).Valid := by
  obtain ⟨h1, h2, h3, h4⟩ := h
  interval_cases level <;> simp only [part] at hpart <;>
    refine ⟨?_, ?_, ?_, ?_⟩ <;> simp only [part, setPart, clearBelow] <;> omega

/-- Stepping to the next entry of a level is moving to the next multiple of the
pages that one of its entries covers. -/
theorem Valid.pageNumber_next {addr : LinearAddress4Level} (h : addr.Valid) {level : ℕ}
    (hlevel : level < 4) (hpart : addr.part (level + 1) < 511) :
    ((addr.setPart (level + 1) (addr.part (level + 1) + 1)).clearBelow (level + 1)).pageNumber =
      (addr.pageNumber / 512 ^ level + 1) * 512 ^ level := by
  obtain ⟨h1, h2, h3, h4⟩ := h
  interval_cases level <;> simp only [part] at hpart <;>
    simp only [part, setPart, clearBelow, pageNumber] <;> omega

end LinearAddress4Level
end Paging
end MinOS
