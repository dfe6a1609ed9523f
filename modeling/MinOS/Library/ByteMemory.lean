import Mathlib.Data.List.Basic
import Mathlib.Data.List.GetD
import Mathlib.Tactic

/-!
# Byte-addressed memory

Memory as a function from addresses to bytes, block copies in and out of it,
and little-endian integers of any width stored in it.
-/

namespace MinOS
namespace ByteMemory

def readBytes (mem : ℕ → UInt8) (addr len : ℕ) : List UInt8 :=
  (List.range len).map fun i ↦ mem (addr + i)

def writeBytes (mem : ℕ → UInt8) (addr : ℕ) (bytes : List UInt8) : ℕ → UInt8 :=
  fun x ↦ if addr ≤ x then bytes.getD (x - addr) (mem x) else mem x

/-- The bytes of a little-endian integer of the given width. -/
def bytesLE : ℕ → ℕ → List UInt8
  | 0, _ => []
  | width + 1, value => UInt8.ofNat (value % 256) :: bytesLE width (value / 256)

def readLE (mem : ℕ → UInt8) (addr : ℕ) : ℕ → ℕ
  | 0 => 0
  | width + 1 => (mem addr).toNat + 256 * readLE mem (addr + 1) width

def writeLE (mem : ℕ → UInt8) (addr width value : ℕ) : ℕ → UInt8 :=
  writeBytes mem addr (bytesLE width value)

/-! ## Block copies -/

@[simp] theorem length_readBytes (mem : ℕ → UInt8) (addr len : ℕ) :
    (readBytes mem addr len).length = len := by
  simp [readBytes]

theorem getElem?_readBytes (mem : ℕ → UInt8) {addr len i : ℕ} (hi : i < len) :
    (readBytes mem addr len)[i]? = some (mem (addr + i)) := by
  simp [readBytes, hi]

theorem readBytes_congr {mem mem' : ℕ → UInt8} {addr len : ℕ}
    (h : ∀ x, addr ≤ x → x < addr + len → mem' x = mem x) :
    readBytes mem' addr len = readBytes mem addr len := by
  apply List.map_congr_left
  intro i hi
  have hlt : i < len := List.mem_range.mp hi
  exact h _ (by omega) (by omega)

theorem readBytes_add (mem : ℕ → UInt8) (addr n m : ℕ) :
    readBytes mem addr (n + m) = readBytes mem addr n ++ readBytes mem (addr + n) m := by
  simp [readBytes, List.range_add, Function.comp_def, Nat.add_assoc]

theorem writeBytes_of_lt (mem : ℕ → UInt8) {addr x : ℕ} (bytes : List UInt8) (h : x < addr) :
    writeBytes mem addr bytes x = mem x := by
  have hnot : ¬ addr ≤ x := by omega
  simp [writeBytes, hnot]

theorem writeBytes_of_ge (mem : ℕ → UInt8) {addr x : ℕ} (bytes : List UInt8)
    (h : addr + bytes.length ≤ x) : writeBytes mem addr bytes x = mem x := by
  have hle : addr ≤ x := by omega
  have hlen : bytes.length ≤ x - addr := by omega
  simp [writeBytes, hle, hlen]

theorem writeBytes_add (mem : ℕ → UInt8) {addr i : ℕ} {bytes : List UInt8}
    (hi : i < bytes.length) : writeBytes mem addr bytes (addr + i) = bytes[i] := by
  simp [writeBytes, hi]

@[simp] theorem writeBytes_nil (mem : ℕ → UInt8) (addr : ℕ) : writeBytes mem addr [] = mem := by
  funext x
  simp [writeBytes]

/-- Outside the block written, every byte keeps its value. -/
theorem writeBytes_of_notMem (mem : ℕ → UInt8) {addr x : ℕ} {bytes : List UInt8}
    (h : ¬ (addr ≤ x ∧ x < addr + bytes.length)) : writeBytes mem addr bytes x = mem x := by
  rcases Nat.lt_or_ge x addr with hlt | hge
  · exact writeBytes_of_lt mem bytes hlt
  · exact writeBytes_of_ge mem bytes (by omega)

theorem writeBytes_append (mem : ℕ → UInt8) (addr : ℕ) (bytes bytes' : List UInt8) :
    writeBytes (writeBytes mem addr bytes) (addr + bytes.length) bytes' =
      writeBytes mem addr (bytes ++ bytes') := by
  funext x
  by_cases hlt : x < addr + bytes.length
  · rw [writeBytes_of_lt _ _ hlt]
    by_cases hle : addr ≤ x
    · rw [writeBytes, writeBytes, if_pos hle, if_pos hle, List.getD_append _ _ _ _ (by omega)]
    · rw [writeBytes_of_lt _ _ (by omega), writeBytes_of_lt _ _ (by omega)]
  · rw [writeBytes, if_pos (by omega), writeBytes_of_ge _ _ (by omega), writeBytes, if_pos (by omega),
      List.getD_append_right _ _ _ _ (by omega), Nat.sub_add_eq]

theorem writeBytes_singleton (mem : ℕ → UInt8) (addr : ℕ) (b : UInt8) :
    writeBytes mem addr [b] = Function.update mem addr b := by
  funext x
  by_cases hx : x = addr
  · subst hx
    simp [writeBytes]
  · rw [Function.update_of_ne hx, writeBytes_of_notMem]
    rw [List.length_singleton]
    omega

theorem writeBytes_cons (mem : ℕ → UInt8) (addr : ℕ) (b : UInt8) (bytes : List UInt8) :
    writeBytes mem addr (b :: bytes) =
      writeBytes (Function.update mem addr b) (addr + 1) bytes := by
  rw [← writeBytes_singleton]
  exact (writeBytes_append mem addr [b] bytes).symm

@[simp] theorem readBytes_writeBytes (mem : ℕ → UInt8) (addr : ℕ) (bytes : List UInt8) :
    readBytes (writeBytes mem addr bytes) addr bytes.length = bytes := by
  apply List.ext_getElem (by simp)
  intro i _ hi
  simp only [readBytes, List.getElem_map, List.getElem_range]
  exact writeBytes_add mem hi

/-! ## Little-endian integers -/

@[simp] theorem length_bytesLE (width value : ℕ) : (bytesLE width value).length = width := by
  induction width generalizing value with
  | zero => rfl
  | succ width ih => simp [bytesLE, ih]

theorem readLE_congr {mem mem' : ℕ → UInt8} {addr width : ℕ}
    (h : ∀ x, addr ≤ x → x < addr + width → mem' x = mem x) :
    readLE mem' addr width = readLE mem addr width := by
  induction width generalizing addr with
  | zero => rfl
  | succ width ih =>
      have hhead : mem' addr = mem addr := h addr (by omega) (by omega)
      have htail : readLE mem' (addr + 1) width = readLE mem (addr + 1) width :=
        ih fun x hx hlt ↦ h x (by omega) (by omega)
      simp [readLE, hhead, htail]

theorem readLE_lt (mem : ℕ → UInt8) (addr width : ℕ) : readLE mem addr width < 256 ^ width := by
  induction width generalizing addr with
  | zero => simp [readLE]
  | succ width ih =>
      have hbyte : (mem addr).toNat < 256 := (mem addr).toNat_lt
      have htail := ih (addr + 1)
      rw [readLE, pow_succ]
      omega

theorem readLE_eq_zero {mem : ℕ → UInt8} {addr width : ℕ}
    (h : ∀ x, addr ≤ x → x < addr + width → mem x = 0) : readLE mem addr width = 0 := by
  induction width generalizing addr with
  | zero => rfl
  | succ width ih =>
      rw [readLE, h addr le_rfl (by omega), ih fun x hx hlt ↦ h x (by omega) (by omega)]
      rfl

theorem readLE_eq_of_bytes (mem : ℕ → UInt8) (addr width value : ℕ)
    (h : readBytes mem addr width = bytesLE width value) :
    readLE mem addr width = value % 256 ^ width := by
  induction width generalizing addr value with
  | zero => simp [readLE, Nat.mod_one]
  | succ width ih =>
      rw [Nat.add_comm width 1, readBytes_add, Nat.add_comm 1 width] at h
      have hone : readBytes mem addr 1 = [mem addr] := by simp [readBytes]
      rw [hone] at h
      simp only [bytesLE, List.singleton_append, List.cons.injEq] at h
      rw [readLE, ih (addr + 1) (value / 256) h.2, h.1, pow_succ, Nat.mul_comm (256 ^ width) 256,
        Nat.mod_mul]
      simp

theorem readLE_writeLE (mem : ℕ → UInt8) (addr width value : ℕ) :
    readLE (writeLE mem addr width value) addr width = value % 256 ^ width := by
  apply readLE_eq_of_bytes
  have h := readBytes_writeBytes mem addr (bytesLE width value)
  rwa [length_bytesLE] at h

theorem writeLE_of_notMem (mem : ℕ → UInt8) {addr width value x : ℕ}
    (h : ¬ (addr ≤ x ∧ x < addr + width)) : writeLE mem addr width value x = mem x :=
  writeBytes_of_notMem mem (by rwa [length_bytesLE])

theorem readLE_writeLE_of_disjoint (mem : ℕ → UInt8) {addr width value addr' width' : ℕ}
    (h : addr + width ≤ addr' ∨ addr' + width' ≤ addr) :
    readLE (writeLE mem addr width value) addr' width' = readLE mem addr' width' := by
  apply readLE_congr
  intro x hx hlt
  apply writeLE_of_notMem
  omega

end ByteMemory
end MinOS
