import MinOS.Terminal.Screen
import Mathlib.Tactic.SplitIfs
import Mathlib.Tactic.IntervalCases

/-!
# UTF-8 text

The loops of `WriteString` and `Terminal::Print` over the characters of a string.
They take the length of a character from its first byte, so that they decode a
valid text, and run off any other one.
-/

namespace MinOS
namespace Font

open Graphics

/-- The bytes at an address. -/
def Holds (s : ℕ → BitVec 8) (bytes : List (BitVec 8)) : Prop :=
  ∀ i b, bytes[i]? = some b → s i = b

/-- The string at an address: its bytes, which are not zero, and the terminator. -/
def CString (s : ℕ → BitVec 8) (bytes : List (BitVec 8)) : Prop :=
  Holds s (bytes ++ [0]) ∧ ∀ b ∈ bytes, b ≠ 0

/-- What `ConvertUTF8To32` computes, in the types of the source: each `char` is extended
with its sign. -/
def convertBits (u8 : ℕ → BitVec 8) : BitVec 32 × ℕ :=
  let c (k : ℕ) : BitVec 32 := (u8 k).signExtend 32
  match countUTF8Size (u8 0) with
  | 1 => (c 0, 1)
  | 2 => ((c 0 &&& 0b11111) <<< 6 ||| (c 1 &&& 0b111111) <<< 0, 2)
  | 3 => ((c 0 &&& 0b1111) <<< 12 ||| (c 1 &&& 0b111111) <<< 6 ||| (c 2 &&& 0b111111) <<< 0, 3)
  | 4 => ((c 0 &&& 0b111) <<< 18 ||| (c 1 &&& 0b111111) <<< 12 ||| (c 2 &&& 0b111111) <<< 6 |||
      (c 3 &&& 0b111111) <<< 0, 4)
  | _ => (0, 0)

/-- The calls of `WriteUnicode` from the byte `i` and the column `x` on, and the byte at
which the loop ends, if it ends within `fuel` turns. -/
def writeStringCalls (pos : Vector2D) (s : ℕ → BitVec 8) :
    ℕ → ℕ → ℤ → Option (List (Vector2D × ℕ) × ℕ)
  | 0, _, _ => none
  | fuel + 1, i, x =>
      if s i = 0 then some ([], i)
      else
        let u := convertBits fun k ↦ s (i + k)
        let c := u.1.toNat
        (writeStringCalls pos s fuel (i + u.2) (x + if isHankaku c then 1 else 2)).map fun r ↦
          ((pos + ⟨8 * x, 0⟩, c) :: r.1, r.2)

/-- The code points that `Print` hands to its overload from the byte `i` on, and the
byte at which the loop ends.  Without a length the limit is the largest `size_t`,
which no index reaches. -/
def printCodes (s : ℕ → BitVec 8) (len : Option ℕ) : ℕ → ℕ → Option (List ℕ × ℕ)
  | 0, _ => none
  | fuel + 1, i =>
      if s i ≠ 0 ∧ ∀ n ∈ len, i < n then
        let u := convertBits fun k ↦ s (i + k)
        (printCodes s len fuel (i + u.2)).map fun r ↦ (u.1.toNat :: r.1, r.2)
      else some ([], i)

/-- The bytes that either loop reads in its first turns: the one that its condition
looks at, and those of the character there. -/
def loopReads (s : ℕ → BitVec 8) (len : Option ℕ) : ℕ → ℕ → List ℕ
  | 0, _ => []
  | fuel + 1, i =>
      i ::
        if s i ≠ 0 ∧ ∀ n ∈ len, i < n then
          let size := countUTF8Size (s i)
          (List.range size).map (i + ·) ++ loopReads s len fuel (i + size)
        else []

/-! ## Decoding one character -/

/-- The masks take the low bits of a byte, whatever its sign. -/
theorem toNat_signExtend_and (c : BitVec 8) :
    (c.signExtend 32 &&& 0b111).toNat = c.toNat % 2 ^ 3 ∧
      (c.signExtend 32 &&& 0b1111).toNat = c.toNat % 2 ^ 4 ∧
      (c.signExtend 32 &&& 0b11111).toNat = c.toNat % 2 ^ 5 ∧
      (c.signExtend 32 &&& 0b111111).toNat = c.toNat % 2 ^ 6 := by
  revert c
  decide +kernel

theorem toNat_shiftLeft_or {a b : BitVec 32} {k m : ℕ} (ha : a.toNat < 2 ^ m) (hm : m + k ≤ 32)
    (hb : b.toNat < 2 ^ k) : (a <<< k ||| b).toNat = a.toNat * 2 ^ k + b.toNat := by
  have hlt : a.toNat * 2 ^ k < 2 ^ 32 :=
    calc a.toNat * 2 ^ k < 2 ^ m * 2 ^ k := Nat.mul_lt_mul_of_pos_right ha (Nat.two_pow_pos k)
      _ = 2 ^ (m + k) := (Nat.pow_add 2 m k).symm
      _ ≤ 2 ^ 32 := Nat.pow_le_pow_right (by decide) hm
  rw [BitVec.toNat_or, BitVec.toNat_shiftLeft, Nat.shiftLeft_eq, Nat.mod_eq_of_lt hlt,
    ← Nat.shiftLeft_eq, Nat.shiftLeft_add_eq_or_of_lt hb]

theorem toNat_signExtend_ascii (c : BitVec 8) (h : countUTF8Size c = 1) :
    (c.signExtend 32).toNat = c.toNat := by
  revert c
  decide +kernel

/-- The arithmetic reading of `ConvertUTF8To32` is the one with signs, masks and shifts. -/
theorem convertBits_eq (u8 : ℕ → BitVec 8) :
    ((convertBits u8).1.toNat, (convertBits u8).2) = convertUTF8To32 u8 := by
  have h3 (k : ℕ) := (toNat_signExtend_and (u8 k)).1
  have h4 (k : ℕ) := (toNat_signExtend_and (u8 k)).2.1
  have h5 (k : ℕ) := (toNat_signExtend_and (u8 k)).2.2.1
  have h6 (k : ℕ) := (toNat_signExtend_and (u8 k)).2.2.2
  have hlast (k : ℕ) : ((u8 k).signExtend 32 &&& 0b111111).toNat < 2 ^ 6 := by
    rw [h6]
    exact Nat.mod_lt _ (by decide)
  have hrest (k : ℕ) : (((u8 k).signExtend 32 &&& 0b111111) <<< 6 |||
      ((u8 (k + 1)).signExtend 32 &&& 0b111111)).toNat =
        utf8Bits (u8 k) 6 6 + utf8Bits (u8 (k + 1)) 6 0 := by
    rw [toNat_shiftLeft_or (hlast k) (by decide) (hlast (k + 1)), h6, h6, utf8Bits, utf8Bits,
      Nat.pow_zero, Nat.mul_one]
  have hrest_lt (k : ℕ) : (((u8 k).signExtend 32 &&& 0b111111) <<< 6 |||
      ((u8 (k + 1)).signExtend 32 &&& 0b111111)).toNat < 2 ^ 12 := by
    rw [hrest, utf8Bits, utf8Bits]
    omega
  simp only [convertBits, convertUTF8To32, BitVec.shiftLeft_zero, BitVec.or_assoc]
  have hascii := toNat_signExtend_ascii (u8 0)
  generalize countUTF8Size (u8 0) = size at hascii
  match size, hascii with
  | 0, _ => rfl
  | 1, hascii => exact Prod.ext (hascii rfl) rfl
  | 2, _ =>
      have hhead : ((u8 0).signExtend 32 &&& 0b11111).toNat < 2 ^ 5 := by
        rw [h5]
        exact Nat.mod_lt _ (by decide)
      have hall := toNat_shiftLeft_or hhead (by decide) (hlast 1)
      rw [h5, h6] at hall
      refine Prod.ext (hall.trans ?_) rfl
      simp only [utf8Bits, Nat.pow_zero, Nat.mul_one]
  | 3, _ =>
      have hhead : ((u8 0).signExtend 32 &&& 0b1111).toNat < 2 ^ 4 := by
        rw [h4]
        exact Nat.mod_lt _ (by decide)
      have hall := toNat_shiftLeft_or hhead (by decide) (hrest_lt 1)
      rw [h4, hrest, ← Nat.add_assoc] at hall
      exact Prod.ext hall rfl
  | 4, _ =>
      have hhead : ((u8 0).signExtend 32 &&& 0b111).toNat < 2 ^ 3 := by
        rw [h3]
        exact Nat.mod_lt _ (by decide)
      have htail := toNat_shiftLeft_or (hlast 1) (by decide) (hrest_lt 2)
      have htail_lt : (((u8 1).signExtend 32 &&& 0b111111) <<< 12 |||
          (((u8 2).signExtend 32 &&& 0b111111) <<< 6 |||
            ((u8 (2 + 1)).signExtend 32 &&& 0b111111))).toNat < 2 ^ 18 := by
        have hlow := hrest_lt 2
        have hhigh := hlast 1
        rw [htail]
        omega
      have hall := toNat_shiftLeft_or hhead (by decide) htail_lt
      rw [h3, htail, h6, hrest, ← Nat.add_assoc, ← Nat.add_assoc] at hall
      exact Prod.ext hall rfl
  | _ + 5, _ => rfl

/-! ## Valid text -/

/-- The UTF-8 encoding of a character. -/
def utf8 (c : Char) : List (BitVec 8) := (String.utf8EncodeChar c).map UInt8.toBitVec

/-- The encoding of a text. -/
def utf8Text (text : List Char) : List (BitVec 8) := text.flatMap utf8

/-- The code points with their columns, from column `x` on. -/
def columns : ℤ → List ℕ → List (ℤ × ℕ)
  | _, [] => []
  | x, c :: codes => (x, c) :: columns (x + if isHankaku c then 1 else 2) codes

theorem countUTF8Size_eq (c : BitVec 8) :
    countUTF8Size c =
      if c.toNat < 0x80 then 1
      else if 0xc0 ≤ c.toNat ∧ c.toNat < 0xe0 then 2
      else if 0xe0 ≤ c.toNat ∧ c.toNat < 0xf0 then 3
      else if 0xf0 ≤ c.toNat ∧ c.toNat < 0xf8 then 4
      else 0 :=
  rfl

theorem countUTF8Size_two {c : BitVec 8} (hlow : 0xc0 ≤ c.toNat) (hhigh : c.toNat < 0xe0) :
    countUTF8Size c = 2 := by
  rw [countUTF8Size_eq, if_neg (by omega), if_pos ⟨hlow, hhigh⟩]

theorem countUTF8Size_three {c : BitVec 8} (hlow : 0xe0 ≤ c.toNat) (hhigh : c.toNat < 0xf0) :
    countUTF8Size c = 3 := by
  rw [countUTF8Size_eq, if_neg (by omega), if_neg (by omega), if_pos ⟨hlow, hhigh⟩]

theorem countUTF8Size_four {c : BitVec 8} (hlow : 0xf0 ≤ c.toNat) (hhigh : c.toNat < 0xf8) :
    countUTF8Size c = 4 := by
  rw [countUTF8Size_eq, if_neg (by omega), if_neg (by omega), if_neg (by omega),
    if_pos ⟨hlow, hhigh⟩]

theorem toNat_val_lt (c : Char) : c.val.toNat < 0x110000 := by
  rcases c.valid with hlt | ⟨-, hlt⟩
  · exact hlt.trans (by decide)
  · exact hlt

theorem toNat_ofNat_toBitVec (n : ℕ) : (UInt8.ofNat n).toBitVec.toNat = n % 256 := rfl

/-- The bytes of one character decode to it. -/
theorem convertUTF8To32_utf8 {u8 : ℕ → BitVec 8} {c : Char} (h : Holds u8 (utf8 c)) :
    convertUTF8To32 u8 = (c.toNat, (utf8 c).length) := by
  have hbound := toNat_val_lt c
  change convertUTF8To32 u8 = (c.val.toNat, _)
  rw [utf8, String.utf8EncodeChar] at h ⊢
  generalize c.val.toNat = v at h hbound ⊢
  split_ifs at h ⊢ with h1 h2 h3
  · have hb0 := congrArg BitVec.toNat (h 0 _ rfl)
    rw [toNat_ofNat_toBitVec] at hb0
    have hascii : u8 0 < 0x80 := BitVec.lt_def.mpr (by change (u8 0).toNat < 128; omega)
    rw [convertUTF8To32_ascii hascii, hb0, Nat.mod_eq_of_lt (by omega)]
    rfl
  · have hb0 := congrArg BitVec.toNat (h 0 _ rfl)
    have hb1 := congrArg BitVec.toNat (h 1 _ rfl)
    rw [toNat_ofNat_toBitVec] at hb0 hb1
    have hsize := countUTF8Size_two (c := u8 0) (by omega) (by omega)
    simp only [convertUTF8To32, hsize, utf8Bits, hb0, hb1]
    refine Prod.ext ?_ rfl
    omega
  · have hb0 := congrArg BitVec.toNat (h 0 _ rfl)
    have hb1 := congrArg BitVec.toNat (h 1 _ rfl)
    have hb2 := congrArg BitVec.toNat (h 2 _ rfl)
    rw [toNat_ofNat_toBitVec] at hb0 hb1 hb2
    have hsize := countUTF8Size_three (c := u8 0) (by omega) (by omega)
    simp only [convertUTF8To32, hsize, utf8Bits, hb0, hb1, hb2]
    refine Prod.ext ?_ rfl
    omega
  · have hb0 := congrArg BitVec.toNat (h 0 _ rfl)
    have hb1 := congrArg BitVec.toNat (h 1 _ rfl)
    have hb2 := congrArg BitVec.toNat (h 2 _ rfl)
    have hb3 := congrArg BitVec.toNat (h 3 _ rfl)
    rw [toNat_ofNat_toBitVec] at hb0 hb1 hb2 hb3
    have hsize := countUTF8Size_four (c := u8 0) (by omega) (by omega)
    simp only [convertUTF8To32, hsize, utf8Bits, hb0, hb1, hb2, hb3]
    refine Prod.ext ?_ rfl
    omega

theorem toBitVec_ne_zero {n : ℕ} (h : n % 256 ≠ 0) : (UInt8.ofNat n).toBitVec ≠ 0 := by
  intro hzero
  exact h ((toNat_ofNat_toBitVec n).symm.trans (congrArg BitVec.toNat hzero))

theorem utf8_ne_zero {c : Char} (hc : c.toNat ≠ 0) : ∀ b ∈ utf8 c, b ≠ 0 := by
  have hbound := toNat_val_lt c
  change c.val.toNat ≠ 0 at hc
  rw [utf8, String.utf8EncodeChar]
  generalize c.val.toNat = v at hbound hc ⊢
  split_ifs <;> simp only [List.map_cons, List.map_nil, List.forall_mem_cons]
  · exact ⟨toBitVec_ne_zero (by omega), by simp⟩
  · exact ⟨toBitVec_ne_zero (by omega), toBitVec_ne_zero (by omega), by simp⟩
  · exact ⟨toBitVec_ne_zero (by omega), toBitVec_ne_zero (by omega),
      toBitVec_ne_zero (by omega), by simp⟩
  · exact ⟨toBitVec_ne_zero (by omega), toBitVec_ne_zero (by omega),
      toBitVec_ne_zero (by omega), toBitVec_ne_zero (by omega), by simp⟩

theorem Holds.left {s : ℕ → BitVec 8} {bytes rest : List (BitVec 8)}
    (h : Holds s (bytes ++ rest)) : Holds s bytes := by
  intro i b hb
  have hlt := (List.getElem?_eq_some_iff.mp hb).1
  exact h i b (by rw [List.getElem?_append_left hlt, hb])

theorem Holds.right {s : ℕ → BitVec 8} {i : ℕ} {bytes rest : List (BitVec 8)}
    (h : Holds (fun k ↦ s (i + k)) (bytes ++ rest)) :
    Holds (fun k ↦ s (i + bytes.length + k)) rest := by
  intro k b hb
  have hbyte : s (i + (bytes.length + k)) = b := h (bytes.length + k) b (by
    rw [List.getElem?_append_right (Nat.le_add_right _ _), Nat.add_sub_cancel_left, hb])
  rwa [← Nat.add_assoc] at hbyte

theorem CString.zero {s : ℕ → BitVec 8} {i : ℕ} {bytes : List (BitVec 8)}
    (h : CString (fun k ↦ s (i + k)) bytes) : s (i + bytes.length) = 0 :=
  h.1.right 0 0 rfl

theorem CString.ne_zero {s : ℕ → BitVec 8} {i : ℕ} {bytes : List (BitVec 8)}
    (h : CString (fun k ↦ s (i + k)) bytes) {k : ℕ} (hk : k < bytes.length) :
    s (i + k) ≠ 0 := by
  have hbyte : s (i + k) = bytes[k] := h.1.left k bytes[k] (List.getElem?_eq_getElem hk)
  rw [hbyte]
  exact h.2 _ (List.getElem_mem hk)

theorem CString.right {s : ℕ → BitVec 8} {i : ℕ} {bytes rest : List (BitVec 8)}
    (h : CString (fun k ↦ s (i + k)) (bytes ++ rest)) :
    CString (fun k ↦ s (i + bytes.length + k)) rest := by
  refine ⟨?_, fun b hb ↦ h.2 b (List.mem_append_right _ hb)⟩
  have hall := h.1
  rw [List.append_assoc] at hall
  exact hall.right

theorem writeStringCalls_eq (pos : Vector2D) (s : ℕ → BitVec 8) (fuel i : ℕ) (x : ℤ) :
    writeStringCalls pos s fuel i x =
      (printCodes s none fuel i).map fun r ↦
        ((columns x r.1).map fun c ↦ (pos + ⟨8 * c.1, 0⟩, c.2), r.2) := by
  induction fuel generalizing i x with
  | zero => rfl
  | succ fuel ih =>
      rw [writeStringCalls, printCodes]
      by_cases hend : s i = 0
      · rw [if_pos hend, if_neg (fun h ↦ h.1 hend)]
        rfl
      · rw [if_neg hend, if_pos ⟨hend, by simp⟩]
        simp only [ih, Option.map_map]
        rfl

/-- What the calls of `WriteUnicode` write is what `WriteString` writes. -/
theorem writeStringLoop_eq (font : Glyphs) (pos : Vector2D) (s : ℕ → BitVec 8) (fuel i : ℕ)
    (x : ℤ) :
    writeStringLoop font pos s fuel i x =
      (writeStringCalls pos s fuel i x).map fun r ↦
        r.1.flatMap fun c ↦ writeUnicode font c.1 c.2 := by
  induction fuel generalizing i x with
  | zero => rfl
  | succ fuel ih =>
      rw [writeStringCalls, writeStringLoop]
      by_cases hend : s i = 0
      · rw [if_pos hend, if_pos hend]
        rfl
      · rw [if_neg hend, if_neg hend]
        simp only [← convertBits_eq, ih, Option.map_map]
        rfl

/-- The loop of `Print` goes through a valid text from its first character on. -/
theorem printCodes_utf8Text {s : ℕ → BitVec 8} {text : List Char} {i : ℕ}
    (h : CString (fun k ↦ s (i + k)) (utf8Text text)) :
    printCodes s none (text.length + 1) i =
      some (text.map Char.toNat, i + (utf8Text text).length) := by
  induction text generalizing i with
  | nil =>
      have hend : s i = 0 := h.zero
      rw [List.length_nil, printCodes, if_neg (fun hne ↦ hne.1 hend)]
      rfl
  | cons c text ih =>
      have hsplit : utf8Text (c :: text) = utf8 c ++ utf8Text text := List.flatMap_cons
      rw [hsplit] at h ⊢
      have hconvert := convertUTF8To32_utf8 (h.1.left.left)
      have hpos : 0 < (utf8 c).length := by
        rw [utf8, List.length_map]
        exact List.length_pos_of_ne_nil String.utf8EncodeChar_ne_nil
      have hne : s i ≠ 0 := h.ne_zero (k := 0) (by rw [List.length_append]; omega)
      rw [← convertBits_eq] at hconvert
      obtain ⟨hcode, hsize⟩ := Prod.mk.injEq .. ▸ hconvert
      rw [List.length_cons, printCodes, if_pos ⟨hne, by simp⟩]
      dsimp only
      rw [hcode, hsize, ih h.right, List.length_append, ← Nat.add_assoc]
      rfl

/-- The bytes of a text without NUL are a string. -/
theorem cString_utf8Text {s : ℕ → BitVec 8} {text : List Char} (hs : Holds s (utf8Text text ++ [0]))
    (htext : ∀ c ∈ text, c.toNat ≠ 0) : CString s (utf8Text text) := by
  refine ⟨hs, fun b hb ↦ ?_⟩
  obtain ⟨c, hc, hbyte⟩ := List.mem_flatMap.mp hb
  exact utf8_ne_zero (htext c hc) b hbyte

/-- Both functions decode the encoding of a text to the text, and end at its terminator. -/
theorem utf8_decoded {s : ℕ → BitVec 8} (pos : Vector2D) (text : List Char)
    (htext : ∀ c ∈ text, c.toNat ≠ 0) (hs : Holds s (utf8Text text ++ [0])) :
    ∃ fuel,
      writeStringCalls pos s fuel 0 0 =
        some ((columns 0 (text.map Char.toNat)).map fun c ↦ (pos + ⟨8 * c.1, 0⟩, c.2),
          (utf8Text text).length) ∧
      printCodes s none fuel 0 = some (text.map Char.toNat, (utf8Text text).length) := by
  have hstring := cString_utf8Text hs htext
  have hprint := printCodes_utf8Text (i := 0) (by simpa only [Nat.zero_add] using hstring)
  rw [Nat.zero_add] at hprint
  refine ⟨text.length + 1, ?_, hprint⟩
  rw [writeStringCalls_eq, hprint]
  rfl

/-- A byte, a two-byte, a three-byte and a four-byte character. -/
theorem utf8_decoded_sample :
    ∃ fuel,
      writeStringCalls ⟨10, 20⟩ (fun i ↦ (utf8Text ['a', 'é', '가', '😀'] ++ [0]).getD i 0) fuel 0 0 =
        some ([(⟨10, 20⟩, 0x61), (⟨18, 20⟩, 0xe9), (⟨34, 20⟩, 0xac00), (⟨50, 20⟩, 0x1f600)], 10) ∧
      printCodes (fun i ↦ (utf8Text ['a', 'é', '가', '😀'] ++ [0]).getD i 0) none fuel 0 =
        some ([0x61, 0xe9, 0xac00, 0x1f600], 10) :=
  utf8_decoded ⟨10, 20⟩ ['a', 'é', '가', '😀'] (by simp)
    fun i b hb ↦ by rw [List.getD_eq_getElem?_getD, hb, Option.getD_some]

/-! ## Any bytes -/

/-- Every character of a string is there in full, as its first byte announces it. -/
inductive Whole : List (BitVec 8) → Prop where
  | nil : Whole []
  | cons {b : BitVec 8} {bs rest : List (BitVec 8)} (hsize : (b :: bs).length = countUTF8Size b)
      (hrest : Whole rest) : Whole (b :: bs ++ rest)

/-- A byte that is neither behind the terminator nor behind the limit. -/
def Within (s : ℕ → BitVec 8) (len : Option ℕ) (r : ℕ) : Prop :=
  (∀ z < r, s z ≠ 0) ∧ ∀ n ∈ len, r < n

/-- `WriteString` returns, and reads no byte behind the terminator. -/
def WriteStringEnds (pos : Vector2D) (s : ℕ → BitVec 8) : Prop :=
  (∃ fuel, (writeStringCalls pos s fuel 0 0).isSome) ∧
    ∀ turns, ∀ r ∈ loopReads s none turns 0, Within s none r

/-- `Print` returns, and reads no byte behind the terminator or the limit. -/
def PrintEnds (s : ℕ → BitVec 8) (len : Option ℕ) : Prop :=
  (∃ fuel, (printCodes s len fuel 0).isSome) ∧
    ∀ turns, ∀ r ∈ loopReads s len turns 0, Within s len r

theorem convertBits_size (u8 : ℕ → BitVec 8) : (convertBits u8).2 = countUTF8Size (u8 0) := by
  have hle : countUTF8Size (u8 0) ≤ 4 := by
    rw [countUTF8Size]
    split_ifs <;> decide
  rw [convertBits]
  generalize countUTF8Size (u8 0) = size at hle ⊢
  interval_cases size <;> rfl

theorem CString.append {s : ℕ → BitVec 8} {i n : ℕ} {bytes : List (BitVec 8)}
    (h : CString (fun k ↦ s (i + n + k)) bytes) (hne : ∀ z < i + n, s z ≠ 0) :
    CString (fun k ↦ s (i + k)) ((List.range n).map (fun k ↦ s (i + k)) ++ bytes) := by
  refine ⟨fun k b hb ↦ ?_, fun b hb ↦ ?_⟩
  · rw [List.append_assoc] at hb
    rcases Nat.lt_or_ge k n with hk | hk
    · rw [List.getElem?_append_left (by rwa [List.length_map, List.length_range]),
        List.getElem?_map, List.getElem?_range hk] at hb
      exact Option.some.inj hb
    · obtain ⟨d, rfl⟩ := Nat.exists_eq_add_of_le hk
      rw [List.getElem?_append_right (by rwa [List.length_map, List.length_range]),
        List.length_map, List.length_range, Nat.add_sub_cancel_left] at hb
      have hbyte : s (i + n + d) = b := h.1 d b hb
      rwa [Nat.add_assoc] at hbyte
  · rcases List.mem_append.mp hb with hb | hb
    · obtain ⟨k, hk, rfl⟩ := List.mem_map.mp hb
      exact hne _ (Nat.add_lt_add_left (List.mem_range.mp hk) i)
    · exact h.2 b hb

/-- A loop that ends within bounds has gone from character to character. -/
theorem whole_of_ends {s : ℕ → BitVec 8} {len : Option ℕ} {fuel i : ℕ}
    (hends : (printCodes s len fuel i).isSome)
    (hreads : ∀ turns, ∀ r ∈ loopReads s len turns i, Within s len r) :
    ∃ bytes, CString (fun k ↦ s (i + k)) bytes ∧ Whole bytes ∧
      ∀ n ∈ len, i + bytes.length < n := by
  induction fuel generalizing i with
  | zero => simp [printCodes] at hends
  | succ fuel ih =>
      have hhere : Within s len i := hreads 1 i (List.mem_cons_self ..)
      by_cases hend : s i = 0
      · refine ⟨[], ⟨fun k b hb ↦ ?_, by simp⟩, .nil, hhere.2⟩
        rw [List.nil_append, List.getElem?_singleton] at hb
        split_ifs at hb with hk
        rw [hk]
        exact hend.trans (Option.some.inj hb)
      · have hgo : s i ≠ 0 ∧ ∀ n ∈ len, i < n := ⟨hend, hhere.2⟩
        have hsize := convertBits_size fun k ↦ s (i + k)
        rw [Nat.add_zero] at hsize
        rw [printCodes, if_pos hgo, Option.isSome_map, hsize] at hends
        have hlater (turns r : ℕ) (hr : r ∈ loopReads s len turns (i + countUTF8Size (s i))) :
            Within s len r := by
          refine hreads (turns + 1) r ?_
          rw [loopReads, if_pos hgo]
          exact List.mem_cons_of_mem _ (List.mem_append_right _ hr)
        have hnext : Within s len (i + countUTF8Size (s i)) :=
          hlater 1 _ (List.mem_cons_self ..)
        obtain ⟨bytes, hs, hwhole, hlen⟩ := ih hends hlater
        refine ⟨_, hs.append hnext.1, ?_, fun n hn ↦ ?_⟩
        · cases hcount : countUTF8Size (s i) with
          | zero => exact hwhole
          | succ size =>
              rw [List.range_succ_eq_map, List.map_cons, Nat.add_zero]
              exact .cons (by simp [hcount]) hwhole
        · rw [List.length_append, List.length_map, List.length_range, ← Nat.add_assoc]
          exact hlen n hn

/-- Over whole characters the loop ends, and reads up to the terminator. -/
theorem ends_of_whole {s : ℕ → BitVec 8} {len : Option ℕ} {i : ℕ} {bytes : List (BitVec 8)}
    (hwhole : Whole bytes) (hs : CString (fun k ↦ s (i + k)) bytes)
    (hlen : ∀ n ∈ len, i + bytes.length < n) :
    (∃ fuel, (printCodes s len fuel i).isSome) ∧
      ∀ turns, ∀ r ∈ loopReads s len turns i, r ≤ i + bytes.length := by
  induction hwhole generalizing i with
  | nil =>
      have hend : s i = 0 := hs.zero
      have hstop : ¬(s i ≠ 0 ∧ ∀ n ∈ len, i < n) := fun h ↦ h.1 hend
      refine ⟨⟨1, by rw [printCodes, if_neg hstop]; rfl⟩, fun turns r hr ↦ ?_⟩
      cases turns with
      | zero => simp [loopReads] at hr
      | succ turns =>
          rw [loopReads, if_neg hstop, List.mem_singleton] at hr
          exact hr.le
  | @cons b bs rest hsize _ ih =>
      rw [List.length_append, ← Nat.add_assoc, hsize] at hlen ⊢
      have hfirst : s i = b := hs.1 0 b rfl
      have hgo : s i ≠ 0 ∧ ∀ n ∈ len, i < n :=
        ⟨hs.ne_zero (k := 0) (Nat.succ_pos _), fun n hn ↦ by have := hlen n hn; omega⟩
      have hstep := convertBits_size fun k ↦ s (i + k)
      rw [Nat.add_zero] at hstep
      have hrest := hs.right
      rw [hsize] at hrest
      obtain ⟨⟨fuel, hfuel⟩, hreads⟩ := ih hrest hlen
      refine ⟨⟨fuel + 1, ?_⟩, fun turns r hr ↦ ?_⟩
      · rw [printCodes, if_pos hgo, Option.isSome_map, hstep, hfirst]
        exact hfuel
      · cases turns with
        | zero => simp [loopReads] at hr
        | succ turns =>
            rw [loopReads, if_pos hgo, hfirst] at hr
            rcases List.mem_cons.mp hr with rfl | hr
            · omega
            · rcases List.mem_append.mp hr with hr | hr
              · obtain ⟨k, hk, rfl⟩ := List.mem_map.mp hr
                have hlt := List.mem_range.mp hk
                omega
              · exact hreads turns r hr

/-- `Print` is in order exactly on whole characters that end before the limit. -/
theorem printEnds_iff (s : ℕ → BitVec 8) (len : Option ℕ) :
    PrintEnds s len ↔
      ∃ bytes, CString s bytes ∧ Whole bytes ∧ ∀ n ∈ len, bytes.length < n := by
  constructor
  · rintro ⟨⟨fuel, hends⟩, hreads⟩
    obtain ⟨bytes, hs, hwhole, hlen⟩ := whole_of_ends hends hreads
    simp only [Nat.zero_add] at hs hlen
    exact ⟨bytes, hs, hwhole, hlen⟩
  · rintro ⟨bytes, hs, hwhole, hlen⟩
    have hs' : CString (fun k ↦ s (0 + k)) bytes := by simpa only [Nat.zero_add] using hs
    obtain ⟨hends, hreads⟩ := ends_of_whole hwhole hs' (by simpa only [Nat.zero_add] using hlen)
    refine ⟨hends, fun turns r hr ↦ ?_⟩
    have hle := hreads turns r hr
    rw [Nat.zero_add] at hle
    refine ⟨fun z hz ↦ ?_, fun n hn ↦ hle.trans_lt (hlen n hn)⟩
    have hne := hs'.ne_zero (hz.trans_le hle)
    rwa [Nat.zero_add] at hne

theorem writeStringEnds_iff_printEnds (pos : Vector2D) (s : ℕ → BitVec 8) :
    WriteStringEnds pos s ↔ PrintEnds s none := by
  simp only [WriteStringEnds, PrintEnds, writeStringCalls_eq, Option.isSome_map]

/-- Both functions are in order exactly on whole characters, and `Print` needs the
terminator before its limit. -/
theorem printing_ends_iff (pos : Vector2D) (s : ℕ → BitVec 8) (len : Option ℕ) :
    (WriteStringEnds pos s ↔ ∃ bytes, CString s bytes ∧ Whole bytes) ∧
      (PrintEnds s len ↔
        ∃ bytes, CString s bytes ∧ Whole bytes ∧ ∀ n ∈ len, bytes.length < n) := by
  refine ⟨?_, printEnds_iff s len⟩
  rw [writeStringEnds_iff_printEnds, printEnds_iff]
  simp only [Option.not_mem_none, false_implies, implies_true, and_true]

/-- A byte that starts no character. -/
theorem printCodes_stray {s : ℕ → BitVec 8} (h : s 0 = 0x80) (fuel : ℕ) :
    printCodes s none fuel 0 = none := by
  induction fuel with
  | zero => rfl
  | succ fuel ih =>
      have hsize := convertBits_size fun k ↦ s (0 + k)
      rw [Nat.add_zero, h] at hsize
      rw [printCodes, if_pos ⟨by rw [h]; decide, by simp⟩]
      simp only [hsize]
      rw [show 0 + countUTF8Size 0x80 = 0 from rfl, ih, Option.map_none]

/-- The string of the one byte `0x80` is never done with. -/
theorem printing_stray :
    ¬∀ (pos : Vector2D) (s : ℕ → BitVec 8) (len : Option ℕ),
      WriteStringEnds pos s ∧ PrintEnds s len := by
  intro hall
  obtain ⟨-, ⟨fuel, hends⟩, -⟩ := hall ⟨0, 0⟩ (fun i ↦ ([0x80, 0] : List (BitVec 8)).getD i 0) none
  rw [printCodes_stray rfl] at hends
  exact Bool.false_ne_true hends

end Font

namespace Terminal

open Font

/-- `Print(const char*)`, if its loop ends within `fuel` turns. -/
def printString (font : Glyphs) (t : Terminal) (s : ℕ → BitVec 8) (len : Option ℕ) (fuel : ℕ) :
    Option Terminal :=
  (printCodes s len fuel 0).map fun r ↦ t.print font r.1

end Terminal
end MinOS
