import MinOS.Graphics.Geometry
import Mathlib.Data.List.Basic
import Mathlib.Data.BitVec

/-!
# Text on a window

`font.cpp` and `FillRectangle`: the pixels that they write, as a list of
positions.  The bitmap font is a file that is linked in, and the glyphs beyond
ASCII come from a library.
-/

namespace MinOS
namespace Font

open Graphics

/-- The bitmap font and the other glyphs. -/
structure Glyphs where
  /-- `_binary_hankaku_bin_size`. -/
  hankakuSize : ℕ
  hankaku : ℕ → BitVec 8
  /-- The pixels of a glyph, relative to the position of its character, if FreeType
  can render it. -/
  freeType : ℕ → Option (List Vector2D)

/-- The pixels that `FillRectangle` writes. -/
def fillRectangle (pos size : Vector2D) : List Vector2D :=
  (List.range size.y.toNat).flatMap fun dy ↦
    (List.range size.x.toNat).map fun dx ↦ pos + ⟨dx, dy⟩

/-- `GetFont`. -/
def getFont (font : Glyphs) (c : BitVec 8) : Option ℕ :=
  let index := (16 * c.signExtend 32).toNat
  if index ≥ font.hankakuSize then none else some index

/-- The pixels that `WriteAscii` writes. -/
def writeAscii (font : Glyphs) (pos : Vector2D) (c : BitVec 8) : List Vector2D :=
  match getFont font c with
  | none => []
  | some index =>
      (List.range 16).flatMap fun dy ↦
        ((List.range 8).filter fun dx ↦ (font.hankaku (index + dy) <<< dx) &&& 0x80 ≠ 0).map
          fun dx ↦ pos + ⟨dx, dy⟩

/-- `CountUTF8Size`. -/
def countUTF8Size (c : BitVec 8) : ℕ :=
  if c < 0x80 then 1
  else if 0xc0 ≤ c ∧ c < 0xe0 then 2
  else if 0xe0 ≤ c ∧ c < 0xf0 then 3
  else if 0xf0 ≤ c ∧ c < 0xf8 then 4
  else 0

/-- The low `bits` bits of a byte, moved up by `shift`. -/
def utf8Bits (c : BitVec 8) (bits shift : ℕ) : ℕ := c.toNat % 2 ^ bits * 2 ^ shift

/-- `ConvertUTF8To32`: the code point and the number of bytes. -/
def convertUTF8To32 (u8 : ℕ → BitVec 8) : ℕ × ℕ :=
  match countUTF8Size (u8 0) with
  | 1 => ((u8 0).toNat, 1)
  | 2 => (utf8Bits (u8 0) 5 6 + utf8Bits (u8 1) 6 0, 2)
  | 3 => (utf8Bits (u8 0) 4 12 + utf8Bits (u8 1) 6 6 + utf8Bits (u8 2) 6 0, 3)
  | 4 => (utf8Bits (u8 0) 3 18 + utf8Bits (u8 1) 6 12 + utf8Bits (u8 2) 6 6 +
      utf8Bits (u8 3) 6 0, 4)
  | _ => (0, 0)

/-- `IsHankaku`. -/
def isHankaku (c : ℕ) : Bool := c ≤ 0x7f

/-- The pixels that `WriteUnicode` writes. -/
def writeUnicode (font : Glyphs) (pos : Vector2D) (c : ℕ) : List Vector2D :=
  if c ≤ 0x7f then writeAscii font pos (BitVec.ofNat 8 c)
  else
    match font.freeType c with
    | none => writeAscii font pos 0x3f ++ writeAscii font (pos + ⟨8, 0⟩) 0x3f
    | some glyph => glyph.map (pos + ·)

/-- The pixels that the loop of `WriteString` writes from the byte `i` and the column
`x` on, if it ends within `fuel` turns. -/
def writeStringLoop (font : Glyphs) (pos : Vector2D) (s : ℕ → BitVec 8) :
    ℕ → ℕ → ℤ → Option (List Vector2D)
  | 0, _, _ => none
  | fuel + 1, i, x =>
      if s i = 0 then some []
      else
        let u := convertUTF8To32 fun k ↦ s (i + k)
        (writeStringLoop font pos s fuel (i + u.2) (x + if isHankaku u.1 then 1 else 2)).map
          (writeUnicode font (pos + ⟨8 * x, 0⟩) u.1 ++ ·)

/-- `WriteString`, if it ends within `fuel` turns of its loop. -/
def writeString (font : Glyphs) (pos : Vector2D) (s : ℕ → BitVec 8) (fuel : ℕ) :
    Option (List Vector2D) :=
  writeStringLoop font pos s fuel 0 0

theorem mem_fillRectangle {pos size p : Vector2D} (h : p ∈ fillRectangle pos size) :
    (Rectangle.mk pos size).Contains p := by
  simp only [fillRectangle, List.mem_flatMap, List.mem_map, List.mem_range] at h
  obtain ⟨dy, hdy, dx, hdx, rfl⟩ := h
  simp only [Rectangle.Contains, Vector2D.add_x, Vector2D.add_y]
  omega

theorem mem_fillRectangle_of_contains {pos size p : Vector2D}
    (h : (Rectangle.mk pos size).Contains p) : p ∈ fillRectangle pos size := by
  simp only [Rectangle.Contains] at h
  simp only [fillRectangle, List.mem_flatMap, List.mem_map, List.mem_range]
  refine ⟨(p.y - pos.y).toNat, by omega, (p.x - pos.x).toNat, by omega, ?_⟩
  apply Vector2D.ext
  · rw [Vector2D.add_x]
    dsimp only
    omega
  · rw [Vector2D.add_y]
    dsimp only
    omega

/-- A character of the bitmap font stays in its cell. -/
theorem mem_writeAscii {font : Glyphs} {pos p : Vector2D} {c : BitVec 8}
    (h : p ∈ writeAscii font pos c) : (Rectangle.mk pos ⟨8, 16⟩).Contains p := by
  rw [writeAscii] at h
  cases hfont : getFont font c with
  | none => simp [hfont] at h
  | some index =>
      simp only [hfont, List.mem_flatMap, List.mem_map, List.mem_filter, List.mem_range] at h
      obtain ⟨dy, hdy, dx, ⟨hdx, -⟩, rfl⟩ := h
      simp only [Rectangle.Contains, Vector2D.add_x, Vector2D.add_y]
      omega

theorem mem_writeAscii_add (font : Glyphs) (pos p d : Vector2D) (c : BitVec 8) :
    p + d ∈ writeAscii font (pos + d) c ↔ p ∈ writeAscii font pos c := by
  have hmoved : ∀ q : Vector2D, pos + d + q = p + d ↔ pos + q = p := by
    intro q
    simp only [Vector2D.ext_iff, Vector2D.add_x, Vector2D.add_y]
    omega
  rw [writeAscii, writeAscii]
  cases getFont font c with
  | none => simp
  | some index => simp only [List.mem_flatMap, List.mem_map, hmoved]

theorem mem_writeUnicode {font : Glyphs} {pos p : Vector2D} {c : ℕ} (hc : c ≤ 0x7f)
    (h : p ∈ writeUnicode font pos c) : (Rectangle.mk pos ⟨8, 16⟩).Contains p := by
  rw [writeUnicode, if_pos hc] at h
  exact mem_writeAscii h

theorem convertUTF8To32_ascii {u8 : ℕ → BitVec 8} (h : u8 0 < 0x80) :
    convertUTF8To32 u8 = ((u8 0).toNat, 1) := by
  have hsize : countUTF8Size (u8 0) = 1 := if_pos h
  simp only [convertUTF8To32, hsize]

/-- A character that a string of ASCII text can have. -/
def IsAscii (c : BitVec 8) : Prop := c ≠ 0 ∧ c < 0x80

instance (c : BitVec 8) : Decidable (IsAscii c) := inferInstanceAs (Decidable (_ ∧ _))

/-- The pixels of ASCII characters from the column `x` on. -/
def asciiPixels (font : Glyphs) (pos : Vector2D) : List (BitVec 8) → ℤ → List Vector2D
  | [], _ => []
  | c :: l, x => writeAscii font (pos + ⟨8 * x, 0⟩) c ++ asciiPixels font pos l (x + 1)

theorem writeStringLoop_asciiPixels (font : Glyphs) (pos : Vector2D) {s : ℕ → BitVec 8}
    {l : List (BitVec 8)} (hascii : ∀ c ∈ l, IsAscii c) {fuel i : ℕ} (x : ℤ)
    (hs : ∀ k ≤ l.length, s (i + k) = l[k]?.getD 0) (hfuel : l.length < fuel) :
    writeStringLoop font pos s fuel i x = some (asciiPixels font pos l x) := by
  induction l generalizing fuel i x with
  | nil =>
      obtain ⟨fuel, rfl⟩ := Nat.exists_eq_succ_of_ne_zero (Nat.ne_of_gt hfuel)
      have hend : s i = 0 := hs 0 (Nat.le_refl 0)
      rw [writeStringLoop, if_pos hend, asciiPixels]
  | cons c l ih =>
      obtain ⟨fuel, rfl⟩ := Nat.exists_eq_succ_of_ne_zero (Nat.ne_zero_of_lt hfuel)
      have hc := hascii c List.mem_cons_self
      have hfirst : s i = c := hs 0 (Nat.zero_le _)
      have hconvert : (convertUTF8To32 fun k ↦ s (i + k)) = (c.toNat, 1) := by
        have hlt : s (i + 0) < 0x80 := by rw [Nat.add_zero, hfirst]; exact hc.2
        exact (convertUTF8To32_ascii hlt).trans (by rw [Nat.add_zero, hfirst])
      have hle : c.toNat ≤ 0x7f := Nat.le_of_lt_succ (BitVec.lt_def.mp hc.2)
      have hrest := @ih (fun d hd ↦ hascii d (List.mem_cons_of_mem c hd)) fuel (i + 1) (x + 1)
        (fun k hk ↦ by
          rw [Nat.add_right_comm, Nat.add_assoc, hs (k + 1) (Nat.succ_le_succ hk)]
          rfl)
        (Nat.lt_of_succ_lt_succ hfuel)
      rw [writeStringLoop, hfirst, if_neg hc.1, hconvert]
      simp only [isHankaku, hle, decide_true, if_true, hrest, Option.map_some]
      rw [writeUnicode, if_pos hle, BitVec.ofNat_toNat, BitVec.setWidth_eq]
      rfl

theorem contains_asciiPixels {font : Glyphs} {pos p : Vector2D} {l : List (BitVec 8)} {x : ℤ}
    (h : p ∈ asciiPixels font pos l x) :
    (Rectangle.mk (pos + ⟨8 * x, 0⟩) ⟨8 * l.length, 16⟩).Contains p := by
  induction l generalizing x with
  | nil => simp [asciiPixels] at h
  | cons c l ih =>
      rw [asciiPixels] at h
      rcases List.mem_append.mp h with h | h
      · have hcell := mem_writeAscii h
        simp only [Rectangle.Contains, Vector2D.add_x, Vector2D.add_y] at hcell ⊢
        push_cast [List.length_cons]
        omega
      · have hrest := ih h
        simp only [Rectangle.Contains, Vector2D.add_x, Vector2D.add_y] at hrest ⊢
        push_cast [List.length_cons]
        omega

/-- An ASCII string of `n` characters is written on `n` cells. -/
theorem writeStringLoop_ascii (font : Glyphs) (pos : Vector2D) {s : ℕ → BitVec 8} (n : ℕ)
    {i : ℕ} (x : ℤ) (hascii : ∀ k < n, s (i + k) ≠ 0 ∧ s (i + k) < 0x80) (hend : s (i + n) = 0) :
    ∃ pixels, writeStringLoop font pos s (n + 1) i x = some pixels ∧
      ∀ p ∈ pixels, (Rectangle.mk (pos + ⟨8 * x, 0⟩) ⟨8 * n, 16⟩).Contains p := by
  let l := (List.range n).map fun k ↦ s (i + k)
  have hlen : l.length = n := by rw [List.length_map, List.length_range]
  have hchars : ∀ c ∈ l, IsAscii c := by
    intro c hc
    obtain ⟨k, hk, rfl⟩ := List.mem_map.mp hc
    exact hascii k (List.mem_range.mp hk)
  have hl : ∀ k ≤ l.length, s (i + k) = l[k]?.getD 0 := by
    intro k hk
    rw [hlen] at hk
    rw [List.getElem?_map]
    rcases Nat.lt_or_eq_of_le hk with hlt | rfl
    · rw [List.getElem?_range hlt]
      rfl
    · rw [hend, List.getElem?_eq_none (Nat.le_of_eq List.length_range)]
      rfl
  refine ⟨_, writeStringLoop_asciiPixels font pos hchars x hl (by omega), ?_⟩
  intro p hp
  rw [← hlen]
  exact contains_asciiPixels hp

theorem writeStringLoop_mono {font : Glyphs} {pos : Vector2D} {s : ℕ → BitVec 8} {fuel : ℕ}
    (n : ℕ) {i : ℕ} {x : ℤ} {pixels : List Vector2D}
    (h : writeStringLoop font pos s fuel i x = some pixels) :
    writeStringLoop font pos s (fuel + n) i x = some pixels := by
  induction fuel generalizing i x pixels with
  | zero => simp [writeStringLoop] at h
  | succ fuel ih =>
      rw [Nat.add_right_comm, writeStringLoop]
      rw [writeStringLoop] at h
      by_cases hend : s i = 0
      · rw [if_pos hend] at h ⊢
        exact h
      · rw [if_neg hend] at h ⊢
        obtain ⟨rest, hrest, hpixels⟩ := Option.map_eq_some_iff.mp h
        dsimp only
        rw [ih hrest, Option.map_some, hpixels]

theorem writeString_unique {font : Glyphs} {pos : Vector2D} {s : ℕ → BitVec 8} {fuel fuel' : ℕ}
    {pixels pixels' : List Vector2D} (h : writeString font pos s fuel = some pixels)
    (h' : writeString font pos s fuel' = some pixels') : pixels = pixels' := by
  have hlong := writeStringLoop_mono fuel' h
  have hlong' := writeStringLoop_mono fuel h'
  rw [Nat.add_comm, hlong] at hlong'
  exact Option.some.inj hlong'

end Font
end MinOS
