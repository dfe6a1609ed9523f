import MinOS.Fat.Sharing
import Mathlib.Data.List.TakeWhile

/-!
# The command `cat`

`ReadDelim` reads a file piece by piece, up to a newline each, and `PrintToFD`
formats every piece into a buffer of its own before it writes it.
-/

namespace MinOS
namespace Cat

open Fat

/-- The loop of `ReadDelim`, with room for `n` bytes: the bytes that it stores. -/
def readDelimLoop (v : Volume) (delim : UInt8) :
    ℕ → FileDescriptor → Option (List UInt8 × FileDescriptor)
  | 0, fd => some ([], fd)
  | n + 1, fd => do
      let r ← v.read fd 1
      match r.1 with
      | [] => some ([], r.2)
      | b :: _ =>
          if b = delim then some ([b], r.2)
          else
            let rest ← readDelimLoop v delim n r.2
            return (b :: rest.1, rest.2)

/-- `ReadDelim` into a buffer of `len` bytes, the last of which is for the terminator. -/
def readDelim (v : Volume) (fd : FileDescriptor) (delim : UInt8) (len : ℕ) :
    Option (List UInt8 × FileDescriptor) :=
  readDelimLoop v delim (len - 1) fd

/-- A call of `PrintToFD`: the places of its buffer that `vsprintf` stores to, and what it
writes to the descriptor. -/
structure Printed where
  stores : List ℕ
  written : List UInt8

/-- `PrintToFD(fd, "%s", s)`, where a buffer with these bytes and a terminator is at `s`. -/
def printToFD (bytes : List UInt8) : Printed :=
  let s := bytes.takeWhile (· ≠ 0)
  { stores := List.range (s.length + 1), written := s }

/-- The loop of `cat`: its calls of `PrintToFD`, if it ends within `fuel` turns. -/
def catLoop (v : Volume) : ℕ → FileDescriptor → Option (List Printed)
  | 0, _ => none
  | fuel + 1, fd => do
      let r ← readDelim v fd 10 1024
      if r.1.length = 0 then some []
      else
        let rest ← catLoop v fuel r.2
        return printToFD r.1 :: rest

/-- `cat` on a file writes its bytes, and stores no byte behind the buffer of `PrintToFD`. -/
def Faithful (v : Volume) (entry : ℕ) (data : List UInt8) : Prop :=
  ∃ fuel calls, catLoop v fuel (.fresh entry) = some calls ∧
    calls.flatMap Printed.written = data ∧ ∀ c ∈ calls, ∀ i ∈ c.stores, i < 128

/-- The lines of a file, with their newlines. -/
def lines : List UInt8 → List (List UInt8)
  | [] => []
  | b :: s =>
      if b = 10 then [b] :: lines s
      else
        match lines s with
        | [] => [[b]]
        | l :: ls => (b :: l) :: ls

/-! ## One piece -/

/-- The bytes up to the delimiter, and `n` of them at most. -/
def piece (delim : UInt8) : ℕ → List UInt8 → List UInt8
  | 0, _ => []
  | _ + 1, [] => []
  | n + 1, b :: s => if b = delim then [b] else b :: piece delim n s

section Piece

variable {v : Volume} {bound : ℕ} {fd : FileDescriptor} {chain : List ℕ} {data : List UInt8}

theorem piece_length_le (delim : UInt8) (n : ℕ) (s : List UInt8) :
    (piece delim n s).length ≤ s.length := by
  induction n generalizing s with
  | zero => exact Nat.zero_le _
  | succ n ih =>
      cases s with
      | nil => exact le_rfl
      | cons b s =>
          rw [piece]
          split
          · exact Nat.succ_le_succ (Nat.zero_le _)
          · exact Nat.succ_le_succ (ih s)

theorem piece_append_drop (delim : UInt8) (n : ℕ) (s : List UInt8) :
    piece delim n s ++ s.drop (piece delim n s).length = s := by
  induction n generalizing s with
  | zero => rfl
  | succ n ih =>
      cases s with
      | nil => rfl
      | cons b s =>
          rw [piece]
          split
          · rfl
          · exact congrArg (b :: ·) (ih s)

theorem piece_ne_nil (delim : UInt8) (n : ℕ) {s : List UInt8} (hs : s ≠ []) :
    piece delim (n + 1) s ≠ [] := by
  cases s with
  | nil => exact absurd rfl hs
  | cons b s =>
      rw [piece]
      split <;> exact List.cons_ne_nil _ _

theorem readDelimLoop_spec (hcluster : 0 < v.bytesPerCluster)
    (hholds : Holds v chain data) (hsmall : data.length < 2 ^ 32) (delim : UInt8) (n : ℕ) {p : ℕ}
    (howns : Owns v bound fd.fatEntry chain) (hsize : v.fileSize fd.fatEntry = data.length)
    (hpos : Reading v chain fd p) (hp : p ≤ data.length) :
    ∃ fd', readDelimLoop v delim n fd = some (piece delim n (data.drop p), fd') ∧
      fd'.fatEntry = fd.fatEntry ∧
      Reading v chain fd' (p + (piece delim n (data.drop p)).length) := by
  induction n generalizing fd p with
  | zero => exact ⟨fd, rfl, rfl, hpos⟩
  | succ n ih =>
      obtain ⟨fd₁, hread, hentry, hpos₁⟩ := read_spec hcluster howns hholds hsize hsmall hpos hp 1
      rw [readDelimLoop, hread, Option.bind_eq_bind, Option.bind_some]
      rcases hp.lt_or_eq with hlt | rfl
      · rw [Nat.min_eq_left (by omega)] at hpos₁
        rw [List.drop_eq_getElem_cons hlt, List.take_succ_cons, List.take_zero, piece]
        dsimp only
        by_cases hdelim : data[p] = delim
        · rw [if_pos hdelim, if_pos hdelim]
          exact ⟨fd₁, rfl, hentry, hpos₁⟩
        · rw [if_neg hdelim, if_neg hdelim]
          obtain ⟨fd₂, hrest, hentry₂, hpos₂⟩ :=
            ih (by rwa [hentry]) (by rwa [hentry]) hpos₁ (by omega)
          refine ⟨fd₂, ?_, hentry₂.trans hentry, ?_⟩
          · rw [hrest]
            rfl
          · rwa [List.length_cons, Nat.add_comm _ 1, ← Nat.add_assoc]
      · rw [List.drop_length, List.take_nil]
        rw [Nat.sub_self, Nat.min_zero] at hpos₁
        exact ⟨fd₁, rfl, hentry, hpos₁⟩

/-! ## Lines and pieces -/

theorem lines_cons_newline (s : List UInt8) : lines (10 :: s) = [10] :: lines s := by
  rw [lines, if_pos rfl]

theorem lines_cons_of_ne {b : UInt8} (h : b ≠ 10) (s : List UInt8) :
    lines (b :: s) = (b :: (lines s).headD []) :: (lines s).tail := by
  rw [lines, if_neg h]
  cases lines s <;> rfl

/-- A piece that does not fill its buffer is a line. -/
theorem lines_of_piece_lt {n : ℕ} {s : List UInt8} (hs : s ≠ []) (h : (piece 10 n s).length < n) :
    lines s = piece 10 n s :: lines (s.drop (piece 10 n s).length) := by
  induction n generalizing s with
  | zero => exact absurd h (Nat.not_lt_zero _)
  | succ n ih =>
      cases s with
      | nil => exact absurd rfl hs
      | cons b s =>
          rw [piece] at h ⊢
          by_cases hb : b = 10
          · rw [if_pos hb, hb, lines_cons_newline]
            rfl
          · rw [if_neg hb, List.length_cons, Nat.succ_lt_succ_iff] at h
            rw [if_neg hb, lines_cons_of_ne hb]
            by_cases hs' : s = []
            · subst hs'
              cases n with
              | zero => exact absurd h (Nat.not_lt_zero _)
              | succ n => rfl
            · rw [ih hs' h]
              rfl

theorem piece_length_le_line (n : ℕ) (s : List UInt8) :
    (piece 10 n s).length ≤ ((lines s).headD []).length := by
  induction n generalizing s with
  | zero => exact Nat.zero_le _
  | succ n ih =>
      cases s with
      | nil => exact le_rfl
      | cons b s =>
          rw [piece]
          by_cases hb : b = 10
          · rw [if_pos hb, hb, lines_cons_newline]
            exact le_rfl
          · rw [if_neg hb, lines_cons_of_ne hb]
            exact Nat.succ_le_succ (ih s)

theorem printToFD_of_notMem {bytes : List UInt8} (h : 0 ∉ bytes) :
    printToFD bytes = ⟨List.range (bytes.length + 1), bytes⟩ := by
  have hall : bytes.takeWhile (· ≠ 0) = bytes := by
    rw [List.takeWhile_eq_self_iff]
    intro b hb
    exact decide_eq_true fun heq ↦ h (heq ▸ hb)
  rw [printToFD, hall]

/-! ## The command -/

/-- One turn of `cat` at the read position `p`. -/
theorem catLoop_succ (hcluster : 0 < v.bytesPerCluster) (hholds : Holds v chain data)
    (hsmall : data.length < 2 ^ 32) (hnul : 0 ∉ data) (fuel : ℕ) {p : ℕ}
    (howns : Owns v bound fd.fatEntry chain) (hsize : v.fileSize fd.fatEntry = data.length)
    (hpos : Reading v chain fd p) (hp : p ≤ data.length) :
    ∃ fd', fd'.fatEntry = fd.fatEntry ∧
      Reading v chain fd' (p + (piece 10 1023 (data.drop p)).length) ∧
      catLoop v (fuel + 1) fd =
        if data.drop p = [] then some []
        else (catLoop v fuel fd').map
          (⟨List.range ((piece 10 1023 (data.drop p)).length + 1), piece 10 1023 (data.drop p)⟩ :: ·) := by
  obtain ⟨fd', hread, hentry, hpos'⟩ :=
    readDelimLoop_spec hcluster hholds hsmall 10 1023 howns hsize hpos hp
  refine ⟨fd', hentry, hpos', ?_⟩
  have hpiece : 0 ∉ piece 10 1023 (data.drop p) := by
    intro hmem
    have hin : 0 ∈ data.drop p := by
      rw [← piece_append_drop 10 1023 (data.drop p)]
      exact List.mem_append_left _ hmem
    exact hnul (List.mem_of_mem_drop hin)
  rw [catLoop, readDelim, hread, Option.bind_eq_bind, Option.bind_some]
  by_cases hend : data.drop p = []
  · rw [if_pos hend, hend]
    rfl
  · have hne : (piece 10 1023 (data.drop p)).length ≠ 0 := fun hzero ↦
      piece_ne_nil 10 1022 hend (List.length_eq_zero_iff.mp hzero)
    rw [if_neg hend, if_neg hne, printToFD_of_notMem hpiece]
    cases catLoop v fuel fd' <;> rfl

/-- No piece overran the buffer, so every piece was a line. -/
theorem lines_le_of_catLoop (hcluster : 0 < v.bytesPerCluster) (hholds : Holds v chain data)
    (hsmall : data.length < 2 ^ 32) (hnul : 0 ∉ data) {fuel p : ℕ} {calls : List Printed}
    (howns : Owns v bound fd.fatEntry chain) (hsize : v.fileSize fd.fatEntry = data.length)
    (hpos : Reading v chain fd p) (hp : p ≤ data.length) (hcat : catLoop v fuel fd = some calls)
    (hstores : ∀ c ∈ calls, ∀ i ∈ c.stores, i < 128) :
    ∀ l ∈ lines (data.drop p), l.length < 128 := by
  induction fuel generalizing fd p calls with
  | zero => cases hcat
  | succ fuel ih =>
      obtain ⟨fd', hentry, hpos', hturn⟩ :=
        catLoop_succ hcluster hholds hsmall hnul fuel howns hsize hpos hp
      rw [hturn] at hcat
      by_cases hend : data.drop p = []
      · rw [hend]
        simp [lines]
      · rw [if_neg hend] at hcat
        obtain ⟨rest, hrest, rfl⟩ := Option.map_eq_some_iff.mp hcat
        obtain ⟨hfirst, hlater⟩ := List.forall_mem_cons.mp hstores
        have hshort := hfirst _ (List.mem_range.mpr (Nat.lt_succ_self _))
        have hle := piece_length_le 10 1023 (data.drop p)
        rw [List.length_drop] at hle
        have htail := ih (by rwa [hentry]) (by rwa [hentry]) hpos' (by omega) hrest hlater
        rw [lines_of_piece_lt hend (hshort.trans (by decide)), List.drop_drop]
        exact List.forall_mem_cons.mpr ⟨hshort, htail⟩

/-- Lines that fit into the buffer are printed one by one. -/
theorem catLoop_of_lines_le (hcluster : 0 < v.bytesPerCluster) (hholds : Holds v chain data)
    (hsmall : data.length < 2 ^ 32) (hnul : 0 ∉ data) {fuel p : ℕ}
    (howns : Owns v bound fd.fatEntry chain) (hsize : v.fileSize fd.fatEntry = data.length)
    (hpos : Reading v chain fd p) (hp : p ≤ data.length) (hfuel : data.length - p < fuel)
    (hlines : ∀ l ∈ lines (data.drop p), l.length < 128) :
    ∃ calls, catLoop v fuel fd = some calls ∧ calls.flatMap Printed.written = data.drop p ∧
      ∀ c ∈ calls, ∀ i ∈ c.stores, i < 128 := by
  induction fuel generalizing fd p with
  | zero => exact absurd hfuel (Nat.not_lt_zero _)
  | succ fuel ih =>
      obtain ⟨fd', hentry, hpos', hturn⟩ :=
        catLoop_succ hcluster hholds hsmall hnul fuel howns hsize hpos hp
      rw [hturn]
      by_cases hend : data.drop p = []
      · exact ⟨[], if_pos hend, hend.symm, by simp⟩
      · rw [if_neg hend]
        have hfull := piece_append_drop 10 1023 (data.drop p)
        have hline := piece_length_le_line 1023 (data.drop p)
        have hne : 0 < (piece 10 1023 (data.drop p)).length :=
          List.length_pos_of_ne_nil (piece_ne_nil 10 1022 hend)
        have hle := piece_length_le 10 1023 (data.drop p)
        rw [List.length_drop] at hle
        have hshort : (piece 10 1023 (data.drop p)).length < 128 := by
          refine hline.trans_lt ?_
          cases hl : lines (data.drop p) with
          | nil => exact Nat.succ_pos _
          | cons l ls => exact hlines l (hl ▸ List.mem_cons_self)
        rw [lines_of_piece_lt hend (hshort.trans (by decide)), List.drop_drop] at hlines
        rw [List.drop_drop] at hfull
        obtain ⟨rest, hrest, hwritten, hstores⟩ := ih (by rwa [hentry]) (by rwa [hentry]) hpos'
          (by omega) (by omega) (List.forall_mem_cons.mp hlines).2
        refine ⟨_, by rw [hrest, Option.map_some], ?_, ?_⟩
        · rw [List.flatMap_cons, hwritten, hfull]
        · refine List.forall_mem_cons.mpr ⟨fun i hi ↦ ?_, hstores⟩
          exact (Nat.le_of_lt_succ (List.mem_range.mp hi)).trans_lt hshort

end Piece

section Cat

variable {v : Volume} {bound entry fuel : ℕ} {chain : List ℕ} {calls : List Printed}

theorem reading_fresh (v : Volume) (entry : ℕ) (chain : List ℕ) :
    Reading v chain (FileDescriptor.fresh entry) 0 :=
  ⟨rfl, .inl ⟨rfl, rfl, rfl⟩⟩

theorem lines_le_of_cat (hcluster : 0 < v.bytesPerCluster) (howns : Owns v bound entry chain)
    (hlong : v.fileSize entry ≤ chain.length * v.bytesPerCluster)
    (hnul : 0 ∉ content v entry chain) (hcat : catLoop v fuel (.fresh entry) = some calls)
    (hstores : ∀ c ∈ calls, ∀ i ∈ c.stores, i < 128) :
    ∀ l ∈ lines (content v entry chain), l.length < 128 := by
  have hlength := length_content v entry chain
  have howns' : Owns v bound (FileDescriptor.fresh entry).fatEntry chain := howns
  have hsize : v.fileSize (FileDescriptor.fresh entry).fatEntry =
      (content v entry chain).length := hlength.symm
  exact lines_le_of_catLoop hcluster (holds_chainBytes hcluster hlong)
    (hlength.trans_lt (v.fileSize_lt entry)) hnul howns' hsize (reading_fresh v entry chain)
    (Nat.zero_le _) hcat hstores

end Cat

/-- The sample volume with a file in cluster 3 that is one line of 128 bytes. -/
def lineVolume : Volume where
  bpb := sampleVolume.bpb
  mem := fun x ↦
    if x = 16395 ∨ x = 16399 then 0x0f else if 16392 ≤ x ∧ x < 16399 then 0xff
    else if x = 17434 then 3 else if x = 17436 then 128
    else if 17920 ≤ x then 97 else 0

theorem lineVolume_owns : Owns lineVolume 16 sampleEntry [3] := by
  refine .inr ⟨⟨?_, ?_⟩, by decide +kernel⟩
  · show isEndOfClusterchain (lineVolume.fatEntry 3) = true
    decide +kernel
  · decide

theorem lineVolume_lines :
    ¬∀ l ∈ lines (content lineVolume sampleEntry [3]), l.length < 128 := by
  decide +kernel

end Cat
end MinOS
