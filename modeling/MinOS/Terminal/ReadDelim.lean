import MinOS.Terminal.Cat

/-!
# Reading up to a delimiter

`ReadDelim` on any descriptor, with the buffer that it stores to, and the loop that calls it
until it returns 0.
-/

namespace MinOS
namespace File

open ByteMemory
open Cat (piece piece_append_drop piece_length_le piece_ne_nil)

variable {σ : Type}

/-- `Read`, with the bytes that it stores and the descriptor after it. -/
structure FileDescriptor (σ : Type) where
  read : ℕ → σ → Option (List UInt8 × σ)

/-- What a call returns, and the buffer after it. -/
structure Call where
  length : ℕ
  buf : ℕ → UInt8

/-- The loop of `ReadDelim` at index `i`, with `n` turns left. -/
def readDelimLoop (fd : FileDescriptor σ) (delim : UInt8) :
    ℕ → ℕ → (ℕ → UInt8) → σ → Option (Call × σ)
  | 0, i, buf, s => some (⟨i, buf⟩, s)
  | n + 1, i, buf, s => do
      let r ← fd.read 1 s
      match r.1 with
      | [] => some (⟨i, buf⟩, r.2)
      | b :: _ =>
          let buf := Function.update buf i b
          if buf i = delim then some (⟨i + 1, buf⟩, r.2)
          else readDelimLoop fd delim n (i + 1) buf r.2

def readDelim (fd : FileDescriptor σ) (delim : UInt8) (len : UInt64) (buf : ℕ → UInt8) (s : σ) :
    Option (Call × σ) := do
  let r ← readDelimLoop fd delim (len - 1).toNat 0 buf s
  return (⟨r.1.length, Function.update r.1.buf r.1.length 0⟩, r.2)

/-- Calls with the same buffer until one returns 0, if there are at most `fuel` of them. -/
def readAll (fd : FileDescriptor σ) (delim : UInt8) (len : UInt64) :
    ℕ → (ℕ → UInt8) → σ → Option (List Call)
  | 0, _, _ => none
  | fuel + 1, buf, s => do
      let r ← readDelim fd delim len buf s
      if r.1.length = 0 then some [r.1]
      else
        let rest ← readAll fd delim len fuel r.1.buf r.2
        return r.1 :: rest

/-! ## What is wanted -/

/-- The bytes that a call has put into the buffer. -/
def Call.piece (c : Call) : List UInt8 := readBytes c.buf 0 c.length

/-- The descriptor after `n` reads of one byte. -/
def FileDescriptor.after (fd : FileDescriptor σ) : ℕ → σ → Option σ
  | 0, s => some s
  | n + 1, s => do
      let r ← fd.read 1 s
      fd.after n r.2

/-- Reads of one byte give the bytes of the stream one after another, and 0 from its end on. -/
def Serves (fd : FileDescriptor σ) (s : σ) (data : List UInt8) : Prop :=
  ∀ n, ∃ s' r, fd.after n s = some s' ∧ fd.read 1 s' = some r ∧ r.1 = (data.drop n).take 1

/-- The call has put a terminator into the buffer and nothing behind it. -/
structure Terminated (len : ℕ) (buf : ℕ → UInt8) (c : Call) : Prop where
  length_lt : c.length < len
  nul : c.buf c.length = 0
  outside : ∀ i, len ≤ i → c.buf i = buf i

/-- The pieces are the stream, cut behind each delimiter and where the buffer is full. -/
structure Partitions (delim : UInt8) (len : ℕ) (data : List UInt8) (calls : List Call) : Prop where
  nonempty : ∀ c ∈ calls, c.length ≠ 0
  whole : calls.flatMap Call.piece = data
  cut : ∀ c ∈ calls.dropLast, c.piece.getLast? = some delim ∨ c.length = len - 1
  once : ∀ c ∈ calls, delim ∉ c.piece.dropLast

/-! ## Streams -/

section Stream

variable {fd : FileDescriptor σ} {s : σ} {data : List UInt8}

theorem Serves.read (h : Serves fd s data) :
    ∃ s', fd.read 1 s = some (data.take 1, s') ∧ Serves fd s' (data.drop 1) := by
  obtain ⟨s₀, ⟨bytes, s'⟩, hafter, hread, hbytes⟩ := h 0
  obtain rfl : s = s₀ := Option.some.inj hafter
  obtain rfl : bytes = data.take 1 := hbytes
  refine ⟨s', hread, fun n ↦ ?_⟩
  obtain ⟨s'', r, hafter, hread', hbytes'⟩ := h (n + 1)
  rw [FileDescriptor.after, hread] at hafter
  refine ⟨s'', r, hafter, hread', ?_⟩
  rw [hbytes', List.drop_drop, Nat.add_comm 1 n]

/-- A stream is served where every read leaves a descriptor that serves what is left. -/
theorem serves_of_step {P : σ → List UInt8 → Prop}
    (hstep : ∀ s data, P s data →
      ∃ s', fd.read 1 s = some (data.take 1, s') ∧ P s' (data.drop 1))
    (h : P s data) : Serves fd s data := by
  intro n
  induction n generalizing s data with
  | zero =>
      obtain ⟨s', hread, -⟩ := hstep s data h
      exact ⟨s, _, rfl, hread, rfl⟩
  | succ n ih =>
      obtain ⟨s', hread, hnext⟩ := hstep s data h
      obtain ⟨s'', r, hafter, hread', hbytes⟩ := ih hnext
      refine ⟨s'', r, ?_, hread', ?_⟩
      · rw [FileDescriptor.after, hread]
        exact hafter
      · rw [hbytes, List.drop_drop, Nat.add_comm 1 n]

end Stream

/-! ## One piece -/

section Piece

variable (delim : UInt8)

theorem piece_length_le_room (n : ℕ) (data : List UInt8) : (piece delim n data).length ≤ n := by
  induction n generalizing data with
  | zero => exact le_rfl
  | succ n ih =>
      cases data with
      | nil => exact Nat.zero_le _
      | cons b data =>
          rw [piece]
          split
          · exact Nat.succ_le_succ (Nat.zero_le n)
          · exact Nat.succ_le_succ (ih data)

theorem notMem_dropLast_piece (n : ℕ) (data : List UInt8) :
    delim ∉ (piece delim n data).dropLast := by
  induction n generalizing data with
  | zero => exact List.not_mem_nil
  | succ n ih =>
      cases data with
      | nil => exact List.not_mem_nil
      | cons b data =>
          rw [piece]
          split
          case isTrue => exact List.not_mem_nil
          case isFalse hb =>
            rcases List.eq_nil_or_concat (piece delim n data) with hnil | ⟨front, last, hlast⟩
            · rw [hnil]
              exact List.not_mem_nil
            · have hfront := ih data
              rw [hlast, List.concat_eq_append, List.dropLast_concat] at hfront
              rw [hlast, List.concat_eq_append, ← List.cons_append, List.dropLast_concat,
                List.mem_cons]
              rintro (heq | hmem)
              · exact hb heq.symm
              · exact hfront hmem

/-- A piece ends with the delimiter, fills the buffer or takes all that is left. -/
theorem piece_cut (n : ℕ) (data : List UInt8) :
    (piece delim n data).getLast? = some delim ∨ (piece delim n data).length = n ∨
      piece delim n data = data := by
  induction n generalizing data with
  | zero => exact .inr (.inl rfl)
  | succ n ih =>
      cases data with
      | nil => exact .inr (.inr rfl)
      | cons b data =>
          rw [piece]
          split
          case isTrue hb =>
            rw [hb]
            exact .inl rfl
          case isFalse =>
            rcases ih data with hlast | hfull | hall
            · rw [List.getLast?_cons, hlast]
              exact .inl rfl
            · exact .inr (.inl (congrArg Nat.succ hfull))
            · exact .inr (.inr (congrArg (b :: ·) hall))

end Piece

/-! ## One call -/

section OneCall

variable {fd : FileDescriptor σ} {s : σ} {data : List UInt8}

theorem readDelimLoop_spec (hserves : Serves fd s data) (delim : UInt8) (n i : ℕ)
    (buf : ℕ → UInt8) :
    ∃ s', readDelimLoop fd delim n i buf s =
        some (⟨i + (piece delim n data).length, writeBytes buf i (piece delim n data)⟩, s') ∧
      Serves fd s' (data.drop (piece delim n data).length) := by
  induction n generalizing s data i buf with
  | zero =>
      refine ⟨s, ?_, hserves⟩
      rw [readDelimLoop, piece, writeBytes_nil]
      rfl
  | succ n ih =>
      obtain ⟨s₁, hread, hserves₁⟩ := hserves.read
      rw [readDelimLoop, hread, Option.bind_eq_bind, Option.bind_some]
      cases data with
      | nil =>
          refine ⟨s₁, ?_, hserves₁⟩
          rw [piece, writeBytes_nil]
          rfl
      | cons b data =>
          rw [List.take_succ_cons, List.take_zero, piece]
          dsimp only
          rw [Function.update_self]
          by_cases hdelim : b = delim
          · rw [if_pos hdelim, if_pos hdelim, writeBytes_singleton]
            exact ⟨s₁, rfl, hserves₁⟩
          · rw [if_neg hdelim, if_neg hdelim, writeBytes_cons]
            obtain ⟨s₂, hrest, hserves₂⟩ := ih hserves₁ (i + 1) (Function.update buf i b)
            refine ⟨s₂, ?_, hserves₂⟩
            rw [List.drop_succ_cons, List.drop_zero] at hrest
            rw [hrest, List.length_cons, Nat.add_assoc, Nat.add_comm 1]

theorem room_eq {len : UInt64} (hlen : 2 ≤ len) :
    (len - 1).toNat = len.toNat - 1 ∧ 2 ≤ len.toNat := by
  have htwo : 2 ≤ len.toNat := UInt64.le_iff_toNat_le.mp hlen
  refine ⟨UInt64.toNat_sub_of_le _ _ (UInt64.le_iff_toNat_le.mpr ?_), htwo⟩
  exact le_trans (by decide) htwo

theorem readDelim_spec (hserves : Serves fd s data) (delim : UInt8) {len : UInt64} (hlen : 2 ≤ len)
    (buf : ℕ → UInt8) :
    ∃ c s', readDelim fd delim len buf s = some (c, s') ∧
      c.piece = piece delim (len.toNat - 1) data ∧
      c.length = (piece delim (len.toNat - 1) data).length ∧
      Terminated len.toNat buf c ∧
      Serves fd s' (data.drop (piece delim (len.toNat - 1) data).length) := by
  obtain ⟨hroom, htwo⟩ := room_eq hlen
  obtain ⟨s', hloop, hserves'⟩ := readDelimLoop_spec hserves delim (len.toNat - 1) 0 buf
  have hfits := piece_length_le_room delim (len.toNat - 1) data
  rw [Nat.zero_add] at hloop
  rw [readDelim, hroom, hloop, Option.bind_eq_bind, Option.bind_some]
  generalize piece delim (len.toNat - 1) data = bytes at *
  refine ⟨_, s', rfl, ?_, rfl, ⟨?_, Function.update_self _ _ _, fun i hi ↦ ?_⟩, hserves'⟩
  · rw [Call.piece]
    calc readBytes (Function.update (writeBytes buf 0 bytes) bytes.length 0) 0 bytes.length
        = readBytes (writeBytes buf 0 bytes) 0 bytes.length := by
          apply readBytes_congr
          intro x _ hx
          exact Function.update_of_ne (by omega) _ _
      _ = bytes := readBytes_writeBytes buf 0 bytes
  · dsimp only
    omega
  · dsimp only
    rw [Function.update_of_ne (by omega), writeBytes_of_ge _ _ (by omega)]

end OneCall

/-! ## All calls -/

section AllCalls

variable {fd : FileDescriptor σ} {s : σ} {data : List UInt8} {delim : UInt8} {len : ℕ}

theorem partitions_nil : Partitions delim len [] [] :=
  ⟨by simp, rfl, by simp, by simp⟩

theorem Partitions.cons {c : Call} {calls : List Call} (hlen : 2 ≤ len) (hdata : data ≠ [])
    (hpiece : c.piece = piece delim (len - 1) data)
    (hlength : c.length = (piece delim (len - 1) data).length)
    (h : Partitions delim len (data.drop (piece delim (len - 1) data).length) calls) :
    Partitions delim len data (c :: calls) := by
  have hne : c.length ≠ 0 := by
    obtain ⟨n, rfl⟩ : ∃ n, len = n + 2 := ⟨len - 2, by omega⟩
    rw [hlength, Nat.ne_zero_iff_zero_lt]
    exact List.length_pos_of_ne_nil (piece_ne_nil delim n hdata)
  constructor
  · exact List.forall_mem_cons.mpr ⟨hne, h.nonempty⟩
  · rw [List.flatMap_cons, h.whole, hpiece]
    exact piece_append_drop delim (len - 1) data
  · cases calls with
    | nil => simp
    | cons c' calls =>
        refine List.forall_mem_cons.mpr ⟨?_, h.cut⟩
        rw [hpiece, hlength]
        rcases piece_cut delim (len - 1) data with hlast | hfull | hall
        · exact .inl hlast
        · exact .inr hfull
        · -- a further piece would be empty
          have hrest := h.whole
          rw [hall, List.drop_length, List.flatMap_cons] at hrest
          have hempty := (List.append_eq_nil_iff.mp hrest).1
          have hzero : c'.length = 0 := by
            rw [← length_readBytes c'.buf 0 c'.length]
            exact List.length_eq_zero_iff.mpr hempty
          exact absurd hzero (h.nonempty c' List.mem_cons_self)
  · refine List.forall_mem_cons.mpr ⟨?_, h.once⟩
    rw [hpiece]
    exact notMem_dropLast_piece delim (len - 1) data

theorem Terminated.trans {buf : ℕ → UInt8} {c c' : Call} (h : Terminated len buf c)
    (h' : Terminated len c.buf c') : Terminated len buf c' :=
  ⟨h'.length_lt, h'.nul, fun i hi ↦ (h'.outside i hi).trans (h.outside i hi)⟩

/-- Repeated calls cut the stream into pieces, and every call stays in its buffer. -/
theorem readAll_partitions (hserves : Serves fd s data) (delim : UInt8) {len : UInt64}
    (hlen : 2 ≤ len) {fuel : ℕ} (hfuel : data.length < fuel) (buf : ℕ → UInt8) :
    ∃ calls last, readAll fd delim len fuel buf s = some (calls ++ [last]) ∧ last.length = 0 ∧
      Partitions delim len.toNat data calls ∧
      ∀ c ∈ calls ++ [last], Terminated len.toNat buf c := by
  induction fuel generalizing s data buf with
  | zero => exact absurd hfuel (Nat.not_lt_zero _)
  | succ fuel ih =>
      obtain ⟨c, s', hcall, hpiece, hlength, hterminated, hserves'⟩ :=
        readDelim_spec hserves delim hlen buf
      rw [readAll, hcall, Option.bind_eq_bind, Option.bind_some]
      dsimp only
      by_cases hdata : data = []
      · have hzero : c.length = 0 := by
          rw [hlength, hdata]
          cases len.toNat - 1 <;> rfl
        rw [if_pos hzero, hdata]
        refine ⟨[], c, rfl, hzero, partitions_nil, ?_⟩
        simpa using hterminated
      · obtain ⟨-, htwo⟩ := room_eq hlen
        have hrest : (data.drop (piece delim (len.toNat - 1) data).length).length < fuel := by
          obtain ⟨n, hn⟩ : ∃ n, len.toNat - 1 = n + 1 := ⟨len.toNat - 2, by omega⟩
          have hpos := List.length_pos_of_ne_nil (piece_ne_nil delim n hdata)
          have hle := piece_length_le delim (n + 1) data
          rw [hn, List.length_drop]
          omega
        obtain ⟨calls, last, hcalls, hlast, hpartitions, hall⟩ := ih hserves' hrest c.buf
        have hcons := hpartitions.cons htwo hdata hpiece hlength
        rw [if_neg (hcons.nonempty c List.mem_cons_self), hcalls]
        refine ⟨c :: calls, last, rfl, hlast, hcons, ?_⟩
        exact List.forall_mem_cons.mpr ⟨hterminated, fun c' hc' ↦ hterminated.trans (hall c' hc')⟩

end AllCalls

/-- A descriptor that has its stream in a list. -/
def listDescriptor : FileDescriptor (List UInt8) where
  read len s := some (s.take len, s.drop len)

theorem serves_listDescriptor (data : List UInt8) : Serves listDescriptor data data := by
  refine serves_of_step (P := fun s data ↦ s = data) (fun s data h ↦ ?_) rfl
  subst h
  exact ⟨s.drop 1, rfl, rfl⟩

/-- A newline in the last free place of the buffer, and a line that is too long for it. -/
theorem readAll_two_lines :
    ∃ calls last, readAll listDescriptor 10 4 9 (fun _ ↦ 1) [97, 98, 10, 97, 98, 99, 100, 10] =
        some (calls ++ [last]) ∧ last.length = 0 ∧
      Partitions 10 4 [97, 98, 10, 97, 98, 99, 100, 10] calls ∧
      ∀ c ∈ calls ++ [last], Terminated 4 (fun _ ↦ 1) c :=
  readAll_partitions (serves_listDescriptor _) 10 (by decide) (by decide) _

/-! ## Files of the volume -/

section Volume

open Fat

variable {v : Volume} {bound entry : ℕ} {chain : List ℕ} {data : List UInt8}

def ofVolume (v : Volume) : FileDescriptor Fat.FileDescriptor where
  read len fd := v.read fd len

/-- `cat` reads its pieces with this loop. -/
theorem readDelimLoop_ofVolume (delim : UInt8) (n i : ℕ) (buf : ℕ → UInt8)
    (fd : Fat.FileDescriptor) :
    readDelimLoop (ofVolume v) delim n i buf fd =
      (Cat.readDelimLoop v delim n fd).map fun r ↦
        (⟨i + r.1.length, writeBytes buf i r.1⟩, r.2) := by
  induction n generalizing i buf fd with
  | zero =>
      rw [readDelimLoop, Cat.readDelimLoop, Option.map_some, writeBytes_nil]
      rfl
  | succ n ih =>
      rw [readDelimLoop, Cat.readDelimLoop]
      change (v.read fd 1).bind _ = _
      cases v.read fd 1 with
      | none => rfl
      | some r =>
          rw [Option.bind_eq_bind, Option.bind_some, Option.bind_some]
          obtain ⟨bytes, fd'⟩ := r
          cases bytes with
          | nil =>
              dsimp only
              rw [Option.map_some, writeBytes_nil]
              rfl
          | cons b bytes =>
              dsimp only
              rw [Function.update_self]
              by_cases hdelim : b = delim
              · rw [if_pos hdelim, if_pos hdelim, Option.map_some, writeBytes_singleton]
                rfl
              · rw [if_neg hdelim, if_neg hdelim, ih]
                cases Cat.readDelimLoop v delim n fd' with
                | none => rfl
                | some rest =>
                    rw [Option.bind_some, Option.map_some, Option.pure_def, Option.map_some]
                    rw [writeBytes_cons, List.length_cons, Nat.add_assoc, Nat.add_comm 1]

theorem serves_file (hcluster : 0 < v.bytesPerCluster) (howns : Owns v bound entry chain)
    (hholds : Holds v chain data) (hsize : v.fileSize entry = data.length)
    (hsmall : data.length < 2 ^ 32) : Serves (ofVolume v) (.fresh entry) data := by
  refine serves_of_step (P := fun fd rest ↦ fd.fatEntry = entry ∧
    ∃ p ≤ data.length, Reading v chain fd p ∧ rest = data.drop p) ?_
      ⟨rfl, 0, Nat.zero_le _, Cat.reading_fresh v entry chain, rfl⟩
  rintro fd _ ⟨rfl, p, hp, hpos, rfl⟩
  obtain ⟨fd', hread, hentry, hpos'⟩ := read_spec hcluster howns hholds hsize hsmall hpos hp 1
  refine ⟨fd', hread, hentry, _, ?_, hpos', ?_⟩
  · omega
  · rw [List.drop_drop, List.drop_eq_drop_iff]
    omega

/-- The pieces of a file are its bytes, whatever the clusters they lie in. -/
theorem readAll_file (hcluster : 0 < v.bytesPerCluster) (howns : Owns v bound entry chain)
    (hlong : v.fileSize entry ≤ chain.length * v.bytesPerCluster) (delim : UInt8) {len : UInt64}
    (hlen : 2 ≤ len) (buf : ℕ → UInt8) :
    ∃ calls last, readAll (ofVolume v) delim len (v.fileSize entry + 1) buf (.fresh entry) =
        some (calls ++ [last]) ∧ last.length = 0 ∧
      Partitions delim len.toNat (content v entry chain) calls ∧
      ∀ c ∈ calls ++ [last], Terminated len.toNat buf c := by
  have hlength := length_content v entry chain
  have hserves := serves_file hcluster howns (holds_chainBytes hcluster hlong) hlength.symm
    (hlength.trans_lt (v.fileSize_lt entry))
  exact readAll_partitions hserves delim hlen (hlength.trans_lt (Nat.lt_succ_self _)) buf

end Volume

end File
end MinOS
