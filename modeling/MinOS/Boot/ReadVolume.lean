import MinOS.Boot.LoadKernel

/-!
# Reading the volume

`ReadBlocksChunked` and the part of `UefiMain` that reads the volume with it.  The byte offset
and the block number are two variables of one loop, and the last chunk may be a short one.
-/

namespace MinOS
namespace Boot

open App ByteMemory

abbrev EfiStatus := BitVec 64

/-- `EFI_ERROR`: the status is negative as a signed number. -/
def efiError (status : EfiStatus) : Bool := status.msb

def efiSuccess : EfiStatus := 0

/-- The arguments of a call of `ReadBlocks`. -/
structure BlockRead where
  mediaId : ℕ
  lba : ℕ
  bufferSize : ℕ
  buffer : ℕ

structure BlockIoMedia where
  mediaId : ℕ
  blockSize : ℕ
  lastBlock : ℕ

/-- What a call does may depend on the calls before it. -/
structure BlockIo where
  media : BlockIoMedia
  readBlocks : List (BlockRead × EfiStatus) → BlockRead → (ℕ → UInt8) → EfiStatus × (ℕ → UInt8)

/-- The memory, and the calls that were made with what they returned. -/
structure Fill where
  mem : ℕ → UInt8
  reads : List (BlockRead × EfiStatus)

def BlockIo.call (io : BlockIo) (r : BlockRead) (s : Fill) : EfiStatus × Fill :=
  let result := io.readBlocks s.reads r s.mem
  (result.1, ⟨result.2, s.reads ++ [(r, result.1)]⟩)

/-- `chunk_size`. -/
def chunkSize : ℕ := 64 * 1024

theorem chunkSize_pos : 0 < chunkSize := by decide

def readSize (totalBytes offset : ℕ) : ℕ :=
  if uint64Add offset chunkSize > totalBytes then uint64Sub totalBytes offset else chunkSize

/-- The loop of `ReadBlocksChunked`, if it ends within `fuel` turns. -/
def readLoop (io : BlockIo) (mediaId totalBytes dst : ℕ) :
    ℕ → ℕ → ℕ → Fill → Option (EfiStatus × Fill)
  | 0, _, _, _ => none
  | fuel + 1, offset, lba, s =>
      if offset < totalBytes then
        let size := readSize totalBytes offset
        let result := io.call ⟨mediaId, lba, size, uint64Add dst offset⟩ s
        if efiError result.1 then some result
        else
          readLoop io mediaId totalBytes dst fuel (uint64Add offset chunkSize)
            (uint64Add lba (size / io.media.blockSize)) result.2
      else some (efiSuccess, s)

def readBlocksChunked (io : BlockIo) (mediaId totalBytes buffer fuel : ℕ) (mem : ℕ → UInt8) :
    Option (EfiStatus × Fill) :=
  readLoop io mediaId totalBytes buffer fuel 0 0 ⟨mem, []⟩

/-- `volume_bytes`. -/
def volumeBytes (media : BlockIoMedia) : ℕ :=
  let bytes := media.blockSize * uint64Add media.lastBlock 1 % 2 ^ 64
  if bytes > 128 * 1024 * 1024 then 128 * 1024 * 1024 else bytes

inductive VolumeRead where
  | halted (msg : String) (status : EfiStatus)
  | image (addr : ℕ) (s : Fill)

/-- `read_volume` of `UefiMain`. -/
def readVolume (allocatePages : ℕ → EfiStatus × ℕ) (io : BlockIo) (fuel : ℕ) (mem : ℕ → UInt8) :
    Option VolumeRead :=
  let numPages := uint64Add (volumeBytes io.media) 0xFFF / 0x1000
  let granted := allocatePages numPages
  if efiError granted.1 then some (.halted "AllocatePages failed" granted.1)
  else do
    let result ←
      readBlocksChunked io io.media.mediaId (volumeBytes io.media) granted.2 fuel mem
    if efiError result.1 then some (.halted "ReadBlocksChunked failed" result.1)
    else some (.image granted.2 result.2)

/-! ## What is wanted -/

/-- One call on a device with these bytes. -/
def blockCopy (device : ℕ → UInt8) (blockSize : ℕ) (r : BlockRead) (mem : ℕ → UInt8) : ℕ → UInt8 :=
  writeBytes mem r.buffer (readBytes device (r.lba * blockSize) r.bufferSize)

/-- A call for whole blocks that succeeds copies them from the device. -/
def Serves (io : BlockIo) (device : ℕ → UInt8) : Prop :=
  ∀ before r mem, io.media.blockSize ∣ r.bufferSize → r.buffer + r.bufferSize ≤ 2 ^ 64 →
    efiError (io.readBlocks before r mem).1 = false →
    (io.readBlocks before r mem).2 = blockCopy device io.media.blockSize r mem

/-- The calls are as good as one call for all of it, and the first that fails is the last. -/
structure LikeOneRead (io : BlockIo) (device : ℕ → UInt8) (whole : BlockRead) (mem : ℕ → UInt8)
    (status : EfiStatus) (s : Fill) : Prop where
  success : (∀ r ∈ s.reads, efiError r.2 = false) →
    status = efiSuccess ∧ s.mem = blockCopy device io.media.blockSize whole mem
  failure : ∀ before r after, s.reads = before ++ r :: after → efiError r.2 = true →
    after = [] ∧ status = r.2
  within : ∀ r ∈ s.reads,
    whole.buffer ≤ r.1.buffer ∧ r.1.buffer + r.1.bufferSize ≤ whole.buffer + whole.bufferSize

/-! ## The bytes of one call -/

theorem blockCopy_apply (device : ℕ → UInt8) (blockSize : ℕ) (r : BlockRead) (mem : ℕ → UInt8)
    {i : ℕ} (hi : i < r.bufferSize) :
    blockCopy device blockSize r mem (r.buffer + i) = device (r.lba * blockSize + i) := by
  rw [blockCopy, writeBytes_add mem (by rwa [length_readBytes])]
  simp [readBytes]

theorem blockCopy_of_notMem (device : ℕ → UInt8) (blockSize : ℕ) (r : BlockRead) (mem : ℕ → UInt8)
    {x : ℕ} (hx : ¬ (r.buffer ≤ x ∧ x < r.buffer + r.bufferSize)) :
    blockCopy device blockSize r mem x = mem x := by
  apply writeBytes_of_notMem
  rwa [length_readBytes]

/-- Bytes that follow one another on the device and in the buffer are copied as one block. -/
theorem blockCopy_append {device : ℕ → UInt8} {blockSize : ℕ} {r : BlockRead} {dst n : ℕ}
    (hlba : r.lba * blockSize = n) (hbuffer : r.buffer = dst + n) (mem : ℕ → UInt8) :
    blockCopy device blockSize r (writeBytes mem dst (readBytes device 0 n)) =
      writeBytes mem dst (readBytes device 0 (n + r.bufferSize)) := by
  have happend := writeBytes_append mem dst (readBytes device 0 n)
    (readBytes device n r.bufferSize)
  rw [length_readBytes] at happend
  rw [blockCopy, hlba, hbuffer, happend, readBytes_add, Nat.zero_add]

/-! ## The loop -/

section Loop

variable {io : BlockIo} {device : ℕ → UInt8} {mediaId total dst : ℕ} {mem : ℕ → UInt8} {s : Fill}

/-- The first `n` bytes are in the buffer, and no call has failed. -/
structure Filled (device : ℕ → UInt8) (total dst : ℕ) (mem : ℕ → UInt8) (n : ℕ) (s : Fill) :
    Prop where
  mem_eq : s.mem = writeBytes mem dst (readBytes device 0 n)
  reads_ok : ∀ r ∈ s.reads, efiError r.2 = false
  within : ∀ r ∈ s.reads, dst ≤ r.1.buffer ∧ r.1.buffer + r.1.bufferSize ≤ dst + total

theorem uint64Add_chunkSize {offset : ℕ} (hsmall : total ≤ 2 ^ 64 - chunkSize)
    (hlt : offset < total) : uint64Add offset chunkSize = offset + chunkSize := by
  apply uint64Add_of_lt
  omega

theorem readSize_eq {offset : ℕ} (hsmall : total ≤ 2 ^ 64 - chunkSize) (hlt : offset < total) :
    readSize total offset = min chunkSize (total - offset) := by
  have hchunk := chunkSize_pos
  have hsub : uint64Sub total offset = total - offset := uint64Sub_of_le (by omega) hlt.le
  rw [readSize, hsub, uint64Add_chunkSize hsmall hlt]
  split <;> omega

theorem min_add_chunkSize {offset : ℕ} (hsmall : total ≤ 2 ^ 64 - chunkSize)
    (hlt : offset < total) :
    min (offset + chunkSize) total = offset + readSize total offset := by
  rw [readSize_eq hsmall hlt]
  omega

theorem Filled.call {n lba size : ℕ} (hserves : Serves io device)
    (hs : Filled device total dst mem n s) (hlba : lba * io.media.blockSize = n)
    (hsize : n + size ≤ total) (hdst : dst + total ≤ 2 ^ 64) (hblock : io.media.blockSize ∣ size)
    (hok : efiError (io.call ⟨mediaId, lba, size, dst + n⟩ s).1 = false) :
    Filled device total dst mem (n + size) (io.call ⟨mediaId, lba, size, dst + n⟩ s).2 := by
  constructor
  · change (io.readBlocks s.reads _ s.mem).2 = _
    rw [hserves _ _ _ hblock (by dsimp only; omega) hok, hs.mem_eq, blockCopy_append hlba rfl]
  · intro q hq
    rcases List.mem_append.mp hq with hq | hq
    · exact hs.reads_ok q hq
    · rw [List.mem_singleton.mp hq]
      exact hok
  · intro q hq
    rcases List.mem_append.mp hq with hq | hq
    · exact hs.within q hq
    · rw [List.mem_singleton.mp hq]
      dsimp only
      omega

theorem Filled.likeOneRead (hs : Filled device total dst mem total s) :
    LikeOneRead io device ⟨mediaId, 0, total, dst⟩ mem efiSuccess s := by
  refine ⟨fun _ ↦ ⟨rfl, ?_⟩, fun before r after hreads herror ↦ ?_, hs.within⟩
  · rw [blockCopy, Nat.zero_mul]
    exact hs.mem_eq
  · have hmem : r ∈ s.reads := by
      rw [hreads]
      exact List.mem_append_right _ List.mem_cons_self
    rw [hs.reads_ok r hmem] at herror
    contradiction

/-- A call that fails is the only one that does. -/
theorem Filled.likeOneRead_of_error {n : ℕ} (hs : Filled device total dst mem n s)
    {lba size : ℕ} (hsize : n + size ≤ total)
    (herror : efiError (io.call ⟨mediaId, lba, size, dst + n⟩ s).1 = true) :
    LikeOneRead io device ⟨mediaId, 0, total, dst⟩ mem
      (io.call ⟨mediaId, lba, size, dst + n⟩ s).1 (io.call ⟨mediaId, lba, size, dst + n⟩ s).2 := by
  generalize hr : (⟨mediaId, lba, size, dst + n⟩ : BlockRead) = r at *
  have hreads : (io.call r s).2.reads = s.reads ++ [(r, (io.call r s).1)] := rfl
  refine ⟨fun hall ↦ ?_, fun before q after hsplit hq ↦ ?_, fun q hq ↦ ?_⟩
  · have hok := hall (r, (io.call r s).1) (by simp [hreads])
    rw [herror] at hok
    contradiction
  · rw [hreads] at hsplit
    rcases List.eq_nil_or_concat after with rfl | ⟨after, last, rfl⟩
    · have hlast := (List.append_inj' hsplit rfl).2
      exact ⟨rfl, (congrArg Prod.snd (List.singleton_inj.mp hlast))⟩
    · rw [List.concat_eq_append, ← List.cons_append, ← List.append_assoc] at hsplit
      have hbefore : q ∈ s.reads := by
        rw [(List.append_inj' hsplit rfl).1]
        exact List.mem_append_right _ List.mem_cons_self
      rw [hs.reads_ok q hbefore] at hq
      contradiction
  · rw [hreads] at hq
    rcases List.mem_append.mp hq with hq | hq
    · exact hs.within q hq
    · rw [List.mem_singleton.mp hq, ← hr]
      dsimp only
      omega

theorem uint64Add_lba {n lba size : ℕ} (hblock : io.media.blockSize ∣ size)
    (hpos : 0 < io.media.blockSize) (hlba : lba * io.media.blockSize = n)
    (hlt : n + size < 2 ^ 64) :
    uint64Add lba (size / io.media.blockSize) * io.media.blockSize = n + size := by
  have hmul : (lba + size / io.media.blockSize) * io.media.blockSize = n + size := by
    rw [Nat.add_mul, hlba, Nat.div_mul_cancel hblock]
  have hle := Nat.le_mul_of_pos_right (lba + size / io.media.blockSize) hpos
  rwa [uint64Add_of_lt (by omega)]

theorem dvd_readSize {offset : ℕ} (hblock : io.media.blockSize ∣ chunkSize)
    (htotal : io.media.blockSize ∣ total) (hsmall : total ≤ 2 ^ 64 - chunkSize)
    (hlt : offset < total) (hoffset : io.media.blockSize ∣ offset) :
    io.media.blockSize ∣ readSize total offset := by
  rw [readSize_eq hsmall hlt]
  rcases min_choice chunkSize (total - offset) with hmin | hmin
  · rwa [hmin]
  · rw [hmin]
    exact Nat.dvd_sub htotal hoffset

/-- The offset and the block number stay together until the last chunk. -/
theorem readLoop_spec (hserves : Serves io device) (hblock : io.media.blockSize ∣ chunkSize)
    (htotal : io.media.blockSize ∣ total) (hsmall : total ≤ 2 ^ 64 - chunkSize)
    (hdst : dst + total ≤ 2 ^ 64) {fuel offset lba : ℕ} (hfuel : total ≤ offset + chunkSize * fuel)
    (hs : Filled device total dst mem (min offset total) s)
    (hlba : offset < total → lba * io.media.blockSize = offset) :
    ∃ status s', readLoop io mediaId total dst (fuel + 1) offset lba s = some (status, s') ∧
      LikeOneRead io device ⟨mediaId, 0, total, dst⟩ mem status s' := by
  induction fuel generalizing offset lba s with
  | zero =>
      rw [Nat.mul_zero, Nat.add_zero] at hfuel
      rw [Nat.min_eq_right hfuel] at hs
      rw [readLoop, if_neg (Nat.not_lt.mpr hfuel)]
      exact ⟨_, _, rfl, hs.likeOneRead⟩
  | succ fuel ih =>
      rcases Nat.lt_or_ge offset total with hlt | hge
      · have hmin := min_add_chunkSize hsmall hlt
        have hfit : offset + readSize total offset ≤ total := hmin ▸ Nat.min_le_right _ _
        have haddr : uint64Add dst offset = dst + offset := uint64Add_of_lt (by omega)
        rw [Nat.min_eq_left hlt.le] at hs
        rw [readLoop, if_pos hlt]
        dsimp only
        rw [haddr, uint64Add_chunkSize hsmall hlt]
        cases herror : efiError
            (io.call ⟨mediaId, lba, readSize total offset, dst + offset⟩ s).1 with
        | true =>
            rw [if_pos rfl]
            exact ⟨_, _, rfl, hs.likeOneRead_of_error hfit herror⟩
        | false =>
            rw [if_neg Bool.false_ne_true]
            have hwhole := dvd_readSize hblock htotal hsmall hlt (Dvd.intro_left lba (hlba hlt))
            have hfilled := hs.call hserves (hlba hlt) hfit hdst hwhole herror
            rw [← hmin] at hfilled
            have hlba' : offset + chunkSize < total →
                uint64Add lba (readSize total offset / io.media.blockSize) * io.media.blockSize =
                  offset + chunkSize := by
              intro hlt'
              have hfull : readSize total offset = chunkSize := by omega
              have hpos := Nat.pos_of_dvd_of_pos hblock chunkSize_pos
              rw [hfull, uint64Add_lba hblock hpos (hlba hlt) (by omega)]
            have hfuel' : total ≤ offset + chunkSize + chunkSize * fuel := by
              rw [Nat.mul_succ] at hfuel
              omega
            exact ih hfuel' hfilled hlba'
      · rw [Nat.min_eq_right hge] at hs
        rw [readLoop, if_neg (Nat.not_lt.mpr hge)]
        exact ⟨_, _, rfl, hs.likeOneRead⟩

/-- From the last whole chunk of the address space on, the end of the next chunk wraps around
and the loop begins again at offset 0. -/
theorem readLoop_endless (hcalls : ∀ before r mem, efiError (io.readBlocks before r mem).1 = false)
    (hlarge : 2 ^ 64 - chunkSize < total) (fuel lba : ℕ) {n : ℕ} (hn : chunkSize * n < 2 ^ 64) :
    readLoop io mediaId total dst fuel (chunkSize * n) lba s = none := by
  induction fuel generalizing n lba s with
  | zero => rfl
  | succ fuel ih =>
      rw [chunkSize] at hn hlarge
      have hlt : chunkSize * n < total := by
        rw [chunkSize]
        omega
      obtain ⟨n', hn', hnext⟩ :
          ∃ n', chunkSize * n' < 2 ^ 64 ∧ uint64Add (chunkSize * n) chunkSize = chunkSize * n' := by
        refine ⟨(n + 1) % 2 ^ 48, ?_, ?_⟩
        · rw [chunkSize]
          omega
        · rw [uint64Add, chunkSize]
          omega
      rw [readLoop, if_pos hlt, hnext]
      dsimp only
      rw [BlockIo.call, hcalls, if_neg Bool.false_ne_true]
      exact ih _ hn'

theorem filled_start : Filled device total dst mem (min 0 total) ⟨mem, []⟩ := by
  rw [Nat.zero_min]
  exact ⟨(writeBytes_nil mem dst).symm, by simp, by simp⟩

/-- For a buffer that ends 64 KiB before the largest length, the chunks are as good as one read
of it. -/
theorem readBlocksChunked_likeOneRead (hserves : Serves io device)
    (hblock : io.media.blockSize ∣ 64 * 1024) (htotal : io.media.blockSize ∣ total)
    (hsmall : total ≤ 2 ^ 64 - 64 * 1024) (hbuffer : dst + total ≤ 2 ^ 64) {fuel : ℕ}
    (hfuel : total ≤ chunkSize * fuel) (mediaId : ℕ) (mem : ℕ → UInt8) :
    ∃ status s, readBlocksChunked io mediaId total dst (fuel + 1) mem = some (status, s) ∧
      LikeOneRead io device ⟨mediaId, 0, total, dst⟩ mem status s := by
  have hfuel' : total ≤ 0 + chunkSize * fuel := by
    rw [Nat.zero_add]
    exact hfuel
  exact readLoop_spec hserves hblock htotal hsmall hbuffer hfuel' filled_start
    fun _ ↦ Nat.zero_mul _

/-- A disk on which every call succeeds. -/
def disk (media : BlockIoMedia) (device : ℕ → UInt8) : BlockIo where
  media := media
  readBlocks _ r mem := (efiSuccess, blockCopy device media.blockSize r mem)

@[simp] theorem disk_succeeds (media : BlockIoMedia) (device : ℕ → UInt8)
    (before : List (BlockRead × EfiStatus)) (r : BlockRead) (mem : ℕ → UInt8) :
    efiError ((disk media device).readBlocks before r mem).1 = false := by
  change efiError efiSuccess = false
  decide

theorem serves_disk (media : BlockIoMedia) (device : ℕ → UInt8) :
    Serves (disk media device) device := by
  intro before r mem _ _ _
  rfl

/-- Two chunks, the last one with one block of 512 bytes. -/
theorem readBlocksChunked_two_chunks :
    ∃ status s, readBlocksChunked (disk ⟨1, 512, 999⟩ UInt8.ofNat) 1 66048 4096 3 (fun _ ↦ 0) =
        some (status, s) ∧
      LikeOneRead (disk ⟨1, 512, 999⟩ UInt8.ofNat) UInt8.ofNat ⟨1, 0, 66048, 4096⟩ (fun _ ↦ 0)
        status s :=
  readBlocksChunked_likeOneRead (serves_disk _ _) (by decide) (by decide) (by decide) (by decide)
    (by decide) _ _

/-- With a buffer that is 512 bytes shorter than the address space the loop never ends,
although every call succeeds. -/
theorem readBlocksChunked_never_ends :
    512 ∣ 64 * 1024 ∧ 512 ∣ 2 ^ 64 - 512 ∧
      Serves (disk ⟨1, 512, 2 ^ 56⟩ UInt8.ofNat) UInt8.ofNat ∧
      (∀ before r mem, efiError
        ((disk ⟨1, 512, 2 ^ 56⟩ UInt8.ofNat).readBlocks before r mem).1 = false) ∧
      ∀ fuel mem, readBlocksChunked (disk ⟨1, 512, 2 ^ 56⟩ UInt8.ofNat) 1 (2 ^ 64 - 512) 0 fuel
        mem = none := by
  refine ⟨by decide, by decide, serves_disk _ _, disk_succeeds _ _, fun fuel mem ↦ ?_⟩
  exact readLoop_endless (n := 0) (disk_succeeds _ _) (by decide) fuel 0 (by decide)

/-! ## The caller -/

theorem volumeBytes_le (media : BlockIoMedia) : volumeBytes media ≤ 128 * 1024 * 1024 := by
  rw [volumeBytes]
  split
  · exact le_rfl
  · omega

theorem dvd_volumeBytes {media : BlockIoMedia} (hblock : media.blockSize ∣ 64 * 1024) :
    media.blockSize ∣ volumeBytes media := by
  have hword : media.blockSize ∣ 2 ^ 64 := hblock.trans (by decide)
  rw [volumeBytes]
  split
  · exact hblock.trans (by decide)
  · exact (Nat.dvd_mod_iff hword).mpr (Nat.dvd_mul_right _ _)

theorem LikeOneRead.mem_eq {whole : BlockRead} {status : EfiStatus}
    (h : LikeOneRead io device whole mem status s) (hstatus : efiError status = false) :
    s.mem = blockCopy device io.media.blockSize whole mem := by
  refine (h.success fun r hr ↦ ?_).2
  obtain ⟨before, after, hreads⟩ := List.append_of_mem hr
  cases herror : efiError r.2 with
  | false => rfl
  | true =>
      have hreturned := (h.failure before r after hreads herror).2
      rw [← hreturned, hstatus] at herror
      contradiction

theorem LikeOneRead.bytes {whole : BlockRead} {status : EfiStatus}
    (h : LikeOneRead io device whole mem status s) (hstatus : efiError status = false) :
    (∀ i < whole.bufferSize,
        s.mem (whole.buffer + i) = device (whole.lba * io.media.blockSize + i)) ∧
      ∀ x, ¬ (whole.buffer ≤ x ∧ x < whole.buffer + whole.bufferSize) → s.mem x = mem x := by
  rw [h.mem_eq hstatus]
  constructor
  · intro i hi
    exact blockCopy_apply device io.media.blockSize whole mem hi
  · intro x hx
    exact blockCopy_of_notMem device io.media.blockSize whole mem hx

/-- The loader halts, or the image has the bytes of the volume, up to 128 MiB of them, and
nothing else was stored. -/
theorem readVolume_image {allocatePages : ℕ → EfiStatus × ℕ} (hserves : Serves io device)
    (hblock : io.media.blockSize ∣ 64 * 1024)
    (hpages : ∀ n, (allocatePages n).2 + n * 0x1000 ≤ 2 ^ 64) {fuel : ℕ} (hfuel : 2048 ≤ fuel) :
    ∃ result, readVolume allocatePages io (fuel + 1) mem = some result ∧
      ∀ addr s, result = .image addr s →
        (∀ i < volumeBytes io.media, s.mem (addr + i) = device i) ∧
        ∀ x, ¬ (addr ≤ x ∧ x < addr + volumeBytes io.media) → s.mem x = mem x := by
  have hle := volumeBytes_le io.media
  have hround : uint64Add (volumeBytes io.media) 0xFFF = volumeBytes io.media + 0xFFF :=
    uint64Add_of_lt (by omega)
  have hgranted := hpages ((volumeBytes io.media + 0xFFF) / 0x1000)
  rw [readVolume, hround]
  generalize allocatePages ((volumeBytes io.media + 0xFFF) / 0x1000) = granted at hgranted ⊢
  cases hallocated : efiError granted.1 with
  | true => exact ⟨_, if_pos rfl, fun addr s heq ↦ nomatch heq⟩
  | false =>
      have hbuffer : granted.2 + volumeBytes io.media ≤ 2 ^ 64 := by omega
      have hturns : volumeBytes io.media ≤ chunkSize * fuel := by
        rw [chunkSize]
        omega
      obtain ⟨status, s, hread, hlike⟩ := readBlocksChunked_likeOneRead hserves hblock
        (dvd_volumeBytes hblock) (by omega) hbuffer hturns io.media.mediaId mem
      rw [if_neg Bool.false_ne_true, hread, Option.bind_eq_bind, Option.bind_some]
      cases hstatus : efiError status with
      | true => exact ⟨_, if_pos rfl, fun addr s heq ↦ nomatch heq⟩
      | false =>
          refine ⟨.image granted.2 s, if_neg Bool.false_ne_true, fun addr s' heq ↦ ?_⟩
          cases heq
          have hbytes := hlike.bytes hstatus
          simp only [Nat.zero_mul, Nat.zero_add] at hbytes
          exact hbytes

end Loop

end Boot
end MinOS
