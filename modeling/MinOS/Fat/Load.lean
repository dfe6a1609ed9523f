import MinOS.Fat.Sharing

/-!
# Random access

`Load` walks to the cluster of its offset and reads through a descriptor of its
own.  `Read` gets to the same place by reading everything before it, and crosses a
cluster boundary with the byte that fills the cluster.
-/

namespace MinOS
namespace Fat

namespace Volume

/-- Successive calls of `Read` through one descriptor, and where they leave it. -/
def readPieces (v : Volume) : FileDescriptor → List ℕ → Option (List UInt8 × FileDescriptor)
  | fd, [] => some ([], fd)
  | fd, len :: lens => do
      let r ← v.read fd len
      let rest ← v.readPieces r.2 lens
      return (r.1 ++ rest.1, rest.2)

/-- `Load` moves a descriptor that it makes, and not the one it is called on. -/
def loadThrough (v : Volume) (fd : FileDescriptor) (len offset : ℕ) :
    Option (List UInt8 × FileDescriptor) := do
  let bytes ← v.load fd len offset
  return (bytes, fd)

end Volume

/-! ## Calls of `Load` end -/

section Total

open Volume

variable {v : Volume} (hcluster : 0 < v.bytesPerCluster)

include hcluster

theorem seek_total {turns c offset : ℕ} (h : offset < turns) :
    ∃ c' off', v.seek turns c offset = some (c', off') ∧ off' < v.bytesPerCluster := by
  induction turns generalizing c offset with
  | zero => omega
  | succ turns ih =>
      rw [seek]
      split_ifs with hge
      · exact ih (by omega)
      · exact ⟨c, offset, rfl, by omega⟩

theorem readLoop_total {turns c off len : ℕ} (hoff : off < v.bytesPerCluster) (hlen : len ≤ turns) :
    ∃ bytes pos, v.readLoop turns c off len = some (bytes, pos) := by
  induction turns generalizing c off len with
  | zero =>
      obtain rfl := Nat.le_zero.mp hlen
      exact ⟨[], _, rfl⟩
  | succ turns ih =>
      cases len with
      | zero => exact ⟨[], _, rfl⟩
      | succ len =>
          rw [readLoop]
          split_ifs with hend
          · obtain ⟨bytes, pos, hrest⟩ := ih (c := v.nextCluster c) hcluster
              (show len + 1 - min (len + 1) (v.bytesPerCluster - off) ≤ turns by omega)
            rw [hrest]
            exact ⟨_, _, rfl⟩
          · obtain ⟨bytes, pos, hrest⟩ := ih (c := c)
              (show off + min (len + 1) (v.bytesPerCluster - off) < v.bytesPerCluster by omega)
              (show len + 1 - min (len + 1) (v.bytesPerCluster - off) ≤ turns by omega)
            rw [hrest]
            exact ⟨_, _, rfl⟩

theorem load_total (fd : FileDescriptor) (len offset : ℕ) :
    ∃ bytes, v.load fd len offset = some bytes ∧ bytes.length ≤ len := by
  obtain ⟨c, off, hseek, hoff⟩ := seek_total hcluster (c := v.firstCluster fd.fatEntry)
    (Nat.lt_succ_self offset)
  obtain ⟨fd', hfd'⟩ : ∃ fd' : FileDescriptor, fd' =
    { fatEntry := fd.fatEntry, rdOff := offset, rdCluster := c, rdClusterOff := off } := ⟨_, rfl⟩
  have hoff' : fd'.rdClusterOff < v.bytesPerCluster := hfd' ▸ hoff
  obtain ⟨bytes, pos, hread⟩ := readLoop_total hcluster (c := v.readStart fd') hoff'
    (le_refl (v.readLen fd' len))
  refine ⟨bytes, ?_, ?_⟩
  · rw [load, hseek, Option.bind_eq_bind, Option.bind_some]
    dsimp only
    rw [← hfd', read_eq, hread]
    rfl
  · rw [readLoop_length hread]
    exact min_le_left _ _

end Total

/-! ## `Load` and `Read` -/

variable {v : Volume} {bound : ℕ} {fd : FileDescriptor} {chain : List ℕ} {data : List UInt8}

theorem readPieces_spec (hcluster : 0 < v.bytesPerCluster) (hholds : Holds v chain data)
    (hsmall : data.length < 2 ^ 32) {p : ℕ} (howns : Owns v bound fd.fatEntry chain)
    (hsize : v.fileSize fd.fatEntry = data.length) (hpos : Reading v chain fd p)
    {pieces : List ℕ} (hpieces : p + pieces.sum ≤ data.length) :
    ∃ fd', v.readPieces fd pieces = some ((data.drop p).take pieces.sum, fd') ∧
      fd'.fatEntry = fd.fatEntry ∧ Reading v chain fd' (p + pieces.sum) := by
  induction pieces generalizing fd p with
  | nil => exact ⟨fd, by simp [Volume.readPieces], rfl, hpos⟩
  | cons len pieces ih =>
      rw [List.sum_cons] at hpieces ⊢
      obtain ⟨fd₁, hread, hentry, hpos₁⟩ :=
        read_spec hcluster howns hholds hsize hsmall hpos (by omega) len
      rw [Nat.min_eq_left (by omega)] at hpos₁
      obtain ⟨fd₂, hrest, hentry₂, hpos₂⟩ :=
        ih (by rwa [hentry]) (by rwa [hentry]) hpos₁ (by omega)
      refine ⟨fd₂, ?_, hentry₂.trans hentry, by rwa [Nat.add_assoc] at hpos₂⟩
      rw [Volume.readPieces, hread, Option.bind_eq_bind, Option.bind_some, hrest,
        ← take_drop_split]
      rfl

/-- `Load` returns what a fresh descriptor reads at the offset, and both are the bytes
of the file there. -/
theorem load_eq_read (hcluster : 0 < v.bytesPerCluster) (howns : Owns v bound fd.fatEntry chain)
    (hlong : v.fileSize fd.fatEntry ≤ chain.length * v.bytesPerCluster) {offset : ℕ}
    (hoffset : offset ≤ v.fileSize fd.fatEntry) (len : ℕ) {pieces : List ℕ}
    (hpieces : pieces.sum = offset) :
    ∃ bytes before fd₁ fd₂, v.loadThrough fd len offset = some (bytes, fd) ∧
      v.readPieces (.fresh fd.fatEntry) pieces = some (before, fd₁) ∧
      v.read fd₁ len = some (bytes, fd₂) ∧
      bytes = (content v fd.fatEntry chain).extract offset
        (min (offset + len) (v.fileSize fd.fatEntry)) := by
  have hlength := length_content v fd.fatEntry chain
  have hholds : Holds v chain (content v fd.fatEntry chain) := holds_chainBytes hcluster hlong
  have hsmall : (content v fd.fatEntry chain).length < 2 ^ 32 :=
    hlength.trans_lt (v.fileSize_lt fd.fatEntry)
  obtain ⟨fd₁, hpiecesRead, hentry, hreading⟩ :=
    @readPieces_spec v bound (.fresh fd.fatEntry) chain _ hcluster hholds hsmall 0 howns
      hlength.symm ⟨rfl, .inl ⟨rfl, rfl, rfl⟩⟩ pieces (by omega)
  rw [Nat.zero_add, hpieces] at hreading
  obtain ⟨fd₂, hread, -, -⟩ := read_spec hcluster (hentry ▸ howns) hholds
    (hentry ▸ hlength.symm) hsmall hreading (hoffset.trans hlength.ge) len
  have hload := load_spec hcluster howns hholds hlength.symm hsmall (hoffset.trans hlength.ge) len
  refine ⟨_, _, fd₁, fd₂, ?_, hpiecesRead, hread, ?_⟩
  · rw [Volume.loadThrough, hload]
    rfl
  · rw [List.extract_eq_take_drop, List.take_eq_take_iff, List.length_drop, hlength]
    omega

/-- A file of two full clusters, 3 and 4. -/
def twoVolume : Volume where
  bpb := sampleVolume.bpb
  mem := fun x ↦
    if x = 16395 ∨ x = 16403 then 0x0f else if 16392 ≤ x ∧ x < 16395 then 0xff
    else if 16400 ≤ x ∧ x < 16403 then 0xff else if x = 16396 ∨ x = 17437 then 4
    else if x = 17434 then 3 else if 17920 ≤ x then x.toUInt8 else 0

theorem twoVolume_owns : Owns twoVolume 16 sampleEntry [3, 4] := by
  have hlinked : twoVolume.fatEntry 3 = 4 ∧ ¬ isEndOfClusterchain 4 = true ∧
      isEndOfClusterchain (twoVolume.fatEntry 4) = true := by
    decide +kernel
  exact .inr ⟨⟨hlinked, by decide⟩, by decide +kernel⟩

theorem twoVolume_fileSize : twoVolume.fileSize sampleEntry = 1024 := by
  decide +kernel

/-- The second cluster, behind 300 and 212 bytes, through a descriptor that is
elsewhere. -/
theorem load_eq_read_second_cluster :
    ∃ bytes before fd₁ fd₂,
      twoVolume.loadThrough ⟨sampleEntry, 7, 3, 7, 0, 0, 0⟩ 600 512 =
        some (bytes, ⟨sampleEntry, 7, 3, 7, 0, 0, 0⟩) ∧
      twoVolume.readPieces (.fresh sampleEntry) [300, 212] = some (before, fd₁) ∧
      twoVolume.read fd₁ 600 = some (bytes, fd₂) ∧
      bytes = (content twoVolume sampleEntry [3, 4]).extract 512
        (min (512 + 600) (twoVolume.fileSize sampleEntry)) :=
  @load_eq_read twoVolume 16 ⟨sampleEntry, 7, 3, 7, 0, 0, 0⟩ [3, 4] (by decide) twoVolume_owns
    (by rw [twoVolume_fileSize]; decide) 512 (by rw [twoVolume_fileSize]; decide) 600 [300, 212] rfl

end Fat
end MinOS
