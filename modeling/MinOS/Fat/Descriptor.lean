import MinOS.Fat.Volume

/-!
# File descriptors

`fat::FileDescriptor`: a directory entry together with a read position and a
write position, each kept as a cluster number and an offset in that cluster.
The write offset is advanced lazily: it rests at the end of a full cluster
until another byte has to be written.
-/

namespace MinOS
namespace Fat

open ByteMemory

namespace Volume

/-! ## The fields of the directory entry at an address -/

def entryName (v : Volume) (entry : ℕ) : List UInt8 := readBytes v.mem entry 11

def entryAttr (v : Volume) (entry : ℕ) : UInt8 := v.mem (entry + 11)

def firstCluster (v : Volume) (entry : ℕ) : ℕ :=
  readLE v.mem (entry + 26) 2 + 2 ^ 16 * readLE v.mem (entry + 20) 2

def fileSize (v : Volume) (entry : ℕ) : ℕ := readLE v.mem (entry + 28) 4

def setFirstCluster (v : Volume) (entry cluster : ℕ) : Volume :=
  let low := writeLE v.mem (entry + 26) 2 (cluster % 2 ^ 16)
  { v with mem := writeLE low (entry + 20) 2 (cluster / 2 ^ 16 % 2 ^ 16) }

def setFileSize (v : Volume) (entry size : ℕ) : Volume :=
  { v with mem := writeLE v.mem (entry + 28) 4 size }

@[simp] theorem setFirstCluster_bpb (v : Volume) (entry cluster : ℕ) :
    (v.setFirstCluster entry cluster).bpb = v.bpb := by
  simp only [setFirstCluster]

@[simp] theorem setFileSize_bpb (v : Volume) (entry size : ℕ) :
    (v.setFileSize entry size).bpb = v.bpb := by
  simp only [setFileSize]

/-- The bytes of the entry that hold its first cluster and its size. -/
def EntryField (entry x : ℕ) : Prop :=
  entry + 20 ≤ x ∧ x < entry + 22 ∨ entry + 26 ≤ x ∧ x < entry + 32

theorem setFirstCluster_mem (v : Volume) {entry x : ℕ} (cluster : ℕ) (h : ¬ EntryField entry x) :
    (v.setFirstCluster entry cluster).mem x = v.mem x := by
  rw [EntryField] at h
  simp only [setFirstCluster]
  rw [writeLE_of_notMem _ (by omega), writeLE_of_notMem _ (by omega)]

theorem setFileSize_mem (v : Volume) {entry x : ℕ} (size : ℕ)
    (h : ¬ (entry + 28 ≤ x ∧ x < entry + 32)) : (v.setFileSize entry size).mem x = v.mem x := by
  simp only [setFileSize]
  exact writeLE_of_notMem _ (by omega)

theorem firstCluster_setFirstCluster (v : Volume) (entry : ℕ) {cluster : ℕ}
    (h : cluster < 2 ^ 32) : (v.setFirstCluster entry cluster).firstCluster entry = cluster := by
  simp only [firstCluster, setFirstCluster]
  rw [readLE_writeLE, readLE_writeLE_of_disjoint _ (by omega), readLE_writeLE]
  omega

theorem fileSize_setFileSize (v : Volume) (entry size : ℕ) :
    (v.setFileSize entry size).fileSize entry = size % 2 ^ 32 := by
  simp only [fileSize, setFileSize]
  rw [readLE_writeLE, show 256 ^ 4 = 2 ^ 32 by norm_num]

theorem firstCluster_congr {v v' : Volume} {entry : ℕ}
    (h : ∀ x, entry + 20 ≤ x → x < entry + 28 → v'.mem x = v.mem x) :
    v'.firstCluster entry = v.firstCluster entry := by
  have hlow : readLE v'.mem (entry + 26) 2 = readLE v.mem (entry + 26) 2 :=
    readLE_congr fun x hx hlt ↦ h x (by omega) (by omega)
  have hhigh : readLE v'.mem (entry + 20) 2 = readLE v.mem (entry + 20) 2 :=
    readLE_congr fun x hx hlt ↦ h x (by omega) (by omega)
  rw [firstCluster, firstCluster, hlow, hhigh]

/-- `memcpy` into the data of a cluster. -/
def writeCluster (v : Volume) (cluster off : ℕ) (bytes : List UInt8) : Volume :=
  { v with mem := writeBytes v.mem (v.getClusterAddr cluster + off) bytes }

@[simp] theorem writeCluster_bpb (v : Volume) (cluster off : ℕ) (bytes : List UInt8) :
    (v.writeCluster cluster off bytes).bpb = v.bpb := by
  rw [writeCluster]

theorem writeCluster_mem (v : Volume) (cluster off : ℕ) (bytes : List UInt8) :
    (v.writeCluster cluster off bytes).mem =
      writeBytes v.mem (v.getClusterAddr cluster + off) bytes := by
  rw [writeCluster]

attribute [irreducible] writeCluster

/-- The number of clusters that hold so many bytes. -/
def numCluster (v : Volume) (bytes : ℕ) : ℕ :=
  (bytes + v.bytesPerCluster - 1) / v.bytesPerCluster

end Volume

structure FileDescriptor where
  fatEntry : ℕ
  rdOff : ℕ := 0
  rdCluster : ℕ := 0
  rdClusterOff : ℕ := 0
  wrOff : ℕ := 0
  wrCluster : ℕ := 0
  wrClusterOff : ℕ := 0
deriving DecidableEq, Repr

/-- A descriptor as the constructor leaves it. -/
def FileDescriptor.fresh (entry : ℕ) : FileDescriptor := { fatEntry := entry }

namespace Volume

/-! ## Reading -/

/-- The loop of `Read`, with `len` bytes still to copy.  Every turn copies at
least one byte, so `len` turns are enough. -/
def readLoop (v : Volume) : ℕ → ℕ → ℕ → ℕ → Option (List UInt8 × ℕ × ℕ)
  | _, cluster, off, 0 => some ([], cluster, off)
  | 0, _, _, _ + 1 => none
  | turns + 1, cluster, off, len + 1 => do
      let n := min (len + 1) (v.bytesPerCluster - off)
      let bytes := readBytes v.mem (v.getClusterAddr cluster + off) n
      let next :=
        if off + n = v.bytesPerCluster then (v.nextCluster cluster, 0) else (cluster, off + n)
      let rest ← v.readLoop turns next.1 next.2 (len + 1 - n)
      return (bytes ++ rest.1, rest.2)

/-- `Read` returns the bytes that it copies to the buffer. -/
def read (v : Volume) (fd : FileDescriptor) (len : ℕ) : Option (List UInt8 × FileDescriptor) := do
  let cluster := if fd.rdCluster = 0 then v.firstCluster fd.fatEntry else fd.rdCluster
  let len := min len ((v.fileSize fd.fatEntry + 2 ^ 64 - fd.rdOff) % 2 ^ 64)
  let r ← v.readLoop len cluster fd.rdClusterOff len
  return (r.1, { fd with rdOff := fd.rdOff + len, rdCluster := r.2.1, rdClusterOff := r.2.2 })

/-- The loop of `Load` that walks to the cluster of an offset. -/
def seek (v : Volume) : ℕ → ℕ → ℕ → Option (ℕ × ℕ)
  | 0, _, _ => none
  | turns + 1, cluster, offset =>
      if offset ≥ v.bytesPerCluster then
        v.seek turns (v.nextCluster cluster) (offset - v.bytesPerCluster)
      else some (cluster, offset)

def load (v : Volume) (fd : FileDescriptor) (len offset : ℕ) : Option (List UInt8) := do
  let pos ← v.seek (offset + 1) (v.firstCluster fd.fatEntry) offset
  let fd : FileDescriptor :=
    { fatEntry := fd.fatEntry, rdOff := offset, rdCluster := pos.1, rdClusterOff := pos.2 }
  let r ← v.read fd len
  return r.1

/-! ## Writing -/

/-- The first statement of `Write`'s loop: at the end of a full cluster, move
to the next one, or extend the chain for the `len` bytes that remain. -/
def advance (v : Volume) (fuel cluster off len : ℕ) : Option (Volume × ℕ × ℕ) :=
  if off = v.bytesPerCluster then
    let next := v.nextCluster cluster
    if next = kEndOfClusterchain then do
      let r ← v.extendCluster fuel cluster (v.numCluster len)
      return (r.2, r.1, 0)
    else some (v, next, 0)
  else some (v, cluster, off)

/-- One turn of `Write`'s loop, which copies as many of the bytes as the
cluster has room for; the last component is their number. -/
def writeTurn (v : Volume) (fuel cluster off : ℕ) (bytes : List UInt8) :
    Option (Volume × ℕ × ℕ × ℕ) := do
  let pos ← v.advance fuel cluster off bytes.length
  let n := min bytes.length (v.bytesPerCluster - pos.2.2)
  return (pos.1.writeCluster pos.2.1 pos.2.2 (bytes.take n), pos.2.1, pos.2.2 + n, n)

/-- The loop of `Write`, with `bytes` still to copy. -/
def writeLoop (fuel : ℕ) : ℕ → Volume → ℕ → ℕ → List UInt8 → Option (Volume × ℕ × ℕ)
  | _, v, cluster, off, [] => some (v, cluster, off)
  | 0, _, _, _, _ :: _ => none
  | turns + 1, v, cluster, off, b :: bytes => do
      let turn ← v.writeTurn fuel cluster off (b :: bytes)
      writeLoop fuel turns turn.1 turn.2.1 turn.2.2.1 ((b :: bytes).drop turn.2.2.2)

/-- Where `Write` starts: the cluster it left off at, the first cluster of the
file, or the first of a new chain that is entered in the directory entry. -/
def writeStart (v : Volume) (fuel : ℕ) (fd : FileDescriptor) (len : ℕ) : Option (Volume × ℕ) :=
  if fd.wrCluster = 0 then
    if v.firstCluster fd.fatEntry ≠ 0 then some (v, v.firstCluster fd.fatEntry)
    else do
      let r ← v.allocateClusterChain fuel (v.numCluster len)
      return (r.2.setFirstCluster fd.fatEntry r.1, r.1)
  else some (v, fd.wrCluster)

def write (v : Volume) (fuel : ℕ) (fd : FileDescriptor) (buf : List UInt8) :
    Option (Volume × FileDescriptor) := do
  let start ← v.writeStart fuel fd buf.length
  let r ← writeLoop fuel buf.length start.1 start.2 fd.wrClusterOff buf
  let wrOff := fd.wrOff + buf.length
  return (r.1.setFileSize fd.fatEntry wrOff,
    { fd with wrOff := wrOff, wrCluster := r.2.1, wrClusterOff := r.2.2 })

end Volume
end Fat
end MinOS
