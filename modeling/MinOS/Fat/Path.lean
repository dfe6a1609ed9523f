import MinOS.Fat.Descriptor
import MinOS.Memory.Bitmap

/-!
# Names and paths

`NextPathElement`, `NameIsEqual`, `FindFile`, `AllocateEntry`, `SetFileName` and
`CreateFile` of `fat.cpp`.  A path is the bytes before its terminating zero.  The
loops over a directory's clusters carry a bound on their steps; a loop that does
not end within it has no result.
-/

namespace MinOS
namespace Fat

open ByteMemory

def slash : UInt8 := 0x2f

def dot : UInt8 := 0x2e

def space : UInt8 := 0x20

/-- The first byte of the name of a deleted entry. -/
def deleted : UInt8 := 0xe5

def kDirectory : UInt8 := 0x10

/-- `toupper` in the C locale. -/
def toupper (c : UInt8) : UInt8 := if 0x61 ≤ c ∧ c ≤ 0x7a then c - 0x20 else c

/-- The first element of a path, and what follows the slash behind it. -/
def nextPathElement : List UInt8 → List UInt8 × Option (List UInt8)
  | [] => ([], none)
  | c :: path =>
      if c = slash then ([], some path)
      else (c :: (nextPathElement path).1, (nextPathElement path).2)

/-- `strrchr`: what stands before and behind the last `c`. -/
def splitLast (c : UInt8) : List UInt8 → Option (List UInt8 × List UInt8)
  | [] => none
  | x :: s =>
      match splitLast c s with
      | some (before, after) => some (x :: before, after)
      | none => if x = c then some ([], s) else none

/-! ## The two encodings of a name -/

/-- The loop of `NameIsEqual`: a dot continues behind the eighth byte. -/
def name83Loop : List UInt8 → ℕ → (ℕ → UInt8) → ℕ → UInt8
  | [], _, buf => buf
  | c :: name, i83, buf =>
      if 11 ≤ i83 then buf
      else if c = dot then name83Loop name 8 buf
      else name83Loop name (i83 + 1) (Function.update buf i83 (toupper c))

/-- The eleven bytes that `NameIsEqual` compares a name with. -/
def name83 (name : List UInt8) : List UInt8 :=
  (List.range 11).map (name83Loop name 0 fun _ ↦ space)

/-- Up to `n` bytes in upper case, filled with blanks. -/
def padded (n : ℕ) (s : List UInt8) : List UInt8 :=
  (s.take n).map toupper ++ List.replicate (n - s.length) space

/-- The eleven bytes that `SetFileName` stores. -/
def fileName83 (name : List UInt8) : List UInt8 :=
  match splitLast dot name with
  | some (base, ext) => padded 8 base ++ padded 3 ext
  | none => padded 8 name ++ padded 3 []

namespace Volume

def nameIsEqual (v : Volume) (entry : ℕ) (name : List UInt8) : Bool :=
  v.entryName entry == name83 name

def rootCluster (v : Volume) : ℕ := v.bpb.rootCluster.toNat

/-- The entries that fit in a cluster. -/
def entriesPerCluster (v : Volume) : ℕ := v.bytesPerCluster / 32

/-- How the loop over one cluster ends: with an entry, at the end mark, or
behind the last entry. -/
inductive Search where
  | found (entry : ℕ)
  | endMark
  | exhausted
deriving DecidableEq, Repr

/-- The inner loop of `FindFile`, with `n` entries left from `entry` on. -/
def searchCluster (v : Volume) (name : List UInt8) : ℕ → ℕ → Search
  | 0, _ => .exhausted
  | n + 1, entry =>
      if v.mem entry = 0 then .endMark
      else if v.nameIsEqual entry name then .found entry
      else v.searchCluster name n (entry + 32)

/-- The outer loop of `FindFile`, over the clusters of one directory. -/
def searchDirectory (v : Volume) (name : List UInt8) : ℕ → ℕ → Option (Option ℕ)
  | 0, _ => none
  | fuel + 1, directoryCluster =>
      if directoryCluster = kEndOfClusterchain then some none
      else
        match v.searchCluster name v.entriesPerCluster (v.getClusterAddr directoryCluster) with
        | .found entry => some (some entry)
        | .endMark => some none
        | .exhausted => v.searchDirectory name fuel (v.nextCluster directoryCluster)

/-- `FindFile` starts at the root for a path with a leading slash, and for no
directory at all. -/
def startOf (v : Volume) (path : List UInt8) (directoryCluster : ℕ) : List UInt8 × ℕ :=
  if path.head? = some slash then (path.tail, v.rootCluster)
  else if directoryCluster = 0 then (path, v.rootCluster)
  else (path, directoryCluster)

/-- `FindFile` with a bound on its recursion, which goes to a shorter path. -/
def findFileFrom (v : Volume) (fuel : ℕ) : ℕ → List UInt8 → ℕ → Option (Option ℕ × Bool)
  | 0, _, _ => none
  | depth + 1, path, directoryCluster =>
      let start := v.startOf path directoryCluster
      let elem := nextPathElement start.1
      match v.searchDirectory elem.1 fuel start.2 with
      | none => none
      | some none => some (none, elem.2.isSome)
      | some (some entry) =>
          match elem.2 with
          | some (c :: next) =>
              if v.entryAttr entry = kDirectory then
                v.findFileFrom fuel depth (c :: next) (v.firstCluster entry)
              else some (some entry, true)
          | post => some (some entry, post.isSome)

def findFile (v : Volume) (fuel : ℕ) (path : List UInt8) (directoryCluster : ℕ) :
    Option (Option ℕ × Bool) :=
  v.findFileFrom fuel (path.length + 1) path directoryCluster

/-! ## Creating a file -/

/-- The inner loop of `AllocateEntry`: the first entry that is deleted or not in use. -/
def freeEntry (v : Volume) : ℕ → ℕ → Option ℕ
  | 0, _ => none
  | n + 1, entry =>
      if v.mem entry = 0 ∨ v.mem entry = deleted then some entry else v.freeEntry n (entry + 32)

/-- The outer loop of `AllocateEntry`: a free entry, or the last cluster of the
directory. -/
def searchFreeEntry (v : Volume) : ℕ → ℕ → Option (ℕ ⊕ ℕ)
  | 0, _ => none
  | fuel + 1, dirCluster =>
      match v.freeEntry v.entriesPerCluster (v.getClusterAddr dirCluster) with
      | some entry => some (.inl entry)
      | none =>
          if v.nextCluster dirCluster = kEndOfClusterchain then some (.inr dirCluster)
          else v.searchFreeEntry fuel (v.nextCluster dirCluster)

/-- `searchFuel` bounds the search for a free cluster. -/
def allocateEntry (v : Volume) (fuel searchFuel dirCluster : ℕ) : Option (ℕ × Volume) :=
  (v.searchFreeEntry fuel dirCluster).bind fun found ↦
    match found with
    | .inl entry => some (entry, v)
    | .inr last =>
        (v.extendCluster searchFuel last 1).bind fun ext ↦
          some (ext.2.getClusterAddr ext.1,
            ext.2.writeCluster ext.1 0 (List.replicate ext.2.bytesPerCluster 0))

/-- The cleared entry with its name; the size stays zero. -/
def setEntry (v : Volume) (entry : ℕ) (name : List UInt8) : Volume :=
  { v with
    mem := writeBytes (writeBytes v.mem entry (List.replicate 32 0)) entry (fileName83 name) }

@[simp] theorem setEntry_bpb (v : Volume) (entry : ℕ) (name : List UInt8) :
    (v.setEntry entry name).bpb = v.bpb := rfl

theorem setEntry_mem (v : Volume) (entry : ℕ) (name : List UInt8) :
    (v.setEntry entry name).mem =
      writeBytes (writeBytes v.mem entry (List.replicate 32 0)) entry (fileName83 name) := rfl

attribute [irreducible] setEntry

/-- Where `CreateFile` puts a file: the cluster of the parent directory and the
file's name. -/
def parentOf (v : Volume) (fuel : ℕ) (path : List UInt8) :
    Option (Except Error (ℕ × List UInt8)) :=
  match splitLast slash path with
  | none => some (.ok (v.rootCluster, path))
  | some (_, []) => some (.error .kIsDirectory)
  | some ([], filename) => some (.ok (v.rootCluster, filename))
  | some (parentDirName, filename) =>
      (v.findFile fuel parentDirName 0).bind fun found ↦
        match found.1 with
        | none => some (.error .kNoSuchEntry)
        | some parentDir => some (.ok (v.firstCluster parentDir, filename))

def createFile (v : Volume) (fuel searchFuel : ℕ) (path : List UInt8) :
    Option (Except Error ℕ × Volume) :=
  (v.parentOf fuel path).bind fun parent ↦
    match parent with
    | .error e => some (.error e, v)
    | .ok (dirCluster, filename) =>
        (v.allocateEntry fuel searchFuel dirCluster).bind fun alloc ↦
          some (.ok alloc.1, alloc.2.setEntry alloc.1 filename)

end Volume
end Fat
end MinOS
