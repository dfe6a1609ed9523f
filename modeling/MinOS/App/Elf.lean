import MinOS.App.Regions
import MinOS.App.Stores
import MinOS.Library.ByteMemory
import MinOS.Paging.Mapped

/-!
# Loading an ELF file

`GetFirstLoadAddress`, `CopyLoadSegments` and `LoadELF` of `terminal.cpp`.  The
headers are read from the file's buffer; `image` is the memory from the start of
the buffer on, so it holds the file and whatever lies behind it.
-/

namespace MinOS
namespace App

open Paging Paging.Machine ByteMemory

def etExec : ℕ := 2

def ptLoad : ℕ := 1

/-- The fields of `Elf64_Phdr` that the loader reads. -/
structure Phdr where
  pType : ℕ
  pOffset : ℕ
  pVaddr : ℕ
  pFilesz : ℕ
  pMemsz : ℕ
deriving DecidableEq, Repr

def eType (image : ℕ → UInt8) : ℕ := readLE image 16 2

def eEntry (image : ℕ → UInt8) : ℕ := readLE image 24 8

def ePhoff (image : ℕ → UInt8) : ℕ := readLE image 32 8

def ePhnum (image : ℕ → UInt8) : ℕ := readLE image 56 2

def phdr (image : ℕ → UInt8) (i : ℕ) : Phdr where
  pType := readLE image (ePhoff image + 56 * i) 4
  pOffset := readLE image (ePhoff image + 56 * i + 8) 8
  pVaddr := readLE image (ePhoff image + 56 * i + 16) 8
  pFilesz := readLE image (ePhoff image + 56 * i + 32) 8
  pMemsz := readLE image (ePhoff image + 56 * i + 40) 8

def programHeaders (image : ℕ → UInt8) : List Phdr :=
  (List.range (ePhnum image)).map (phdr image)

def getFirstLoadAddress : List Phdr → ℕ
  | [] => 0
  | ph :: phdrs => if ph.pType ≠ ptLoad then getFirstLoadAddress phdrs else ph.pVaddr

def Phdr.num4kpages (ph : Phdr) : ℕ :=
  uint64Add (uint64Add (ph.pVaddr % 4096) ph.pMemsz) 4095 / 4096

/-- What the loader leaves.  A fault of the kernel in the middle of a copy has no
result; `touched` are the PML4 indices above the entries that were written, and
`stores` the ranges that `memcpy` and `memset` were given. -/
structure Load where
  result : Option (Except Error ℕ)
  machine : Machine
  touched : List ℕ
  stores : List (ℕ × ℕ)

def Load.after (l : Load) (touched : List ℕ) (stores : List (ℕ × ℕ)) : Load :=
  { l with touched := touched ++ l.touched, stores := stores ++ l.stores }

def Phdr.stores (ph : Phdr) : List (ℕ × ℕ) :=
  [(ph.pVaddr, ph.pFilesz),
    (uint64Add ph.pVaddr ph.pFilesz, uint64Sub ph.pMemsz ph.pFilesz)]

/-- The `memcpy` and the `memset` of a segment. -/
def copySegment (image : ℕ → UInt8) (ph : Phdr) (m : Machine) : Option Machine :=
  (m.storeBytes ph.pVaddr (readBytes image ph.pOffset ph.pFilesz)).bind fun m ↦
    m.storeBytes (uint64Add ph.pVaddr ph.pFilesz)
      (List.replicate (uint64Sub ph.pMemsz ph.pFilesz) 0)

def copyLoadSegments (image : ℕ → UInt8) : List Phdr → ℕ → Machine → Load
  | [], lastAddr, m => ⟨some (.ok lastAddr), m, [], []⟩
  | ph :: phdrs, lastAddr, m =>
      if ph.pType ≠ ptLoad then copyLoadSegments image phdrs lastAddr m
      else
        let lastAddr := max lastAddr (uint64Add ph.pVaddr ph.pMemsz)
        let setup := m.setupPageMaps (LinearAddress4Level.ofValue ph.pVaddr) ph.num4kpages false
        match setup.result with
        | .error e => ⟨some (.error e), setup.machine, setup.touched, []⟩
        | .ok _ =>
            match copySegment image ph setup.machine with
            | none => ⟨none, setup.machine, setup.touched, ph.stores⟩
            | some m => (copyLoadSegments image phdrs lastAddr m).after setup.touched ph.stores

def loadELF (image : ℕ → UInt8) (m : Machine) : Load :=
  if eType image ≠ etExec then ⟨some (.error .kInvalidFormat), m, [], []⟩
  else if getFirstLoadAddress (programHeaders image) < userBase then
    ⟨some (.error .kInvalidFormat), m, [], []⟩
  else copyLoadSegments image (programHeaders image) 0 m

/-! ## Confinement -/

/-- A load that is accepted writes to the user half only, and one that is not
returns an error and has stored nothing. -/
def Load.Confined (l : Load) : Prop :=
  match l.result with
  | some (.ok _) => (∀ i ∈ l.touched, i ∈ userHalf) ∧ ∀ store ∈ l.stores, InUserHalf store
  | some (.error _) => ∀ store ∈ l.stores, store.2 = 0
  | none => False

namespace Phdr

/-- The segment stores at least one byte. -/
def Stores (ph : Phdr) : Prop := ph.pFilesz ≠ 0 ∨ ph.pMemsz ≠ 0

/-- The segment is in the user half: its file part is not longer than the
segment, and the segment does not wrap around. -/
def Inside (ph : Phdr) : Prop :=
  ph.pFilesz ≤ ph.pMemsz ∧
    (ph.pMemsz = 0 ∨ userBase ≤ ph.pVaddr ∧ ph.pVaddr + ph.pMemsz ≤ 2 ^ 64)

/-- The pages of the segment, if any, are in the user half. -/
def MapsUser (ph : Phdr) : Prop := ph.num4kpages = 0 ∨ 256 ≤ ph.pVaddr / 2 ^ 39 % 512

/-- The page map entries above the pages of the segment. -/
def entries (ph : Phdr) : Finset (ℕ × ℕ) :=
  entriesFrom 0 (ph.pVaddr / 4096 % 2 ^ 36)
    (min (ph.pVaddr / 4096 % 2 ^ 36 + ph.num4kpages) (512 ^ 4))

end Phdr

/-- The page map entries above the pages of all segments. -/
def allEntries : List Phdr → Finset (ℕ × ℕ)
  | [] => ∅
  | ph :: phdrs => ph.entries ∪ allEntries phdrs

/-- The headers of type `PT_LOAD`. -/
def loads (phdrs : List Phdr) : List Phdr := phdrs.filter fun ph ↦ ph.pType = ptLoad

/-- With `total` frames for the page maps of the user half and the entries `N`
there already, the frames run out before a segment has stored a byte. -/
def RunsOut (total : ℕ) : Finset (ℕ × ℕ) → List Phdr → Prop
  | _, [] => False
  | N, ph :: phdrs =>
      ph.MapsUser ∧
        (total < (N ∪ ph.entries).card ∨ ¬ ph.Stores ∧ RunsOut total (N ∪ ph.entries) phdrs)

/-- Pages of the lower half are set up before a segment has stored a byte. -/
def MapsLow : List Phdr → Prop
  | [] => False
  | ph :: phdrs => ¬ ph.MapsUser ∨ ¬ ph.Stores ∧ MapsLow phdrs

/-- The files that are loaded as they should: rejected by a check of the header,
in the user half with frames for every segment, or given up before anything is
stored. -/
def KeepsConfined (image : ℕ → UInt8) (m : Machine) : Prop :=
  eType image ≠ etExec ∨ getFirstLoadAddress (programHeaders image) < userBase ∨
    ((∀ ph ∈ loads (programHeaders image), ph.Inside ∧ ph.MapsUser) ∧
      (allEntries (loads (programHeaders image))).card ≤ m.memoryManager.freeFrames.card) ∨
    RunsOut m.memoryManager.freeFrames.card ∅ (loads (programHeaders image))

/-- The state in which `LoadApp` calls the loader: `SetupPML4` has left the user
half of the PML4 empty. -/
structure Fresh (m : Machine) : Prop where
  allocated : m.memoryManager.getBit m.cr3 = true
  rangeEnd : m.memoryManager.rangeEnd ≤ kFrameCount
  empty : ∀ i, 256 ≤ i → i < 512 → m.mem m.cr3 i = 0#64

end App
end MinOS
