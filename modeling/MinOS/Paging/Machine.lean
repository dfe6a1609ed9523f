import MinOS.Memory.Bitmap
import MinOS.Paging.Entry

/-!
# Page maps in memory

The functions of `paging.cpp` on the physical memory that holds the page maps.
A frame is read as its 512 words of eight bytes; the kernel reaches every frame
through the identity mapping, so a table is named by its frame.
-/

namespace MinOS
namespace Paging

open PageMapEntry

/-- Physical memory, the frame allocator, and the frame of the current PML4. -/
structure Machine where
  mem : ℕ → ℕ → PageMapEntry
  memoryManager : BitmapMemoryManager
  cr3 : ℕ

namespace Machine

def setEntry (m : Machine) (table i : ℕ) (e : PageMapEntry) : Machine :=
  { m with mem := Function.update m.mem table (Function.update (m.mem table) i e) }

def newPageMap (m : Machine) : Except Error ℕ × Machine :=
  match m.memoryManager.allocate 1 with
  | (.error err, mm) => (.error err, { m with memoryManager := mm })
  | (.ok frame, mm) =>
      (.ok frame,
        { m with memoryManager := mm, mem := Function.update m.mem frame fun _ ↦ 0#64 })

def setNewPageMapIfNotPresent (m : Machine) (table i : ℕ) : Except Error ℕ × Machine :=
  if (m.mem table i).present then (.ok (m.mem table i).pointer, m)
  else
    match m.newPageMap with
    | (.error err, m) => (.error err, m)
    | (.ok childMap, m) =>
        (.ok childMap, m.setEntry table i (((m.mem table i).setPointer childMap).setFlag 0 true))

/-- What `SetupPageMap` gives back: the pages that remain, the memory, and the
PML4 index above every entry that it wrote. -/
structure Setup where
  result : Except Error ℕ
  machine : Machine
  touched : List ℕ

def Setup.after (s : Setup) (earlier : List ℕ) : Setup :=
  { s with touched := earlier ++ s.touched }

/-- The flags that `SetupPageMap` assigns in the entry of a child. -/
def setFlags (m : Machine) (table i : ℕ) (writable : Bool) : Machine :=
  m.setEntry table i (((m.mem table i).setFlag 2 true).setFlag 1 writable)

/-- The `while` loop of `SetupPageMap`; `child` is the recursive call for the
level below.  A level has 512 entries, so no more turns are made. -/
def setupLoop (writable : Bool) (child : Machine → ℕ → LinearAddress4Level → ℕ → Setup)
    (table level : ℕ) : ℕ → Machine → LinearAddress4Level → ℕ → Setup
  | 0, m, _, num4kpages => ⟨.ok num4kpages, m, []⟩
  | turns + 1, m, addr, num4kpages =>
      if num4kpages = 0 then ⟨.ok 0, m, []⟩
      else
        let entryIndex := addr.part level
        let next := (addr.setPart level (entryIndex + 1)).clearBelow level
        match m.setNewPageMapIfNotPresent table entryIndex with
        | (.error err, m) => ⟨.error err, m, []⟩
        | (.ok childMap, m) =>
            if level = 1 then
              let m := m.setFlags table entryIndex writable
              if entryIndex = 511 then ⟨.ok (num4kpages - 1), m, [addr.pml4]⟩
              else (setupLoop writable child table level turns m next (num4kpages - 1)).after
                [addr.pml4]
            else
              let m := m.setFlags table entryIndex true
              let sub := (child m childMap addr num4kpages).after [addr.pml4]
              match sub.result with
              | .error _ => sub
              | .ok numRemainPages =>
                  if entryIndex = 511 then sub
                  else (setupLoop writable child table level turns sub.machine next
                    numRemainPages).after sub.touched

def setupPageMap (writable : Bool) : ℕ → Machine → ℕ → LinearAddress4Level → ℕ → Setup
  | 0, m, _, _, num4kpages => ⟨.ok num4kpages, m, []⟩
  | level + 1, m, table, addr, num4kpages =>
      setupLoop writable (setupPageMap writable level) table (level + 1) 512 m addr num4kpages

def setupPageMaps (m : Machine) (addr : LinearAddress4Level) (num4kpages : ℕ) (writable : Bool) :
    Setup :=
  setupPageMap writable 4 m m.cr3 addr num4kpages

/-! ## Memory accesses of the kernel -/

/-- The processor's walk from a table of the given level.  The page size bit
ends it above the last level. -/
def walk (m : Machine) : ℕ → ℕ → LinearAddress4Level → Option ℕ
  | 0, _, _ => none
  | level + 1, table, addr =>
      let e : PageMapEntry := m.mem table (addr.part (level + 1))
      if e.present = false then none
      else if level = 0 ∨ level < 3 ∧ e.hugePage then
        some (e.pointer * 4096 + addr.value % (4096 * 512 ^ level))
      else m.walk level e.pointer addr

/-- The physical address behind a linear address; `none` is a fault, also when
the address is not canonical.  With `CR0.WP` cleared the kernel ignores the
writable bits. -/
def translate (m : Machine) (vaddr : ℕ) : Option ℕ :=
  if vaddr < 2 ^ 47 ∨ 2 ^ 64 - 2 ^ 47 ≤ vaddr then
    m.walk 4 m.cr3 (LinearAddress4Level.ofValue vaddr)
  else none

def byteAt (m : Machine) (phys : ℕ) : UInt8 :=
  UInt8.ofBitVec ((m.mem (phys / 4096) (phys % 4096 / 8)).extractLsb' (8 * (phys % 8)) 8)

def setByte (w : BitVec 64) (k : ℕ) (b : UInt8) : BitVec 64 :=
  (w &&& ~~~(0xff#64 <<< (8 * k))) ||| (b.toBitVec.setWidth 64 <<< (8 * k))

def storeByte (m : Machine) (vaddr : ℕ) (b : UInt8) : Option Machine :=
  (m.translate vaddr).map fun phys ↦
    m.setEntry (phys / 4096) (phys % 4096 / 8)
      (setByte (m.mem (phys / 4096) (phys % 4096 / 8)) (phys % 8) b)

/-- `memcpy` and `memset` to a linear address: the bytes go up from `vaddr`,
and a fault ends it. -/
def storeBytes (m : Machine) (vaddr : ℕ) : List UInt8 → Option Machine
  | [] => some m
  | b :: bytes => (m.storeByte vaddr b).bind fun m ↦ m.storeBytes ((vaddr + 1) % 2 ^ 64) bytes

end Machine
end Paging
end MinOS
