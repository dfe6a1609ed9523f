import MinOS.App.ElfConfined

/-!
# Loading the kernel

`CalcLoadAddressRange`, `CopyLoadSegments` and the part of `UefiMain` that reads the kernel.
The program headers are read where they lie, in the buffer of the file, while segments are
copied all over the memory.
-/

namespace MinOS
namespace Boot

open App ByteMemory

/-- The memory from the buffer of the file on. -/
def imageAt (mem : ℕ → UInt8) (ehdr : ℕ) : ℕ → UInt8 := fun i ↦ mem (uint64Add ehdr i)

def MAX_UINT64 : ℕ := 2 ^ 64 - 1

/-- `*first` and `*last`. -/
def calcLoadAddressRange (phdrs : List Phdr) : ℕ × ℕ :=
  phdrs.foldl (fun range ph ↦
    if ph.pType ≠ ptLoad then range
    else (min range.1 ph.pVaddr, max range.2 (uint64Add ph.pVaddr ph.pMemsz))) (MAX_UINT64, 0)

def numPages (range : ℕ × ℕ) : ℕ := uint64Add (uint64Sub range.2 range.1) 0xfff / 0x1000

/-- The memory, and the ranges that `CopyMem` and `SetMem` were given. -/
structure Copied where
  mem : ℕ → UInt8
  stores : List (ℕ × ℕ)

def copyFile (ehdr i : ℕ) (c : Copied) : Copied :=
  let ph := phdr (imageAt c.mem ehdr) i
  let segmInFile := uint64Add ehdr ph.pOffset
  ⟨writeBytes c.mem ph.pVaddr (readBytes c.mem segmInFile ph.pFilesz),
    c.stores ++ [(ph.pVaddr, ph.pFilesz)]⟩

def clearRest (ehdr i : ℕ) (c : Copied) : Copied :=
  let ph := phdr (imageAt c.mem ehdr) i
  let remainBytes := uint64Sub ph.pMemsz ph.pFilesz
  ⟨writeBytes c.mem (uint64Add ph.pVaddr ph.pFilesz) (List.replicate remainBytes 0),
    c.stores ++ [(uint64Add ph.pVaddr ph.pFilesz, remainBytes)]⟩

/-- The body of the loop of `CopyLoadSegments`. -/
def copySegment (ehdr i : ℕ) (c : Copied) : Copied :=
  if (phdr (imageAt c.mem ehdr) i).pType ≠ ptLoad then c else clearRest ehdr i (copyFile ehdr i c)

def copyLoop (ehdr : ℕ) : ℕ → ℕ → Copied → Copied
  | 0, _, c => c
  | fuel + 1, i, c =>
      if i < ePhnum (imageAt c.mem ehdr) then copyLoop ehdr fuel (i + 1) (copySegment ehdr i c)
      else c

/-- `e_phnum` has 16 bits, so that the loop makes fewer than `2^16` turns. -/
def copyLoadSegments (ehdr : ℕ) (mem : ℕ → UInt8) : Copied := copyLoop ehdr (2 ^ 16) 0 ⟨mem, []⟩

/-- The headers as they lie in the file. -/
def headers (mem : ℕ → UInt8) (ehdr : ℕ) : List Phdr := programHeaders (imageAt mem ehdr)

/-- `read_kernel` of `UefiMain` after `ReadFile`.  Where `AllocatePages` does not grant the
pages, the loader halts. -/
def readKernel (allocatePages : ℕ → ℕ → Bool) (ehdr : ℕ) (mem : ℕ → UInt8) : Option Copied :=
  let range := calcLoadAddressRange (headers mem ehdr)
  if allocatePages range.1 (numPages range) then some (copyLoadSegments ehdr mem) else none

/-! ## What is wanted -/

/-- The address is in the pages that were asked for. -/
def InPages (range : ℕ × ℕ) (x : ℕ) : Prop :=
  range.1 ≤ x ∧ x < range.1 + numPages range * 0x1000

/-- Two segments have no byte in common. -/
def Apart (ph ph' : Phdr) : Prop :=
  ∀ x, ph.pVaddr ≤ x → x < ph.pVaddr + ph.pMemsz →
    ¬ (ph'.pVaddr ≤ x ∧ x < ph'.pVaddr + ph'.pMemsz)

/-- The bytes of the file and the zeros behind them. -/
def content (image : ℕ → UInt8) (ph : Phdr) : List UInt8 :=
  readBytes image ph.pOffset ph.pFilesz ++ List.replicate (ph.pMemsz - ph.pFilesz) 0

/-- Where the pages were granted, every byte that is stored is in them, and segments that
are apart hold what the file has for them. -/
def LoadsInPages (allocatePages : ℕ → ℕ → Bool) (ehdr : ℕ) (mem : ℕ → UInt8) : Prop :=
  ∀ c ∈ readKernel allocatePages ehdr mem,
    (∀ store ∈ c.stores, ∀ x, store.1 ≤ x → x < store.1 + store.2 →
      InPages (calcLoadAddressRange (headers mem ehdr)) x) ∧
    ((loads (headers mem ehdr)).Pairwise Apart → ∀ ph ∈ loads (headers mem ehdr),
      readBytes c.mem ph.pVaddr ph.pMemsz = content (imageAt mem ehdr) ph)

/-- The buffer holds an ELF file of `size` bytes whose segments do not wrap around and begin
at a page. -/
structure KernelImage (mem : ℕ → UInt8) (ehdr size : ℕ) : Prop where
  buffer : ehdr + size ≤ 2 ^ 64
  header : 64 ≤ size
  table : ePhoff (imageAt mem ehdr) + 56 * ePhnum (imageAt mem ehdr) ≤ size
  contents : ∀ ph ∈ loads (headers mem ehdr), ph.pOffset + ph.pFilesz ≤ size
  filesz : ∀ ph ∈ loads (headers mem ehdr), ph.pFilesz ≤ ph.pMemsz
  memsz : ∀ ph ∈ loads (headers mem ehdr), ph.pVaddr + ph.pMemsz < 2 ^ 64
  aligned : ∀ ph ∈ loads (headers mem ehdr),
    (∀ ph' ∈ loads (headers mem ehdr), ph.pVaddr ≤ ph'.pVaddr) → 0x1000 ∣ ph.pVaddr

/-- `AllocatePages` grants no page of the buffer, which is not free. -/
def GrantsFree (allocatePages : ℕ → ℕ → Bool) (ehdr size : ℕ) : Prop :=
  ∀ first pages x, allocatePages first pages = true → first ≤ x → x < first + pages * 0x1000 →
    ¬ (ehdr ≤ x ∧ x < ehdr + size)

/-- A segment begins at address 0, and one ends in the last page of the address space. -/
def SpansAll (phdrs : List Phdr) : Prop :=
  (∃ ph ∈ phdrs, ph.pVaddr = 0) ∧ ∃ ph ∈ phdrs, 2 ^ 64 - 0x1000 < ph.pVaddr + ph.pMemsz

/-! ## The range -/

/-- The range of a list of segments, from a range to begin with. -/
def rangeFrom (range : ℕ × ℕ) (segs : List Phdr) : ℕ × ℕ :=
  segs.foldl (fun range ph ↦ (min range.1 ph.pVaddr, max range.2 (uint64Add ph.pVaddr ph.pMemsz)))
    range

theorem calcLoadAddressRange_eq (phdrs : List Phdr) :
    calcLoadAddressRange phdrs = rangeFrom (MAX_UINT64, 0) (loads phdrs) := by
  rw [calcLoadAddressRange, rangeFrom, loads, List.foldl_filter]
  congr 1
  funext range ph
  by_cases hload : ph.pType = ptLoad <;> simp [hload]

/-- The range is the least one that has every segment in it. -/
structure Least (range : ℕ × ℕ) (segs : List Phdr) (range' : ℕ × ℕ) : Prop where
  first_le : range'.1 ≤ range.1
  first_le_of_mem : ∀ ph ∈ segs, range'.1 ≤ ph.pVaddr
  first_eq : range'.1 = range.1 ∨ ∃ ph ∈ segs, range'.1 = ph.pVaddr
  le_last : range.2 ≤ range'.2
  le_last_of_mem : ∀ ph ∈ segs, uint64Add ph.pVaddr ph.pMemsz ≤ range'.2
  last_eq : range'.2 = range.2 ∨ ∃ ph ∈ segs, range'.2 = uint64Add ph.pVaddr ph.pMemsz

theorem least_rangeFrom (segs : List Phdr) (range : ℕ × ℕ) :
    Least range segs (rangeFrom range segs) := by
  induction segs generalizing range with
  | nil => exact ⟨le_rfl, by simp, .inl rfl, le_rfl, by simp, .inl rfl⟩
  | cons ph segs ih =>
      obtain ⟨hfirst, hfirsts, hfirstEq, hlast, hlasts, hlastEq⟩ :=
        ih (min range.1 ph.pVaddr, max range.2 (uint64Add ph.pVaddr ph.pMemsz))
      change Least range (ph :: segs) (rangeFrom _ segs)
      simp only [le_min_iff] at hfirst
      simp only [max_le_iff] at hlast
      refine ⟨hfirst.1, List.forall_mem_cons.mpr ⟨hfirst.2, hfirsts⟩, ?_,
        hlast.1, List.forall_mem_cons.mpr ⟨hlast.2, hlasts⟩, ?_⟩
      · rcases hfirstEq with heq | ⟨ph', hmem, heq⟩
        · rcases min_choice range.1 ph.pVaddr with hmin | hmin
          · exact .inl (heq.trans hmin)
          · exact .inr ⟨ph, List.mem_cons_self, heq.trans hmin⟩
        · exact .inr ⟨ph', List.mem_cons_of_mem _ hmem, heq⟩
      · rcases hlastEq with heq | ⟨ph', hmem, heq⟩
        · rcases max_choice range.2 (uint64Add ph.pVaddr ph.pMemsz) with hmax | hmax
          · exact .inl (heq.trans hmax)
          · exact .inr ⟨ph, List.mem_cons_self, heq.trans hmax⟩
        · exact .inr ⟨ph', List.mem_cons_of_mem _ hmem, heq⟩

variable {mem : ℕ → UInt8} {ehdr size : ℕ}

theorem uint64Add_of_lt {a b : ℕ} (h : a + b < 2 ^ 64) : uint64Add a b = a + b :=
  Nat.mod_eq_of_lt h

/-- The range of the segments is that from the lowest address to the highest end. -/
theorem KernelImage.range (h : KernelImage mem ehdr size) (hsegs : loads (headers mem ehdr) ≠ []) :
    ∃ low ∈ loads (headers mem ehdr), ∃ high ∈ loads (headers mem ehdr),
      calcLoadAddressRange (headers mem ehdr) = (low.pVaddr, high.pVaddr + high.pMemsz) ∧
      ∀ ph ∈ loads (headers mem ehdr), low.pVaddr ≤ ph.pVaddr ∧
        ph.pVaddr + ph.pMemsz ≤ high.pVaddr + high.pMemsz := by
  have hleast := least_rangeFrom (loads (headers mem ehdr)) (MAX_UINT64, 0)
  rw [calcLoadAddressRange_eq]
  obtain ⟨ph, hph⟩ := List.exists_mem_of_ne_nil _ hsegs
  have hlow : ∃ low ∈ loads (headers mem ehdr),
      (rangeFrom (MAX_UINT64, 0) (loads (headers mem ehdr))).1 = low.pVaddr := by
    rcases hleast.first_eq with heq | hlow
    · refine ⟨ph, hph, ?_⟩
      have hfirst := hleast.first_le_of_mem ph hph
      have hend := h.memsz ph hph
      rw [heq, MAX_UINT64] at *
      omega
    · exact hlow
  have hhigh : ∃ high ∈ loads (headers mem ehdr),
      (rangeFrom (MAX_UINT64, 0) (loads (headers mem ehdr))).2 = high.pVaddr + high.pMemsz := by
    rcases hleast.last_eq with heq | ⟨high, hhigh, heq⟩
    · refine ⟨ph, hph, ?_⟩
      have hlast := hleast.le_last_of_mem ph hph
      rw [uint64Add_of_lt (h.memsz ph hph), heq] at hlast
      omega
    · exact ⟨high, hhigh, heq.trans (uint64Add_of_lt (h.memsz high hhigh))⟩
  obtain ⟨low, hlowMem, hlow⟩ := hlow
  obtain ⟨high, hhighMem, hhigh⟩ := hhigh
  refine ⟨low, hlowMem, high, hhighMem, Prod.ext hlow hhigh, fun ph hph ↦ ⟨?_, ?_⟩⟩
  · rw [← hlow]
    exact hleast.first_le_of_mem ph hph
  · rw [← hhigh, ← uint64Add_of_lt (h.memsz ph hph)]
    exact hleast.le_last_of_mem ph hph

/-- The pages reach to the end of the last segment unless the segments span the address
space. -/
theorem KernelImage.inPages (h : KernelImage mem ehdr size)
    (hspan : ¬ SpansAll (loads (headers mem ehdr))) {ph : Phdr}
    (hph : ph ∈ loads (headers mem ehdr)) {x : ℕ} (hx : ph.pVaddr ≤ x)
    (hx' : x < ph.pVaddr + ph.pMemsz) : InPages (calcLoadAddressRange (headers mem ehdr)) x := by
  obtain ⟨low, hlow, high, hhigh, hrange, hall⟩ := h.range (List.ne_nil_of_mem hph)
  obtain ⟨hfirst, hlast⟩ := hall ph hph
  have hend := h.memsz high hhigh
  have hle : low.pVaddr ≤ high.pVaddr + high.pMemsz := (hall high hhigh).1.trans (Nat.le_add_right _ _)
  have hround : high.pVaddr + high.pMemsz - low.pVaddr + 0xfff < 2 ^ 64 := by
    by_contra hwrap
    have hdvd := h.aligned low hlow fun ph' hph' ↦ (hall ph' hph').1
    obtain ⟨n, hn⟩ := hdvd
    refine hspan ⟨⟨low, hlow, ?_⟩, high, hhigh, ?_⟩
    · omega
    · omega
  rw [InPages, hrange, numPages, uint64Sub_of_le hend hle, uint64Add_of_lt hround]
  dsimp only
  omega

theorem KernelImage.numPages_of_spansAll (h : KernelImage mem ehdr size)
    (hspan : SpansAll (loads (headers mem ehdr))) :
    (calcLoadAddressRange (headers mem ehdr)).1 = 0 ∧
      numPages (calcLoadAddressRange (headers mem ehdr)) = 0 := by
  obtain ⟨⟨zero, hzero, hzero'⟩, top, htop, htop'⟩ := hspan
  obtain ⟨low, hlow, high, hhigh, hrange, hall⟩ := h.range (List.ne_nil_of_mem hzero)
  have hend := h.memsz high hhigh
  have hlowZero : low.pVaddr = 0 := by
    have := (hall zero hzero).1
    omega
  have hreaches := (hall top htop).2
  rw [hrange, numPages]
  dsimp only
  rw [hlowZero, uint64Sub_of_le hend (Nat.zero_le _), uint64Add]
  exact ⟨rfl, by omega⟩

end Boot
end MinOS
