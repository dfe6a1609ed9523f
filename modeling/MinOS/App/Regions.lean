import Mathlib.Order.Interval.Set.Disjoint
import Mathlib.Tactic
import Mathlib.Order.CompletePartialOrder
import MinOS.Library.Transition

/-!
# The regions of an application

Above its image an application has a demand-paging range that `DemandPages`
grows upwards, file mappings that `MapFile` stacks downwards from the stack, and
the stack.  Both system calls compute their bounds in 64 bits without checking
them.  Addresses are natural numbers below `2 ^ 64`, and a region is the pair of
its bounds.
-/

namespace MinOS
namespace App

/-- `& 0xfffffffffffff000`. -/
def pageDown (a : ℕ) : ℕ := a / 4096 * 4096

/-- Addition and subtraction of `uint64_t`. -/
def uint64Add (a b : ℕ) : ℕ := (a + b) % 2 ^ 64

def uint64Sub (a b : ℕ) : ℕ := (a + 2 ^ 64 - b % 2 ^ 64) % 2 ^ 64

/-- The conversion of a register to `int`, when that is not negative. -/
def toInt (arg : ℕ) : Option ℕ := if arg % 2 ^ 32 < 2 ^ 31 then some (arg % 2 ^ 32) else none

structure FileMapping where
  fd : ℕ
  vaddrBegin : ℕ
  vaddrEnd : ℕ

/-- The fields of `Task` that describe the regions, with the `Size()` of each
open file. -/
structure Regions where
  dpagingBegin : ℕ
  dpagingEnd : ℕ
  fileMapEnd : ℕ
  fileMaps : List FileMapping
  files : List (Option ℕ)

inductive Errno where
  | EBADF
deriving DecidableEq

/-- `stack_frame_addr` of `ExecuteFile`. -/
def stackFrameAddr : ℕ := 0xfffffffffffff000 - 0x100 * 4096

/-- The region setup of `ExecuteFile` for an image that ends at `vaddrEnd`; the
mappings of the last application have been cleared. -/
def executeFile (vaddrEnd : ℕ) (files : List (Option ℕ)) : Regions where
  dpagingBegin := pageDown (uint64Add vaddrEnd 4095)
  dpagingEnd := pageDown (uint64Add vaddrEnd 4095)
  fileMapEnd := stackFrameAddr
  fileMaps := []
  files := files

def demandPages (r : Regions) (numPages : ℕ) : Except Errno ℕ × Regions :=
  let dpEnd := r.dpagingEnd
  (.ok dpEnd, { r with dpagingEnd := uint64Add dpEnd (4096 * numPages % 2 ^ 64) })

/-- The descriptor that an argument names and its size, if it is open. -/
def openFile (files : List (Option ℕ)) (arg : ℕ) : Option (ℕ × ℕ) :=
  match toInt arg with
  | none => none
  | some fd => files[fd]?.join.map fun fileSize ↦ (fd, fileSize)

def mapFile (r : Regions) (arg1 : ℕ) : Except Errno ℕ × Regions :=
  match openFile r.files arg1 with
  | none => (.error .EBADF, r)
  | some (fd, fileSize) =>
      let vaddrEnd := r.fileMapEnd
      let vaddrBegin := pageDown (uint64Sub vaddrEnd fileSize)
      (.ok vaddrBegin,
        { r with fileMapEnd := vaddrBegin
                 fileMaps := r.fileMaps ++ [⟨fd, vaddrBegin, vaddrEnd⟩] })

/-- The steps of a task: run an application, change the file table or the
files, and the two system calls. -/
inductive Op where
  | executeFile (vaddrEnd : ℕ) (files : List (Option ℕ))
  | setFiles (files : List (Option ℕ))
  | demandPages (numPages : ℕ)
  | mapFile (arg1 : ℕ)

def Regions.apply (r : Regions) : Op → Regions
  | .executeFile vaddrEnd files => App.executeFile vaddrEnd files
  | .setFiles files => { r with files := files }
  | .demandPages numPages => (App.demandPages r numPages).2
  | .mapFile arg1 => (App.mapFile r arg1).2

def Step (r : Regions) (op : Op) (r' : Regions) : Prop :=
  r' = r.apply op

/-- The demand-paging range, the stack and the mappings. -/
def bounds (dpagingBegin dpagingEnd : ℕ) (fileMaps : List FileMapping) : List (ℕ × ℕ) :=
  (dpagingBegin, dpagingEnd) :: (stackFrameAddr, 2 ^ 64) ::
    fileMaps.map fun m ↦ (m.vaddrBegin, m.vaddrEnd)

def Apart (p q : ℕ × ℕ) : Prop :=
  Disjoint (Set.Ico p.1 p.2) (Set.Ico q.1 q.2)

/-- No region wraps around, and the regions are pairwise disjoint. -/
def Layout (regions : List (ℕ × ℕ)) : Prop :=
  (∀ p ∈ regions, p.1 ≤ p.2 ∧ p.2 ≤ 2 ^ 64) ∧ regions.Pairwise Apart

/-- The request ends below what is there: demand paging below the mappings, and
a mapping above a demand-paging range that is not empty. -/
def Fits (r : Regions) : Op → Prop
  | .demandPages numPages => numPages = 0 ∨ r.dpagingEnd + 4096 * numPages ≤ r.fileMapEnd
  | .mapFile arg1 => ∀ fd fileSize, openFile r.files arg1 = some (fd, fileSize) →
      fileSize ≤ r.fileMapEnd ∧ (fileSize = 0 ∨ r.dpagingBegin = r.dpagingEnd ∨
        r.dpagingEnd ≤ pageDown (r.fileMapEnd - fileSize))
  | _ => True

/-- What the request asks for, in unbounded arithmetic, is a layout. -/
def CanKeep (r : Regions) : Op → Prop
  | .demandPages numPages =>
      Layout (bounds r.dpagingBegin (r.dpagingEnd + 4096 * numPages) r.fileMaps)
  | .mapFile arg1 => ∀ fd fileSize, openFile r.files arg1 = some (fd, fileSize) →
      fileSize ≤ r.fileMapEnd ∧ Layout (bounds r.dpagingBegin r.dpagingEnd (r.fileMaps ++
        [⟨fd, pageDown (r.fileMapEnd - fileSize), r.fileMapEnd⟩]))
  | _ => True

/-! ## The mappings tile the range below the stack -/

/-- The mappings, in order, each end where the one before begins. -/
def Tiles : ℕ → List FileMapping → ℕ → Prop
  | top, [], bottom => bottom = top
  | top, m :: ms, bottom => m.vaddrEnd = top ∧ m.vaddrBegin ≤ m.vaddrEnd ∧
      Tiles m.vaddrBegin ms bottom

theorem Tiles.snoc {top bottom bottom' : ℕ} {ms : List FileMapping} (h : Tiles top ms bottom)
    (fd : ℕ) (hle : bottom' ≤ bottom) : Tiles top (ms ++ [⟨fd, bottom', bottom⟩]) bottom' := by
  induction ms generalizing top with
  | nil =>
      obtain rfl : bottom = top := h
      exact ⟨rfl, hle, rfl⟩
  | cons m ms ih =>
      obtain ⟨hend, hbegin, hrest⟩ := h
      exact ⟨hend, hbegin, ih hrest⟩

theorem Tiles.le {top bottom : ℕ} {ms : List FileMapping} (h : Tiles top ms bottom) :
    bottom ≤ top := by
  induction ms generalizing top with
  | nil => exact Nat.le_of_eq h
  | cons m ms ih =>
      obtain ⟨rfl, hbegin, hrest⟩ := h
      exact (ih hrest).trans hbegin

theorem Tiles.mem {top bottom : ℕ} {ms : List FileMapping} (h : Tiles top ms bottom)
    {m : FileMapping} (hm : m ∈ ms) :
    bottom ≤ m.vaddrBegin ∧ m.vaddrBegin ≤ m.vaddrEnd ∧ m.vaddrEnd ≤ top := by
  induction ms generalizing top with
  | nil => cases hm
  | cons first ms ih =>
      obtain ⟨rfl, hbegin, hrest⟩ := h
      rcases List.mem_cons.mp hm with rfl | hm
      · exact ⟨hrest.le, hbegin, le_rfl⟩
      · obtain ⟨hlow, hmid, hhigh⟩ := ih hrest hm
        exact ⟨hlow, hmid, hhigh.trans hbegin⟩

theorem apart_of_le {p q : ℕ × ℕ} (h : p.2 ≤ q.1) : Apart p q := by
  rw [Apart, Set.Ico_disjoint_Ico]
  exact (min_le_left _ _).trans (h.trans (le_max_right _ _))

theorem Apart.symm {p q : ℕ × ℕ} (h : Apart p q) : Apart q p :=
  Disjoint.symm h

theorem Apart.of_empty {p q : ℕ × ℕ} (h : p.1 = p.2) : Apart p q := by
  rw [Apart, h, Set.Ico_self]
  exact disjoint_bot_left

theorem not_apart {p q : ℕ × ℕ} {a : ℕ} (hp : p.1 ≤ a ∧ a < p.2) (hq : q.1 ≤ a ∧ a < q.2) :
    ¬ Apart p q :=
  fun h ↦ Set.disjoint_left.mp h (Set.mem_Ico.mpr hp) (Set.mem_Ico.mpr hq)

theorem Tiles.pairwise {top bottom : ℕ} {ms : List FileMapping} (h : Tiles top ms bottom) :
    (ms.map fun m ↦ (m.vaddrBegin, m.vaddrEnd)).Pairwise Apart := by
  induction ms generalizing top with
  | nil => exact .nil
  | cons first ms ih =>
      obtain ⟨rfl, hbegin, hrest⟩ := h
      refine .cons ?_ (ih hrest)
      intro q hq
      obtain ⟨m, hm, rfl⟩ := List.mem_map.mp hq
      exact (apart_of_le (hrest.mem hm).2.2).symm

/-- An address between the bounds of the tiling is in one of the mappings. -/
theorem Tiles.exists_mem {top bottom a : ℕ} {ms : List FileMapping} (h : Tiles top ms bottom)
    (hlow : bottom ≤ a) (hhigh : a < top) : ∃ m ∈ ms, m.vaddrBegin ≤ a ∧ a < m.vaddrEnd := by
  induction ms generalizing top with
  | nil =>
      obtain rfl : bottom = top := h
      exact absurd hhigh (not_lt_of_ge hlow)
  | cons first ms ih =>
      obtain ⟨rfl, hbegin, hrest⟩ := h
      rcases Nat.lt_or_ge a first.vaddrBegin with hlt | hge
      · obtain ⟨m, hm, hin⟩ := ih hrest hlt
        exact ⟨m, List.mem_cons_of_mem _ hm, hin⟩
      · exact ⟨first, List.mem_cons_self, hge, hhigh⟩

/-! ## Runs -/

/-- A demand-paging range that is not empty ends below the tiling. -/
structure Invariant (r : Regions) : Prop where
  begin_le : r.dpagingBegin ≤ r.dpagingEnd
  end_lt : r.dpagingEnd < 2 ^ 64
  aligned : pageDown r.fileMapEnd = r.fileMapEnd
  tiles : Tiles stackFrameAddr r.fileMaps r.fileMapEnd
  below : r.dpagingBegin = r.dpagingEnd ∨ r.dpagingEnd ≤ r.fileMapEnd

theorem pageDown_le (a : ℕ) : pageDown a ≤ a :=
  Nat.div_mul_le_self a 4096

theorem pageDown_pageDown (a : ℕ) : pageDown (pageDown a) = pageDown a := by
  simp [pageDown]

theorem stackFrameAddr_lt : stackFrameAddr < 2 ^ 64 := by
  decide

theorem Invariant.executeFile (vaddrEnd : ℕ) (files : List (Option ℕ)) :
    Invariant (App.executeFile vaddrEnd files) where
  begin_le := le_rfl
  end_lt := lt_of_le_of_lt (pageDown_le _) (Nat.mod_lt _ (Nat.two_pow_pos 64))
  aligned := show pageDown stackFrameAddr = stackFrameAddr by decide
  tiles := rfl
  below := .inl rfl

theorem layout_of_tiles {dpagingBegin dpagingEnd bottom : ℕ} {ms : List FileMapping}
    (hle : dpagingBegin ≤ dpagingEnd) (hlt : dpagingEnd < 2 ^ 64)
    (htiles : Tiles stackFrameAddr ms bottom)
    (hbelow : dpagingBegin = dpagingEnd ∨ dpagingEnd ≤ bottom) :
    Layout (bounds dpagingBegin dpagingEnd ms) := by
  constructor
  · intro p hp
    rw [bounds, List.mem_cons, List.mem_cons] at hp
    rcases hp with rfl | rfl | hp
    · exact ⟨hle, hlt.le⟩
    · exact ⟨stackFrameAddr_lt.le, le_rfl⟩
    · obtain ⟨m, hm, rfl⟩ := List.mem_map.mp hp
      obtain ⟨_, hmid, hhigh⟩ := htiles.mem hm
      exact ⟨hmid, hhigh.trans stackFrameAddr_lt.le⟩
  · refine .cons ?_ (.cons ?_ htiles.pairwise)
    · intro q hq
      rcases hbelow with hempty | hbelow
      · exact .of_empty hempty
      · apply apart_of_le
        rcases List.mem_cons.mp hq with rfl | hq
        · exact hbelow.trans htiles.le
        · obtain ⟨m, hm, rfl⟩ := List.mem_map.mp hq
          exact hbelow.trans (htiles.mem hm).1
    · intro q hq
      obtain ⟨m, hm, rfl⟩ := List.mem_map.mp hq
      exact (apart_of_le (htiles.mem hm).2.2).symm

theorem Invariant.layout {r : Regions} (hr : Invariant r) :
    Layout (bounds r.dpagingBegin r.dpagingEnd r.fileMaps) :=
  layout_of_tiles hr.begin_le hr.end_lt hr.tiles hr.below

theorem Invariant.fileMapEnd_lt {r : Regions} (hr : Invariant r) : r.fileMapEnd < 2 ^ 64 :=
  lt_of_le_of_lt hr.tiles.le stackFrameAddr_lt

theorem Invariant.demandPages {r : Regions} (hr : Invariant r) {numPages : ℕ}
    (hfits : Fits r (.demandPages numPages)) :
    (App.demandPages r numPages).2.dpagingEnd = r.dpagingEnd + 4096 * numPages ∧
      Invariant (App.demandPages r numPages).2 := by
  have hlt : r.dpagingEnd + 4096 * numPages < 2 ^ 64 := by
    rcases hfits with rfl | hle
    · exact hr.end_lt
    · exact lt_of_le_of_lt hle hr.fileMapEnd_lt
  have hend : (App.demandPages r numPages).2.dpagingEnd = r.dpagingEnd + 4096 * numPages := by
    simp only [App.demandPages, uint64Add, Nat.add_mod_mod]
    exact Nat.mod_eq_of_lt hlt
  refine ⟨hend, ?_, ?_, hr.aligned, hr.tiles, ?_⟩
  · rw [hend]
    exact hr.begin_le.trans (Nat.le_add_right _ _)
  · rw [hend]
    exact hlt
  · rw [hend]
    rcases hfits with rfl | hle
    · exact hr.below
    · exact .inr hle

theorem uint64Sub_of_le {a b : ℕ} (ha : a < 2 ^ 64) (hb : b ≤ a) : uint64Sub a b = a - b := by
  rw [uint64Sub, Nat.mod_eq_of_lt (lt_of_le_of_lt hb ha), Nat.sub_add_comm hb, Nat.add_mod_right]
  exact Nat.mod_eq_of_lt (lt_of_le_of_lt (Nat.sub_le a b) ha)

/-- A mapping that fits below the last one is placed there. -/
theorem mapFile_eq {r : Regions} {arg1 fd fileSize : ℕ} (hlt : r.fileMapEnd < 2 ^ 64)
    (hopen : openFile r.files arg1 = some (fd, fileSize))
    (hsize : fileSize ≤ r.fileMapEnd) :
    (App.mapFile r arg1).2 =
      { r with fileMapEnd := pageDown (r.fileMapEnd - fileSize)
               fileMaps := r.fileMaps ++ [⟨fd,
                 pageDown (r.fileMapEnd - fileSize), r.fileMapEnd⟩] } := by
  simp only [App.mapFile, hopen, uint64Sub_of_le hlt hsize]

theorem Invariant.mapFile {r : Regions} (hr : Invariant r) {arg1 : ℕ}
    (hfits : Fits r (.mapFile arg1)) : Invariant (App.mapFile r arg1).2 := by
  cases hopen : openFile r.files arg1 with
  | none => simpa only [App.mapFile, hopen] using hr
  | some file =>
      obtain ⟨fd, fileSize⟩ := file
      obtain ⟨hsize, hroom⟩ := hfits fd fileSize hopen
      have hdown : pageDown (r.fileMapEnd - fileSize) ≤ r.fileMapEnd :=
        (pageDown_le _).trans (Nat.sub_le _ _)
      rw [mapFile_eq hr.fileMapEnd_lt hopen hsize]
      refine ⟨hr.begin_le, hr.end_lt, pageDown_pageDown _, hr.tiles.snoc _ hdown, ?_⟩
      rcases hroom with rfl | hempty | hroom
      · rcases hr.below with hempty | hbelow
        · exact .inl hempty
        · right
          dsimp only
          rw [Nat.sub_zero, hr.aligned]
          exact hbelow
      · exact .inl hempty
      · exact .inr hroom

theorem Invariant.step (r : Regions) (op : Op) (r' : Regions) (hr : Invariant r)
    (hstep : Transition.Guarded Fits Step r op r') : Invariant r' := by
  obtain ⟨hfits, rfl⟩ := hstep
  cases op with
  | executeFile vaddrEnd files => exact .executeFile vaddrEnd files
  | setFiles files => exact ⟨hr.begin_le, hr.end_lt, hr.aligned, hr.tiles, hr.below⟩
  | demandPages numPages => exact (hr.demandPages hfits).2
  | mapFile arg1 => exact hr.mapFile hfits

/-- More pages can be had exactly when they fit below the mappings. -/
theorem Invariant.demandPages_fits_iff {r : Regions} (hr : Invariant r) (numPages : ℕ) :
    Fits r (.demandPages numPages) ↔ CanKeep r (.demandPages numPages) := by
  constructor
  · intro hfits
    obtain ⟨hend, hinv⟩ := hr.demandPages hfits
    have hlayout := hinv.layout
    rwa [hend] at hlayout
  · rintro ⟨_, hapart⟩
    by_contra hfits
    have hpos : numPages ≠ 0 := fun h ↦ hfits (.inl h)
    have hover : r.fileMapEnd < r.dpagingEnd + 4096 * numPages :=
      not_le.mp fun h ↦ hfits (.inr h)
    have hbegin : r.dpagingBegin < r.dpagingEnd + 4096 * numPages :=
      lt_of_le_of_lt hr.begin_le (by omega)
    -- the larger of the two lower bounds lies in the range and above the tiling's bottom
    have hin : r.dpagingBegin ≤ max r.dpagingBegin r.fileMapEnd ∧
        max r.dpagingBegin r.fileMapEnd < r.dpagingEnd + 4096 * numPages :=
      ⟨le_max_left _ _, max_lt hbegin hover⟩
    have hdemand := (List.pairwise_cons.mp hapart).1
    rcases Nat.lt_or_ge (max r.dpagingBegin r.fileMapEnd) stackFrameAddr with hlt | hge
    · obtain ⟨m, hm, hmem⟩ := hr.tiles.exists_mem (le_max_right _ _) hlt
      exact not_apart hin hmem (hdemand _ (List.mem_cons_of_mem _ (List.mem_map_of_mem hm)))
    · have htop : max r.dpagingBegin r.fileMapEnd < 2 ^ 64 :=
        max_lt (lt_of_le_of_lt hr.begin_le hr.end_lt) hr.fileMapEnd_lt
      exact not_apart hin ⟨hge, htop⟩ (hdemand _ List.mem_cons_self)

theorem Invariant.mapFile_fits_iff {r : Regions} (hr : Invariant r) (arg1 : ℕ) :
    Fits r (.mapFile arg1) ↔ CanKeep r (.mapFile arg1) := by
  constructor
  · intro hfits fd fileSize hopen
    have hsize := (hfits fd fileSize hopen).1
    have hlayout := (hr.mapFile hfits).layout
    rw [mapFile_eq hr.fileMapEnd_lt hopen hsize] at hlayout
    exact ⟨hsize, hlayout⟩
  · intro hkeep fd fileSize hopen
    obtain ⟨hsize, _, hapart⟩ := hkeep fd fileSize hopen
    refine ⟨hsize, ?_⟩
    by_contra hroom
    push Not at hroom
    obtain ⟨hpos, hne, hover⟩ := hroom
    have hlt : r.dpagingBegin < r.dpagingEnd := lt_of_le_of_ne hr.begin_le hne
    have hbelow : r.dpagingEnd ≤ r.fileMapEnd := hr.below.resolve_left hne
    have hin : r.dpagingBegin ≤ max r.dpagingBegin (pageDown (r.fileMapEnd - fileSize)) ∧
        max r.dpagingBegin (pageDown (r.fileMapEnd - fileSize)) < r.dpagingEnd :=
      ⟨le_max_left _ _, max_lt hlt hover⟩
    have hnew : (pageDown (r.fileMapEnd - fileSize), r.fileMapEnd) ∈
        (bounds r.dpagingBegin r.dpagingEnd (r.fileMaps ++
          [⟨fd, pageDown (r.fileMapEnd - fileSize), r.fileMapEnd⟩])).tail := by
      simp [bounds]
    exact not_apart hin ⟨le_max_right _ _, hin.2.trans_le hbelow⟩
      ((List.pairwise_cons.mp hapart).1 _ hnew)

/-- In every run whose requests fit, the regions are a layout in every state
reached; and a request fits there exactly when the layout it asks for exists. -/
theorem layout_of_run {vaddrEnd : ℕ} {files : List (Option ℕ)} {ops : List Op} {r : Regions}
    (hrun : Transition.Run (Transition.Guarded Fits Step) (executeFile vaddrEnd files) ops r) :
    Layout (bounds r.dpagingBegin r.dpagingEnd r.fileMaps) ∧
      ∀ op, Fits r op ↔ CanKeep r op := by
  have hr : Invariant r := hrun.invariant Invariant.step (.executeFile vaddrEnd files)
  refine ⟨hr.layout, ?_⟩
  intro op
  cases op with
  | executeFile vaddrEnd files => exact Iff.rfl
  | setFiles files => exact Iff.rfl
  | demandPages numPages => exact hr.demandPages_fits_iff numPages
  | mapFile arg1 => exact hr.mapFile_fits_iff arg1

/-- An image that ends at `0xffff800000001234`, with a file of 5000 bytes on
descriptor 3: eight pages of demand paging, then the file. -/
theorem layout_of_run_one_mapping :
    ∃ r, Transition.Run (Transition.Guarded Fits Step)
        (executeFile 0xffff800000001234 [none, none, none, some 5000])
        [.demandPages 8, .mapFile 3] r ∧
      r.dpagingEnd = 0xffff80000000a000 ∧ r.fileMapEnd = 0xffffffffffefd000 ∧
      Layout (bounds r.dpagingBegin r.dpagingEnd r.fileMaps) := by
  have hrun : Transition.Run (Transition.Guarded Fits Step)
      (executeFile 0xffff800000001234 [none, none, none, some 5000])
      [.demandPages 8, .mapFile 3] _ :=
    .snoc (.snoc (.nil _) ⟨.inr (by decide), rfl⟩)
      ⟨(by
        intro fd fileSize hopen
        obtain ⟨rfl, rfl⟩ : 3 = fd ∧ 5000 = fileSize := Prod.mk.inj (Option.some.inj hopen)
        exact ⟨by decide, .inr (.inr (by decide))⟩), rfl⟩
  exact ⟨_, hrun, by decide, by decide, (layout_of_run hrun).1⟩

/-- `DemandPages` of `2 ^ 35` pages is granted and its range wraps around. -/
theorem not_layout_demandPages :
    ∃ r, Transition.Run Step (executeFile 0xffff800000001234 []) [.demandPages (2 ^ 35)] r ∧
      r.dpagingBegin = 0xffff800000002000 ∧ r.dpagingEnd = 0x2000 ∧
      ¬ Layout (bounds r.dpagingBegin r.dpagingEnd r.fileMaps) := by
  refine ⟨_, .single rfl, by decide, by decide, ?_⟩
  rintro ⟨hwrap, _⟩
  have hle := (hwrap _ List.mem_cons_self).1
  exact absurd hle (by decide)

end App
end MinOS
