import MinOS.App.Regions

/-!
# The heap of an application

`sbrk` of the applications' runtime.  Its two static variables and the
demand-paging range of the task only meet in the result of `DemandPages`, which
the application may also call directly.
-/

namespace MinOS
namespace App

/-- The static variables of `sbrk`. -/
structure Brk where
  dpageEnd : ℕ
  programBreak : ℕ
deriving DecidableEq, Repr

/-- What is there does not hold another `incr` bytes, as `sbrk` computes it. -/
def Brk.Exhausted (b : Brk) (incr : ℕ) : Prop :=
  b.dpageEnd = 0 ∨ b.dpageEnd < uint64Add b.programBreak incr

instance (b : Brk) (incr : ℕ) : Decidable (b.Exhausted incr) :=
  inferInstanceAs (Decidable (_ ∨ _))

/-- `sbrk` for an increment that is not negative; no result is the error `ENOMEM`. -/
def sbrk (b : Brk) (r : Regions) (incr : ℕ) : Option ℕ × Brk × Regions :=
  let numPages := (incr + 4095) / 4096
  let grown : Except Errno Brk × Regions :=
    if b.Exhausted incr then
      match demandPages r numPages with
      | (.error e, r) => (.error e, r)
      | (.ok value, r) =>
          (.ok { programBreak := value, dpageEnd := uint64Add value (4096 * numPages) }, r)
    else (.ok b, r)
  match grown with
  | (.error _, r) => (none, b, r)
  | (.ok b, r) =>
      (some b.programBreak, { b with programBreak := uint64Add b.programBreak incr }, r)

/-- The runtime, the task's regions, and the blocks that were returned, the last
one first. -/
structure HeapState where
  brk : Brk
  regions : Regions
  blocks : List (ℕ × ℕ)

inductive HeapOp where
  | sbrk (incr : ℕ)
  | demandPages (numPages : ℕ)

namespace HeapState

def apply (s : HeapState) : HeapOp → HeapState
  | .sbrk incr =>
      match App.sbrk s.brk s.regions incr with
      | (none, brk, regions) => { s with brk := brk, regions := regions }
      | (some ret, brk, regions) => ⟨brk, regions, (ret, ret + incr) :: s.blocks⟩
  | .demandPages numPages => { s with regions := (App.demandPages s.regions numPages).2 }

def Step (s : HeapState) (op : HeapOp) (s' : HeapState) : Prop := s' = s.apply op

/-- An application that was just started. -/
def start (vaddrEnd : ℕ) : HeapState := ⟨⟨0, 0⟩, executeFile vaddrEnd [], []⟩

/-- An increment whose computations in `int` do not overflow, and a request
after which `DPagingEnd` has not wrapped around. -/
def NoWrap (s : HeapState) : HeapOp → Prop
  | .sbrk incr => incr ≤ 2 ^ 31 - 4096 ∧ (s.brk.Exhausted incr →
      s.regions.dpagingEnd + 4096 * ((incr + 4095) / 4096) < 2 ^ 64)
  | .demandPages numPages => s.regions.dpagingEnd + 4096 * numPages < 2 ^ 64

/-- The break does not wrap around either. -/
def BreakFits (s : HeapState) : HeapOp → Prop
  | .sbrk incr => s.brk.programBreak + incr < 2 ^ 64
  | .demandPages _ => True

instance (s : HeapState) : (op : HeapOp) → Decidable (NoWrap s op)
  | .sbrk _ => inferInstanceAs (Decidable (_ ∧ (_ → _)))
  | .demandPages _ => inferInstanceAs (Decidable (_ < _))

instance (s : HeapState) : (op : HeapOp) → Decidable (BreakFits s op)
  | .sbrk _ => inferInstanceAs (Decidable (_ < _))
  | .demandPages _ => .isTrue trivial

/-- The block that the next `sbrk` returns lies in the demand-paging range and
meets no block returned before. -/
def Sound (s : HeapState) (incr : ℕ) : Prop :=
  ∃ ret brk regions, App.sbrk s.brk s.regions incr = (some ret, brk, regions) ∧
    regions.dpagingBegin ≤ ret ∧ ret + incr ≤ regions.dpagingEnd ∧
    ∀ b ∈ s.blocks, Apart b (ret, ret + incr)

/-- The blocks lie below the break, the break in the pages that the runtime
knows of, and these in the range of the task. -/
structure Invariant (s : HeapState) : Prop where
  begin_le : s.regions.dpagingBegin ≤ s.regions.dpagingEnd
  end_lt : s.regions.dpagingEnd < 2 ^ 64
  le_dpageEnd : s.brk.programBreak ≤ s.brk.dpageEnd
  le_dpagingEnd : s.brk.dpageEnd ≤ s.regions.dpagingEnd
  ge_begin : s.brk.dpageEnd ≠ 0 → s.regions.dpagingBegin ≤ s.brk.programBreak
  below : ∀ b ∈ s.blocks, s.regions.dpagingBegin ≤ b.1 ∧ b.1 ≤ b.2 ∧ b.2 ≤ s.brk.programBreak
  apart : s.blocks.Pairwise fun a b ↦ Apart b a

theorem Invariant.start (vaddrEnd : ℕ) : Invariant (start vaddrEnd) where
  begin_le := le_rfl
  end_lt := (App.Invariant.executeFile vaddrEnd []).end_lt
  le_dpageEnd := le_rfl
  le_dpagingEnd := Nat.zero_le _
  ge_begin := fun h ↦ absurd rfl h
  below := by simp [HeapState.start]
  apart := .nil

theorem demandPages_eq {r : Regions} {numPages : ℕ}
    (h : r.dpagingEnd + 4096 * numPages < 2 ^ 64) :
    App.demandPages r numPages =
      (.ok r.dpagingEnd, { r with dpagingEnd := r.dpagingEnd + 4096 * numPages }) := by
  have hpages : 4096 * numPages % 2 ^ 64 = 4096 * numPages := Nat.mod_eq_of_lt (by omega)
  simp only [App.demandPages, uint64Add, hpages, Nat.mod_eq_of_lt h]

variable {s : HeapState} {incr : ℕ}

/-- Where `sbrk` finds the block: in fresh pages behind everything, or at the break. -/
theorem sbrk_cases (hwrap : NoWrap s (.sbrk incr)) :
    (s.brk.Exhausted incr ∧ App.sbrk s.brk s.regions incr =
        (some s.regions.dpagingEnd,
          ⟨s.regions.dpagingEnd + 4096 * ((incr + 4095) / 4096), s.regions.dpagingEnd + incr⟩,
          { s.regions with
            dpagingEnd := s.regions.dpagingEnd + 4096 * ((incr + 4095) / 4096) })) ∨
      (¬ s.brk.Exhausted incr ∧ App.sbrk s.brk s.regions incr =
        (some s.brk.programBreak,
          ⟨s.brk.dpageEnd, uint64Add s.brk.programBreak incr⟩, s.regions)) := by
  by_cases hexhausted : s.brk.Exhausted incr
  · have hend := hwrap.2 hexhausted
    have hbreak : (s.regions.dpagingEnd + incr) % 2 ^ 64 = s.regions.dpagingEnd + incr :=
      Nat.mod_eq_of_lt (by omega)
    refine .inl ⟨hexhausted, ?_⟩
    simp only [App.sbrk, if_pos hexhausted, demandPages_eq hend, uint64Add,
      Nat.mod_eq_of_lt hend, hbreak]
  · refine .inr ⟨hexhausted, ?_⟩
    simp only [App.sbrk, if_neg hexhausted]

namespace Invariant

/-- A break that wraps around passes for one that fits. -/
theorem not_exhausted_of_wrap (hs : Invariant s) (hwrap : NoWrap s (.sbrk incr))
    (hover : 2 ^ 64 ≤ s.brk.programBreak + incr) : ¬ s.brk.Exhausted incr := by
  have hincr := hwrap.1
  have hbreak := hs.le_dpageEnd
  have hend := hs.le_dpagingEnd
  have hlt := hs.end_lt
  simp only [Brk.Exhausted, uint64Add]
  omega

theorem sound_iff (hs : Invariant s) (hwrap : NoWrap s (.sbrk incr)) :
    Sound s incr ↔ BreakFits s (.sbrk incr) := by
  have hlt := hs.end_lt
  have hbreak := hs.le_dpageEnd
  have hend := hs.le_dpagingEnd
  constructor
  · rintro ⟨ret, brk, regions, heq, -, hinside, -⟩
    by_contra hover
    have hover : 2 ^ 64 ≤ s.brk.programBreak + incr := not_lt.mp hover
    rcases sbrk_cases hwrap with ⟨hexhausted, -⟩ | ⟨-, hsbrk⟩
    · exact hs.not_exhausted_of_wrap hwrap hover hexhausted
    · obtain ⟨hret, -, rfl⟩ := by simpa using heq.symm.trans hsbrk
      omega
  · intro hfits
    have hfits : s.brk.programBreak + incr < 2 ^ 64 := hfits
    rcases sbrk_cases hwrap with ⟨-, hsbrk⟩ | ⟨hexhausted, hsbrk⟩
    · refine ⟨_, _, _, hsbrk, hs.begin_le, by dsimp only; omega, ?_⟩
      intro b hb
      exact apart_of_le ((hs.below b hb).2.2.trans (hbreak.trans hend))
    · simp only [Brk.Exhausted, uint64Add, Nat.mod_eq_of_lt hfits, not_or, not_lt] at hexhausted
      refine ⟨_, _, _, hsbrk, hs.ge_begin hexhausted.1, hexhausted.2.trans hend, ?_⟩
      intro b hb
      exact apart_of_le (hs.below b hb).2.2

theorem sbrk (hs : Invariant s) (hwrap : NoWrap s (.sbrk incr))
    (hfits : BreakFits s (.sbrk incr)) : Invariant (s.apply (.sbrk incr)) := by
  have hfits : s.brk.programBreak + incr < 2 ^ 64 := hfits
  have hle := hs.begin_le
  have hlt := hs.end_lt
  have hbreak := hs.le_dpageEnd
  have hend := hs.le_dpagingEnd
  obtain ⟨ret, brk, regions, hsbrk, hlow, hhigh, hapart⟩ := (hs.sound_iff hwrap).mpr hfits
  have happly : s.apply (.sbrk incr) = ⟨brk, regions, (ret, ret + incr) :: s.blocks⟩ := by
    simp only [apply, hsbrk]
  have hpairs := List.pairwise_cons.mpr ⟨hapart, hs.apart⟩
  rw [happly]
  rcases sbrk_cases hwrap with ⟨hexhausted, heq⟩ | ⟨hexhausted, heq⟩ <;>
    obtain ⟨rfl, rfl, rfl⟩ := by simpa using hsbrk.symm.trans heq
  · have hroom := hwrap.2 hexhausted
    refine ⟨by dsimp only; omega, hroom, by dsimp only; omega, le_rfl,
      fun _ ↦ by dsimp only; omega, ?_, hpairs⟩
    intro b hb
    rcases List.mem_cons.mp hb with rfl | hb
    · exact ⟨hle, Nat.le_add_right _ _, le_rfl⟩
    · obtain ⟨hb1, hb2, hb3⟩ := hs.below b hb
      exact ⟨hb1, hb2, by dsimp only; omega⟩
  · simp only [Brk.Exhausted, uint64Add, Nat.mod_eq_of_lt hfits, not_or, not_lt] at hexhausted
    simp only [uint64Add, Nat.mod_eq_of_lt hfits]
    refine ⟨hle, hlt, hexhausted.2, hend, fun h ↦ (hs.ge_begin h).trans (Nat.le_add_right _ _),
      ?_, hpairs⟩
    intro b hb
    rcases List.mem_cons.mp hb with rfl | hb
    · exact ⟨hlow, Nat.le_add_right _ _, le_rfl⟩
    · obtain ⟨hb1, hb2, hb3⟩ := hs.below b hb
      exact ⟨hb1, hb2, hb3.trans (Nat.le_add_right _ _)⟩

theorem demandPages (hs : Invariant s) {numPages : ℕ} (hwrap : NoWrap s (.demandPages numPages)) :
    Invariant (s.apply (.demandPages numPages)) := by
  have happly : s.apply (.demandPages numPages) =
      { s with regions := { s.regions with
          dpagingEnd := s.regions.dpagingEnd + 4096 * numPages } } := by
    simp only [apply, demandPages_eq hwrap]
  rw [happly]
  exact ⟨hs.begin_le.trans (Nat.le_add_right _ _), hwrap, hs.le_dpageEnd,
    hs.le_dpagingEnd.trans (Nat.le_add_right _ _), hs.ge_begin, hs.below, hs.apart⟩

theorem step (s : HeapState) (op : HeapOp) (s' : HeapState) (hs : Invariant s)
    (hstep : Transition.Guarded (fun s op ↦ NoWrap s op ∧ BreakFits s op) Step s op s') :
    Invariant s' := by
  obtain ⟨⟨hwrap, hfits⟩, rfl⟩ := hstep
  cases op with
  | sbrk incr => exact hs.sbrk hwrap hfits
  | demandPages numPages => exact hs.demandPages hwrap

end Invariant

/-- In every run in which `DPagingEnd` and the break do not wrap around, the
blocks lie in the demand-paging range and are disjoint; and the block that comes
next does so too exactly when the break does not wrap around. -/
theorem heap_of_run {vaddrEnd : ℕ} {ops : List HeapOp} {s : HeapState}
    (hrun : Transition.Run
      (Transition.Guarded (fun s op ↦ NoWrap s op ∧ BreakFits s op) Step) (start vaddrEnd) ops s) :
    (∀ b ∈ s.blocks, s.regions.dpagingBegin ≤ b.1 ∧ b.1 ≤ b.2 ∧ b.2 ≤ s.regions.dpagingEnd) ∧
      s.blocks.Pairwise Apart ∧
      ∀ incr, NoWrap s (.sbrk incr) → (Sound s incr ↔ BreakFits s (.sbrk incr)) := by
  have hs : Invariant s := hrun.invariant Invariant.step (.start vaddrEnd)
  refine ⟨?_, hs.apart.imp Apart.symm, fun incr hwrap ↦ hs.sound_iff hwrap⟩
  intro b hb
  obtain ⟨hlow, hle, hhigh⟩ := hs.below b hb
  exact ⟨hlow, hle, hhigh.trans (hs.le_dpageEnd.trans hs.le_dpagingEnd)⟩

/-- One byte, two pages asked for directly, and a block that no longer fits. -/
theorem heap_of_run_two_blocks :
    ∃ s, Transition.Run
        (Transition.Guarded (fun s op ↦ NoWrap s op ∧ BreakFits s op) Step)
        (start 0xffff800000001234) [.sbrk 1, .demandPages 2, .sbrk 4096] s ∧
      s.blocks = [(0xffff800000005000, 0xffff800000006000),
        (0xffff800000002000, 0xffff800000002001)] ∧
      s.blocks.Pairwise Apart ∧ Sound s 0 := by
  have hrun : Transition.Run
      (Transition.Guarded (fun s op ↦ NoWrap s op ∧ BreakFits s op) Step)
      (start 0xffff800000001234) [.sbrk 1, .demandPages 2, .sbrk 4096] _ :=
    .snoc (.snoc (.snoc (.nil _) ⟨by decide, rfl⟩) ⟨by decide, rfl⟩) ⟨by decide, rfl⟩
  obtain ⟨-, hapart, hsound⟩ := heap_of_run hrun
  exact ⟨_, hrun, by decide, hapart, (hsound 0 (by decide)).mpr (by decide)⟩

/-- With the break in the last page but one below `2 ^ 64`, the sum wraps around
and a block of almost `2 ^ 31` bytes is taken to fit. -/
theorem not_sound_wrap :
    ∃ s, Transition.Run (Transition.Guarded NoWrap Step) (start 0xffff800000001000)
        [.demandPages 0x7fffffffd, .sbrk 1] s ∧
      NoWrap s (.sbrk (2 ^ 31 - 4096)) ∧
      App.sbrk s.brk s.regions (2 ^ 31 - 4096) =
        (some 0xffffffffffffe001, ⟨0xfffffffffffff000, 0x7fffd001⟩, s.regions) ∧
      s.regions.dpagingEnd = 0xfffffffffffff000 ∧ ¬ Sound s (2 ^ 31 - 4096) := by
  have hrun : Transition.Run (Transition.Guarded NoWrap Step) (start 0xffff800000001000)
      [.demandPages 0x7fffffffd, .sbrk 1] _ :=
    .snoc (.snoc (.nil _) ⟨by decide, rfl⟩) ⟨by decide, rfl⟩
  have hsbrk : App.sbrk ⟨0xfffffffffffff000, 0xffffffffffffe001⟩
      ⟨0xffff800000001000, 0xfffffffffffff000, stackFrameAddr, [], []⟩ (2 ^ 31 - 4096) =
        (some 0xffffffffffffe001, ⟨0xfffffffffffff000, 0x7fffd001⟩,
          ⟨0xffff800000001000, 0xfffffffffffff000, stackFrameAddr, [], []⟩) := rfl
  refine ⟨_, hrun, by decide, hsbrk, rfl, ?_⟩
  rintro ⟨ret, brk, regions, heq, -, hinside, -⟩
  obtain ⟨rfl, -, rfl⟩ := by simpa using heq.symm.trans hsbrk
  exact absurd hinside (by decide)

end HeapState
end App
end MinOS
