import MinOS.Paging.SharePages

/-!
# Cleaning page maps

`CleanPageMap` of `paging.cpp` goes through the entries from an address on and frees the frames
behind those that are writable.
-/

namespace MinOS
namespace Paging

open PageMapEntry Machine Ownership

namespace Machine

/-- The memory that `CleanPageMap` leaves, and the frames that it has freed, in order. -/
structure Cleaned where
  machine : Machine
  freed : List ℕ

/-- `Free` of one frame always succeeds. -/
def freeFrame (m : Machine) (frame : ℕ) : Machine :=
  { m with memoryManager := m.memoryManager.free frame 1 }

/-- The loop of `CleanPageMap`; `child` is the recursive call for the level below. -/
def cleanLoop (child : Machine → ℕ → Cleaned) (table level : ℕ) : ℕ → ℕ → Machine → Cleaned
  | 0, _, m => ⟨m, []⟩
  | turns + 1, i, m =>
      let entry : PageMapEntry := m.mem table i
      if entry.present = false then cleanLoop child table level turns (i + 1) m
      else
        let sub := if 1 < level then child m entry.pointer else ⟨m, []⟩
        let m := if entry.writable then sub.machine.freeFrame entry.pointer else sub.machine
        let freed := if entry.writable then [entry.pointer] else []
        let rest := cleanLoop child table level turns (i + 1) (m.setEntry table i 0#64)
        ⟨rest.machine, sub.freed ++ freed ++ rest.freed⟩

def cleanPageMap (addr : LinearAddress4Level) : ℕ → Machine → ℕ → Cleaned
  | 0, m, _ => ⟨m, []⟩
  | level + 1, m, table =>
      cleanLoop (cleanPageMap addr level) table (level + 1) (512 - addr.part (level + 1))
        (addr.part (level + 1)) m

def cleanPageMaps (m : Machine) (addr : LinearAddress4Level) : Cleaned :=
  cleanPageMap addr 4 m m.cr3

end Machine

/-! ## Freed frames -/

/-- The frames have been freed one after the other, each of them allocated until then. -/
structure Frees (m m' : Machine) (freed : List ℕ) : Prop where
  nodup : freed.Nodup
  allocated : ∀ f ∈ freed, m.memoryManager.getBit f = true
  getBit : ∀ f, m'.memoryManager.getBit f = true ↔ m.memoryManager.getBit f = true ∧ f ∉ freed

namespace Frees

variable {m m' m'' : Machine} {freed freed' : List ℕ}

theorem refl (m : Machine) : Frees m m [] := ⟨List.nodup_nil, by simp, by simp⟩

theorem trans (h : Frees m m' freed) (h' : Frees m' m'' freed') :
    Frees m m'' (freed ++ freed') where
  nodup := List.nodup_append.mpr ⟨h.nodup, h'.nodup, by
    rintro f hf g hg rfl
    exact ((h.getBit f).mp (h'.allocated f hg)).2 hf⟩
  allocated := by
    intro f hf
    rcases List.mem_append.mp hf with hf | hf
    · exact h.allocated f hf
    · exact ((h.getBit f).mp (h'.allocated f hf)).1
  getBit := by
    intro f
    rw [h'.getBit, h.getBit, List.mem_append, not_or, and_assoc]

theorem freeFrame (m : Machine) {frame : ℕ} (hbit : m.memoryManager.getBit frame = true) :
    Frees m (m.freeFrame frame) [frame] where
  nodup := List.nodup_singleton frame
  allocated := by
    intro f hf
    rwa [List.mem_singleton.mp hf]
  getBit := by
    intro f
    rw [Machine.freeFrame, Accounted.getBit_free_iff, List.mem_singleton]
    exact and_comm

theorem setEntry (h : Frees m m' freed) (table i : ℕ) (e : PageMapEntry) :
    Frees m (m'.setEntry table i e) freed :=
  ⟨h.nodup, h.allocated, h.getBit⟩

end Frees

/-! ## Emptied tables -/

section Empty

variable {ι : Type*} {σ : Policy ι (ℕ × ℕ)} {m m' m'' : Machine} {root : ι → Option ℕ}
  {base : ℕ → Prop} {i : ι} {d q Q k table frame : ℕ} {w : Bool} {D D' : Set (ℕ × ℕ)}
  {freed freed' : List ℕ}

/-- The entries in `D` of one space have been cleared, and the frames that were its own freed. -/
structure Emptied (σ : Policy ι (ℕ × ℕ)) (root : ι → Option ℕ) (base : ℕ → Prop) (i : ι)
    (D : Set (ℕ × ℕ)) (m m' : Machine) (freed : List ℕ) : Prop extends
    Updates σ root base i D m m' where
  empty : ∀ x ∈ D, (m'.spaces root).entry i x = none
  frees : Frees m m' freed

theorem Emptied.refl (h : Accounted σ m root base)
    (hD : ∀ x ∈ D, (m.spaces root).entry i x = none) : Emptied σ root base i D m m [] :=
  ⟨.refl h i D, hD, .refl m⟩

theorem Emptied.trans (h : Emptied σ root base i D m m' freed)
    (h' : Emptied σ root base i D' m' m'' freed') :
    Emptied σ root base i (D ∪ D') m m'' (freed ++ freed') where
  toUpdates := (h.toUpdates.mono Set.subset_union_left).trans
    (h'.toUpdates.mono Set.subset_union_right)
  empty := by
    intro x hx
    by_cases hin : x ∈ D'
    · exact h'.empty x hin
    · rw [h'.changes.same fun _ ↦ hin]
      exact h.empty x (hx.resolve_right hin)
  frees := h.frees.trans h'.frees

theorem none_of_mem_below (hnone : (m.spaces root).entry i (d, q) = none) {x : ℕ × ℕ}
    (hx : x ∈ below d q) : (m.spaces root).entry i x = none := by
  obtain ⟨d', q'⟩ := x
  obtain ⟨n, hd'⟩ := Nat.exists_eq_add_of_le hx.1
  subst hd'
  induction n generalizing q' with
  | zero =>
      obtain ⟨-, hq⟩ := hx
      simp only [Nat.add_zero, Nat.sub_self, pow_zero, Nat.div_one] at hq
      rwa [hq]
  | succ n ih =>
      refine spaces_below_none (ih (q' / 512) ⟨Nat.le_add_right d n, ?_⟩) rfl
      obtain ⟨-, hq⟩ := hx
      rw [Nat.div_div_eq_div_mul, ← Nat.pow_succ']
      have hdepth : d + (n + 1) - d = (d + n - d).succ := by omega
      rwa [← hdepth]

theorem mem_row_of_entry (h : Entry userHalf d q) : (d, q) ∈ row 0 0 256 := by
  have hlt : q / 512 ^ d < 512 := Nat.div_lt_of_lt_mul (by rw [← Nat.pow_succ]; exact h.lt)
  have htop : 256 ≤ q / 512 ^ d := h.top
  refine ⟨Nat.zero_le d, ?_, ?_⟩
  · rw [Nat.sub_zero]
    exact Nat.div_eq_of_lt hlt
  · rw [Nat.sub_zero]
    exact htop.trans_eq (Nat.mod_eq_of_lt hlt).symm

variable [DecidableEq ι]

/-- One entry, with nothing below it left. -/
theorem Accounted.cleanEntry (h : Accounted σ m root base) (hown : σ.own i = true)
    (halone : ∀ j, σ.template j ≠ i) (hplace : Place root i m d Q table k) (hk : k < 512)
    (hentry : (m.spaces root).entry i (d, 512 * Q + k) = some (frame, w))
    (hbelow : ∀ q', q' / 512 = 512 * Q + k → (m.spaces root).entry i (d + 1, q') = none) :
    Emptied σ root base i {(d, 512 * Q + k)} m
      ((if w then m.freeFrame frame else m).setEntry table k 0#64) (if w then [frame] else []) := by
  obtain ⟨r, hroot, htable⟩ := hplace.table
  have hindex : (512 * Q + k) % 512 = k := by omega
  have hmem : ∀ g l, ((if w then m.freeFrame frame else m).setEntry table k 0#64).mem g l =
      if g = table ∧ l = (512 * Q + k) % 512 then 0#64 else m.mem g l := by
    intro g l
    rw [mem_setEntry, hindex]
    cases w <;> rfl
  have hupdates : ∀ {m' : Machine}, (∀ g l, m'.mem g l =
      if g = table ∧ l = (512 * Q + k) % 512 then 0#64 else m.mem g l) → m'.cr3 = m.cr3 →
        Accounted σ m' root base ∧ m'.spaces root = (m.spaces root).set i (d, 512 * Q + k) none →
          Updates σ root base i {(d, 512 * Q + k)} m m' ∧
            ∀ x ∈ ({(d, 512 * Q + k)} : Set (ℕ × ℕ)), (m'.spaces root).entry i x = none := by
    rintro m' hmem' hcr3 ⟨haccounted, hspaces⟩
    refine ⟨⟨hcr3, haccounted, hspaces ▸ .set (Set.mem_singleton _) _, fun hout ↦ ?_⟩, ?_⟩
    · rw [hmem', if_neg (h.outside_ne_place hroot (hplace.entry k le_rfl hk) (htable k hk) hout)]
    · rintro x rfl
      rw [hspaces, Spaces.set_entry_self]
  cases w with
  | true =>
      have howns : Owns σ (m.spaces root) frame (.entry i (d, 512 * Q + k)) :=
        ⟨true, hentry, fun _ ↦ hown.symm⟩
      obtain ⟨hupdate, hempty⟩ := hupdates hmem (by rfl) (h.unlink hroot (hplace.entry k le_rfl hk)
        (htable k hk) hmem rfl hbelow
        (h.separated.unset_private howns halone (getBit_free_iff frame)))
      exact ⟨hupdate, hempty, (Frees.freeFrame m (h.separated.alloc_of_owns howns)).setEntry table k _⟩
  | false =>
      have hleaf : d = 3 := by
        by_contra hd
        cases h.inner hd hentry
      obtain ⟨hupdate, hempty⟩ := hupdates hmem (by rfl) (h.unlink hroot (hplace.entry k le_rfl hk)
        (htable k hk) hmem rfl hbelow
        (h.separated.unset_shared hentry ((h.leaf _).mpr hleaf) (by rw [hown]; decide)))
      exact ⟨hupdate, hempty, (Frees.refl m).setEntry table k _⟩

/-- What is asked of a cleaning of the entries from depth `d` on. -/
def CleansTables (σ : Policy ι (ℕ × ℕ)) (root : ι → Option ℕ) (base : ℕ → Prop) (i : ι) (d : ℕ)
    (clean : Machine → ℕ → Cleaned) : Prop :=
  ∀ {m : Machine} {Q table : ℕ}, Accounted σ m root base → Place root i m d Q table 0 →
    Emptied σ root base i (row d Q 0) m (clean m table).machine (clean m table).freed

theorem Accounted.cleanLoop (hown : σ.own i = true) (halone : ∀ j, σ.template j ≠ i) (hd : d ≤ 3)
    {clean : Machine → ℕ → Cleaned} (hclean : d < 3 → CleansTables σ root base i (d + 1) clean)
    (turns : ℕ) : ∀ {k : ℕ} {m : Machine}, Accounted σ m root base → k + turns = 512 →
      Place root i m d Q table k →
        Emptied σ root base i (row d Q k) m
          (Machine.cleanLoop clean table (4 - d) turns k m).machine
          (Machine.cleanLoop clean table (4 - d) turns k m).freed := by
  induction turns with
  | zero =>
      intro k m h hturns _
      refine .refl h fun x hx ↦ absurd hx.2.2 ?_
      have hlt := Nat.mod_lt (x.2 / 512 ^ (x.1 - d)) (show 512 > 0 by decide)
      omega
  | succ turns ih =>
      intro k m h hturns hplace
      have hk : k < 512 := by omega
      obtain ⟨r, hroot, htable⟩ := hplace.table
      have hindex : (512 * Q + k) % 512 = k := by omega
      have hcell : (m.spaces root).entry i (d, 512 * Q + k) = m.cell table k := by
        rw [Accounted.entry_eq_cell hroot (hplace.entry k le_rfl hk) (htable k hk), hindex]
      rw [row_eq hk, Machine.cleanLoop]
      dsimp only
      by_cases habsent : (m.mem table k).present = false
      · rw [if_pos habsent]
        have hnone : (m.spaces root).entry i (d, 512 * Q + k) = none := by
          rw [hcell, cell, child_of_absent habsent, Option.map_none]
        have hrest := ih h (by omega) hplace.next
        exact (Emptied.refl h fun x hx ↦ none_of_mem_below hnone hx).trans hrest
      · rw [if_neg habsent]
        have hpresent : (m.mem table k).present = true := by simpa using habsent
        generalize hsub : (if 1 < 4 - d then clean m (m.mem table k).pointer else ⟨m, []⟩) = sub
        have hbelow : Emptied σ root base i (row (d + 1) (512 * Q + k) 0) m sub.machine sub.freed := by
          rw [← hsub]
          split_ifs with hlevel
          · exact hclean (by omega) h (hplace.child (by omega) hk hpresent)
          · exact .refl h fun x hx ↦ spaces_entry_of_not fun hentry ↦ by
              have hdepth := hentry.depth
              have hx' := hx.1
              omega
        have hentry := (hbelow.changes.same fun _ ↦ notMem_row_parent d (512 * Q + k) 0 _).trans
          (hcell.trans (cell_eq rfl hpresent))
        have hplace₁ := hplace.of_changes hk (hbelow.changes.mono (row_subset_below d _))
        have hclear := hbelow.accounted.cleanEntry hown halone hplace₁ hk hentry fun q' hq' ↦
          hbelow.empty (d + 1, q') ⟨le_rfl, by simpa using hq', Nat.zero_le _⟩
        have hboth := hbelow.trans hclear
        rw [← below_eq] at hboth
        exact hboth.trans (ih hboth.accounted (by omega) (hplace.of_changes hk hboth.changes).next)

theorem cleansTables_cleanPageMap (hown : σ.own i = true) (halone : ∀ j, σ.template j ≠ i)
    {addr : LinearAddress4Level} (L : ℕ) (hL : L ≤ 3) (haddr : ∀ l ≤ L, addr.part (l + 1) = 0) :
    CleansTables σ root base i (3 - L) (Machine.cleanPageMap addr (L + 1)) := by
  induction L with
  | zero =>
      intro m Q table h hplace
      rw [Machine.cleanPageMap, haddr 0 le_rfl]
      exact Accounted.cleanLoop hown halone le_rfl (fun hd ↦ absurd hd (by decide)) 512 h rfl hplace
  | succ L ih =>
      intro m Q table h hplace
      have hlevel : L + 1 + 1 = 4 - (3 - (L + 1)) := by omega
      have hdepth : 3 - (L + 1) + 1 = 3 - L := by omega
      rw [Machine.cleanPageMap, haddr (L + 1) le_rfl, hlevel]
      exact Accounted.cleanLoop hown halone (Nat.sub_le 3 _)
        (fun _ ↦ hdepth ▸ ih (by omega) fun l hl ↦ haddr l (by omega)) 512 h rfl hplace

/-- `CleanPageMaps` for the user half. -/
theorem Accounted.cleanPageMaps (h : Accounted σ m root base) (hown : σ.own i = true)
    (halone : ∀ j, σ.template j ≠ i) (hroot : root i = some m.cr3) :
    Emptied σ root base i Set.univ m (m.cleanPageMaps (.ofValue 0xffff800000000000)).machine
      (m.cleanPageMaps (.ofValue 0xffff800000000000)).freed := by
  have hplace : Place root i m 0 0 m.cr3 256 := by
    refine ⟨fun l hlow hl ↦ ⟨by decide, by simpa using hl, ?_⟩, m.cr3, hroot, fun _ _ ↦ rfl⟩
    change 256 ≤ _
    simpa using hlow
  have hchild : CleansTables σ root base i 1
      (Machine.cleanPageMap (.ofValue 0xffff800000000000) 3) :=
    cleansTables_cleanPageMap hown halone 2 (by decide) (by decide)
  have hloop := Accounted.cleanLoop hown halone (Nat.zero_le 3) (fun _ ↦ hchild) 256 h rfl hplace
  refine ⟨hloop.toUpdates.mono (Set.subset_univ _), fun x _ ↦ ?_, hloop.frees⟩
  by_cases hx : x ∈ row 0 0 256
  · exact hloop.empty x hx
  · exact spaces_entry_of_not fun hentry ↦ hx (mem_row_of_entry hentry)

end Empty

end Paging
end MinOS
