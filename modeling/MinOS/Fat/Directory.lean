import MinOS.Fat.Chain
import MinOS.Fat.Path

/-!
# The entries of a directory

A directory is the list of the entries in the clusters of its chain.  `FindFile`
searches this list up to the end mark, and `AllocateEntry` takes its first entry
that is free.
-/

namespace MinOS
namespace Fat

open ByteMemory

namespace Volume

/-- The addresses of the entries in one cluster. -/
def clusterSlots (v : Volume) (c : ℕ) : List ℕ :=
  (List.range v.entriesPerCluster).map fun i ↦ v.getClusterAddr c + 32 * i

/-- The addresses of the entries of a directory. -/
def slots (v : Volume) (chain : List ℕ) : List ℕ := chain.flatMap v.clusterSlots

/-- The search of `FindFile` in a list of entries. -/
def search (v : Volume) (name : List UInt8) : List ℕ → Search
  | [] => .exhausted
  | entry :: entries =>
      if v.mem entry = 0 then .endMark
      else if v.nameIsEqual entry name then .found entry
      else v.search name entries

end Volume

/-- The entry that a search has found. -/
def Volume.Search.entry : Volume.Search → Option ℕ
  | .found entry => some entry
  | .endMark => none
  | .exhausted => none

/-- What the search of the second part of a list makes of the first part's end. -/
def Volume.Search.andThen (s rest : Volume.Search) : Volume.Search :=
  match s with
  | .exhausted => rest
  | s => s

namespace Volume

variable {v : Volume} {bound : ℕ}

theorem search_append (name : List UInt8) (l l' : List ℕ) :
    v.search name (l ++ l') = (v.search name l).andThen (v.search name l') := by
  induction l with
  | nil => rfl
  | cons entry l ih =>
      simp only [List.cons_append, search]
      split_ifs
      · rfl
      · rfl
      · exact ih

theorem entries_succ (n entry : ℕ) :
    (List.range (n + 1)).map (fun i ↦ entry + 32 * i) =
      entry :: (List.range n).map fun i ↦ entry + 32 + 32 * i := by
  rw [List.range_succ_eq_map, List.map_cons, List.map_map]
  refine congrArg₂ _ (by simp) (List.map_congr_left fun i _ ↦ ?_)
  simp only [Function.comp_apply]
  omega

theorem searchCluster_eq (name : List UInt8) (n entry : ℕ) :
    v.searchCluster name n entry =
      v.search name ((List.range n).map fun i ↦ entry + 32 * i) := by
  induction n generalizing entry with
  | zero => rfl
  | succ n ih =>
      rw [entries_succ, searchCluster, search, ih]

theorem freeEntry_eq (n entry : ℕ) :
    v.freeEntry n entry =
      ((List.range n).map fun i ↦ entry + 32 * i).find? fun a ↦
        decide (v.mem a = 0 ∨ v.mem a = deleted) := by
  induction n generalizing entry with
  | zero => rfl
  | succ n ih =>
      rw [entries_succ, freeEntry, ih, List.find?_cons]
      split_ifs with h <;> simp [h]

end Volume

/-! ## The loops over a chain -/

section Loops

variable {v : Volume} {bound : ℕ}

theorem FileChain.tail {c d : ℕ} {chain : List ℕ} (h : FileChain v bound (c :: d :: chain)) :
    FileChain v bound (d :: chain) :=
  ⟨h.linked.2.2, fun e he ↦ h.inRange e (List.mem_cons_of_mem c he)⟩

theorem FileChain.nextCluster_cons {c d : ℕ} {chain : List ℕ}
    (h : FileChain v bound (c :: d :: chain)) : v.nextCluster c = d :=
  h.nextCluster_getElem (i := 0) (by simp)

theorem FileChain.nextCluster_single {c : ℕ} (h : FileChain v bound [c]) :
    v.nextCluster c = kEndOfClusterchain :=
  h.nextCluster_last (i := 0) rfl

theorem FileChain.head_ne_end (hg : Geometry v.bpb bound) {c : ℕ} {chain : List ℕ}
    (h : FileChain v bound (c :: chain)) : c ≠ kEndOfClusterchain :=
  h.getElem_ne_end hg (i := 0) (by simp)

/-- `FindFile` in one directory is the search of its entries. -/
theorem searchDirectory_eq (hg : Geometry v.bpb bound) (name : List UInt8) (chain : List ℕ) :
    ∀ (c fuel : ℕ), FileChain v bound (c :: chain) → chain.length + 2 ≤ fuel →
      v.searchDirectory name fuel c = some (v.search name (v.slots (c :: chain))).entry := by
  induction chain with
  | nil =>
      intro c fuel h hfuel
      obtain ⟨fuel, rfl⟩ : ∃ k, fuel = k + 1 := ⟨fuel - 1, by omega⟩
      have hslots : v.slots [c] = v.clusterSlots c := by simp [Volume.slots]
      rw [hslots, Volume.searchDirectory, if_neg (h.head_ne_end hg), Volume.searchCluster_eq,
        h.nextCluster_single, ← Volume.clusterSlots]
      cases v.search name (v.clusterSlots c) with
      | found entry => rfl
      | endMark => rfl
      | exhausted =>
          obtain ⟨fuel, rfl⟩ : ∃ k, fuel = k + 1 := ⟨fuel - 1, by simp at hfuel; omega⟩
          simp [Volume.searchDirectory, Volume.Search.entry]
  | cons d chain ih =>
      intro c fuel h hfuel
      obtain ⟨fuel, rfl⟩ : ∃ k, fuel = k + 1 := ⟨fuel - 1, by omega⟩
      have hslots : v.slots (c :: d :: chain) = v.clusterSlots c ++ v.slots (d :: chain) := by
        simp [Volume.slots]
      have hrest := ih d fuel h.tail (by rw [List.length_cons] at hfuel; omega)
      rw [hslots, Volume.search_append, Volume.searchDirectory,
        if_neg (h.head_ne_end hg), Volume.searchCluster_eq, h.nextCluster_cons,
        ← Volume.clusterSlots]
      cases v.search name (v.clusterSlots c) with
      | found entry => rfl
      | endMark => rfl
      | exhausted => exact hrest

/-- `AllocateEntry` takes the first free entry of the directory, or comes to its
last cluster. -/
theorem searchFreeEntry_eq (hg : Geometry v.bpb bound) (chain : List ℕ) :
    ∀ (c fuel : ℕ) (h : FileChain v bound (c :: chain)), chain.length + 1 ≤ fuel →
      v.searchFreeEntry fuel c =
        match (v.slots (c :: chain)).find? fun a ↦ decide (v.mem a = 0 ∨ v.mem a = deleted) with
        | some entry => some (.inl entry)
        | none => some (.inr ((c :: chain).getLast h.ne_nil)) := by
  induction chain with
  | nil =>
      intro c fuel h hfuel
      obtain ⟨fuel, rfl⟩ : ∃ k, fuel = k + 1 := ⟨fuel - 1, by omega⟩
      have hslots : v.slots [c] = v.clusterSlots c := by simp [Volume.slots]
      rw [hslots, Volume.searchFreeEntry, Volume.freeEntry_eq, h.nextCluster_single, if_pos rfl,
        ← Volume.clusterSlots]
      rfl
  | cons d chain ih =>
      intro c fuel h hfuel
      obtain ⟨fuel, rfl⟩ : ∃ k, fuel = k + 1 := ⟨fuel - 1, by omega⟩
      have hslots : v.slots (c :: d :: chain) = v.clusterSlots c ++ v.slots (d :: chain) := by
        simp [Volume.slots]
      have hrest := ih d fuel h.tail (by rw [List.length_cons] at hfuel; omega)
      rw [hslots, List.find?_append, Volume.searchFreeEntry, Volume.freeEntry_eq,
        h.nextCluster_cons, if_neg (h.tail.head_ne_end hg), ← Volume.clusterSlots]
      cases (v.clusterSlots c).find? fun a ↦ decide (v.mem a = 0 ∨ v.mem a = deleted) with
      | some entry => rfl
      | none => exact hrest

end Loops
end Fat
end MinOS
