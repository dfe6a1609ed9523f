import MinOS.Library.Walk
import MinOS.Fat.ShortName
import MinOS.Fat.RoundTrip

/-!
# Walks through directories

`FindFile` and `ListAllEntries` follow `NextCluster` until a value or an entry stops them,
and keep no record of the clusters that they have seen.
-/

namespace MinOS
namespace Fat

def kLongName : UInt8 := 0x0f

namespace Volume

/-- The inner loop of `ListAllEntries`, with `n` entries left from `entry` on: the lines that
it prints, and whether it has met the end mark. -/
def listCluster (v : Volume) : ℕ → ℕ → List (List UInt8) × Bool
  | 0, _ => ([], false)
  | n + 1, entry =>
      if v.mem entry = 0 then ([], true)
      else
        let rest := v.listCluster n (entry + 32)
        if v.mem entry = deleted then rest
        else if v.entryAttr entry = kLongName then rest
        else ((v.formatName entry ++ [10]) :: rest.1, rest.2)

/-- `ListAllEntries`, if it returns within `fuel` turns. -/
def listAllEntries (v : Volume) : ℕ → ℕ → Option (List (List UInt8))
  | 0, _ => none
  | fuel + 1, dirCluster =>
      if dirCluster = kEndOfClusterchain then some []
      else
        let r := v.listCluster v.entriesPerCluster (v.getClusterAddr dirCluster)
        if r.2 then some r.1 else (v.listAllEntries fuel (v.nextCluster dirCluster)).map (r.1 ++ ·)

/-- How `FindFile` stops at a cluster, if it does. -/
def searchStop (v : Volume) (name : List UInt8) (cluster : ℕ) : Option (Option ℕ) :=
  if cluster = kEndOfClusterchain then some none
  else
    match v.searchCluster name v.entriesPerCluster (v.getClusterAddr cluster) with
    | .found entry => some (some entry)
    | .endMark => some none
    | .exhausted => none

/-- Whether `ListAllEntries` stops at a cluster. -/
def listStop (v : Volume) (cluster : ℕ) : Option Unit :=
  if cluster = kEndOfClusterchain ∨
      (v.listCluster v.entriesPerCluster (v.getClusterAddr cluster)).2 then some ()
  else none

/-- A cluster at which no chain goes on: the end-of-chain value, or an end mark among its
entries. -/
def EndsAt (v : Volume) (cluster : ℕ) : Prop :=
  cluster = kEndOfClusterchain ∨
    ∃ i < v.entriesPerCluster, v.mem (v.getClusterAddr cluster + 32 * i) = 0

/-- From a cluster, `NextCluster` leads to one where the search for a name stops first, and
stops with this result. -/
def SearchEnds (v : Volume) (name : List UInt8) (cluster : ℕ) (found : Option ℕ) : Prop :=
  ∃ k ≤ 2 ^ 32, Walk.StopsAfter v.nextCluster (v.searchStop name) cluster k found

/-- Every walk that `FindFile` makes for a path comes to an end. -/
inductive FindFileEnds (v : Volume) : List UInt8 → ℕ → Prop where
  | missing {path : List UInt8} {d : ℕ}
      (h : v.SearchEnds (nextPathElement (v.startOf path d).1).1 (v.startOf path d).2 none) :
      FindFileEnds v path d
  | last {path : List UInt8} {d entry : ℕ}
      (h : v.SearchEnds (nextPathElement (v.startOf path d).1).1 (v.startOf path d).2 (some entry))
      (hlast : ∀ rest, (nextPathElement (v.startOf path d).1).2 = some rest → rest ≠ [] →
        v.entryAttr entry ≠ kDirectory) :
      FindFileEnds v path d
  | descend {path rest : List UInt8} {d entry : ℕ}
      (h : v.SearchEnds (nextPathElement (v.startOf path d).1).1 (v.startOf path d).2 (some entry))
      (hrest : (nextPathElement (v.startOf path d).1).2 = some rest) (hne : rest ≠ [])
      (hdir : v.entryAttr entry = kDirectory) (hends : FindFileEnds v rest (v.firstCluster entry)) :
      FindFileEnds v path d

/-! ## The loops as walks -/

variable {v : Volume} {fuel : ℕ}

theorem nextCluster_mem_range (v : Volume) (c : ℕ) : v.nextCluster c ∈ Finset.range (2 ^ 32) := by
  rw [Finset.mem_range, nextCluster]
  split_ifs
  · decide
  · exact v.fatEntry_lt c

theorem searchDirectory_eq_run (name : List UInt8) (fuel c : ℕ) :
    v.searchDirectory name fuel c = Walk.run v.nextCluster (v.searchStop name) fuel c := by
  induction fuel generalizing c with
  | zero => rfl
  | succ fuel ih =>
      rw [searchDirectory, Walk.run, searchStop]
      split_ifs with hend
      · rfl
      · cases v.searchCluster name v.entriesPerCluster (v.getClusterAddr c) with
        | found entry => rfl
        | endMark => rfl
        | exhausted => exact ih _

theorem isSome_listAllEntries (fuel c : ℕ) :
    (v.listAllEntries fuel c).isSome = (Walk.run v.nextCluster v.listStop fuel c).isSome := by
  induction fuel generalizing c with
  | zero => rfl
  | succ fuel ih =>
      rw [listAllEntries, Walk.run, listStop]
      by_cases hend : c = kEndOfClusterchain
      · rw [if_pos hend, if_pos (Or.inl hend)]
        rfl
      · rw [if_neg hend]
        by_cases hmark : (v.listCluster v.entriesPerCluster (v.getClusterAddr c)).2 = true
        · rw [if_pos (Or.inr hmark)]
          dsimp only
          rw [if_pos hmark]
          rfl
        · rw [if_neg (not_or.mpr ⟨hend, hmark⟩)]
          dsimp only
          rw [if_neg hmark, Option.isSome_map, ih]

theorem listCluster_snd_iff (n entry : ℕ) :
    (v.listCluster n entry).2 = true ↔ ∃ i < n, v.mem (entry + 32 * i) = 0 := by
  induction n generalizing entry with
  | zero => simp [listCluster]
  | succ n ih =>
      have hshift (i : ℕ) : entry + 32 + 32 * i = entry + 32 * (i + 1) := by omega
      rw [listCluster]
      by_cases hmark : v.mem entry = 0
      · rw [if_pos hmark]
        exact iff_of_true rfl ⟨0, Nat.succ_pos n, hmark⟩
      · rw [if_neg hmark]
        have hrest : (if v.mem entry = deleted then v.listCluster n (entry + 32)
            else if v.entryAttr entry = kLongName then v.listCluster n (entry + 32)
            else ((v.formatName entry ++ [10]) :: (v.listCluster n (entry + 32)).1,
              (v.listCluster n (entry + 32)).2)).2 = (v.listCluster n (entry + 32)).2 := by
          split_ifs <;> rfl
        dsimp only
        rw [hrest, ih]
        constructor
        · rintro ⟨i, hi, hzero⟩
          rw [hshift] at hzero
          exact ⟨i + 1, Nat.succ_lt_succ hi, hzero⟩
        · rintro ⟨i, hi, hzero⟩
          cases i with
          | zero => exact absurd hzero hmark
          | succ i =>
              rw [← hshift] at hzero
              exact ⟨i, Nat.lt_of_succ_lt_succ hi, hzero⟩

theorem isSome_listStop (c : ℕ) : (v.listStop c).isSome ↔ v.EndsAt c := by
  rw [EndsAt, ← listCluster_snd_iff, listStop]
  split_ifs with hstop
  · exact iff_of_true rfl hstop
  · exact iff_of_false Bool.false_ne_true hstop

/-- `ListAllEntries` returns exactly if `NextCluster` leads to a cluster where the chain ends. -/
theorem listAllEntries_ends_iff (c : ℕ) :
    (∃ fuel, (v.listAllEntries fuel c).isSome) ↔
      ∃ k ≤ 2 ^ 32, v.EndsAt (v.nextCluster^[k] c) := by
  have hwalk : (∃ fuel, (Walk.run v.nextCluster v.listStop fuel c).isSome) ↔
      ∃ k ≤ (Finset.range (2 ^ 32)).card, (v.listStop (v.nextCluster^[k] c)).isSome :=
    Walk.exists_run_iff v.nextCluster_mem_range
  rw [Finset.card_range] at hwalk
  simpa only [isSome_listAllEntries, isSome_listStop] using hwalk

theorem searchEnds_of_searchDirectory {name : List UInt8} {c : ℕ} {found : Option ℕ}
    (h : v.searchDirectory name fuel c = some found) : v.SearchEnds name c found := by
  rw [searchDirectory_eq_run] at h
  obtain ⟨k, -, hstops⟩ := Walk.exists_of_run h
  have hle := hstops.le_card v.nextCluster_mem_range
  rw [Finset.card_range] at hle
  exact ⟨k, hle, hstops⟩

theorem SearchEnds.searchDirectory {name : List UInt8} {c : ℕ} {found : Option ℕ}
    (h : v.SearchEnds name c found) (hfuel : 2 ^ 32 < fuel) :
    v.searchDirectory name fuel c = some found := by
  obtain ⟨k, hk, hstops⟩ := h
  rw [searchDirectory_eq_run]
  exact hstops.run (hk.trans_lt hfuel)

/-! ## Paths -/

/-- `FindFile` has gone through walks that end. -/
theorem findFileEnds_of_findFile (n : ℕ) :
    ∀ {path : List UInt8} {d : ℕ}, path.length < n → (v.findFile fuel path d).isSome →
      v.FindFileEnds path d := by
  induction n with
  | zero => exact fun h ↦ absurd h (Nat.not_lt_zero _)
  | succ n ih =>
      intro path d hn hfind
      rw [findFile_eq] at hfind
      cases hsearch : v.searchDirectory (nextPathElement (v.startOf path d).1).1 fuel
          (v.startOf path d).2 with
      | none =>
          rw [hsearch] at hfind
          cases hfind
      | some found =>
          have hends := searchEnds_of_searchDirectory hsearch
          cases found with
          | none => exact .missing hends
          | some entry =>
              by_cases hlast : ∀ rest, (nextPathElement (v.startOf path d).1).2 = some rest →
                  rest ≠ [] → v.entryAttr entry ≠ kDirectory
              · exact .last hends hlast
              · simp only [not_forall, not_not] at hlast
                obtain ⟨rest, hrest, hne, hdir⟩ := hlast
                have hlt := v.length_next_lt hrest
                rw [hsearch] at hfind
                dsimp only at hfind
                rw [hrest, v.continueWith_slash _ _ _ hne, if_pos hdir] at hfind
                exact .descend hends hrest hne hdir (ih (by omega) hfind)

theorem FindFileEnds.findFile {path : List UInt8} {d : ℕ} (h : v.FindFileEnds path d)
    (hfuel : 2 ^ 32 < fuel) : (v.findFile fuel path d).isSome := by
  induction h with
  | missing h =>
      rw [findFile_eq, h.searchDirectory hfuel]
      rfl
  | @last path d entry h hlast =>
      rw [findFile_eq, h.searchDirectory hfuel]
      dsimp only
      cases hnext : (nextPathElement (v.startOf path d).1).2 with
      | none => rfl
      | some rest =>
          by_cases hne : rest = []
          · rw [hne]
            rfl
          · rw [v.continueWith_slash _ _ _ hne, if_neg (hlast rest hnext hne)]
            rfl
  | @descend path rest d entry h hrest hne hdir _ ih =>
      rw [findFile_eq, h.searchDirectory hfuel]
      dsimp only
      rw [hrest, v.continueWith_slash _ _ _ hne, if_pos hdir]
      exact ih

end Volume

/-! ## A chain that leads back to itself -/

/-- The sample volume with a cluster 3 that is its own successor, and bytes `B` everywhere
else. -/
def loopVolume : Volume where
  bpb := sampleVolume.bpb
  mem := fun x ↦ if x = 16396 then 3 else if 16396 < x ∧ x < 16400 then 0 else 66

theorem loopVolume_iterate (k : ℕ) : loopVolume.nextCluster^[k] 3 = 3 :=
  Function.iterate_fixed (by decide +kernel) k

end Fat
end MinOS
