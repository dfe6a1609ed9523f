import MinOS.Fat.Agreement
import MinOS.Fat.Compose

/-!
# The buffer of a path element

What `NextPathElement` stores in `path_elem`, at every call of `FindFile`, and the
names that a directory cannot hold.
-/

namespace MinOS
namespace Fat

/-- The size of `path_elem`. -/
def kPathElemSize : ℕ := 13

/-- The indices that `NextPathElement` stores at: of the copied path and its zero,
or of the element and the zero behind it. -/
def nextPathElementStores (path : List UInt8) : List ℕ :=
  match (nextPathElement path).2 with
  | none => List.range (path.length + 1)
  | some _ =>
      List.range (nextPathElement path).1.length ++ [(nextPathElement path).1.length]

theorem nextPathElementStores_eq (path : List UInt8) :
    nextPathElementStores path = List.range ((nextPathElement path).1.length + 1) := by
  rw [nextPathElementStores]
  split
  · next hnext => rw [(nextPathElement_none hnext).1]
  · exact List.range_succ.symm

theorem stores_lt_iff (path : List UInt8) :
    (∀ i ∈ nextPathElementStores path, i < kPathElemSize) ↔
      (nextPathElement path).1.length ≤ 12 := by
  rw [nextPathElementStores_eq]
  constructor
  · intro h
    exact Nat.lt_succ_iff.mp (h _ (List.mem_range.mpr (Nat.lt_succ_self _)))
  · intro h i hi
    exact lt_of_lt_of_le (List.mem_range.mp hi) (Nat.succ_le_succ h)

/-- A name of one to eight bytes, and an extension of at most three. -/
def Is83 (name : List UInt8) : Prop :=
  match splitLast dot name with
  | none => name ≠ [] ∧ name.length ≤ 8
  | some (base, ext) => base ≠ [] ∧ dot ∉ base ∧ base.length ≤ 8 ∧ ext.length ≤ 3

instance (name : List UInt8) : Decidable (Is83 name) :=
  match h : splitLast dot name with
  | none => decidable_of_iff (name ≠ [] ∧ name.length ≤ 8) (by rw [Is83, h])
  | some (base, ext) =>
      decidable_of_iff (base ≠ [] ∧ dot ∉ base ∧ base.length ≤ 8 ∧ ext.length ≤ 3)
        (by rw [Is83, h])

/-! ## The lookups of a path -/

/-- The two ways to `FindFile`. -/
inductive Lookup where
  | findFile (path : List UInt8) (directoryCluster : ℕ)
  | createFile (path : List UInt8)

/-- The path of the directory that `CreateFile` looks up. -/
def parentLookup (path : List UInt8) : Option (List UInt8) :=
  if filename path = [] ∨ parentDirName path = [] then none else some (parentDirName path)

/-- What `FindFile` is called with. -/
def Lookup.call : Lookup → Option (List UInt8 × ℕ)
  | .findFile path directoryCluster => some (path, directoryCluster)
  | .createFile path => (parentLookup path).map fun dir ↦ (dir, 0)

/-- `CreateFile` calls `FindFile` for its parent lookup and nothing else. -/
theorem Volume.parentOf_eq_parentLookup (v : Volume) (fuel : ℕ) (path : List UInt8) :
    v.parentOf fuel path =
      match parentLookup path with
      | none =>
          some (if filename path = [] ∧ path ≠ [] then .error .kIsDirectory
            else .ok (v.rootCluster, filename path))
      | some dir =>
          (v.findFile fuel dir 0).bind fun found ↦
            match found.1 with
            | none => some (.error .kNoSuchEntry)
            | some parentDir => some (.ok (v.firstCluster parentDir, filename path)) := by
  cases hsplit : splitLast slash path with
  | none => simp [Volume.parentOf, parentLookup, filename, parentDirName, hsplit]
  | some parts =>
      obtain ⟨dir, name⟩ := parts
      have hpath : path ≠ [] := by
        rintro rfl
        cases hsplit
      cases name with
      | nil => simp [Volume.parentOf, parentLookup, filename, hsplit, hpath]
      | cons c name =>
          cases dir with
          | nil => simp [Volume.parentOf, parentLookup, filename, parentDirName, hsplit]
          | cons b dir =>
              simp only [Volume.parentOf, parentLookup, filename, parentDirName, hsplit]
              rfl

namespace Volume

/-- What happens at one call of `FindFile`: no store of `NextPathElement` leaves the
buffer, and an element that is no 8.3 name is not found. -/
structure SafeLevel (v : Volume) (fuel : ℕ) (path : List UInt8) (directoryCluster : ℕ) : Prop where
  stores : ∀ i ∈ nextPathElementStores path, i < kPathElemSize
  notFound : ¬ Is83 (nextPathElement path).1 →
    v.searchDirectory (nextPathElement path).1 fuel directoryCluster = some none

/-- The element fits, and if it is no 8.3 name, no entry of the directory carries the
eleven bytes that it is compared with. -/
structure FitsLevel (v : Volume) (fuel : ℕ) (path : List UInt8) (directoryCluster : ℕ) : Prop where
  short : (nextPathElement path).1.length ≤ 12
  absent : ¬ Is83 (nextPathElement path).1 →
    ∃ entries, v.entriesInUse fuel directoryCluster = some entries ∧
      ∀ entry ∈ entries, v.entryName entry ≠ name83 (nextPathElement path).1

theorem safeLevel_iff {v : Volume} {fuel : ℕ} {path : List UInt8} {directoryCluster : ℕ} :
    v.SafeLevel fuel path directoryCluster ↔ v.FitsLevel fuel path directoryCluster := by
  constructor
  · rintro ⟨hstores, hnone⟩
    exact ⟨(stores_lt_iff path).mp hstores, fun h ↦ searchDirectory_eq_none_iff.mp (hnone h)⟩
  · rintro ⟨hshort, habsent⟩
    exact ⟨(stores_lt_iff path).mpr hshort, fun h ↦ searchDirectory_eq_none_iff.mpr (habsent h)⟩

/-- The calls after the first one. -/
theorem levels_cases {v : Volume} {fuel : ℕ} {path : List UInt8} {d : ℕ}
    {level : List UInt8 × ℕ} (h : level ∈ v.levels fuel path d) :
    level = v.startOf path d ∨ ∃ entry next,
      v.searchDirectory (nextPathElement (v.startOf path d).1).1 fuel (v.startOf path d).2 =
        some (some entry) ∧
      (nextPathElement (v.startOf path d).1).2 = some next ∧ next ≠ [] ∧
      v.entryAttr entry = kDirectory ∧ level ∈ v.levels fuel next (v.firstCluster entry) := by
  rw [levels_eq] at h
  rcases List.mem_cons.mp h with h | h
  · exact .inl h
  · right
    split at h
    · next entry hsearch =>
        cases hnext : (nextPathElement (v.startOf path d).1).2 with
        | none =>
            rw [hnext] at h
            cases h
        | some next =>
            rw [hnext] at h
            cases next with
            | nil => cases h
            | cons c next =>
                rw [levelsBehind] at h
                split_ifs at h with hdir
                · exact ⟨entry, c :: next, hsearch, rfl, List.cons_ne_nil _ _, hdir, h⟩
                · cases h
    · cases h

/-- The elements that are looked for are elements of the path. -/
theorem mem_pathElements_of_level {v : Volume} {fuel : ℕ} (n : ℕ) :
    ∀ {path : List UInt8} {d : ℕ} {level : List UInt8 × ℕ}, path.length < n →
      level ∈ v.levels fuel path d → (nextPathElement level.1).1 ∈ pathElements path := by
  induction n with
  | zero =>
      intro path d level hn
      omega
  | succ n ih =>
      intro path d level hn hlevel
      have hstart : ∀ elem ∈ pathElements (v.startOf path d).1, elem ∈ pathElements path := by
        intro elem helem
        rw [startOf] at helem
        split_ifs at helem with hslash
        · obtain ⟨tail, rfl⟩ := List.head?_eq_some_iff.mp hslash
          rw [← List.nil_append (slash :: tail), pathElements_append]
          exact List.mem_append_right _ helem
        · exact helem
        · exact helem
      rcases levels_cases hlevel with rfl | ⟨entry, next, -, hnext, -, -, hdeep⟩
      · exact hstart _ (head_mem_pathElements _)
      · have hlt := v.length_next_lt hnext
        exact hstart _ (pathElements_next hnext _ (ih (by omega) hdeep))

/-- When no name that is no 8.3 name is found, a path with such a name leads nowhere. -/
theorem findFile_of_notFound {v : Volume} {fuel : ℕ} (n : ℕ) :
    ∀ {path : List UInt8} {d : ℕ}, path.length < n →
      (∀ level ∈ v.levels fuel path d, v.SafeLevel fuel level.1 level.2) →
      (∃ level ∈ v.levels fuel path d, ¬ Is83 (nextPathElement level.1).1) →
      ∃ post, v.findFile fuel path d = some (none, post) := by
  induction n with
  | zero =>
      intro path d hn
      omega
  | succ n ih =>
      intro path d hn hsafe hlevel
      obtain ⟨level, hmem, hnot⟩ := hlevel
      rcases levels_cases hmem with rfl | ⟨entry, next, hsearch, hnext, hne, hdir, hdeep⟩
      · rw [findFile_eq, (hsafe _ hmem).notFound hnot]
        exact ⟨_, rfl⟩
      · have hlt := v.length_next_lt hnext
        have hsub : ∀ l ∈ v.levels fuel next (v.firstCluster entry), l ∈ v.levels fuel path d := by
          intro l hl
          obtain ⟨c, next, rfl⟩ := List.exists_cons_of_ne_nil hne
          rw [levels_eq, hsearch, hnext]
          dsimp only
          rw [levelsBehind, if_pos hdir]
          exact List.mem_cons_of_mem _ hl
        have hsafe' : ∀ l ∈ v.levels fuel next (v.firstCluster entry),
            v.SafeLevel fuel l.1 l.2 := fun l hl ↦ hsafe l (hsub l hl)
        obtain ⟨post, hpost⟩ := ih (by omega) hsafe' ⟨level, hdeep, hnot⟩
        refine ⟨post, ?_⟩
        rw [findFile_of_search hsearch, hnext, v.continueWith_slash fuel entry next hne,
          if_pos hdir, hpost]

/-- Every call of `FindFile` that a lookup leads to is safe, and a path with a name
that is no 8.3 name is reported as not found. -/
structure Safe (v : Volume) (fuel : ℕ) (lookup : Lookup) : Prop where
  level : ∀ call ∈ lookup.call, ∀ level ∈ v.levels fuel call.1 call.2,
    v.SafeLevel fuel level.1 level.2
  result : ∀ call ∈ lookup.call,
    (∃ level ∈ v.levels fuel call.1 call.2, ¬ Is83 (nextPathElement level.1).1) →
      ∃ post, v.findFile fuel call.1 call.2 = some (none, post)

/-- A path whose elements have at most twelve bytes does not overrun the buffer. -/
theorem stores_lt_of_path (v : Volume) (fuel : ℕ) (p : Path) (d : ℕ) :
    ∀ level ∈ v.levels fuel p.bytes d, ∀ i ∈ nextPathElementStores level.1, i < kPathElemSize := by
  intro level hlevel
  exact (stores_lt_iff _).mpr (p.short _ (mem_pathElements_of_level _ (Nat.lt_succ_self _) hlevel))

end Volume

/-! ## Two names that are not safe -/

/-- `thirteenbytes` -/
def thirteenBytes : List UInt8 :=
  [0x74, 0x68, 0x69, 0x72, 0x74, 0x65, 0x65, 0x6e, 0x62, 0x79, 0x74, 0x65, 0x73]

/-- `a/b..` -/
def twoDots : List UInt8 := [0x61, slash, 0x62, dot, dot]

end Fat
end MinOS
