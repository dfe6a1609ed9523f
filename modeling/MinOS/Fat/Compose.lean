import MinOS.Fat.WellFormed

/-!
# Paths behind a directory

Where `FindFile` looks for the elements of a path, and what becomes of a path
that is appended to the path of a directory.
-/

namespace MinOS
namespace Fat

/-! ## The slashes of a path -/

/-- The slashes at the end of a path. -/
def slashesAtEnd : List UInt8 → ℕ
  | [] => 0
  | c :: path =>
      if c = slash ∧ slashesAtEnd path = path.length then path.length + 1 else slashesAtEnd path

/-- A path without a leading slash. -/
def afterSlash (path : List UInt8) : List UInt8 :=
  if path.head? = some slash then path.tail else path

def slashesAtStart (path : List UInt8) : ℕ := (path.takeWhile fun c ↦ c = slash).length

/-- A path with its leading slashes removed. -/
def stripped (path : List UInt8) : List UInt8 := path.dropWhile fun c ↦ c = slash

theorem slashesAtEnd_le (path : List UInt8) : slashesAtEnd path ≤ path.length := by
  induction path with
  | nil => exact le_rfl
  | cons c path ih =>
      rw [slashesAtEnd, List.length_cons]
      split_ifs
      · exact le_rfl
      · exact ih.trans (Nat.le_succ _)

theorem slashesAtEnd_of_notMem {path : List UInt8} (h : slash ∉ path) : slashesAtEnd path = 0 := by
  induction path with
  | nil => rfl
  | cons c path ih =>
      rw [List.mem_cons, not_or] at h
      rw [slashesAtEnd, if_neg fun hc ↦ h.1 hc.1.symm]
      exact ih h.2

theorem slashesAtEnd_append {elem : List UInt8} (h : slash ∉ elem) (rest : List UInt8) :
    slashesAtEnd (elem ++ slash :: rest) = slashesAtEnd (slash :: rest) := by
  induction elem with
  | nil => rfl
  | cons c elem ih =>
      rw [List.mem_cons, not_or] at h
      rw [List.cons_append, slashesAtEnd, if_neg fun hc ↦ h.1 hc.1.symm]
      exact ih h.2

/-- Slashes at the end are counted in pairs: the second of two is taken to begin
an absolute path. -/
theorem slashesAtEnd_slash (rest : List UInt8) (hrest : rest ≠ []) :
    slashesAtEnd (slash :: rest) % 2 = slashesAtEnd (afterSlash rest) % 2 := by
  obtain ⟨c, rest, rfl⟩ := List.exists_cons_of_ne_nil hrest
  have hle := slashesAtEnd_le rest
  rw [afterSlash, List.head?_cons, List.tail_cons]
  by_cases hc : c = slash
  · subst hc
    rw [if_pos rfl, slashesAtEnd]
    by_cases hall : slashesAtEnd rest = rest.length
    · have hslash : slashesAtEnd (slash :: rest) = rest.length + 1 := by
        rw [slashesAtEnd, if_pos ⟨rfl, hall⟩]
      rw [if_pos ⟨rfl, hslash⟩, List.length_cons, hall]
      omega
    · have hslash : slashesAtEnd (slash :: rest) = slashesAtEnd rest := by
        rw [slashesAtEnd, if_neg fun h ↦ hall h.2]
      rw [if_neg, hslash]
      rw [hslash, List.length_cons]
      omega
  · have hslash : slashesAtEnd (c :: rest) = slashesAtEnd rest := by
      rw [slashesAtEnd, if_neg fun h ↦ hc h.1]
    rw [if_neg fun h ↦ hc (Option.some.inj h), slashesAtEnd, if_neg]
    rw [hslash, List.length_cons]
    omega

theorem slash_notMem_nextPathElement (path : List UInt8) : slash ∉ (nextPathElement path).1 := by
  induction path with
  | nil => simp [nextPathElement]
  | cons c path ih =>
      rw [nextPathElement]
      split_ifs with hc
      · simp
      · rw [List.mem_cons, not_or]
        exact ⟨fun h ↦ hc h.symm, ih⟩

theorem replicate_append_stripped (path : List UInt8) :
    List.replicate (slashesAtStart path) slash ++ stripped path = path := by
  have htake : path.takeWhile (fun c ↦ decide (c = slash)) =
      List.replicate (slashesAtStart path) slash :=
    List.eq_replicate_iff.mpr ⟨rfl, fun c hc ↦ by simpa using List.mem_takeWhile_imp hc⟩
  rw [← htake]
  exact List.takeWhile_append_dropWhile

@[simp] theorem stripped_slash (path : List UInt8) : stripped (slash :: path) = stripped path :=
  List.dropWhile_cons_of_pos (by simp)

@[simp] theorem slashesAtStart_slash (path : List UInt8) :
    slashesAtStart (slash :: path) = slashesAtStart path + 1 := by
  rw [slashesAtStart, List.takeWhile_cons_of_pos (by simp), List.length_cons, slashesAtStart]

theorem head?_stripped (path : List UInt8) : (stripped path).head? ≠ some slash := by
  intro h
  have hdrop := List.head?_dropWhile_not (fun c ↦ decide (c = slash)) path
  rw [stripped] at h
  rw [h] at hdrop
  simp at hdrop

/-! ## The entries that are searched -/

namespace Volume

variable {v : Volume} {fuel : ℕ} {name : List UInt8}

/-- The entries of a directory before its end mark. -/
def entriesInUse (v : Volume) : ℕ → ℕ → Option (List ℕ)
  | 0, _ => none
  | fuel + 1, directoryCluster =>
      if directoryCluster = kEndOfClusterchain then some []
      else if ∃ entry ∈ v.clusterSlots directoryCluster, v.mem entry = 0 then
        some ((v.clusterSlots directoryCluster).takeWhile fun entry ↦ v.mem entry ≠ 0)
      else
        (v.entriesInUse fuel (v.nextCluster directoryCluster)).map
          (v.clusterSlots directoryCluster ++ ·)

theorem entry_search (l : List ℕ) :
    (v.search name l).entry = (l.takeWhile fun entry ↦ v.mem entry ≠ 0).find? fun entry ↦
      v.entryName entry = name83 name := by
  induction l with
  | nil => rfl
  | cons a l ih =>
      rw [search]
      split_ifs with hzero hname
      · rw [List.takeWhile_cons_of_neg (by simpa using hzero)]
        rfl
      · rw [List.takeWhile_cons_of_pos (by simpa using hzero),
          List.find?_cons_of_pos (by simpa using nameIsEqual_iff.mp hname)]
        rfl
      · rw [List.takeWhile_cons_of_pos (by simpa using hzero),
          List.find?_cons_of_neg (by simpa using mt nameIsEqual_iff.mpr hname), ih]

theorem search_ne_exhausted {l : List ℕ} (hzero : ∃ entry ∈ l, v.mem entry = 0) :
    v.search name l ≠ .exhausted := by
  induction l with
  | nil => simp at hzero
  | cons a l ih =>
      rw [search]
      split_ifs with ha hname
      · exact Search.noConfusion
      · exact Search.noConfusion
      · obtain ⟨entry, hmem, hentry⟩ := hzero
        rcases List.mem_cons.mp hmem with rfl | hmem
        · exact absurd hentry ha
        · exact ih ⟨entry, hmem, hentry⟩

theorem search_ne_endMark {l : List ℕ} (hzero : ∀ entry ∈ l, v.mem entry ≠ 0) :
    v.search name l ≠ .endMark := by
  induction l with
  | nil => exact Search.noConfusion
  | cons a l ih =>
      rw [search, if_neg (hzero a List.mem_cons_self)]
      split_ifs with hname
      · exact Search.noConfusion
      · exact ih fun entry hmem ↦ hzero entry (List.mem_cons_of_mem a hmem)

/-- `FindFile` finds in a directory the first entry before the end mark that carries
the name. -/
theorem searchDirectory_eq_find {c : ℕ} {entries : List ℕ}
    (h : v.entriesInUse fuel c = some entries) :
    v.searchDirectory name fuel c =
      some (entries.find? fun entry ↦ v.entryName entry = name83 name) := by
  induction fuel generalizing c entries with
  | zero => cases h
  | succ fuel ih =>
      rw [entriesInUse] at h
      rw [searchDirectory, searchCluster_eq, ← clusterSlots]
      have hentry := @entry_search v name (v.clusterSlots c)
      split_ifs at h ⊢ with hend hzero
      · obtain rfl := Option.some.inj h
        rfl
      · obtain rfl := Option.some.inj h
        rw [← hentry]
        cases hsearch : v.search name (v.clusterSlots c) with
        | found entry => rfl
        | endMark => rfl
        | exhausted => exact absurd hsearch (search_ne_exhausted hzero)
      · push Not at hzero
        obtain ⟨rest, hrest, rfl⟩ := Option.map_eq_some_iff.mp h
        have htake : (v.clusterSlots c).takeWhile (fun entry ↦ v.mem entry ≠ 0) =
            v.clusterSlots c := List.takeWhile_eq_self_iff.mpr (by simpa using hzero)
        rw [htake] at hentry
        rw [List.find?_append, ← hentry]
        cases hsearch : v.search name (v.clusterSlots c) with
        | found entry => rfl
        | endMark => exact absurd hsearch (search_ne_endMark hzero)
        | exhausted => exact ih hrest

theorem entriesInUse_of_searchDirectory {c : ℕ} (h : v.searchDirectory name fuel c = some none) :
    ∃ entries, v.entriesInUse fuel c = some entries := by
  induction fuel generalizing c with
  | zero => cases h
  | succ fuel ih =>
      rw [searchDirectory, searchCluster_eq, ← clusterSlots] at h
      rw [entriesInUse]
      split_ifs at h ⊢ with hend hzero
      · exact ⟨_, rfl⟩
      · exact ⟨_, rfl⟩
      · push Not at hzero
        cases hsearch : v.search name (v.clusterSlots c) with
        | found entry =>
            rw [hsearch] at h
            cases h
        | endMark => exact absurd hsearch (search_ne_endMark hzero)
        | exhausted =>
            rw [hsearch] at h
            obtain ⟨rest, hrest⟩ := ih h
            exact ⟨_, Option.map_eq_some_iff.mpr ⟨rest, hrest, rfl⟩⟩

/-- `FindFile` finds no entry in a directory exactly when the directory ends and no
entry before its end mark carries the name. -/
theorem searchDirectory_eq_none_iff {c : ℕ} :
    v.searchDirectory name fuel c = some none ↔
      ∃ entries, v.entriesInUse fuel c = some entries ∧
        ∀ entry ∈ entries, v.entryName entry ≠ name83 name := by
  constructor
  · intro h
    obtain ⟨entries, hentries⟩ := entriesInUse_of_searchDirectory h
    rw [searchDirectory_eq_find hentries, Option.some.injEq, List.find?_eq_none] at h
    exact ⟨entries, hentries, by simpa using h⟩
  · rintro ⟨entries, hentries, hall⟩
    rw [searchDirectory_eq_find hentries, Option.some.injEq, List.find?_eq_none]
    simpa using hall

end Volume

/-! ## Where the elements are looked for -/

namespace Volume

variable {v : Volume} {fuel : ℕ}

/-- What the calls of `FindFile` take an element from, each with the first cluster
of the directory in which it is looked for. -/
def levelsFrom (v : Volume) (fuel : ℕ) : ℕ → List UInt8 → ℕ → List (List UInt8 × ℕ)
  | 0, _, _ => []
  | depth + 1, path, directoryCluster =>
      let start := v.startOf path directoryCluster
      let elem := nextPathElement start.1
      start ::
        match v.searchDirectory elem.1 fuel start.2 with
        | some (some entry) =>
            match elem.2 with
            | some (c :: next) =>
                if v.entryAttr entry = kDirectory then
                  v.levelsFrom fuel depth (c :: next) (v.firstCluster entry)
                else []
            | _ => []
        | _ => []

def levels (v : Volume) (fuel : ℕ) (path : List UInt8) (directoryCluster : ℕ) :
    List (List UInt8 × ℕ) :=
  v.levelsFrom fuel (path.length + 1) path directoryCluster

/-- The calls behind the one that finds an entry. -/
def levelsBehind (v : Volume) (fuel entry : ℕ) : Option (List UInt8) → List (List UInt8 × ℕ)
  | some (c :: next) =>
      if v.entryAttr entry = kDirectory then v.levels fuel (c :: next) (v.firstCluster entry)
      else []
  | _ => []

/-- The elements that `FindFile` looks for, and where. -/
def searches (v : Volume) (fuel : ℕ) (path : List UInt8) (directoryCluster : ℕ) :
    List (List UInt8 × ℕ) :=
  (v.levels fuel path directoryCluster).map fun l ↦ ((nextPathElement l.1).1, l.2)

def searchesBehind (v : Volume) (fuel entry : ℕ) (next : Option (List UInt8)) :
    List (List UInt8 × ℕ) :=
  (v.levelsBehind fuel entry next).map fun l ↦ ((nextPathElement l.1).1, l.2)

theorem levelsFrom_congr (fuel depth : ℕ) :
    ∀ (depth' : ℕ) (path : List UInt8) (d : ℕ), path.length < depth → path.length < depth' →
      v.levelsFrom fuel depth path d = v.levelsFrom fuel depth' path d := by
  induction depth with
  | zero =>
      intro depth' path d h
      omega
  | succ depth ih =>
      intro depth' path d h h'
      obtain ⟨depth', rfl⟩ : ∃ k, depth' = k + 1 := ⟨depth' - 1, by omega⟩
      rw [levelsFrom, levelsFrom]
      refine congrArg _ ?_
      split
      · next entry hsearch =>
          split
          · next c next hnext =>
              have hlt := v.length_next_lt hnext
              rw [ih depth' (c :: next) (v.firstCluster entry) (by omega) (by omega)]
          · rfl
      · rfl

theorem levels_eq (path : List UInt8) (d : ℕ) :
    v.levels fuel path d =
      v.startOf path d ::
        match v.searchDirectory (nextPathElement (v.startOf path d).1).1 fuel
            (v.startOf path d).2 with
        | some (some entry) => v.levelsBehind fuel entry (nextPathElement (v.startOf path d).1).2
        | _ => [] := by
  rw [levels, levelsFrom]
  refine congrArg _ ?_
  split
  · next entry hsearch =>
      split
      · next c next hnext =>
          have hlt := v.length_next_lt hnext
          rw [hnext, levelsBehind, levels,
            v.levelsFrom_congr fuel path.length ((c :: next).length + 1) (c :: next)
              (v.firstCluster entry) hlt (Nat.lt_succ_self _)]
      · next hother =>
          rw [levelsBehind]
          exact hother
  · rfl

theorem searches_eq (path : List UInt8) (d : ℕ) :
    v.searches fuel path d =
      ((nextPathElement (v.startOf path d).1).1, (v.startOf path d).2) ::
        match v.searchDirectory (nextPathElement (v.startOf path d).1).1 fuel
            (v.startOf path d).2 with
        | some (some entry) => v.searchesBehind fuel entry (nextPathElement (v.startOf path d).1).2
        | _ => [] := by
  rw [searches, levels_eq, List.map_cons]
  refine congrArg _ ?_
  split <;> rfl

theorem searches_of_search {path : List UInt8} {d entry : ℕ}
    (h : v.searchDirectory (nextPathElement (v.startOf path d).1).1 fuel (v.startOf path d).2 =
      some (some entry)) :
    v.searches fuel path d =
      ((nextPathElement (v.startOf path d).1).1, (v.startOf path d).2) ::
        v.searchesBehind fuel entry (nextPathElement (v.startOf path d).1).2 := by
  rw [searches_eq, h]

theorem searchesBehind_slash (v : Volume) (fuel entry : ℕ) {rest : List UInt8}
    (hrest : rest ≠ []) (hdir : v.entryAttr entry = kDirectory) :
    v.searchesBehind fuel entry (some rest) = v.searches fuel rest (v.firstCluster entry) := by
  obtain ⟨c, rest, rfl⟩ := List.exists_cons_of_ne_nil hrest
  rw [searchesBehind, levelsBehind, if_pos hdir, searches]

/-- Behind a directory the search goes on there, or at the root when there are two
slashes; what was looked for before is the same. -/
theorem searches_append {rest : List UInt8} (hrest : rest ≠ []) (n : ℕ) :
    ∀ {path : List UInt8} {d x : ℕ} {post : Bool}, path.length < n → path ≠ [] →
      v.findFile fuel path d = some (some x, post) → v.entryAttr x = kDirectory →
      v.searches fuel (path ++ slash :: rest) d = v.searches fuel path d ++
        v.searches fuel (if post then slash :: rest else rest) (v.firstCluster x) := by
  induction n with
  | zero =>
      intro path d x post hn
      omega
  | succ n ih =>
      intro path d x post hn hpath hfind hattr
      obtain ⟨entry, hsearch, hcont⟩ := findFile_found hfind
      rw [searches_of_search hsearch, searches_eq, startOf_append hpath]
      dsimp only
      obtain ⟨rfl, hnext, rfl⟩ | ⟨rfl, hnext, rfl⟩ | ⟨next, hne, hnext, hdir, hdeep⟩ |
        ⟨next, hne, hnext, hdir, rfl, rfl⟩ := continueWith_cases hcont
      · rw [nextPathElement_append_none hnext, hnext]
        dsimp only
        rw [hsearch]
        dsimp only
        rw [v.searchesBehind_slash fuel x hrest hattr]
        rfl
      · rw [nextPathElement_append_some hnext, hnext]
        dsimp only
        rw [hsearch]
        dsimp only
        rw [v.searchesBehind_slash fuel x (List.append_ne_nil_of_right_ne_nil _
          (List.cons_ne_nil _ _)) hattr]
        rfl
      · have hlt := v.length_next_lt hnext
        rw [nextPathElement_append_some hnext, hnext]
        dsimp only
        rw [hsearch]
        dsimp only
        rw [v.searchesBehind_slash fuel entry (List.append_ne_nil_of_left_ne_nil hne _) hdir,
          v.searchesBehind_slash fuel entry hne hdir, ih (by omega) hne hdeep hattr]
        rfl
      · exact absurd hattr hdir

/-! ## The junction of two paths -/

theorem startOf_fst_eq (v : Volume) (path : List UInt8) (d : ℕ) :
    (v.startOf path d).1 = afterSlash path := by
  rw [startOf, afterSlash]
  split_ifs <;> rfl

/-- The flag of a directory says whether the slashes at the end of its path, after
one at the beginning, are odd in number. -/
theorem post_eq_odd (n : ℕ) :
    ∀ {path : List UInt8} {d x : ℕ} {post : Bool}, path.length < n →
      v.findFile fuel path d = some (some x, post) → v.entryAttr x = kDirectory →
      slashesAtEnd (afterSlash path) % 2 = if post then 1 else 0 := by
  induction n with
  | zero =>
      intro path d x post hn
      omega
  | succ n ih =>
      intro path d x post hn hfind hattr
      obtain ⟨entry, -, hcont⟩ := findFile_found hfind
      rw [← v.startOf_fst_eq path d]
      have helem : ∀ rest, (nextPathElement (v.startOf path d).1).2 = some rest →
          slashesAtEnd (v.startOf path d).1 = slashesAtEnd (slash :: rest) := fun rest hnext ↦
        (congrArg _ (nextPathElement_some hnext)).trans
          (slashesAtEnd_append (slash_notMem_nextPathElement _) rest)
      obtain ⟨-, hnext, rfl⟩ | ⟨-, hnext, rfl⟩ | ⟨next, hne, hnext, -, hdeep⟩ |
        ⟨-, -, -, hdir, rfl, -⟩ := continueWith_cases hcont
      · rw [slashesAtEnd_of_notMem (nextPathElement_none hnext).2]
        rfl
      · rw [helem [] hnext]
        rfl
      · have hlt := v.length_next_lt hnext
        rw [helem next hnext, slashesAtEnd_slash next hne]
        exact ih (by omega) hdeep hattr
      · exact absurd hattr hdir

theorem findFile_congr_start {path path' : List UInt8} {d d' : ℕ}
    (h : v.startOf path d = v.startOf path' d') :
    v.findFile fuel path d = v.findFile fuel path' d' := by
  rw [findFile_eq, findFile_eq, h]

theorem searches_congr_start {path path' : List UInt8} {d d' : ℕ}
    (h : v.startOf path d = v.startOf path' d') :
    v.searches fuel path d = v.searches fuel path' d' := by
  rw [searches_eq, searches_eq, h]

/-- The slashes between two paths, without the one that joins them. -/
def extraSlashes (p q : List UInt8) : ℕ := slashesAtEnd (afterSlash p) % 2 + slashesAtStart q

/-- Both the directory and the root are searched when the directory is the root. -/
def IsRoot (v : Volume) (d : ℕ) : Prop := d = 0 ∨ d = v.rootCluster

/-- Behind the path of the directory with first cluster `c` stand that many
slashes more than one: none is harmless, and one is where the directory is the root. -/
def Joins (v : Volume) (extra c : ℕ) : Prop := extra = 0 ∨ extra = 1 ∧ v.IsRoot c

/-- `FindFile` finds behind the path of a directory what it finds in the directory,
and it has looked there for it. -/
structure Composes (v : Volume) (fuel : ℕ) (p q : List UInt8) (d c : ℕ) : Prop where
  result : v.findFile fuel (p ++ slash :: q) d = v.findFile fuel (stripped q) c
  searched : v.searches fuel (p ++ slash :: q) d =
    v.searches fuel p d ++ v.searches fuel (stripped q) c

theorem startOf_slash (v : Volume) (path : List UInt8) (d : ℕ) :
    v.startOf (slash :: path) d = (path, v.rootCluster) := by
  rw [startOf, if_pos (List.head?_cons), List.tail_cons]

theorem startOf_eq_root {path : List UInt8} (hhead : path.head? ≠ some slash) {d : ℕ} :
    v.startOf path d = (path, v.rootCluster) ↔ v.IsRoot d := by
  rw [startOf, if_neg hhead, IsRoot]
  split_ifs with hd
  · exact ⟨fun _ ↦ .inl hd, fun _ ↦ rfl⟩
  · exact ⟨fun h ↦ .inr (Prod.mk.inj h).2, fun h ↦ congrArg _ (h.resolve_left hd)⟩

theorem startOf_snd_eq_root {path : List UInt8} (hhead : path.head? ≠ some slash) {d : ℕ}
    (h : v.rootCluster = (v.startOf path d).2) : v.IsRoot d := by
  rw [← startOf_eq_root hhead]
  exact Prod.ext (by rw [startOf_fst_eq, afterSlash, if_neg hhead]) h.symm

theorem head_searches (path : List UInt8) (d : ℕ) :
    (v.searches fuel path d).head? =
      some ((nextPathElement (v.startOf path d).1).1, (v.startOf path d).2) := by
  rw [searches_eq]
  rfl

theorem nextPathElement_ne_nil {path : List UInt8} (hpath : path ≠ [])
    (hhead : path.head? ≠ some slash) : (nextPathElement path).1 ≠ [] := by
  obtain ⟨c, path, rfl⟩ := List.exists_cons_of_ne_nil hpath
  rw [nextPathElement, if_neg fun h ↦ hhead (congrArg some h)]
  exact List.cons_ne_nil _ _

section Junction

variable {q : List UInt8} {c : ℕ}

theorem startOf_of_joins {extra : ℕ} (h : v.Joins extra c) :
    v.startOf (List.replicate extra slash ++ stripped q) c = v.startOf (stripped q) c := by
  obtain rfl | ⟨rfl, hroot⟩ := h
  · rfl
  · exact (v.startOf_slash _ c).trans ((startOf_eq_root (head?_stripped q)).mpr hroot).symm

theorem joins_of_searches (hq : stripped q ≠ []) {extra : ℕ}
    (h : v.searches fuel (List.replicate extra slash ++ stripped q) c =
      v.searches fuel (stripped q) c) : v.Joins extra c := by
  cases extra with
  | zero => exact .inl rfl
  | succ extra =>
      have hhead := congrArg List.head? h
      rw [head_searches, head_searches, List.replicate_succ, List.cons_append, startOf_slash] at hhead
      obtain ⟨helem, hroot⟩ := Prod.mk.inj (Option.some.inj hhead)
      refine .inr ⟨?_, startOf_snd_eq_root (head?_stripped q) hroot⟩
      cases extra with
      | zero => rfl
      | succ extra =>
          rw [startOf_fst_eq, afterSlash, if_neg (head?_stripped q)] at helem
          exact absurd helem.symm (nextPathElement_ne_nil hq (head?_stripped q))

end Junction

section

variable {p q : List UInt8} {d x : ℕ} {post : Bool}

/-- What stands behind the directory when its path has been used up. -/
theorem behind_eq (hfind : v.findFile fuel p d = some (some x, post))
    (hattr : v.entryAttr x = kDirectory) :
    (if post then slash :: q else q) =
      List.replicate (extraSlashes p q) slash ++ stripped q := by
  rw [extraSlashes, post_eq_odd _ (Nat.lt_succ_self _) hfind hattr, List.replicate_add,
    List.append_assoc, replicate_append_stripped]
  cases post <;> rfl

theorem composes_iff_joins (hp : p ≠ []) (hq : stripped q ≠ [])
    (hfind : v.findFile fuel p d = some (some x, post)) (hattr : v.entryAttr x = kDirectory) :
    v.Composes fuel p q d (v.firstCluster x) ↔
      v.Joins (extraSlashes p q) (v.firstCluster x) := by
  have hq' : q ≠ [] := by
    rintro rfl
    exact hq rfl
  have hbehind := behind_eq (q := q) hfind hattr
  have hfile := findFile_append hq' _ (Nat.lt_succ_self _) hp hfind
  have hsearches := searches_append hq' _ (Nat.lt_succ_self _) hp hfind hattr
  rw [if_pos hattr, hbehind] at hfile
  rw [hbehind] at hsearches
  constructor
  · intro h
    exact joins_of_searches hq (List.append_cancel_left (hsearches.symm.trans h.searched))
  · intro h
    have hstart := startOf_of_joins (q := q) h
    exact ⟨hfile.trans (findFile_congr_start hstart),
      hsearches.trans (congrArg _ (searches_congr_start hstart))⟩

end

/-- When the junction is not clean the search goes on at the root. -/
theorem findFile_restarts {p q : List UInt8} {d x : ℕ} {post : Bool} (hp : p ≠ []) (hq : q ≠ [])
    (hfind : v.findFile fuel p d = some (some x, post)) (hattr : v.entryAttr x = kDirectory)
    {extra : ℕ} (hextra : extraSlashes p q = extra + 1) :
    v.findFile fuel (p ++ slash :: q) d =
      v.findFile fuel (slash :: (List.replicate extra slash ++ stripped q)) 0 := by
  rw [findFile_append hq _ (Nat.lt_succ_self _) hp hfind, if_pos hattr, behind_eq hfind hattr,
    hextra]
  exact findFile_congr_start ((v.startOf_slash _ _).trans (v.startOf_slash _ 0).symm)

section Empty

variable {q : List UInt8} {d x : ℕ} {post : Bool}

/-- At the root the empty path is as good as a slash. -/
theorem composes_nil_slash_iff (hd : v.IsRoot d) (hq : stripped q ≠ [])
    (hfind : v.findFile fuel [] d = some (some x, post)) (hattr : v.entryAttr x = kDirectory) :
    v.Composes fuel [] (slash :: q) d (v.firstCluster x) ↔
      v.Joins (slashesAtStart q) (v.firstCluster x) := by
  have hstart : v.startOf [] d = v.startOf [slash] d :=
    ((startOf_eq_root (by simp)).mpr hd).trans (v.startOf_slash [] d).symm
  rw [findFile_congr_start hstart] at hfind
  have hjoins := composes_iff_joins (List.cons_ne_nil _ _) hq hfind hattr
  rw [show extraSlashes [slash] q = slashesAtStart q from Nat.zero_add _] at hjoins
  rw [← hjoins]
  constructor
  · rintro ⟨hresult, hsearched⟩
    rw [stripped_slash] at hresult hsearched
    exact ⟨hresult, by rw [← searches_congr_start hstart]; exact hsearched⟩
  · rintro ⟨hresult, hsearched⟩
    refine ⟨by rwa [stripped_slash], ?_⟩
    rw [stripped_slash, searches_congr_start hstart]
    exact hsearched

/-- A path behind the empty path is searched for at the root. -/
theorem starts_of_composes_nil (hq : stripped q ≠ []) {c : ℕ} (h : v.Composes fuel [] q d c) :
    v.IsRoot d ∧ ∃ rest, q = slash :: rest := by
  have hhead := congrArg List.head? h.searched
  rw [List.head?_append_of_ne_nil _ (by simp [searches_eq]), head_searches, head_searches,
    List.nil_append, startOf_slash] at hhead
  obtain ⟨helem, hroot⟩ := Prod.mk.inj (Option.some.inj hhead)
  refine ⟨startOf_snd_eq_root (by simp) hroot, ?_⟩
  rw [startOf_fst_eq] at helem
  by_contra hslash
  have hstart : q.head? ≠ some slash := fun hhead ↦
    hslash ⟨_, List.eq_cons_of_mem_head? hhead⟩
  refine nextPathElement_ne_nil ?_ hstart helem
  rintro rfl
  exact hq rfl

end Empty

/-- The condition on the two paths.  The empty path names an entry that has no
name, and a path behind it begins with a slash. -/
def JoinsCleanly (v : Volume) (p q : List UInt8) (d c : ℕ) : Prop :=
  if p = [] then v.IsRoot d ∧ 0 < slashesAtStart q ∧ v.Joins (slashesAtStart q - 1) c
  else v.Joins (extraSlashes p q) c

/-- The path of a directory and a path in it are composed exactly when no slash
stands between them that is not the one that joins them, or when a second one
restarts the search at the root and the directory is the root. -/
theorem composes_iff (p q : Path) (hq : stripped q.bytes ≠ []) {d x : ℕ} {post : Bool}
    (hfind : v.findFile fuel p.bytes d = some (some x, post))
    (hattr : v.entryAttr x = kDirectory) :
    v.Composes fuel p.bytes q.bytes d (v.firstCluster x) ↔
      v.JoinsCleanly p.bytes q.bytes d (v.firstCluster x) := by
  by_cases hp : p.bytes = []
  · rw [hp] at hfind
    rw [JoinsCleanly, if_pos hp, hp]
    constructor
    · intro h
      obtain ⟨hd, rest, hrest⟩ := starts_of_composes_nil hq h
      rw [hrest] at hq h ⊢
      rw [stripped_slash] at hq
      rw [slashesAtStart_slash]
      exact ⟨hd, Nat.succ_pos _, (composes_nil_slash_iff hd hq hfind hattr).mp h⟩
    · rintro ⟨hd, hpos, hjoins⟩
      obtain ⟨rest, hrest⟩ : ∃ rest, q.bytes = slash :: rest := by
        have hparts := replicate_append_stripped q.bytes
        obtain ⟨k, hk⟩ := Nat.exists_eq_succ_of_ne_zero hpos.ne'
        exact ⟨_, by rw [← hparts, hk, List.replicate_succ, List.cons_append]⟩
      rw [hrest, slashesAtStart_slash] at hjoins
      rw [hrest] at hq ⊢
      rw [stripped_slash] at hq
      exact (composes_nil_slash_iff hd hq hfind hattr).mpr hjoins
  · rw [JoinsCleanly, if_neg hp]
    exact composes_iff_joins hp hq hfind hattr

end Volume

/-! ## A directory with one file -/

/-- The root directory holds the directory `A` at cluster 3, and that the file `B`. -/
def treeVolume : Volume where
  bpb :=
    { bytesPerSector := 512
      sectorsPerCluster := 1
      reservedSectorCount := 1
      numFats := 1
      fatSize32 := 1
      rootCluster := 2 }
  mem := fun x ↦
    if 520 ≤ x ∧ x < 528 then if x % 4 = 3 then 0x0f else 0xff
    else if x = 1024 then 0x41
    else if x = 1536 then 0x42
    else if 1024 < x ∧ x < 1035 ∨ 1536 < x ∧ x < 1547 then space
    else if x = 1035 then kDirectory
    else if x = 1050 then 3
    else 0

/-- `a` -/
def aPath : Path where
  bytes := [0x61]
  nonNul := by decide
  short := by decide

/-- `a/` -/
def aSlashPath : Path where
  bytes := [0x61, slash]
  nonNul := by decide
  short := by decide

/-- `b` -/
def bPath : Path where
  bytes := [0x62]
  nonNul := by decide
  short := by decide

theorem composes_iff_one_slash :
    treeVolume.findFile 4 aPath.bytes 0 = some (some 1024, false) ∧
      treeVolume.Composes 4 aPath.bytes bPath.bytes 0 (treeVolume.firstCluster 1024) := by
  have hfind : treeVolume.findFile 4 aPath.bytes 0 = some (some 1024, false) := by decide +kernel
  exact ⟨hfind, (Volume.composes_iff aPath bPath (by decide) hfind (by decide)).mpr (.inl rfl)⟩

/-- `a/` leads to the directory, `a//b` to nothing. -/
theorem not_composes_two_slashes :
    treeVolume.findFile 4 aSlashPath.bytes 0 = some (some 1024, true) ∧
      treeVolume.entryAttr 1024 = kDirectory ∧
      treeVolume.findFile 4 (stripped bPath.bytes) (treeVolume.firstCluster 1024) =
        some (some 1536, false) ∧
      treeVolume.findFile 4 (aSlashPath.bytes ++ slash :: bPath.bytes) 0 = some (none, false) := by
  decide +kernel

end Fat
end MinOS
