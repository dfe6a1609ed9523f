import MinOS.Fat.Create

/-!
# Looking up a path

`FindFile` one element at a time, and what it does with a longer path.
-/

namespace MinOS
namespace Fat

open ByteMemory

/-! ## The elements of a path -/

theorem nextPathElement_none {path : List UInt8} (h : (nextPathElement path).2 = none) :
    (nextPathElement path).1 = path ∧ slash ∉ path := by
  induction path with
  | nil => simp [nextPathElement]
  | cons c path ih =>
      rw [nextPathElement] at h ⊢
      split_ifs at h ⊢ with hc
      obtain ⟨helem, hslash⟩ := ih h
      refine ⟨by rw [helem], ?_⟩
      rw [List.mem_cons, not_or]
      exact ⟨fun heq ↦ hc heq.symm, hslash⟩

theorem nextPathElement_some {path next : List UInt8} (h : (nextPathElement path).2 = some next) :
    path = (nextPathElement path).1 ++ slash :: next := by
  induction path with
  | nil => cases h
  | cons c path ih =>
      rw [nextPathElement] at h ⊢
      split_ifs at h ⊢ with hc
      · obtain rfl := Option.some.inj h
        rw [hc]
        rfl
      · rw [List.cons_append, ← ih h]

theorem nextPathElement_append_none {path rest : List UInt8}
    (h : (nextPathElement path).2 = none) :
    nextPathElement (path ++ slash :: rest) = ((nextPathElement path).1, some rest) := by
  induction path with
  | nil => simp [nextPathElement]
  | cons c path ih =>
      rw [nextPathElement] at h
      split_ifs at h with hc
      rw [List.cons_append, nextPathElement, if_neg hc, ih h, nextPathElement, if_neg hc]

theorem nextPathElement_append_some {path next rest : List UInt8}
    (h : (nextPathElement path).2 = some next) :
    nextPathElement (path ++ rest) = ((nextPathElement path).1, some (next ++ rest)) := by
  induction path with
  | nil => cases h
  | cons c path ih =>
      rw [nextPathElement] at h
      split_ifs at h with hc
      · obtain rfl := Option.some.inj h
        rw [List.cons_append, nextPathElement, if_pos hc, nextPathElement, if_pos hc]
      · rw [List.cons_append, nextPathElement, if_neg hc, ih h, nextPathElement, if_neg hc]

theorem nextPathElement_of_slash_notMem {path : List UInt8} (h : slash ∉ path) :
    nextPathElement path = (path, none) := by
  induction path with
  | nil => rfl
  | cons c path ih =>
      rw [List.mem_cons, not_or] at h
      rw [nextPathElement, if_neg fun hc ↦ h.1 hc.symm, ih h.2]

theorem notMem_of_splitLast {c : UInt8} {s : List UInt8} (h : splitLast c s = none) : c ∉ s := by
  induction s with
  | nil => exact List.not_mem_nil
  | cons x s ih =>
      rw [splitLast] at h
      cases hrest : splitLast c s with
      | some r => rw [hrest] at h; cases h
      | none =>
          rw [hrest] at h
          dsimp only at h
          split_ifs at h with hx
          rw [List.mem_cons, not_or]
          exact ⟨fun heq ↦ hx heq.symm, ih hrest⟩

theorem mem_of_mem_nextPathElement {path : List UInt8} {c : UInt8}
    (h : c ∈ (nextPathElement path).1) : c ∈ path := by
  cases hnext : (nextPathElement path).2 with
  | none => rwa [(nextPathElement_none hnext).1] at h
  | some next =>
      rw [nextPathElement_some hnext]
      exact List.mem_append_left _ h

/-- The parts of a path between its slashes. -/
def pathElements : List UInt8 → List (List UInt8)
  | [] => [[]]
  | c :: path =>
      if c = slash then [] :: pathElements path
      else
        match pathElements path with
        | [] => [[c]]
        | elem :: elems => (c :: elem) :: elems

theorem pathElements_eq (path : List UInt8) :
    pathElements path = (nextPathElement path).1 ::
      match (nextPathElement path).2 with
      | none => []
      | some next => pathElements next := by
  induction path with
  | nil => rfl
  | cons c path ih =>
      rw [pathElements, nextPathElement]
      split_ifs with hc
      · rfl
      · rw [ih]

theorem head_mem_pathElements (path : List UInt8) :
    (nextPathElement path).1 ∈ pathElements path := by
  rw [pathElements_eq]
  exact List.mem_cons_self

theorem pathElements_next {path next : List UInt8} (h : (nextPathElement path).2 = some next) :
    ∀ elem ∈ pathElements next, elem ∈ pathElements path := by
  intro elem helem
  rw [pathElements_eq path, h]
  exact List.mem_cons_of_mem _ helem

theorem pathElements_append (path rest : List UInt8) :
    pathElements (path ++ slash :: rest) = pathElements path ++ pathElements rest := by
  induction path with
  | nil => rfl
  | cons c path ih =>
      rw [List.cons_append, pathElements, pathElements, ih]
      split_ifs with hc
      · rfl
      · rw [pathElements_eq path]
        rfl

theorem notMem_after_splitLast {c : UInt8} {s before after : List UInt8}
    (h : splitLast c s = some (before, after)) : c ∉ after := by
  induction s generalizing before with
  | nil => cases h
  | cons x s ih =>
      rw [splitLast] at h
      cases hrest : splitLast c s with
      | some r =>
          rw [hrest] at h
          obtain ⟨-, rfl⟩ := Prod.mk.inj (Option.some.inj h)
          exact ih hrest
      | none =>
          rw [hrest] at h
          dsimp only at h
          split_ifs at h with hx
          obtain ⟨-, rfl⟩ := Prod.mk.inj (Option.some.inj h)
          exact notMem_of_splitLast hrest

/-! ## `FindFile` step by step -/

namespace Volume

variable {v : Volume} {fuel : ℕ}

/-- What `FindFile` makes of the entry that carries the first element. -/
def continueWith (v : Volume) (fuel entry : ℕ) : Option (List UInt8) → Option (Option ℕ × Bool)
  | some (c :: next) =>
      if v.entryAttr entry = kDirectory then v.findFile fuel (c :: next) (v.firstCluster entry)
      else some (some entry, true)
  | post => some (some entry, post.isSome)

theorem length_startOf_le (v : Volume) (path : List UInt8) (d : ℕ) :
    (v.startOf path d).1.length ≤ path.length := by
  rw [startOf]
  split_ifs
  · rw [List.length_tail]
    exact Nat.sub_le _ _
  · exact le_rfl
  · exact le_rfl

theorem getLast?_startOf {path : List UInt8} {d : ℕ}
    (h : (v.startOf path d).1 ≠ []) : (v.startOf path d).1.getLast? = path.getLast? := by
  rw [startOf] at h ⊢
  split_ifs at h ⊢ with hslash hzero
  · obtain ⟨tail, rfl⟩ := List.head?_eq_some_iff.mp hslash
    exact (List.getLast?_cons_of_ne_nil h).symm
  · rfl
  · rfl

theorem startOf_congr {u : Volume} (h : u.bpb = v.bpb) (path : List UInt8) (d : ℕ) :
    u.startOf path d = v.startOf path d := by
  rw [startOf, startOf, rootCluster, rootCluster, h]

theorem mem_of_mem_startOf {path : List UInt8} {d : ℕ} {c : UInt8}
    (h : c ∈ (v.startOf path d).1) : c ∈ path := by
  rw [startOf] at h
  split_ifs at h
  · exact List.mem_of_mem_tail h
  · exact h
  · exact h

theorem startOf_fst (u v : Volume) (path : List UInt8) (d d' : ℕ) :
    (u.startOf path d).1 = (v.startOf path d').1 := by
  rw [startOf, startOf]
  split_ifs <;> rfl

/-- The recursion of `FindFile` goes to a shorter path. -/
theorem length_next_lt {path next : List UInt8} {d : ℕ}
    (h : (nextPathElement (v.startOf path d).1).2 = some next) : next.length < path.length := by
  have hlen := congrArg List.length (nextPathElement_some h)
  rw [List.length_append, List.length_cons] at hlen
  have hle := v.length_startOf_le path d
  omega

theorem findFileFrom_congr (fuel depth : ℕ) :
    ∀ (depth' : ℕ) (path : List UInt8) (d : ℕ), path.length < depth → path.length < depth' →
      v.findFileFrom fuel depth path d = v.findFileFrom fuel depth' path d := by
  induction depth with
  | zero =>
      intro depth' path d h
      omega
  | succ depth ih =>
      intro depth' path d h h'
      obtain ⟨depth', rfl⟩ : ∃ k, depth' = k + 1 := ⟨depth' - 1, by omega⟩
      rw [findFileFrom, findFileFrom]
      cases v.searchDirectory (nextPathElement (v.startOf path d).1).1 fuel
          (v.startOf path d).2 with
      | none => rfl
      | some found =>
          cases found with
          | none => rfl
          | some entry =>
              dsimp only
              split
              · next c next hnext =>
                  have hlt := v.length_next_lt hnext
                  rw [ih depth' (c :: next) (v.firstCluster entry) (by omega) (by omega)]
              · rfl

theorem findFile_eq (path : List UInt8) (d : ℕ) :
    v.findFile fuel path d =
      match v.searchDirectory (nextPathElement (v.startOf path d).1).1 fuel (v.startOf path d).2 with
      | none => none
      | some none => some (none, (nextPathElement (v.startOf path d).1).2.isSome)
      | some (some entry) =>
          v.continueWith fuel entry (nextPathElement (v.startOf path d).1).2 := by
  rw [findFile, findFileFrom]
  cases v.searchDirectory (nextPathElement (v.startOf path d).1).1 fuel (v.startOf path d).2 with
  | none => rfl
  | some found =>
      cases found with
      | none => rfl
      | some entry =>
          dsimp only
          split
          · next c next hnext =>
              have hlt := v.length_next_lt hnext
              rw [hnext, continueWith, findFile,
                v.findFileFrom_congr fuel path.length ((c :: next).length + 1) (c :: next)
                  (v.firstCluster entry) hlt (Nat.lt_succ_self _)]
          · next post hpost =>
              rw [continueWith]
              exact hpost

theorem startOf_append {path : List UInt8} (hpath : path ≠ []) (rest : List UInt8) (d : ℕ) :
    v.startOf (path ++ rest) d = ((v.startOf path d).1 ++ rest, (v.startOf path d).2) := by
  obtain ⟨c, path, rfl⟩ := List.exists_cons_of_ne_nil hpath
  rw [startOf, startOf, List.cons_append, List.head?_cons, List.head?_cons]
  split_ifs <;> rfl

theorem continueWith_slash (v : Volume) (fuel entry : ℕ) (rest : List UInt8) (hrest : rest ≠ []) :
    v.continueWith fuel entry (some rest) =
      if v.entryAttr entry = kDirectory then v.findFile fuel rest (v.firstCluster entry)
      else some (some entry, true) := by
  obtain ⟨c, rest, rfl⟩ := List.exists_cons_of_ne_nil hrest
  rfl

/-- An entry carries the first element whenever `FindFile` finds something. -/
theorem findFile_found {path : List UInt8} {d x : ℕ} {post : Bool}
    (h : v.findFile fuel path d = some (some x, post)) :
    ∃ entry, v.searchDirectory (nextPathElement (v.startOf path d).1).1 fuel
        (v.startOf path d).2 = some (some entry) ∧
      v.continueWith fuel entry (nextPathElement (v.startOf path d).1).2 = some (some x, post) := by
  rw [findFile_eq] at h
  split at h
  · cases h
  · cases h
  · next entry hsearch => exact ⟨entry, hsearch, h⟩

theorem findFile_of_search {path : List UInt8} {d entry : ℕ}
    (h : v.searchDirectory (nextPathElement (v.startOf path d).1).1 fuel (v.startOf path d).2 =
      some (some entry)) :
    v.findFile fuel path d =
      v.continueWith fuel entry (nextPathElement (v.startOf path d).1).2 := by
  rw [findFile_eq, h]

/-- The cases of `continueWith` that end with an entry. -/
theorem continueWith_cases {entry x : ℕ} {next : Option (List UInt8)} {post : Bool}
    (h : v.continueWith fuel entry next = some (some x, post)) :
    (x = entry ∧ next = none ∧ post = false) ∨ (x = entry ∧ next = some [] ∧ post = true) ∨
      (∃ rest, rest ≠ [] ∧ next = some rest ∧ v.entryAttr entry = kDirectory ∧
        v.findFile fuel rest (v.firstCluster entry) = some (some x, post)) ∨
      ∃ rest, rest ≠ [] ∧ next = some rest ∧ v.entryAttr entry ≠ kDirectory ∧ x = entry ∧
        post = true := by
  cases next with
  | none =>
      obtain ⟨hx, rfl⟩ := Prod.mk.inj (Option.some.inj h)
      exact .inl ⟨(Option.some.inj hx).symm, rfl, rfl⟩
  | some rest =>
      cases rest with
      | nil =>
          obtain ⟨hx, rfl⟩ := Prod.mk.inj (Option.some.inj h)
          exact .inr (.inl ⟨(Option.some.inj hx).symm, rfl, rfl⟩)
      | cons c rest =>
          rw [v.continueWith_slash _ _ _ (List.cons_ne_nil _ _)] at h
          split_ifs at h with hdir
          · exact .inr (.inr (.inl ⟨_, List.cons_ne_nil _ _, rfl, hdir, h⟩))
          · obtain ⟨hx, rfl⟩ := Prod.mk.inj (Option.some.inj h)
            exact .inr (.inr (.inr ⟨_, List.cons_ne_nil _ _, rfl, hdir, (Option.some.inj hx).symm,
              rfl⟩))

/-- `FindFile` on a longer path: behind a directory the search goes on there, or at
the root when there are two slashes. -/
theorem findFile_append {rest : List UInt8} (hrest : rest ≠ []) (n : ℕ) :
    ∀ {path : List UInt8} {d x : ℕ} {post : Bool}, path.length < n → path ≠ [] →
      v.findFile fuel path d = some (some x, post) →
      v.findFile fuel (path ++ slash :: rest) d =
        if v.entryAttr x = kDirectory then
          v.findFile fuel (if post then slash :: rest else rest) (v.firstCluster x)
        else some (some x, true) := by
  induction n with
  | zero =>
      intro path d x post hn
      omega
  | succ n ih =>
      intro path d x post hn hpath hfind
      obtain ⟨entry, hsearch, hcont⟩ := findFile_found hfind
      rw [findFile_eq, startOf_append hpath]
      dsimp only
      obtain ⟨rfl, hnext, rfl⟩ | ⟨rfl, hnext, rfl⟩ | ⟨next, hne, hnext, hdir, hdeep⟩ |
        ⟨next, hne, hnext, hdir, rfl, rfl⟩ := continueWith_cases hcont
      · rw [nextPathElement_append_none hnext]
        dsimp only
        rw [hsearch]
        exact v.continueWith_slash fuel x rest hrest
      · rw [nextPathElement_append_some hnext]
        dsimp only
        rw [hsearch]
        exact v.continueWith_slash fuel x _ (List.cons_ne_nil _ _)
      · have hlt := v.length_next_lt hnext
        rw [nextPathElement_append_some hnext]
        dsimp only
        rw [hsearch]
        dsimp only
        rw [v.continueWith_slash _ _ _ (List.append_ne_nil_of_left_ne_nil hne _), if_pos hdir]
        exact ih (by omega) hne hdeep
      · rw [nextPathElement_append_some hnext]
        dsimp only
        rw [hsearch]
        dsimp only
        rw [v.continueWith_slash _ _ _ (List.append_ne_nil_of_left_ne_nil hne _), if_neg hdir,
          if_neg hdir]

/-- The flag that comes with a directory depends on the path alone. -/
theorem post_eq_of_directories {u : Volume} (n : ℕ) :
    ∀ {path : List UInt8} {d d' x y : ℕ} {post post' : Bool}, path.length < n →
      u.findFile fuel path d = some (some x, post) → u.entryAttr x = kDirectory →
      v.findFile fuel path d' = some (some y, post') → v.entryAttr y = kDirectory →
      post = post' := by
  induction n with
  | zero =>
      intro path d d' x y post post' hn
      omega
  | succ n ih =>
      intro path d d' x y post post' hn hu hx hv hy
      obtain ⟨a, -, ha⟩ := findFile_found hu
      obtain ⟨b, -, hb⟩ := findFile_found hv
      rw [startOf_fst v u path d' d] at hb
      obtain ⟨-, hnext, rfl⟩ | ⟨-, hnext, rfl⟩ | ⟨next, hne, hnext, -, hdeep⟩ |
        ⟨-, -, -, hdir, rfl, -⟩ := continueWith_cases ha
      · rw [hnext] at hb
        exact (Prod.mk.inj (Option.some.inj hb)).2
      · rw [hnext] at hb
        exact (Prod.mk.inj (Option.some.inj hb)).2
      · have hlt := u.length_next_lt hnext
        rw [hnext, v.continueWith_slash _ _ _ hne] at hb
        split_ifs at hb with hdir
        · exact ih (by omega) hdeep hx hb hy
        · obtain ⟨heq, -⟩ := Prod.mk.inj (Option.some.inj hb)
          obtain rfl := Option.some.inj heq
          exact absurd hy hdir
      · exact absurd hx hdir

theorem findFile_of_startOf {path name : List UInt8} (hname : slash ∉ name) {d dir : ℕ}
    (hstart : v.startOf path d = (name, dir)) :
    v.findFile fuel path d = (v.searchDirectory name fuel dir).map fun found ↦ (found, false) := by
  rw [findFile_eq, hstart, nextPathElement_of_slash_notMem hname]
  dsimp only
  cases v.searchDirectory name fuel dir with
  | none => rfl
  | some found => cases found <;> rfl

theorem head?_ne_of_notMem {name : List UInt8} (hname : slash ∉ name) : name.head? ≠ some slash :=
  fun hhead ↦ hname (List.mem_of_head? hhead)

theorem findFile_single {name : List UInt8} (hname : slash ∉ name) {d : ℕ} (hd : d ≠ 0) :
    v.findFile fuel name d = (v.searchDirectory name fuel d).map fun found ↦ (found, false) :=
  findFile_of_startOf hname (by rw [startOf, if_neg (head?_ne_of_notMem hname), if_neg hd])

theorem findFile_zero {name : List UInt8} (hname : slash ∉ name) :
    v.findFile fuel name 0 =
      (v.searchDirectory name fuel v.rootCluster).map fun found ↦ (found, false) :=
  findFile_of_startOf hname (by rw [startOf, if_neg (head?_ne_of_notMem hname), if_pos rfl])

theorem findFile_slash {name : List UInt8} (hname : slash ∉ name) (d : ℕ) :
    v.findFile fuel (slash :: name) d =
      (v.searchDirectory name fuel v.rootCluster).map fun found ↦ (found, false) :=
  findFile_of_startOf hname (by rw [startOf, if_pos List.head?_cons, List.tail_cons])

end Volume

end Fat
end MinOS
