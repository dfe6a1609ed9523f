import Mathlib.Data.List.TakeWhile
import MinOS.Fat.Lookup

/-!
# The directories of a volume

A well-formed volume, and what a path leads to in it.
-/

namespace MinOS
namespace Fat

open ByteMemory

/-! ## Searching a list of entries -/

namespace Volume

variable {v v' : Volume} {name : List UInt8}

theorem nameIsEqual_iff {entry : ℕ} :
    v.nameIsEqual entry name = true ↔ v.entryName entry = name83 name := by
  rw [nameIsEqual, beq_iff_eq]

theorem search_found {l : List ℕ} {x : ℕ} (h : (v.search name l).entry = some x) :
    x ∈ l.takeWhile (fun a ↦ decide (v.mem a ≠ 0)) ∧ v.entryName x = name83 name := by
  induction l with
  | nil => cases h
  | cons a l ih =>
      rw [search] at h
      split_ifs at h with hzero hname
      · cases h
      · obtain rfl := Option.some.inj h
        rw [List.takeWhile_cons_of_pos (by simpa using hzero)]
        exact ⟨List.mem_cons_self, nameIsEqual_iff.mp hname⟩
      · rw [List.takeWhile_cons_of_pos (by simpa using hzero)]
        exact ⟨List.mem_cons_of_mem a (ih h).1, (ih h).2⟩

theorem search_congr {l : List ℕ}
    (h : ∀ a ∈ l, v'.mem a = v.mem a ∧ v'.entryName a = v.entryName a) :
    v'.search name l = v.search name l := by
  induction l with
  | nil => rfl
  | cons a l ih =>
      obtain ⟨hmem, hname⟩ := h a List.mem_cons_self
      rw [search, search, hmem, nameIsEqual, nameIsEqual, hname,
        ih fun b hb ↦ h b (List.mem_cons_of_mem a hb)]

theorem search_found_of_changed {entry x : ℕ} (hzero : v'.mem entry ≠ 0)
    (hnew : v'.entryName entry ≠ name83 name) (hold : v.entryName entry ≠ name83 name)
    {l : List ℕ}
    (hsame : ∀ a ∈ l, a ≠ entry → v'.mem a = v.mem a ∧ v'.entryName a = v.entryName a)
    (h : (v.search name l).entry = some x) : (v'.search name l).entry = some x := by
  induction l with
  | nil => cases h
  | cons a l ih =>
      have hrest := ih fun b hb ↦ hsame b (List.mem_cons_of_mem a hb)
      rw [search] at h ⊢
      by_cases ha : a = entry
      · subst ha
        rw [if_neg hzero, if_neg (mt nameIsEqual_iff.mp hnew)]
        rw [if_neg (mt nameIsEqual_iff.mp hold)] at h
        split_ifs at h with hz
        · cases h
        · exact hrest h
      · obtain ⟨hmem, hname⟩ := hsame a List.mem_cons_self ha
        rw [hmem, nameIsEqual, hname]
        rw [nameIsEqual] at h
        by_cases hz : v.mem a = 0
        · rw [if_pos hz] at h
          cases h
        · rw [if_neg hz] at h ⊢
          split_ifs at h ⊢ with hn
          · exact h
          · exact hrest h

theorem search_exhausted {l : List ℕ} (hzero : ∀ a ∈ l, v.mem a ≠ 0)
    (h : (v.search name l).entry = none) : v.search name l = .exhausted := by
  induction l with
  | nil => rfl
  | cons a l ih =>
      rw [search, if_neg (hzero a List.mem_cons_self)] at h ⊢
      split_ifs at h ⊢ with hname
      · cases h
      · exact ih (fun b hb ↦ hzero b (List.mem_cons_of_mem a hb)) h

end Volume

/-! ## The first byte of a name -/

theorem name83Loop_zero (name : List UInt8) (i : ℕ) (buf : ℕ → UInt8) (hi : 0 < i) :
    name83Loop name i buf 0 = buf 0 := by
  induction name generalizing i buf with
  | nil => rfl
  | cons c name ih =>
      rw [name83Loop]
      split_ifs
      · rfl
      · exact ih 8 buf (by decide)
      · rw [ih (i + 1) _ (Nat.succ_pos i), Function.update_of_ne (Nat.ne_of_lt hi)]

/-- The first byte that `NameIsEqual` looks for is a blank or comes from the name. -/
theorem name83_eq_cons (name : List UInt8) :
    ∃ b bs, name83 name = b :: bs ∧
      (b = space ∨ ∃ c, name.head? = some c ∧ c ≠ dot ∧ b = toupper c) := by
  refine ⟨name83Loop name 0 (fun _ ↦ space) 0, _, rfl, ?_⟩
  cases name with
  | nil => exact .inl rfl
  | cons c name =>
      rw [name83Loop, if_neg (by decide)]
      split_ifs with hc
      · exact .inl (name83Loop_zero name 8 _ (by decide))
      · rw [name83Loop_zero name 1 _ (by decide), Function.update_self]
        exact .inr ⟨c, rfl, hc, rfl⟩

theorem Volume.mem_ne_of_entryName {v : Volume} {x : ℕ} {name : List UInt8} {b : UInt8}
    (h : v.entryName x = name83 name) (hspace : b ≠ space) (hb : b < 0x41 ∨ 0x5a < b)
    (hname : name.head? = some b → b = dot) : v.mem x ≠ b := by
  obtain ⟨b', bs, hbytes, hhead⟩ := name83_eq_cons name
  rw [hbytes] at h
  rw [Volume.mem_eq_of_entryName h]
  rintro rfl
  rcases hhead with hblank | ⟨c, hc, hdot, heq⟩
  · exact hspace hblank
  · obtain rfl := eq_of_toupper_eq heq.symm hb
    exact hdot (hname hc)

/-! ## The directories of a volume -/

/-- An entry in use of the directory at cluster `d`. -/
structure EntryOf (v : Volume) (bound d x : ℕ) : Prop where
  inUse : ∃ chain, FileChain v bound (d :: chain) ∧
    x ∈ (v.slots (d :: chain)).takeWhile fun a ↦ decide (v.mem a ≠ 0)
  live : v.mem x ≠ deleted

/-- An entry that leads to another directory.  The entries `.` and `..` lead back. -/
structure SubdirOf (v : Volume) (bound d x : ℕ) : Prop extends EntryOf v bound d x where
  attr : v.entryAttr x = kDirectory
  named : v.mem x ≠ dot

/-- The directories that are reached from the root. -/
inductive IsDir (v : Volume) (bound : ℕ) : ℕ → Prop where
  | root : IsDir v bound v.rootCluster
  | sub {d x : ℕ} (hd : IsDir v bound d) (hx : SubdirOf v bound d x) :
      IsDir v bound (v.firstCluster x)

structure WellFormed (v : Volume) (bound : ℕ) : Prop where
  geometry : Geometry v.bpb bound
  entries : 32 ≤ v.bytesPerCluster
  linked : ∀ {d : ℕ}, IsDir v bound d → ∃ chain, FileChain v bound (d :: chain)
  disjoint : ∀ {d d' : ℕ} {chain chain' : List ℕ}, IsDir v bound d → IsDir v bound d' → d ≠ d' →
    FileChain v bound (d :: chain) → FileChain v bound (d' :: chain') →
    ∀ c ∈ d :: chain, c ∉ d' :: chain'
  notRoot : ∀ {d x : ℕ}, IsDir v bound d → SubdirOf v bound d x →
    v.firstCluster x ≠ v.rootCluster
  named : ∀ {d x : ℕ}, IsDir v bound d → SubdirOf v bound d x →
    v.entryName x ≠ List.replicate 11 space

/-- A path whose elements fit in the buffer of `FindFile`. -/
structure Path where
  bytes : List UInt8
  nonNul : (0 : UInt8) ∉ bytes
  short : ∀ elem ∈ pathElements bytes, elem.length ≤ 12

/-- No element has the first byte of a deleted name. -/
def Live (path : List UInt8) : Prop := ∀ elem ∈ pathElements path, elem.head? ≠ some deleted

instance (path : List UInt8) : Decidable (Live path) :=
  inferInstanceAs (Decidable (∀ elem ∈ pathElements path, elem.head? ≠ some deleted))

namespace Live

variable {path : List UInt8}

theorem startOf (h : Live path) (v : Volume) (d : ℕ) : Live (v.startOf path d).1 := by
  rw [Volume.startOf]
  split_ifs with hslash
  · obtain ⟨tail, rfl⟩ := List.head?_eq_some_iff.mp hslash
    intro elem helem
    exact h elem (pathElements_append [] tail ▸ List.mem_cons_of_mem [] helem)
  · exact h
  · exact h

theorem next {rest : List UInt8} (h : Live path) (hnext : (nextPathElement path).2 = some rest) :
    Live rest :=
  fun elem helem ↦ h elem (pathElements_next hnext elem helem)

theorem head (h : Live path) : (nextPathElement path).1.head? ≠ some deleted :=
  h _ (head_mem_pathElements path)

end Live

theorem IsDir.start {v : Volume} {bound d : ℕ} (hd : d = 0 ∨ IsDir v bound d)
    (path : List UInt8) : IsDir v bound (v.startOf path d).2 := by
  rw [Volume.startOf]
  split_ifs with hslash hzero
  · exact .root
  · exact .root
  · exact hd.resolve_left hzero

namespace WellFormed

variable {v : Volume} {bound : ℕ}

theorem searchDirectory (h : WellFormed v bound) {d : ℕ} {chain : List ℕ}
    (hchain : FileChain v bound (d :: chain)) (name : List UInt8) :
    v.searchDirectory name bound d = some (v.search name (v.slots (d :: chain))).entry := by
  have hlen := hchain.length_le
  rw [List.length_cons] at hlen
  exact searchDirectory_eq h.geometry name chain d bound hchain (by omega)

/-- What `FindFile` finds in a directory, for a name that is not a deleted one. -/
theorem entryOf_of_search (h : WellFormed v bound) {d x : ℕ} (hd : IsDir v bound d)
    {name : List UInt8} (hlive : name.head? ≠ some deleted)
    (hsearch : v.searchDirectory name bound d = some (some x)) :
    EntryOf v bound d x ∧ v.entryName x = name83 name ∧ v.mem x ≠ dot := by
  obtain ⟨chain, hchain⟩ := h.linked hd
  rw [h.searchDirectory hchain] at hsearch
  obtain ⟨hmem, hname⟩ := Volume.search_found (Option.some.inj hsearch)
  refine ⟨⟨⟨chain, hchain, hmem⟩, ?_⟩, hname, ?_⟩
  · exact Volume.mem_ne_of_entryName hname (by decide) (by decide) fun hhead ↦
      absurd hhead hlive
  · exact Volume.mem_ne_of_entryName hname (by decide) (by decide) fun _ ↦ rfl

/-- What a path leads to is an entry of a directory. -/
theorem findFile_entryOf (h : WellFormed v bound) (n : ℕ) :
    ∀ {path : List UInt8} {d x : ℕ} {post : Bool}, path.length < n → Live path →
      d = 0 ∨ IsDir v bound d → v.findFile bound path d = some (some x, post) →
      ∃ d', IsDir v bound d' ∧ EntryOf v bound d' x ∧ v.mem x ≠ dot := by
  induction n with
  | zero =>
      intro path d x post hn
      omega
  | succ n ih =>
      intro path d x post hn hlive hd hfind
      have hstart := IsDir.start hd path
      have hlive' := hlive.startOf v d
      obtain ⟨entry, hsearch, hcont⟩ := Volume.findFile_found hfind
      obtain ⟨hentry, hname, hdot⟩ := h.entryOf_of_search hstart hlive'.head hsearch
      obtain ⟨rfl, -, -⟩ | ⟨rfl, -, -⟩ | ⟨next, -, hnext, hdir, hdeep⟩ | ⟨-, -, -, -, rfl, -⟩ :=
        Volume.continueWith_cases hcont
      · exact ⟨_, hstart, hentry, hdot⟩
      · exact ⟨_, hstart, hentry, hdot⟩
      · have hlt := Volume.length_next_lt hnext
        exact ih (by omega) (hlive'.next hnext)
          (.inr (.sub hstart ⟨hentry, hdir, hdot⟩)) hdeep
      · exact ⟨_, hstart, hentry, hdot⟩

/-- The flag of a directory says whether the path ends with a slash. -/
theorem post_iff (h : WellFormed v bound) (n : ℕ) :
    ∀ {path : List UInt8} {d x : ℕ} {post : Bool}, path.length < n → Live path →
      d = 0 ∨ IsDir v bound d → v.findFile bound path d = some (some x, post) →
      v.entryAttr x = kDirectory → (post = true ↔ path.getLast? = some slash) := by
  induction n with
  | zero =>
      intro path d x post hn
      omega
  | succ n ih =>
      intro path d x post hn hlive hd hfind hattr
      have hstart := IsDir.start hd path
      have hlive' := hlive.startOf v d
      obtain ⟨entry, hsearch, hcont⟩ := Volume.findFile_found hfind
      obtain ⟨hentry, hname, hdot⟩ := h.entryOf_of_search hstart hlive'.head hsearch
      obtain ⟨rfl, hnext, rfl⟩ | ⟨rfl, hnext, rfl⟩ | ⟨next, hne, hnext, hdir, hdeep⟩ |
        ⟨-, -, -, hdir, rfl, -⟩ := Volume.continueWith_cases hcont
      · obtain ⟨helem, hslash⟩ := nextPathElement_none hnext
        have hne : (v.startOf path d).1 ≠ [] := by
          intro hnil
          rw [helem, hnil] at hname
          exact h.named hstart ⟨hentry, hattr, hdot⟩ hname
        rw [← Volume.getLast?_startOf hne]
        refine ⟨nofun, fun hlast ↦ ?_⟩
        exact absurd (List.mem_of_getLast? hlast) hslash
      · have hpath := nextPathElement_some hnext
        have hne : (v.startOf path d).1 ≠ [] := by
          rw [hpath]
          exact List.append_ne_nil_of_right_ne_nil _ (List.cons_ne_nil _ _)
        rw [← Volume.getLast?_startOf hne, hpath, List.getLast?_concat]
        exact ⟨fun _ ↦ rfl, fun _ ↦ rfl⟩
      · have hpath := nextPathElement_some hnext
        have hlt := Volume.length_next_lt hnext
        have hne' : (v.startOf path d).1 ≠ [] := by
          rw [hpath]
          exact List.append_ne_nil_of_right_ne_nil _ (List.cons_ne_nil _ _)
        rw [ih (by omega) (hlive'.next hnext) (.inr (.sub hstart ⟨hentry, hdir, hdot⟩)) hdeep
          hattr, ← Volume.getLast?_startOf hne', hpath, List.getLast?_append_of_ne_nil _
          (List.cons_ne_nil _ _), List.getLast?_cons_of_ne_nil hne]
      · exact absurd hattr hdir

end WellFormed

end Fat
end MinOS
