import MinOS.Fat.RoundTrip
import MinOS.Fat.WellFormed

/-!
# Creating and finding

What a new entry changes for `FindFile`: it is found under its path, and no old
entry is hidden, when the two encodings of its name agree.
-/

namespace MinOS
namespace Fat

open ByteMemory

/-! ## Old entries behind a new one -/

namespace Created

variable {v v' : Volume} {bound entry : ℕ} {chain chain' : List ℕ} {name : List UInt8}

theorem geometry (h : Created v v' bound chain chain' entry name) (hg : Geometry v.bpb bound) :
    Geometry v'.bpb bound := by
  rwa [h.bpb]

theorem entry_same (h : Created v v' bound chain chain' entry name) {chain₁ : List ℕ}
    (h₁ : FileChain v bound chain₁) {a : ℕ} (ha : a ∈ v.slots chain₁) (hne : a ≠ entry) :
    (v'.mem a = v.mem a ∧ v'.entryName a = v.entryName a) ∧
      v'.entryAttr a = v.entryAttr a ∧ v'.firstCluster a = v.firstCluster a := by
  obtain ⟨c, hc, hslot⟩ := Volume.mem_slots.mp ha
  have hsame := h.same (h₁.inRange c hc) (h₁.fatEntry_ne_zero hc) hslot hne
  refine ⟨⟨hsame a le_rfl (by omega), ?_⟩, hsame (a + 11) (by omega) (by omega), ?_⟩
  · exact readBytes_congr fun x hx hlt ↦ hsame x hx (by omega)
  · exact Volume.firstCluster_congr fun x hx hlt ↦ hsame x (by omega) (by omega)

theorem head_eq {D : ℕ} {tail : List ℕ} (h : Created v v' bound (D :: tail) chain' entry name) :
    ∃ tail', chain' = D :: tail' := by
  obtain ⟨tail', htail⟩ := List.head?_eq_some_iff.mp h.head
  exact ⟨tail', htail⟩

theorem searchDirectory_eq {D : ℕ} {tail : List ℕ} (hg : Geometry v.bpb bound)
    (h : Created v v' bound (D :: tail) chain' entry name) (n : List UInt8) :
    v'.searchDirectory n bound D = some (v'.search n (v.slots chain')).entry := by
  obtain ⟨tail', rfl⟩ := h.head_eq
  have hlen := h.linked.length_le
  rw [List.length_cons] at hlen
  rw [Fat.searchDirectory_eq (h.geometry hg) n tail' D bound h.linked (by omega),
    Volume.slots_congr h.bpb]

variable {D : ℕ} {tail : List ℕ} {n : List UInt8}

theorem free_entryName_ne (hfree : v.mem entry = 0 ∨ v.mem entry = deleted)
    (hnul : n.head? ≠ some 0) (hlive : n.head? ≠ some deleted) : v.entryName entry ≠ name83 n := by
  intro hname
  rcases hfree with hfree | hfree
  · exact Volume.mem_ne_of_entryName hname (by decide) (by decide) (fun hhead ↦ absurd hhead hnul)
      hfree
  · exact Volume.mem_ne_of_entryName hname (by decide) (by decide) (fun hhead ↦ absurd hhead hlive)
      hfree

theorem before_ne {before rest : List ℕ} (h : Created v v' bound (D :: tail) chain' entry name)
    (hD : FileChain v bound (D :: tail)) (hslots : v.slots (D :: tail) = before ++ rest)
    (hbefore : ∀ a ∈ before, v.mem a ≠ 0 ∧ v.mem a ≠ deleted) :
    ∀ a ∈ before, a ∈ v.slots (D :: tail) ∧ a ≠ entry := by
  intro a ha
  have hmem : a ∈ v.slots (D :: tail) := hslots ▸ List.mem_append_left _ ha
  obtain ⟨c, hc, hslot⟩ := Volume.mem_slots.mp hmem
  exact ⟨hmem, h.ne_entry (hD.inRange c hc) (hD.fatEntry_ne_zero hc) hslot (hbefore a ha).1
    (hbefore a ha).2⟩

theorem found_in_same (hg : Geometry v.bpb bound)
    (h : Created v v' bound (D :: tail) chain' entry name) (hD : FileChain v bound (D :: tail))
    (hnul : n.head? ≠ some 0) (hlive : n.head? ≠ some deleted) (hnew : fileName83 name ≠ name83 n)
    {x : ℕ} (hfound : (v.search n (v.slots (D :: tail))).entry = some x) :
    v'.searchDirectory n bound D = some (some x) := by
  obtain ⟨before, after, rest, hslots', hslots, hbefore, hrest⟩ := h.split
  rw [h.searchDirectory_eq hg, hslots']
  rw [hslots] at hfound
  rcases hrest with rfl | ⟨rfl, hfree⟩
  · -- the directory was full and the entry is in a new cluster
    rw [List.append_nil] at hfound
    have hsame : v'.search n before = v.search n before := Volume.search_congr fun a ha ↦ by
      obtain ⟨hmem, hne⟩ := h.before_ne hD hslots hbefore a ha
      exact (h.entry_same hD hmem hne).1
    rw [Volume.search_append, hsame]
    cases hs : v.search n before with
    | found y =>
        rw [hs] at hfound
        exact congrArg some hfound
    | endMark => rw [hs] at hfound; cases hfound
    | exhausted => rw [hs] at hfound; cases hfound
  · refine congrArg some (Volume.search_found_of_changed h.mem_ne_zero ?_
      (free_entryName_ne hfree hnul hlive) ?_ hfound)
    · rwa [h.entryName]
    · intro a ha hne
      exact (h.entry_same hD (hslots ▸ ha) hne).1

theorem found_new (hg : Geometry v.bpb bound)
    (h : Created v v' bound (D :: tail) chain' entry name) (hD : FileChain v bound (D :: tail))
    (hname : fileName83 name = name83 n)
    (hnone : (v.search n (v.slots (D :: tail))).entry = none) :
    v'.searchDirectory n bound D = some (some entry) := by
  obtain ⟨before, after, rest, hslots', hslots, hbefore, -⟩ := h.split
  have hsame : v'.search n before = v.search n before := Volume.search_congr fun a ha ↦ by
    obtain ⟨hmem, hne⟩ := h.before_ne hD hslots hbefore a ha
    exact (h.entry_same hD hmem hne).1
  have hexh : v.search n before = .exhausted := by
    refine Volume.search_exhausted (fun a ha ↦ (hbefore a ha).1) ?_
    rw [hslots, Volume.search_append] at hnone
    cases hs : v.search n before with
    | found y => rw [hs] at hnone; cases hnone
    | endMark => rfl
    | exhausted => rfl
  rw [h.searchDirectory_eq hg, hslots', Volume.search_append, hsame, hexh]
  dsimp only [Volume.Search.andThen]
  rw [Volume.search, if_neg h.mem_ne_zero, if_pos (Volume.nameIsEqual_iff.mpr
    (h.entryName.trans hname))]
  rfl

/-- The new entry is in no other directory. -/
theorem ne_of_other (hg : Geometry v.bpb bound)
    (h : Created v v' bound (D :: tail) chain' entry name) {chain₁ : List ℕ}
    (h₁ : FileChain v bound chain₁) (hdisj : ∀ c ∈ chain₁, c ∉ D :: tail) {a : ℕ}
    (ha : a ∈ v.slots chain₁) : a ≠ entry := by
  rintro rfl
  obtain ⟨c, hc, hslot⟩ := Volume.mem_slots.mp ha
  obtain ⟨c', hc', hslot'⟩ := Volume.mem_slots.mp h.mem
  have hrange := h₁.inRange c hc
  have hrange' := h.linked.inRange c' hc'
  have heq : c = c' := Volume.InCluster.unique hg hrange.1 hrange.2 hrange'.1 hrange'.2
    (Volume.inCluster_of_slot hslot le_rfl (by omega))
    (Volume.inCluster_of_slot hslot' le_rfl (by omega))
  exact (h.other h₁ hdisj).2 c hc (heq ▸ hc')

theorem searchDirectory_other (hg : Geometry v.bpb bound)
    (h : Created v v' bound (D :: tail) chain' entry name) {d : ℕ} {tail₁ : List ℕ}
    (h₁ : FileChain v bound (d :: tail₁)) (hdisj : ∀ c ∈ d :: tail₁, c ∉ D :: tail) :
    v'.searchDirectory n bound d = some (v.search n (v.slots (d :: tail₁))).entry := by
  have hlen := h₁.length_le
  rw [List.length_cons] at hlen
  rw [Fat.searchDirectory_eq (h.geometry hg) n tail₁ d bound (h.other h₁ hdisj).1 (by omega),
    Volume.slots_congr h.bpb]
  congr 2
  apply Volume.search_congr
  intro a ha
  exact (h.entry_same h₁ ha (h.ne_of_other hg h₁ hdisj ha)).1

end Created

/-- Every path that led to an entry still leads to it, if each directory still has what it had,
and its subdirectories are where they were. -/
theorem findFile_of_search_kept {v v' : Volume} {bound : ℕ} (hwf : WellFormed v bound)
    (hbpb : v'.bpb = v.bpb)
    (hkeeps : ∀ {n : List UInt8} {d x : ℕ}, n.head? ≠ some 0 → n.head? ≠ some deleted →
      IsDir v bound d → v.searchDirectory n bound d = some (some x) →
      v'.searchDirectory n bound d = some (some x))
    (hentries : ∀ {d x : ℕ}, IsDir v bound d → EntryOf v bound d x →
      v'.entryAttr x = v.entryAttr x ∧
        (v.entryAttr x = kDirectory → v'.firstCluster x = v.firstCluster x)) (k : ℕ) :
    ∀ {path : List UInt8} {d x : ℕ} {post : Bool}, path.length < k → Live path →
      (0 : UInt8) ∉ path → d = 0 ∨ IsDir v bound d →
      v.findFile bound path d = some (some x, post) →
      v'.findFile bound path d = some (some x, post) := by
  induction k with
  | zero =>
      intro path d x post hk
      omega
  | succ k ih =>
      intro path d x post hk hlive hnul hd hfind
      have hstart := IsDir.start hd path
      have hlive' := hlive.startOf v d
      obtain ⟨y, hsearch, hcont⟩ := Volume.findFile_found hfind
      obtain ⟨hentry, -, hdot⟩ := hwf.entryOf_of_search hstart hlive'.head hsearch
      obtain ⟨hattr, hfirst⟩ := hentries hstart hentry
      have hhead : (nextPathElement (v.startOf path d).1).1.head? ≠ some 0 := fun hzero ↦
        hnul (Volume.mem_of_mem_startOf (mem_of_mem_nextPathElement (List.mem_of_head? hzero)))
      have hkept := hkeeps hhead hlive'.head hstart hsearch
      rw [← Volume.startOf_congr hbpb] at hkept hcont
      rw [Volume.findFile_of_search hkept]
      obtain ⟨rfl, hnext, rfl⟩ | ⟨rfl, hnext, rfl⟩ | ⟨next, hne, hnext, hdir, hdeep⟩ |
        ⟨next, hne, hnext, hdir, rfl, rfl⟩ := Volume.continueWith_cases hcont
      · rw [hnext]
        rfl
      · rw [hnext]
        rfl
      · have hlt := Volume.length_next_lt hnext
        rw [hnext, Volume.continueWith_slash _ _ _ _ hne, hattr, if_pos hdir, hfirst hdir]
        rw [Volume.startOf_congr hbpb] at hnext
        have hnul' : (0 : UInt8) ∉ next := fun hmem ↦ hnul (Volume.mem_of_mem_startOf (by
          rw [nextPathElement_some hnext]
          exact List.mem_append_right _ (List.mem_cons_of_mem _ hmem)))
        exact ih (by omega) (hlive'.next hnext) hnul' (.inr (.sub hstart ⟨hentry, hdir, hdot⟩))
          hdeep
      · rw [hnext, Volume.continueWith_slash _ _ _ _ hne, hattr, if_neg hdir]

section Kept

variable {v v' : Volume} {bound entry D : ℕ} {tail chain' : List ℕ} {name : List UInt8}

theorem Created.entryOf_same (h : Created v v' bound (D :: tail) chain' entry name) {d x : ℕ}
    (hx : EntryOf v bound d x) :
    v'.entryAttr x = v.entryAttr x ∧ v'.firstCluster x = v.firstCluster x := by
  obtain ⟨chain, hchain, huse⟩ := hx.inUse
  have hmem := (List.takeWhile_prefix _).subset huse
  have hzero : v.mem x ≠ 0 := by simpa using List.mem_takeWhile_imp huse
  obtain ⟨c, hc, hslot⟩ := Volume.mem_slots.mp hmem
  have hne := h.ne_entry (hchain.inRange c hc) (hchain.fatEntry_ne_zero hc) hslot hzero hx.live
  exact (h.entry_same hchain hmem hne).2

variable (hwf : WellFormed v bound) (hD : IsDir v bound D)
  (hchain : FileChain v bound (D :: tail))
  (h : Created v v' bound (D :: tail) chain' entry name)
  (hnew : ∀ {n : List UInt8} {x : ℕ}, fileName83 name = name83 n →
    v.searchDirectory n bound D ≠ some (some x))

include hwf hD hchain h hnew

theorem search_kept {n : List UInt8} (hnul : n.head? ≠ some 0) (hlive : n.head? ≠ some deleted)
    {d x : ℕ} (hd : IsDir v bound d) (hfound : v.searchDirectory n bound d = some (some x)) :
    v'.searchDirectory n bound d = some (some x) := by
  by_cases hdD : d = D
  · subst hdD
    have hne : fileName83 name ≠ name83 n := fun heq ↦ hnew heq hfound
    rw [hwf.searchDirectory hchain] at hfound
    exact h.found_in_same hwf.geometry hchain hnul hlive hne (Option.some.inj hfound)
  · obtain ⟨tail₁, h₁⟩ := hwf.linked hd
    rw [hwf.searchDirectory h₁] at hfound
    rw [h.searchDirectory_other hwf.geometry h₁ (hwf.disjoint hd hD hdD h₁ hchain), hfound]

/-- Every path that led to an entry still leads to it. -/
theorem findFile_kept (k : ℕ) :
    ∀ {path : List UInt8} {d x : ℕ} {post : Bool}, path.length < k → Live path →
      (0 : UInt8) ∉ path → d = 0 ∨ IsDir v bound d →
      v.findFile bound path d = some (some x, post) →
      v'.findFile bound path d = some (some x, post) :=
  findFile_of_search_kept hwf h.bpb
    (fun hnul hlive hd hfound ↦ search_kept hwf hD hchain h hnew hnul hlive hd hfound)
    (fun _ hx ↦ ⟨(h.entryOf_same hx).1, fun _ ↦ (h.entryOf_same hx).2⟩) k

end Kept

/-! ## Creating a file and finding it -/

/-- The part of a path before its last slash. -/
def parentDirName (path : List UInt8) : List UInt8 :=
  match splitLast slash path with
  | some (parent, _) => parent
  | none => []

/-- The part of a path behind its last slash. -/
def filename (path : List UInt8) : List UInt8 :=
  match splitLast slash path with
  | some (_, name) => name
  | none => path

theorem splitLast_cases (path : List UInt8) :
    (splitLast slash path = none ∧ parentDirName path = [] ∧ filename path = path) ∨
      splitLast slash path = some (parentDirName path, filename path) := by
  rw [parentDirName, filename]
  cases splitLast slash path with
  | none => exact .inl ⟨rfl, rfl, rfl⟩
  | some parts => exact .inr rfl

/-- `FindFile` returns the entry for the path. -/
def Volume.Finds (v : Volume) (bound : ℕ) (path : List UInt8) (x : ℕ) : Prop :=
  ∃ post, v.findFile bound path 0 = some (some x, post)

/-- The new file is found, and every old one is found as before. -/
def Agrees (v v' : Volume) (bound : ℕ) (p : Path) (e : ℕ) : Prop :=
  v'.Finds bound p.bytes e ∧
    ∀ q : Path, Live q.bytes → ∀ x, v.Finds bound q.bytes x → v'.Finds bound q.bytes x

/-- The directory in which `FindFile` looks for the last element of a path that
`CreateFile` puts in the directory `D`. -/
def Volume.searchedDir (v : Volume) (path : List UInt8) (D : ℕ) : ℕ :=
  if (parentDirName path).getLast? = some slash then v.rootCluster else D

/-- The volume `u` leads the parent of the path to the same directory as `v`. -/
def SameParent (v u : Volume) (bound : ℕ) (path : List UInt8) : Prop :=
  u.bpb = v.bpb ∧ ∀ x, v.Finds bound (parentDirName path) x → u.Finds bound (parentDirName path) x ∧
    u.entryAttr x = v.entryAttr x ∧ u.firstCluster x = v.firstCluster x

/-- `CreateFile` puts the last element of the path in the directory `D`, and this
is where `FindFile` looks for it, if no slash stands twice. -/
structure Resolved (v : Volume) (bound : ℕ) (path : List UInt8) (D : ℕ) : Prop where
  isDir : IsDir v bound D
  single : slash ∉ filename path
  notRoot : (parentDirName path).getLast? = some slash → D ≠ v.rootCluster
  search : ∀ u : Volume, SameParent v u bound path → u.findFile bound path 0 =
    (u.searchDirectory (filename path) bound (v.searchedDir path D)).map fun found ↦ (found, false)

section Resolve

variable {v : Volume} {bound D : ℕ} {path : List UInt8}

theorem WellFormed.ne_zero (h : WellFormed v bound) {d : ℕ} (hd : IsDir v bound d) : d ≠ 0 := by
  obtain ⟨chain, hchain⟩ := h.linked hd
  have hrange := hchain.inRange d List.mem_cons_self
  omega

theorem rootCluster_congr {u : Volume} (h : u.bpb = v.bpb) : u.rootCluster = v.rootCluster := by
  rw [Volume.rootCluster, h, Volume.rootCluster]

/-- A path without a parent. -/
theorem resolved_root (hparent : parentDirName path = []) (hslash : slash ∉ filename path)
    (hpath : path = filename path ∨ path = slash :: filename path) :
    Resolved v bound path v.rootCluster := by
  have hlast : (parentDirName path).getLast? ≠ some slash := by
    rw [hparent]
    exact nofun
  refine ⟨.root, hslash, fun h ↦ absurd h hlast, fun u hu ↦ ?_⟩
  rw [Volume.searchedDir, if_neg hlast, ← rootCluster_congr hu.1]
  rcases hpath with hpath | hpath
  · have hzero : u.findFile bound (filename path) 0 = _ := Volume.findFile_zero hslash
    rwa [← hpath] at hzero ⊢
  · have hfirst : u.findFile bound (slash :: filename path) 0 = _ := Volume.findFile_slash hslash 0
    rwa [← hpath] at hfirst

theorem resolved_parent (hwf : WellFormed v bound) (hlive : Live (parentDirName path))
    (hne : parentDirName path ≠ []) (hname : filename path ≠ []) (hslash : slash ∉ filename path)
    (hpath : path = parentDirName path ++ slash :: filename path) {post : Bool}
    (hnone : v.findFile bound path 0 = some (none, post)) {x : ℕ} {post' : Bool}
    (hfind : v.findFile bound (parentDirName path) 0 = some (some x, post')) :
    Resolved v bound path (v.firstCluster x) := by
  have hlt := Nat.lt_succ_self (parentDirName path).length
  obtain ⟨d, hd, hx, hdot⟩ := hwf.findFile_entryOf _ hlt hlive (.inl rfl) hfind
  have hdir : v.entryAttr x = kDirectory := by
    by_contra hdir
    have happend := Volume.findFile_append hname _ hlt hne hfind
    rw [← hpath, if_neg hdir, hnone] at happend
    cases happend
  have hpost := hwf.post_iff _ hlt hlive (.inl rfl) hfind hdir
  have hsub : SubdirOf v bound d x := ⟨hx, hdir, hdot⟩
  have hisDir := IsDir.sub hd hsub
  refine ⟨hisDir, hslash, fun _ ↦ hwf.notRoot hd hsub, fun u hu ↦ ?_⟩
  obtain ⟨⟨post₁, hfind'⟩, hattr, hfirst⟩ := hu.2 x ⟨post', hfind⟩
  have hdir' : u.entryAttr x = kDirectory := hattr.trans hdir
  obtain rfl := Volume.post_eq_of_directories _ hlt hfind hdir hfind' hdir'
  have happend := Volume.findFile_append hname _ hlt hne hfind'
  rw [← hpath, if_pos hdir', hfirst] at happend
  rw [happend, Volume.searchedDir]
  by_cases hlast : (parentDirName path).getLast? = some slash
  · rw [if_pos hlast, hpost.mpr hlast, if_pos rfl, Volume.findFile_slash hslash,
      rootCluster_congr hu.1]
  · rw [if_neg hlast, if_neg (mt hpost.mp hlast), Volume.findFile_single hslash
      (hwf.ne_zero hisDir)]

theorem parentOf_eq {parent name : List UInt8} (hsplit : splitLast slash path = some (parent, name))
    (hname : name ≠ []) :
    v.parentOf bound path =
      if parent = [] then some (.ok (v.rootCluster, name))
      else (v.findFile bound parent 0).bind fun found ↦
        match found.1 with
        | none => some (.error .kNoSuchEntry)
        | some parentDir => some (.ok (v.firstCluster parentDir, name)) := by
  obtain ⟨c, name, rfl⟩ := List.exists_cons_of_ne_nil hname
  rw [Volume.parentOf, hsplit]
  cases parent <;> rfl

/-- Where `CreateFile` puts the file, and where `FindFile` looks for it. -/
theorem resolved_of_parentOf (hwf : WellFormed v bound) (hlive : Live (parentDirName path))
    {post : Bool} (hnone : v.findFile bound path 0 = some (none, post)) {name : List UInt8}
    (hparent : v.parentOf bound path = some (.ok (D, name))) :
    name = filename path ∧ Resolved v bound path D := by
  rcases splitLast_cases path with ⟨hsplit, hdir, hfile⟩ | hsplit
  · rw [Volume.parentOf, hsplit] at hparent
    obtain ⟨rfl, rfl⟩ := Prod.mk.inj (Except.ok.inj (Option.some.inj hparent))
    have hslash := notMem_of_splitLast hsplit
    exact ⟨hfile.symm, resolved_root hdir (by rwa [hfile]) (.inl hfile.symm)⟩
  · have hslash := notMem_after_splitLast hsplit
    have hpath := splitLast_eq hsplit
    by_cases hname : filename path = []
    · rw [Volume.parentOf, hsplit, hname] at hparent
      cases hparent
    · rw [parentOf_eq hsplit hname] at hparent
      split_ifs at hparent with hdir
      · obtain ⟨rfl, rfl⟩ := Prod.mk.inj (Except.ok.inj (Option.some.inj hparent))
        rw [hdir, List.nil_append] at hpath
        exact ⟨rfl, resolved_root hdir hslash (.inr hpath)⟩
      · obtain ⟨⟨found, post'⟩, hfind, hres⟩ := Option.bind_eq_some_iff.mp hparent
        cases found with
        | none => cases hres
        | some x =>
            obtain ⟨rfl, rfl⟩ := Prod.mk.inj (Except.ok.inj (Option.some.inj hres))
            exact ⟨rfl, resolved_parent hwf hlive hdir hname hslash hpath hnone hfind⟩

end Resolve

section Agreement

variable {v v' : Volume} {bound e : ℕ} {p : Path}

theorem mem_of_mem_filename {path : List UInt8} {c : UInt8} (h : c ∈ filename path) : c ∈ path := by
  rcases splitLast_cases path with ⟨-, -, hfile⟩ | hsplit
  · rwa [hfile] at h
  · rw [splitLast_eq hsplit]
    exact List.mem_append_right _ (List.mem_cons_of_mem _ h)

/-- The parent of a path is a path. -/
def Path.parent (p : Path) : Path where
  bytes := parentDirName p.bytes
  nonNul := by
    rcases splitLast_cases p.bytes with ⟨-, hdir, -⟩ | hsplit
    · rw [hdir]
      exact List.not_mem_nil
    · have hnul := p.nonNul
      rw [splitLast_eq hsplit, List.mem_append, not_or] at hnul
      exact hnul.1
  short := by
    rcases splitLast_cases p.bytes with ⟨-, hdir, -⟩ | hsplit
    · rw [hdir]
      simp [pathElements]
    · intro elem helem
      apply p.short
      rw [splitLast_eq hsplit, pathElements_append]
      exact List.mem_append_left _ helem

/-- The new entry of `CreateFile`, for a path whose parent is not a deleted directory. -/
theorem created_of_createFile (hwf : WellFormed v bound) (hlive : Live (parentDirName p.bytes))
    {post : Bool} (hnone : v.findFile bound p.bytes 0 = some (none, post))
    (hcreate : v.createFile bound (bound - 2) p.bytes = some (.ok e, v')) :
    ∃ D tail chain', Resolved v bound p.bytes D ∧ FileChain v bound (D :: tail) ∧
      Created v v' bound (D :: tail) chain' e (filename p.bytes) ∧
        NewEntry v v' bound e (D :: tail) chain' := by
  obtain ⟨parent, hparent, hrest⟩ := Option.bind_eq_some_iff.mp hcreate
  cases parent with
  | error err => cases hrest
  | ok parent =>
      obtain ⟨alloc, halloc, hres⟩ := Option.bind_eq_some_iff.mp hrest
      obtain ⟨he, rfl⟩ := Prod.mk.inj (Option.some.inj hres)
      obtain rfl := Except.ok.inj he
      obtain ⟨D, name⟩ := parent
      obtain ⟨rfl, hresolved⟩ := resolved_of_parentOf hwf hlive hnone hparent
      obtain ⟨tail, hchain⟩ := hwf.linked hresolved.isDir
      have hnul : (0 : UInt8) ∉ filename p.bytes := fun hmem ↦ p.nonNul (mem_of_mem_filename hmem)
      obtain ⟨chain', hcreated, hentry⟩ :=
        created_of_allocateEntry hwf.geometry hwf.entries hchain hnul halloc
      exact ⟨D, tail, chain', hresolved, hchain, hcreated, hentry⟩

theorem Volume.search_name_congr {m n : List UInt8} (h : name83 m = name83 n) (l : List ℕ) :
    v.search m l = v.search n l := by
  induction l with
  | nil => rfl
  | cons a l ih => rw [Volume.search, Volume.search, Volume.nameIsEqual, Volume.nameIsEqual, h, ih]

theorem sameParent_of_kept (hwf : WellFormed v bound) (hlive : Live (parentDirName p.bytes))
    {D : ℕ} {tail chain' : List ℕ}
    (hcre : Created v v' bound (D :: tail) chain' e (filename p.bytes))
    (hkept : ∀ x, v.Finds bound (parentDirName p.bytes) x →
      v'.Finds bound (parentDirName p.bytes) x) : SameParent v v' bound p.bytes := by
  refine ⟨hcre.bpb, fun x hx ↦ ⟨hkept x hx, ?_⟩⟩
  obtain ⟨post, hx⟩ := hx
  obtain ⟨d, -, hentry, -⟩ := hwf.findFile_entryOf _ (Nat.lt_succ_self _) hlive (.inl rfl) hx
  exact hcre.entryOf_same hentry

/-- With two encodings that agree the new file hides no other and is found. -/
theorem agrees_of_names (hwf : WellFormed v bound)
    (hnone : ∃ post, v.findFile bound p.bytes 0 = some (none, post))
    (hcreate : v.createFile bound (bound - 2) p.bytes = some (.ok e, v'))
    (hnames : fileName83 (filename p.bytes) = name83 (filename p.bytes))
    (hslash : (parentDirName p.bytes).getLast? ≠ some slash)
    (hlive : Live (parentDirName p.bytes)) : Agrees v v' bound p e := by
  obtain ⟨post, hnone⟩ := hnone
  obtain ⟨D, tail, chain', hres, hchain, hcre, -⟩ := created_of_createFile hwf hlive hnone hcreate
  have hdir : v.searchedDir p.bytes D = D := if_neg hslash
  have hsearch := hres.search v ⟨rfl, fun x hx ↦ ⟨hx, rfl, rfl⟩⟩
  rw [hdir, hwf.searchDirectory hchain, hnone] at hsearch
  have hempty : (v.search (filename p.bytes) (v.slots (D :: tail))).entry = none :=
    (Prod.mk.inj (Option.some.inj hsearch)).1.symm
  have hnew : ∀ {n : List UInt8} {x : ℕ}, fileName83 (filename p.bytes) = name83 n →
      v.searchDirectory n bound D ≠ some (some x) := by
    intro n x hn hfound
    rw [hwf.searchDirectory hchain, ← Volume.search_name_congr (hnames.symm.trans hn), hempty]
      at hfound
    cases hfound
  have hkept {q : List UInt8} (hq : Live q) (hnul : (0 : UInt8) ∉ q) {x : ℕ}
      (hx : v.Finds bound q x) : v'.Finds bound q x := by
    obtain ⟨post, hx⟩ := hx
    exact ⟨post, findFile_kept hwf hres.isDir hchain hcre hnew _ (Nat.lt_succ_self _) hq hnul
      (.inl rfl) hx⟩
  have hsame : SameParent v v' bound p.bytes :=
    sameParent_of_kept hwf hlive hcre fun x hx ↦ hkept hlive p.parent.nonNul hx
  refine ⟨⟨false, ?_⟩, fun q hq x hx ↦ hkept hq q.nonNul hx⟩
  rw [hres.search v' hsame, hdir, hcre.found_new hwf.geometry hchain hnames hempty]
  rfl

/-- A new file that is found and hides no other has a name on which the two
encodings agree. -/
theorem names_of_agrees (hwf : WellFormed v bound)
    (hnone : ∃ post, v.findFile bound p.bytes 0 = some (none, post))
    (hcreate : v.createFile bound (bound - 2) p.bytes = some (.ok e, v'))
    (hlive : Live (parentDirName p.bytes)) (hagrees : Agrees v v' bound p e) :
    fileName83 (filename p.bytes) = name83 (filename p.bytes) ∧
      (parentDirName p.bytes).getLast? ≠ some slash := by
  obtain ⟨post, hnone⟩ := hnone
  obtain ⟨D, tail, chain', hres, hchain, hcre, -⟩ := created_of_createFile hwf hlive hnone hcreate
  obtain ⟨⟨post', hfound⟩, hold⟩ := hagrees
  have hsame : SameParent v v' bound p.bytes := sameParent_of_kept hwf hlive hcre (hold p.parent hlive)
  rw [hres.search v' hsame] at hfound
  obtain ⟨found, hsearch, heq⟩ := Option.map_eq_some_iff.mp hfound
  obtain ⟨rfl, -⟩ := Prod.mk.inj heq
  by_cases hslash : (parentDirName p.bytes).getLast? = some slash
  · -- the root is searched, and the new entry is in another directory
    have hdir : v.searchedDir p.bytes D = v.rootCluster := if_pos hslash
    obtain ⟨tail₁, h₁⟩ := hwf.linked .root
    have hdisj := hwf.disjoint .root hres.isDir (hres.notRoot hslash).symm h₁ hchain
    rw [hdir, hcre.searchDirectory_other hwf.geometry h₁ hdisj] at hsearch
    obtain ⟨hmem, -⟩ := Volume.search_found (Option.some.inj hsearch)
    exact absurd rfl (hcre.ne_of_other hwf.geometry h₁ hdisj ((List.takeWhile_prefix _).subset hmem))
  · refine ⟨?_, hslash⟩
    have hdir : v.searchedDir p.bytes D = D := if_neg hslash
    rw [hdir, hcre.searchDirectory_eq hwf.geometry] at hsearch
    obtain ⟨-, hname⟩ := Volume.search_found (Option.some.inj hsearch)
    exact hcre.entryName.symm.trans hname

end Agreement

/-! ## The empty volume -/

theorem sampleVolume_slots (chain : List ℕ) :
    ∃ rest, sampleVolume.slots (2 :: chain) = sampleEntry :: rest := by
  have haddr : sampleVolume.getClusterAddr 2 = sampleEntry := by
    rw [Volume.getClusterAddr_eq sampleVolume_geometry (by decide) (by decide)]
    decide
  obtain ⟨rest, hrest⟩ := Volume.clusterSlots_cons (v := sampleVolume) (by decide) 2
  rw [Volume.slots, List.flatMap_cons, hrest, haddr]
  exact ⟨_, rfl⟩

theorem sampleVolume_chain : FileChain sampleVolume 16 [2] := by
  refine ⟨?_, by decide⟩
  show isEndOfClusterchain (sampleVolume.fatEntry 2) = true
  decide +kernel

theorem sampleVolume_isDir {d : ℕ} (hd : IsDir sampleVolume 16 d) : d = 2 := by
  induction hd with
  | root => decide
  | sub hd hx ih =>
      obtain ⟨chain, -, huse⟩ := hx.inUse
      obtain ⟨rest, hrest⟩ := sampleVolume_slots chain
      rw [ih, hrest, List.takeWhile_cons_of_neg (by decide)] at huse
      cases huse

theorem sampleVolume_not_subdirOf {d x : ℕ} (hd : IsDir sampleVolume 16 d) :
    ¬ SubdirOf sampleVolume 16 d x := by
  intro hx
  obtain ⟨chain, -, huse⟩ := hx.inUse
  obtain ⟨rest, hrest⟩ := sampleVolume_slots chain
  rw [sampleVolume_isDir hd, hrest, List.takeWhile_cons_of_neg (by decide)] at huse
  cases huse

theorem sampleVolume_wellFormed : WellFormed sampleVolume 16 where
  geometry := sampleVolume_geometry
  entries := by decide
  linked := fun hd ↦ ⟨[], sampleVolume_isDir hd ▸ sampleVolume_chain⟩
  disjoint := fun hd hd' hne ↦
    absurd ((sampleVolume_isDir hd).trans (sampleVolume_isDir hd').symm) hne
  notRoot := fun hd hx ↦ absurd hx (sampleVolume_not_subdirOf hd)
  named := fun hd hx ↦ absurd hx (sampleVolume_not_subdirOf hd)

section Sample

variable (name : List UInt8) (hname : splitLast slash name = none)

include hname

theorem sampleVolume_findFile : sampleVolume.findFile 16 name 0 = some (none, false) := by
  obtain ⟨rest, hrest⟩ := sampleVolume_slots []
  have hroot : sampleVolume.rootCluster = 2 := by decide
  rw [Volume.findFile_zero (notMem_of_splitLast hname), hroot,
    searchDirectory_eq sampleVolume_geometry name [] 2 16 sampleVolume_chain (by decide), hrest,
    Volume.search, if_pos (by decide)]
  rfl

theorem sampleVolume_createFile :
    sampleVolume.createFile 16 (16 - 2) name =
      some (.ok sampleEntry, sampleVolume.setEntry sampleEntry name) := by
  obtain ⟨rest, hrest⟩ := sampleVolume_slots []
  have hroot : sampleVolume.rootCluster = 2 := by decide
  rw [Volume.createFile, Volume.parentOf, hname]
  dsimp only [Option.bind_some]
  rw [hroot, Volume.allocateEntry, searchFreeEntry_eq sampleVolume_geometry [] 2 16
    sampleVolume_chain (by decide), hrest, List.find?_cons_of_pos (by decide)]
  rfl

end Sample

/-- `a.txt` -/
def shortName : Path where
  bytes := [0x61, 0x2e, 0x74, 0x78, 0x74]
  nonNul := by decide
  short := by decide

/-- `longfilename` -/
def longName : Path where
  bytes := [0x6c, 0x6f, 0x6e, 0x67, 0x66, 0x69, 0x6c, 0x65, 0x6e, 0x61, 0x6d, 0x65]
  nonNul := by decide
  short := by decide

end Fat
end MinOS
