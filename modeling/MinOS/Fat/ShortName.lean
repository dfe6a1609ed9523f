import Mathlib.Data.List.DropRight
import MinOS.Fat.Compose

/-!
# Short names

`ReadName` and `FormatName`, and how the string that they make of an entry's eleven
bytes is read back by `NameIsEqual` and `SetFileName`.
-/

namespace MinOS
namespace Fat

open ByteMemory

/-- The characters of an array before the first zero. -/
def cString (s : List UInt8) : List UInt8 := s.takeWhile fun c ↦ c ≠ 0

/-- The blanks at the end are replaced by zeros. -/
def withoutBlanks (s : List UInt8) : List UInt8 := s.rdropWhile fun c ↦ c = space

/-- `ReadName`: the base and the extension of the eleven bytes. -/
def readName (name : List UInt8) : List UInt8 × List UInt8 :=
  (cString (withoutBlanks (name.take 8)), cString (withoutBlanks (name.drop 8)))

def formatName (name : List UInt8) : List UInt8 :=
  let (base, ext) := readName name
  if ext ≠ [] then base ++ dot :: ext else base

/-! ## The encodings of a base and an extension -/

theorem writeBytes_update (mem : ℕ → UInt8) (addr : ℕ) (b : UInt8) (bytes : List UInt8) :
    writeBytes (Function.update mem addr b) (addr + 1) bytes = writeBytes mem addr (b :: bytes) := by
  funext x
  rcases Nat.lt_trichotomy x addr with hlt | rfl | hgt
  · rw [writeBytes_of_lt _ _ (by omega), writeBytes_of_lt _ _ hlt, Function.update_of_ne hlt.ne]
  · rw [writeBytes_of_lt _ _ (Nat.lt_succ_self x)]
    simp [writeBytes]
  · obtain ⟨k, rfl⟩ := Nat.exists_eq_add_of_lt hgt
    have hsub : addr + k + 1 - addr = k + 1 := by omega
    simp only [writeBytes, if_pos (show addr + 1 ≤ addr + k + 1 by omega),
      if_pos (show addr ≤ addr + k + 1 by omega), hsub, Function.update_of_ne hgt.ne']
    rw [show addr + k + 1 - (addr + 1) = k by omega, List.getD_cons_succ]

/-- Without a dot, the loop of `NameIsEqual` copies what it reads. -/
theorem name83Loop_append {s : List UInt8} (hdot : dot ∉ s) (rest : List UInt8) :
    ∀ {i : ℕ} (buf : ℕ → UInt8), i + s.length ≤ 11 →
      name83Loop (s ++ rest) i buf =
        name83Loop rest (i + s.length) (writeBytes buf i (s.map toupper)) := by
  induction s with
  | nil =>
      intro i buf _
      rw [List.map_nil, writeBytes_nil]
      rfl
  | cons c s ih =>
      intro i buf hi
      rw [List.mem_cons, not_or] at hdot
      rw [List.length_cons] at hi
      rw [List.cons_append, name83Loop, if_neg (by omega), if_neg fun h ↦ hdot.1 h.symm,
        ih hdot.2 _ (by omega), writeBytes_update, List.map_cons, List.length_cons]
      congr 1
      omega

theorem readBytes_writeBytes_space {n : ℕ} {s : List UInt8} (hs : s.length ≤ n) (addr : ℕ)
    {mem : ℕ → UInt8} (hmem : ∀ x, addr ≤ x → mem x = space) :
    readBytes (writeBytes mem addr (s.map toupper)) addr n = padded n s := by
  obtain ⟨k, rfl⟩ := Nat.exists_eq_add_of_le hs
  have hlen : (s.map toupper).length = s.length := List.length_map _
  have hblank : readBytes (writeBytes mem addr (s.map toupper)) (addr + s.length) k =
      List.replicate k space := by
    apply List.eq_replicate_iff.mpr
    refine ⟨length_readBytes _ _ _, fun b hb ↦ ?_⟩
    obtain ⟨i, -, rfl⟩ := List.mem_map.mp hb
    rw [writeBytes_of_ge _ _ (by omega), hmem _ (by omega)]
  rw [readBytes_add, hblank, padded, List.take_of_length_le (Nat.le_add_right _ _),
    Nat.add_sub_cancel_left]
  congr 1
  rw [← hlen]
  exact readBytes_writeBytes _ _ _

theorem readBytes_base_ext {base ext : List UInt8} (hbase : base.length ≤ 8)
    (hext : ext.length ≤ 3) :
    readBytes (writeBytes (writeBytes (fun _ ↦ space) 0 (base.map toupper)) 8 (ext.map toupper))
      0 11 = padded 8 base ++ padded 3 ext := by
  have hlen : (base.map toupper).length = base.length := List.length_map _
  have hblank : ∀ x, 8 ≤ x → writeBytes (fun _ ↦ space) 0 (base.map toupper) x = space :=
    fun x hx ↦ writeBytes_of_ge _ _ (by omega)
  have hlow : readBytes (writeBytes (writeBytes (fun _ ↦ space) 0 (base.map toupper)) 8
      (ext.map toupper)) 0 8 = padded 8 base := by
    rw [← readBytes_writeBytes_space hbase 0 fun _ _ ↦ rfl]
    exact readBytes_congr fun x _ hx ↦ writeBytes_of_lt _ _ (by omega)
  have hhigh := readBytes_writeBytes_space hext 8 hblank
  rw [show 11 = 8 + 3 from rfl, readBytes_add, hlow, hhigh]

theorem name83_eq_readBytes (name : List UInt8) :
    name83 name = readBytes (name83Loop name 0 fun _ ↦ space) 0 11 :=
  List.map_congr_left fun i _ ↦ by rw [Nat.zero_add]

section Encodings

variable {base ext : List UInt8} (hbase : dot ∉ base) (hlen : base.length ≤ 8)

include hbase hlen

theorem name83_of_base : name83 base = padded 8 base ++ padded 3 [] := by
  have hloop := name83Loop_append hbase [] (i := 0) (fun _ ↦ space) (by omega)
  rw [List.append_nil] at hloop
  have hbytes := @readBytes_base_ext base [] hlen (Nat.zero_le 3)
  rw [List.map_nil, writeBytes_nil] at hbytes
  rw [name83_eq_readBytes, hloop, name83Loop, hbytes]

theorem name83_of_base_ext (hext : dot ∉ ext) (hlen' : ext.length ≤ 3) :
    name83 (base ++ dot :: ext) = padded 8 base ++ padded 3 ext := by
  have hloop := name83Loop_append hbase (dot :: ext) (i := 0) (fun _ ↦ space) (by omega)
  have hloop' := name83Loop_append hext [] (i := 8)
    (writeBytes (fun _ ↦ space) 0 (base.map toupper)) (by omega)
  rw [List.append_nil] at hloop'
  rw [name83_eq_readBytes, hloop, name83Loop, if_neg (by omega), if_pos rfl, hloop', name83Loop,
    readBytes_base_ext hlen hlen']

end Encodings

theorem splitLast_of_notMem {c : UInt8} {s : List UInt8} (h : c ∉ s) : splitLast c s = none := by
  induction s with
  | nil => rfl
  | cons x s ih =>
      rw [List.mem_cons, not_or] at h
      rw [splitLast, ih h.2]
      exact if_neg fun hx ↦ h.1 hx.symm

theorem splitLast_append {c : UInt8} {after : List UInt8} (h : c ∉ after) (before : List UInt8) :
    splitLast c (before ++ c :: after) = some (before, after) := by
  induction before with
  | nil =>
      rw [List.nil_append, splitLast, splitLast_of_notMem h]
      exact if_pos rfl
  | cons x before ih => rw [List.cons_append, splitLast, ih]

theorem fileName83_of_base {base : List UInt8} (hbase : dot ∉ base) :
    fileName83 base = padded 8 base ++ padded 3 [] := by
  rw [fileName83, splitLast_of_notMem hbase]

theorem fileName83_of_base_ext (base : List UInt8) {ext : List UInt8} (hext : dot ∉ ext) :
    fileName83 (base ++ dot :: ext) = padded 8 base ++ padded 3 ext := by
  rw [fileName83, splitLast_append hext]

/-! ## The names that are read back -/

/-- The eleven bytes of a name in use. -/
structure IsShortName (name : List UInt8) : Prop where
  length : name.length = 11
  ascii : ∀ c ∈ name, c < 0x80
  nonNul : (0 : UInt8) ∉ name
  noDot : dot ∉ name
  noLower : ∀ c ∈ name, ¬ (0x61 ≤ c ∧ c ≤ 0x7a)
  head : name.head? ≠ some space

theorem withoutBlanks_append (s : List UInt8) :
    withoutBlanks s ++ List.replicate (s.length - (withoutBlanks s).length) space = s := by
  have hsplit : withoutBlanks s ++ s.rtakeWhile (fun c ↦ decide (c = space)) = s :=
    List.rdropWhile_append_rtakeWhile
  have hlen := congrArg List.length hsplit
  rw [List.length_append] at hlen
  have htake : s.rtakeWhile (fun c ↦ decide (c = space)) =
      List.replicate (s.length - (withoutBlanks s).length) space := by
    refine List.eq_replicate_iff.mpr ⟨by omega, fun c hc ↦ ?_⟩
    simpa using List.mem_rtakeWhile_imp hc
  rw [← htake]
  exact hsplit

theorem mem_of_mem_withoutBlanks {s : List UInt8} {c : UInt8} (h : c ∈ withoutBlanks s) : c ∈ s :=
  (List.rdropWhile_prefix _ _).subset h

/-- The blanks at the end of a field are put back. -/
theorem padded_withoutBlanks {s : List UInt8} (hupper : ∀ c ∈ s, toupper c = c) :
    padded s.length (withoutBlanks s) = s := by
  have hle : (withoutBlanks s).length ≤ s.length := (List.rdropWhile_prefix _ _).length_le
  have hmap : (withoutBlanks s).map toupper = withoutBlanks s :=
    (List.map_congr_left fun c hc ↦ hupper c (mem_of_mem_withoutBlanks hc)).trans (List.map_id _)
  rw [padded, List.take_of_length_le hle, hmap, withoutBlanks_append]

theorem cString_of_nonNul {s : List UInt8} (h : (0 : UInt8) ∉ s) : cString s = s :=
  List.takeWhile_eq_self_iff.mpr fun c hc ↦ by
    have hne : c ≠ 0 := fun hzero ↦ h (hzero ▸ hc)
    simpa using hne

namespace IsShortName

variable {name : List UInt8}

theorem toupper_eq (h : IsShortName name) : ∀ c ∈ name, toupper c = c := fun c hc ↦
  if_neg (h.noLower c hc)

theorem readName_eq (h : IsShortName name) :
    readName name = (withoutBlanks (name.take 8), withoutBlanks (name.drop 8)) := by
  rw [readName, cString_of_nonNul, cString_of_nonNul]
  · exact fun hzero ↦ h.nonNul (List.mem_of_mem_drop (mem_of_mem_withoutBlanks hzero))
  · exact fun hzero ↦ h.nonNul (List.mem_of_mem_take (mem_of_mem_withoutBlanks hzero))

/-- A base and an extension that `FormatName` joins. -/
theorem parts (h : IsShortName name) :
    ∃ base ext, formatName name = (if ext ≠ [] then base ++ dot :: ext else base) ∧
      dot ∉ base ∧ base.length ≤ 8 ∧ dot ∉ ext ∧ ext.length ≤ 3 ∧
      padded 8 base ++ padded 3 ext = name := by
  have htake : (name.take 8).length = 8 := by
    rw [List.length_take, h.length]
    rfl
  have hdrop : (name.drop 8).length = 3 := by rw [List.length_drop, h.length]
  have hbase : padded (name.take 8).length (withoutBlanks (name.take 8)) = name.take 8 :=
    padded_withoutBlanks fun c hc ↦ h.toupper_eq c (List.mem_of_mem_take hc)
  have hext : padded (name.drop 8).length (withoutBlanks (name.drop 8)) = name.drop 8 :=
    padded_withoutBlanks fun c hc ↦ h.toupper_eq c (List.mem_of_mem_drop hc)
  rw [htake] at hbase
  rw [hdrop] at hext
  refine ⟨withoutBlanks (name.take 8), withoutBlanks (name.drop 8), ?_, ?_, ?_, ?_, ?_, ?_⟩
  · rw [formatName, h.readName_eq]
  · exact fun hdot ↦ h.noDot (List.mem_of_mem_take (mem_of_mem_withoutBlanks hdot))
  · exact (List.rdropWhile_prefix _ _).length_le.trans_eq htake
  · exact fun hdot ↦ h.noDot (List.mem_of_mem_drop (mem_of_mem_withoutBlanks hdot))
  · exact (List.rdropWhile_prefix _ _).length_le.trans_eq hdrop
  · rw [hbase, hext, List.take_append_drop]

theorem length_formatName (h : IsShortName name) : (formatName name).length ≤ 12 := by
  obtain ⟨base, ext, heq, -, hlen, -, hlen', -⟩ := h.parts
  rw [heq]
  split_ifs
  · rw [List.length_append, List.length_cons]
    omega
  · omega

theorem name83_formatName (h : IsShortName name) : name83 (formatName name) = name := by
  obtain ⟨base, ext, heq, hbase, hlen, hext, hlen', hname⟩ := h.parts
  rw [heq]
  split_ifs with hne
  · rw [name83_of_base_ext hbase hlen hext hlen', hname]
  · rw [name83_of_base hbase hlen, ← not_not.mp hne, hname]

theorem fileName83_formatName (h : IsShortName name) : fileName83 (formatName name) = name := by
  obtain ⟨base, ext, heq, hbase, -, hext, -, hname⟩ := h.parts
  rw [heq]
  split_ifs with hne
  · rw [fileName83_of_base_ext base hext, hname]
  · rw [fileName83_of_base hbase, ← not_not.mp hne, hname]

theorem formatName_ne_nil (h : IsShortName name) : formatName name ≠ [] := by
  intro hnil
  have hname := h.name83_formatName
  rw [hnil] at hname
  exact h.head (hname ▸ rfl)

theorem slash_notMem_formatName (h : IsShortName name) (hslash : slash ∉ name) :
    slash ∉ formatName name := by
  rw [formatName, h.readName_eq]
  dsimp only
  split_ifs with hne
  · rw [List.mem_append, List.mem_cons, not_or, not_or]
    refine ⟨fun hmem ↦ hslash (List.mem_of_mem_take (mem_of_mem_withoutBlanks hmem)), by decide,
      fun hmem ↦ hslash (List.mem_of_mem_drop (mem_of_mem_withoutBlanks hmem))⟩
  · exact fun hmem ↦ hslash (List.mem_of_mem_take (mem_of_mem_withoutBlanks hmem))

end IsShortName

namespace Volume

/-- `FormatName` of the entry at an address. -/
def formatName (v : Volume) (entry : ℕ) : List UInt8 := Fat.formatName (v.entryName entry)

/-- What `FindFile` finds under a name that no slash divides, in a directory and
behind its path. -/
structure Opens (v : Volume) (fuel d : ℕ) (name : List UInt8) (found : Option ℕ) : Prop where
  inDirectory : v.findFile fuel name d = some (found, false)
  behindPath : ∀ {path : List UInt8} {d' y : ℕ}, path ≠ [] →
    v.findFile fuel path d' = some (some y, false) → v.entryAttr y = kDirectory →
    v.firstCluster y = d → v.findFile fuel (path ++ slash :: name) d' = some (found, false)

/-- What is listed for an entry is read back as the entry's name. -/
structure NameRoundTrips (v : Volume) (x : ℕ) : Prop where
  fits : (v.formatName x).length + 1 ≤ 13
  equal : v.nameIsEqual x (v.formatName x) = true
  stored : fileName83 (v.formatName x) = v.entryName x
  injective : ∀ {u : Volume} {y : ℕ}, IsShortName (u.entryName y) →
    u.formatName y = v.formatName x → u.entryName y = v.entryName x
  opens : slash ∉ v.entryName x → ∀ {fuel d : ℕ} {entries : List ℕ},
    v.entriesInUse fuel (if d = 0 then v.rootCluster else d) = some entries → x ∈ entries →
    ∃ y ∈ entries, v.entryName y = v.entryName x ∧
      entries.find? (fun entry ↦ v.entryName entry = v.entryName x) = some y ∧
      v.Opens fuel d (v.formatName x) (some y)

theorem opens_of_search {v : Volume} {fuel d : ℕ} {name : List UInt8} {found : Option ℕ}
    (hslash : slash ∉ name) (hname : name ≠ [])
    (hsearch : v.searchDirectory name fuel (if d = 0 then v.rootCluster else d) = some found) :
    v.Opens fuel d name found := by
  have hstart : v.startOf name d = (name, if d = 0 then v.rootCluster else d) := by
    rw [startOf, if_neg (head?_ne_of_notMem hslash)]
    split_ifs <;> rfl
  have hfind : v.findFile fuel name d = some (found, false) := by
    rw [findFile_of_startOf hslash hstart, hsearch, Option.map_some]
  refine ⟨hfind, fun {path d' y} hpath hdir hattr hfirst ↦ ?_⟩
  rw [findFile_append hname _ (Nat.lt_succ_self _) hpath hdir, if_pos hattr, hfirst]
  exact hfind

/-- The string that `FormatName` makes of an entry fits its buffer, `NameIsEqual` and
`SetFileName` give the entry's name back, and without a slash it opens the first
entry of that name. -/
theorem formatName_roundTrips {v : Volume} {x : ℕ} (h : IsShortName (v.entryName x)) :
    v.NameRoundTrips x where
  fits := Nat.succ_le_succ h.length_formatName
  equal := nameIsEqual_iff.mpr h.name83_formatName.symm
  stored := h.fileName83_formatName
  injective := fun {u y} hy heq ↦
    hy.name83_formatName.symm.trans ((congrArg name83 heq).trans h.name83_formatName)
  opens := by
    intro hslash fuel d entries hentries hx
    have hsearch := @searchDirectory_eq_find v fuel (v.formatName x) _ entries hentries
    rw [formatName, h.name83_formatName] at hsearch
    have hsome : (entries.find? fun entry ↦ v.entryName entry = v.entryName x).isSome :=
      List.find?_isSome.mpr ⟨x, hx, by simp⟩
    obtain ⟨y, hy⟩ := Option.isSome_iff_exists.mp hsome
    rw [hy] at hsearch
    refine ⟨y, List.mem_of_find?_eq_some hy, by simpa using List.find?_some hy, hy, ?_⟩
    exact opens_of_search (h.slash_notMem_formatName hslash) h.formatName_ne_nil hsearch

end Volume

/-! ## Two entries -/

/-- The directory entry that comes first in `treeVolume` is listed as `A`. -/
theorem formatName_roundTrips_A :
    treeVolume.formatName 1024 = [0x41] ∧ treeVolume.NameRoundTrips 1024 := by
  have hname : IsShortName (treeVolume.entryName 1024) := by
    constructor <;> decide +kernel
  exact ⟨by decide, Volume.formatName_roundTrips hname⟩

/-- The root directory holds one file, with the name `A/B`. -/
def slashVolume : Volume where
  bpb := treeVolume.bpb
  mem := fun x ↦
    if 520 ≤ x ∧ x < 524 then if x % 4 = 3 then 0x0f else 0xff
    else if x = 1024 then 0x41
    else if x = 1025 then slash
    else if x = 1026 then 0x42
    else if 1026 < x ∧ x < 1035 then space
    else 0

/-- The file is listed as `A/B`, and not found under this name. -/
theorem not_opens_slash :
    IsShortName (slashVolume.entryName 1024) ∧
      slashVolume.entriesInUse 4 slashVolume.rootCluster = some [1024] ∧
      slashVolume.formatName 1024 = [0x41, slash, 0x42] ∧
      slashVolume.findFile 4 (slashVolume.formatName 1024) 0 = some (none, true) := by
  have hname : IsShortName (slashVolume.entryName 1024) := by
    constructor <;> decide +kernel
  exact ⟨hname, by decide +kernel⟩

end Fat
end MinOS
