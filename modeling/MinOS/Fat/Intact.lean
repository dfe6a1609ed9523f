import MinOS.Fat.Agreement
import MinOS.Fat.Sharing
import MinOS.Fat.Walk

/-!
# Intact volumes

Everything that has clusters, the directories that are reached from the root and the files in
them, has a chain of its own.  A call of `Write` keeps it so.
-/

namespace MinOS
namespace Fat

open ByteMemory

/-- An entry of the directory at cluster `d` that is neither a directory nor a part of a long
name. -/
structure FileOf (v : Volume) (bound d x : ℕ) : Prop extends EntryOf v bound d x where
  notDirectory : v.entryAttr x ≠ kDirectory
  notLongName : v.entryAttr x ≠ kLongName

/-- What has clusters: a directory, by its first cluster, or a file, by its entry. -/
inductive Holder where
  | directory (d : ℕ)
  | file (x : ℕ)
deriving DecidableEq, Repr

namespace Holder

def On (v : Volume) (bound : ℕ) : Holder → Prop
  | .directory d => IsDir v bound d
  | .file x => ∃ d, IsDir v bound d ∧ FileOf v bound d x

/-- The clusters of the holder.  An empty file has none. -/
def Chain (v : Volume) (bound : ℕ) : Holder → List ℕ → Prop
  | .directory d, chain => FileChain v bound chain ∧ chain.head? = some d
  | .file x, chain => Owns v bound x chain

theorem file_ne_directory {x d : ℕ} : Holder.file x ≠ .directory d := by simp

theorem directory_ne_file {d x : ℕ} : Holder.directory d ≠ .file x := by simp

end Holder

/-- All holders have chains that end, with room for the size of a file, and no cluster is in two
of them.  Behind its end mark a directory is clear. -/
structure Intact (v : Volume) (bound : ℕ) : Prop where
  geometry : Geometry v.bpb bound
  entries : 32 ≤ v.bytesPerCluster
  linked : ∀ {h : Holder}, h.On v bound → ∃ chain, h.Chain v bound chain
  capacity : ∀ {x : ℕ} {chain : List ℕ}, (Holder.file x).On v bound → Owns v bound x chain →
    v.fileSize x ≤ chain.length * v.bytesPerCluster
  disjoint : ∀ {h g : Holder} {chain chain' : List ℕ}, h.On v bound → g.On v bound → h ≠ g →
    h.Chain v bound chain → g.Chain v bound chain' → ∀ c ∈ chain, c ∉ chain'
  notRoot : ∀ {d x : ℕ}, IsDir v bound d → SubdirOf v bound d x →
    v.firstCluster x ≠ v.rootCluster
  named : ∀ {d x : ℕ}, IsDir v bound d → SubdirOf v bound d x →
    v.entryName x ≠ List.replicate 11 space
  clear : ∀ {d : ℕ} {tail : List ℕ}, IsDir v bound d → FileChain v bound (d :: tail) →
    (v.slots (d :: tail)).Pairwise fun a b ↦ v.mem a = 0 → v.mem b = 0

/-! ## Chains -/

section Chains

variable {v v' : Volume} {bound : ℕ} {chain chain' : List ℕ}

theorem FileChain.unique (h : FileChain v bound chain) (h' : FileChain v bound chain')
    (hhead : chain.head? = chain'.head?) : chain = chain' :=
  h.linked.unique h'.linked hhead

theorem Owns.unique {x : ℕ} (h : Owns v bound x chain) (h' : Owns v bound x chain') :
    chain = chain' := by
  have hne : ∀ {l : List ℕ}, FileChain v bound l → l.head? = some (v.firstCluster x) →
      v.firstCluster x ≠ 0 := by
    intro l hl hhead
    have hin := hl.inRange _ (List.mem_of_mem_head? hhead)
    omega
  rcases h with ⟨rfl, hzero⟩ | ⟨h, hhead⟩ <;> rcases h' with ⟨rfl, hzero'⟩ | ⟨h', hhead'⟩
  · rfl
  · exact absurd hzero (hne h' hhead')
  · exact absurd hzero' (hne h hhead)
  · exact h.unique h' (hhead.trans hhead'.symm)

/-- The clusters of a file are those of a chain of the table. -/
theorem Owns.inRange {x : ℕ} (h : Owns v bound x chain) {c : ℕ} (hc : c ∈ chain) :
    (2 ≤ c ∧ c < bound) ∧ v.fatEntry c ≠ 0 := by
  rcases h with ⟨rfl, -⟩ | ⟨h, -⟩
  · cases hc
  · exact ⟨h.inRange c hc, h.fatEntry_ne_zero hc⟩

namespace Holder

variable {h : Holder}

theorem Chain.unique (hc : h.Chain v bound chain) (hc' : h.Chain v bound chain') :
    chain = chain' := by
  cases h with
  | directory d => exact hc.1.unique hc'.1 (hc.2.trans hc'.2.symm)
  | file x => exact Owns.unique hc hc'

theorem Chain.inRange (hc : h.Chain v bound chain) {c : ℕ} (hmem : c ∈ chain) :
    (2 ≤ c ∧ c < bound) ∧ v.fatEntry c ≠ 0 := by
  cases h with
  | directory d => exact ⟨hc.1.inRange c hmem, hc.1.fatEntry_ne_zero hmem⟩
  | file x => exact Owns.inRange hc hmem

theorem chain_directory {d : ℕ} {tail : List ℕ} (hd : FileChain v bound (d :: tail)) :
    (Holder.directory d).Chain v bound (d :: tail) :=
  ⟨hd, rfl⟩

theorem chain_directory_iff {d : ℕ} : (Holder.directory d).Chain v bound chain ↔
    ∃ tail, chain = d :: tail ∧ FileChain v bound (d :: tail) := by
  constructor
  · rintro ⟨hd, hhead⟩
    obtain ⟨tail, rfl⟩ := List.head?_eq_some_iff.mp hhead
    exact ⟨tail, rfl, hd⟩
  · rintro ⟨tail, rfl, hd⟩
    exact chain_directory hd

end Holder
end Chains

/-- An entry lies in a cluster of its directory. -/
theorem EntryOf.slot {v : Volume} {bound d x : ℕ} (hx : EntryOf v bound d x) :
    ∃ tail c, FileChain v bound (d :: tail) ∧ c ∈ d :: tail ∧ x ∈ v.clusterSlots c := by
  obtain ⟨tail, htail, huse⟩ := hx.inUse
  obtain ⟨c, hc, hslot⟩ := Volume.mem_slots.mp ((List.takeWhile_prefix _).subset huse)
  exact ⟨tail, c, htail, hc, hslot⟩

namespace Intact

variable {v v' : Volume} {bound : ℕ}

theorem wellFormed (h : Intact v bound) : WellFormed v bound where
  geometry := h.geometry
  entries := h.entries
  linked := fun {d} hd ↦ by
    obtain ⟨chain, hchain⟩ := h.linked (h := .directory d) hd
    obtain ⟨tail, rfl, htail⟩ := Holder.chain_directory_iff.mp hchain
    exact ⟨tail, htail⟩
  disjoint := fun {d d' _ _} hd hd' hne hchain hchain' ↦
    h.disjoint (h := .directory d) (g := .directory d') hd hd' (mt Holder.directory.inj hne)
      (Holder.chain_directory hchain) (Holder.chain_directory hchain')
  notRoot := h.notRoot
  named := h.named

/-- The entry of a file is in no cluster that the file has or may get. -/
theorem apart (h : Intact v bound) {d x : ℕ} {chain : List ℕ} (hd : IsDir v bound d)
    (hx : FileOf v bound d x) (hchain : Owns v bound x chain) : Apart v bound x chain := by
  obtain ⟨tail, c, htail, hc, hslot⟩ := hx.slot
  have hrange := htail.inRange c hc
  intro y hlow hhigh
  have hin := Volume.inCluster_of_slot hslot hlow hhigh
  refine ⟨hin.table_le h.geometry hrange.1 hrange.2, fun c' hc' hin' ↦ ?_⟩
  rcases List.mem_append.mp hc' with hc' | hc'
  · have hrange' := (hchain.inRange hc').1
    have heq := hin.unique h.geometry hrange.1 hrange.2 hrange'.1 hrange'.2 hin'
    exact h.disjoint (h := .file x) (g := .directory d) ⟨d, hd, hx⟩ hd Holder.file_ne_directory hchain
      (Holder.chain_directory htail) c' hc' (heq ▸ hc)
  · obtain ⟨hrange', hzero⟩ := Volume.mem_freeClusters.mp hc'
    have heq := hin.unique h.geometry hrange.1 hrange.2 hrange'.1 hrange'.2 hin'
    exact htail.fatEntry_ne_zero hc (heq ▸ hzero)

/-- Chains whose clusters are old ones of the same holder, or were free and now belong to one
holder, have no cluster in common. -/
theorem disjoint_of_taken (h : Intact v bound) (taker : Holder)
    (hcell : ∀ {g : Holder} {chain : List ℕ}, g.On v' bound → g.Chain v' bound chain →
      ∀ c ∈ chain, (g.On v bound ∧ ∃ old, g.Chain v bound old ∧ c ∈ old) ∨
        g = taker ∧ v.fatEntry c = 0)
    {g g' : Holder} {chain chain' : List ℕ} (hg : g.On v' bound) (hg' : g'.On v' bound)
    (hne : g ≠ g') (hchain : g.Chain v' bound chain) (hchain' : g'.Chain v' bound chain') :
    ∀ c ∈ chain, c ∉ chain' := by
  intro c hc hc'
  rcases hcell hg hchain c hc with ⟨hon, old, hold, hmem⟩ | ⟨rfl, hfree⟩
  · rcases hcell hg' hchain' c hc' with ⟨hon', old', hold', hmem'⟩ | ⟨-, hfree⟩
    · exact h.disjoint hon hon' hne hold hold' c hmem hmem'
    · exact (hold.inRange hmem).2 hfree
  · rcases hcell hg' hchain' c hc' with ⟨-, old', hold', hmem'⟩ | ⟨rfl, -⟩
    · exact (hold'.inRange hmem').2 hfree
    · exact hne rfl

end Intact

/-! ## The same directories -/

/-- The directories of the two volumes have the same subdirectories. -/
structure SameTree (v v' : Volume) (bound : ℕ) : Prop where
  bpb : v'.bpb = v.bpb
  sub : ∀ {d x : ℕ}, IsDir v bound d → (SubdirOf v' bound d x ↔ SubdirOf v bound d x)
  first : ∀ {d x : ℕ}, IsDir v bound d → SubdirOf v bound d x →
    v'.firstCluster x = v.firstCluster x

theorem SameTree.isDir {v v' : Volume} {bound : ℕ} (h : SameTree v v' bound) (d : ℕ) :
    IsDir v' bound d ↔ IsDir v bound d := by
  have hroot : v'.rootCluster = v.rootCluster := rootCluster_congr h.bpb
  constructor
  · intro hd
    induction hd with
    | root => exact hroot ▸ .root
    | sub hd hx ih =>
        have hx' := (h.sub ih).mp hx
        rw [h.first ih hx']
        exact .sub ih hx'
  · intro hd
    induction hd with
    | root => exact hroot ▸ .root
    | sub hd hx ih =>
        rw [← h.first hd hx]
        exact .sub ih ((h.sub hd).mpr hx)

/-- The file has its clusters with their bytes, and its size. -/
structure Kept (v v' : Volume) (bound x : ℕ) : Prop where
  bpb : v'.bpb = v.bpb
  on : (Holder.file x).On v' bound
  size : v'.fileSize x = v.fileSize x
  chain : ∀ {chain : List ℕ}, Owns v bound x chain → Owns v' bound x chain
  bytes : ∀ {chain : List ℕ} {c y : ℕ}, Owns v bound x chain → c ∈ chain → v.InCluster c y →
    v'.mem y = v.mem y

theorem Kept.trans {v v₁ v₂ : Volume} {bound x : ℕ} (h₁ : Kept v v₁ bound x)
    (h₂ : Kept v₁ v₂ bound x) : Kept v v₂ bound x where
  bpb := h₂.bpb.trans h₁.bpb
  on := h₂.on
  size := h₂.size.trans h₁.size
  chain := fun hchain ↦ h₂.chain (h₁.chain hchain)
  bytes := fun hchain hc hy ↦
    (h₂.bytes (h₁.chain hchain) hc ((Volume.inCluster_congr h₁.bpb _ _).mpr hy)).trans
      (h₁.bytes hchain hc hy)

/-- A file that is kept has the content it had. -/
theorem Kept.content {v v' : Volume} {bound x : ℕ} {chain : List ℕ} (h : Kept v v' bound x)
    (hg : Geometry v.bpb bound) (hchain : Owns v bound x chain)
    (hcap : v.fileSize x ≤ chain.length * v.bytesPerCluster) :
    content v' x chain = content v x chain := by
  have hpos := hg.bytesPerCluster_pos
  rw [Fat.content, Fat.content, h.size, chainBytes, chainBytes, Volume.bytesPerCluster_congr h.bpb]
  refine List.map_congr_left fun i hi ↦ ?_
  have hlt : i / v.bytesPerCluster < chain.length :=
    Nat.div_lt_of_lt_mul ((List.mem_range.mp hi).trans_le (Nat.mul_comm _ _ ▸ hcap))
  rw [Volume.getClusterAddr_congr h.bpb]
  refine h.bytes hchain ?_ ⟨Nat.le_add_right _ _, Nat.add_lt_add_left (Nat.mod_lt _ hpos) _⟩
  rw [List.getD_eq_getElem _ _ hlt]
  exact List.getElem_mem hlt

theorem takeWhile_used_congr {v v' : Volume} {l : List ℕ} (h : ∀ a ∈ l, v'.mem a = v.mem a) :
    l.takeWhile (fun a ↦ decide (v'.mem a ≠ 0)) = l.takeWhile fun a ↦ decide (v.mem a ≠ 0) := by
  induction l with
  | nil => rfl
  | cons a l ih =>
      rw [List.takeWhile_cons, List.takeWhile_cons, h a List.mem_cons_self,
        ih fun b hb ↦ h b (List.mem_cons_of_mem a hb)]

theorem entryOf_iff {v : Volume} {bound d a : ℕ} {tail : List ℕ}
    (htail : FileChain v bound (d :: tail)) : EntryOf v bound d a ↔
      a ∈ (v.slots (d :: tail)).takeWhile (fun b ↦ decide (v.mem b ≠ 0)) ∧ v.mem a ≠ deleted := by
  constructor
  · rintro ⟨⟨chain, hchain, hin⟩, hlive⟩
    obtain rfl := (List.cons.inj (hchain.unique htail rfl)).2
    exact ⟨hin, hlive⟩
  · rintro ⟨hin, hlive⟩
    exact ⟨⟨tail, htail, hin⟩, hlive⟩

theorem entryOf_congr {v v' : Volume} {bound d : ℕ} {tail : List ℕ} (hbpb : v'.bpb = v.bpb)
    (htail : FileChain v bound (d :: tail)) (htail' : FileChain v' bound (d :: tail))
    (hmem : ∀ a ∈ v.slots (d :: tail), v'.mem a = v.mem a) (a : ℕ) :
    EntryOf v' bound d a ↔ EntryOf v bound d a := by
  rw [entryOf_iff htail, entryOf_iff htail', Volume.slots_congr hbpb, takeWhile_used_congr hmem]
  refine and_congr_right fun hin ↦ ?_
  rw [hmem a ((List.takeWhile_prefix _).subset hin)]

/-! ## Writing -/

section Write

variable {v v' : Volume} {bound d t p p' : ℕ} {fd fd' : FileDescriptor} {chain : List ℕ}
  {buf : List UInt8}

/-- A byte of a cluster that the file does not have. -/
theorem WriteEffect.mem_eq (h : WriteEffect v v' bound fd fd' chain buf t p p')
    (hg : Geometry v.bpb bound) {c y : ℕ} (hc : 2 ≤ c ∧ c < bound)
    (hout : c ∉ chain ++ (v.freeClusters bound).take t) (hy : v.InCluster c y)
    (hfield : ¬ Volume.EntryField fd.fatEntry y) : v'.mem y = v.mem y := by
  refine h.data y (hy.table_le hg hc.1 hc.2) (fun hat ↦ ?_) hfield
  obtain ⟨c', hc', hin⟩ := hat.inCluster
  have hrange := h.grown.linked.inRange c' hc'
  have heq := hy.unique hg hc.1 hc.2 hrange.1 hrange.2 hin
  exact hout (heq ▸ hc')

variable (hv : Intact v bound) (hx : (Holder.file fd.fatEntry).On v bound)
  (hchain : Owns v bound fd.fatEntry chain)

include hv hx hchain

/-- The clusters of the other holders are not those that the file has or gets. -/
theorem Intact.notMem_grown {g : Holder} (hg : g.On v bound) (hne : g ≠ .file fd.fatEntry)
    {l : List ℕ} (hl : g.Chain v bound l) {c : ℕ} (hc : c ∈ l) :
    c ∉ chain ++ (v.freeClusters bound).take t := by
  intro hmem
  rcases List.mem_append.mp hmem with hmem | hmem
  · exact hv.disjoint hg hx hne hl hchain c hc hmem
  · exact (hl.inRange hc).2 (Volume.mem_freeClusters.mp (List.mem_of_mem_take hmem)).2

variable (h : WriteEffect v v' bound fd fd' chain buf t p p')

include h

theorem WriteEffect.fileChain {g : Holder} (hg : g.On v bound) (hne : g ≠ .file fd.fatEntry)
    {l : List ℕ} (hl : g.Chain v bound l) (hlinked : FileChain v bound l) :
    FileChain v' bound l :=
  h.grown.other_chain hlinked fun _ hc hmem ↦
    hv.notMem_grown hx hchain (t := t) hg hne hl hc (List.mem_append_left _ hmem)

theorem WriteEffect.directory {d : ℕ} {tail : List ℕ} (hd : IsDir v bound d)
    (htail : FileChain v bound (d :: tail)) : FileChain v' bound (d :: tail) :=
  h.fileChain hv hx hchain (g := .directory d) hd Holder.directory_ne_file (Holder.chain_directory htail) htail

/-- What is read of an entry.  Only the first cluster and the size of the file may change. -/
theorem WriteEffect.slot_same {d c a : ℕ} {tail : List ℕ} (hd : IsDir v bound d)
    (htail : FileChain v bound (d :: tail)) (hc : c ∈ d :: tail) (ha : a ∈ v.clusterSlots c) :
    (v'.mem a = v.mem a ∧ v'.entryName a = v.entryName a ∧ v'.entryAttr a = v.entryAttr a) ∧
      (a ≠ fd.fatEntry → v'.firstCluster a = v.firstCluster a ∧ v'.fileSize a = v.fileSize a) := by
  obtain ⟨d₀, hd₀, hx₀⟩ := hx
  obtain ⟨tail₀, c₀, htail₀, hc₀, hslot₀⟩ := hx₀.slot
  have hsame : ∀ y, a ≤ y → y < a + 32 → a ≠ fd.fatEntry ∨ y < a + 20 → v'.mem y = v.mem y := by
    intro y hlow hhigh hor
    refine h.mem_eq hv.geometry (htail.inRange c hc) (hv.notMem_grown ⟨d₀, hd₀, hx₀⟩ hchain
      (g := .directory d) hd Holder.directory_ne_file (Holder.chain_directory htail) hc)
      (Volume.inCluster_of_slot ha hlow hhigh) ?_
    rw [Volume.EntryField]
    by_cases hne : a = fd.fatEntry
    · have hlt := hor.resolve_left (not_not.mpr hne)
      omega
    · rcases Volume.slots_apart hv.geometry (htail.inRange c hc) (htail₀.inRange c₀ hc₀) ha hslot₀ hne
        with hle | hle <;> omega
  refine ⟨⟨hsame a le_rfl (by omega) (.inr (by omega)), ?_,
    hsame (a + 11) (by omega) (by omega) (.inr (by omega))⟩, fun hne ↦ ⟨?_, ?_⟩⟩
  · exact readBytes_congr fun y hlow hhigh ↦ hsame y hlow (by omega) (.inr (by omega))
  · exact Volume.firstCluster_congr fun y hlow hhigh ↦ hsame y (by omega) (by omega) (.inl hne)
  · exact readLE_congr fun y hlow hhigh ↦ hsame y (by omega) (by omega) (.inl hne)

theorem WriteEffect.entryOf {d : ℕ} (hd : IsDir v bound d) (a : ℕ) :
    EntryOf v' bound d a ↔ EntryOf v bound d a := by
  obtain ⟨tail, htail⟩ := hv.wellFormed.linked hd
  refine entryOf_congr h.grown.bpb htail (h.directory hv hx hchain hd htail) (fun a ha ↦ ?_) a
  obtain ⟨c, hc, hslot⟩ := Volume.mem_slots.mp ha
  exact (h.slot_same hv hx hchain hd htail hc hslot).1.1

theorem WriteEffect.entry_same {d a : ℕ} (hd : IsDir v bound d) (ha : EntryOf v bound d a) :
    (v'.mem a = v.mem a ∧ v'.entryName a = v.entryName a ∧ v'.entryAttr a = v.entryAttr a) ∧
      (a ≠ fd.fatEntry → v'.firstCluster a = v.firstCluster a ∧ v'.fileSize a = v.fileSize a) := by
  obtain ⟨tail, c, htail, hc, hslot⟩ := ha.slot
  exact h.slot_same hv hx hchain hd htail hc hslot

theorem WriteEffect.sameTree : SameTree v v' bound := by
  refine ⟨h.grown.bpb, fun {d a} hd ↦ ?_, fun {d a} hd ha ↦ ?_⟩
  · have hentry := h.entryOf hv hx hchain hd a
    constructor
    · rintro ⟨hof, hattr, hnamed⟩
      obtain ⟨⟨hmem, -, hattr'⟩, -⟩ := h.entry_same hv hx hchain hd (hentry.mp hof)
      exact ⟨hentry.mp hof, hattr' ▸ hattr, hmem ▸ hnamed⟩
    · rintro ⟨hof, hattr, hnamed⟩
      obtain ⟨⟨hmem, -, hattr'⟩, -⟩ := h.entry_same hv hx hchain hd hof
      exact ⟨hentry.mpr hof, hattr'.trans hattr, by rwa [hmem]⟩
  · have hne : a ≠ fd.fatEntry := by
      obtain ⟨d₀, -, hx₀⟩ := hx
      rintro rfl
      exact hx₀.notDirectory ha.attr
    exact ((h.entry_same hv hx hchain hd ha.toEntryOf).2 hne).1

theorem WriteEffect.on (g : Holder) : g.On v' bound ↔ g.On v bound := by
  have htree := h.sameTree hv hx hchain
  cases g with
  | directory d => exact htree.isDir d
  | file y =>
      refine exists_congr fun d ↦ ?_
      rw [htree.isDir d]
      refine and_congr_right fun hd ↦ ?_
      have hentry := h.entryOf hv hx hchain hd y
      constructor
      · rintro ⟨hof, hdir, hlong⟩
        obtain ⟨⟨-, -, hattr⟩, -⟩ := h.entry_same hv hx hchain hd (hentry.mp hof)
        exact ⟨hentry.mp hof, hattr ▸ hdir, hattr ▸ hlong⟩
      · rintro ⟨hof, hdir, hlong⟩
        obtain ⟨⟨-, -, hattr⟩, -⟩ := h.entry_same hv hx hchain hd hof
        exact ⟨hentry.mpr hof, by rwa [hattr], by rwa [hattr]⟩

theorem WriteEffect.chain_kept {g : Holder} (hg : g.On v bound) (hne : g ≠ .file fd.fatEntry)
    {l : List ℕ} (hl : g.Chain v bound l) : g.Chain v' bound l := by
  cases g with
  | directory d => exact ⟨h.fileChain hv hx hchain hg hne hl hl.1, hl.2⟩
  | file y =>
      obtain ⟨d, hd, hy⟩ := hg
      have hfirst := ((h.entry_same hv hx hchain hd hy.toEntryOf).2 (mt (congrArg _) hne)).1
      rcases hl with ⟨rfl, hzero⟩ | ⟨hlinked, hhead⟩
      · exact .inl ⟨rfl, hfirst.trans hzero⟩
      · refine .inr ⟨?_, by rw [hfirst, hhead]⟩
        exact h.fileChain hv hx hchain (g := .file y) ⟨d, hd, hy⟩ hne (.inr ⟨hlinked, hhead⟩) hlinked

/-- Another file is not changed. -/
theorem WriteEffect.kept {y : ℕ} (hy : (Holder.file y).On v bound) (hne : y ≠ fd.fatEntry) :
    Kept v v' bound y := by
  have hne' : Holder.file y ≠ .file fd.fatEntry := mt Holder.file.inj hne
  obtain ⟨d, hd, hyd⟩ := id hy
  refine ⟨h.grown.bpb, (h.on hv hx hchain _).mpr hy, ?_, fun hl ↦ ?_, fun {l c a} hl hc ha ↦ ?_⟩
  · exact ((h.entry_same hv hx hchain hd hyd.toEntryOf).2 hne).2
  · exact h.chain_kept hv hx hchain hy hne' hl
  · have hrange := (hl.inRange hc).1
    refine h.mem_eq hv.geometry hrange (hv.notMem_grown hx hchain hy hne' hl hc) ha fun hfield ↦ ?_
    -- the fields of the entry are in a cluster of its directory
    obtain ⟨d₀, hd₀, hx₀⟩ := hx
    obtain ⟨tail₀, c₀, htail₀, hc₀, hslot₀⟩ := hx₀.slot
    have hrange₀ := htail₀.inRange c₀ hc₀
    have hin := Volume.inCluster_of_slot hslot₀ (x := a) (by rw [Volume.EntryField] at hfield; omega)
      (by rw [Volume.EntryField] at hfield; omega)
    have heq := ha.unique hv.geometry hrange.1 hrange.2 hrange₀.1 hrange₀.2 hin
    exact hv.disjoint hy (g := .directory d₀) hd₀ Holder.file_ne_directory hl (Holder.chain_directory htail₀) c hc
      (heq ▸ hc₀)

/-- Every path that led to an entry still leads to it. -/
theorem WriteEffect.finds {q : List UInt8} (hlive : Live q) (hnul : (0 : UInt8) ∉ q) {y : ℕ}
    (hy : v.Finds bound q y) : v'.Finds bound q y := by
  obtain ⟨post, hy⟩ := hy
  have hg' : Geometry v'.bpb bound := by
    rw [h.grown.bpb]
    exact hv.geometry
  refine ⟨post, findFile_of_search_kept hv.wellFormed h.grown.bpb (fun {n d a} _ _ hd hfound ↦ ?_)
    (fun {d a} hd ha ↦ ?_) _ (Nat.lt_succ_self _) hlive hnul (.inl rfl) hy⟩
  · obtain ⟨tail, htail⟩ := hv.wellFormed.linked hd
    have hlen := htail.length_le
    rw [List.length_cons] at hlen
    rw [hv.wellFormed.searchDirectory htail] at hfound
    rw [searchDirectory_eq hg' n tail d bound (h.directory hv hx hchain hd htail) (by omega),
      Volume.slots_congr h.grown.bpb, ← hfound]
    congr 2
    apply Volume.search_congr
    intro b hb
    obtain ⟨c, hc, hslot⟩ := Volume.mem_slots.mp hb
    obtain ⟨hmem, hname, -⟩ := (h.slot_same hv hx hchain hd htail hc hslot).1
    exact ⟨hmem, hname⟩
  · obtain ⟨⟨-, -, hattr⟩, hfirst⟩ := h.entry_same hv hx hchain hd ha
    refine ⟨hattr, fun hdir ↦ (hfirst ?_).1⟩
    obtain ⟨d₀, -, hx₀⟩ := hx
    rintro rfl
    exact hx₀.notDirectory hdir

/-- A call of `Write` keeps the volume intact. -/
theorem WriteEffect.intact (hoff : fd.wrOff ≤ p) :
    Intact v' bound := by
  have hbpb := h.grown.bpb
  have hB := Volume.bytesPerCluster_congr hbpb
  have hon := h.on hv hx hchain
  obtain ⟨d₀, hd₀, hx₀⟩ := id hx
  obtain ⟨howns, -, hpos'⟩ := h.next (hv.apart hd₀ hx₀ hchain)
  rw [h.entry] at howns
  have htree := h.sameTree hv hx hchain
  have hcell : ∀ {g : Holder} {l : List ℕ}, g.On v' bound → g.Chain v' bound l →
      (g ≠ .file fd.fatEntry ∧ g.Chain v bound l) ∨
        g = .file fd.fatEntry ∧ l = chain ++ (v.freeClusters bound).take t := by
    intro g l hg hl
    by_cases hne : g = .file fd.fatEntry
    · subst hne
      exact .inr ⟨rfl, Owns.unique hl howns⟩
    · obtain ⟨old, hold⟩ := hv.linked ((hon g).mp hg)
      obtain rfl := (h.chain_kept hv hx hchain ((hon g).mp hg) hne hold).unique hl
      exact .inl ⟨hne, hold⟩
  refine ⟨by rw [hbpb]; exact hv.geometry, hB ▸ hv.entries, fun {g} hg ↦ ?_, fun {y l} hy hl ↦ ?_, ?_,
    fun {d a} hd ha ↦ ?_, fun {d a} hd ha ↦ ?_, fun {d tail} hd htail ↦ ?_⟩
  · by_cases hne : g = .file fd.fatEntry
    · subst hne
      exact ⟨_, howns⟩
    · obtain ⟨l, hl⟩ := hv.linked ((hon g).mp hg)
      exact ⟨l, h.chain_kept hv hx hchain ((hon g).mp hg) hne hl⟩
  · rcases hcell hy hl with ⟨hne, hold⟩ | ⟨heq, rfl⟩
    · rw [hB, (h.kept hv hx hchain ((hon _).mp hy) (mt (congrArg _) hne)).size]
      exact hv.capacity ((hon _).mp hy) hold
    · rw [Holder.file.inj heq, h.size]
      calc (fd.wrOff + buf.length) % 2 ^ 32 ≤ fd.wrOff + buf.length := Nat.mod_le _ _
        _ ≤ p + buf.length := Nat.add_le_add_right hoff _
        _ ≤ p' := h.le
        _ ≤ _ := hpos'.le
  · refine hv.disjoint_of_taken (.file fd.fatEntry) fun {g l} hg hl c hc ↦ ?_
    rcases hcell hg hl with ⟨-, hold⟩ | ⟨rfl, rfl⟩
    · exact .inl ⟨(hon g).mp hg, l, hold, hc⟩
    · rcases List.mem_append.mp hc with hc | hc
      · exact .inl ⟨hx, chain, hchain, hc⟩
      · exact .inr ⟨rfl, (Volume.mem_freeClusters.mp (List.mem_of_mem_take hc)).2⟩
  · have hd' := (htree.isDir d).mp hd
    have ha' := (htree.sub hd').mp ha
    rw [htree.first hd' ha', rootCluster_congr hbpb]
    exact hv.notRoot hd' ha'
  · have hd' := (htree.isDir d).mp hd
    have ha' := (htree.sub hd').mp ha
    rw [(h.entry_same hv hx hchain hd' ha'.toEntryOf).1.2.1]
    exact hv.named hd' ha'
  · have hd' := (htree.isDir d).mp hd
    obtain ⟨tail', htail'⟩ := hv.wellFormed.linked hd'
    obtain rfl := (List.cons.inj ((h.directory hv hx hchain hd' htail').unique htail rfl)).2
    rw [Volume.slots_congr hbpb]
    refine (hv.clear hd' htail').imp_of_mem fun {a b} ha hb hab ↦ ?_
    have hmem : ∀ {a : ℕ}, a ∈ v.slots (d :: tail') → v'.mem a = v.mem a := by
      intro a ha
      obtain ⟨c, hc, hslot⟩ := Volume.mem_slots.mp ha
      exact (h.slot_same hv hx hchain hd' htail' hc hslot).1.1
    rwa [hmem ha, hmem hb]

end Write

/-! ## Creating -/

theorem Volume.slots_nodup {v : Volume} {bound : ℕ} {chain : List ℕ} (hg : Geometry v.bpb bound)
    (h : FileChain v bound chain) : (v.slots chain).Nodup := by
  rw [Volume.slots, List.nodup_flatMap]
  refine ⟨fun c _ ↦ ?_, h.nodup.imp_of_mem fun {c c'} hc hc' hne a ha ha' ↦ ?_⟩
  · refine List.Nodup.map (fun i j hij ↦ ?_) List.nodup_range
    omega
  · have hrange := h.inRange c hc
    have hrange' := h.inRange c' hc'
    exact hne ((Volume.inCluster_of_slot ha le_rfl (by omega)).unique hg hrange.1 hrange.2 hrange'.1
      hrange'.2 (Volume.inCluster_of_slot ha' le_rfl (by omega)))

/-- A name that does not start with the mark of a deleted one is not stored as such. -/
theorem head_fileName83_ne {name bs : List UInt8} {b : UInt8} (h : fileName83 name = b :: bs)
    (hlive : name.head? ≠ some deleted) : b ≠ deleted := by
  have hpadded : ∀ (s ext : List UInt8), padded 8 s ++ ext = b :: bs →
      s.head? ≠ some deleted → b ≠ deleted := by
    intro s ext hs hhead
    cases s with
    | nil =>
        obtain ⟨rfl, -⟩ := List.cons.inj hs
        decide
    | cons c s =>
        obtain ⟨rfl, -⟩ := List.cons.inj hs
        intro heq
        exact hhead (congrArg some (eq_of_toupper_eq heq (by decide)))
  rw [fileName83] at h
  cases hsplit : splitLast dot name with
  | none =>
      rw [hsplit] at h
      exact hpadded _ _ h hlive
  | some parts =>
      obtain ⟨base, ext⟩ := parts
      rw [hsplit] at h
      refine hpadded _ _ h fun hbase ↦ hlive ?_
      rw [splitLast_eq hsplit]
      cases base with
      | nil => cases hbase
      | cons c base => exact hbase

section Create

variable {v v' : Volume} {bound D e : ℕ} {tail chain' : List ℕ} {name : List UInt8}

/-- The slots around the new entry, which was free, or stands at the start of a clear cluster. -/
theorem Created.slots_split (hg : Geometry v.bpb bound)
    (h : Created v v' bound (D :: tail) chain' e name)
    (hnew : NewEntry v v' bound e (D :: tail) chain') :
    ∃ before after, v.slots chain' = before ++ e :: after ∧
      (∀ a ∈ before, v.mem a ≠ 0 ∧ v.mem a ≠ deleted) ∧ (e ∉ before ∧ e ∉ after) ∧
      (v.slots (D :: tail) = before ∧ (∀ a ∈ after, v'.mem a = 0) ∨
        v.slots (D :: tail) = before ++ e :: after ∧ (v.mem e = 0 ∨ v.mem e = deleted)) := by
  obtain ⟨before, after, rest, hslots', hslots, hbefore, hrest⟩ := h.split
  have hnodup := Volume.slots_nodup (h.geometry hg) h.linked
  rw [Volume.slots_congr h.bpb, hslots', List.nodup_append, List.nodup_cons] at hnodup
  have hnot : e ∉ before ∧ e ∉ after :=
    ⟨fun hmem ↦ hnodup.2.2 e hmem e List.mem_cons_self rfl, hnodup.2.1.1⟩
  refine ⟨before, after, hslots', hbefore, hnot, ?_⟩
  rcases hrest with rfl | ⟨rfl, hfree⟩
  · rw [List.append_nil] at hslots
    refine .inl ⟨hslots, fun a ha ↦ ?_⟩
    rcases hnew.place with rfl | ⟨f, rfl, hf⟩
    · have hlen := congrArg List.length (hslots.symm.trans hslots')
      rw [List.length_append, List.length_cons] at hlen
      omega
    · have happend : v.slots ((D :: tail) ++ [f]) = v.slots (D :: tail) ++ v.clusterSlots f := by
        rw [Volume.slots, List.flatMap_append, List.flatMap_singleton, Volume.slots]
      rw [hslots', hslots] at happend
      have hsame := List.append_cancel_left happend
      refine hf.clear a (hsame ▸ List.mem_cons_of_mem e ha) fun heq ↦ hnot.2 (heq ▸ ha)
  · exact .inr ⟨hslots, hfree⟩

/-- An entry in use is not the new one, and keeps its bytes. -/
theorem Created.entry_mem (h : Created v v' bound (D :: tail) chain' e name) {d a : ℕ}
    (ha : EntryOf v bound d a) :
    a ≠ e ∧ ∀ x, a ≤ x → x < a + 32 → v'.mem x = v.mem x := by
  obtain ⟨tail₁, c, htail₁, hc, hslot⟩ := ha.slot
  have hzero : v.mem a ≠ 0 := by
    have hin := (entryOf_iff htail₁).mp ha
    simpa using List.mem_takeWhile_imp hin.1
  have hrange := htail₁.inRange c hc
  have hne := h.ne_entry hrange (htail₁.fatEntry_ne_zero hc) hslot hzero ha.live
  exact ⟨hne, h.same hrange (htail₁.fatEntry_ne_zero hc) hslot hne⟩

theorem Created.entryOf_kept (h : Created v v' bound (D :: tail) chain' e name) {d a : ℕ}
    (ha : EntryOf v bound d a) :
    (v'.mem a = v.mem a ∧ v'.entryName a = v.entryName a ∧ v'.entryAttr a = v.entryAttr a) ∧
      v'.firstCluster a = v.firstCluster a ∧ v'.fileSize a = v.fileSize a := by
  obtain ⟨-, hsame⟩ := h.entry_mem ha
  refine ⟨⟨hsame a le_rfl (by omega), ?_, hsame (a + 11) (by omega) (by omega)⟩, ?_, ?_⟩
  · exact readBytes_congr fun x hlow hhigh ↦ hsame x hlow (by omega)
  · exact Volume.firstCluster_congr fun x hlow hhigh ↦ hsame x (by omega) (by omega)
  · exact readLE_congr fun x hlow hhigh ↦ hsame x (by omega) (by omega)

variable (hv : Intact v bound) (hD : IsDir v bound D) (hchain : FileChain v bound (D :: tail))
  (h : Created v v' bound (D :: tail) chain' e name)

include hv hD hchain h

theorem Created.other_directory {d : ℕ} {tail₁ : List ℕ} (hd : IsDir v bound d) (hne : d ≠ D)
    (htail₁ : FileChain v bound (d :: tail₁)) : FileChain v' bound (d :: tail₁) ∧
      ∀ a ∈ v.slots (d :: tail₁), a ≠ e ∧ v'.mem a = v.mem a := by
  have hdisj := hv.wellFormed.disjoint hd hD hne htail₁ hchain
  refine ⟨(h.other htail₁ hdisj).1, fun a ha ↦ ?_⟩
  have hae := h.ne_of_other hv.geometry htail₁ hdisj ha
  exact ⟨hae, (h.entry_same htail₁ ha hae).1.1⟩

theorem Created.chain_kept {g : Holder} (hg : g.On v bound) (hne : g ≠ .directory D) {l : List ℕ}
    (hl : g.Chain v bound l) : g.Chain v' bound l := by
  have hdisj := hv.disjoint hg (g := .directory D) hD hne hl (Holder.chain_directory hchain)
  cases g with
  | directory d => exact ⟨(h.other hl.1 hdisj).1, hl.2⟩
  | file y =>
      obtain ⟨d, hd, hy⟩ := hg
      obtain ⟨-, hfirst, -⟩ := h.entryOf_kept hy.toEntryOf
      rcases hl with ⟨rfl, hzero⟩ | ⟨hlinked, hhead⟩
      · exact .inl ⟨rfl, hfirst.trans hzero⟩
      · exact .inr ⟨(h.other hlinked hdisj).1, by rw [hfirst, hhead]⟩

variable (hnew : NewEntry v v' bound e (D :: tail) chain')

include hnew

/-- The slots in use behind the new entry are those that were in use behind its slot. -/
theorem Created.inUse_parent (a : ℕ) :
    a ∈ (v.slots chain').takeWhile (fun b ↦ decide (v'.mem b ≠ 0)) ↔
      a = e ∨ a ∈ (v.slots (D :: tail)).takeWhile fun b ↦ decide (v.mem b ≠ 0) := by
  obtain ⟨before, after, hslots', hbefore, ⟨hnot, hnot'⟩, hcases⟩ := h.slots_split hv.geometry hnew
  have hsub : ∀ b ∈ before, b ∈ v.slots (D :: tail) := by
    intro b hb
    rcases hcases with ⟨hslots, -⟩ | ⟨hslots, -⟩
    · exact hslots ▸ hb
    · exact hslots ▸ List.mem_append_left _ hb
  have hbefore' : ∀ b ∈ before, decide (v'.mem b ≠ 0) = true := by
    intro b hb
    have hne : b ≠ e := fun heq ↦ hnot (heq ▸ hb)
    rw [(h.entry_same hchain (hsub b hb) hne).1.1, decide_eq_true_iff]
    exact (hbefore b hb).1
  have hused : ∀ b ∈ before, decide (v.mem b ≠ 0) = true := by
    intro b hb
    rw [decide_eq_true_iff]
    exact (hbefore b hb).1
  have hzero : ∀ l : List ℕ, (∀ b ∈ l, v'.mem b = 0) →
      l.takeWhile (fun b ↦ decide (v'.mem b ≠ 0)) = [] := by
    intro l hl
    cases l with
    | nil => rfl
    | cons b l => rw [List.takeWhile_cons_of_neg (by simpa using hl b List.mem_cons_self)]
  rw [hslots', List.takeWhile_append_of_pos hbefore',
    List.takeWhile_cons_of_pos (by simpa using h.mem_ne_zero)]
  rcases hcases with ⟨hslots, hclear⟩ | ⟨hslots, hfree⟩
  · rw [hzero after hclear, hslots, List.takeWhile_eq_self_iff.mpr hused]
    simp only [List.mem_append, List.mem_singleton]
    exact or_comm
  · have hsame : ∀ b ∈ after, v'.mem b = v.mem b := fun b hb ↦
      (h.entry_same hchain (hslots ▸ List.mem_append_right _ (List.mem_cons_of_mem e hb))
        fun heq ↦ hnot' (heq ▸ hb)).1.1
    rw [hslots, List.takeWhile_append_of_pos hused]
    rcases hfree with hfree | hfree
    · -- behind the end mark the directory is clear
      have hclear := hv.clear hD hchain
      rw [hslots, List.pairwise_append, List.pairwise_cons] at hclear
      rw [hzero after fun b hb ↦ (hsame b hb).trans (hclear.2.1.1 b hb hfree),
        List.takeWhile_cons_of_neg (by simpa using hfree)]
      simp only [List.mem_append, List.mem_singleton, List.not_mem_nil, or_false]
      exact or_comm
    · rw [takeWhile_used_congr hsame, List.takeWhile_cons_of_pos (by rw [hfree]; decide)]
      simp only [List.mem_append, List.mem_cons]
      tauto

/-- The new entry comes to the directory, and to no other. -/
theorem Created.entryOf (hname : name.head? ≠ some deleted) {d : ℕ} (hd : IsDir v bound d) (a : ℕ) :
    EntryOf v' bound d a ↔ d = D ∧ a = e ∨ EntryOf v bound d a := by
  by_cases hne : d = D
  · subst hne
    obtain ⟨tail', rfl⟩ := h.head_eq
    have hlive : v'.mem e ≠ deleted := by
      cases hbytes : fileName83 name with
      | nil =>
          have hlen := length_fileName83 name
          rw [hbytes] at hlen
          cases hlen
      | cons b bs =>
          rw [Volume.mem_eq_of_entryName (h.entryName.trans hbytes)]
          exact head_fileName83_ne hbytes hname
    constructor
    · intro ha
      obtain ⟨hin, hlive'⟩ := (entryOf_iff h.linked).mp ha
      rw [Volume.slots_congr h.bpb, h.inUse_parent hv hD hchain hnew] at hin
      by_cases heq : a = e
      · exact .inl ⟨rfl, heq⟩
      · have hin := hin.resolve_left heq
        rw [(h.entry_same hchain ((List.takeWhile_prefix _).subset hin) heq).1.1] at hlive'
        exact .inr ((entryOf_iff hchain).mpr ⟨hin, hlive'⟩)
    · intro ha
      rw [entryOf_iff h.linked, Volume.slots_congr h.bpb, h.inUse_parent hv hD hchain hnew]
      rcases ha with ⟨-, rfl⟩ | ha
      · exact ⟨.inl rfl, hlive⟩
      · obtain ⟨hin, hlive'⟩ := (entryOf_iff hchain).mp ha
        rw [(h.entryOf_kept ha).1.1]
        exact ⟨.inr hin, hlive'⟩
  · obtain ⟨tail₁, htail₁⟩ := hv.wellFormed.linked hd
    obtain ⟨hlinked, hslots⟩ := h.other_directory hv hD hchain hd hne htail₁
    rw [entryOf_congr h.bpb htail₁ hlinked fun a ha ↦ (hslots a ha).2]
    exact ⟨.inr, fun ha ↦ ha.resolve_left fun heq ↦ hne heq.1⟩

theorem Created.sameTree (hname : name.head? ≠ some deleted) : SameTree v v' bound := by
  refine ⟨h.bpb, fun {d a} hd ↦ ?_, fun {d a} hd ha ↦ ?_⟩
  · have hentry := h.entryOf hv hD hchain hnew hname hd a
    constructor
    · rintro ⟨hof, hattr, hnamed⟩
      rcases hentry.mp hof with ⟨-, rfl⟩ | hof'
      · rw [h.entryAttr] at hattr
        cases hattr
      · obtain ⟨⟨hmem, -, hattr'⟩, -⟩ := h.entryOf_kept hof'
        exact ⟨hof', hattr' ▸ hattr, hmem ▸ hnamed⟩
    · rintro ⟨hof, hattr, hnamed⟩
      obtain ⟨⟨hmem, -, hattr'⟩, -⟩ := h.entryOf_kept hof
      exact ⟨hentry.mpr (.inr hof), hattr'.trans hattr, by rwa [hmem]⟩
  · exact (h.entryOf_kept ha.toEntryOf).2.1

/-- The new file is added to the holders. -/
theorem Created.on (hname : name.head? ≠ some deleted) (g : Holder) :
    g.On v' bound ↔ g = .file e ∨ g.On v bound := by
  have htree := h.sameTree hv hD hchain hnew hname
  cases g with
  | directory d => exact (htree.isDir d).trans ⟨.inr, fun hor ↦ hor.resolve_left Holder.directory_ne_file⟩
  | file y =>
      constructor
      · rintro ⟨d, hd, hof, hdir, hlong⟩
        have hd' := (htree.isDir d).mp hd
        rcases (h.entryOf hv hD hchain hnew hname hd' y).mp hof with ⟨-, rfl⟩ | hof'
        · exact .inl rfl
        · obtain ⟨⟨-, -, hattr⟩, -⟩ := h.entryOf_kept hof'
          exact .inr ⟨d, hd', hof', hattr ▸ hdir, hattr ▸ hlong⟩
      · rintro (heq | ⟨d, hd, hof, hdir, hlong⟩)
        · obtain rfl := Holder.file.inj heq
          refine ⟨D, (htree.isDir D).mpr hD,
            (h.entryOf hv hD hchain hnew hname hD y).mpr (.inl ⟨rfl, rfl⟩), ?_, ?_⟩ <;>
          · rw [h.entryAttr]
            decide
        · obtain ⟨⟨-, -, hattr⟩, -⟩ := h.entryOf_kept hof
          exact ⟨d, (htree.isDir d).mpr hd, (h.entryOf hv hD hchain hnew hname hd y).mpr (.inr hof),
            by rwa [hattr], by rwa [hattr]⟩

/-- No file is changed. -/
theorem Created.kept (hname : name.head? ≠ some deleted) {y : ℕ}
    (hy : (Holder.file y).On v bound) : Kept v v' bound y := by
  refine ⟨h.bpb, (h.on hv hD hchain hnew hname _).mpr (.inr hy), ?_, fun hl ↦ ?_,
    fun {l c a} hl hc ha ↦ ?_⟩
  · obtain ⟨d, hd, hyd⟩ := hy
    exact (h.entryOf_kept hyd.toEntryOf).2.2
  · exact h.chain_kept hv hD hchain hy Holder.file_ne_directory hl
  · obtain ⟨hrange, hused⟩ := hl.inRange hc
    refine hnew.framed hrange hused ha ?_
    by_contra hin
    obtain ⟨c', hc', hslot⟩ := Volume.mem_slots.mp h.mem
    have hrange' := h.linked.inRange c' hc'
    have heq := ha.unique hv.geometry hrange.1 hrange.2 hrange'.1 hrange'.2
      (Volume.inCluster_of_slot hslot (by omega) (by omega))
    have hdisj := hv.disjoint hy (g := .directory D) hD Holder.file_ne_directory hl (Holder.chain_directory hchain)
    rcases hl with ⟨rfl, -⟩ | ⟨hlinked, -⟩
    · cases hc
    · exact (h.other hlinked hdisj).2 c hc (heq ▸ hc')

/-- The directory is clear behind its end mark. -/
theorem Created.clear :
    (v'.slots chain').Pairwise fun a b ↦ v'.mem a = 0 → v'.mem b = 0 := by
  obtain ⟨before, after, hslots', hbefore, ⟨hnot, hnot'⟩, hcases⟩ := h.slots_split hv.geometry hnew
  have hused : ∀ a ∈ before, v'.mem a ≠ 0 := by
    intro a ha
    have hmem : a ∈ v.slots (D :: tail) := by
      rcases hcases with ⟨hslots, -⟩ | ⟨hslots, -⟩
      · exact hslots ▸ ha
      · exact hslots ▸ List.mem_append_left _ ha
    rw [(h.entry_same hchain hmem fun heq ↦ hnot (heq ▸ ha)).1.1]
    exact (hbefore a ha).1
  rw [Volume.slots_congr h.bpb, hslots', List.pairwise_append, List.pairwise_cons]
  refine ⟨?_, ⟨fun b _ hzero ↦ absurd hzero h.mem_ne_zero, ?_⟩, fun a ha b _ hzero ↦
    absurd hzero (hused a ha)⟩
  · exact List.pairwise_of_forall_mem_list fun a ha b _ hzero ↦ absurd hzero (hused a ha)
  · rcases hcases with ⟨-, hclear⟩ | ⟨hslots, -⟩
    · exact List.pairwise_of_forall_mem_list fun a _ b hb _ ↦ hclear b hb
    · have hclear := hv.clear hD hchain
      rw [hslots, List.pairwise_append, List.pairwise_cons] at hclear
      have hsame : ∀ b ∈ after, v'.mem b = v.mem b := fun b hb ↦
        (h.entry_same hchain (hslots ▸ List.mem_append_right _ (List.mem_cons_of_mem e hb))
          fun heq ↦ hnot' (heq ▸ hb)).1.1
      refine hclear.2.1.2.imp_of_mem fun {a b} ha hb hab ↦ ?_
      rwa [hsame a ha, hsame b hb]

/-- A call of `CreateFile` keeps the volume intact. -/
theorem Created.intact (hname : name.head? ≠ some deleted) : Intact v' bound := by
  have hbpb := h.bpb
  have hB := Volume.bytesPerCluster_congr hbpb
  have hon := h.on hv hD hchain hnew hname
  have htree := h.sameTree hv hD hchain hnew hname
  have hne : ∀ {y : ℕ}, (Holder.file y).On v bound → y ≠ e := fun hy ↦ by
    obtain ⟨d, -, hyd⟩ := hy
    exact (h.entry_mem hyd.toEntryOf).1
  have hempty : Owns v' bound e [] := .inl ⟨rfl, hnew.firstCluster⟩
  have hparent : (Holder.directory D).Chain v' bound chain' := ⟨h.linked, h.head⟩
  have hcell : ∀ {g : Holder} {l : List ℕ}, g.On v' bound → g.Chain v' bound l →
      (g = .file e ∧ l = []) ∨ (g = .directory D ∧ l = chain') ∨
        g.On v bound ∧ g ≠ .directory D ∧ g.Chain v bound l := by
    intro g l hg hl
    rcases (hon g).mp hg with rfl | hg
    · exact .inl ⟨rfl, Owns.unique hl hempty⟩
    · by_cases hgD : g = .directory D
      · subst hgD
        exact .inr (.inl ⟨rfl, hl.unique hparent⟩)
      · obtain ⟨old, hold⟩ := hv.linked hg
        obtain rfl := (h.chain_kept hv hD hchain hg hgD hold).unique hl
        exact .inr (.inr ⟨hg, hgD, hold⟩)
  refine ⟨by rw [hbpb]; exact hv.geometry, hB ▸ hv.entries, fun {g} hg ↦ ?_, fun {y l} hy hl ↦ ?_, ?_,
    fun {d a} hd ha ↦ ?_, fun {d a} hd ha ↦ ?_, fun {d tail₁} hd htail₁ ↦ ?_⟩
  · rcases (hon g).mp hg with rfl | hg
    · exact ⟨[], hempty⟩
    · by_cases hgD : g = .directory D
      · subst hgD
        exact ⟨chain', hparent⟩
      · obtain ⟨l, hl⟩ := hv.linked hg
        exact ⟨l, h.chain_kept hv hD hchain hg hgD hl⟩
  · rcases (hon _).mp hy with heq | hy
    · rw [Holder.file.inj heq, hnew.fileSize]
      exact Nat.zero_le _
    · obtain ⟨old, hold⟩ := hv.linked hy
      obtain rfl := Owns.unique (h.chain_kept hv hD hchain hy Holder.file_ne_directory hold) hl
      rw [hB, (h.kept hv hD hchain hnew hname hy).size]
      exact hv.capacity hy hold
  · refine hv.disjoint_of_taken (.directory D) fun {g l} hg hl c hc ↦ ?_
    rcases hcell hg hl with ⟨-, rfl⟩ | ⟨rfl, rfl⟩ | ⟨hg, -, hold⟩
    · cases hc
    · rcases hnew.place with rfl | ⟨f, rfl, hf⟩
      · exact .inl ⟨hD, _, Holder.chain_directory hchain, hc⟩
      · rcases List.mem_append.mp hc with hc | hc
        · exact .inl ⟨hD, _, Holder.chain_directory hchain, hc⟩
        · exact .inr ⟨rfl, List.mem_singleton.mp hc ▸ hf.free⟩
    · exact .inl ⟨hg, l, hold, hc⟩
  · have hd' := (htree.isDir d).mp hd
    have ha' := (htree.sub hd').mp ha
    rw [htree.first hd' ha', rootCluster_congr hbpb]
    exact hv.notRoot hd' ha'
  · have ha' := (htree.sub ((htree.isDir d).mp hd)).mp ha
    rw [(h.entryOf_kept ha'.toEntryOf).1.2.1]
    exact hv.named ((htree.isDir d).mp hd) ha'
  · have hd' := (htree.isDir d).mp hd
    by_cases hdD : d = D
    · subst hdD
      obtain rfl := h.linked.unique htail₁ (h.head.trans rfl)
      exact h.clear hv hD hchain hnew
    · obtain ⟨tail₂, htail₂⟩ := hv.wellFormed.linked hd'
      obtain ⟨hlinked, hslots⟩ := h.other_directory hv hD hchain hd' hdD htail₂
      obtain rfl := (List.cons.inj (hlinked.unique htail₁ rfl)).2
      rw [Volume.slots_congr hbpb]
      refine (hv.clear hd' htail₂).imp_of_mem fun {a b} ha hb hab ↦ ?_
      rwa [(hslots a ha).2, (hslots b hb).2]

end Create

end Fat
end MinOS
