import MinOS.Fat.Directory

/-!
# Creating an entry

What `AllocateEntry` and the stores of `CreateFile` change: one entry of the
directory, which was free, and, when the directory was full, one cluster that is
linked behind it.
-/

namespace MinOS
namespace Fat

open ByteMemory

/-! ## The stored name -/

@[simp] theorem length_padded (n : ℕ) (s : List UInt8) : (padded n s).length = n := by
  simp only [padded, List.length_append, List.length_map, List.length_take, List.length_replicate]
  omega

@[simp] theorem length_fileName83 (name : List UInt8) : (fileName83 name).length = 11 := by
  rw [fileName83]
  split <;> simp

/-- Only capital letters are the image of another byte. -/
theorem eq_of_toupper_eq {c b : UInt8} (h : toupper c = b) (hb : b < 0x41 ∨ 0x5a < b) : c = b := by
  rw [toupper] at h
  split_ifs at h with hlower
  · have hlow : (0x61 : UInt8).toNat ≤ c.toNat := UInt8.le_iff_toNat_le.mp hlower.1
    have hhigh : c.toNat ≤ (0x7a : UInt8).toNat := UInt8.le_iff_toNat_le.mp hlower.2
    have hval := congrArg UInt8.toNat h
    rw [UInt8.toNat_sub] at hval
    rw [UInt8.lt_iff_toNat_lt, UInt8.lt_iff_toNat_lt] at hb
    simp at hval hlow hhigh hb
    omega
  · exact h

theorem toupper_ne_zero {c : UInt8} (hc : c ≠ 0) : toupper c ≠ 0 := fun h ↦
  hc (eq_of_toupper_eq h (.inl (by decide)))

theorem zero_notMem_padded {n : ℕ} {s : List UInt8} (hs : (0 : UInt8) ∉ s) :
    (0 : UInt8) ∉ padded n s := by
  intro hmem
  rcases List.mem_append.mp hmem with hmem | hmem
  · obtain ⟨c, hc, hzero⟩ := List.mem_map.mp hmem
    refine toupper_ne_zero ?_ hzero
    rintro rfl
    exact hs (List.mem_of_mem_take hc)
  · exact absurd (List.eq_of_mem_replicate hmem) (by decide)

theorem splitLast_eq {c : UInt8} {s before after : List UInt8}
    (h : splitLast c s = some (before, after)) : s = before ++ c :: after := by
  induction s generalizing before after with
  | nil => cases h
  | cons x s ih =>
      rw [splitLast] at h
      cases hrest : splitLast c s with
      | some r =>
          rw [hrest] at h
          obtain ⟨rfl, rfl⟩ := Prod.mk.inj (Option.some.inj h)
          rw [List.cons_append, ← ih hrest]
      | none =>
          rw [hrest] at h
          dsimp only at h
          split_ifs at h with hx
          obtain ⟨rfl, rfl⟩ := Prod.mk.inj (Option.some.inj h)
          rw [hx]
          rfl

theorem zero_notMem_fileName83 {name : List UInt8} (hname : (0 : UInt8) ∉ name) :
    (0 : UInt8) ∉ fileName83 name := by
  rw [fileName83]
  split
  · next base ext hsplit =>
      rw [splitLast_eq hsplit, List.mem_append, List.mem_cons, not_or, not_or] at hname
      rw [List.mem_append, not_or]
      exact ⟨zero_notMem_padded hname.1, zero_notMem_padded hname.2.2⟩
  · rw [List.mem_append, not_or]
    exact ⟨zero_notMem_padded hname, zero_notMem_padded List.not_mem_nil⟩

namespace Volume

/-! ## The stores -/

theorem setEntry_mem_of_notMem (v : Volume) {entry x : ℕ} (name : List UInt8)
    (h : x < entry ∨ entry + 32 ≤ x) : (v.setEntry entry name).mem x = v.mem x := by
  rw [setEntry_mem, writeBytes_of_notMem, writeBytes_of_notMem]
  · rw [List.length_replicate]
    omega
  · rw [length_fileName83]
    omega

theorem entryName_setEntry (v : Volume) (entry : ℕ) (name : List UInt8) :
    (v.setEntry entry name).entryName entry = fileName83 name := by
  have h := readBytes_writeBytes (writeBytes v.mem entry (List.replicate 32 0)) entry
    (fileName83 name)
  rwa [length_fileName83, ← setEntry_mem] at h

theorem entryAttr_setEntry (v : Volume) (entry : ℕ) (name : List UInt8) :
    (v.setEntry entry name).entryAttr entry = 0 := by
  rw [entryAttr, setEntry_mem, writeBytes_of_notMem _ (by rw [length_fileName83]; omega),
    writeBytes_add _ (by simp)]
  simp

theorem setEntry_mem_add (v : Volume) (entry : ℕ) (name : List UInt8) {i : ℕ} (hlow : 11 ≤ i)
    (hhigh : i < 32) : (v.setEntry entry name).mem (entry + i) = 0 := by
  rw [setEntry_mem, writeBytes_of_notMem _ (by rw [length_fileName83]; omega),
    writeBytes_add _ (by rw [List.length_replicate]; exact hhigh), List.getElem_replicate]

theorem readLE_setEntry (v : Volume) (entry : ℕ) (name : List UInt8) {i width : ℕ} (hlow : 11 ≤ i)
    (hhigh : i + width ≤ 32) : readLE (v.setEntry entry name).mem (entry + i) width = 0 := by
  refine readLE_eq_zero fun x hx hlt ↦ ?_
  obtain ⟨k, rfl⟩ := Nat.exists_eq_add_of_le hx
  rw [Nat.add_assoc, setEntry_mem_add v entry name (by omega) (by omega)]

theorem firstCluster_setEntry (v : Volume) (entry : ℕ) (name : List UInt8) :
    (v.setEntry entry name).firstCluster entry = 0 := by
  rw [firstCluster, readLE_setEntry v entry name (by decide) (by decide),
    readLE_setEntry v entry name (by decide) (by decide), Nat.mul_zero]

theorem fileSize_setEntry (v : Volume) (entry : ℕ) (name : List UInt8) :
    (v.setEntry entry name).fileSize entry = 0 :=
  readLE_setEntry v entry name (by decide) (by decide)

theorem mem_eq_of_entryName {v : Volume} {entry : ℕ} {b : UInt8} {bs : List UInt8}
    (h : v.entryName entry = b :: bs) : v.mem entry = b := by
  have hget := congrArg (fun l : List UInt8 ↦ l[0]?) h
  rw [entryName, getElem?_readBytes v.mem (by decide : 0 < 11)] at hget
  simpa using hget

theorem setEntry_mem_ne_zero (v : Volume) (entry : ℕ) {name : List UInt8}
    (hname : (0 : UInt8) ∉ name) : (v.setEntry entry name).mem entry ≠ 0 := by
  have hentry := v.entryName_setEntry entry name
  cases hbytes : fileName83 name with
  | nil =>
      have hlen := length_fileName83 name
      rw [hbytes] at hlen
      cases hlen
  | cons b bs =>
      rw [hbytes] at hentry
      rw [mem_eq_of_entryName hentry]
      rintro rfl
      have hzero := zero_notMem_fileName83 hname
      rw [hbytes] at hzero
      exact hzero List.mem_cons_self

/-! ## Slots -/

variable {v : Volume} {bound : ℕ}

theorem clusterSlots_congr {v' : Volume} (h : v'.bpb = v.bpb) (c : ℕ) :
    v'.clusterSlots c = v.clusterSlots c := by
  rw [clusterSlots, clusterSlots, entriesPerCluster, entriesPerCluster, bytesPerCluster_congr h,
    getClusterAddr_congr h]

theorem slots_congr {v' : Volume} (h : v'.bpb = v.bpb) (chain : List ℕ) :
    v'.slots chain = v.slots chain := by
  rw [slots, slots]
  congr 1
  funext c
  exact clusterSlots_congr h c

theorem inCluster_of_slot {c a x : ℕ} (ha : a ∈ v.clusterSlots c) (hlow : a ≤ x)
    (hhigh : x < a + 32) : v.InCluster c x := by
  obtain ⟨i, hi, rfl⟩ := List.mem_map.mp ha
  rw [List.mem_range, entriesPerCluster] at hi
  rw [InCluster]
  omega

theorem slots_apart (hg : Geometry v.bpb bound) {c d a b : ℕ} (hc : 2 ≤ c ∧ c < bound)
    (hd : 2 ≤ d ∧ d < bound) (ha : a ∈ v.clusterSlots c) (hb : b ∈ v.clusterSlots d)
    (hne : a ≠ b) : a + 32 ≤ b ∨ b + 32 ≤ a := by
  by_contra hclose
  have hcd : c = d := InCluster.unique hg hc.1 hc.2 hd.1 hd.2
    (inCluster_of_slot (x := max a b) ha (le_max_left a b) (by omega))
    (inCluster_of_slot hb (le_max_right a b) (by omega))
  subst hcd
  obtain ⟨i, -, rfl⟩ := List.mem_map.mp ha
  obtain ⟨j, -, rfl⟩ := List.mem_map.mp hb
  omega

theorem mem_slots {chain : List ℕ} {a : ℕ} :
    a ∈ v.slots chain ↔ ∃ c ∈ chain, a ∈ v.clusterSlots c :=
  List.mem_flatMap

theorem clusterSlots_cons (h : 32 ≤ v.bytesPerCluster) (c : ℕ) :
    ∃ rest, v.clusterSlots c = v.getClusterAddr c :: rest := by
  have hpos : 0 < v.entriesPerCluster := Nat.div_pos h (by decide)
  obtain ⟨n, hn⟩ := Nat.exists_eq_add_of_lt hpos
  rw [clusterSlots, hn, Nat.zero_add, entries_succ]
  exact ⟨_, rfl⟩

end Volume

/-! ## What `CreateFile` leaves -/

/-- The directory `chain` has become `chain'`, with a new entry at `entry` that
was free, and nothing else has changed but entries that no chain uses. -/
structure Created (v v' : Volume) (bound : ℕ) (chain chain' : List ℕ) (entry : ℕ)
    (name : List UInt8) : Prop where
  bpb : v'.bpb = v.bpb
  head : chain'.head? = chain.head?
  linked : FileChain v' bound chain'
  entryName : v'.entryName entry = fileName83 name
  entryAttr : v'.entryAttr entry = 0
  mem_ne_zero : v'.mem entry ≠ 0
  mem : entry ∈ v.slots chain'
  split : ∃ before after rest, v.slots chain' = before ++ entry :: after ∧
    v.slots chain = before ++ rest ∧ (∀ a ∈ before, v.mem a ≠ 0 ∧ v.mem a ≠ deleted) ∧
    (rest = [] ∨ rest = entry :: after ∧ (v.mem entry = 0 ∨ v.mem entry = deleted))
  same : ∀ {c a : ℕ}, 2 ≤ c ∧ c < bound → v.fatEntry c ≠ 0 → a ∈ v.clusterSlots c → a ≠ entry →
    ∀ x, a ≤ x → x < a + 32 → v'.mem x = v.mem x
  ne_entry : ∀ {c a : ℕ}, 2 ≤ c ∧ c < bound → v.fatEntry c ≠ 0 → a ∈ v.clusterSlots c →
    v.mem a ≠ 0 → v.mem a ≠ deleted → a ≠ entry
  other : ∀ {chain₁ : List ℕ}, FileChain v bound chain₁ → (∀ c ∈ chain₁, c ∉ chain) →
    FileChain v' bound chain₁ ∧ ∀ c ∈ chain₁, c ∉ chain'

theorem FileChain.length_le {v : Volume} {bound : ℕ} {chain : List ℕ}
    (h : FileChain v bound chain) : chain.length + 2 ≤ bound := by
  have hsub : chain.toFinset ⊆ Finset.Ico 2 bound := by
    intro c hc
    exact Finset.mem_Ico.mpr (h.inRange c (List.mem_toFinset.mp hc))
  have hcard := Finset.card_le_card hsub
  rw [List.toFinset_card_of_nodup h.nodup, Nat.card_Ico] at hcard
  have hpos := List.length_pos_of_ne_nil h.ne_nil
  omega

section Create

variable {v : Volume} {bound : ℕ} {chain : List ℕ}

/-- Stores behind the table leave the table alone. -/
theorem fatEntry_of_mem_eq {w : Volume} (hbpb : w.bpb = v.bpb)
    (hmem : ∀ x < v.fatOffset + 4 * bound, w.mem x = v.mem x) {d : ℕ} (hd : d < bound) :
    w.fatEntry d = v.fatEntry d := by
  have hoff : w.fatOffset = v.fatOffset := by
    rw [Volume.fatOffset, Volume.fatOffset, hbpb]
  rw [Volume.fatEntry, Volume.fatEntry, hoff]
  exact readLE_congr fun x hx hlt ↦ hmem x (by omega)

theorem created_in_place (hg : Geometry v.bpb bound) (h : FileChain v bound chain) {entry : ℕ}
    {name : List UInt8} (hname : (0 : UInt8) ∉ name) {before after : List ℕ}
    (hslots : v.slots chain = before ++ entry :: after)
    (hbefore : ∀ a ∈ before, v.mem a ≠ 0 ∧ v.mem a ≠ deleted)
    (hentry : v.mem entry = 0 ∨ v.mem entry = deleted) :
    Created v (v.setEntry entry name) bound chain chain entry name := by
  have hmem : entry ∈ v.slots chain := by
    rw [hslots]
    exact List.mem_append_right _ List.mem_cons_self
  obtain ⟨c, hc, hslot⟩ := Volume.mem_slots.mp hmem
  have hrange := h.inRange c hc
  have hfat : ∀ d < bound, (v.setEntry entry name).fatEntry d = v.fatEntry d := by
    intro d hd
    refine fatEntry_of_mem_eq (v.setEntry_bpb entry name)
      (fun x hx ↦ v.setEntry_mem_of_notMem name ?_) hd
    have htable := (Volume.inCluster_of_slot hslot le_rfl (by omega)).table_le hg hrange.1 hrange.2
    omega
  refine ⟨v.setEntry_bpb entry name, rfl, h.congr fun d hd ↦ hfat d (h.inRange d hd).2, v.entryName_setEntry entry name,
    v.entryAttr_setEntry entry name, v.setEntry_mem_ne_zero entry hname, hmem, ?_, ?_, ?_, ?_⟩
  · exact ⟨before, after, _, hslots, hslots, hbefore, .inr ⟨rfl, hentry⟩⟩
  · intro d a hd _ ha hne x hlow hhigh
    apply v.setEntry_mem_of_notMem
    rcases Volume.slots_apart hg hd hrange ha hslot hne with hle | hle <;> omega
  · rintro d a - - - hzero hdeleted rfl
    rcases hentry with hentry | hentry
    · exact hzero hentry
    · exact hdeleted hentry
  · intro chain₁ h₁ hdisj
    exact ⟨h₁.congr fun d hd ↦ hfat d (h₁.inRange d hd).2, hdisj⟩

/-- Clearing a cluster and putting an entry at its start writes nothing else. -/
theorem mem_clearedCluster {w : Volume} {f x : ℕ} (h32 : 32 ≤ w.bytesPerCluster)
    (name : List UInt8) (hx : ¬ w.InCluster f x) :
    ((w.writeCluster f 0 (List.replicate w.bytesPerCluster 0)).setEntry (w.getClusterAddr f)
      name).mem x = w.mem x := by
  rw [Volume.InCluster, not_and_or, not_le, not_lt] at hx
  have hentry : x < w.getClusterAddr f ∨ w.getClusterAddr f + 32 ≤ x :=
    hx.imp_right fun hge ↦ (Nat.add_le_add_left h32 _).trans hge
  have hlen : (List.replicate w.bytesPerCluster (0 : UInt8)).length = w.bytesPerCluster :=
    List.length_replicate
  rw [Volume.setEntry_mem_of_notMem _ name hentry, Volume.writeCluster_mem, Nat.add_zero]
  rcases hx with hlt | hge
  · exact writeBytes_of_lt _ _ hlt
  · exact writeBytes_of_ge _ _ (by rwa [hlen])

/-- The cluster was free, and its slots are clear but for the new entry. -/
structure NewCluster (v v' : Volume) (entry f : ℕ) : Prop where
  free : v.fatEntry f = 0
  clear : ∀ a ∈ v.clusterSlots f, a ≠ entry → v'.mem a = 0

/-- No byte of a cluster in use has changed outside of the entry. -/
def Framed (v v' : Volume) (bound entry : ℕ) : Prop :=
  ∀ {c x : ℕ}, 2 ≤ c ∧ c < bound → v.fatEntry c ≠ 0 → v.InCluster c x →
    x < entry ∨ entry + 32 ≤ x → v'.mem x = v.mem x

/-- The new entry is that of an empty file, in the clusters of the directory or a new one. -/
structure NewEntry (v v' : Volume) (bound entry : ℕ) (chain chain' : List ℕ) : Prop where
  firstCluster : v'.firstCluster entry = 0
  fileSize : v'.fileSize entry = 0
  place : chain' = chain ∨ ∃ f, chain' = chain ++ [f] ∧ NewCluster v v' entry f
  framed : Framed v v' bound entry

theorem created_extended (hg : Geometry v.bpb bound) (h32 : 32 ≤ v.bytesPerCluster)
    (h : FileChain v bound chain) {name : List UInt8} (hname : (0 : UInt8) ∉ name)
    (hfull : ∀ a ∈ v.slots chain, v.mem a ≠ 0 ∧ v.mem a ≠ deleted) {ext : ℕ × Volume}
    (hext : v.extendCluster (bound - 2) (chain.getLast h.ne_nil) 1 = some ext) :
    Created v ((ext.2.writeCluster ext.1 0 (List.replicate ext.2.bytesPerCluster 0)).setEntry
        (ext.2.getClusterAddr ext.1) name) bound chain (chain ++ [ext.1])
        (ext.2.getClusterAddr ext.1) name ∧
      NewCluster v ((ext.2.writeCluster ext.1 0 (List.replicate ext.2.bytesPerCluster 0)).setEntry
        (ext.2.getClusterAddr ext.1) name) (ext.2.getClusterAddr ext.1) ext.1 ∧
      Framed v ((ext.2.writeCluster ext.1 0 (List.replicate ext.2.bytesPerCluster 0)).setEntry
        (ext.2.getClusterAddr ext.1) name) bound (ext.2.getClusterAddr ext.1) := by
  obtain ⟨f, w⟩ := ext
  have hlen := List.length_pos_of_ne_nil h.ne_nil
  have hlast : chain.getLast h.ne_nil = chain[chain.length - 1] := List.getLast_eq_getElem _
  rw [hlast] at hext
  obtain ⟨hgrown, hf, hdata⟩ := extendCluster_grown hg h (i := chain.length - 1) (by omega) hext
  obtain ⟨f', free, hfree⟩ := List.exists_cons_of_length_pos (Nat.lt_of_lt_of_le Nat.zero_lt_one
    hgrown.enough)
  have htake : (v.freeClusters bound).take 1 = [f'] := by rw [hfree]; rfl
  rw [htake] at hf
  obtain rfl : f = f' := hf
  have hlinked := hgrown.linked
  rw [htake] at hlinked
  have hrange : 2 ≤ f ∧ f < bound := hlinked.inRange f (by simp)
  have hzero : v.fatEntry f = 0 := (Volume.mem_freeClusters.mp (hfree ▸ List.mem_cons_self)).2
  have hbpb := hgrown.bpb
  have h32' : 32 ≤ w.bytesPerCluster := by rwa [Volume.bytesPerCluster_congr hbpb]
  have hout : ∀ x, ¬ v.InCluster f x →
      ((w.writeCluster f 0 (List.replicate w.bytesPerCluster 0)).setEntry (w.getClusterAddr f)
        name).mem x = w.mem x := by
    intro x hx
    rw [← Volume.inCluster_congr hbpb] at hx
    exact mem_clearedCluster h32' name hx
  have hfat : ∀ d < bound, ((w.writeCluster f 0 (List.replicate w.bytesPerCluster 0)).setEntry
      (w.getClusterAddr f) name).fatEntry d = w.fatEntry d := by
    intro d hd
    have hsame : ((w.writeCluster f 0 (List.replicate w.bytesPerCluster 0)).setEntry
        (w.getClusterAddr f) name).bpb = w.bpb :=
      (Volume.setEntry_bpb _ _ _).trans (Volume.writeCluster_bpb _ _ _ _)
    have hoff : w.fatOffset = v.fatOffset := by rw [Volume.fatOffset, Volume.fatOffset, hbpb]
    refine fatEntry_of_mem_eq hsame (fun x hx ↦ hout x ?_) hd
    intro hin
    rw [hoff] at hx
    exact absurd hx (not_lt.mpr (hin.table_le hg hrange.1 hrange.2))
  obtain ⟨rest, hrest⟩ := Volume.clusterSlots_cons h32 f
  have haddr := Volume.getClusterAddr_congr hbpb f
  have hslots : v.slots (chain ++ [f]) = v.slots chain ++ v.getClusterAddr f :: rest := by
    rw [Volume.slots, List.flatMap_append, List.flatMap_singleton, hrest, Volume.slots]
  have hsame : ((w.writeCluster f 0 (List.replicate w.bytesPerCluster 0)).setEntry
      (w.getClusterAddr f) name).bpb = v.bpb :=
    ((Volume.setEntry_bpb _ _ _).trans (Volume.writeCluster_bpb _ _ _ _)).trans hbpb
  refine ⟨⟨hsame, ?_, hlinked.congr fun d hd ↦ hfat d (hlinked.inRange d hd).2,
    Volume.entryName_setEntry _ _ name, Volume.entryAttr_setEntry _ _ name,
    Volume.setEntry_mem_ne_zero _ _ hname, ?_, ?_, ?_, ?_, ?_⟩, ⟨hzero, ?_⟩, ?_⟩
  · rw [List.head?_append_of_ne_nil _ h.ne_nil]
  · dsimp only
    rw [haddr, hslots]
    exact List.mem_append_right _ List.mem_cons_self
  · refine ⟨v.slots chain, rest, [], ?_, (List.append_nil _).symm, hfull, .inl rfl⟩
    dsimp only
    rw [haddr, hslots]
  · intro d a hd hne ha _ x hlow hhigh
    have hdf : d ≠ f := by
      rintro rfl
      exact hne hzero
    have hin := Volume.inCluster_of_slot ha hlow hhigh
    have hnot : ¬ v.InCluster f x := fun hin' ↦
      hdf (hin.unique hg hd.1 hd.2 hrange.1 hrange.2 hin')
    exact (hout x hnot).trans (hdata x (hin.table_le hg hd.1 hd.2))
  · intro d a hd hne ha _ _ heq
    have hdf : d ≠ f := by
      rintro rfl
      exact hne hzero
    have hslot : a ∈ v.clusterSlots f := by
      rw [heq, hrest]
      dsimp only
      rw [haddr]
      exact List.mem_cons_self
    exact hdf ((Volume.inCluster_of_slot ha le_rfl (Nat.lt_add_of_pos_right (by decide))).unique hg
      hd.1 hd.2 hrange.1 hrange.2
      (Volume.inCluster_of_slot hslot le_rfl (Nat.lt_add_of_pos_right (by decide))))
  · intro chain₁ h₁ hdisj
    refine ⟨(hgrown.other_chain h₁ hdisj).congr fun d hd ↦ hfat d (h₁.inRange d hd).2, ?_⟩
    intro d hd hmem
    rcases List.mem_append.mp hmem with hmem | hmem
    · exact hdisj d hd hmem
    · obtain rfl := List.mem_singleton.mp hmem
      exact h₁.fatEntry_ne_zero hd hzero
  · intro a ha hne
    obtain ⟨i, hi, rfl⟩ := List.mem_map.mp ha
    dsimp only at hne ⊢
    rw [← haddr] at hne ⊢
    have hi' : 32 * i + 32 ≤ w.bytesPerCluster := by
      rw [List.mem_range, Volume.entriesPerCluster, ← Volume.bytesPerCluster_congr hbpb] at hi
      omega
    rw [Volume.setEntry_mem_of_notMem _ name (by omega), Volume.writeCluster_mem, Nat.add_zero,
      writeBytes_add _ (by rw [List.length_replicate]; omega), List.getElem_replicate]
  · intro d x hd hne hin _
    have hnot : ¬ v.InCluster f x := fun hin' ↦ by
      obtain rfl := hin.unique hg hd.1 hd.2 hrange.1 hrange.2 hin'
      exact hne hzero
    exact (hout x hnot).trans (hdata x (hin.table_le hg hd.1 hd.2))

/-- What `AllocateEntry` and the stores behind it do to a directory. -/
theorem created_of_allocateEntry (hg : Geometry v.bpb bound) (h32 : 32 ≤ v.bytesPerCluster)
    {c : ℕ} {tail : List ℕ} (h : FileChain v bound (c :: tail)) {name : List UInt8}
    (hname : (0 : UInt8) ∉ name) {alloc : ℕ × Volume}
    (halloc : v.allocateEntry bound (bound - 2) c = some alloc) :
    ∃ chain', Created v (alloc.2.setEntry alloc.1 name) bound (c :: tail) chain' alloc.1 name ∧
      NewEntry v (alloc.2.setEntry alloc.1 name) bound alloc.1 (c :: tail) chain' := by
  have hlen := h.length_le
  rw [List.length_cons] at hlen
  rw [Volume.allocateEntry, searchFreeEntry_eq hg tail c bound h (by omega)] at halloc
  cases hfind : (v.slots (c :: tail)).find? fun a ↦ decide (v.mem a = 0 ∨ v.mem a = deleted) with
  | some entry =>
      rw [hfind] at halloc
      obtain rfl := Option.some.inj halloc
      obtain ⟨hentry, before, after, hslots, hbefore⟩ := List.find?_eq_some_iff_append.mp hfind
      refine ⟨c :: tail, created_in_place hg h hname hslots ?_ (by simpa using hentry),
        Volume.firstCluster_setEntry _ _ _, Volume.fileSize_setEntry _ _ _, .inl rfl,
        fun _ _ _ hout ↦ Volume.setEntry_mem_of_notMem _ _ hout⟩
      intro a ha
      simpa using hbefore a ha
  | none =>
      rw [hfind] at halloc
      dsimp only [Option.bind_some] at halloc
      obtain ⟨ext, hext, hres⟩ := Option.bind_eq_some_iff.mp halloc
      obtain rfl := Option.some.inj hres
      obtain ⟨hcreated, hnew, hframed⟩ := created_extended hg h32 h hname (fun a ha ↦ by
        simpa using List.find?_eq_none.mp hfind a ha) hext
      exact ⟨_, hcreated, Volume.firstCluster_setEntry _ _ _, Volume.fileSize_setEntry _ _ _,
        .inr ⟨_, rfl, hnew⟩, hframed⟩

end Create
end Fat
end MinOS
