import MinOS.Library.ByteMemory
import MinOS.Library.LinkedChain

/-!
# The FAT32 volume image

The in-memory volume of `fat.cpp`: the fields of the BIOS parameter block that
the driver reads, the address of a cluster, the file allocation table, and the
two routines that take free clusters from it.  Addresses are relative to
`boot_volume_image`.
-/

namespace MinOS
namespace Fat

open ByteMemory

/-- The fields of the BPB that the driver reads. -/
structure BPB where
  bytesPerSector : UInt16
  sectorsPerCluster : UInt8
  reservedSectorCount : UInt16
  numFats : UInt8
  fatSize32 : UInt32
  rootCluster : UInt32
deriving DecidableEq, Repr

def BPB.bytesPerCluster (b : BPB) : ℕ :=
  b.bytesPerSector.toNat * b.sectorsPerCluster.toNat

structure Volume where
  bpb : BPB
  mem : ℕ → UInt8

namespace Volume

def bytesPerCluster (v : Volume) : ℕ := v.bpb.bytesPerCluster

/-- The first sum is formed in 32 bits, everything after it in 64 bits. -/
def getClusterAddr (v : Volume) (cluster : ℕ) : ℕ :=
  let b := v.bpb
  let sectorNum :=
    ((b.reservedSectorCount.toNat + b.numFats.toNat * b.fatSize32.toNat) % 2 ^ 32 +
      (cluster + (2 ^ 64 - 2)) % 2 ^ 64 * b.sectorsPerCluster.toNat) % 2 ^ 64
  sectorNum * b.bytesPerSector.toNat % 2 ^ 64

/-- The offset of `GetFAT()` in the image. -/
def fatOffset (v : Volume) : ℕ :=
  v.bpb.reservedSectorCount.toNat * v.bpb.bytesPerSector.toNat

/-- `GetFAT()[cluster]`. -/
def fatEntry (v : Volume) (cluster : ℕ) : ℕ :=
  readLE v.mem (v.fatOffset + 4 * cluster) 4

/-- `GetFAT()[cluster] = value`. -/
def setFat (v : Volume) (cluster value : ℕ) : Volume :=
  { v with mem := writeLE v.mem (v.fatOffset + 4 * cluster) 4 value }

end Volume

def kEndOfClusterchain : ℕ := 0x0fffffff

def isEndOfClusterchain (cluster : ℕ) : Bool := 0x0ffffff8 ≤ cluster

namespace Volume

def nextCluster (v : Volume) (cluster : ℕ) : ℕ :=
  let next := v.fatEntry cluster
  if isEndOfClusterchain next then kEndOfClusterchain else next

/-- The first loop of `ExtendCluster`: from a cluster to the last one of its chain. -/
def chainEnd (v : Volume) : ℕ → ℕ → Option ℕ
  | 0, _ => none
  | fuel + 1, eocCluster =>
      if isEndOfClusterchain (v.fatEntry eocCluster) then some eocCluster
      else v.chainEnd fuel (v.fatEntry eocCluster)

/-- The second loop of `ExtendCluster`, with `n` clusters still to allocate. -/
def linkFree : Volume → ℕ → ℕ → ℕ → ℕ → Option (ℕ × Volume)
  | v, _, _, current, 0 => some (current, v.setFat current kEndOfClusterchain)
  | _, 0, _, _, _ + 1 => none
  | v, fuel + 1, candidate, current, n + 1 =>
      if v.fatEntry candidate ≠ 0 then linkFree v fuel (candidate + 1) current (n + 1)
      else linkFree (v.setFat current candidate) fuel (candidate + 1) candidate n

/-- `fuel` bounds the steps of either loop. -/
def extendCluster (v : Volume) (fuel eocCluster n : ℕ) : Option (ℕ × Volume) := do
  let last ← v.chainEnd (fuel + 1) eocCluster
  v.linkFree fuel 2 last n

/-- The search loop of `AllocateClusterChain`. -/
def findFree (v : Volume) : ℕ → ℕ → Option ℕ
  | 0, _ => none
  | fuel + 1, firstCluster =>
      if v.fatEntry firstCluster = 0 then some firstCluster else v.findFree fuel (firstCluster + 1)

def allocateClusterChain (v : Volume) (fuel n : ℕ) : Option (ℕ × Volume) := do
  let firstCluster ← v.findFree fuel 2
  let v := v.setFat firstCluster kEndOfClusterchain
  if n > 1 then
    let r ← v.extendCluster fuel firstCluster (n - 1)
    return (firstCluster, r.2)
  else
    return (firstCluster, v)

end Volume

/-! ## The shape of a volume -/

/-- A volume with clusters `2 .. bound - 1`: the products of the header fields
stay within the types they are formed in, the table has an entry for every
cluster, and no cluster number reads as an end mark. -/
structure Geometry (b : BPB) (bound : ℕ) : Prop where
  bytesPerCluster_pos : 0 < b.bytesPerCluster
  reserved_lt : b.reservedSectorCount.toNat * b.bytesPerSector.toNat < 2 ^ 31
  sectors_lt : b.reservedSectorCount.toNat + b.numFats.toNat * b.fatSize32.toNat < 2 ^ 32
  numFats_pos : 0 < b.numFats.toNat
  table_holds : 4 * bound ≤ b.fatSize32.toNat * b.bytesPerSector.toNat
  bound_le : bound ≤ 0x0ffffff8

namespace Volume

/-- Where the data area starts. -/
def dataOffset (v : Volume) : ℕ :=
  (v.bpb.reservedSectorCount.toNat + v.bpb.numFats.toNat * v.bpb.fatSize32.toNat) *
    v.bpb.bytesPerSector.toNat

@[simp] theorem setFat_bpb (v : Volume) (c x : ℕ) : (v.setFat c x).bpb = v.bpb := rfl

@[simp] theorem setFat_fatOffset (v : Volume) (c x : ℕ) :
    (v.setFat c x).fatOffset = v.fatOffset := rfl

theorem getClusterAddr_congr {v v' : Volume} (h : v'.bpb = v.bpb) (c : ℕ) :
    v'.getClusterAddr c = v.getClusterAddr c := by
  simp [getClusterAddr, h]

theorem bytesPerCluster_congr {v v' : Volume} (h : v'.bpb = v.bpb) :
    v'.bytesPerCluster = v.bytesPerCluster := by
  simp [bytesPerCluster, h]

/-- Within the geometry, clusters lie one after another in the data area. -/
theorem getClusterAddr_eq {v : Volume} {bound : ℕ} (hg : Geometry v.bpb bound) {c : ℕ}
    (h2 : 2 ≤ c) (hc : c < bound) :
    v.getClusterAddr c = v.dataOffset + (c - 2) * v.bytesPerCluster := by
  have hsec : (c + (2 ^ 64 - 2)) % 2 ^ 64 = c - 2 := by
    have hb := hg.bound_le
    omega
  have hspc : v.bpb.sectorsPerCluster.toNat < 2 ^ 8 := v.bpb.sectorsPerCluster.toNat_lt
  have hbps : v.bpb.bytesPerSector.toNat < 2 ^ 16 := v.bpb.bytesPerSector.toNat_lt
  have hprod : (c - 2) * v.bpb.sectorsPerCluster.toNat ≤ 2 ^ 28 * 2 ^ 8 :=
    Nat.mul_le_mul (by have hb := hg.bound_le; omega) hspc.le
  have hsum : v.bpb.reservedSectorCount.toNat + v.bpb.numFats.toNat * v.bpb.fatSize32.toNat +
      (c - 2) * v.bpb.sectorsPerCluster.toNat < 2 ^ 37 := by
    have hs := hg.sectors_lt
    omega
  have haddr : (v.bpb.reservedSectorCount.toNat + v.bpb.numFats.toNat * v.bpb.fatSize32.toNat +
      (c - 2) * v.bpb.sectorsPerCluster.toNat) * v.bpb.bytesPerSector.toNat < 2 ^ 37 * 2 ^ 16 :=
    Nat.mul_lt_mul_of_lt_of_le hsum hbps.le (by decide)
  simp only [getClusterAddr]
  rw [hsec, Nat.mod_eq_of_lt hg.sectors_lt, Nat.mod_eq_of_lt (hsum.trans (by decide)),
    Nat.mod_eq_of_lt (haddr.trans (by decide))]
  simp only [dataOffset, bytesPerCluster, BPB.bytesPerCluster]
  ring

attribute [irreducible] getClusterAddr

theorem table_le_data {v : Volume} {bound : ℕ} (hg : Geometry v.bpb bound) :
    v.fatOffset + 4 * bound ≤ v.dataOffset := by
  have hfats : v.bpb.fatSize32.toNat ≤ v.bpb.numFats.toNat * v.bpb.fatSize32.toNat :=
    Nat.le_mul_of_pos_left _ hg.numFats_pos
  have hsize : v.bpb.fatSize32.toNat * v.bpb.bytesPerSector.toNat ≤
      v.bpb.numFats.toNat * v.bpb.fatSize32.toNat * v.bpb.bytesPerSector.toNat :=
    Nat.mul_le_mul_right _ hfats
  have htable := hg.table_holds
  simp only [fatOffset, dataOffset, Nat.add_mul]
  omega

/-- The address `x` lies in cluster `c`. -/
def InCluster (v : Volume) (c x : ℕ) : Prop :=
  v.getClusterAddr c ≤ x ∧ x < v.getClusterAddr c + v.bytesPerCluster

theorem inCluster_congr {v v' : Volume} (h : v'.bpb = v.bpb) (c x : ℕ) :
    v'.InCluster c x ↔ v.InCluster c x := by
  rw [InCluster, InCluster, getClusterAddr_congr h, bytesPerCluster_congr h]

/-- No address lies in two clusters. -/
theorem InCluster.unique {v : Volume} {bound : ℕ} (hg : Geometry v.bpb bound) {c d x : ℕ}
    (hc2 : 2 ≤ c) (hc : c < bound) (hd2 : 2 ≤ d) (hd : d < bound)
    (hxc : v.InCluster c x) (hxd : v.InCluster d x) : c = d := by
  rw [InCluster, getClusterAddr_eq hg hc2 hc] at hxc
  rw [InCluster, getClusterAddr_eq hg hd2 hd] at hxd
  have hpos : 0 < v.bytesPerCluster := hg.bytesPerCluster_pos
  rcases Nat.lt_trichotomy c d with hlt | heq | hgt
  · have hstep : (c - 2) * v.bytesPerCluster + v.bytesPerCluster ≤ (d - 2) * v.bytesPerCluster := by
      rw [← Nat.succ_mul]
      exact Nat.mul_le_mul_right _ (by omega)
    omega
  · exact heq
  · have hstep : (d - 2) * v.bytesPerCluster + v.bytesPerCluster ≤ (c - 2) * v.bytesPerCluster := by
      rw [← Nat.succ_mul]
      exact Nat.mul_le_mul_right _ (by omega)
    omega

theorem InCluster.table_le {v : Volume} {bound : ℕ} (hg : Geometry v.bpb bound) {c x : ℕ}
    (hc2 : 2 ≤ c) (hc : c < bound) (hx : v.InCluster c x) : v.fatOffset + 4 * bound ≤ x := by
  have htable := table_le_data hg
  rw [InCluster, getClusterAddr_eq hg hc2 hc] at hx
  omega

/-! ## The table as a function -/

theorem fatEntry_lt (v : Volume) (c : ℕ) : v.fatEntry c < 2 ^ 32 :=
  readLE_lt v.mem _ 4

theorem fatEntry_setFat (v : Volume) (c : ℕ) {x : ℕ} (hx : x < 2 ^ 32) :
    (v.setFat c x).fatEntry = Function.update v.fatEntry c x := by
  funext d
  by_cases h : d = c
  · subst h
    rw [Function.update_self, fatEntry, setFat_fatOffset]
    have hread := readLE_writeLE v.mem (v.fatOffset + 4 * d) 4 x
    rwa [Nat.mod_eq_of_lt (by omega : x < 256 ^ 4)] at hread
  · rw [Function.update_of_ne h, fatEntry, setFat_fatOffset]
    apply readLE_writeLE_of_disjoint
    omega

theorem setFat_mem_of_ge (v : Volume) {c x a bound : ℕ} (hc : c < bound)
    (ha : v.fatOffset + 4 * bound ≤ a) : (v.setFat c x).mem a = v.mem a := by
  apply writeLE_of_notMem
  omega

/-- The volume after clusters were linked behind `last`: what the second loop
of `ExtendCluster` leaves. -/
def linkChain : Volume → ℕ → List ℕ → Volume
  | v, last, [] => v.setFat last kEndOfClusterchain
  | v, last, c :: cells => linkChain (v.setFat last c) c cells

@[simp] theorem linkChain_bpb (v : Volume) (last : ℕ) (cells : List ℕ) :
    (v.linkChain last cells).bpb = v.bpb := by
  induction cells generalizing v last with
  | nil => rfl
  | cons c cells ih => exact ih _ _

theorem fatEntry_linkChain (v : Volume) (last : ℕ) (cells : List ℕ)
    (hcells : ∀ c ∈ cells, c < 2 ^ 32) :
    (v.linkChain last cells).fatEntry =
      linkAfter v.fatEntry kEndOfClusterchain last cells := by
  induction cells generalizing v last with
  | nil => exact fatEntry_setFat v last (by decide)
  | cons c cells ih =>
      rw [linkChain, ih _ _ fun d hd ↦ hcells d (by simp [hd]), linkAfter,
        fatEntry_setFat v last (hcells c (by simp))]

theorem linkChain_mem_of_ge (v : Volume) {last a bound : ℕ} {cells : List ℕ} (hlast : last < bound)
    (hcells : ∀ c ∈ cells, c < bound) (ha : v.fatOffset + 4 * bound ≤ a) :
    (v.linkChain last cells).mem a = v.mem a := by
  induction cells generalizing v last with
  | nil => exact setFat_mem_of_ge v hlast ha
  | cons c cells ih =>
      have htail := ih (v.setFat last c) (hcells c (by simp)) (fun d hd ↦ hcells d (by simp [hd])) ha
      exact htail.trans (setFat_mem_of_ge v hlast ha)

/-! ## The search for free clusters -/

/-- The free clusters among `fuel` many from `candidate` on, in order. -/
def freeFrom (v : Volume) (candidate fuel : ℕ) : List ℕ :=
  (List.range' candidate fuel).filter fun c ↦ v.fatEntry c = 0

/-- The free clusters of the volume. -/
def freeClusters (v : Volume) (bound : ℕ) : List ℕ := v.freeFrom 2 (bound - 2)

theorem freeFrom_succ (v : Volume) (candidate fuel : ℕ) :
    v.freeFrom candidate (fuel + 1) =
      if v.fatEntry candidate = 0 then candidate :: v.freeFrom (candidate + 1) fuel
      else v.freeFrom (candidate + 1) fuel := by
  rw [freeFrom, List.range'_succ, List.filter_cons]
  simp [freeFrom]

theorem mem_freeFrom {v : Volume} {candidate fuel c : ℕ} :
    c ∈ v.freeFrom candidate fuel ↔
      (candidate ≤ c ∧ c < candidate + fuel) ∧ v.fatEntry c = 0 := by
  rw [freeFrom, List.mem_filter, List.mem_range'_1, decide_eq_true_iff]

theorem mem_freeClusters {v : Volume} {bound c : ℕ} :
    c ∈ v.freeClusters bound ↔ (2 ≤ c ∧ c < bound) ∧ v.fatEntry c = 0 := by
  rw [freeClusters, mem_freeFrom]
  constructor
  · rintro ⟨⟨h2, hlt⟩, h0⟩
    exact ⟨⟨h2, by omega⟩, h0⟩
  · rintro ⟨⟨h2, hlt⟩, h0⟩
    exact ⟨⟨h2, by omega⟩, h0⟩

theorem nodup_freeFrom (v : Volume) (candidate fuel : ℕ) : (v.freeFrom candidate fuel).Nodup :=
  List.Nodup.filter _ List.nodup_range'

theorem nodup_freeClusters (v : Volume) (bound : ℕ) : (v.freeClusters bound).Nodup :=
  v.nodup_freeFrom 2 (bound - 2)

theorem freeFrom_setFat (v : Volume) {candidate fuel c x : ℕ} (hx : x < 2 ^ 32) (hx0 : x ≠ 0)
    (hc : c < candidate ∨ v.fatEntry c ≠ 0) :
    (v.setFat c x).freeFrom candidate fuel = v.freeFrom candidate fuel := by
  rw [freeFrom, freeFrom, fatEntry_setFat v c hx]
  apply List.filter_congr
  intro d hd
  have hge : candidate ≤ d := (List.mem_range'_1.mp hd).1
  by_cases h : d = c
  · subst h
    have hne : v.fatEntry d ≠ 0 := hc.resolve_left (by omega)
    simp [hne, hx0]
  · rw [Function.update_of_ne h]

/-- The search takes the first free clusters it meets, and it finishes exactly
when there are enough of them. -/
theorem linkFree_eq (v : Volume) {fuel candidate current : ℕ} (n : ℕ)
    (hpos : 0 < candidate) (hsmall : candidate + fuel ≤ 2 ^ 32)
    (hcur : current < candidate ∨ v.fatEntry current ≠ 0) :
    v.linkFree fuel candidate current n =
      if n ≤ (v.freeFrom candidate fuel).length then
        some (((v.freeFrom candidate fuel).take n).getLastD current,
          v.linkChain current ((v.freeFrom candidate fuel).take n))
      else none := by
  induction fuel generalizing v candidate current n with
  | zero =>
      cases n with
      | zero => simp [linkFree, linkChain]
      | succ n => simp [linkFree, freeFrom]
  | succ fuel ih =>
      cases n with
      | zero => simp [linkFree, linkChain]
      | succ n =>
          rw [linkFree, freeFrom_succ]
          by_cases hfree : v.fatEntry candidate = 0
          · have hsame : (v.setFat current candidate).freeFrom (candidate + 1) fuel =
                v.freeFrom (candidate + 1) fuel :=
              freeFrom_setFat v (by omega) (by omega) (by omega)
            rw [if_neg (by simpa using hfree), if_pos hfree,
              ih _ n (by omega) (by omega) (by omega), hsame]
            simp only [List.length_cons, Nat.add_le_add_iff_right, List.take_succ_cons, linkChain,
              List.getLastD_cons]
          · rw [if_pos hfree, if_neg hfree, ih v (n + 1) (by omega) (by omega) (by omega)]

/-- Called at the end of a chain, `ExtendCluster` links the first `n` free
clusters behind it. -/
theorem extendCluster_eq (v : Volume) {fuel last : ℕ} (n : ℕ) (hsmall : fuel + 2 ≤ 2 ^ 32)
    (hlast : isEndOfClusterchain (v.fatEntry last) = true) :
    v.extendCluster fuel last n =
      if n ≤ (v.freeFrom 2 fuel).length then
        some (((v.freeFrom 2 fuel).take n).getLastD last,
          v.linkChain last ((v.freeFrom 2 fuel).take n))
      else none := by
  have hend : v.chainEnd (fuel + 1) last = some last := by simp [chainEnd, hlast]
  have hne : v.fatEntry last ≠ 0 := by
    intro h
    rw [h] at hlast
    exact absurd hlast (by decide)
  rw [extendCluster, hend, Option.bind_eq_bind, Option.bind_some]
  exact linkFree_eq v n (by decide) (by omega) (.inr hne)

theorem findFree_eq (v : Volume) (fuel candidate : ℕ) :
    v.findFree fuel candidate = (v.freeFrom candidate fuel).head? := by
  induction fuel generalizing candidate with
  | zero => rfl
  | succ fuel ih =>
      rw [findFree, freeFrom_succ]
      split
      · rfl
      · exact ih _

end Volume
end Fat
end MinOS
