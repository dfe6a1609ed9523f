import MinOS.Fat.Fuel

/-!
# The clusters in the volume image

The boot loader reads the volume into memory, at most 128 MiB of it.  The searches
for free clusters know neither of this bound nor of the end of the table.
-/

namespace MinOS
namespace Fat

/-- The bytes of the volume that the boot loader reads. -/
def imageBytes (volumeBytes : ℕ) : ℕ :=
  if volumeBytes > 128 * 1024 * 1024 then 128 * 1024 * 1024 else volumeBytes

namespace Volume

variable {v : Volume}

/-- The data of the cluster lies in the image. -/
def InImage (v : Volume) (volumeBytes c : ℕ) : Prop :=
  2 ≤ c ∧ c < 2 ^ 32 ∧ v.getClusterAddr c + v.bytesPerCluster ≤ imageBytes volumeBytes

instance (v : Volume) (volumeBytes c : ℕ) : Decidable (v.InImage volumeBytes c) :=
  inferInstanceAs (Decidable (_ ∧ _ ∧ _))

/-- In any geometry clusters of higher numbers lie at higher addresses. -/
theorem getClusterAddr_mono (v : Volume) {c d : ℕ} (hc : 2 ≤ c) (hle : c ≤ d) (hd : d < 2 ^ 32) :
    v.getClusterAddr c ≤ v.getClusterAddr d := by
  have hspc : v.bpb.sectorsPerCluster.toNat < 2 ^ 8 := v.bpb.sectorsPerCluster.toNat_lt
  have hbps : v.bpb.bytesPerSector.toNat < 2 ^ 16 := v.bpb.bytesPerSector.toNat_lt
  have hbase : (v.bpb.reservedSectorCount.toNat +
      v.bpb.numFats.toNat * v.bpb.fatSize32.toNat) % 2 ^ 32 < 2 ^ 32 := Nat.mod_lt _ (by decide)
  have haddr : ∀ {e : ℕ}, 2 ≤ e → e < 2 ^ 32 → v.getClusterAddr e =
      ((v.bpb.reservedSectorCount.toNat + v.bpb.numFats.toNat * v.bpb.fatSize32.toNat) % 2 ^ 32 +
        (e - 2) * v.bpb.sectorsPerCluster.toNat) * v.bpb.bytesPerSector.toNat := by
    intro e he hlt
    have hsec : (e + (2 ^ 64 - 2)) % 2 ^ 64 = e - 2 := by omega
    have hprod : (e - 2) * v.bpb.sectorsPerCluster.toNat ≤ 2 ^ 32 * 2 ^ 8 :=
      Nat.mul_le_mul (by omega) hspc.le
    have hsum : (v.bpb.reservedSectorCount.toNat + v.bpb.numFats.toNat * v.bpb.fatSize32.toNat) %
        2 ^ 32 + (e - 2) * v.bpb.sectorsPerCluster.toNat < 2 ^ 41 := by omega
    have hmul := Nat.mul_lt_mul_of_lt_of_le hsum hbps.le (by decide)
    rw [getClusterAddr, hsec, Nat.mod_eq_of_lt (hsum.trans (by decide)),
      Nat.mod_eq_of_lt (hmul.trans (by decide))]
  rw [haddr hc (hle.trans_lt hd), haddr (hc.trans hle) hd]
  exact Nat.mul_le_mul_right _ (Nat.add_le_add_left (Nat.mul_le_mul_right _ (by omega)) _)

theorem InImage.of_le {volumeBytes c d : ℕ} (hd : v.InImage volumeBytes d) (hc : 2 ≤ c)
    (hle : c ≤ d) : v.InImage volumeBytes c :=
  ⟨hc, hle.trans_lt hd.2.1,
    (Nat.add_le_add_right (v.getClusterAddr_mono hc hle hd.2.1) _).trans hd.2.2⟩

theorem inImage_setFat (v : Volume) (volumeBytes c x d : ℕ) :
    (v.setFat c x).InImage volumeBytes d ↔ v.InImage volumeBytes d := by
  rw [InImage, InImage, getClusterAddr_congr (v.setFat_bpb c x),
    bytesPerCluster_congr (v.setFat_bpb c x)]

/-- The free clusters whose data lies in the image. -/
def freeInImage (v : Volume) (volumeBytes : ℕ) : Finset ℕ :=
  (Finset.range (2 ^ 32)).filter fun c ↦ v.InImage volumeBytes c ∧ v.fatEntry c = 0

theorem mem_freeInImage {volumeBytes c : ℕ} :
    c ∈ v.freeInImage volumeBytes ↔ v.InImage volumeBytes c ∧ v.fatEntry c = 0 := by
  rw [freeInImage, Finset.mem_filter, Finset.mem_range]
  exact ⟨fun h ↦ h.2, fun h ↦ ⟨h.1.2.1, h⟩⟩

/-! ## The clusters that are linked -/

/-- The clusters that the second loop of `ExtendCluster` links, in order. -/
def linkFreeCells : Volume → ℕ → ℕ → ℕ → ℕ → Option (List ℕ)
  | _, _, _, _, 0 => some []
  | _, 0, _, _, _ + 1 => none
  | v, fuel + 1, candidate, current, n + 1 =>
      if v.fatEntry candidate ≠ 0 then linkFreeCells v fuel (candidate + 1) current (n + 1)
      else
        (linkFreeCells (v.setFat current candidate) fuel (candidate + 1) candidate n).map
          (candidate :: ·)

theorem linkFree_eq_cells (fuel : ℕ) :
    ∀ (v : Volume) (candidate current n : ℕ), v.linkFree fuel candidate current n =
      (v.linkFreeCells fuel candidate current n).map fun cells ↦
        (cells.getLastD current, v.linkChain current cells) := by
  induction fuel with
  | zero =>
      intro v candidate current n
      cases n <;> rfl
  | succ fuel ih =>
      intro v candidate current n
      cases n with
      | zero => rfl
      | succ n =>
          rw [linkFree, linkFreeCells]
          split_ifs with hfree
          · exact ih v _ _ _
          · rw [ih, Option.map_map]
            congr 1
            funext cells
            rw [Function.comp_apply, List.getLastD_cons, linkChain]

/-- Clusters are linked in ascending order, and they were free, as long as their
numbers fit in an entry of the table. -/
theorem linkFreeCells_free {fuel : ℕ} :
    ∀ {v : Volume} {candidate current n : ℕ} {cells : List ℕ}, 0 < candidate →
      current < candidate ∨ v.fatEntry current ≠ 0 →
      v.linkFreeCells fuel candidate current n = some cells → (∀ c ∈ cells, c < 2 ^ 32) →
      cells.length = n ∧ cells.Pairwise (· < ·) ∧
        ∀ c ∈ cells, candidate ≤ c ∧ v.fatEntry c = 0 := by
  induction fuel with
  | zero =>
      intro v candidate current n cells _ _ h _
      cases n with
      | zero =>
          obtain rfl := Option.some.inj h
          simp
      | succ n => cases h
  | succ fuel ih =>
      intro v candidate current n cells hpos hcur h hlt
      cases n with
      | zero =>
          obtain rfl := Option.some.inj h
          simp
      | succ n =>
          rw [linkFreeCells] at h
          split_ifs at h with hfree
          · obtain ⟨hlen, hsorted, hcells⟩ := ih (Nat.succ_pos _) (hcur.imp_left Nat.lt_succ_of_lt)
              h hlt
            exact ⟨hlen, hsorted, fun c hc ↦ ⟨(Nat.le_succ _).trans (hcells c hc).1,
              (hcells c hc).2⟩⟩
          · obtain ⟨rest, hrest, rfl⟩ := Option.map_eq_some_iff.mp h
            have hcand := hlt candidate List.mem_cons_self
            obtain ⟨hlen, hsorted, hcells⟩ := ih (Nat.succ_pos _) (.inl (Nat.lt_succ_self _))
              hrest fun c hc ↦ hlt c (List.mem_cons_of_mem _ hc)
            refine ⟨by rw [List.length_cons, hlen], List.pairwise_cons.mpr
              ⟨fun c hc ↦ (hcells c hc).1, hsorted⟩, ?_⟩
            rintro c hc
            rcases List.mem_cons.mp hc with rfl | hc
            · exact ⟨le_rfl, not_not.mp hfree⟩
            · obtain ⟨hge, hzero⟩ := hcells c hc
              rw [fatEntry_setFat v current hcand] at hzero
              have hne : c ≠ current := by
                rintro rfl
                rw [Function.update_self] at hzero
                omega
              rw [Function.update_of_ne hne] at hzero
              exact ⟨(Nat.le_succ _).trans hge, hzero⟩

/-- As many clusters as are free within the bound are found, the first ones. -/
theorem linkFreeCells_eq {fuel : ℕ} :
    ∀ {v : Volume} {candidate current n : ℕ}, 0 < candidate → candidate + fuel ≤ 2 ^ 32 →
      current < candidate ∨ v.fatEntry current ≠ 0 →
      n ≤ (v.freeFrom candidate fuel).length →
      v.linkFreeCells fuel candidate current n = some ((v.freeFrom candidate fuel).take n) := by
  induction fuel with
  | zero =>
      intro v candidate current n _ _ _ hn
      obtain rfl : n = 0 := Nat.le_zero.mp hn
      rfl
  | succ fuel ih =>
      intro v candidate current n hpos hsmall hcur hn
      cases n with
      | zero => rfl
      | succ n =>
          rw [linkFreeCells]
          rw [freeFrom_succ] at hn ⊢
          by_cases hfree : v.fatEntry candidate = 0
          · rw [if_pos hfree] at hn ⊢
            rw [if_neg (not_not.mpr hfree)]
            have hsame : (v.setFat current candidate).freeFrom (candidate + 1) fuel =
                v.freeFrom (candidate + 1) fuel :=
              freeFrom_setFat v (by omega) (by omega) (hcur.imp_left Nat.lt_succ_of_lt)
            rw [ih (Nat.succ_pos _) (by omega) (.inl (Nat.lt_succ_self _))
              (by rw [hsame]; exact Nat.le_of_succ_le_succ hn), hsame]
            rfl
          · rw [if_neg hfree] at hn ⊢
            rw [if_pos hfree]
            exact ih (Nat.succ_pos _) (by omega) (hcur.imp_left Nat.lt_succ_of_lt) hn

theorem linkFreeCells_mono {fuel : ℕ} :
    ∀ {v : Volume} {fuel' candidate current n : ℕ} {cells : List ℕ}, fuel ≤ fuel' →
      v.linkFreeCells fuel candidate current n = some cells →
      v.linkFreeCells fuel' candidate current n = some cells := by
  induction fuel with
  | zero =>
      intro v fuel' candidate current n cells _ h
      cases n with
      | zero => cases fuel' <;> exact h
      | succ n => cases h
  | succ fuel ih =>
      intro v fuel' candidate current n cells hle h
      obtain ⟨fuel', rfl⟩ : ∃ k, fuel' = k + 1 := ⟨fuel' - 1, by omega⟩
      cases n with
      | zero => exact h
      | succ n =>
          rw [linkFreeCells] at h ⊢
          split_ifs at h ⊢ with hfree
          · exact ih (by omega) h
          · obtain ⟨rest, hrest, rfl⟩ := Option.map_eq_some_iff.mp h
            rw [ih (by omega) hrest]
            rfl

theorem isEnd_of_chainEnd {fuel c last : ℕ} (h : v.chainEnd fuel c = some last) :
    isEndOfClusterchain (v.fatEntry last) = true := by
  induction fuel generalizing c with
  | zero => cases h
  | succ fuel ih =>
      rw [chainEnd] at h
      split_ifs at h with hend
      · obtain rfl := Option.some.inj h
        exact hend
      · exact ih h

theorem fatEntry_ne_zero_of_chainEnd {fuel c last : ℕ} (h : v.chainEnd fuel c = some last) :
    v.fatEntry last ≠ 0 := by
  intro hzero
  have hend := isEnd_of_chainEnd h
  rw [hzero] at hend
  exact absurd hend (by decide)

/-- `ExtendCluster` with the clusters that it links behind the end of the chain. -/
def extendCells (v : Volume) (fuel eocCluster n : ℕ) : Option (ℕ × List ℕ) :=
  (v.chainEnd (fuel + 1) eocCluster).bind fun last ↦
    (v.linkFreeCells fuel 2 last n).map fun cells ↦ (last, cells)

theorem extendCluster_eq_cells (v : Volume) (fuel c n : ℕ) :
    v.extendCluster fuel c n =
      (v.extendCells fuel c n).map fun r ↦ (r.2.getLastD r.1, v.linkChain r.1 r.2) := by
  rw [extendCluster, extendCells, Option.bind_eq_bind]
  cases v.chainEnd (fuel + 1) c with
  | none => rfl
  | some last =>
      rw [Option.bind_some, Option.bind_some, linkFree_eq_cells, Option.map_map]
      rfl

/-- `AllocateClusterChain` with the first cluster and those that it links behind it. -/
def allocateCells (v : Volume) (fuel n : ℕ) : Option (ℕ × List ℕ) :=
  (v.findFree fuel 2).bind fun firstCluster ↦
    if n > 1 then
      ((v.setFat firstCluster kEndOfClusterchain).extendCells fuel firstCluster (n - 1)).map
        fun r ↦ (firstCluster, r.2)
    else some (firstCluster, [])

theorem chainEnd_setFat (v : Volume) (fuel c : ℕ) :
    (v.setFat c kEndOfClusterchain).chainEnd (fuel + 1) c = some c := by
  rw [chainEnd, fatEntry_setFat v c (by decide), Function.update_self, if_pos (by decide)]

theorem allocateClusterChain_eq_cells (v : Volume) (fuel n : ℕ) :
    v.allocateClusterChain fuel n =
      (v.allocateCells fuel n).map fun r ↦ (r.1,
        if n > 1 then (v.setFat r.1 kEndOfClusterchain).linkChain r.1 r.2
        else v.setFat r.1 kEndOfClusterchain) := by
  rw [allocateClusterChain, allocateCells, Option.bind_eq_bind]
  cases v.findFree fuel 2 with
  | none => rfl
  | some first =>
      rw [Option.bind_some, Option.bind_some]
      split_ifs with hn
      · dsimp only
        rw [extendCluster_eq_cells, extendCells, chainEnd_setFat, Option.bind_some]
        cases (v.setFat first kEndOfClusterchain).linkFreeCells fuel 2 first (n - 1) <;> rfl
      · rfl

/-! ## When there is room in the image -/

/-- The first elements of an ascending list have a property that is closed
downwards, when that many have it. -/
theorem forall_mem_take_of_card {l : List ℕ} (hsorted : l.Pairwise (· < ·)) {P : ℕ → Prop}
    (hdown : ∀ c ∈ l, ∀ d ∈ l, c ≤ d → P d → P c) {s : Finset ℕ} (hs : ∀ c ∈ s, c ∈ l ∧ P c)
    {n : ℕ} (hn : n ≤ s.card) : n ≤ l.length ∧ ∀ c ∈ l.take n, P c := by
  constructor
  · have hsub : s ⊆ l.toFinset := fun c hc ↦ List.mem_toFinset.mpr (hs c hc).1
    exact hn.trans ((Finset.card_le_card hsub).trans l.toFinset_card_le)
  · intro c hc
    obtain ⟨i, hi, rfl⟩ := List.getElem_of_mem hc
    rw [List.length_take] at hi
    rw [List.getElem_take]
    by_contra hnot
    -- what has the property stands before the element that has it not
    have hsub : s ⊆ (l.take i).toFinset := by
      intro d hd
      obtain ⟨hmem, hP⟩ := hs d hd
      obtain ⟨j, hj, rfl⟩ := List.getElem_of_mem hmem
      have hlt : j < i := by
        by_contra hge
        refine hnot (hdown _ (List.getElem_mem _) _ hmem ?_ hP)
        rcases (not_lt.mp hge).lt_or_eq with hlt | rfl
        · exact (List.pairwise_iff_getElem.mp hsorted i j _ _ hlt).le
        · exact le_rfl
      exact List.mem_toFinset.mpr (List.mem_take_iff_getElem.mpr ⟨j, by omega, rfl⟩)
    have hcard := (Finset.card_le_card hsub).trans (List.toFinset_card_le _)
    rw [List.length_take] at hcard
    omega

theorem sorted_freeFrom (v : Volume) (candidate fuel : ℕ) :
    (v.freeFrom candidate fuel).Pairwise (· < ·) :=
  List.Pairwise.filter _ List.pairwise_lt_range'

/-- With enough free clusters in the image the first ones are in the image. -/
theorem take_freeFrom_inImage {volumeBytes n : ℕ} (hn : n ≤ (v.freeInImage volumeBytes).card) :
    ∃ fuel, 2 + fuel = 2 ^ 32 ∧ n ≤ (v.freeFrom 2 fuel).length ∧
      ∀ c ∈ (v.freeFrom 2 fuel).take n, v.InImage volumeBytes c := by
  obtain ⟨fuel, hfuel⟩ : ∃ fuel, 2 + fuel = 2 ^ 32 := ⟨2 ^ 32 - 2, by omega⟩
  have hdown : ∀ c ∈ v.freeFrom 2 fuel, ∀ d ∈ v.freeFrom 2 fuel, c ≤ d →
      v.InImage volumeBytes d → v.InImage volumeBytes c :=
    fun c hc d _ hle hd ↦ hd.of_le (mem_freeFrom.mp hc).1.1 hle
  have hs : ∀ c ∈ v.freeInImage volumeBytes, c ∈ v.freeFrom 2 fuel ∧ v.InImage volumeBytes c := by
    intro c hc
    obtain ⟨himage, hzero⟩ := mem_freeInImage.mp hc
    exact ⟨mem_freeFrom.mpr ⟨⟨himage.1, hfuel.symm ▸ himage.2.1⟩, hzero⟩, himage⟩
  exact ⟨fuel, hfuel, forall_mem_take_of_card (v.sorted_freeFrom 2 fuel) hdown hs hn⟩

theorem linkFreeCells_inImage {volumeBytes current n : ℕ} (hcur : v.fatEntry current ≠ 0)
    (hn : n ≤ (v.freeInImage volumeBytes).card) :
    ∃ fuel cells, v.linkFreeCells fuel 2 current n = some cells ∧
      ∀ c ∈ cells, v.InImage volumeBytes c := by
  obtain ⟨fuel, hfuel, hlen, himage⟩ := take_freeFrom_inImage hn
  exact ⟨fuel, _, linkFreeCells_eq (by decide) hfuel.le (.inr hcur) hlen, himage⟩

theorem findFree_inImage {volumeBytes : ℕ} (hn : 1 ≤ (v.freeInImage volumeBytes).card) :
    ∃ fuel first, v.findFree fuel 2 = some first ∧ v.InImage volumeBytes first := by
  obtain ⟨fuel, -, hlen, himage⟩ := take_freeFrom_inImage hn
  cases hfree : v.freeFrom 2 fuel with
  | nil =>
      rw [hfree] at hlen
      exact absurd hlen (by decide)
  | cons first rest =>
      rw [hfree] at himage
      exact ⟨fuel, first, by rw [findFree_eq, hfree, List.head?_cons], himage first (by simp)⟩

/-- A search that stays in the image finds free clusters there. -/
theorem card_of_linkFreeCells {volumeBytes fuel current n : ℕ} {cells : List ℕ}
    (hcur : v.fatEntry current ≠ 0) (h : v.linkFreeCells fuel 2 current n = some cells)
    (himage : ∀ c ∈ cells, v.InImage volumeBytes c) :
    n ≤ (v.freeInImage volumeBytes).card := by
  obtain ⟨hlen, hsorted, hcells⟩ := linkFreeCells_free (by decide) (.inr hcur) h
    fun c hc ↦ (himage c hc).2.1
  have hnodup : cells.Nodup := hsorted.imp ne_of_lt
  have hsub : cells.toFinset ⊆ v.freeInImage volumeBytes := fun c hc ↦
    mem_freeInImage.mpr ⟨himage c (List.mem_toFinset.mp hc), (hcells c (List.mem_toFinset.mp hc)).2⟩
  rw [← hlen, ← List.toFinset_card_of_nodup hnodup]
  exact Finset.card_le_card hsub

/-- `ExtendCluster` ends and links clusters in the image only. -/
def ExtendsInImage (v : Volume) (volumeBytes eocCluster n : ℕ) : Prop :=
  ∃ fuel last cells, v.extendCells fuel eocCluster n = some (last, cells) ∧
    v.extendCluster fuel eocCluster n = some (cells.getLastD last, v.linkChain last cells) ∧
    ∀ c ∈ cells, v.InImage volumeBytes c

/-- `AllocateClusterChain` ends and takes clusters in the image only. -/
def AllocatesInImage (v : Volume) (volumeBytes n : ℕ) : Prop :=
  ∃ fuel first cells, v.allocateCells fuel n = some (first, cells) ∧
    (v.allocateClusterChain fuel n).map Prod.fst = some first ∧
    ∀ c ∈ first :: cells, v.InImage volumeBytes c

theorem extendsInImage_iff (v : Volume) (volumeBytes c n : ℕ) :
    v.ExtendsInImage volumeBytes c n ↔
      (∃ fuel last, v.chainEnd fuel c = some last) ∧ n ≤ (v.freeInImage volumeBytes).card := by
  constructor
  · rintro ⟨fuel, last, cells, hcells, -, himage⟩
    obtain ⟨last', hend, hlink⟩ := Option.bind_eq_some_iff.mp hcells
    obtain ⟨cells', hlink', heq⟩ := Option.map_eq_some_iff.mp hlink
    obtain ⟨rfl, rfl⟩ := Prod.mk.inj heq
    exact ⟨⟨_, _, hend⟩, card_of_linkFreeCells (fatEntry_ne_zero_of_chainEnd hend) hlink' himage⟩
  · rintro ⟨⟨fuel, last, hend⟩, hn⟩
    obtain ⟨fuel', cells, hlink, himage⟩ :=
      linkFreeCells_inImage (fatEntry_ne_zero_of_chainEnd hend) hn
    have hcells : v.extendCells (max fuel fuel') c n = some (last, cells) := by
      rw [extendCells, chainEnd_mono (by omega) hend, Option.bind_some,
        linkFreeCells_mono (le_max_right _ _) hlink]
      rfl
    refine ⟨_, last, cells, hcells, ?_, himage⟩
    rw [extendCluster_eq_cells, hcells]
    rfl

theorem freeInImage_setFat {volumeBytes c : ℕ} :
    (v.setFat c kEndOfClusterchain).freeInImage volumeBytes =
      (v.freeInImage volumeBytes).erase c := by
  ext d
  rw [Finset.mem_erase, mem_freeInImage, mem_freeInImage, inImage_setFat,
    fatEntry_setFat v c (by decide)]
  by_cases hd : d = c
  · subst hd
    simp [kEndOfClusterchain]
  · simp [hd]

/-- The first cluster is the lowest free one. -/
theorem findFree_spec {fuel candidate first : ℕ} (h : v.findFree fuel candidate = some first) :
    candidate ≤ first ∧ v.fatEntry first = 0 := by
  rw [findFree_eq] at h
  obtain ⟨hrange, hzero⟩ := mem_freeFrom.mp (List.mem_of_mem_head? h)
  exact ⟨hrange.1, hzero⟩

theorem extendCells_mono {fuel fuel' c n : ℕ} {r : ℕ × List ℕ} (hle : fuel ≤ fuel')
    (h : v.extendCells fuel c n = some r) : v.extendCells fuel' c n = some r := by
  obtain ⟨last, hend, hlink⟩ := Option.bind_eq_some_iff.mp h
  obtain ⟨cells, hcells, rfl⟩ := Option.map_eq_some_iff.mp hlink
  rw [extendCells, chainEnd_mono (by omega) hend, Option.bind_some, linkFreeCells_mono hle hcells]
  rfl

theorem allocatesInImage_iff (v : Volume) (volumeBytes n : ℕ) :
    v.AllocatesInImage volumeBytes n ↔ max 1 n ≤ (v.freeInImage volumeBytes).card := by
  constructor
  · rintro ⟨fuel, first, cells, hcells, -, himage⟩
    obtain ⟨first', hfind, hrest⟩ := Option.bind_eq_some_iff.mp hcells
    have hfirst : first' = first := by
      split_ifs at hrest
      · obtain ⟨r, -, heq⟩ := Option.map_eq_some_iff.mp hrest
        exact (Prod.mk.inj heq).1
      · exact (Prod.mk.inj (Option.some.inj hrest)).1
    subst hfirst
    have hmem : first' ∈ v.freeInImage volumeBytes :=
      mem_freeInImage.mpr ⟨himage _ List.mem_cons_self, (findFree_spec hfind).2⟩
    have hpos := Finset.card_pos.mpr ⟨_, hmem⟩
    split_ifs at hrest with hn
    · obtain ⟨⟨last, cells'⟩, hext, heq⟩ := Option.map_eq_some_iff.mp hrest
      obtain ⟨-, rfl⟩ := Prod.mk.inj heq
      have hle := ((extendsInImage_iff _ volumeBytes first' (n - 1)).mp
        ⟨fuel, last, cells', hext, by rw [extendCluster_eq_cells, hext]; rfl, fun c hc ↦
          (inImage_setFat v volumeBytes _ _ c).mpr (himage c (List.mem_cons_of_mem _ hc))⟩).2
      rw [freeInImage_setFat, Finset.card_erase_of_mem hmem] at hle
      omega
    · omega
  · intro hmax
    obtain ⟨fuel, first, hfind, hfirst⟩ := findFree_inImage (le_trans (le_max_left _ _) hmax)
    have hmem : first ∈ v.freeInImage volumeBytes :=
      mem_freeInImage.mpr ⟨hfirst, (findFree_spec hfind).2⟩
    have hcells : ∃ fuel cells, v.allocateCells fuel n = some (first, cells) ∧
        ∀ c ∈ cells, v.InImage volumeBytes c := by
      by_cases hn : n > 1
      · have hcard : n - 1 ≤
            ((v.setFat first kEndOfClusterchain).freeInImage volumeBytes).card := by
          rw [freeInImage_setFat, Finset.card_erase_of_mem hmem]
          omega
        obtain ⟨fuel', last, cells, hext, -, himage⟩ :=
          (extendsInImage_iff _ volumeBytes first (n - 1)).mpr
            ⟨⟨_, _, v.chainEnd_setFat 0 first⟩, hcard⟩
        refine ⟨max fuel fuel', cells, ?_, fun c hc ↦ (inImage_setFat ..).mp (himage c hc)⟩
        rw [allocateCells, findFree_mono (le_max_left _ _) hfind, Option.bind_some, if_pos hn,
          extendCells_mono (le_max_right _ _) hext]
        rfl
      · refine ⟨fuel, [], ?_, by simp⟩
        rw [allocateCells, hfind, Option.bind_some, if_neg hn]
    obtain ⟨fuel, cells, hcells, himage⟩ := hcells
    refine ⟨fuel, first, cells, hcells, ?_, List.forall_mem_cons.mpr ⟨hfirst, himage⟩⟩
    rw [allocateClusterChain_eq_cells, hcells]
    rfl

/-- The two routines end within the image exactly when it has enough free clusters:
`AllocateClusterChain` takes at least one, and `ExtendCluster` has to come to the end
of the chain. -/
theorem staysInImage_iff (v : Volume) (volumeBytes : ℕ) :
    (∀ n, v.AllocatesInImage volumeBytes n ↔ max 1 n ≤ (v.freeInImage volumeBytes).card) ∧
      ∀ c n, v.ExtendsInImage volumeBytes c n ↔
        (∃ fuel last, v.chainEnd fuel c = some last) ∧
          n ≤ (v.freeInImage volumeBytes).card :=
  ⟨v.allocatesInImage_iff volumeBytes, v.extendsInImage_iff volumeBytes⟩

end Volume

/-! ## A full volume -/

/-- A volume of 2048 bytes with the clusters 2 and 3, both in use. -/
def fullVolume : Volume where
  bpb :=
    { bytesPerSector := 512
      sectorsPerCluster := 1
      reservedSectorCount := 1
      numFats := 1
      fatSize32 := 1
      rootCluster := 2 }
  mem := fun x ↦ if 512 ≤ x ∧ x < 528 then if x % 4 = 3 then 0x0f else 0xff else 0

/-- Both routines take cluster 4, which lies behind the end of the volume. -/
theorem not_staysInImage_full :
    (fullVolume.allocateClusterChain 8 1).map Prod.fst = some 4 ∧
      (fullVolume.extendCluster 8 2 1).map Prod.fst = some 4 ∧
      fullVolume.getClusterAddr 4 = imageBytes 2048 ∧
      ¬ fullVolume.AllocatesInImage 2048 1 := by
  have hfind : fullVolume.findFree 8 2 = some 4 := by decide +kernel
  refine ⟨by decide +kernel, by decide +kernel, by decide +kernel, ?_⟩
  rintro ⟨fuel, first, cells, hcells, -, himage⟩
  obtain ⟨first', hfind', hrest⟩ := Option.bind_eq_some_iff.mp hcells
  obtain ⟨rfl, rfl⟩ := Prod.mk.inj (Option.some.inj hrest)
  have heq : some first' = some 4 :=
    (Volume.findFree_mono (le_max_right 8 fuel) hfind').symm.trans
      (Volume.findFree_mono (le_max_left 8 fuel) hfind)
  obtain rfl := Option.some.inj heq
  exact absurd (himage 4 List.mem_cons_self) (by decide +kernel)

end Fat
end MinOS
