import MinOS.Fat.Chain

/-!
# One turn of `Write`

A write position is a place in the chain of the file.  A turn of the loop of
`Write` only stores at or behind that position, and it only changes the table
by growing the chain.
-/

namespace MinOS
namespace Fat

open ByteMemory

/-- Cluster `c` and offset `off` are position `p` of the chain.  The offset may
rest at the end of the cluster. -/
def Cursor (v : Volume) (chain : List ℕ) (c off p : ℕ) : Prop :=
  ∃ k, chain[k]? = some c ∧ off ≤ v.bytesPerCluster ∧ p = k * v.bytesPerCluster + off

/-- The address of a byte at or behind position `p` of the chain. -/
def AtOrBehind (v : Volume) (chain : List ℕ) (p x : ℕ) : Prop :=
  ∃ j c o, chain[j]? = some c ∧ o < v.bytesPerCluster ∧ x = v.getClusterAddr c + o ∧
    p ≤ j * v.bytesPerCluster + o

/-- The chain has grown by `t` clusters, and behind the table only bytes at or
behind position `p` of it have changed. -/
structure Wrote (v v' : Volume) (bound : ℕ) (chain : List ℕ) (t p : ℕ) : Prop where
  grown : Grown v v' bound chain t
  data : ∀ x, v.fatOffset + 4 * bound ≤ x →
    ¬ AtOrBehind v (chain ++ (v.freeClusters bound).take t) p x → v'.mem x = v.mem x

theorem fatOffset_congr {v v' : Volume} (h : v'.bpb = v.bpb) : v'.fatOffset = v.fatOffset := by
  simp [Volume.fatOffset, h]

theorem cursor_congr {v v' : Volume} (h : v'.bpb = v.bpb) {chain : List ℕ} {c off p : ℕ} :
    Cursor v' chain c off p ↔ Cursor v chain c off p := by
  simp [Cursor, Volume.bytesPerCluster_congr h]

theorem Cursor.append {v : Volume} {chain : List ℕ} {c off p : ℕ} (h : Cursor v chain c off p)
    (more : List ℕ) : Cursor v (chain ++ more) c off p := by
  obtain ⟨k, hk, hoff, hp⟩ := h
  refine ⟨k, ?_, hoff, hp⟩
  rw [List.getElem?_append_left (List.getElem?_eq_some_iff.mp hk).1, hk]

theorem Cursor.mem {v : Volume} {chain : List ℕ} {c off p : ℕ} (h : Cursor v chain c off p) :
    c ∈ chain := by
  obtain ⟨k, hk, -, -⟩ := h
  exact List.mem_of_getElem? hk

theorem Cursor.le {v : Volume} {chain : List ℕ} {c off p : ℕ} (h : Cursor v chain c off p) :
    p ≤ chain.length * v.bytesPerCluster := by
  obtain ⟨k, hk, hoff, rfl⟩ := h
  have hlt : k < chain.length := (List.getElem?_eq_some_iff.mp hk).1
  calc k * v.bytesPerCluster + off ≤ k * v.bytesPerCluster + v.bytesPerCluster :=
        Nat.add_le_add_left hoff _
    _ = (k + 1) * v.bytesPerCluster := (Nat.succ_mul _ _).symm
    _ ≤ chain.length * v.bytesPerCluster := Nat.mul_le_mul_right _ hlt

theorem AtOrBehind.inCluster {v : Volume} {chain : List ℕ} {p x : ℕ}
    (h : AtOrBehind v chain p x) : ∃ c ∈ chain, v.InCluster c x := by
  obtain ⟨j, c, o, hj, ho, rfl, -⟩ := h
  exact ⟨c, List.mem_of_getElem? hj, by simp [Volume.InCluster, ho]⟩

theorem AtOrBehind.mono {v v' : Volume} (hbpb : v'.bpb = v.bpb) {chain more : List ℕ} {p p' x : ℕ}
    (h : AtOrBehind v' chain p' x) (hp : p ≤ p') : AtOrBehind v (chain ++ more) p x := by
  obtain ⟨j, c, o, hj, ho, hx, hle⟩ := h
  rw [Volume.bytesPerCluster_congr hbpb] at ho hle
  rw [Volume.getClusterAddr_congr hbpb] at hx
  refine ⟨j, c, o, ?_, ho, hx, hp.trans hle⟩
  rw [List.getElem?_append_left (List.getElem?_eq_some_iff.mp hj).1, hj]

theorem AtOrBehind.congr {v v' : Volume} (hbpb : v'.bpb = v.bpb) {chain : List ℕ} {p x : ℕ}
    (h : AtOrBehind v' chain p x) : AtOrBehind v chain p x := by
  have hmono := @AtOrBehind.mono _ _ hbpb _ [] _ _ _ h le_rfl
  rwa [List.append_nil] at hmono

/-- The table only depends on its own bytes. -/
theorem fatEntry_congr {v v' : Volume} {bound : ℕ} (hbpb : v'.bpb = v.bpb)
    (hmem : ∀ x, x < v.fatOffset + 4 * bound → v'.mem x = v.mem x) :
    ∀ d < bound, v'.fatEntry d = v.fatEntry d := by
  intro d hd
  rw [Volume.fatEntry, Volume.fatEntry, fatOffset_congr hbpb]
  apply readLE_congr
  intro x _ hx
  exact hmem x (by omega)

theorem Wrote.refl {v : Volume} {bound : ℕ} {chain : List ℕ} (h : FileChain v bound chain)
    (p : ℕ) : Wrote v v bound chain 0 p :=
  ⟨Grown.refl h, fun _ _ _ ↦ rfl⟩

theorem Wrote.trans {v v₁ v₂ : Volume} {bound t₁ t₂ p p₁ : ℕ} {chain : List ℕ}
    (h₁ : Wrote v v₁ bound chain t₁ p)
    (h₂ : Wrote v₁ v₂ bound (chain ++ (v.freeClusters bound).take t₁) t₂ p₁) (hp : p ≤ p₁) :
    Wrote v v₂ bound chain (t₁ + t₂) p := by
  have htake : chain ++ (v.freeClusters bound).take (t₁ + t₂) =
      (chain ++ (v.freeClusters bound).take t₁) ++ (v₁.freeClusters bound).take t₂ := by
    rw [List.take_add, h₁.grown.free, List.append_assoc]
  refine ⟨h₁.grown.trans h₂.grown, ?_⟩
  intro x hx hnot
  rw [htake] at hnot
  have hbpb := h₁.grown.bpb
  rw [h₂.data x (by rwa [fatOffset_congr hbpb]), h₁.data x hx]
  · intro hat
    exact hnot (hat.mono rfl le_rfl)
  · intro hat
    apply hnot
    have hmono := @AtOrBehind.mono _ _ hbpb _ [] _ _ _ hat hp
    rwa [List.append_nil] at hmono

/-! ## Sizes in clusters -/

theorem le_numCluster_mul {v : Volume} (hpos : 0 < v.bytesPerCluster) (n : ℕ) :
    n ≤ v.numCluster n * v.bytesPerCluster := by
  have hmod := Nat.mod_lt (n + v.bytesPerCluster - 1) hpos
  have hdiv := Nat.div_add_mod (n + v.bytesPerCluster - 1) v.bytesPerCluster
  rw [Nat.mul_comm] at hdiv
  rw [Volume.numCluster]
  omega

theorem numCluster_mul_lt {v : Volume} (hpos : 0 < v.bytesPerCluster) (n : ℕ) :
    v.numCluster n * v.bytesPerCluster < n + v.bytesPerCluster := by
  have hle := Nat.div_mul_le_self (n + v.bytesPerCluster - 1) v.bytesPerCluster
  rw [Volume.numCluster]
  omega

theorem numCluster_pos {v : Volume} (hpos : 0 < v.bytesPerCluster) {n : ℕ} (hn : 0 < n) :
    0 < v.numCluster n := by
  have hle := le_numCluster_mul hpos n
  rcases Nat.eq_zero_or_pos (v.numCluster n) with h0 | h
  · rw [h0] at hle
    omega
  · exact h

/-! ## Moving to the next cluster -/

/-- The three ways in which the loop gets a cluster with room in it: it stays,
it follows the chain, or it extends the chain and goes to the last new cluster. -/
theorem advance_spec {v v₁ : Volume} {bound c off p len c₁ off₁ : ℕ} {chain : List ℕ}
    (hg : Geometry v.bpb bound) (h : FileChain v bound chain) (hcur : Cursor v chain c off p)
    (hlen : 0 < len) (hadv : v.advance (bound - 2) c off len = some (v₁, c₁, off₁)) :
    ∃ t p₁, Wrote v v₁ bound chain t p ∧
      (∀ x, v.fatOffset + 4 * bound ≤ x → v₁.mem x = v.mem x) ∧
      Cursor v (chain ++ (v.freeClusters bound).take t) c₁ off₁ p₁ ∧ off₁ < v.bytesPerCluster ∧
      (t = 0 ∧ p₁ = p ∨
        t = v.numCluster len ∧ p = chain.length * v.bytesPerCluster ∧
          p₁ + v.bytesPerCluster = (chain.length + t) * v.bytesPerCluster) := by
  have hpos : 0 < v.bytesPerCluster := hg.bytesPerCluster_pos
  obtain ⟨k, hk, hoff, rfl⟩ := hcur
  obtain ⟨hklt, rfl⟩ := List.getElem?_eq_some_iff.mp hk
  simp only [Volume.advance] at hadv
  split_ifs at hadv with hfull hend
  · -- the cluster is full and it is the last one of the chain
    have hlast : k + 1 = chain.length := by
      rcases Nat.lt_or_ge (k + 1) chain.length with hlt | hge
      · rw [h.nextCluster_getElem hlt] at hend
        exact absurd hend (h.getElem_ne_end hg hlt)
      · omega
    rw [Option.bind_eq_bind, Option.bind_eq_some_iff] at hadv
    obtain ⟨⟨c', v'⟩, hext, hres⟩ := hadv
    simp only [Option.pure_def, Option.some.injEq, Prod.mk.injEq] at hres
    obtain ⟨rfl, rfl, rfl⟩ := hres
    obtain ⟨hgrown, hc', hmem⟩ := extendCluster_grown hg h hlast hext
    have hn := numCluster_pos hpos hlen
    have hlenTake : ((v.freeClusters bound).take (v.numCluster len)).length = v.numCluster len :=
      List.length_take_of_le hgrown.enough
    refine ⟨v.numCluster len, (chain.length + v.numCluster len - 1) * v.bytesPerCluster,
      ⟨hgrown, fun x hx _ ↦ hmem x hx⟩, hmem, ?_, hpos, .inr ⟨rfl, ?_, ?_⟩⟩
    · refine ⟨chain.length + v.numCluster len - 1, ?_, Nat.zero_le _, by simp⟩
      rw [List.getElem?_append_right (by omega), hc', List.getLastD_eq_getLast?,
        List.getLast?_eq_getElem?, hlenTake,
        show chain.length + v.numCluster len - 1 - chain.length = v.numCluster len - 1 by omega]
      rw [List.getElem?_eq_getElem (by omega), Option.getD_some]
    · rw [hfull, ← hlast, Nat.succ_mul]
    · rw [← Nat.succ_mul]
      congr 1
      omega
  · -- the chain goes on
    simp only [Option.some.injEq, Prod.mk.injEq] at hadv
    obtain ⟨rfl, rfl, rfl⟩ := hadv
    have hlt : k + 1 < chain.length := by
      rcases Nat.lt_or_ge (k + 1) chain.length with hlt | hge
      · exact hlt
      · exact absurd (h.nextCluster_last (by omega)) hend
    refine ⟨0, k * v.bytesPerCluster + off, Wrote.refl h _, fun _ _ ↦ rfl, ?_, hpos, .inl ⟨rfl, rfl⟩⟩
    refine ⟨k + 1, ?_, Nat.zero_le _, ?_⟩
    · simp [h.nextCluster_getElem hlt, List.getElem?_eq_getElem hlt]
    · rw [hfull, Nat.succ_mul, Nat.add_zero]
  · simp only [Option.some.injEq, Prod.mk.injEq] at hadv
    obtain ⟨rfl, rfl, rfl⟩ := hadv
    refine ⟨0, k * v.bytesPerCluster + off, Wrote.refl h _, fun _ _ ↦ rfl, ?_, by omega,
      .inl ⟨rfl, rfl⟩⟩
    exact ⟨k, by simp [hk], hoff, rfl⟩

/-! ## Copying into a cluster -/

theorem wrote_writeCluster {v : Volume} {bound c off p : ℕ} {chain : List ℕ} {bytes : List UInt8}
    (hg : Geometry v.bpb bound) (h : FileChain v bound chain) (hcur : Cursor v chain c off p)
    (hfit : off + bytes.length ≤ v.bytesPerCluster) :
    Wrote v (v.writeCluster c off bytes) bound chain 0 p := by
  have hin := h.inRange c hcur.mem
  have hstart : v.InCluster c (v.getClusterAddr c) :=
    ⟨Nat.le_refl _, Nat.lt_add_of_pos_right hg.bytesPerCluster_pos⟩
  have htable := hstart.table_le hg hin.1 hin.2
  have hbpb : (v.writeCluster c off bytes).bpb = v.bpb := Volume.writeCluster_bpb v c off bytes
  constructor
  · apply (Grown.refl h).of_fatEntry_eq hbpb
    apply fatEntry_congr hbpb
    intro x hx
    rw [Volume.writeCluster_mem]
    exact writeBytes_of_lt v.mem bytes (by omega)
  · intro x _ hnot
    rw [Volume.writeCluster_mem]
    apply writeBytes_of_notMem
    rintro ⟨hle, hlt⟩
    obtain ⟨k, hk, -, rfl⟩ := hcur
    apply hnot
    refine ⟨k, c, x - v.getClusterAddr c, ?_, by omega, by omega, by omega⟩
    simpa using hk

theorem Cursor.add {v : Volume} {chain : List ℕ} {c off p n : ℕ} (h : Cursor v chain c off p)
    (hn : off + n ≤ v.bytesPerCluster) : Cursor v chain c (off + n) (p + n) := by
  obtain ⟨k, hk, -, rfl⟩ := h
  exact ⟨k, hk, hn, by omega⟩

/-- An address lies in the cluster of one place of a chain only. -/
theorem index_eq_of_inCluster {v : Volume} {bound j k d c x : ℕ} {chain : List ℕ}
    (hg : Geometry v.bpb bound) (hin : ∀ c ∈ chain, 2 ≤ c ∧ c < bound) (hnodup : chain.Nodup)
    (hj : chain[j]? = some d) (hk : chain[k]? = some c) (hd : v.InCluster d x)
    (hc : v.InCluster c x) : j = k := by
  have hdr := hin d (List.mem_of_getElem? hj)
  have hcr := hin c (List.mem_of_getElem? hk)
  obtain rfl : d = c := Volume.InCluster.unique hg hdr.1 hdr.2 hcr.1 hcr.2 hd hc
  exact (List.getElem?_inj (List.getElem?_eq_some_iff.mp hj).1 hnodup).mp (hj.trans hk.symm)

/-- Copying into a cluster of the chain puts the bytes at the positions from
`p` on, and every other position of the chain keeps its byte. -/
theorem writeCluster_content {v : Volume} {bound c off p : ℕ} {chain : List ℕ} {bytes : List UInt8}
    (hg : Geometry v.bpb bound) (h : FileChain v bound chain) (hcur : Cursor v chain c off p)
    (hfit : off + bytes.length ≤ v.bytesPerCluster) {j d o : ℕ} (hj : chain[j]? = some d)
    (ho : o < v.bytesPerCluster) :
    (v.writeCluster c off bytes).mem (v.getClusterAddr d + o) =
      if p ≤ j * v.bytesPerCluster + o then
        bytes.getD (j * v.bytesPerCluster + o - p) (v.mem (v.getClusterAddr d + o))
      else v.mem (v.getClusterAddr d + o) := by
  obtain ⟨k, hk, -, rfl⟩ := hcur
  rw [Volume.writeCluster_mem]
  rcases Nat.lt_trichotomy j k with hlt | rfl | hgt
  · have hpos : j * v.bytesPerCluster + v.bytesPerCluster ≤ k * v.bytesPerCluster := by
      rw [← Nat.succ_mul]
      exact Nat.mul_le_mul_right _ hlt
    rw [if_neg (by omega)]
    apply writeBytes_of_notMem
    rintro ⟨hle, hltc⟩
    have hidx := index_eq_of_inCluster hg h.inRange h.nodup hj hk
      ⟨Nat.le_add_right _ _, Nat.add_lt_add_left ho _⟩ ⟨by omega, by omega⟩
    omega
  · obtain rfl : d = c := Option.some.inj (hj.symm.trans hk)
    by_cases hle : off ≤ o
    · rw [if_pos (by omega), writeBytes, if_pos (by omega)]
      congr 1
      omega
    · rw [if_neg (by omega), writeBytes_of_lt _ _ (by omega)]
  · have hpos : k * v.bytesPerCluster + v.bytesPerCluster ≤ j * v.bytesPerCluster := by
      rw [← Nat.succ_mul]
      exact Nat.mul_le_mul_right _ hgt
    rw [if_pos (by omega), List.getD_eq_getElem?_getD, List.getElem?_eq_none (by omega),
      Option.getD_none]
    apply writeBytes_of_notMem
    rintro ⟨hle, hltc⟩
    have hidx := index_eq_of_inCluster hg h.inRange h.nodup hj hk
      ⟨Nat.le_add_right _ _, Nat.add_lt_add_left ho _⟩ ⟨by omega, by omega⟩
    omega

/-! ## One turn of the loop -/

/-- One turn of the loop of `Write`: it gets a cluster with room, which is at
position `p₁`, and copies the first `n` of the bytes there. -/
structure LoopStep (v v₂ : Volume) (bound : ℕ) (chain : List ℕ) (bytes : List UInt8)
    (c₂ off₂ t p p₁ n : ℕ) : Prop where
  wrote : Wrote v v₂ bound chain t p
  cursor : Cursor v (chain ++ (v.freeClusters bound).take t) c₂ off₂ (p₁ + n)
  amount : 0 < n ∧ n ≤ bytes.length ∧ (n = bytes.length ∨ off₂ = v.bytesPerCluster)
  le : p ≤ p₁
  move : t = 0 ∧ p₁ = p ∨
    t = v.numCluster bytes.length ∧ p = chain.length * v.bytesPerCluster ∧
      p₁ + v.bytesPerCluster = (chain.length + t) * v.bytesPerCluster ∧
      n = min bytes.length v.bytesPerCluster
  content : ∀ j d o, (chain ++ (v.freeClusters bound).take t)[j]? = some d →
    o < v.bytesPerCluster → v₂.mem (v.getClusterAddr d + o) =
      if p₁ ≤ j * v.bytesPerCluster + o then
        (bytes.take n).getD (j * v.bytesPerCluster + o - p₁) (v.mem (v.getClusterAddr d + o))
      else v.mem (v.getClusterAddr d + o)

theorem writeTurn_step {v v₂ : Volume} {bound c off p c₂ off₂ n : ℕ} {chain : List ℕ}
    {bytes : List UInt8} (hg : Geometry v.bpb bound) (h : FileChain v bound chain)
    (hcur : Cursor v chain c off p) (hbytes : 0 < bytes.length)
    (hturn : v.writeTurn (bound - 2) c off bytes = some (v₂, c₂, off₂, n)) :
    ∃ t p₁, LoopStep v v₂ bound chain bytes c₂ off₂ t p p₁ n := by
  have hpos : 0 < v.bytesPerCluster := hg.bytesPerCluster_pos
  rw [Volume.writeTurn, Option.bind_eq_bind, Option.bind_eq_some_iff] at hturn
  obtain ⟨⟨v₁, c₁, off₁⟩, hadv, hres⟩ := hturn
  simp only [Option.pure_def, Option.some.injEq, Prod.mk.injEq] at hres
  obtain ⟨rfl, rfl, rfl, hn⟩ := hres
  obtain ⟨t, p₁, hwrote, hmem, hcur₁, hroom, hmove⟩ := advance_spec hg h hcur hbytes hadv
  have hbpb := hwrote.grown.bpb
  have hB := Volume.bytesPerCluster_congr hbpb
  have hle : p ≤ p₁ := by
    rcases hmove with ⟨-, rfl⟩ | ⟨ht, rfl, hp₁⟩
    · exact le_rfl
    · have hone := numCluster_pos hpos hbytes
      have hmul : (chain.length + 1) * v.bytesPerCluster ≤
          (chain.length + t) * v.bytesPerCluster := Nat.mul_le_mul_right _ (by omega)
      rw [Nat.succ_mul] at hmul
      omega
  rw [hn]
  have hlenTake : (bytes.take n).length = n := by
    rw [List.length_take]
    omega
  have hg₁ : Geometry v₁.bpb bound := by rwa [hbpb]
  have hcurv₁ := (cursor_congr hbpb).mpr hcur₁
  have hcopy : Wrote v₁ (v₁.writeCluster c₁ off₁ (bytes.take n)) bound
      (chain ++ (v.freeClusters bound).take t) 0 p₁ :=
    wrote_writeCluster hg₁ hwrote.grown.linked hcurv₁ (by omega)
  refine ⟨t, p₁, ?_⟩
  constructor
  · have hall := hwrote.trans hcopy hle
    rwa [Nat.add_zero] at hall
  · exact hcur₁.add (by omega)
  · exact ⟨by omega, by omega, by omega⟩
  · exact hle
  · rcases hmove with ⟨rfl, rfl⟩ | ⟨ht, hp, hp₁⟩
    · exact .inl ⟨rfl, rfl⟩
    · right
      refine ⟨ht, hp, hp₁, ?_⟩
      -- the new cluster is entered at its first byte
      obtain ⟨k, -, -, hk⟩ := hcur₁
      have hoff : off₁ = 0 := by
        have hmod : (k * v.bytesPerCluster + off₁ + v.bytesPerCluster) % v.bytesPerCluster =
            (chain.length + t) * v.bytesPerCluster % v.bytesPerCluster := by rw [← hk, hp₁]
        rw [Nat.add_mod_right, Nat.mul_comm k, Nat.mul_add_mod, Nat.mul_mod_left,
          Nat.mod_eq_of_lt hroom] at hmod
        exact hmod
      rw [← hn, hoff, Nat.sub_zero]
  · intro j d o hj ho
    have hcontent := @writeCluster_content _ _ _ _ _ _ (bytes.take n) hg₁
      hwrote.grown.linked hcurv₁ (by omega) j d o hj (by omega)
    have hd := hwrote.grown.linked.inRange d (List.mem_of_getElem? hj)
    have hin : v.InCluster d (v.getClusterAddr d + o) :=
      ⟨Nat.le_add_right _ _, Nat.add_lt_add_left ho _⟩
    rw [Volume.getClusterAddr_congr hbpb, hB, hmem _ (hin.table_le hg hd.1 hd.2)] at hcontent
    exact hcontent

end Fat
end MinOS
