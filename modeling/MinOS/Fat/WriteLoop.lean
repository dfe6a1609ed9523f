import MinOS.Fat.WriteTurn

/-!
# How many clusters `Write` takes and where its bytes go

When the chain has to grow, `Write` asks for as many clusters as the remaining
bytes need but goes on in the last of them, so it asks again at the end of that
one.  A call that runs `m` clusters past the chain takes `m + (m - 1) + … + 1`
of them.  Up to one cluster, its bytes land at consecutive positions; beyond
that, the first new cluster is passed over.
-/

namespace MinOS
namespace Fat

open ByteMemory

def triangle (m : ℕ) : ℕ := m * (m + 1) / 2

theorem triangle_succ (m : ℕ) : triangle (m + 1) = m + 1 + triangle m := by
  have hmul : (m + 1) * (m + 1 + 1) = m * (m + 1) + 2 * (m + 1) := by ring
  rw [triangle, triangle, hmul, Nat.add_mul_div_left _ _ (by decide)]
  omega

theorem le_triangle (m : ℕ) : m ≤ triangle m := by
  cases m with
  | zero => exact Nat.zero_le _
  | succ m =>
      rw [triangle_succ]
      omega

theorem numCluster_zero {v : Volume} (hpos : 0 < v.bytesPerCluster) : v.numCluster 0 = 0 := by
  rw [Volume.numCluster]
  exact Nat.div_eq_of_lt (by omega)

theorem numCluster_sub {v : Volume} (hpos : 0 < v.bytesPerCluster) {n : ℕ} (hn : 0 < n) :
    v.numCluster n = v.numCluster (n - v.bytesPerCluster) + 1 := by
  rcases Nat.lt_or_ge n v.bytesPerCluster with hlt | hge
  · have hsub : n - v.bytesPerCluster = 0 := by omega
    rw [hsub, numCluster_zero hpos, Volume.numCluster]
    apply Nat.div_eq_of_lt_le
    · omega
    · omega
  · rw [Volume.numCluster, Volume.numCluster, ← Nat.add_div_right _ hpos]
    congr 1
    omega

/-- The clusters that a write of `len` bytes at position `p` needs beyond a
chain of `K` clusters. -/
def beyond (v : Volume) (K p len : ℕ) : ℕ :=
  v.numCluster (len - (K * v.bytesPerCluster - p))

/-- What the loop of `Write` does, with the exact number of clusters it takes
and the exact position it ends at. -/
structure LoopEffect (v v' : Volume) (bound : ℕ) (chain : List ℕ) (bytes : List UInt8)
    (c' off' t p p' : ℕ) : Prop where
  wrote : Wrote v v' bound chain t p
  cursor : Cursor v (chain ++ (v.freeClusters bound).take t) c' off' p'
  taken : t = triangle (beyond v chain.length p bytes.length)
  position : p' + beyond v chain.length p bytes.length * v.bytesPerCluster =
    p + bytes.length + t * v.bytesPerCluster
  fits : p + bytes.length ≤ (chain.length + 1) * v.bytesPerCluster →
    ∀ j d o, (chain ++ (v.freeClusters bound).take t)[j]? = some d → o < v.bytesPerCluster →
      v'.mem (v.getClusterAddr d + o) =
        if p ≤ j * v.bytesPerCluster + o then
          bytes.getD (j * v.bytesPerCluster + o - p) (v.mem (v.getClusterAddr d + o))
        else v.mem (v.getClusterAddr d + o)
  skips : (chain.length + 1) * v.bytesPerCluster < p + bytes.length →
    (chain.length + 1) * v.bytesPerCluster ≤ p' ∧
      ∀ d o, (chain ++ (v.freeClusters bound).take t)[chain.length]? = some d →
        o < v.bytesPerCluster → v'.mem (v.getClusterAddr d + o) = v.mem (v.getClusterAddr d + o)

theorem LoopEffect.nil {v : Volume} {bound c off p : ℕ} {chain : List ℕ}
    (hg : Geometry v.bpb bound) (h : FileChain v bound chain) (hcur : Cursor v chain c off p) :
    LoopEffect v v bound chain [] c off 0 p p := by
  have hpos : 0 < v.bytesPerCluster := hg.bytesPerCluster_pos
  have hzero : beyond v chain.length p 0 = 0 := by
    rw [beyond, Nat.zero_sub, numCluster_zero hpos]
  have hle := hcur.le
  constructor
  · exact Wrote.refl h p
  · simpa using hcur
  · rw [List.length_nil, hzero]
    rfl
  · rw [List.length_nil, hzero, Nat.add_zero]
  · intro _ j d o _ _
    simp
  · intro hgt
    rw [Nat.succ_mul, List.length_nil] at hgt
    omega

/-- Positions of a chain are determined by their addresses. -/
theorem not_atOrBehind_of_lt {v : Volume} {bound j d o p : ℕ} {chain : List ℕ}
    (hg : Geometry v.bpb bound) (hin : ∀ c ∈ chain, 2 ≤ c ∧ c < bound) (hnodup : chain.Nodup)
    (hj : chain[j]? = some d) (ho : o < v.bytesPerCluster)
    (hlt : j * v.bytesPerCluster + o < p) : ¬ AtOrBehind v chain p (v.getClusterAddr d + o) := by
  rintro ⟨j', d', o', hj', ho', hx, hle⟩
  obtain rfl := index_eq_of_inCluster hg hin hnodup hj hj'
    ⟨Nat.le_add_right _ _, Nat.add_lt_add_left ho _⟩ ⟨by omega, by omega⟩
  obtain rfl : d = d' := Option.some.inj (hj.symm.trans hj')
  omega

/-- How the clusters of one turn and of the remaining turns add up. -/
theorem LoopStep.beyond_eq {v v₂ : Volume} {bound c₂ off₂ t p p₁ n : ℕ} {chain : List ℕ}
    {bytes : List UInt8} (hg : Geometry v.bpb bound) (hbytes : 0 < bytes.length)
    (hstep : LoopStep v v₂ bound chain bytes c₂ off₂ t p p₁ n) :
    t = 0 ∧ p₁ = p ∧ beyond v (chain.length + t) (p₁ + n) (bytes.length - n) =
        beyond v chain.length p bytes.length ∨
      beyond v chain.length p bytes.length = t ∧
        beyond v (chain.length + t) (p₁ + n) (bytes.length - n) + 1 = t ∧
        p₁ + v.bytesPerCluster = p + t * v.bytesPerCluster := by
  have hpos : 0 < v.bytesPerCluster := hg.bytesPerCluster_pos
  have hamount := hstep.amount
  rcases hstep.move with ⟨rfl, rfl⟩ | ⟨ht, hp, hp₁, hn⟩
  · -- the turn stays on the chain
    left
    have hle := hstep.cursor.le
    rw [List.take_zero, List.append_nil] at hle
    refine ⟨rfl, rfl, ?_⟩
    rw [beyond, beyond, Nat.add_zero]
    congr 1
    omega
  · -- the turn extends the chain by all that the rest would need
    right
    refine ⟨?_, ?_, ?_⟩
    · rw [beyond, hp, Nat.sub_self, Nat.sub_zero, ht]
    · have hrest : bytes.length - n - ((chain.length + t) * v.bytesPerCluster - (p₁ + n)) =
          bytes.length - v.bytesPerCluster := by
        rw [← hp₁]
        omega
      rw [beyond, hrest, ht, numCluster_sub hpos hbytes]
    · rw [hp₁, hp, Nat.add_mul]

theorem LoopStep.taken {v v₂ : Volume} {bound c₂ off₂ t p p₁ n : ℕ} {chain : List ℕ}
    {bytes : List UInt8} (hg : Geometry v.bpb bound) (hbytes : 0 < bytes.length)
    (hstep : LoopStep v v₂ bound chain bytes c₂ off₂ t p p₁ n) :
    t + triangle (beyond v (chain.length + t) (p₁ + n) (bytes.length - n)) =
      triangle (beyond v chain.length p bytes.length) := by
  rcases hstep.beyond_eq hg hbytes with ⟨rfl, -, hsame⟩ | ⟨hm, hm₂, -⟩
  · rw [hsame, Nat.zero_add]
  · rw [hm]
    conv_rhs => rw [← hm₂, triangle_succ, hm₂]

theorem writeTurn_total {v : Volume} {bound c off p : ℕ} {chain : List ℕ} {bytes : List UInt8}
    (hg : Geometry v.bpb bound) (h : FileChain v bound chain) (hcur : Cursor v chain c off p)
    (henough : triangle (beyond v chain.length p bytes.length) ≤ (v.freeClusters bound).length) :
    ∃ r, v.writeTurn (bound - 2) c off bytes = some r := by
  obtain ⟨k, hk, hoff, rfl⟩ := hcur
  obtain ⟨hklt, rfl⟩ := List.getElem?_eq_some_iff.mp hk
  suffices hadv : ∃ r, v.advance (bound - 2) chain[k] off bytes.length = some r by
    obtain ⟨r, hr⟩ := hadv
    rw [Volume.writeTurn, hr]
    exact ⟨_, rfl⟩
  simp only [Volume.advance]
  split_ifs with hfull hend
  · have hlast : k + 1 = chain.length := by
      rcases Nat.lt_or_ge (k + 1) chain.length with hlt | hge
      · rw [h.nextCluster_getElem hlt] at hend
        exact absurd hend (h.getElem_ne_end hg hlt)
      · omega
    have hisEnd := h.isEnd_getLast
    rw [h.getLast_eq hlast] at hisEnd
    have hb := hg.bound_le
    have hin := h.getElem_inRange hklt
    have hneed : v.numCluster bytes.length ≤ (v.freeClusters bound).length := by
      have hle := le_triangle (beyond v chain.length (k * v.bytesPerCluster + off) bytes.length)
      have hm : beyond v chain.length (k * v.bytesPerCluster + off) bytes.length =
          v.numCluster bytes.length := by
        rw [beyond, hfull, ← hlast, Nat.succ_mul, Nat.sub_self, Nat.sub_zero]
      omega
    rw [Volume.extendCluster_eq v _ (by omega) hisEnd]
    rw [Volume.freeClusters] at hneed
    rw [if_pos hneed]
    exact ⟨_, rfl⟩
  · exact ⟨_, rfl⟩
  · exact ⟨_, rfl⟩

theorem length_grown {v v' : Volume} {bound t : ℕ} {chain : List ℕ} (h : Grown v v' bound chain t) :
    (chain ++ (v.freeClusters bound).take t).length = chain.length + t := by
  rw [List.length_append, List.length_take_of_le h.enough]

theorem LoopEffect.le {v v' : Volume} {bound c' off' t p p' : ℕ} {chain : List ℕ}
    {bytes : List UInt8} (h : LoopEffect v v' bound chain bytes c' off' t p p') :
    p + bytes.length ≤ p' := by
  have hposition := h.position
  have hmul : beyond v chain.length p bytes.length * v.bytesPerCluster ≤ t * v.bytesPerCluster := by
    rw [h.taken]
    exact Nat.mul_le_mul_right _ (le_triangle _)
  omega

/-- The bytes after one turn, also in the clusters that only later turns link. -/
theorem LoopStep.content_grown {v v₂ v' : Volume} {bound c₂ off₂ t₁ p p₁ n t₂ : ℕ}
    {chain : List ℕ} {bytes : List UInt8} (hg : Geometry v.bpb bound)
    (hstep : LoopStep v v₂ bound chain bytes c₂ off₂ t₁ p p₁ n)
    (hgrown : Grown v v' bound chain (t₁ + t₂)) {j d o : ℕ}
    (hj : (chain ++ (v.freeClusters bound).take (t₁ + t₂))[j]? = some d)
    (ho : o < v.bytesPerCluster) :
    v₂.mem (v.getClusterAddr d + o) =
      if p₁ ≤ j * v.bytesPerCluster + o then
        (bytes.take n).getD (j * v.bytesPerCluster + o - p₁) (v.mem (v.getClusterAddr d + o))
      else v.mem (v.getClusterAddr d + o) := by
  have hsplit : chain ++ (v.freeClusters bound).take (t₁ + t₂) =
      (chain ++ (v.freeClusters bound).take t₁) ++
        ((v.freeClusters bound).drop t₁).take t₂ := by
    rw [List.take_add, List.append_assoc]
  rcases Nat.lt_or_ge j (chain ++ (v.freeClusters bound).take t₁).length with hlt | hge
  · rw [hsplit, List.getElem?_append_left hlt] at hj
    exact hstep.content j d o hj ho
  · have hcur := hstep.cursor.le
    have hmul := Nat.mul_le_mul_right v.bytesPerCluster hge
    have hd := hgrown.linked.inRange d (List.mem_of_getElem? hj)
    have hx : v.InCluster d (v.getClusterAddr d + o) :=
      ⟨Nat.le_add_right _ _, Nat.add_lt_add_left ho _⟩
    have hsame : v₂.mem (v.getClusterAddr d + o) = v.mem (v.getClusterAddr d + o) := by
      apply hstep.wrote.data _ (hx.table_le hg hd.1 hd.2)
      intro hat
      obtain ⟨c, hc, hin⟩ := hat.inCluster
      have hcr := hstep.wrote.grown.linked.inRange c hc
      obtain rfl := Volume.InCluster.unique hg hcr.1 hcr.2 hd.1 hd.2 hin hx
      have hnodup := hgrown.linked.nodup
      rw [hsplit] at hnodup hj
      rw [List.getElem?_append_right hge] at hj
      exact (List.nodup_append.mp hnodup).2.2 c hc c (List.mem_of_getElem? hj) rfl
    have htake : (bytes.take n).length ≤ j * v.bytesPerCluster + o - p₁ := by
      rw [List.length_take]
      omega
    rw [hsame, List.getD_eq_getElem?_getD, List.getElem?_eq_none htake, Option.getD_none, ite_self]

theorem LoopStep.chain_eq {v v₂ : Volume} {bound c₂ off₂ t₁ p p₁ n : ℕ} {chain : List ℕ}
    {bytes : List UInt8} (hstep : LoopStep v v₂ bound chain bytes c₂ off₂ t₁ p p₁ n) (t₂ : ℕ) :
    chain ++ (v.freeClusters bound).take (t₁ + t₂) =
      (chain ++ (v.freeClusters bound).take t₁) ++ (v₂.freeClusters bound).take t₂ := by
  rw [List.take_add, ← hstep.wrote.grown.free, ← List.append_assoc]

section Cons

variable {v v₂ v' : Volume} {bound c₂ off₂ t₁ p p₁ n c' off' t₂ p' : ℕ} {chain : List ℕ}
  {bytes : List UInt8}

theorem LoopEffect.fits_cons
    (hrest : LoopEffect v₂ v' bound (chain ++ (v.freeClusters bound).take t₁) (bytes.drop n)
      c' off' t₂ (p₁ + n) p')
    (hg : Geometry v.bpb bound) (hbytes : 0 < bytes.length)
    (hstep : LoopStep v v₂ bound chain bytes c₂ off₂ t₁ p p₁ n)
    (hgrown : Grown v v' bound chain (t₁ + t₂))
    (hfits : p + bytes.length ≤ (chain.length + 1) * v.bytesPerCluster) {j d o : ℕ}
    (hj : (chain ++ (v.freeClusters bound).take (t₁ + t₂))[j]? = some d)
    (ho : o < v.bytesPerCluster) :
    v'.mem (v.getClusterAddr d + o) =
      if p ≤ j * v.bytesPerCluster + o then
        bytes.getD (j * v.bytesPerCluster + o - p) (v.mem (v.getClusterAddr d + o))
      else v.mem (v.getClusterAddr d + o) := by
  have hpos : 0 < v.bytesPerCluster := hg.bytesPerCluster_pos
  have hchain := hstep.chain_eq t₂
  have hbpb := hstep.wrote.grown.bpb
  have hB := Volume.bytesPerCluster_congr hbpb
  have hlen := length_grown hstep.wrote.grown
  have hamount := hstep.amount
  -- a write that fits asks for one cluster at most, so it never jumps
  have hp₁ : p₁ = p := by
    rcases hstep.move with ⟨-, h⟩ | ⟨ht, hp, hp₁, -⟩
    · exact h
    · have hsub : bytes.length - v.bytesPerCluster = 0 := by
        rw [Nat.succ_mul] at hfits
        omega
      rw [ht, numCluster_sub hpos hbytes, hsub, numCluster_zero hpos, Nat.succ_mul] at hp₁
      omega
  have hturn := hstep.content_grown hg hgrown hj ho
  have hfits' : p₁ + n + (bytes.drop n).length ≤
      ((chain ++ (v.freeClusters bound).take t₁).length + 1) * v₂.bytesPerCluster := by
    have hmul : (chain.length + 1) * v.bytesPerCluster ≤
        (chain.length + t₁ + 1) * v.bytesPerCluster := Nat.mul_le_mul_right _ (by omega)
    rw [hlen, hB, List.length_drop]
    omega
  have hlate := hrest.fits hfits' j d o (hchain ▸ hj) (by rwa [hB])
  rw [Volume.getClusterAddr_congr hbpb, hB, hturn, hp₁] at hlate
  rw [hlate]
  rcases Nat.lt_or_ge (j * v.bytesPerCluster + o) p with hlt | hge
  · rw [if_neg (by omega), if_neg (by omega), if_neg (by omega)]
  · simp only [if_pos hge, List.getD_eq_getElem?_getD]
    rcases Nat.lt_or_ge (j * v.bytesPerCluster + o) (p + n) with hin | hbehind
    · rw [if_neg (by omega), List.getElem?_take_of_lt (by omega)]
    · have hnone : (bytes.take n)[j * v.bytesPerCluster + o - p]? = none := by
        apply List.getElem?_eq_none
        rw [List.length_take]
        omega
      rw [if_pos hbehind, hnone, List.getElem?_drop, Option.getD_none]
      congr 2
      omega

theorem LoopEffect.skips_cons
    (hrest : LoopEffect v₂ v' bound (chain ++ (v.freeClusters bound).take t₁) (bytes.drop n)
      c' off' t₂ (p₁ + n) p')
    (hg : Geometry v.bpb bound) (hbytes : 0 < bytes.length)
    (hstep : LoopStep v v₂ bound chain bytes c₂ off₂ t₁ p p₁ n)
    (hgrown : Grown v v' bound chain (t₁ + t₂))
    (hskip : (chain.length + 1) * v.bytesPerCluster < p + bytes.length) :
    (chain.length + 1) * v.bytesPerCluster ≤ p' ∧
      ∀ d o, (chain ++ (v.freeClusters bound).take (t₁ + t₂))[chain.length]? = some d →
        o < v.bytesPerCluster →
          v'.mem (v.getClusterAddr d + o) = v.mem (v.getClusterAddr d + o) := by
  have hpos : 0 < v.bytesPerCluster := hg.bytesPerCluster_pos
  have hchain := hstep.chain_eq t₂
  have hbpb := hstep.wrote.grown.bpb
  have hB := Volume.bytesPerCluster_congr hbpb
  have hlen := length_grown hstep.wrote.grown
  have hcur := hstep.cursor.le
  rw [hlen] at hcur
  have hlate := hrest.le
  rw [List.length_drop] at hlate
  rcases hstep.move with ⟨rfl, rfl⟩ | ⟨ht, hp, hp₁, -⟩
  · -- still on the old chain: the rest of the loop passes the cluster over
    rw [Nat.add_zero] at hlen hcur
    have hskip' : ((chain ++ (v.freeClusters bound).take 0).length + 1) * v₂.bytesPerCluster <
        p₁ + n + (bytes.drop n).length := by
      rw [hlen, hB, List.length_drop]
      omega
    obtain ⟨hbehind, hkeep⟩ := hrest.skips hskip'
    rw [hlen, hB] at hbehind
    refine ⟨hbehind, fun d o hd ho ↦ ?_⟩
    have hturn := hstep.content_grown hg hgrown hd ho
    rw [hchain] at hd
    rw [← Volume.getClusterAddr_congr hbpb, hkeep d o (by rwa [hlen]) (by rwa [hB]),
      Volume.getClusterAddr_congr hbpb, hturn, if_pos (by omega), List.getD_eq_getElem?_getD,
      List.getElem?_eq_none, Option.getD_none]
    rw [List.length_take]
    omega
  · -- the chain grows by at least two clusters and the loop goes on in the last
    have htwo : 2 ≤ t₁ := by
      have hmore : 0 < bytes.length - v.bytesPerCluster := by
        rw [Nat.succ_mul] at hskip
        omega
      have hone := numCluster_pos hpos hmore
      rw [ht, numCluster_sub hpos hbytes]
      omega
    have hjump : (chain.length + 1) * v.bytesPerCluster ≤ p₁ := by
      have hmul : (chain.length + 2) * v.bytesPerCluster ≤
          (chain.length + t₁) * v.bytesPerCluster := Nat.mul_le_mul_right _ (by omega)
      rw [show chain.length + 2 = chain.length + 1 + 1 by rfl, Nat.succ_mul] at hmul
      omega
    refine ⟨by omega, fun d o hd ho ↦ ?_⟩
    have hbefore : chain.length * v.bytesPerCluster + o < p₁ := by
      rw [Nat.succ_mul] at hjump
      omega
    have hturn := hstep.content_grown hg hgrown hd ho
    rw [if_neg (by omega)] at hturn
    rw [← hturn]
    have hin := hgrown.linked.inRange d (List.mem_of_getElem? hd)
    have hx : v.InCluster d (v.getClusterAddr d + o) :=
      ⟨Nat.le_add_right _ _, Nat.add_lt_add_left ho _⟩
    apply hrest.wrote.data
    · rw [fatOffset_congr hbpb]
      exact hx.table_le hg hin.1 hin.2
    · intro hat
      rw [← hchain] at hat
      refine not_atOrBehind_of_lt hg hgrown.linked.inRange hgrown.linked.nodup hd ho
        ?_ (hat.congr hbpb)
      omega

theorem LoopEffect.cons
    (hrest : LoopEffect v₂ v' bound (chain ++ (v.freeClusters bound).take t₁) (bytes.drop n)
      c' off' t₂ (p₁ + n) p')
    (hg : Geometry v.bpb bound) (hbytes : 0 < bytes.length)
    (hstep : LoopStep v v₂ bound chain bytes c₂ off₂ t₁ p p₁ n) :
    LoopEffect v v' bound chain bytes c' off' (t₁ + t₂) p p' := by
  have hbpb := hstep.wrote.grown.bpb
  have hB := Volume.bytesPerCluster_congr hbpb
  have hbeyond : ∀ K q len, beyond v₂ K q len = beyond v K q len := by
    intro K q len
    rw [beyond, beyond, Volume.numCluster, Volume.numCluster, hB]
  have hlen := length_grown hstep.wrote.grown
  have hamount := hstep.amount
  have hle := hstep.le
  have htaken := hrest.taken
  have hposition := hrest.position
  rw [hlen, List.length_drop, hbeyond] at htaken hposition
  rw [hB] at hposition
  have htotal : t₁ + t₂ = triangle (beyond v chain.length p bytes.length) := by
    rw [htaken, hstep.taken hg hbytes]
  have hfinal : p' + beyond v chain.length p bytes.length * v.bytesPerCluster =
      p + bytes.length + (t₁ + t₂) * v.bytesPerCluster := by
    rw [Nat.add_mul]
    rcases hstep.beyond_eq hg hbytes with ⟨rfl, rfl, hsame⟩ | ⟨hm, hm₂, hp₁⟩
    · rw [hsame] at hposition
      omega
    · have hmul := congrArg (· * v.bytesPerCluster) hm₂
      simp only [Nat.succ_mul] at hmul
      rw [hm]
      omega
  have hwrote : Wrote v v' bound chain (t₁ + t₂) p := hstep.wrote.trans hrest.wrote (by omega)
  refine ⟨hwrote, ?_, htotal, hfinal, ?_, ?_⟩
  · rw [hstep.chain_eq t₂]
    exact (cursor_congr hbpb).mp hrest.cursor
  · intro hfits j d o hj ho
    exact hrest.fits_cons hg hbytes hstep hwrote.grown hfits hj ho
  · exact hrest.skips_cons hg hbytes hstep hwrote.grown

end Cons

theorem LoopStep.enough {v v₂ : Volume} {bound c₂ off₂ t p p₁ n : ℕ} {chain : List ℕ}
    {bytes : List UInt8} (hg : Geometry v.bpb bound) (hbytes : 0 < bytes.length)
    (hstep : LoopStep v v₂ bound chain bytes c₂ off₂ t p p₁ n)
    (henough : triangle (beyond v chain.length p bytes.length) ≤ (v.freeClusters bound).length) :
    triangle (beyond v₂ (chain ++ (v.freeClusters bound).take t).length (p₁ + n)
      (bytes.drop n).length) ≤ (v₂.freeClusters bound).length := by
  have hB := Volume.bytesPerCluster_congr hstep.wrote.grown.bpb
  have hbeyond : beyond v₂ (chain ++ (v.freeClusters bound).take t).length (p₁ + n)
      (bytes.drop n).length = beyond v (chain.length + t) (p₁ + n) (bytes.length - n) := by
    rw [length_grown hstep.wrote.grown, List.length_drop, beyond, beyond, Volume.numCluster,
      Volume.numCluster, hB]
  have htaken := hstep.taken hg hbytes
  rw [hbeyond, hstep.wrote.grown.free, List.length_drop]
  omega

theorem writeLoop_effect {v v' : Volume} {bound turns c off p c' off' : ℕ} {chain : List ℕ}
    {bytes : List UInt8} (hg : Geometry v.bpb bound) (h : FileChain v bound chain)
    (hcur : Cursor v chain c off p)
    (hrun : Volume.writeLoop (bound - 2) turns v c off bytes = some (v', c', off')) :
    ∃ t p', LoopEffect v v' bound chain bytes c' off' t p p' := by
  induction turns generalizing v c off p chain bytes with
  | zero =>
      cases bytes with
      | nil =>
          simp only [Volume.writeLoop, Option.some.injEq, Prod.mk.injEq] at hrun
          obtain ⟨rfl, rfl, rfl⟩ := hrun
          exact ⟨0, p, LoopEffect.nil hg h hcur⟩
      | cons b bytes => simp [Volume.writeLoop] at hrun
  | succ turns ih =>
      cases bytes with
      | nil =>
          simp only [Volume.writeLoop, Option.some.injEq, Prod.mk.injEq] at hrun
          obtain ⟨rfl, rfl, rfl⟩ := hrun
          exact ⟨0, p, LoopEffect.nil hg h hcur⟩
      | cons b bytes =>
          rw [Volume.writeLoop, Option.bind_eq_bind, Option.bind_eq_some_iff] at hrun
          obtain ⟨⟨v₂, c₂, off₂, n⟩, hturn, hrest⟩ := hrun
          obtain ⟨t, p₁, hstep⟩ := writeTurn_step hg h hcur (by simp) hturn
          have hbpb := hstep.wrote.grown.bpb
          have hg₂ : Geometry v₂.bpb bound := by rwa [hbpb]
          obtain ⟨t', p', heffect⟩ :=
            ih hg₂ hstep.wrote.grown.linked ((cursor_congr hbpb).mpr hstep.cursor) hrest
          exact ⟨t + t', p', heffect.cons hg (by simp) hstep⟩

/-- The loop finishes when there are as many free clusters as it takes. -/
theorem writeLoop_total {v : Volume} {bound turns c off p : ℕ} {chain : List ℕ}
    {bytes : List UInt8} (hg : Geometry v.bpb bound) (h : FileChain v bound chain)
    (hcur : Cursor v chain c off p) (hturns : bytes.length ≤ turns)
    (henough : triangle (beyond v chain.length p bytes.length) ≤ (v.freeClusters bound).length) :
    ∃ r, Volume.writeLoop (bound - 2) turns v c off bytes = some r := by
  induction turns generalizing v c off p chain bytes with
  | zero =>
      obtain rfl : bytes = [] := List.length_eq_zero_iff.mp (by omega)
      exact ⟨(v, c, off), by simp [Volume.writeLoop]⟩
  | succ turns ih =>
      cases bytes with
      | nil => exact ⟨(v, c, off), by simp [Volume.writeLoop]⟩
      | cons b bytes =>
          obtain ⟨⟨v₂, c₂, off₂, n⟩, hturn⟩ := writeTurn_total hg h hcur henough
          obtain ⟨t, p₁, hstep⟩ := writeTurn_step hg h hcur (by simp) hturn
          have hbpb := hstep.wrote.grown.bpb
          have hg₂ : Geometry v₂.bpb bound := by rwa [hbpb]
          have hamount := hstep.amount
          have hlen : ((b :: bytes).drop n).length ≤ turns := by
            rw [List.length_drop]
            omega
          obtain ⟨r, hr⟩ := ih hg₂ hstep.wrote.grown.linked ((cursor_congr hbpb).mpr hstep.cursor)
            hlen (hstep.enough hg (by simp) henough)
          refine ⟨r, ?_⟩
          rw [Volume.writeLoop, Option.bind_eq_bind, hturn, Option.bind_some]
          exact hr

end Fat
end MinOS
