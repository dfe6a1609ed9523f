import MinOS.Fat.Descriptor

/-!
# Cluster chains and how they grow

A cluster chain of the volume, and the one way in which a chain is ever
changed: the first free clusters of the volume are linked behind it.  Nothing
else in the table moves.
-/

namespace MinOS
namespace Fat

open ByteMemory

/-- A terminated chain of clusters of the volume. -/
structure FileChain (v : Volume) (bound : ℕ) (chain : List ℕ) : Prop where
  linked : LinkedChain v.fatEntry (fun c ↦ isEndOfClusterchain c = true) chain
  inRange : ∀ c ∈ chain, 2 ≤ c ∧ c < bound

/-- The chain has taken the first `t` free clusters, and the rest of the table
is as it was. -/
structure Grown (v v' : Volume) (bound : ℕ) (chain : List ℕ) (t : ℕ) : Prop where
  enough : t ≤ (v.freeClusters bound).length
  bpb : v'.bpb = v.bpb
  linked : FileChain v' bound (chain ++ (v.freeClusters bound).take t)
  free : v'.freeClusters bound = (v.freeClusters bound).drop t
  frame : ∀ d < bound, d ∉ chain ++ (v.freeClusters bound).take t → v'.fatEntry d = v.fatEntry d

theorem not_isEndOfClusterchain {b : BPB} {bound c : ℕ} (hg : Geometry b bound) (hc : c < bound) :
    ¬ isEndOfClusterchain c = true := by
  have hb := hg.bound_le
  simp only [isEndOfClusterchain, decide_eq_true_eq]
  omega

theorem kEndOfClusterchain_isEnd : isEndOfClusterchain kEndOfClusterchain = true := by decide

namespace FileChain

variable {v v' : Volume} {bound : ℕ} {chain : List ℕ}

theorem ne_nil (h : FileChain v bound chain) : chain ≠ [] := h.linked.ne_nil

theorem nodup (h : FileChain v bound chain) : chain.Nodup := h.linked.nodup

theorem congr (h : FileChain v bound chain) (heq : ∀ c ∈ chain, v'.fatEntry c = v.fatEntry c) :
    FileChain v' bound chain :=
  ⟨h.linked.congr heq, h.inRange⟩

theorem getElem_inRange (h : FileChain v bound chain) {i : ℕ} (hi : i < chain.length) :
    2 ≤ chain[i] ∧ chain[i] < bound :=
  h.inRange _ (List.getElem_mem hi)

theorem fatEntry_getElem (h : FileChain v bound chain) {i : ℕ} (hi : i + 1 < chain.length) :
    v.fatEntry chain[i] = chain[i + 1] :=
  (h.linked.next_of_getElem hi).1

theorem isEnd_getLast (h : FileChain v bound chain) :
    isEndOfClusterchain (v.fatEntry (chain.getLast h.ne_nil)) = true :=
  h.linked.stop_getLast

theorem getLast_eq (h : FileChain v bound chain) {i : ℕ} (hi : i + 1 = chain.length) :
    chain.getLast h.ne_nil = chain[i] := by
  rw [List.getLast_eq_getElem]
  congr 1
  omega

/-- The clusters of a chain are in use. -/
theorem fatEntry_ne_zero (h : FileChain v bound chain) {c : ℕ} (hc : c ∈ chain) :
    v.fatEntry c ≠ 0 := by
  obtain ⟨i, hi, rfl⟩ := List.getElem_of_mem hc
  rcases Nat.lt_or_ge (i + 1) chain.length with hlt | hge
  · rw [h.fatEntry_getElem hlt]
    have hr := h.getElem_inRange hlt
    omega
  · have hend := h.isEnd_getLast
    have hi' : i + 1 = chain.length := by omega
    rw [h.getLast_eq hi'] at hend
    intro h0
    rw [h0] at hend
    exact absurd hend (by decide)

theorem notMem_free (h : FileChain v bound chain) {c : ℕ} (hc : c ∈ chain) :
    c ∉ v.freeClusters bound := by
  intro hfree
  exact h.fatEntry_ne_zero hc (Volume.mem_freeClusters.mp hfree).2

theorem nextCluster_getElem (h : FileChain v bound chain) {i : ℕ}
    (hi : i + 1 < chain.length) : v.nextCluster chain[i] = chain[i + 1] := by
  obtain ⟨hnext, hnot⟩ := h.linked.next_of_getElem hi
  simp [Volume.nextCluster, hnext, hnot]

theorem getElem_ne_end (hg : Geometry v.bpb bound) (h : FileChain v bound chain) {i : ℕ}
    (hi : i < chain.length) : chain[i] ≠ kEndOfClusterchain := by
  intro heq
  have hnot := not_isEndOfClusterchain hg (h.getElem_inRange hi).2
  rw [heq] at hnot
  exact hnot kEndOfClusterchain_isEnd

theorem nextCluster_last (h : FileChain v bound chain) {i : ℕ} (hi : i + 1 = chain.length) :
    v.nextCluster chain[i] = kEndOfClusterchain := by
  have hend := h.isEnd_getLast
  rw [h.getLast_eq hi] at hend
  simp [Volume.nextCluster, hend]

end FileChain

/-! ## Linking free clusters -/

section Link

variable {v : Volume} {bound : ℕ}

theorem mem_of_mem_take_free {c n : ℕ} (h : c ∈ (v.freeClusters bound).take n) :
    (2 ≤ c ∧ c < bound) ∧ v.fatEntry c = 0 :=
  Volume.mem_freeClusters.mp (List.mem_of_mem_take h)

theorem freeClusters_congr {v' : Volume} (hfat : ∀ d < bound, v'.fatEntry d = v.fatEntry d) :
    v'.freeClusters bound = v.freeClusters bound := by
  apply List.filter_congr
  intro d hd
  have hrange := List.mem_range'_1.mp hd
  rw [hfat d (by omega)]

/-- The free clusters left after the first `n` were linked behind `last`. -/
theorem freeClusters_of_frame {v' : Volume} {n : ℕ} {used : List ℕ}
    (hused : ∀ d ∈ used, v.fatEntry d ≠ 0)
    (hnew : ∀ d ∈ used ++ (v.freeClusters bound).take n, v'.fatEntry d ≠ 0)
    (hframe : ∀ d < bound, d ∉ used ++ (v.freeClusters bound).take n →
      v'.fatEntry d = v.fatEntry d) :
    v'.freeClusters bound = (v.freeClusters bound).drop n := by
  have hfilter : v'.freeClusters bound =
      (v.freeClusters bound).filter fun d ↦ d ∉ (v.freeClusters bound).take n := by
    rw [Volume.freeClusters, Volume.freeFrom]
    conv_rhs => rw [Volume.freeClusters, Volume.freeFrom, List.filter_filter]
    apply List.filter_congr
    intro d hd
    have hlt : d < bound := by
      have hrange := List.mem_range'_1.mp hd
      omega
    by_cases htake : d ∈ (v.freeClusters bound).take n
    · have hne := hnew d (List.mem_append_right _ htake)
      simpa [hne] using fun h _ ↦ h htake
    · by_cases huse : d ∈ used
      · have hne := hnew d (List.mem_append_left _ huse)
        simp [hne, hused d huse]
      · have hsame := hframe d hlt (by simp [htake, huse])
        rw [hsame, Bool.eq_iff_iff]
        simp only [decide_eq_true_eq, Bool.and_eq_true]
        exact ⟨fun h ↦ ⟨htake, h⟩, fun h ↦ h.2⟩
  have hsplit := List.take_append_drop n (v.freeClusters bound)
  have hnodup := v.nodup_freeClusters bound
  rw [← hsplit, List.nodup_append] at hnodup
  rw [hfilter]
  conv_lhs => rw [← hsplit]
  rw [List.filter_append, List.filter_eq_nil_iff.mpr, List.nil_append, List.filter_eq_self.mpr]
  · intro d hd
    rw [hsplit, decide_eq_true_eq]
    intro hmem
    exact hnodup.2.2 d hmem d hd rfl
  · intro d hd
    rw [hsplit, decide_eq_true_eq, not_not]
    exact hd

theorem grown_linkChain (hg : Geometry v.bpb bound) {front : List ℕ} {last n : ℕ}
    (h : FileChain v bound (front ++ [last])) (hn : n ≤ (v.freeClusters bound).length) :
    Grown v (v.linkChain last ((v.freeClusters bound).take n)) bound (front ++ [last]) n := by
  have hb := hg.bound_le
  have hnew : ∀ c ∈ (v.freeClusters bound).take n, (2 ≤ c ∧ c < bound) ∧ v.fatEntry c = 0 :=
    fun c hc ↦ mem_of_mem_take_free hc
  have htable : (v.linkChain last ((v.freeClusters bound).take n)).fatEntry =
      linkAfter v.fatEntry kEndOfClusterchain last ((v.freeClusters bound).take n) := by
    apply Volume.fatEntry_linkChain
    intro c hc
    have hlt := (hnew c hc).1.2
    omega
  have hnodup : (front ++ last :: (v.freeClusters bound).take n).Nodup := by
    have happ : front ++ last :: (v.freeClusters bound).take n =
        (front ++ [last]) ++ (v.freeClusters bound).take n := by simp
    rw [happ, List.nodup_append]
    refine ⟨h.nodup, (List.take_sublist _ _).nodup (v.nodup_freeClusters bound), ?_⟩
    rintro c hc d hd rfl
    exact h.fatEntry_ne_zero hc (hnew c hd).2
  have hchain : FileChain (v.linkChain last ((v.freeClusters bound).take n)) bound
      ((front ++ [last]) ++ (v.freeClusters bound).take n) := by
    constructor
    · rw [htable, List.append_assoc, List.singleton_append]
      apply h.linked.link kEndOfClusterchain_isEnd _ hnodup
      intro c hc
      exact not_isEndOfClusterchain hg (hnew c hc).1.2
    · intro c hc
      rcases List.mem_append.mp hc with hc | hc
      · exact h.inRange c hc
      · exact (hnew c hc).1
  have hframe : ∀ d < bound, d ∉ (front ++ [last]) ++ (v.freeClusters bound).take n →
      (v.linkChain last ((v.freeClusters bound).take n)).fatEntry d = v.fatEntry d := by
    intro d _ hd
    rw [htable]
    apply linkAfter_of_notMem
    simp only [List.mem_append, List.mem_cons, List.not_mem_nil, or_false, not_or] at hd ⊢
    exact ⟨hd.1.2, hd.2⟩
  exact ⟨hn, by simp, hchain,
    freeClusters_of_frame (fun d hd ↦ h.fatEntry_ne_zero hd)
      (fun d hd ↦ hchain.fatEntry_ne_zero hd) hframe, hframe⟩

end Link

namespace Grown

variable {v v₁ v₂ : Volume} {bound : ℕ} {chain : List ℕ}

theorem refl (h : FileChain v bound chain) : Grown v v bound chain 0 :=
  ⟨by simp, rfl, by simpa using h, by simp, fun _ _ _ ↦ rfl⟩

theorem trans {t₁ t₂ : ℕ} (h₁ : Grown v v₁ bound chain t₁)
    (h₂ : Grown v₁ v₂ bound (chain ++ (v.freeClusters bound).take t₁) t₂) :
    Grown v v₂ bound chain (t₁ + t₂) := by
  have htake : chain ++ (v.freeClusters bound).take (t₁ + t₂) =
      (chain ++ (v.freeClusters bound).take t₁) ++ (v₁.freeClusters bound).take t₂ := by
    rw [List.take_add, h₁.free, List.append_assoc]
  constructor
  · have hlen := h₂.enough
    rw [h₁.free, List.length_drop] at hlen
    have hle := h₁.enough
    omega
  · exact h₂.bpb.trans h₁.bpb
  · rw [htake]
    exact h₂.linked
  · rw [h₂.free, h₁.free, List.drop_drop]
  · intro d hlt hd
    rw [htake] at hd
    rw [h₂.frame d hlt hd, h₁.frame d hlt fun hmem ↦ hd (List.mem_append_left _ hmem)]

theorem of_fatEntry_eq {t : ℕ} (h : Grown v v₁ bound chain t) (hbpb : v₂.bpb = v₁.bpb)
    (hfat : ∀ d < bound, v₂.fatEntry d = v₁.fatEntry d) : Grown v v₂ bound chain t := by
  refine ⟨h.enough, hbpb.trans h.bpb, ?_, ?_, ?_⟩
  · exact h.linked.congr fun c hc ↦ hfat c (h.linked.inRange c hc).2
  · rw [← h.free]
    exact freeClusters_congr hfat
  · intro d hlt hd
    rw [hfat d hlt, h.frame d hlt hd]

/-- The chains of other files survive. -/
theorem other_chain {t : ℕ} (h : Grown v v₁ bound chain t) {other : List ℕ}
    (hother : FileChain v bound other) (hdisj : ∀ c ∈ other, c ∉ chain) :
    FileChain v₁ bound other := by
  apply hother.congr
  intro c hc
  apply h.frame c (hother.inRange c hc).2
  intro hmem
  rcases List.mem_append.mp hmem with hmem | hmem
  · exact hdisj c hc hmem
  · exact hother.notMem_free hc (List.mem_of_mem_take hmem)

end Grown

theorem extendCluster_grown {v v' : Volume} {bound n c' i : ℕ} {chain : List ℕ}
    (hg : Geometry v.bpb bound) (h : FileChain v bound chain) (hi : i + 1 = chain.length)
    (hext : v.extendCluster (bound - 2) chain[i] n = some (c', v')) :
    Grown v v' bound chain n ∧
      c' = ((v.freeClusters bound).take n).getLastD chain[i] ∧
      ∀ x, v.fatOffset + 4 * bound ≤ x → v'.mem x = v.mem x := by
  have hb := hg.bound_le
  have hlast := h.getElem_inRange (by omega : i < chain.length)
  have hend := h.isEnd_getLast
  rw [h.getLast_eq hi] at hend
  rw [Volume.extendCluster_eq v n (by omega) hend] at hext
  split_ifs at hext with hn
  · simp only [Option.some.injEq, Prod.mk.injEq] at hext
    obtain ⟨rfl, rfl⟩ := hext
    have hsplit : chain = chain.take i ++ [chain[i]] := by
      rw [List.take_append_getElem, hi, List.take_length]
    refine ⟨?_, rfl, ?_⟩
    · have hgrown := grown_linkChain hg (hsplit ▸ h) hn
      rwa [← hsplit] at hgrown
    · intro x hx
      exact Volume.linkChain_mem_of_ge v hlast.2
        (fun c hc ↦ (mem_of_mem_take_free hc).1.2) hx

theorem grown_setFat {v : Volume} {bound first : ℕ}
    (hhead : (v.freeClusters bound).head? = some first) :
    (v.freeClusters bound).take 1 = [first] ∧
      Grown v (v.setFat first kEndOfClusterchain) bound [] 1 := by
  have hfree : first ∈ v.freeClusters bound := List.mem_of_mem_head? hhead
  have hin := Volume.mem_freeClusters.mp hfree
  have hone : (v.freeClusters bound).take 1 = [first] := by
    rw [List.take_one, hhead]
    rfl
  have htable : (v.setFat first kEndOfClusterchain).fatEntry =
      Function.update v.fatEntry first kEndOfClusterchain :=
    Volume.fatEntry_setFat v first (by decide)
  have hchain : FileChain (v.setFat first kEndOfClusterchain) bound [first] := by
    constructor
    · simp [LinkedChain, htable, kEndOfClusterchain_isEnd]
    · simpa using hin.1
  have hframe : ∀ d < bound, d ∉ [] ++ (v.freeClusters bound).take 1 →
      (v.setFat first kEndOfClusterchain).fatEntry d = v.fatEntry d := by
    intro d _ hd
    rw [htable, Function.update_of_ne]
    simpa [hone] using hd
  refine ⟨hone, List.length_pos_of_mem hfree, rfl, ?_, ?_, hframe⟩
  · simpa [hone] using hchain
  · apply freeClusters_of_frame _ _ hframe
    · simp
    · intro d hd
      exact hchain.fatEntry_ne_zero (by simpa [hone] using hd)

/-- `AllocateClusterChain`, searching the whole table, makes a chain of the
first free clusters: at least one, whatever number is asked for. -/
theorem allocateClusterChain_grown {v v' : Volume} {bound n c : ℕ} (hg : Geometry v.bpb bound)
    (halloc : v.allocateClusterChain (bound - 2) n = some (c, v')) :
    Grown v v' bound [] (max 1 n) ∧
      ((v.freeClusters bound).take (max 1 n)).head? = some c ∧
      ∀ x, v.fatOffset + 4 * bound ≤ x → v'.mem x = v.mem x := by
  rw [Volume.allocateClusterChain, Volume.findFree_eq, Option.bind_eq_bind,
    Option.bind_eq_some_iff] at halloc
  obtain ⟨first, hhead, hrest⟩ := halloc
  obtain ⟨hone, hgrown⟩ := grown_setFat hhead
  have hin := Volume.mem_freeClusters.mp (List.mem_of_mem_head? hhead)
  have hmem : ∀ x, v.fatOffset + 4 * bound ≤ x →
      (v.setFat first kEndOfClusterchain).mem x = v.mem x :=
    fun x hx ↦ Volume.setFat_mem_of_ge v hin.1.2 hx
  dsimp only at hrest
  split_ifs at hrest with hn
  · rw [Option.bind_eq_bind, Option.bind_eq_some_iff] at hrest
    obtain ⟨⟨c', w⟩, hext, hres⟩ := hrest
    simp only [Option.pure_def, Option.some.injEq, Prod.mk.injEq] at hres
    obtain ⟨rfl, rfl⟩ := hres
    have hchain := hgrown.linked
    rw [hone, List.nil_append] at hchain
    have hg₁ : Geometry (v.setFat first kEndOfClusterchain).bpb bound := by
      rwa [Volume.setFat_bpb]
    obtain ⟨hmore, -, hmem'⟩ :=
      @extendCluster_grown _ _ _ _ _ 0 _ hg₁ hchain (List.length_singleton).symm hext
    have hall : Grown v w bound [] (1 + (n - 1)) := hgrown.trans (by rwa [hone, List.nil_append])
    have hmax : max 1 n = 1 + (n - 1) := by omega
    rw [hmax]
    refine ⟨hall, ?_, fun x hx ↦ (hmem' x hx).trans (hmem x hx)⟩
    rw [List.take_add, hone]
    rfl
  · simp only [Option.pure_def, Option.some.injEq, Prod.mk.injEq] at hrest
    obtain ⟨rfl, rfl⟩ := hrest
    have hmax : max 1 n = 1 := by omega
    rw [hmax]
    exact ⟨hgrown, by rw [hone]; rfl, hmem⟩

theorem allocateClusterChain_total {v : Volume} {bound n : ℕ} (hg : Geometry v.bpb bound)
    (henough : max 1 n ≤ (v.freeClusters bound).length) :
    ∃ r, v.allocateClusterChain (bound - 2) n = some r := by
  cases hhead : (v.freeClusters bound).head? with
  | none =>
      rw [List.head?_eq_none_iff.mp hhead, List.length_nil] at henough
      omega
  | some first =>
      obtain ⟨hone, hgrown⟩ := grown_setFat hhead
      have hend : isEndOfClusterchain
          ((v.setFat first kEndOfClusterchain).fatEntry first) = true := by
        rw [Volume.fatEntry_setFat v first (by decide), Function.update_self]
        exact kEndOfClusterchain_isEnd
      have hb := hg.bound_le
      rw [Volume.allocateClusterChain, Volume.findFree_eq]
      rw [Volume.freeClusters] at hhead
      rw [hhead]
      simp only [Option.bind_eq_bind, Option.bind_some]
      split_ifs with hn
      · have hfree := hgrown.free
        rw [Volume.freeClusters] at hfree
        rw [Volume.extendCluster_eq _ _ (by omega) hend, hfree, List.length_drop,
          if_pos (by omega)]
        exact ⟨_, rfl⟩
      · exact ⟨_, rfl⟩

end Fat
end MinOS
