import MinOS.Fat.WriteLoop

/-!
# One call of `Write`

The owner of a chain is the directory entry that names its first cluster.  A
call of `Write` through a descriptor of that entry grows the chain, stores at
or behind the write position, and updates the entry.
-/

namespace MinOS
namespace Fat

open ByteMemory

/-- The entry has no cluster, or it names the first cluster of the chain. -/
def Owns (v : Volume) (bound entry : ℕ) (chain : List ℕ) : Prop :=
  chain = [] ∧ v.firstCluster entry = 0 ∨
    FileChain v bound chain ∧ chain.head? = some (v.firstCluster entry)

/-- The bytes of the entry lie in the data area, but in no cluster of the chain
and in no free cluster. -/
def Apart (v : Volume) (bound entry : ℕ) (chain : List ℕ) : Prop :=
  ∀ x, entry ≤ x → x < entry + 32 →
    v.fatOffset + 4 * bound ≤ x ∧ ∀ c ∈ chain ++ v.freeClusters bound, ¬ v.InCluster c x

/-- The descriptor has not written yet, or its write position is `p`. -/
def WritePos (v : Volume) (fd : FileDescriptor) (chain : List ℕ) (p : ℕ) : Prop :=
  fd.wrCluster = 0 ∧ fd.wrClusterOff = 0 ∧ p = 0 ∨
    fd.wrCluster ≠ 0 ∧ Cursor v chain fd.wrCluster fd.wrClusterOff p

theorem fatEntry_setFirstCluster {v : Volume} {bound entry : ℕ} (c : ℕ)
    (htable : v.fatOffset + 4 * bound ≤ entry) :
    ∀ d < bound, (v.setFirstCluster entry c).fatEntry d = v.fatEntry d := by
  apply fatEntry_congr (Volume.setFirstCluster_bpb v entry c)
  intro x hx
  apply Volume.setFirstCluster_mem
  rw [Volume.EntryField]
  omega

theorem fatEntry_setFileSize {v : Volume} {bound entry : ℕ} (size : ℕ)
    (htable : v.fatOffset + 4 * bound ≤ entry) :
    ∀ d < bound, (v.setFileSize entry size).fatEntry d = v.fatEntry d := by
  apply fatEntry_congr (Volume.setFileSize_bpb v entry size)
  intro x hx
  apply Volume.setFileSize_mem
  omega

/-- The clusters that `Write` takes before its loop: none if the file has `K > 0`
clusters already, and else as many as the bytes need, but at least one. -/
def startTaken (v : Volume) (K len : ℕ) : ℕ :=
  if K = 0 then max 1 (v.numCluster len) else 0

/-- `Write` begins on a chain that the entry names, at its write position. -/
theorem writeStart_spec {v v₁ : Volume} {bound p c₁ len : ℕ} {fd : FileDescriptor} {chain : List ℕ}
    (hg : Geometry v.bpb bound) (howns : Owns v bound fd.fatEntry chain)
    (hapart : Apart v bound fd.fatEntry chain) (hpos : WritePos v fd chain p)
    (hstart : v.writeStart (bound - 2) fd len = some (v₁, c₁)) :
    ∃ t, Grown v v₁ bound chain t ∧
      (∀ x, v.fatOffset + 4 * bound ≤ x → ¬ Volume.EntryField fd.fatEntry x → v₁.mem x = v.mem x) ∧
      (chain ++ (v.freeClusters bound).take t).head? = some (v₁.firstCluster fd.fatEntry) ∧
      Cursor v (chain ++ (v.freeClusters bound).take t) c₁ fd.wrClusterOff p ∧
      t = startTaken v chain.length len := by
  simp only [Volume.writeStart] at hstart
  rcases hpos with ⟨hc0, hoff0, rfl⟩ | ⟨hcne, hcur⟩
  · rw [if_pos hc0] at hstart
    rcases howns with ⟨rfl, hzero⟩ | ⟨hchain, hhead⟩
    · -- a new chain, entered in the directory entry
      rw [if_neg (by simpa using hzero), Option.bind_eq_bind, Option.bind_eq_some_iff] at hstart
      obtain ⟨⟨c, w⟩, halloc, hres⟩ := hstart
      simp only [Option.pure_def, Option.some.injEq, Prod.mk.injEq] at hres
      obtain ⟨rfl, rfl⟩ := hres
      obtain ⟨hgrown, hhead, hmem⟩ := allocateClusterChain_grown hg halloc
      have htable : w.fatOffset + 4 * bound ≤ fd.fatEntry := by
        rw [fatOffset_congr hgrown.bpb]
        exact (hapart fd.fatEntry le_rfl (by omega)).1
      have hin := hgrown.linked.inRange c (List.mem_of_mem_head? hhead)
      have hb := hg.bound_le
      have hsmall : c < 2 ^ 32 := by omega
      refine ⟨_, hgrown.of_fatEntry_eq (Volume.setFirstCluster_bpb w fd.fatEntry c)
        (fatEntry_setFirstCluster c htable), ?_, ?_, ?_, by simp [startTaken]⟩
      · intro x hx hnot
        rw [Volume.setFirstCluster_mem w c hnot, hmem x hx]
      · rwa [Volume.firstCluster_setFirstCluster w fd.fatEntry hsmall]
      · refine ⟨0, ?_, ?_, ?_⟩
        · rw [← hhead, List.nil_append, List.head?_eq_getElem?]
        · rw [hoff0]
          exact Nat.zero_le _
        · rw [hoff0, Nat.zero_mul]
    · have hfirst : v.firstCluster fd.fatEntry ≠ 0 := by
        have hin := hchain.inRange _ (List.mem_of_mem_head? hhead)
        omega
      rw [if_pos hfirst] at hstart
      simp only [Option.some.injEq, Prod.mk.injEq] at hstart
      obtain ⟨rfl, rfl⟩ := hstart
      refine ⟨0, Grown.refl hchain, fun _ _ _ ↦ rfl, by simpa using hhead, ?_,
        by simp [startTaken, hchain.ne_nil]⟩
      refine ⟨0, ?_, ?_, ?_⟩
      · rw [← hhead, List.take_zero, List.append_nil, List.head?_eq_getElem?]
      · rw [hoff0]
        exact Nat.zero_le _
      · rw [hoff0, Nat.zero_mul]
  · rw [if_neg hcne] at hstart
    simp only [Option.some.injEq, Prod.mk.injEq] at hstart
    obtain ⟨rfl, rfl⟩ := hstart
    rcases howns with ⟨rfl, -⟩ | ⟨hchain, hhead⟩
    · exact absurd hcur.mem List.not_mem_nil
    · exact ⟨0, Grown.refl hchain, fun _ _ _ ↦ rfl, by simpa using hhead, by simpa using hcur,
        by simp [startTaken, hchain.ne_nil]⟩

/-- What a call of `Write` does for the owner of the chain: `t` clusters are
taken, and behind the table only bytes at or behind the write position `p`, and
the first-cluster and size fields of the entry, have changed. -/
structure WriteEffect (v v' : Volume) (bound : ℕ) (fd fd' : FileDescriptor) (chain : List ℕ)
    (buf : List UInt8) (t p p' : ℕ) : Prop where
  grown : Grown v v' bound chain t
  data : ∀ x, v.fatOffset + 4 * bound ≤ x →
    ¬ AtOrBehind v (chain ++ (v.freeClusters bound).take t) p x →
    ¬ Volume.EntryField fd.fatEntry x → v'.mem x = v.mem x
  head : (chain ++ (v.freeClusters bound).take t).head? = some (v'.firstCluster fd.fatEntry)
  size : v'.fileSize fd.fatEntry = (fd.wrOff + buf.length) % 2 ^ 32
  entry : fd'.fatEntry = fd.fatEntry
  off : fd'.wrOff = fd.wrOff + buf.length
  cursor : Cursor v (chain ++ (v.freeClusters bound).take t) fd'.wrCluster fd'.wrClusterOff p'
  le : p + buf.length ≤ p'
  taken : t = startTaken v chain.length buf.length +
    triangle (beyond v (chain.length + startTaken v chain.length buf.length) p buf.length)
  position : p' + beyond v (chain.length + startTaken v chain.length buf.length) p buf.length *
      v.bytesPerCluster =
    p + buf.length + triangle (beyond v (chain.length + startTaken v chain.length buf.length) p
      buf.length) * v.bytesPerCluster
  fits : p + buf.length ≤
      (chain.length + startTaken v chain.length buf.length + 1) * v.bytesPerCluster →
    ∀ j d o, (chain ++ (v.freeClusters bound).take t)[j]? = some d → o < v.bytesPerCluster →
      v'.mem (v.getClusterAddr d + o) =
        if p ≤ j * v.bytesPerCluster + o then
          buf.getD (j * v.bytesPerCluster + o - p) (v.mem (v.getClusterAddr d + o))
        else v.mem (v.getClusterAddr d + o)
  skips : (chain.length + startTaken v chain.length buf.length + 1) * v.bytesPerCluster <
      p + buf.length →
    (chain.length + startTaken v chain.length buf.length + 1) * v.bytesPerCluster ≤ p' ∧
      ∀ d o, (chain ++ (v.freeClusters bound).take t)[chain.length +
          startTaken v chain.length buf.length]? = some d → o < v.bytesPerCluster →
        v'.mem (v.getClusterAddr d + o) = v.mem (v.getClusterAddr d + o)

/-- A call of `Write` is its start, its loop and the new size of the entry. -/
theorem write_eq_some {v v' : Volume} {fuel : ℕ} {fd fd' : FileDescriptor} {buf : List UInt8}
    (h : v.write fuel fd buf = some (v', fd')) :
    ∃ v₁ c₁ v₂ c₂ off₂, v.writeStart fuel fd buf.length = some (v₁, c₁) ∧
      Volume.writeLoop fuel buf.length v₁ c₁ fd.wrClusterOff buf = some (v₂, c₂, off₂) ∧
      v' = v₂.setFileSize fd.fatEntry (fd.wrOff + buf.length) ∧
      fd' = { fd with wrOff := fd.wrOff + buf.length, wrCluster := c₂, wrClusterOff := off₂ } := by
  rw [Volume.write, Option.bind_eq_bind, Option.bind_eq_some_iff] at h
  obtain ⟨⟨v₁, c₁⟩, hstart, h⟩ := h
  rw [Option.bind_eq_bind, Option.bind_eq_some_iff] at h
  obtain ⟨⟨v₂, c₂, off₂⟩, hloop, h⟩ := h
  simp only [Option.pure_def, Option.some.injEq, Prod.mk.injEq] at h
  exact ⟨v₁, c₁, v₂, c₂, off₂, hstart, hloop, h.1.symm, h.2.symm⟩

theorem Apart.not_atOrBehind {v : Volume} {bound entry t p x : ℕ} {chain : List ℕ}
    (h : Apart v bound entry chain) (hx : entry ≤ x) (hlt : x < entry + 32) :
    ¬ AtOrBehind v (chain ++ (v.freeClusters bound).take t) p x := by
  intro hat
  obtain ⟨c, hc, hin⟩ := hat.inCluster
  refine (h x hx hlt).2 c ?_ hin
  rcases List.mem_append.mp hc with hc | hc
  · exact List.mem_append_left _ hc
  · exact List.mem_append_right _ (List.mem_of_mem_take hc)

theorem Apart.not_entryField {v : Volume} {bound entry t d o : ℕ} {chain : List ℕ}
    (h : Apart v bound entry chain) (hd : d ∈ chain ++ (v.freeClusters bound).take t)
    (ho : o < v.bytesPerCluster) : ¬ Volume.EntryField entry (v.getClusterAddr d + o) := by
  intro hfield
  have hrange : entry ≤ v.getClusterAddr d + o ∧ v.getClusterAddr d + o < entry + 32 := by
    rcases hfield with hfield | hfield
    · omega
    · omega
  refine (h _ hrange.1 hrange.2).2 d ?_ ⟨Nat.le_add_right _ _, Nat.add_lt_add_left ho _⟩
  rcases List.mem_append.mp hd with hd | hd
  · exact List.mem_append_left _ hd
  · exact List.mem_append_right _ (List.mem_of_mem_take hd)

theorem write_effect {v v' : Volume} {bound p : ℕ} {fd fd' : FileDescriptor} {chain : List ℕ}
    {buf : List UInt8} (hg : Geometry v.bpb bound) (howns : Owns v bound fd.fatEntry chain)
    (hapart : Apart v bound fd.fatEntry chain) (hpos : WritePos v fd chain p)
    (hwrite : v.write (bound - 2) fd buf = some (v', fd')) :
    ∃ t p', WriteEffect v v' bound fd fd' chain buf t p p' := by
  obtain ⟨v₁, c₁, v₂, c₂, off₂, hstart, hloop, rfl, rfl⟩ := write_eq_some hwrite
  obtain ⟨t₁, hgrown₁, hmem₁, hhead, hcur₁, ht₁⟩ := writeStart_spec hg howns hapart hpos hstart
  have hbpb := hgrown₁.bpb
  have hB := Volume.bytesPerCluster_congr hbpb
  have hg₁ : Geometry v₁.bpb bound := by rwa [hbpb]
  obtain ⟨t₂, p', heffect⟩ :=
    writeLoop_effect hg₁ hgrown₁.linked ((cursor_congr hbpb).mpr hcur₁) hloop
  have hwrote := heffect.wrote
  have htake : chain ++ (v.freeClusters bound).take (t₁ + t₂) =
      (chain ++ (v.freeClusters bound).take t₁) ++ (v₁.freeClusters bound).take t₂ := by
    rw [List.take_add, hgrown₁.free, List.append_assoc]
  have hgrown₂ := hgrown₁.trans hwrote.grown
  have hdata₂ : ∀ x, v.fatOffset + 4 * bound ≤ x →
      ¬ AtOrBehind v (chain ++ (v.freeClusters bound).take (t₁ + t₂)) p x →
      v₂.mem x = v₁.mem x := by
    intro x hx hnot
    apply hwrote.data x (by rwa [fatOffset_congr hbpb])
    intro hat
    exact hnot (htake ▸ hat.congr hbpb)
  have htable : v₂.fatOffset + 4 * bound ≤ fd.fatEntry := by
    rw [fatOffset_congr hgrown₂.bpb]
    exact (hapart fd.fatEntry le_rfl (by omega)).1
  have hentry : ∀ x, fd.fatEntry ≤ x → x < fd.fatEntry + 32 → v₂.mem x = v₁.mem x := by
    intro x hx hlt
    exact hdata₂ x (hapart x hx hlt).1 (hapart.not_atOrBehind hx hlt)
  have hlen := length_grown hgrown₁
  have hbeyond : beyond v₁ (chain.length + t₁) p buf.length =
      beyond v (chain.length + t₁) p buf.length := by
    rw [beyond, beyond, Volume.numCluster, Volume.numCluster, hB]
  -- in the clusters of the chain, only the loop changes bytes
  have hfirst : ∀ d ∈ chain ++ (v.freeClusters bound).take (t₁ + t₂), ∀ o < v.bytesPerCluster,
      v₁.mem (v.getClusterAddr d + o) = v.mem (v.getClusterAddr d + o) := by
    intro d hd o ho
    have hin := hgrown₂.linked.inRange d hd
    have hx : v.InCluster d (v.getClusterAddr d + o) :=
      ⟨Nat.le_add_right _ _, Nat.add_lt_add_left ho _⟩
    exact hmem₁ _ (hx.table_le hg hin.1 hin.2) (hapart.not_entryField hd ho)
  have hlast : ∀ d ∈ chain ++ (v.freeClusters bound).take (t₁ + t₂), ∀ o < v.bytesPerCluster,
      (v₂.setFileSize fd.fatEntry (fd.wrOff + buf.length)).mem (v.getClusterAddr d + o) =
        v₂.mem (v.getClusterAddr d + o) := by
    intro d hd o ho
    apply Volume.setFileSize_mem
    intro hsize
    exact hapart.not_entryField hd ho (.inr ⟨by omega, by omega⟩)
  refine ⟨t₁ + t₂, p', ?_⟩
  constructor
  · exact hgrown₂.of_fatEntry_eq (Volume.setFileSize_bpb _ _ _) (fatEntry_setFileSize _ htable)
  · intro x hx hnot hfield
    rw [Volume.setFileSize_mem, hdata₂ x hx hnot, hmem₁ x hx hfield]
    intro hsize
    exact hfield (.inr ⟨by omega, by omega⟩)
  · have hsame : (v₂.setFileSize fd.fatEntry (fd.wrOff + buf.length)).firstCluster fd.fatEntry =
        v₁.firstCluster fd.fatEntry := by
      apply Volume.firstCluster_congr
      intro x hx hlt
      rw [Volume.setFileSize_mem v₂ _ (by omega), hentry x (by omega) (by omega)]
    rw [hsame, htake, List.head?_append, hhead]
    rfl
  · exact Volume.fileSize_setFileSize _ _ _
  · rfl
  · rfl
  · rw [htake]
    exact (cursor_congr hbpb).mp heffect.cursor
  · exact heffect.le
  · rw [← ht₁, ← hbeyond, ← hlen, ← heffect.taken]
  · have hposition := heffect.position
    rw [heffect.taken, hlen, hbeyond, hB] at hposition
    rwa [ht₁] at hposition
  · intro hfits j d o hj ho
    have hd := List.mem_of_getElem? hj
    rw [← ht₁, ← hlen, ← hB] at hfits
    have hcontent := heffect.fits hfits j d o (htake ▸ hj) (by rwa [hB])
    rw [Volume.getClusterAddr_congr hbpb, hB, hfirst d hd o ho] at hcontent
    rw [hlast d hd o ho, hcontent]
  · intro hskip
    rw [← ht₁, ← hlen, ← hB] at hskip
    obtain ⟨hbehind, hkeep⟩ := heffect.skips hskip
    rw [← ht₁, ← hlen]
    refine ⟨hB ▸ hbehind, fun d o hd ho ↦ ?_⟩
    have hmem := List.mem_of_getElem? hd
    have hsame := hkeep d o (htake ▸ hd) (by rwa [hB])
    rw [Volume.getClusterAddr_congr hbpb, hfirst d hmem o ho] at hsame
    rw [hlast d hmem o ho, hsame]

theorem write_total {v : Volume} {bound p : ℕ} {fd : FileDescriptor} {chain : List ℕ}
    {buf : List UInt8} (hg : Geometry v.bpb bound) (howns : Owns v bound fd.fatEntry chain)
    (hapart : Apart v bound fd.fatEntry chain) (hpos : WritePos v fd chain p)
    (henough : startTaken v chain.length buf.length +
      triangle (beyond v (chain.length + startTaken v chain.length buf.length) p buf.length) ≤
        (v.freeClusters bound).length) :
    ∃ r, v.write (bound - 2) fd buf = some r := by
  obtain ⟨⟨v₁, c₁⟩, hstart⟩ : ∃ r, v.writeStart (bound - 2) fd buf.length = some r := by
    rw [Volume.writeStart]
    split_ifs with hzero hfirst
    · exact ⟨_, rfl⟩
    · rcases howns with ⟨rfl, -⟩ | ⟨hchain, hhead⟩
      · have hneed : max 1 (v.numCluster buf.length) ≤ (v.freeClusters bound).length := by
          simp only [startTaken, List.length_nil, if_true] at henough
          omega
        obtain ⟨r, hr⟩ := allocateClusterChain_total hg hneed
        rw [hr]
        exact ⟨_, rfl⟩
      · have hin := hchain.inRange _ (List.mem_of_mem_head? hhead)
        omega
    · exact ⟨_, rfl⟩
  obtain ⟨t₁, hgrown₁, hmem₁, hhead, hcur₁, ht₁⟩ := writeStart_spec hg howns hapart hpos hstart
  have hbpb := hgrown₁.bpb
  have hB := Volume.bytesPerCluster_congr hbpb
  have hg₁ : Geometry v₁.bpb bound := by rwa [hbpb]
  have hbeyond : beyond v₁ (chain ++ (v.freeClusters bound).take t₁).length p buf.length =
      beyond v (chain.length + t₁) p buf.length := by
    rw [length_grown hgrown₁, beyond, beyond, Volume.numCluster, Volume.numCluster, hB]
  rw [← ht₁] at henough
  obtain ⟨r, hloop⟩ := writeLoop_total hg₁ hgrown₁.linked ((cursor_congr hbpb).mpr hcur₁)
    le_rfl (by rw [hbeyond, hgrown₁.free, List.length_drop]; omega)
  rw [Volume.write, hstart]
  simp only [Option.bind_eq_bind, Option.bind_some, hloop]
  exact ⟨_, rfl⟩

theorem WriteEffect.next {v v' : Volume} {bound t p p' : ℕ} {fd fd' : FileDescriptor}
    {chain : List ℕ} {buf : List UInt8} (h : WriteEffect v v' bound fd fd' chain buf t p p')
    (hapart : Apart v bound fd.fatEntry chain) :
    Owns v' bound fd'.fatEntry (chain ++ (v.freeClusters bound).take t) ∧
      Apart v' bound fd'.fatEntry (chain ++ (v.freeClusters bound).take t) ∧
      WritePos v' fd' (chain ++ (v.freeClusters bound).take t) p' := by
  have hbpb := h.grown.bpb
  refine ⟨?_, ?_, ?_⟩
  · rw [h.entry]
    exact .inr ⟨h.grown.linked, h.head⟩
  · rw [h.entry]
    intro x hx hlt
    obtain ⟨htable, hclusters⟩ := hapart x hx hlt
    refine ⟨by rwa [fatOffset_congr hbpb], fun c hc hin ↦ ?_⟩
    rw [h.grown.free, List.append_assoc, List.take_append_drop] at hc
    exact hclusters c hc ((Volume.inCluster_congr hbpb c x).mp hin)
  · have hin := h.grown.linked.inRange _ h.cursor.mem
    exact .inr ⟨by omega, (cursor_congr hbpb).mpr h.cursor⟩

end Fat
end MinOS
