import MinOS.Fat.Fuel
import MinOS.Fat.Read

/-!
# Writing a file and reading it back

A sequence of writes through one fresh descriptor comes back unchanged exactly
when no single write has to extend the chain by more than one cluster.  The
first write of an empty file is exempt, since it allocates its whole chain
before it stores anything.
-/

namespace MinOS
namespace Fat

open ByteMemory

namespace Volume

/-- Successive calls of `Write` through one descriptor. -/
def writeAll (fuel : ℕ) : Volume → FileDescriptor → List (List UInt8) →
    Option (Volume × FileDescriptor)
  | v, fd, [] => some (v, fd)
  | v, fd, buf :: bufs => do
      let r ← v.write fuel fd buf
      writeAll fuel r.1 r.2 bufs

theorem writeAll_mono {v : Volume} {fuel fuel' : ℕ} {fd : FileDescriptor}
    {bufs : List (List UInt8)} {r : Volume × FileDescriptor} (hle : fuel ≤ fuel')
    (h : writeAll fuel v fd bufs = some r) : writeAll fuel' v fd bufs = some r := by
  induction bufs generalizing v fd with
  | nil => exact h
  | cons buf bufs ih =>
      rw [writeAll, Option.bind_eq_bind, Option.bind_eq_some_iff] at h ⊢
      obtain ⟨s, hwrite, hrest⟩ := h
      exact ⟨s, write_mono hle hwrite, ih hrest⟩

end Volume

/-- The byte strings written through one fresh descriptor are what another
fresh descriptor reads, whatever the lengths of the reads, and the size of the
entry is their total length. -/
def RoundTrips (v : Volume) (fuel entry : ℕ) (bufs : List (List UInt8)) : Prop :=
  ∃ v' fd', Volume.writeAll fuel v (FileDescriptor.fresh entry) bufs = some (v', fd') ∧
    v'.fileSize entry = bufs.flatten.length ∧
    ∀ reads : List ℕ, (∀ r ∈ reads, 0 < r) → bufs.flatten.length ≤ reads.sum →
      v'.readAll (FileDescriptor.fresh entry) reads = some bufs.flatten

/-- The writes of these lengths, from position `p` of a file with `K` clusters
on, each end within one cluster of the chain they find. -/
def extendsByOne (v : Volume) : ℕ → ℕ → List ℕ → Prop
  | _, _, [] => True
  | K, p, len :: lens =>
      let K₁ := K + startTaken v K len
      p + len ≤ (K₁ + 1) * v.bytesPerCluster ∧
        extendsByOne v (K₁ + beyond v K₁ p len) (p + len) lens

instance extendsByOne.decidable (v : Volume) :
    ∀ (K p : ℕ) (lens : List ℕ), Decidable (extendsByOne v K p lens)
  | _, _, [] => .isTrue trivial
  | K, p, len :: lens =>
      @instDecidableAnd _ _ (Nat.decLe _ _)
        (extendsByOne.decidable v
          (K + startTaken v K len + beyond v (K + startTaken v K len) p len) (p + len) lens)

/-- The clusters that the writes of these lengths take. -/
def clustersTaken (v : Volume) : ℕ → ℕ → List ℕ → ℕ
  | _, _, [] => 0
  | K, p, len :: lens =>
      let K₁ := K + startTaken v K len
      let m := beyond v K₁ p len
      startTaken v K len + triangle m +
        clustersTaken v (K₁ + triangle m)
          (p + len + triangle m * v.bytesPerCluster - m * v.bytesPerCluster) lens

/-- The place in the chain of the first cluster that is passed over. -/
def firstSkip (v : Volume) : ℕ → ℕ → List ℕ → ℕ
  | K, _, [] => K
  | K, p, len :: lens =>
      let K₁ := K + startTaken v K len
      if p + len ≤ (K₁ + 1) * v.bytesPerCluster then
        firstSkip v (K₁ + beyond v K₁ p len) (p + len) lens
      else K₁

section Congr

variable {v v' : Volume} (hbpb : v'.bpb = v.bpb)

include hbpb

theorem beyond_congr (K p len : ℕ) : beyond v' K p len = beyond v K p len := by
  rw [beyond, beyond, Volume.numCluster, Volume.numCluster, Volume.bytesPerCluster_congr hbpb]

theorem startTaken_congr (K len : ℕ) : startTaken v' K len = startTaken v K len := by
  rw [startTaken, startTaken, Volume.numCluster, Volume.numCluster,
    Volume.bytesPerCluster_congr hbpb]

theorem extendsByOne_congr (K p : ℕ) (lens : List ℕ) :
    extendsByOne v' K p lens ↔ extendsByOne v K p lens := by
  induction lens generalizing K p with
  | nil => exact Iff.rfl
  | cons len lens ih =>
      simp only [extendsByOne, startTaken_congr hbpb, beyond_congr hbpb,
        Volume.bytesPerCluster_congr hbpb, ih]

theorem clustersTaken_congr (K p : ℕ) (lens : List ℕ) :
    clustersTaken v' K p lens = clustersTaken v K p lens := by
  induction lens generalizing K p with
  | nil => rfl
  | cons len lens ih =>
      simp only [clustersTaken, startTaken_congr hbpb, beyond_congr hbpb,
        Volume.bytesPerCluster_congr hbpb, ih]

theorem firstSkip_congr (K p : ℕ) (lens : List ℕ) :
    firstSkip v' K p lens = firstSkip v K p lens := by
  induction lens generalizing K p with
  | nil => rfl
  | cons len lens ih =>
      simp only [firstSkip, startTaken_congr hbpb, beyond_congr hbpb,
        Volume.bytesPerCluster_congr hbpb, ih]

end Congr

/-! ## The writes that come back -/

/-- The descriptor has written `data`, and the chain holds it. -/
structure Writing (v : Volume) (bound : ℕ) (fd : FileDescriptor) (chain : List ℕ)
    (data : List UInt8) : Prop where
  owns : Owns v bound fd.fatEntry chain
  apart : Apart v bound fd.fatEntry chain
  pos : WritePos v fd chain data.length
  off : fd.wrOff = data.length
  holds : Holds v chain data

/-- A write that fits ends one cluster further at most. -/
theorem beyond_le_one {v : Volume} (hpos : 0 < v.bytesPerCluster) {K p len : ℕ}
    (hp : p ≤ K * v.bytesPerCluster) (hfits : p + len ≤ (K + 1) * v.bytesPerCluster) :
    beyond v K p len ≤ 1 := by
  have hlt := numCluster_mul_lt hpos (len - (K * v.bytesPerCluster - p))
  rw [Nat.succ_mul] at hfits
  rw [beyond]
  by_contra hgt
  have hmul : 2 * v.bytesPerCluster ≤
      v.numCluster (len - (K * v.bytesPerCluster - p)) * v.bytesPerCluster :=
    Nat.mul_le_mul_right _ (by omega)
  omega

theorem triangle_of_le_one {m : ℕ} (h : m ≤ 1) : triangle m = m := by
  interval_cases m
  · rfl
  · rfl

theorem WritePos.le {v : Volume} {fd : FileDescriptor} {chain : List ℕ} {p : ℕ}
    (h : WritePos v fd chain p) : p ≤ chain.length * v.bytesPerCluster := by
  rcases h with ⟨-, -, rfl⟩ | ⟨-, hcur⟩
  · exact Nat.zero_le _
  · exact hcur.le

theorem le_start {v : Volume} {K p len : ℕ} (hp : p ≤ K * v.bytesPerCluster) :
    p ≤ (K + startTaken v K len) * v.bytesPerCluster :=
  hp.trans (Nat.mul_le_mul_right _ (Nat.le_add_right _ _))

theorem WriteEffect.length_eq {v v' : Volume} {bound t p p' : ℕ} {fd fd' : FileDescriptor}
    {chain : List ℕ} {buf : List UInt8} (h : WriteEffect v v' bound fd fd' chain buf t p p') :
    (chain ++ (v.freeClusters bound).take t).length =
      chain.length + startTaken v chain.length buf.length +
        triangle (beyond v (chain.length + startTaken v chain.length buf.length) p buf.length) := by
  rw [length_grown h.grown, h.taken]
  omega

theorem WriteEffect.position_eq {v v' : Volume} {bound t p p' : ℕ} {fd fd' : FileDescriptor}
    {chain : List ℕ} {buf : List UInt8} (h : WriteEffect v v' bound fd fd' chain buf t p p') :
    p' = p + buf.length +
      triangle (beyond v (chain.length + startTaken v chain.length buf.length) p buf.length) *
        v.bytesPerCluster -
      beyond v (chain.length + startTaken v chain.length buf.length) p buf.length *
        v.bytesPerCluster := by
  have hposition := h.position
  omega

theorem Writing.write {v v' : Volume} {bound : ℕ} {fd fd' : FileDescriptor} {chain : List ℕ}
    {data buf : List UInt8} (hg : Geometry v.bpb bound) (h : Writing v bound fd chain data)
    (hfits : data.length + buf.length ≤
      (chain.length + startTaken v chain.length buf.length + 1) * v.bytesPerCluster)
    (hwrite : v.write (bound - 2) fd buf = some (v', fd')) :
    ∃ t p', WriteEffect v v' bound fd fd' chain buf t data.length p' ∧
      Writing v' bound fd' (chain ++ (v.freeClusters bound).take t) (data ++ buf) ∧
      (chain ++ (v.freeClusters bound).take t).length =
        chain.length + startTaken v chain.length buf.length +
          beyond v (chain.length + startTaken v chain.length buf.length) data.length buf.length := by
  obtain ⟨t, p', heffect⟩ := write_effect hg h.owns h.apart h.pos hwrite
  have hpos : 0 < v.bytesPerCluster := hg.bytesPerCluster_pos
  have hone := beyond_le_one hpos (le_start h.pos.le) hfits
  have hlen := heffect.length_eq
  have hposition := heffect.position_eq
  rw [triangle_of_le_one hone] at hlen hposition
  have hp' : p' = (data ++ buf).length := by
    rw [List.length_append]
    omega
  subst hp'
  obtain ⟨howns, hapart, hpos'⟩ := heffect.next h.apart
  have hbpb := heffect.grown.bpb
  have hB := Volume.bytesPerCluster_congr hbpb
  refine ⟨t, _, heffect, ⟨howns, hapart, hpos', ?_, ?_⟩, hlen⟩
  · rw [heffect.off, h.off, List.length_append]
  · refine ⟨hpos'.le, ?_⟩
    intro j d o b hj ho hb
    rw [hB] at ho hb
    have hcontent := heffect.fits hfits j d o hj ho
    rw [Volume.getClusterAddr_congr hbpb, hcontent]
    rcases Nat.lt_or_ge (j * v.bytesPerCluster + o) data.length with hlt | hge
    · -- an old byte, in a cluster that the file already had
      rw [if_neg (by omega)]
      have hold : j < chain.length := by
        by_contra hnot
        have hmul : chain.length * v.bytesPerCluster ≤ j * v.bytesPerCluster :=
          Nat.mul_le_mul_right _ (by omega)
        have hcap := h.holds.length_le
        omega
      rw [List.getElem?_append_left hold] at hj
      rw [List.getElem?_append_left hlt] at hb
      exact h.holds.bytes j d o b hj ho hb
    · rw [if_pos hge, List.getD_eq_getElem?_getD]
      rw [List.getElem?_append_right hge] at hb
      rw [hb, Option.getD_some]

/-- Writes that each end within one cluster of the chain come back. -/
theorem Writing.writeAll {v v' : Volume} {bound : ℕ} {fd fd' : FileDescriptor} {chain : List ℕ}
    {data : List UInt8} {bufs : List (List UInt8)} (hg : Geometry v.bpb bound)
    (h : Writing v bound fd chain data) (hsize : bufs = [] → v.fileSize fd.fatEntry = data.length)
    (hsmall : data.length + bufs.flatten.length < 2 ^ 32)
    (hone : extendsByOne v chain.length data.length (bufs.map List.length))
    (hrun : Volume.writeAll (bound - 2) v fd bufs = some (v', fd')) :
    ∃ chain', Writing v' bound fd' chain' (data ++ bufs.flatten) ∧ v'.bpb = v.bpb ∧
      fd'.fatEntry = fd.fatEntry ∧
      v'.fileSize fd.fatEntry = (data ++ bufs.flatten).length := by
  induction bufs generalizing v fd chain data with
  | nil =>
      simp only [Volume.writeAll, Option.some.injEq, Prod.mk.injEq] at hrun
      obtain ⟨rfl, rfl⟩ := hrun
      refine ⟨chain, by simpa using h, rfl, rfl, ?_⟩
      simpa using hsize rfl
  | cons buf bufs ih =>
      rw [Volume.writeAll, Option.bind_eq_bind, Option.bind_eq_some_iff] at hrun
      obtain ⟨⟨v₁, fd₁⟩, hwrite, hrest⟩ := hrun
      obtain ⟨hfits, hlater⟩ := hone
      obtain ⟨t, p', heffect, hwriting, hlen⟩ := h.write hg hfits hwrite
      have hbpb := heffect.grown.bpb
      have hg₁ : Geometry v₁.bpb bound := by rwa [hbpb]
      rw [List.flatten_cons, List.length_append] at hsmall
      have hsize₁ : v₁.fileSize fd₁.fatEntry = (data ++ buf).length := by
        rw [heffect.entry, heffect.size, h.off, List.length_append]
        exact Nat.mod_eq_of_lt (by omega)
      have hlater₁ : extendsByOne v₁ (chain ++ (v.freeClusters bound).take t).length
          (data ++ buf).length (bufs.map List.length) := by
        rw [extendsByOne_congr hbpb, hlen, List.length_append]
        exact hlater
      obtain ⟨chain', hwriting', hbpb', hentry, hsize'⟩ :=
        ih hg₁ hwriting (fun _ ↦ hsize₁) (by rw [List.length_append]; omega) hlater₁ hrest
      refine ⟨chain', ?_, hbpb'.trans hbpb, hentry.trans heffect.entry, ?_⟩
      · rw [List.flatten_cons, ← List.append_assoc]
        exact hwriting'
      · rw [List.flatten_cons, ← List.append_assoc, ← hsize', heffect.entry]

/-- The writes finish when there are as many free clusters as they take. -/
theorem writeAll_total {v : Volume} {bound p : ℕ} {fd : FileDescriptor} {chain : List ℕ}
    {bufs : List (List UInt8)} (hg : Geometry v.bpb bound)
    (howns : Owns v bound fd.fatEntry chain) (hapart : Apart v bound fd.fatEntry chain)
    (hpos : WritePos v fd chain p)
    (henough : clustersTaken v chain.length p (bufs.map List.length) ≤
      (v.freeClusters bound).length) :
    ∃ r, Volume.writeAll (bound - 2) v fd bufs = some r := by
  induction bufs generalizing v fd chain p with
  | nil => exact ⟨(v, fd), rfl⟩
  | cons buf bufs ih =>
      simp only [List.map_cons, clustersTaken] at henough
      obtain ⟨⟨v₁, fd₁⟩, hwrite⟩ : ∃ r, v.write (bound - 2) fd buf = some r :=
        write_total hg howns hapart hpos (by omega)
      obtain ⟨t, p', heffect⟩ := write_effect hg howns hapart hpos hwrite
      obtain ⟨howns₁, hapart₁, hpos₁⟩ := heffect.next hapart
      have hbpb := heffect.grown.bpb
      have hg₁ : Geometry v₁.bpb bound := by rwa [hbpb]
      have htaken := heffect.taken
      have henough₁ : clustersTaken v₁ (chain ++ (v.freeClusters bound).take t).length p'
          (bufs.map List.length) ≤ (v₁.freeClusters bound).length := by
        rw [clustersTaken_congr hbpb, heffect.length_eq, heffect.position_eq, heffect.grown.free,
          List.length_drop]
        omega
      obtain ⟨r, hr⟩ := ih hg₁ howns₁ hapart₁ hpos₁ henough₁
      refine ⟨r, ?_⟩
      rw [Volume.writeAll, hwrite, Option.bind_eq_bind, Option.bind_some]
      exact hr

/-! ## The writes that pass a cluster over -/

/-- Cluster `K` of the file was passed over and still holds the byte `stale`
that it held when it was free. -/
structure Stale (v : Volume) (bound : ℕ) (fd : FileDescriptor) (chain : List ℕ) (K p : ℕ)
    (stale : UInt8) : Prop where
  linked : FileChain v bound chain
  head : chain.head? = some (v.firstCluster fd.fatEntry)
  apart : Apart v bound fd.fatEntry chain
  pos : WritePos v fd chain p
  behind : (K + 1) * v.bytesPerCluster ≤ p
  off : K * v.bytesPerCluster < fd.wrOff ∧ fd.wrOff ≤ p
  size : v.fileSize fd.fatEntry = fd.wrOff % 2 ^ 32
  byte : ∃ d, chain[K]? = some d ∧ v.mem (v.getClusterAddr d) = stale

theorem Stale.write {v v' : Volume} {bound K p : ℕ} {fd fd' : FileDescriptor} {chain : List ℕ}
    {stale : UInt8} {buf : List UInt8} (hg : Geometry v.bpb bound)
    (h : Stale v bound fd chain K p stale)
    (hwrite : v.write (bound - 2) fd buf = some (v', fd')) :
    ∃ chain' p', Stale v' bound fd' chain' K p' stale ∧ v'.bpb = v.bpb ∧
      fd'.fatEntry = fd.fatEntry ∧ fd'.wrOff = fd.wrOff + buf.length := by
  obtain ⟨t, p', heffect⟩ := write_effect hg (.inr ⟨h.linked, h.head⟩) h.apart h.pos hwrite
  obtain ⟨-, hapart, hpos⟩ := heffect.next h.apart
  have hbpb := heffect.grown.bpb
  have hB := Volume.bytesPerCluster_congr hbpb
  have hle := heffect.le
  have hoff := h.off
  have hbehind := h.behind
  obtain ⟨d, hd, hbyte⟩ := h.byte
  have hd' : (chain ++ (v.freeClusters bound).take t)[K]? = some d := by
    rw [List.getElem?_append_left (List.getElem?_eq_some_iff.mp hd).1, hd]
  refine ⟨chain ++ (v.freeClusters bound).take t, p', ?_, hbpb, heffect.entry, heffect.off⟩
  constructor
  · exact heffect.grown.linked
  · rw [heffect.entry]
    exact heffect.head
  · exact hapart
  · exact hpos
  · rw [hB]
    omega
  · rw [hB, heffect.off]
    exact ⟨by omega, by omega⟩
  · rw [heffect.entry, heffect.size, heffect.off]
  · refine ⟨d, hd', ?_⟩
    have hin := heffect.grown.linked.inRange d (List.mem_of_getElem? hd')
    have hpos0 : 0 < v.bytesPerCluster := hg.bytesPerCluster_pos
    have hx : v.InCluster d (v.getClusterAddr d + 0) :=
      ⟨Nat.le_add_right _ _, Nat.add_lt_add_left hpos0 _⟩
    have hbefore : K * v.bytesPerCluster + 0 < p := by
      rw [Nat.succ_mul] at hbehind
      omega
    have hsame : v'.mem (v.getClusterAddr d + 0) = v.mem (v.getClusterAddr d + 0) :=
      heffect.data _ (hx.table_le hg hin.1 hin.2)
        (not_atOrBehind_of_lt hg heffect.grown.linked.inRange heffect.grown.linked.nodup hd' hpos0
          hbefore)
        (h.apart.not_entryField (List.mem_of_getElem? hd') hpos0)
    rw [Nat.add_zero] at hsame
    rw [Volume.getClusterAddr_congr hbpb, ← hbyte, hsame]

theorem Stale.writeAll {v v' : Volume} {bound K p : ℕ} {fd fd' : FileDescriptor} {chain : List ℕ}
    {stale : UInt8} {bufs : List (List UInt8)} (hg : Geometry v.bpb bound)
    (h : Stale v bound fd chain K p stale)
    (hrun : Volume.writeAll (bound - 2) v fd bufs = some (v', fd')) :
    ∃ chain' p', Stale v' bound fd' chain' K p' stale ∧ v'.bpb = v.bpb ∧
      fd'.fatEntry = fd.fatEntry ∧ fd'.wrOff = fd.wrOff + bufs.flatten.length := by
  induction bufs generalizing v fd chain p with
  | nil =>
      simp only [Volume.writeAll, Option.some.injEq, Prod.mk.injEq] at hrun
      obtain ⟨rfl, rfl⟩ := hrun
      exact ⟨chain, p, h, rfl, rfl, by simp⟩
  | cons buf bufs ih =>
      rw [Volume.writeAll, Option.bind_eq_bind, Option.bind_eq_some_iff] at hrun
      obtain ⟨⟨v₁, fd₁⟩, hwrite, hrest⟩ := hrun
      obtain ⟨chain₁, p₁, hstale, hbpb, hentry, hoff⟩ := h.write hg hwrite
      have hg₁ : Geometry v₁.bpb bound := by rwa [hbpb]
      obtain ⟨chain', p', hstale', hbpb', hentry', hoff'⟩ := ih hg₁ hstale hrest
      refine ⟨chain', p', hstale', hbpb'.trans hbpb, hentry'.trans hentry, ?_⟩
      rw [hoff', hoff, List.flatten_cons, List.length_append]
      omega

/-- A write that has to extend the chain by two clusters or more passes the
first of them over. -/
theorem Writing.skip {v v' : Volume} {bound : ℕ} {fd fd' : FileDescriptor} {chain : List ℕ}
    {data buf : List UInt8} (hg : Geometry v.bpb bound) (h : Writing v bound fd chain data)
    (hskip : (chain.length + startTaken v chain.length buf.length + 1) * v.bytesPerCluster <
      data.length + buf.length)
    (hwrite : v.write (bound - 2) fd buf = some (v', fd')) :
    ∃ chain' p' d, (v.freeClusters bound)[startTaken v chain.length buf.length]? = some d ∧
      Stale v' bound fd' chain' (chain.length + startTaken v chain.length buf.length) p'
        (v.mem (v.getClusterAddr d)) ∧ v'.bpb = v.bpb ∧
      fd'.fatEntry = fd.fatEntry ∧ fd'.wrOff = fd.wrOff + buf.length := by
  obtain ⟨t, p', heffect⟩ := write_effect hg h.owns h.apart h.pos hwrite
  obtain ⟨-, hapart, hpos⟩ := heffect.next h.apart
  have hbpb := heffect.grown.bpb
  have hB := Volume.bytesPerCluster_congr hbpb
  have hpos0 : 0 < v.bytesPerCluster := hg.bytesPerCluster_pos
  have hle := heffect.le
  obtain ⟨hbehind, hkeep⟩ := heffect.skips hskip
  have hlt : startTaken v chain.length buf.length < t := by
    have hcap := heffect.cursor.le
    rw [length_grown heffect.grown] at hcap
    by_contra hnot
    have hmul : (chain.length + t) * v.bytesPerCluster ≤
        (chain.length + startTaken v chain.length buf.length) * v.bytesPerCluster :=
      Nat.mul_le_mul_right _ (by omega)
    rw [Nat.succ_mul] at hbehind
    omega
  have henough := heffect.grown.enough
  obtain ⟨d, hd⟩ : ∃ d, (v.freeClusters bound)[startTaken v chain.length buf.length]? = some d :=
    ⟨_, List.getElem?_eq_getElem (by omega)⟩
  have hd' : (chain ++ (v.freeClusters bound).take t)[chain.length +
      startTaken v chain.length buf.length]? = some d := by
    rw [List.getElem?_append_right (by omega), Nat.add_sub_cancel_left,
      List.getElem?_take_of_lt hlt, hd]
  refine ⟨chain ++ (v.freeClusters bound).take t, p', d, hd, ?_, hbpb, heffect.entry,
    heffect.off⟩
  constructor
  · exact heffect.grown.linked
  · rw [heffect.entry]
    exact heffect.head
  · exact hapart
  · exact hpos
  · rwa [hB]
  · rw [hB, heffect.off, h.off]
    rw [Nat.succ_mul] at hskip
    exact ⟨by omega, hle⟩
  · rw [heffect.entry, heffect.size, heffect.off]
  · refine ⟨d, hd', ?_⟩
    have hsame := hkeep d 0 hd' hpos0
    rw [Nat.add_zero] at hsame
    rw [Volume.getClusterAddr_congr hbpb, hsame]

/-- The bytes of the free clusters survive a write. -/
theorem WriteEffect.free_byte {v v' : Volume} {bound t p p' : ℕ} {fd fd' : FileDescriptor}
    {chain : List ℕ} {buf : List UInt8} (h : WriteEffect v v' bound fd fd' chain buf t p p')
    (hg : Geometry v.bpb bound) (hapart : Apart v bound fd.fatEntry chain) {d : ℕ}
    (hd : d ∈ v'.freeClusters bound) : v'.mem (v.getClusterAddr d) = v.mem (v.getClusterAddr d) := by
  have hpos0 : 0 < v.bytesPerCluster := hg.bytesPerCluster_pos
  have hin := Volume.mem_freeClusters.mp hd
  have hx : v.InCluster d (v.getClusterAddr d) := ⟨Nat.le_refl _, Nat.lt_add_of_pos_right hpos0⟩
  have hfree : d ∈ v.freeClusters bound := by
    rw [h.grown.free] at hd
    exact List.mem_of_mem_drop hd
  apply h.data _ (hx.table_le hg hin.1.1 hin.1.2)
  · intro hat
    obtain ⟨c, hc, hxc⟩ := hat.inCluster
    have hcr := h.grown.linked.inRange c hc
    obtain rfl := Volume.InCluster.unique hg hcr.1 hcr.2 hin.1.1 hin.1.2 hxc hx
    exact h.grown.linked.notMem_free hc hd
  · intro hfield
    have hrange : fd.fatEntry ≤ v.getClusterAddr d ∧ v.getClusterAddr d < fd.fatEntry + 32 := by
      rcases hfield with hfield | hfield
      · omega
      · omega
    exact (hapart _ hrange.1 hrange.2).2 d (List.mem_append_right _ hfree) hx

theorem le_firstSkip (v : Volume) (K p : ℕ) (lens : List ℕ) : K ≤ firstSkip v K p lens := by
  induction lens generalizing K p with
  | nil => exact Nat.le_refl K
  | cons len lens ih =>
      rw [firstSkip]
      split_ifs with hfits
      · exact ((Nat.le_add_right _ _).trans (Nat.le_add_right _ _)).trans (ih _ _)
      · exact Nat.le_add_right _ _

/-- When some write has to extend the chain by more than one cluster, the
first cluster passed over is still stale at the end.  Which cluster that is,
and which byte it holds, does not depend on the bytes written. -/
theorem Writing.stale {v v' : Volume} {bound : ℕ} {fd fd' : FileDescriptor} {chain : List ℕ}
    {data : List UInt8} {bufs : List (List UInt8)} (hg : Geometry v.bpb bound)
    (h : Writing v bound fd chain data)
    (hnot : ¬ extendsByOne v chain.length data.length (bufs.map List.length))
    (hrun : Volume.writeAll (bound - 2) v fd bufs = some (v', fd')) :
    ∃ chain' p' d,
      (v.freeClusters bound)[firstSkip v chain.length data.length (bufs.map List.length) -
        chain.length]? = some d ∧
      Stale v' bound fd' chain' (firstSkip v chain.length data.length (bufs.map List.length)) p'
        (v.mem (v.getClusterAddr d)) ∧ v'.bpb = v.bpb ∧
      fd'.fatEntry = fd.fatEntry ∧ fd'.wrOff = fd.wrOff + bufs.flatten.length := by
  induction bufs generalizing v fd chain data with
  | nil => exact absurd trivial hnot
  | cons buf bufs ih =>
      rw [Volume.writeAll, Option.bind_eq_bind, Option.bind_eq_some_iff] at hrun
      obtain ⟨⟨v₁, fd₁⟩, hwrite, hrest⟩ := hrun
      simp only [List.map_cons, extendsByOne, firstSkip, List.flatten_cons,
        List.length_append] at hnot ⊢
      split_ifs with hfits
      · obtain ⟨t, p', heffect, hwriting, hlen⟩ := h.write hg hfits hwrite
        have hbpb := heffect.grown.bpb
        have hg₁ : Geometry v₁.bpb bound := by rwa [hbpb]
        have hlater : ¬ extendsByOne v₁ (chain ++ (v.freeClusters bound).take t).length
            (data ++ buf).length (bufs.map List.length) := by
          rw [extendsByOne_congr hbpb, hlen, List.length_append]
          exact fun hlater ↦ hnot ⟨hfits, hlater⟩
        obtain ⟨chain', q, d, hd, hstale, hbpb', hentry, hoff⟩ := ih hg₁ hwriting hlater hrest
        have hgrown := length_grown heffect.grown
        have hle := le_firstSkip v₁ (chain ++ (v.freeClusters bound).take t).length
          (data ++ buf).length (bufs.map List.length)
        have hbyte := heffect.free_byte hg h.apart (List.mem_of_getElem? hd)
        rw [heffect.grown.free, List.getElem?_drop] at hd
        rw [Volume.getClusterAddr_congr hbpb, hbyte] at hstale
        rw [firstSkip_congr hbpb, hlen, List.length_append] at hstale hd hle
        refine ⟨chain', q, d, ?_, hstale, hbpb'.trans hbpb, hentry.trans heffect.entry, ?_⟩
        · rw [← hd]
          congr 1
          omega
        · rw [hoff, heffect.off]
          omega
      · obtain ⟨chain₁, p₁, d, hd, hstale, hbpb, hentry, hoff⟩ := h.skip hg (by omega) hwrite
        have hg₁ : Geometry v₁.bpb bound := by rwa [hbpb]
        obtain ⟨chain', q, hstale', hbpb', hentry', hoff'⟩ := hstale.writeAll hg₁ hrest
        refine ⟨chain', q, d, ?_, hstale', hbpb'.trans hbpb, hentry'.trans hentry, ?_⟩
        · rwa [Nat.add_sub_cancel_left]
        · rw [hoff', hoff]
          omega

/-- The bytes at the first `n` positions of a chain. -/
def chainBytes (v : Volume) (chain : List ℕ) (n : ℕ) : List UInt8 :=
  (List.range n).map fun i ↦
    v.mem (v.getClusterAddr (chain.getD (i / v.bytesPerCluster) 0) + i % v.bytesPerCluster)

theorem getElem?_chainBytes {v : Volume} (hpos : 0 < v.bytesPerCluster) {chain : List ℕ}
    {n j d o : ℕ} (hj : chain[j]? = some d) (ho : o < v.bytesPerCluster)
    (hlt : j * v.bytesPerCluster + o < n) :
    (chainBytes v chain n)[j * v.bytesPerCluster + o]? = some (v.mem (v.getClusterAddr d + o)) := by
  have hdiv : (j * v.bytesPerCluster + o) / v.bytesPerCluster = j := by
    rw [Nat.mul_comm, Nat.mul_add_div hpos, Nat.div_eq_of_lt ho, Nat.add_zero]
  have hmod : (j * v.bytesPerCluster + o) % v.bytesPerCluster = o := by
    rw [Nat.mul_comm, Nat.mul_add_mod, Nat.mod_eq_of_lt ho]
  rw [chainBytes, List.getElem?_map, List.getElem?_range hlt, Option.map_some, hdiv, hmod,
    List.getD_eq_getElem?_getD, hj, Option.getD_some]

theorem holds_chainBytes {v : Volume} (hpos : 0 < v.bytesPerCluster) {chain : List ℕ} {n : ℕ}
    (hn : n ≤ chain.length * v.bytesPerCluster) : Holds v chain (chainBytes v chain n) := by
  have hlen : (chainBytes v chain n).length = n := by simp [chainBytes]
  refine ⟨by rwa [hlen], ?_⟩
  intro j d o b hj ho hb
  have hlt : j * v.bytesPerCluster + o < n := by
    rw [← hlen]
    exact (List.getElem?_eq_some_iff.mp hb).1
  rw [getElem?_chainBytes hpos hj ho hlt] at hb
  exact Option.some.inj hb

/-- A file with a cluster that was passed over does not read as bytes that
differ from the stale one there. -/
theorem Stale.readAll_ne {v : Volume} {bound K p : ℕ} {fd : FileDescriptor} {chain : List ℕ}
    {stale b : UInt8} (hg : Geometry v.bpb bound) (h : Stale v bound fd chain K p stale)
    (hsmall : fd.wrOff < 2 ^ 32) (hb : b ≠ stale) :
    v.readAll (FileDescriptor.fresh fd.fatEntry) [fd.wrOff] ≠
      some (List.replicate fd.wrOff b) := by
  have hpos : 0 < v.bytesPerCluster := hg.bytesPerCluster_pos
  have hcap := h.pos.le
  have hoff := h.off
  have hlen : (chainBytes v chain fd.wrOff).length = fd.wrOff := by simp [chainBytes]
  have hread := @readAll_fresh v bound fd.fatEntry chain (chainBytes v chain fd.wrOff) hpos
    (.inr ⟨h.linked, h.head⟩) (holds_chainBytes hpos (by omega))
    (by rw [h.size, hlen, Nat.mod_eq_of_lt hsmall]) (by omega) [fd.wrOff] (by simp [hlen])
  rw [hread]
  intro heq
  obtain ⟨d, hd, hbyte⟩ := h.byte
  have hat := getElem?_chainBytes hpos hd hpos (by omega : K * v.bytesPerCluster + 0 < fd.wrOff)
  rw [Option.some.inj heq, List.getElem?_replicate, if_pos (by omega), Nat.add_zero, hbyte] at hat
  exact hb (Option.some.inj hat)

/-! ## When a sequence of writes comes back -/

theorem flatten_replicate (lens : List ℕ) (b : UInt8) :
    (lens.map fun n ↦ List.replicate n b).flatten = List.replicate lens.sum b := by
  induction lens with
  | nil => rfl
  | cons n lens ih => rw [List.map_cons, List.flatten_cons, ih, List.sum_cons, List.replicate_add]

theorem Writing.fresh {v : Volume} {bound entry : ℕ} {chain : List ℕ}
    (howns : Owns v bound entry chain) (hapart : Apart v bound entry chain) :
    Writing v bound (FileDescriptor.fresh entry) chain [] where
  owns := howns
  apart := hapart
  pos := .inl ⟨rfl, rfl, rfl⟩
  off := rfl
  holds := ⟨Nat.zero_le _, fun _ _ _ _ _ _ hb ↦ by simp at hb⟩

/-- If a write has to extend the chain by more than one cluster, strings of a
byte other than the stale one do not come back. -/
theorem not_roundTrips_of_skip {v : Volume} {bound entry fuel : ℕ} {chain lens : List ℕ} {b : UInt8}
    (hg : Geometry v.bpb bound) (howns : Owns v bound entry chain)
    (hapart : Apart v bound entry chain) (htotal : lens.sum < 2 ^ 32)
    (henough : clustersTaken v chain.length 0 lens ≤ (v.freeClusters bound).length)
    (hfuel : bound ≤ fuel + 2) (hnot : ¬ extendsByOne v chain.length 0 lens)
    (hb : b ≠ v.mem (v.getClusterAddr
      ((v.freeClusters bound).getD (firstSkip v chain.length 0 lens - chain.length) 0))) :
    ¬ RoundTrips v fuel entry (lens.map fun n ↦ List.replicate n b) := by
  have hlens : (lens.map fun n ↦ List.replicate n b).map List.length = lens := by
    simp [Function.comp_def]
  have hwriting := Writing.fresh howns hapart
  obtain ⟨⟨v', fd'⟩, hrun⟩ :=
    @writeAll_total v bound 0 _ chain (lens.map fun n ↦ List.replicate n b) hg howns hapart
      hwriting.pos (by rwa [hlens])
  obtain ⟨chain', p', d, hd, hstale, hbpb, hentry, hoff⟩ :=
    hwriting.stale hg (by rwa [hlens]) hrun
  rw [hlens, List.length_nil] at hd hstale
  rw [List.getD_eq_getElem?_getD, hd, Option.getD_some] at hb
  have htotal' : fd'.wrOff = lens.sum := by
    rw [hoff, flatten_replicate, List.length_replicate]
    exact Nat.zero_add _
  have hg' : Geometry v'.bpb bound := by rwa [hbpb]
  have hpositive := hstale.off
  have hread := hstale.readAll_ne hg' (by omega) hb
  rintro ⟨w, fdw, hrun', hsize, hreads⟩
  have hsame := Volume.writeAll_mono (by omega : bound - 2 ≤ fuel) hrun
  rw [hsame] at hrun'
  obtain ⟨rfl, rfl⟩ := Prod.mk.inj (Option.some.inj hrun')
  apply hread
  have hfresh : fd'.fatEntry = entry := hentry
  have hlength : (lens.map fun n ↦ List.replicate n b).flatten.length ≤ [fd'.wrOff].sum := by
    rw [flatten_replicate, List.length_replicate, htotal', List.sum_singleton]
  have hall := hreads [fd'.wrOff] (by simp; omega) hlength
  rw [hfresh, hall, flatten_replicate, htotal']

/-- A volume of fourteen clusters of one 512-byte sector, with the root
directory in cluster 2 and nothing in it. -/
def sampleVolume : Volume where
  bpb :=
    { bytesPerSector := 512
      sectorsPerCluster := 1
      reservedSectorCount := 32
      numFats := 2
      fatSize32 := 1
      rootCluster := 2 }
  mem := fun x ↦ if x = 16395 then 0x0f else if 16392 ≤ x ∧ x < 16395 then 0xff else 0

/-- The first slot of the root directory of the sample volume. -/
def sampleEntry : ℕ := 17408

theorem sampleVolume_geometry : Geometry sampleVolume.bpb 16 := by
  constructor <;> decide

theorem sampleEntry_owns : Owns sampleVolume 16 sampleEntry [] :=
  .inl ⟨rfl, by decide +kernel⟩

theorem sampleVolume_free : sampleVolume.freeClusters 16 = List.range' 3 13 := by
  decide +kernel

theorem sampleEntry_apart : Apart sampleVolume 16 sampleEntry [] := by
  have hoffset : sampleVolume.fatOffset + 4 * 16 ≤ sampleEntry := by decide
  have hdata : sampleVolume.dataOffset = sampleEntry := by decide
  intro x hx hlt
  refine ⟨hoffset.trans hx, fun c hc hin ↦ ?_⟩
  rw [List.nil_append, sampleVolume_free, List.mem_range'_1] at hc
  rw [Volume.InCluster, Volume.getClusterAddr_eq sampleVolume_geometry (by omega) (by omega),
    hdata] at hin
  have hbytes : sampleVolume.bytesPerCluster = 512 := by decide
  rw [hbytes] at hin
  omega

/-- For writes of given lengths into a given file, every choice of the bytes
comes back exactly when no write has to extend the chain by more than one
cluster, and, if nothing is written at all, the file was empty. -/
theorem roundTrips_iff {v : Volume} {bound entry fuel : ℕ} {chain lens : List ℕ}
    (hg : Geometry v.bpb bound) (howns : Owns v bound entry chain)
    (hapart : Apart v bound entry chain) (htotal : lens.sum < 2 ^ 32)
    (henough : clustersTaken v chain.length 0 lens ≤ (v.freeClusters bound).length)
    (hfuel : bound ≤ fuel + 2) :
    (∀ bufs : List (List UInt8), bufs.map List.length = lens → RoundTrips v fuel entry bufs) ↔
      (lens = [] → v.fileSize entry = 0) ∧ extendsByOne v chain.length 0 lens := by
  have hwriting := Writing.fresh howns hapart
  constructor
  · intro hall
    refine ⟨?_, ?_⟩
    · rintro rfl
      obtain ⟨v', fd', hrun, hsize, -⟩ := hall [] rfl
      simp only [Volume.writeAll, Option.some.injEq, Prod.mk.injEq] at hrun
      obtain ⟨rfl, rfl⟩ := hrun
      simpa using hsize
    · by_contra hnot
      let stale := v.mem (v.getClusterAddr
        ((v.freeClusters bound).getD (firstSkip v chain.length 0 lens - chain.length) 0))
      have hne : stale + 1 ≠ stale := by simp
      refine not_roundTrips_of_skip hg howns hapart htotal henough hfuel hnot hne (hall _ ?_)
      simp [Function.comp_def]
  · rintro ⟨hempty, hone⟩ bufs hlens
    have hsum : bufs.flatten.length = lens.sum := by rw [List.length_flatten, hlens]
    obtain ⟨⟨v', fd'⟩, hrun⟩ :=
      @writeAll_total v bound 0 _ chain bufs hg howns hapart hwriting.pos (by rwa [hlens])
    obtain ⟨chain', hwriting', hbpb, hentry, hsize⟩ :=
      hwriting.writeAll hg
        (fun hnil ↦ hempty (by rw [← hlens, hnil]; rfl)) (by rw [hsum]; simpa using htotal)
        (by rwa [hlens]) hrun
    have hfresh : fd'.fatEntry = entry := hentry
    have hg' : Geometry v'.bpb bound := by rwa [hbpb]
    rw [List.nil_append] at hwriting' hsize
    refine ⟨v', fd', Volume.writeAll_mono (by omega) hrun, hsize, ?_⟩
    intro reads _ hreads
    have howns' := hwriting'.owns
    rw [hfresh] at howns'
    exact readAll_fresh hg'.bytesPerCluster_pos howns' hwriting'.holds hsize (by rw [hsum]; exact htotal) hreads

theorem roundTrips_two_writes :
    RoundTrips sampleVolume 14 sampleEntry [[7], List.replicate 600 9] :=
  (@roundTrips_iff _ _ _ 14 _ [1, 600] sampleVolume_geometry sampleEntry_owns sampleEntry_apart
    (by decide) (by rw [sampleVolume_free]; decide) (by decide)).mpr
    ⟨by simp, by decide⟩ _
    (by simp only [List.map_cons, List.map_nil, List.length_cons, List.length_nil,
      List.length_replicate])

/-- One byte and then 1535 more, into an empty file: the second write extends
the chain by two clusters and goes on in the second of them. -/
theorem not_roundTrips_second_write :
    Geometry sampleVolume.bpb 16 ∧ Owns sampleVolume 16 sampleEntry [] ∧
      Apart sampleVolume 16 sampleEntry [] ∧
      clustersTaken sampleVolume 0 0 [1, 1535] ≤ (sampleVolume.freeClusters 16).length ∧
      ¬ RoundTrips sampleVolume 14 sampleEntry [[1], List.replicate 1535 1] := by
  have henough : clustersTaken sampleVolume 0 0 [1, 1535] ≤
      (sampleVolume.freeClusters 16).length := by
    rw [sampleVolume_free]
    decide
  refine ⟨sampleVolume_geometry, sampleEntry_owns, sampleEntry_apart, henough, ?_⟩
  exact @not_roundTrips_of_skip sampleVolume 16 sampleEntry 14 [] [1, 1535] 1
    sampleVolume_geometry sampleEntry_owns sampleEntry_apart (by decide) henough (by decide)
    (by decide) (by rw [sampleVolume_free]; decide +kernel)

end Fat
end MinOS
