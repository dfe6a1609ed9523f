import MinOS.Fat.Disk

/-!
# Copying a file

`cp` reads one file and writes another, while the other tasks go on with their calls.  It reads
and writes through the buffers of the C library, in pieces of any lengths.
-/

namespace MinOS
namespace Fat

/-! ## Descriptors of files that are kept -/

section Kept

variable {v v' : Volume} {bound : ℕ} {fd : FileDescriptor} {chain : List ℕ} {data : List UInt8}

theorem reading_congr (h : v'.bpb = v.bpb) {p : ℕ} :
    Reading v' chain fd p ↔ Reading v chain fd p := by
  simp only [Reading, ReadPos, Volume.bytesPerCluster_congr h]

theorem writePos_congr (h : v'.bpb = v.bpb) {p : ℕ} :
    WritePos v' fd chain p ↔ WritePos v fd chain p := by
  rw [WritePos, WritePos, cursor_congr h]

theorem Writing.kept (h : Writing v bound fd chain data) (hv' : Intact v' bound)
    (hkept : Kept v v' bound fd.fatEntry) : Writing v' bound fd chain data := by
  obtain ⟨d, hd, hx⟩ := hkept.on
  have howns := hkept.chain h.owns
  refine ⟨howns, hv'.apart hd hx howns, (writePos_congr hkept.bpb).mpr h.pos, h.off, ?_, ?_⟩
  · rw [Volume.bytesPerCluster_congr hkept.bpb]
    exact h.holds.length_le
  · intro j c o b hj ho hb
    rw [Volume.bytesPerCluster_congr hkept.bpb] at ho hb
    rw [Volume.getClusterAddr_congr hkept.bpb,
      hkept.bytes h.owns (List.mem_of_getElem? hj) ⟨Nat.le_add_right _ _, Nat.add_lt_add_left ho _⟩]
    exact h.holds.bytes j c o b hj ho hb

/-- What a chain holds is the content of a file of this size. -/
theorem Holds.content_eq (h : Holds v chain data) (hpos : 0 < v.bytesPerCluster) {x : ℕ}
    (hsize : v.fileSize x = data.length) : content v x chain = data := by
  refine List.ext_getElem (by rw [length_content, hsize]) fun i hi hi' ↦ ?_
  have hdiv : i / v.bytesPerCluster < chain.length :=
    Nat.div_lt_of_lt_mul (hi'.trans_le (Nat.mul_comm _ _ ▸ h.length_le))
  have hget := List.getElem?_eq_getElem hdiv
  have hmod := Nat.mod_lt i hpos
  have hi₁ : i / v.bytesPerCluster * v.bytesPerCluster + i % v.bytesPerCluster = i := by
    rw [Nat.mul_comm, Nat.div_add_mod]
  have hbyte := h.bytes _ _ _ data[i] hget hmod (by rw [hi₁, List.getElem?_eq_getElem hi'])
  rw [← hbyte]
  simp only [content, chainBytes, List.getElem_map, List.getElem_range]
  rw [List.getD_eq_getElem _ _ hdiv]

end Kept

/-! ## The program -/

/-- `cp` between its calls: the bytes in its buffers, which it has read and not yet written, and
whether a read has returned nothing. -/
structure Copier where
  disk : Disk
  pending : List UInt8
  ended : Bool

inductive CopyOp where
  | fread (len : ℕ)
  | fwrite (len : ℕ)
  | other (op : DiskOp)

/-- The descriptor of a call. -/
def DiskOp.target : DiskOp → ℕ
  | .openFile i _ _ => i
  | .redirect i _ => i
  | .read i _ => i
  | .write i _ => i
  | .close i => i

namespace Copier

variable {bound source dest x y : ℕ}

def start (s : Disk) : Copier where
  disk := s
  pending := []
  ended := false

/-- A call of `cp` on its descriptors, or one of another task. -/
def step (bound source dest : ℕ) (s : Copier) : CopyOp → Option Copier
  | .fread len =>
      (s.disk.files source).bind fun fd ↦
        (s.disk.volume.read fd len).map fun r ↦
          { disk := s.disk.setFile s.disk.volume source r.2
            pending := s.pending ++ r.1
            ended := r.1.isEmpty }
  | .fwrite len =>
      (s.disk.files dest).bind fun fd ↦
        (s.disk.volume.write (bound - 2) fd (s.pending.take len)).map fun r ↦
          { disk := s.disk.setFile r.1 dest r.2
            pending := s.pending.drop len
            ended := s.ended }
  | .other op => (s.disk.step bound op).map fun disk ↦ { s with disk := disk }

theorem step_fread {s : Copier} {fd : FileDescriptor} {len : ℕ} {r : List UInt8 × FileDescriptor}
    (hfd : s.disk.files source = some fd) (hread : s.disk.volume.read fd len = some r) :
    s.step bound source dest (.fread len) = some
      { disk := s.disk.setFile s.disk.volume source r.2
        pending := s.pending ++ r.1
        ended := r.1.isEmpty } := by
  rw [step, hfd, Option.bind_some, hread, Option.map_some]

theorem step_fwrite {s : Copier} {fd : FileDescriptor} {len : ℕ} {r : Volume × FileDescriptor}
    (hfd : s.disk.files dest = some fd)
    (hwrite : s.disk.volume.write (bound - 2) fd (s.pending.take len) = some r) :
    s.step bound source dest (.fwrite len) = some
      { disk := s.disk.setFile r.1 dest r.2
        pending := s.pending.drop len
        ended := s.ended } := by
  rw [step, hfd, Option.bind_some, hwrite, Option.map_some]

/-- `cp` reads until nothing is returned and writes at most a cluster at once.  The other tasks
write neither file, and have descriptors of their own. -/
def Beside (source dest x y : ℕ) (s : Copier) : CopyOp → Prop
  | .fread len => 0 < len ∧ s.ended = false
  | .fwrite len => len ≤ s.disk.volume.bytesPerCluster
  | .other op => s.disk.FilesOnly op ∧ (s.disk.written op ≠ some x ∧ s.disk.written op ≠ some y) ∧
      op.target ≠ source ∧ op.target ≠ dest

/-- What `cp` has written is a part of the source, and what it has read and not written follows
it. -/
structure Copying (bound source dest x y : ℕ) (v : Volume) (chain : List ℕ) (s : Copier)
    (written : List UInt8) : Prop where
  sound : s.disk.Sound bound
  kept : Kept v s.disk.volume bound x
  reader : ∃ fd, s.disk.files source = some fd ∧ fd.fatEntry = x ∧
    Reading s.disk.volume chain fd (written ++ s.pending).length
  writer : ∃ fd chain', s.disk.files dest = some fd ∧ fd.fatEntry = y ∧
    (Holder.file y).On s.disk.volume bound ∧ Writing s.disk.volume bound fd chain' written ∧
    (written ≠ [] → s.disk.volume.fileSize y = written.length)
  before : written ++ s.pending <+: content v x chain
  ended : s.ended = true → written ++ s.pending = content v x chain

theorem step_files {disk disk' : Disk} {op : DiskOp} (hstep : disk.step bound op = some disk')
    {i : ℕ} (hi : op.target ≠ i) : disk'.files i = disk.files i := by
  have hset : ∀ (v : Volume) (j : ℕ) (fd : FileDescriptor), j ≠ i →
      (disk.setFile v j fd).files i = disk.files i :=
    fun v j fd hj ↦ Function.update_of_ne hj.symm _ _
  have hopened : ∀ (v : Volume) (j : ℕ) (entry : Option ℕ), j ≠ i →
      (disk.opened v j entry).files i = disk.files i := by
    intro v j entry hj
    cases entry with
    | none => rfl
    | some e => exact hset v j _ hj
  cases op with
  | openFile j path creat =>
      obtain ⟨r, -, rfl⟩ := Option.map_eq_some_iff.mp hstep
      exact hopened _ j _ hi
  | redirect j path =>
      obtain ⟨r, -, rfl⟩ := Option.map_eq_some_iff.mp hstep
      exact hopened _ j _ hi
  | read j len =>
      rw [Disk.step] at hstep
      cases hj : disk.files j with
      | none =>
          rw [hj] at hstep
          exact Option.some.inj hstep ▸ rfl
      | some fd =>
          rw [hj] at hstep
          obtain ⟨r, -, rfl⟩ := Option.map_eq_some_iff.mp hstep
          exact hset _ j _ hi
  | write j buf =>
      rw [Disk.step] at hstep
      cases hj : disk.files j with
      | none =>
          rw [hj] at hstep
          exact Option.some.inj hstep ▸ rfl
      | some fd =>
          rw [hj] at hstep
          obtain ⟨r, -, rfl⟩ := Option.map_eq_some_iff.mp hstep
          exact hset _ j _ hi
  | close j =>
      obtain rfl := Option.some.inj hstep
      exact Function.update_of_ne (Ne.symm hi) _ _

section Step

variable {v : Volume} {chain : List ℕ} {s s' : Copier} {written : List UInt8}

/-- A call of another task. -/
theorem Copying.other (h : Copying bound source dest x y v chain s written) {op : DiskOp}
    {disk : Disk} (hbeside : Beside source dest x y s (.other op))
    (hstep : s.disk.step bound op = some disk) :
    Copying bound source dest x y v chain { s with disk := disk } written := by
  obtain ⟨hfiles, ⟨hx, hy⟩, hsource, hdest⟩ := hbeside
  obtain ⟨fd, hfd, hfdx, hreading⟩ := h.reader
  obtain ⟨fd', chain', hfd', hfdy, hon, hwriting, hsize⟩ := h.writer
  obtain ⟨hsound, hchange⟩ := h.sound.step hfiles hstep
  have hkept := hchange.kept h.sound.intact h.kept.on hx
  have hkept' := hchange.kept h.sound.intact hon hy
  refine ⟨hsound, h.kept.trans hkept, ⟨fd, ?_, hfdx, ?_⟩, ⟨fd', chain', ?_, hfdy, hkept'.on, ?_, ?_⟩,
    h.before, h.ended⟩
  · exact (step_files hstep hsource).trans hfd
  · exact (reading_congr hkept.bpb).mpr hreading
  · exact (step_files hstep hdest).trans hfd'
  · exact hwriting.kept hsound.intact (hfdy ▸ hkept')
  · intro hne
    exact hkept'.size.trans (hsize hne)

variable (hv : Intact v bound) (hx : (Holder.file x).On v bound) (hchain : Owns v bound x chain)
  (hne : source ≠ dest) (hxy : x ≠ y)

include hv hx hchain

/-- The source still has its bytes. -/
theorem Copying.source_holds (h : Copying bound source dest x y v chain s written) :
    Owns s.disk.volume bound x chain ∧ Holds s.disk.volume chain (content v x chain) ∧
      s.disk.volume.fileSize x = (content v x chain).length := by
  have hcap := hv.capacity hx hchain
  have hcontent := h.kept.content hv.geometry hchain hcap
  refine ⟨h.kept.chain hchain, ?_, ?_⟩
  · rw [← hcontent]
    refine holds_chainBytes h.sound.intact.geometry.bytesPerCluster_pos ?_
    rw [h.kept.size, Volume.bytesPerCluster_congr h.kept.bpb]
    exact hcap
  · rw [length_content, h.kept.size]

include hne

/-- `cp` reads. -/
theorem Copying.fread (h : Copying bound source dest x y v chain s written) {len : ℕ}
    (hbeside : Beside source dest x y s (.fread len))
    (hstep : s.step bound source dest (.fread len) = some s') :
    Copying bound source dest x y v chain s' written := by
  obtain ⟨hlen, -⟩ := hbeside
  obtain ⟨fd, hfd, hfdx, hreading⟩ := h.reader
  obtain ⟨fd', chain', hfd', hwriter⟩ := h.writer
  obtain ⟨howns, hholds, hsize⟩ := h.source_holds hv hx hchain
  have hsmall : (content v x chain).length < 2 ^ 32 := hsize ▸ Volume.fileSize_lt _ _
  obtain ⟨fd₁, hread, hentry, hreading'⟩ := read_spec h.sound.intact.geometry.bytesPerCluster_pos
    (hfdx ▸ howns) hholds (hfdx ▸ hsize) hsmall hreading h.before.length_le len
  rw [step_fread hfd hread] at hstep
  obtain rfl := Option.some.inj hstep
  have htake : (content v x chain).take (written ++ s.pending).length = written ++ s.pending :=
    (List.prefix_iff_eq_take.mp h.before).symm
  have hread_eq : written ++ (s.pending ++
      ((content v x chain).drop (written ++ s.pending).length).take len) =
        (content v x chain).take ((written ++ s.pending).length + len) := by
    rw [← List.append_assoc, List.take_add, htake]
  refine ⟨h.sound.setFile .same ((h.sound.stands hfd).read hread), h.kept, ⟨fd₁, ?_, ?_, ?_⟩,
    ⟨fd', chain', ?_, hwriter⟩, ?_, ?_⟩
  · exact Function.update_self source _ _
  · exact hentry.trans hfdx
  · have hle := h.before.length_le
    have hlength := congrArg List.length hread_eq
    rw [List.length_take, ← Nat.add_sub_cancel' hle, Nat.add_min_add_left] at hlength
    rw [← hlength] at hreading'
    exact hreading'
  · exact (Function.update_of_ne hne.symm _ _).trans hfd'
  · dsimp only
    rw [hread_eq]
    exact List.take_prefix _ _
  · intro hended
    dsimp only at hended ⊢
    rw [hread_eq, List.take_of_length_le]
    have hnil := congrArg List.length (List.isEmpty_iff.mp hended)
    rw [List.length_take, List.length_drop, List.length_nil] at hnil
    omega

include hxy

/-- `cp` writes. -/
theorem Copying.fwrite (h : Copying bound source dest x y v chain s written) {len : ℕ}
    (hbeside : Beside source dest x y s (.fwrite len))
    (hstep : s.step bound source dest (.fwrite len) = some s') :
    Copying bound source dest x y v chain s' (written ++ s.pending.take len) := by
  obtain ⟨fd, hfd, hfdx, hreading⟩ := h.reader
  obtain ⟨fd', chain', hfd', rfl, hon, hwriting, -⟩ := h.writer
  obtain ⟨-, -, hsize⟩ := h.source_holds hv hx hchain
  have hsmall : (content v x chain).length < 2 ^ 32 := hsize ▸ Volume.fileSize_lt _ _
  rw [step, hfd', Option.bind_some] at hstep
  obtain ⟨⟨v', fd₁⟩, hwrite, rfl⟩ := Option.map_eq_some_iff.mp hstep
  have hbuf : (s.pending.take len).length ≤ s.disk.volume.bytesPerCluster :=
    (List.length_take_le _ _).trans hbeside
  have hfits : written.length + (s.pending.take len).length ≤
      (chain'.length + startTaken s.disk.volume chain'.length (s.pending.take len).length + 1) *
        s.disk.volume.bytesPerCluster := by
    rw [Nat.succ_mul]
    exact Nat.add_le_add (hwriting.holds.length_le.trans
      (Nat.mul_le_mul_right _ (Nat.le_add_right _ _))) hbuf
  obtain ⟨t, p', heffect, hwriting', -⟩ :=
    hwriting.write h.sound.intact.geometry hfits hwrite
  obtain ⟨hchange, hstands⟩ :=
    change_of_write h.sound.intact (h.sound.stands hfd') hon hwrite
  have hkept := hchange.kept h.sound.intact h.kept.on fun heq ↦ hxy (Option.some.inj heq).symm
  have hall : written ++ s.pending.take len ++ s.pending.drop len = written ++ s.pending := by
    rw [List.append_assoc, List.take_append_drop]
  refine ⟨h.sound.setFile hchange hstands, h.kept.trans hkept, ⟨fd, ?_, hfdx, ?_⟩,
    ⟨fd₁, _, ?_, heffect.entry, (hchange.extends_ h.sound.intact).on hon, hwriting', fun _ ↦ ?_⟩,
    ?_, ?_⟩
  · exact (Function.update_of_ne hne _ _).trans hfd
  · rw [hall]
    exact (reading_congr hkept.bpb).mpr hreading
  · exact Function.update_self dest _ _
  · dsimp only [Disk.setFile]
    rw [heffect.size, hwriting.off, ← List.length_append]
    refine Nat.mod_eq_of_lt (lt_of_le_of_lt ?_ hsmall)
    exact (List.IsPrefix.length_le ⟨_, hall⟩).trans h.before.length_le
  · dsimp only
    rw [hall]
    exact h.before
  · intro hended
    dsimp only
    rw [hall]
    exact h.ended hended

end Step

/-- The calls, as steps of the system. -/
def Step (bound source dest : ℕ) (s : Copier) (op : CopyOp) (s' : Copier) : Prop :=
  s.step bound source dest op = some s'

/-- `cp` when it has read `A.TXT`, while another task has opened it too. -/
def textCopier : Copier where
  disk := ((Disk.noteDisk.setFile noteVolume 0 readerAtEnd).setFile noteVolume 2
    (.fresh sampleEntry)).setFile noteVolume 0 readerAtEnd
  pending := [97, 98, 99]
  ended := true

theorem textCopier_run : Transition.Run
    (Transition.Guarded (Beside 0 1 sampleEntry noteEntry) (Step 16 0 1)) (start Disk.noteDisk)
    [.fread 3, .other (.openFile 2 shortName false), .fread 1] textCopier := by
  obtain ⟨-, -, -, hread, hread', hfind⟩ := noteVolume_values
  have hopen : noteVolume.openFile 16 false shortName.bytes =
      some (.ok (some sampleEntry), noteVolume) := by
    rw [Volume.openFile, if_neg (by decide), hfind]
    dsimp only [Option.bind_some]
    rw [if_neg (by simp)]
  have hreader : (start Disk.noteDisk).disk.files 0 = some (.fresh sampleEntry) := rfl
  have hfirst : (start Disk.noteDisk).step 16 0 1 (.fread 3) =
      some ⟨Disk.noteDisk.setFile noteVolume 0 readerAtEnd, [97, 98, 99], false⟩ :=
    step_fread hreader hread
  have hother : (Disk.noteDisk.setFile noteVolume 0 readerAtEnd).step 16
      (.openFile 2 shortName false) =
        some ((Disk.noteDisk.setFile noteVolume 0 readerAtEnd).setFile noteVolume 2
          (.fresh sampleEntry)) := by
    rw [Disk.step]
    change (noteVolume.openFile 16 false shortName.bytes).map _ = _
    rw [hopen]
    rfl
  have hsecond : Copier.step 16 0 1 ⟨Disk.noteDisk.setFile noteVolume 0 readerAtEnd, [97, 98, 99],
      false⟩ (.other (.openFile 2 shortName false)) =
        some ⟨(Disk.noteDisk.setFile noteVolume 0 readerAtEnd).setFile noteVolume 2
          (.fresh sampleEntry), [97, 98, 99], false⟩ := by
    rw [step, hother, Option.map_some]
  have hthird : Copier.step 16 0 1 ⟨(Disk.noteDisk.setFile noteVolume 0 readerAtEnd).setFile
      noteVolume 2 (.fresh sampleEntry), [97, 98, 99], false⟩ (.fread 1) = some textCopier := by
    exact step_fread (s := ⟨(Disk.noteDisk.setFile noteVolume 0 readerAtEnd).setFile noteVolume 2
      (.fresh sampleEntry), [97, 98, 99], false⟩) rfl hread'
  have hwritten : ∀ e, (Disk.noteDisk.setFile noteVolume 0 readerAtEnd).written
      (.openFile 2 shortName false) ≠ some e := fun e ↦ (Option.some_ne_none e).symm
  have hlive : Live shortName.bytes := by decide
  refine .snoc (.snoc (.single ⟨⟨by decide, rfl⟩, hfirst⟩)
    ⟨⟨hlive, ⟨hwritten _, hwritten _⟩, by decide⟩, hsecond⟩) ⟨⟨by decide, rfl⟩, hthird⟩

end Copier
end Fat
end MinOS
