import MinOS.Fat.RoundTrip
import MinOS.Library.Transition

/-!
# Reading a file while it is written

One descriptor writes a file and any number of others read it.  Each reader
keeps its own cluster number and offset while the chain grows and the size in
the directory entry changes.  A read goes wrong in two states: behind the end of
a file that was shortened, and at the end mark of a chain that has grown since.
-/

namespace MinOS
namespace Fat

namespace Volume

/-- The cluster a call of `Read` starts with. -/
def readStart (v : Volume) (fd : FileDescriptor) : ℕ :=
  if fd.rdCluster = 0 then v.firstCluster fd.fatEntry else fd.rdCluster

/-- The number of bytes a call of `Read` copies. -/
def readLen (v : Volume) (fd : FileDescriptor) (len : ℕ) : ℕ :=
  min len ((v.fileSize fd.fatEntry + 2 ^ 64 - fd.rdOff) % 2 ^ 64)

/-- The clusters that the loop of `Read` dereferences. -/
def readClusters (v : Volume) : ℕ → ℕ → ℕ → ℕ → List ℕ
  | _, _, _, 0 => []
  | 0, _, _, _ + 1 => []
  | turns + 1, cluster, off, len + 1 =>
      let n := min (len + 1) (v.bytesPerCluster - off)
      let next :=
        if off + n = v.bytesPerCluster then (v.nextCluster cluster, 0) else (cluster, off + n)
      cluster :: v.readClusters turns next.1 next.2 (len + 1 - n)

/-- The clusters that a call of `Read` dereferences. -/
def dereferenced (v : Volume) (fd : FileDescriptor) (len : ℕ) : List ℕ :=
  v.readClusters (v.readLen fd len) (v.readStart fd) fd.rdClusterOff (v.readLen fd len)

theorem read_eq (v : Volume) (fd : FileDescriptor) (len : ℕ) :
    v.read fd len =
      (v.readLoop (v.readLen fd len) (v.readStart fd) fd.rdClusterOff (v.readLen fd len)).map
        fun r ↦ (r.1, { fd with
          rdOff := fd.rdOff + v.readLen fd len, rdCluster := r.2.1, rdClusterOff := r.2.2 }) := by
  rw [read, Option.map_eq_bind]
  rfl

theorem readLoop_length {v : Volume} {turns c off len c' off' : ℕ} {bytes : List UInt8}
    (h : v.readLoop turns c off len = some (bytes, c', off')) : bytes.length = len := by
  induction turns generalizing c off len bytes with
  | zero =>
      cases len with
      | zero =>
          simp only [readLoop, Option.some.injEq, Prod.mk.injEq] at h
          rw [← h.1, List.length_nil]
      | succ len => simp [readLoop] at h
  | succ turns ih =>
      cases len with
      | zero =>
          simp only [readLoop, Option.some.injEq, Prod.mk.injEq] at h
          rw [← h.1, List.length_nil]
      | succ len =>
          rw [readLoop, Option.bind_eq_bind, Option.bind_eq_some_iff] at h
          obtain ⟨⟨rest, pos⟩, hrest, h⟩ := h
          simp only [Option.pure_def, Option.some.injEq, Prod.mk.injEq] at h
          obtain ⟨rfl, rfl⟩ := h
          have hlen := ih hrest
          rw [List.length_append, ByteMemory.length_readBytes, hlen]
          exact Nat.add_sub_cancel' (min_le_left _ _)

theorem fileSize_lt (v : Volume) (entry : ℕ) : v.fileSize entry < 2 ^ 32 := by
  have h := ByteMemory.readLE_lt v.mem (entry + 28) 4
  rwa [show 256 ^ 4 = 2 ^ 32 by norm_num] at h

end Volume

/-- The bytes of the file: those at the positions of its chain below its size. -/
def content (v : Volume) (entry : ℕ) (chain : List ℕ) : List UInt8 :=
  chainBytes v chain (v.fileSize entry)

theorem length_content (v : Volume) (entry : ℕ) (chain : List ℕ) :
    (content v entry chain).length = v.fileSize entry := by
  simp [content, chainBytes]

/-- `Read(len)` returns the bytes of the file at its read position, and
dereferences clusters of the file only. -/
def ReadsContent (v : Volume) (bound : ℕ) (fd : FileDescriptor) (len : ℕ) : Prop :=
  ∃ chain fd', Owns v bound fd.fatEntry chain ∧
    v.read fd len = some (((content v fd.fatEntry chain).drop fd.rdOff).take len, fd') ∧
    ∀ c ∈ v.dereferenced fd len, c ∈ chain

/-- The read position is inside the file and not at an end mark, or there is
nothing to read. -/
def ReadReady (v : Volume) (fd : FileDescriptor) (len : ℕ) : Prop :=
  len = 0 ∨ fd.rdOff = v.fileSize fd.fatEntry ∨
    fd.rdOff < v.fileSize fd.fatEntry ∧ fd.rdCluster ≠ kEndOfClusterchain

/-- Where a reader can stand: it has not read anything yet, or it is in a
cluster of the chain, or it ran into the end of the chain as it was then. -/
structure ReaderAt (v : Volume) (chain : List ℕ) (fd : FileDescriptor) : Prop where
  off_lt : fd.rdOff < 2 ^ 32
  pos : fd.rdCluster = 0 ∧ fd.rdClusterOff = 0 ∧ fd.rdOff = 0 ∨
    (∃ k, chain[k]? = some fd.rdCluster ∧ fd.rdClusterOff < v.bytesPerCluster ∧
      fd.rdOff = k * v.bytesPerCluster + fd.rdClusterOff) ∨
    fd.rdCluster = kEndOfClusterchain ∧ fd.rdClusterOff = 0

theorem readClusters_subset {v : Volume} {bound turns c off p len : ℕ} {chain : List ℕ}
    (hg : Geometry v.bpb bound) (hchain : FileChain v bound chain)
    (hpos : ReadPos v chain c off p) (hlen : p + len ≤ chain.length * v.bytesPerCluster) :
    ∀ d ∈ v.readClusters turns c off len, d ∈ chain := by
  induction turns generalizing c off p len with
  | zero => cases len <;> simp [Volume.readClusters]
  | succ turns ih =>
      cases len with
      | zero => simp [Volume.readClusters]
      | succ len =>
          rcases hpos with ⟨k, hk, hoff, rfl⟩ | ⟨-, -, rfl⟩
          · obtain ⟨hklt, rfl⟩ := List.getElem?_eq_some_iff.mp hk
            obtain ⟨n, hn⟩ : ∃ n, n = min (len + 1) (v.bytesPerCluster - off) := ⟨_, rfl⟩
            intro d hd
            rw [Volume.readClusters, ← hn, List.mem_cons] at hd
            rcases hd with rfl | hd
            · exact List.getElem_mem hklt
            · refine @ih _ _ (k * v.bytesPerCluster + off + n) _ ?_ (by omega) d hd
              split_ifs with hfull
              · have hp : k * v.bytesPerCluster + off + n = (k + 1) * v.bytesPerCluster := by
                  rw [Nat.succ_mul]
                  omega
                rcases Nat.lt_or_ge (k + 1) chain.length with hlt | hge
                · left
                  refine ⟨k + 1, ?_, hg.bytesPerCluster_pos, by omega⟩
                  simp [hchain.nextCluster_getElem hlt, List.getElem?_eq_getElem hlt]
                · right
                  have hlast : k + 1 = chain.length := by omega
                  exact ⟨hchain.nextCluster_last hlast, rfl, by rw [hp, hlast]⟩
              · exact .inl ⟨k, hk, by dsimp only; omega, by dsimp only; omega⟩
          · omega

section Reader

variable {v : Volume} {bound len : ℕ} {fd : FileDescriptor} {chain : List ℕ}

theorem readLen_of_le (h : fd.rdOff ≤ v.fileSize fd.fatEntry) :
    v.readLen fd len = min len (v.fileSize fd.fatEntry - fd.rdOff) := by
  have hlt := v.fileSize_lt fd.fatEntry
  rw [Volume.readLen]
  omega

/-- Behind the end of the file the number of bytes left wraps around. -/
theorem readLen_pos (hoff : fd.rdOff < 2 ^ 32) (hne : fd.rdOff ≠ v.fileSize fd.fatEntry)
    (hlen : len ≠ 0) : 0 < v.readLen fd len := by
  have hlt := v.fileSize_lt fd.fatEntry
  rw [Volume.readLen]
  omega

theorem read_of_readLen_eq_zero (h : v.readLen fd len = 0) :
    v.read fd len = some ([], { fd with rdCluster := v.readStart fd }) := by
  rw [Volume.read_eq, h]
  rfl

theorem ReaderAt.start (hat : ReaderAt v chain fd) (hg : Geometry v.bpb bound)
    (howns : Owns v bound fd.fatEntry chain) :
    ReaderAt v chain { fd with rdCluster := v.readStart fd } := by
  refine ⟨hat.off_lt, ?_⟩
  by_cases hzero : fd.rdCluster = 0
  · have hpos := hat.pos
    simp only [Volume.readStart, if_pos hzero]
    rcases howns with ⟨rfl, hfirst⟩ | ⟨hchain, hhead⟩
    · rcases hpos with ⟨-, hoff, hrd⟩ | ⟨k, hk, -⟩ | ⟨hend, -⟩
      · exact .inl ⟨hfirst, hoff, hrd⟩
      · simp at hk
      · rw [hend] at hzero
        cases hzero
    · rcases hpos with ⟨-, hoff, hrd⟩ | ⟨k, hk, -⟩ | ⟨hend, -⟩
      · refine .inr (.inl ⟨0, ?_, ?_, ?_⟩)
        · rw [← hhead, List.head?_eq_getElem?]
        · rw [hoff]
          exact hg.bytesPerCluster_pos
        · rw [hoff, hrd, Nat.zero_mul]
      · have hin := hchain.inRange _ (List.mem_of_getElem? hk)
        omega
      · rw [hend] at hzero
        cases hzero
  · simp only [Volume.readStart, if_neg hzero]
    exact hat.pos

theorem ReaderAt.of_reading {p : ℕ} (h : Reading v chain fd p) (hp : p < 2 ^ 32) :
    ReaderAt v chain fd := by
  obtain ⟨hoff, hpos⟩ := h
  refine ⟨by rwa [hoff], ?_⟩
  rcases hpos with ⟨hzero, hclusterOff, hp0⟩ | ⟨-, ⟨k, hk, hlt, hpk⟩ | ⟨hend, hclusterOff, -⟩⟩
  · exact .inl ⟨hzero, hclusterOff, hoff.trans hp0⟩
  · exact .inr (.inl ⟨k, hk, hlt, hoff.trans hpk⟩)
  · exact .inr (.inr ⟨hend, hclusterOff⟩)

theorem ReaderAt.reading (hat : ReaderAt v chain fd) (howns : Owns v bound fd.fatEntry chain)
    (hend : fd.rdCluster ≠ kEndOfClusterchain) : Reading v chain fd fd.rdOff := by
  refine ⟨rfl, ?_⟩
  rcases hat.pos with hfresh | ⟨k, hk, hlt, hrd⟩ | ⟨heq, -⟩
  · exact .inl hfresh
  · right
    refine ⟨?_, .inl ⟨k, hk, hlt, hrd⟩⟩
    rcases howns with ⟨rfl, -⟩ | ⟨hchain, -⟩
    · simp at hk
    · have hin := hchain.inRange _ (List.mem_of_getElem? hk)
      omega
  · exact absurd heq hend

theorem ReaderAt.read (hat : ReaderAt v chain fd) (hg : Geometry v.bpb bound)
    (howns : Owns v bound fd.fatEntry chain)
    (hcap : v.fileSize fd.fatEntry ≤ chain.length * v.bytesPerCluster)
    (hready : ReadReady v fd len) :
    ∃ fd', v.read fd len =
        some (((content v fd.fatEntry chain).drop fd.rdOff).take len, fd') ∧
      fd'.fatEntry = fd.fatEntry ∧ ReaderAt v chain fd' ∧
      ∀ c ∈ v.dereferenced fd len, c ∈ chain := by
  have hlength := length_content v fd.fatEntry chain
  by_cases hnone : len = 0 ∨ fd.rdOff = v.fileSize fd.fatEntry
  · have hzero : v.readLen fd len = 0 := by
      rcases hnone with rfl | heq
      · exact Nat.zero_min _
      · rw [readLen_of_le heq.le, heq, Nat.sub_self, Nat.min_zero]
    have hslice : ((content v fd.fatEntry chain).drop fd.rdOff).take len = [] := by
      rcases hnone with rfl | heq
      · exact List.take_zero
      · rw [List.drop_of_length_le (by rw [hlength, heq]), List.take_nil]
    refine ⟨{ fd with rdCluster := v.readStart fd },
      by rw [read_of_readLen_eq_zero hzero, hslice], rfl, hat.start hg howns, ?_⟩
    intro c hc
    rw [Volume.dereferenced, hzero] at hc
    simp [Volume.readClusters] at hc
  · obtain ⟨hlen, hne⟩ := not_or.mp hnone
    obtain ⟨hlt, hend⟩ := (hready.resolve_left hlen).resolve_left hne
    have hreading := hat.reading howns hend
    have hholds : Holds v chain (content v fd.fatEntry chain) :=
      holds_chainBytes hg.bytesPerCluster_pos hcap
    have hsmall := v.fileSize_lt fd.fatEntry
    obtain ⟨fd', hread, hentry, hpos⟩ := read_spec hg.bytesPerCluster_pos howns hholds hlength.symm
      (hlength.trans_lt hsmall) hreading (hlt.le.trans hlength.ge) len
    rw [hlength] at hpos
    refine ⟨fd', hread, hentry, .of_reading hpos (by omega), ?_⟩
    rcases howns with ⟨rfl, -⟩ | ⟨hchain, hhead⟩
    · simp only [List.length_nil, Nat.zero_mul] at hcap
      omega
    · have hstart : ReadPos v chain (v.readStart fd) fd.rdClusterOff fd.rdOff := by
        rcases hreading.2 with ⟨h0, hoff0, hp0⟩ | ⟨hne0, hreadPos⟩
        · rw [Volume.readStart, if_pos h0, hoff0, hp0]
          refine .inl ⟨0, ?_, hg.bytesPerCluster_pos, by simp⟩
          rw [← hhead, List.head?_eq_getElem?]
        · rwa [Volume.readStart, if_neg hne0]
      apply readClusters_subset hg hchain hstart
      rw [readLen_of_le hlt.le]
      omega

/-- A read that is not ready returns bytes behind the end of the file, or
dereferences the end mark. -/
theorem ReaderAt.not_readsContent (hat : ReaderAt v chain fd) (hg : Geometry v.bpb bound)
    (hready : ¬ ReadReady v fd len) : ¬ ReadsContent v bound fd len := by
  rintro ⟨chain', fd', howns, hread, hsubset⟩
  rw [ReadReady, not_or, not_or] at hready
  obtain ⟨hlen, hne, hinside⟩ := hready
  have hpos := readLen_pos hat.off_lt hne hlen
  rcases Nat.lt_or_ge fd.rdOff (v.fileSize fd.fatEntry) with hlt | hge
  · have hend : fd.rdCluster = kEndOfClusterchain := by
      by_contra hne'
      exact hinside ⟨hlt, hne'⟩
    have hmem : kEndOfClusterchain ∈ v.dereferenced fd len := by
      obtain ⟨n, hn⟩ := Nat.exists_eq_succ_of_ne_zero (Nat.pos_iff_ne_zero.mp hpos)
      have hstart : v.readStart fd = kEndOfClusterchain := by
        rw [Volume.readStart, hend]
        rfl
      rw [Volume.dereferenced, hn, Volume.readClusters, hstart]
      exact List.mem_cons_self
    rcases howns with ⟨rfl, -⟩ | ⟨hchain, -⟩
    · exact absurd (hsubset _ hmem) List.not_mem_nil
    · obtain ⟨i, hi, heq⟩ := List.getElem_of_mem (hsubset _ hmem)
      exact hchain.getElem_ne_end hg hi heq
  · rw [Volume.read_eq, Option.map_eq_some_iff] at hread
    obtain ⟨⟨bytes, pos⟩, hloop, heq⟩ := hread
    have hbytes := Volume.readLoop_length hloop
    have hfst : bytes = ((content v fd.fatEntry chain').drop fd.rdOff).take len :=
      (Prod.mk.inj heq).1
    have hslice : bytes = [] := by
      rw [hfst, List.drop_of_length_le (by rw [length_content]; exact hge),
        List.take_nil]
    rw [hslice, List.length_nil] at hbytes
    omega

end Reader

/-! ## Runs -/

structure SharedFile where
  volume : Volume
  writer : FileDescriptor
  readers : ℕ → FileDescriptor

inductive FileOp where
  | openReader (i : ℕ)
  | read (i len : ℕ)
  | write (buf : List UInt8)

/-- The calls on one file, through one writing descriptor and any number of
reading ones.  A write takes its clusters from the `bound - 2` data clusters of
the volume. -/
inductive FileStep (bound entry : ℕ) : SharedFile → FileOp → SharedFile → Prop where
  | openReader {s : SharedFile} (i : ℕ) :
      FileStep bound entry s (.openReader i)
        { s with readers := Function.update s.readers i (FileDescriptor.fresh entry) }
  | read {s : SharedFile} {i len : ℕ} {bytes : List UInt8} {fd' : FileDescriptor}
      (hread : s.volume.read (s.readers i) len = some (bytes, fd')) :
      FileStep bound entry s (.read i len)
        { s with readers := Function.update s.readers i fd' }
  | write {s : SharedFile} {buf : List UInt8} {v' : Volume} {fd' : FileDescriptor}
      (hwrite : s.volume.write (bound - 2) s.writer buf = some (v', fd')) :
      FileStep bound entry s (.write buf) { s with volume := v', writer := fd' }

/-- Before a read, the reader is ready for it. -/
def ReadersReady (s : SharedFile) : FileOp → Prop
  | .read i len => ReadReady s.volume (s.readers i) len
  | _ => True

/-- The file as it is opened: the writer and the readers are fresh. -/
def SharedFile.opened (v : Volume) (entry : ℕ) : SharedFile where
  volume := v
  writer := FileDescriptor.fresh entry
  readers := fun _ ↦ FileDescriptor.fresh entry

structure FileInvariant (bound entry : ℕ) (s : SharedFile) (chain : List ℕ) (p : ℕ) : Prop where
  geometry : Geometry s.volume.bpb bound
  owns : Owns s.volume bound entry chain
  apart : Apart s.volume bound entry chain
  capacity : s.volume.fileSize entry ≤ chain.length * s.volume.bytesPerCluster
  writer : s.writer.fatEntry = entry
  pos : WritePos s.volume s.writer chain p
  off_le : s.writer.wrOff ≤ p
  entry : ∀ i, (s.readers i).fatEntry = entry
  readers : ∀ i, ReaderAt s.volume chain (s.readers i)

theorem readerAt_fresh (v : Volume) (entry : ℕ) (chain : List ℕ) :
    ReaderAt v chain (FileDescriptor.fresh entry) :=
  ⟨Nat.two_pow_pos 32, .inl ⟨rfl, rfl, rfl⟩⟩

theorem FileInvariant.setReader {bound entry p i : ℕ} {s : SharedFile} {chain : List ℕ}
    (hs : FileInvariant bound entry s chain p) {fd : FileDescriptor} (hentry : fd.fatEntry = entry)
    (hat : ReaderAt s.volume chain fd) :
    FileInvariant bound entry { s with readers := Function.update s.readers i fd } chain p := by
  refine ⟨hs.geometry, hs.owns, hs.apart, hs.capacity, hs.writer, hs.pos, hs.off_le, ?_, ?_⟩
  · intro j
    by_cases hj : j = i
    · subst hj
      simpa using hentry
    · simpa [hj] using hs.entry j
  · intro j
    by_cases hj : j = i
    · subst hj
      simpa using hat
    · simpa [hj] using hs.readers j

theorem ReaderAt.grown {v v' : Volume} {chain more : List ℕ} {fd : FileDescriptor}
    (h : ReaderAt v chain fd) (hbpb : v'.bpb = v.bpb) : ReaderAt v' (chain ++ more) fd := by
  have hB := Volume.bytesPerCluster_congr hbpb
  refine ⟨h.off_lt, ?_⟩
  rcases h.pos with hfresh | ⟨k, hk, hlt, hrd⟩ | hend
  · exact .inl hfresh
  · refine .inr (.inl ⟨k, ?_, by rwa [hB], by rwa [hB]⟩)
    rw [List.getElem?_append_left (List.getElem?_eq_some_iff.mp hk).1, hk]
  · exact .inr (.inr hend)

theorem FileInvariant.write {bound entry p : ℕ} {s : SharedFile} {chain : List ℕ}
    {buf : List UInt8} {v' : Volume} {fd' : FileDescriptor}
    (hs : FileInvariant bound entry s chain p)
    (hwrite : s.volume.write (bound - 2) s.writer buf = some (v', fd')) :
    ∃ chain' p', FileInvariant bound entry { s with volume := v', writer := fd' } chain' p' := by
  obtain ⟨v, writer, readers⟩ := s
  obtain rfl : writer.fatEntry = entry := hs.writer
  obtain ⟨t, p', heffect⟩ := write_effect hs.geometry hs.owns hs.apart hs.pos hwrite
  obtain ⟨howns, hapart, hpos⟩ := heffect.next hs.apart
  have hbpb := heffect.grown.bpb
  have hg' : Geometry v'.bpb bound := by
    rw [hbpb]
    exact hs.geometry
  have hoff : fd'.wrOff ≤ p' := by
    rw [heffect.off]
    exact (Nat.add_le_add_right hs.off_le _).trans heffect.le
  refine ⟨chain ++ (v.freeClusters bound).take t, p', hg', ?_, ?_, ?_, heffect.entry, hpos, hoff,
    hs.entry, fun i ↦ (hs.readers i).grown hbpb⟩
  · rw [← heffect.entry]
    exact howns
  · rw [← heffect.entry]
    exact hapart
  · calc v'.fileSize writer.fatEntry = (writer.wrOff + buf.length) % 2 ^ 32 := heffect.size
      _ ≤ writer.wrOff + buf.length := Nat.mod_le _ _
      _ = fd'.wrOff := heffect.off.symm
      _ ≤ p' := hoff
      _ ≤ _ := hpos.le

/-- The file is a chain of the volume and the descriptors stand on it. -/
def Shared (bound entry : ℕ) (s : SharedFile) : Prop :=
  ∃ chain p, FileInvariant bound entry s chain p

theorem Shared.step {bound entry : ℕ} (s : SharedFile) (op : FileOp) (s' : SharedFile)
    (hs : Shared bound entry s)
    (hstep : Transition.Guarded ReadersReady (FileStep bound entry) s op s') :
    Shared bound entry s' := by
  obtain ⟨chain, p, hs⟩ := hs
  obtain ⟨hready, hstep⟩ := hstep
  cases hstep with
  | openReader i => exact ⟨chain, p, hs.setReader rfl (readerAt_fresh _ _ _)⟩
  | @read i len bytes fd' hread =>
      have hentry := hs.entry i
      obtain ⟨fd₁, hread₁, hentry₁, hat₁, -⟩ := (hs.readers i).read hs.geometry
        (by rw [hentry]; exact hs.owns) (by rw [hentry]; exact hs.capacity) hready
      rw [hread] at hread₁
      obtain ⟨-, rfl⟩ := Prod.mk.inj (Option.some.inj hread₁)
      exact ⟨chain, p, hs.setReader (hentry₁.trans hentry) hat₁⟩
  | write hwrite => exact hs.write hwrite

/-- In every run whose reads are ready, in every state reached and for every
reader and length: `Read` returns the current content at the read position and
dereferences clusters of the file only, exactly when the reader is ready. -/
theorem readsContent_iff_of_run {v : Volume} {bound entry : ℕ} {chain : List ℕ}
    (hg : Geometry v.bpb bound) (howns : Owns v bound entry chain)
    (hapart : Apart v bound entry chain)
    (hcap : v.fileSize entry ≤ chain.length * v.bytesPerCluster) {ops : List FileOp}
    {s : SharedFile}
    (hrun : Transition.Run (Transition.Guarded ReadersReady (FileStep bound entry))
      (.opened v entry) ops s) (i len : ℕ) :
    ReadsContent s.volume bound (s.readers i) len ↔ ReadReady s.volume (s.readers i) len := by
  have hinit : Shared bound entry (.opened v entry) :=
    ⟨chain, 0, hg, howns, hapart, hcap, rfl, .inl ⟨rfl, rfl, rfl⟩, le_rfl, fun _ ↦ rfl,
      fun _ ↦ readerAt_fresh _ _ _⟩
  obtain ⟨chain', p, hs⟩ := hrun.invariant Shared.step hinit
  constructor
  · intro hreads
    by_contra hready
    exact (hs.readers i).not_readsContent hs.geometry hready hreads
  · intro hready
    have hentry := hs.entry i
    have howns' : Owns s.volume bound (s.readers i).fatEntry chain' := by
      rw [hentry]
      exact hs.owns
    obtain ⟨fd', hread, -, -, hsubset⟩ := (hs.readers i).read hs.geometry howns'
      (by rw [hentry]; exact hs.capacity) hready
    exact ⟨chain', fd', howns', hread, hsubset⟩

/-! ## A file of three bytes -/

/-- The sample volume with the bytes `abc` as a file in cluster 3. -/
def abcVolume : Volume where
  bpb := sampleVolume.bpb
  mem := fun x ↦
    if x = 16395 ∨ x = 16399 then 0x0f else if 16392 ≤ x ∧ x < 16399 then 0xff
    else if x = 17434 ∨ x = 17436 then 3
    else if x = 17920 then 97 else if x = 17921 then 98 else if x = 17922 then 99 else 0

theorem abcVolume_geometry : Geometry abcVolume.bpb 16 := by
  constructor <;> decide

theorem abcVolume_owns : Owns abcVolume 16 sampleEntry [3] := by
  refine .inr ⟨⟨?_, ?_⟩, by decide +kernel⟩
  · show isEndOfClusterchain (abcVolume.fatEntry 3) = true
    decide +kernel
  · decide

theorem abcVolume_free : abcVolume.freeClusters 16 = List.range' 4 12 := by
  decide +kernel

theorem abcVolume_apart : Apart abcVolume 16 sampleEntry [3] := by
  have hoffset : abcVolume.fatOffset + 4 * 16 ≤ sampleEntry := by decide
  have hdata : abcVolume.dataOffset = sampleEntry := by decide
  intro x hx hlt
  refine ⟨hoffset.trans hx, fun c hc hin ↦ ?_⟩
  have hc' : 3 ≤ c ∧ c < 16 := by
    rw [abcVolume_free, List.mem_append, List.mem_singleton, List.mem_range'_1] at hc
    omega
  rw [Volume.InCluster, Volume.getClusterAddr_eq abcVolume_geometry (by omega) (by omega),
    hdata] at hin
  have hbytes : abcVolume.bytesPerCluster = 512 := by decide
  rw [hbytes] at hin
  omega

/-- The reader after its first two bytes. -/
def abcReader : FileDescriptor :=
  { fatEntry := sampleEntry, rdOff := 2, rdCluster := 3, rdClusterOff := 2 }

theorem abcVolume_read :
    abcVolume.read (FileDescriptor.fresh sampleEntry) 2 = some ([97, 98], abcReader) := by
  decide +kernel

/-- A few bytes written over the file set its size to their number. -/
theorem abcVolume_write {buf : List UInt8} (hlen : buf.length ≤ 512) :
    ∃ v' fd', abcVolume.write (16 - 2) (FileDescriptor.fresh sampleEntry) buf = some (v', fd') ∧
      v'.bpb = abcVolume.bpb ∧ v'.fileSize sampleEntry = buf.length := by
  have hpos : WritePos abcVolume (FileDescriptor.fresh sampleEntry) [3] 0 := .inl ⟨rfl, rfl, rfl⟩
  have hbytes : abcVolume.bytesPerCluster = 512 := by decide
  have htaken : startTaken abcVolume 1 buf.length = 0 := rfl
  have hbeyond : beyond abcVolume 1 0 buf.length = 0 := by
    have hsub : buf.length - (1 * 512 - 0) = 0 := Nat.sub_eq_zero_of_le hlen
    rw [beyond, Volume.numCluster, hbytes, hsub]
  have henough : startTaken abcVolume [3].length buf.length +
      triangle (beyond abcVolume ([3].length + startTaken abcVolume [3].length buf.length) 0
        buf.length) ≤ (abcVolume.freeClusters 16).length := by
    rw [List.length_singleton, htaken, Nat.add_zero, hbeyond]
    exact Nat.zero_le _
  obtain ⟨⟨v', fd'⟩, hwrite⟩ := @write_total abcVolume 16 0 (FileDescriptor.fresh sampleEntry) [3]
    buf abcVolume_geometry abcVolume_owns abcVolume_apart hpos henough
  obtain ⟨t, p', heffect⟩ := @write_effect abcVolume v' 16 0 (FileDescriptor.fresh sampleEntry) fd'
    [3] buf abcVolume_geometry abcVolume_owns abcVolume_apart hpos hwrite
  refine ⟨v', fd', hwrite, heffect.grown.bpb, ?_⟩
  have hsize : v'.fileSize sampleEntry = (0 + buf.length) % 2 ^ 32 := heffect.size
  omega

/-- After two bytes were read and four were written, the same reader reads the
last two of them. -/
theorem readsContent_after_append :
    ∃ s, Transition.Run (Transition.Guarded ReadersReady (FileStep 16 sampleEntry))
        (.opened abcVolume sampleEntry) [.read 0 2, .write [65, 66, 67, 68]] s ∧
      s.readers 0 = abcReader ∧ ReadsContent s.volume 16 (s.readers 0) 2 := by
  obtain ⟨v', fd', hwrite, -, hsize⟩ := @abcVolume_write [65, 66, 67, 68] (by decide)
  have hready : ReadReady abcVolume (FileDescriptor.fresh sampleEntry) 2 := by
    right
    right
    decide +kernel
  have hrun : Transition.Run (Transition.Guarded ReadersReady (FileStep 16 sampleEntry))
      (.opened abcVolume sampleEntry) [.read 0 2, .write [65, 66, 67, 68]]
      ⟨v', fd', Function.update (fun _ ↦ FileDescriptor.fresh sampleEntry) 0 abcReader⟩ :=
    .snoc (.snoc (.nil _) ⟨hready, .read (i := 0) abcVolume_read⟩) ⟨trivial, .write hwrite⟩
  refine ⟨_, hrun, rfl, ?_⟩
  have hinside : abcReader.rdOff < v'.fileSize abcReader.fatEntry ∧
      abcReader.rdCluster ≠ kEndOfClusterchain := by
    rw [show v'.fileSize abcReader.fatEntry = 4 from hsize]
    decide
  exact (readsContent_iff_of_run abcVolume_geometry abcVolume_owns abcVolume_apart
    (by decide +kernel) hrun 0 2).mpr (.inr (.inr hinside))

/-- After two bytes were read, one is written over the file: the size is 1, and
the next read of one byte returns a byte behind the end of the file. -/
theorem not_readsContent_after_shortening :
    ∃ s, Transition.Run (FileStep 16 sampleEntry)
        (.opened abcVolume sampleEntry) [.read 0 2, .write [65]] s ∧
      s.readers 0 = abcReader ∧ s.volume.fileSize sampleEntry = 1 ∧
      ¬ ReadsContent s.volume 16 (s.readers 0) 1 := by
  obtain ⟨v', fd', hwrite, hbpb, hsize⟩ := @abcVolume_write [65] (by decide)
  have hrun : Transition.Run (FileStep 16 sampleEntry)
      (.opened abcVolume sampleEntry) [.read 0 2, .write [65]]
      ⟨v', fd', Function.update (fun _ ↦ FileDescriptor.fresh sampleEntry) 0 abcReader⟩ :=
    .snoc (.snoc (.nil _) (.read (i := 0) abcVolume_read)) (.write hwrite)
  refine ⟨_, hrun, rfl, hsize, ?_⟩
  have hg : Geometry v'.bpb 16 := by
    rw [hbpb]
    exact abcVolume_geometry
  have hB : v'.bytesPerCluster = 512 := by
    rw [@Volume.bytesPerCluster_congr abcVolume v' hbpb]
    decide
  have hat : ReaderAt v' [3] abcReader :=
    ⟨by decide, .inr (.inl ⟨0, rfl, by rw [hB]; decide, by rw [hB]; decide⟩)⟩
  apply hat.not_readsContent hg
  rintro (h | h | ⟨h, -⟩)
  · cases h
  · rw [show v'.fileSize abcReader.fatEntry = 1 from hsize] at h
    cases h
  · rw [show v'.fileSize abcReader.fatEntry = 1 from hsize] at h
    exact absurd h (by decide)

end Fat
end MinOS
