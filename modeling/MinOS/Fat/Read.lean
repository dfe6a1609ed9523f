import MinOS.Fat.Write

/-!
# What `Read` returns

A chain holds the bytes of a file at its consecutive positions.  Reading
through a fresh descriptor, in pieces of any lengths, returns these bytes up to
the size in the directory entry.
-/

namespace MinOS
namespace Fat

open ByteMemory

/-- The bytes at the first positions of the chain. -/
structure Holds (v : Volume) (chain : List ℕ) (data : List UInt8) : Prop where
  length_le : data.length ≤ chain.length * v.bytesPerCluster
  bytes : ∀ j d o b, chain[j]? = some d → o < v.bytesPerCluster →
    data[j * v.bytesPerCluster + o]? = some b → v.mem (v.getClusterAddr d + o) = b

/-- The read position of the loop is `p`.  Behind the last cluster the loop
holds the end mark. -/
def ReadPos (v : Volume) (chain : List ℕ) (c off p : ℕ) : Prop :=
  (∃ k, chain[k]? = some c ∧ off < v.bytesPerCluster ∧ p = k * v.bytesPerCluster + off) ∨
    c = kEndOfClusterchain ∧ off = 0 ∧ p = chain.length * v.bytesPerCluster

theorem ReadPos.ne_zero {v : Volume} {bound c off p : ℕ} {chain : List ℕ}
    (h : ReadPos v chain c off p) (hchain : FileChain v bound chain) : c ≠ 0 := by
  rcases h with ⟨k, hk, -, -⟩ | ⟨rfl, -, -⟩
  · have hin := hchain.inRange c (List.mem_of_getElem? hk)
    omega
  · decide

/-- A piece of one cluster. -/
theorem Holds.readBytes {v : Volume} {chain : List ℕ} {data : List UInt8}
    (h : Holds v chain data) {k c off n : ℕ} (hk : chain[k]? = some c)
    (hn : off + n ≤ v.bytesPerCluster) (hlen : k * v.bytesPerCluster + off + n ≤ data.length) :
    readBytes v.mem (v.getClusterAddr c + off) n =
      (data.drop (k * v.bytesPerCluster + off)).take n := by
  apply List.ext_getElem?
  intro i
  rcases Nat.lt_or_ge i n with hi | hi
  · have hget : k * v.bytesPerCluster + (off + i) < data.length := by omega
    have hbyte := h.bytes k c (off + i) _ hk (by omega) (List.getElem?_eq_getElem hget)
    rw [getElem?_readBytes _ hi, List.getElem?_take_of_lt hi, List.getElem?_drop, Nat.add_assoc,
      hbyte, Nat.add_assoc, List.getElem?_eq_getElem hget]
  · rw [List.getElem?_eq_none (by simpa using hi), List.getElem?_eq_none]
    rw [List.length_take]
    omega

theorem take_drop_split {α : Type*} (data : List α) (p n m : ℕ) :
    (data.drop p).take n ++ (data.drop (p + n)).take m = (data.drop p).take (n + m) := by
  rw [List.take_add, List.drop_drop]

theorem readLoop_spec {v : Volume} {bound turns c off p len : ℕ} {chain : List ℕ}
    {data : List UInt8} (hcluster : 0 < v.bytesPerCluster) (hchain : FileChain v bound chain)
    (hholds : Holds v chain data) (hpos : ReadPos v chain c off p) (hlen : p + len ≤ data.length)
    (hturns : len ≤ turns) :
    ∃ c' off', v.readLoop turns c off len = some ((data.drop p).take len, c', off') ∧
      ReadPos v chain c' off' (p + len) := by
  induction turns generalizing c off p len with
  | zero =>
      obtain rfl : len = 0 := by omega
      exact ⟨c, off, by simp [Volume.readLoop], hpos⟩
  | succ turns ih =>
      cases len with
      | zero => exact ⟨c, off, by simp [Volume.readLoop], hpos⟩
      | succ len =>
          have hcap := hholds.length_le
          rcases hpos with ⟨k, hk, hoff, rfl⟩ | ⟨-, -, rfl⟩
          · obtain ⟨hklt, rfl⟩ := List.getElem?_eq_some_iff.mp hk
            -- the turn reads to the end of the request or of the cluster
            obtain ⟨n, hn⟩ : ∃ n, n = min (len + 1) (v.bytesPerCluster - off) := ⟨_, rfl⟩
            have hpiece := hholds.readBytes hk (by omega : off + n ≤ v.bytesPerCluster) (by omega)
            have hnext : ReadPos v chain
                (if off + n = v.bytesPerCluster then (v.nextCluster chain[k], 0)
                  else (chain[k], off + n)).1
                (if off + n = v.bytesPerCluster then (v.nextCluster chain[k], 0)
                  else (chain[k], off + n)).2 (k * v.bytesPerCluster + off + n) := by
              split_ifs with hfull
              · have hp : k * v.bytesPerCluster + off + n = (k + 1) * v.bytesPerCluster := by
                  rw [Nat.succ_mul]
                  omega
                rcases Nat.lt_or_ge (k + 1) chain.length with hlt | hge
                · left
                  refine ⟨k + 1, ?_, hcluster, by omega⟩
                  simp [hchain.nextCluster_getElem hlt, List.getElem?_eq_getElem hlt]
                · right
                  have hlast : k + 1 = chain.length := by omega
                  exact ⟨hchain.nextCluster_last hlast, rfl, by rw [hp, hlast]⟩
              · exact .inl ⟨k, hk, by dsimp only; omega, by dsimp only; omega⟩
            obtain ⟨c', off', hrest, hpos'⟩ := @ih _ _ _ (len + 1 - n) hnext (by omega) (by omega)
            refine ⟨c', off', ?_, ?_⟩
            · rw [Volume.readLoop, ← hn, Option.bind_eq_bind, hrest, Option.bind_some, hpiece,
                take_drop_split, Nat.add_sub_cancel' (by omega)]
              rfl
            · rwa [Nat.add_assoc, Nat.add_sub_cancel' (by omega)] at hpos'
          · omega

/-- The descriptor has not read yet, or its read position is `p`. -/
def Reading (v : Volume) (chain : List ℕ) (fd : FileDescriptor) (p : ℕ) : Prop :=
  fd.rdOff = p ∧
    (fd.rdCluster = 0 ∧ fd.rdClusterOff = 0 ∧ p = 0 ∨
      fd.rdCluster ≠ 0 ∧ ReadPos v chain fd.rdCluster fd.rdClusterOff p)

theorem read_spec {v : Volume} {bound p : ℕ} {fd : FileDescriptor} {chain : List ℕ}
    {data : List UInt8} (hcluster : 0 < v.bytesPerCluster) (howns : Owns v bound fd.fatEntry chain)
    (hholds : Holds v chain data) (hsize : v.fileSize fd.fatEntry = data.length)
    (hsmall : data.length < 2 ^ 32) (hpos : Reading v chain fd p) (hp : p ≤ data.length)
    (len : ℕ) :
    ∃ fd', v.read fd len = some ((data.drop p).take len, fd') ∧ fd'.fatEntry = fd.fatEntry ∧
      Reading v chain fd' (p + min len (data.length - p)) := by
  obtain ⟨hoff, hpos⟩ := hpos
  have hleft : min len ((v.fileSize fd.fatEntry + 2 ^ 64 - fd.rdOff) % 2 ^ 64) =
      min len (data.length - p) := by
    rw [hsize, hoff]
    omega
  have hdata : (data.drop p).take (min len (data.length - p)) = (data.drop p).take len := by
    rw [List.take_eq_take_iff, List.length_drop]
    omega
  rcases howns with ⟨rfl, hzero⟩ | ⟨hchain, hhead⟩
  · -- an entry without clusters has no bytes to read
    obtain rfl : data = [] := List.length_eq_zero_iff.mp (by simpa using hholds.length_le)
    rw [Volume.read, hleft]
    simp only [List.length_nil, Nat.zero_sub, Nat.min_zero, Volume.readLoop, Option.bind_eq_bind,
      Option.bind_some, List.drop_nil, List.take_nil]
    refine ⟨_, rfl, rfl, hoff, ?_⟩
    rcases hpos with ⟨h0, hoff0, hp0⟩ | ⟨hne, hread⟩
    · exact .inl ⟨by simp [h0, hzero], hoff0, hp0⟩
    · right
      rw [if_neg hne]
      exact ⟨hne, hread⟩
  · have hstart : ReadPos v chain
        (if fd.rdCluster = 0 then v.firstCluster fd.fatEntry else fd.rdCluster)
        fd.rdClusterOff p := by
      rcases hpos with ⟨h0, hoff0, rfl⟩ | ⟨hne, hread⟩
      · rw [if_pos h0, hoff0]
        refine .inl ⟨0, ?_, hcluster, by simp⟩
        rw [← hhead, List.head?_eq_getElem?]
      · rwa [if_neg hne]
    obtain ⟨c', off', hloop, hread⟩ := @readLoop_spec _ _ (min len (data.length - p)) _ _ _
      (min len (data.length - p)) _ _ hcluster hchain hholds hstart (by omega) le_rfl
    rw [Volume.read, hleft]
    simp only [hloop, Option.bind_eq_bind, Option.bind_some, hdata]
    refine ⟨_, rfl, rfl, by rw [hoff], .inr ⟨hread.ne_zero hchain, hread⟩⟩

namespace Volume

/-- Successive calls of `Read` through one descriptor, and all the bytes they return. -/
def readAll (v : Volume) : FileDescriptor → List ℕ → Option (List UInt8)
  | _, [] => some []
  | fd, len :: lens => do
      let r ← v.read fd len
      let rest ← v.readAll r.2 lens
      return r.1 ++ rest

end Volume

theorem readAll_spec {v : Volume} {bound p : ℕ} {fd : FileDescriptor} {chain : List ℕ}
    {data : List UInt8} (hcluster : 0 < v.bytesPerCluster) (howns : Owns v bound fd.fatEntry chain)
    (hholds : Holds v chain data) (hsize : v.fileSize fd.fatEntry = data.length)
    (hsmall : data.length < 2 ^ 32) (hpos : Reading v chain fd p) (hp : p ≤ data.length)
    (reads : List ℕ) : v.readAll fd reads = some ((data.drop p).take reads.sum) := by
  induction reads generalizing fd p with
  | nil => simp [Volume.readAll]
  | cons len reads ih =>
      obtain ⟨fd', hread, hentry, hpos'⟩ :=
        read_spec hcluster howns hholds hsize hsmall hpos hp len
      have hrest := @ih _ fd' (by rwa [hentry]) (by rwa [hentry]) hpos' (by omega)
      rw [Volume.readAll, hread, Option.bind_eq_bind, Option.bind_some, hrest, Option.bind_eq_bind,
        Option.bind_some, List.sum_cons, ← take_drop_split]
      rcases Nat.le_total len (data.length - p) with hle | hge
      · rw [Nat.min_eq_left hle]
        rfl
      · have hend : data.drop (p + (data.length - p)) = [] := List.drop_of_length_le (by omega)
        have hend' : data.drop (p + len) = [] := List.drop_of_length_le (by omega)
        rw [Nat.min_eq_right hge, hend, hend']
        rfl

/-- Reading through a fresh descriptor to the end of the file. -/
theorem readAll_fresh {v : Volume} {bound entry : ℕ} {chain : List ℕ} {data : List UInt8}
    (hcluster : 0 < v.bytesPerCluster) (howns : Owns v bound entry chain) (hholds : Holds v chain data)
    (hsize : v.fileSize entry = data.length) (hsmall : data.length < 2 ^ 32) {reads : List ℕ}
    (hreads : data.length ≤ reads.sum) :
    v.readAll (FileDescriptor.fresh entry) reads = some data := by
  have hpos : Reading v chain (FileDescriptor.fresh entry) 0 := ⟨rfl, .inl ⟨rfl, rfl, rfl⟩⟩
  have hread := @readAll_spec v bound 0 (FileDescriptor.fresh entry) chain data hcluster howns hholds
    hsize hsmall hpos (Nat.zero_le _) reads
  rwa [List.drop_zero, List.take_of_length_le hreads] at hread

/-! ## Reading at an offset -/

/-- The clusters before an offset are skipped.  At the end of the last one the loop
reaches the end mark. -/
theorem seek_spec {v : Volume} {bound : ℕ} {chain : List ℕ} (hcluster : 0 < v.bytesPerCluster)
    (hchain : FileChain v bound chain) {turns k c offset : ℕ} (hk : chain[k]? = some c)
    (hoffset : k * v.bytesPerCluster + offset ≤ chain.length * v.bytesPerCluster)
    (hturns : offset < turns) :
    ∃ c' off', v.seek turns c offset = some (c', off') ∧
      ReadPos v chain c' off' (k * v.bytesPerCluster + offset) := by
  induction turns generalizing k c offset with
  | zero => omega
  | succ turns ih =>
      rw [Volume.seek]
      split_ifs with hge
      · obtain ⟨hklt, rfl⟩ := List.getElem?_eq_some_iff.mp hk
        have hsum : (k + 1) * v.bytesPerCluster + (offset - v.bytesPerCluster) =
            k * v.bytesPerCluster + offset := by
          rw [Nat.succ_mul]
          omega
        rcases Nat.lt_or_ge (k + 1) chain.length with hlt | hlast
        · have hnext := hchain.nextCluster_getElem hlt
          obtain ⟨c', off', hseek, hread⟩ := @ih (k + 1) (v.nextCluster chain[k])
            (offset - v.bytesPerCluster) (by simp [hnext, List.getElem?_eq_getElem hlt])
            (by omega) (by omega)
          exact ⟨c', off', hseek, hsum ▸ hread⟩
        · have hend : k + 1 = chain.length := by omega
          have hzero : offset - v.bytesPerCluster = 0 := by
            rw [← hend] at hoffset
            omega
          obtain ⟨turns, rfl⟩ : ∃ n, turns = n + 1 := ⟨turns - 1, by omega⟩
          refine ⟨kEndOfClusterchain, 0, ?_, .inr ⟨rfl, rfl, by rw [← hsum, hzero, hend]; rfl⟩⟩
          rw [hchain.nextCluster_last hend, hzero, Volume.seek, if_neg (by omega)]
      · exact ⟨c, offset, rfl, .inl ⟨k, hk, Nat.lt_of_not_le hge, rfl⟩⟩

theorem load_spec {v : Volume} {bound : ℕ} {fd : FileDescriptor} {chain : List ℕ}
    {data : List UInt8} (hcluster : 0 < v.bytesPerCluster) (howns : Owns v bound fd.fatEntry chain)
    (hholds : Holds v chain data) (hsize : v.fileSize fd.fatEntry = data.length)
    (hsmall : data.length < 2 ^ 32) {offset : ℕ} (hoffset : offset ≤ data.length) (len : ℕ) :
    v.load fd len offset = some ((data.drop offset).take len) := by
  have hcap := hholds.length_le
  obtain ⟨c', off', hseek, hreading⟩ : ∃ c' off',
      v.seek (offset + 1) (v.firstCluster fd.fatEntry) offset = some (c', off') ∧
      Reading v chain
        { fatEntry := fd.fatEntry, rdOff := offset, rdCluster := c', rdClusterOff := off' }
        offset := by
    rcases howns with ⟨rfl, hzero⟩ | ⟨hchain, hhead⟩
    · obtain rfl : offset = 0 := by
        rw [List.length_nil, Nat.zero_mul] at hcap
        omega
      exact ⟨_, _, if_neg (by omega), rfl, .inl ⟨hzero, rfl, rfl⟩⟩
    · obtain ⟨c', off', hseek, hread⟩ := @seek_spec v bound chain hcluster hchain (offset + 1) 0
        (v.firstCluster fd.fatEntry) offset (by rw [← hhead, List.head?_eq_getElem?]) (by omega)
        (Nat.lt_succ_self offset)
      rw [Nat.zero_mul, Nat.zero_add] at hread
      exact ⟨c', off', hseek, rfl, .inr ⟨hread.ne_zero hchain, hread⟩⟩
  obtain ⟨fd', hbytes, -, -⟩ := @read_spec v bound offset
    { fatEntry := fd.fatEntry, rdOff := offset, rdCluster := c', rdClusterOff := off' } chain data
    hcluster howns hholds hsize hsmall hreading hoffset len
  rw [Volume.load, hseek]
  simp only [Option.bind_eq_bind, Option.bind_some, hbytes]
  rfl

end Fat
end MinOS
