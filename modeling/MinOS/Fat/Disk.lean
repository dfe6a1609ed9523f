import MinOS.Fat.Intact

/-!
# Runs on a disk

The tasks open files, create them, read and write them in any order, each through descriptors
of its own or shared ones.  In every run the volume stays intact, a cluster is never taken away
from a file, and a file that is not written keeps its content.
-/

namespace MinOS
namespace Fat

/-! ## Opening -/

inductive OpenErrno where
  | ENOENT
  | EISDIR
  | ENOSPC
deriving DecidableEq, Repr

/-- `@stdin` -/
def stdinName : List UInt8 := [0x40, 0x73, 0x74, 0x64, 0x69, 0x6e]

/-- The entry and the error number of the local `CreateFile`.  Other errors have the number
zero. -/
def createResult : Except Error ℕ → Except OpenErrno (Option ℕ)
  | .ok file => .ok (some file)
  | .error .kIsDirectory => .error .EISDIR
  | .error .kNoSuchEntry => .error .ENOENT
  | .error .kNoEnoughMemory => .error .ENOSPC
  | .error _ => .ok none

theorem createResult_error (err : Error) (x : ℕ) : createResult (.error err) ≠ .ok (some x) := by
  cases err <;> simp [createResult]

namespace Volume

/-- The system call `OpenFile`, up to the new descriptor: the entry that it is for, or none for
`@stdin`.  `creat` is whether the flags have `O_CREAT`. -/
def openFile (v : Volume) (bound : ℕ) (creat : Bool) (path : List UInt8) :
    Option (Except OpenErrno (Option ℕ) × Volume) :=
  if path = stdinName then some (.ok none, v)
  else
    (v.findFile bound path 0).bind fun found ↦
      match found with
      | (none, _) =>
          if creat then
            (v.createFile bound (bound - 2) path).map fun r ↦ (createResult r.1, r.2)
          else some (.error .ENOENT, v)
      | (some file, postSlash) =>
          if v.entryAttr file ≠ kDirectory ∧ postSlash then some (.error .ENOENT, v)
          else some (.ok (some file), v)

/-- Where `ExecuteLine` redirects the output to.  There is none if the file cannot be created,
or is a directory. -/
def redirect (v : Volume) (bound : ℕ) (path : List UInt8) : Option (Option ℕ × Volume) :=
  (v.findFile bound path 0).bind fun found ↦
    match found with
    | (none, _) =>
        (v.createFile bound (bound - 2) path).map fun r ↦ (r.1.toOption, r.2)
    | (some file, postSlash) =>
        if v.entryAttr file = kDirectory ∨ postSlash then some (none, v) else some (some file, v)

/-- The entry is found, or it is made for a path that is not found. -/
inductive OpensAs (v : Volume) (bound : ℕ) (path : List UInt8) (x : ℕ) : Volume → Prop where
  | found (hfind : v.Finds bound path x) : OpensAs v bound path x v
  | created {v' : Volume} (hnone : ∃ post, v.findFile bound path 0 = some (none, post))
      (hcreate : v.createFile bound (bound - 2) path = some (.ok x, v')) : OpensAs v bound path x v'

variable {v v' : Volume} {bound x : ℕ} {path : List UInt8}

theorem createFile_error {err : Error} {fuel searchFuel : ℕ}
    (h : v.createFile fuel searchFuel path = some (.error err, v')) : v' = v := by
  obtain ⟨parent, -, h⟩ := Option.bind_eq_some_iff.mp h
  cases parent with
  | error e =>
      cases h
      rfl
  | ok parent =>
      obtain ⟨alloc, -, h⟩ := Option.bind_eq_some_iff.mp h
      cases h

/-- A call that makes no descriptor leaves the volume as it is. -/
theorem openFile_cases {creat : Bool} {r : Except OpenErrno (Option ℕ)}
    (h : v.openFile bound creat path = some (r, v')) :
    (∃ x, r = .ok (some x) ∧ v.OpensAs bound path x v') ∨ (∀ x, r ≠ .ok (some x)) ∧ v' = v := by
  rw [openFile] at h
  by_cases hstd : path = stdinName
  · rw [if_pos hstd] at h
    cases h
    exact .inr ⟨by simp, rfl⟩
  · rw [if_neg hstd] at h
    obtain ⟨⟨found, postSlash⟩, hfind, h⟩ := Option.bind_eq_some_iff.mp h
    cases found with
    | none =>
        cases creat with
        | false =>
            cases h
            exact .inr ⟨by simp, rfl⟩
        | true =>
            obtain ⟨⟨r', w⟩, hcreate, h⟩ := Option.map_eq_some_iff.mp h
            cases r' with
            | ok file =>
                cases h
                exact .inl ⟨file, rfl, .created ⟨postSlash, hfind⟩ hcreate⟩
            | error err =>
                cases h
                exact .inr ⟨createResult_error err, createFile_error hcreate⟩
    | some file =>
        dsimp only at h
        split_ifs at h <;> cases h
        · exact .inr ⟨by simp, rfl⟩
        · exact .inl ⟨file, rfl, .found ⟨postSlash, hfind⟩⟩

theorem redirect_cases {r : Option ℕ} (h : v.redirect bound path = some (r, v')) :
    (∃ x, r = some x ∧ v.OpensAs bound path x v') ∨ r = none ∧ v' = v := by
  obtain ⟨⟨found, postSlash⟩, hfind, h⟩ := Option.bind_eq_some_iff.mp h
  cases found with
  | none =>
      obtain ⟨⟨r', w⟩, hcreate, h⟩ := Option.map_eq_some_iff.mp h
      cases r' with
      | ok file =>
          cases h
          exact .inl ⟨file, rfl, .created ⟨postSlash, hfind⟩ hcreate⟩
      | error err =>
          cases h
          exact .inr ⟨rfl, createFile_error hcreate⟩
  | some file =>
      dsimp only at h
      split_ifs at h <;> cases h
      · exact .inr ⟨rfl, rfl⟩
      · exact .inl ⟨file, rfl, .found ⟨postSlash, hfind⟩⟩

end Volume
/-! ## What a call does to the volume -/

/-- Nothing is taken away.  Directories and files stay, and a file only gets clusters at the end of
its chain. -/
structure Extends (v v' : Volume) (bound : ℕ) : Prop where
  bpb : v'.bpb = v.bpb
  on : ∀ {h : Holder}, h.On v bound → h.On v' bound
  entryOf : ∀ {d x : ℕ}, IsDir v bound d → EntryOf v bound d x → EntryOf v' bound d x
  chain : ∀ {x : ℕ} {chain : List ℕ}, (Holder.file x).On v bound → Owns v bound x chain →
    ∃ more, Owns v' bound x (chain ++ more)

theorem Extends.refl (v : Volume) (bound : ℕ) : Extends v v bound where
  bpb := rfl
  on := id
  entryOf := fun _ hx ↦ hx
  chain := fun {_ chain} _ hchain ↦ ⟨[], by rwa [List.append_nil]⟩

theorem Extends.trans {v v₁ v₂ : Volume} {bound : ℕ} (h₁ : Extends v v₁ bound)
    (h₂ : Extends v₁ v₂ bound) : Extends v v₂ bound where
  bpb := h₂.bpb.trans h₁.bpb
  on := fun hg ↦ h₂.on (h₁.on hg)
  entryOf := fun hd hx ↦ h₂.entryOf (h₁.on (h := .directory _) hd) (h₁.entryOf hd hx)
  chain := fun hx hchain ↦ by
    obtain ⟨more, hmore⟩ := h₁.chain hx hchain
    obtain ⟨more', hmore'⟩ := h₂.chain (h₁.on hx) hmore
    exact ⟨more ++ more', by rwa [← List.append_assoc]⟩

/-- What one call does to the volume, and the file that it writes. -/
inductive Change (v : Volume) (bound : ℕ) : Option ℕ → Volume → Prop where
  | same : Change v bound none v
  | wrote {v' : Volume} {fd fd' : FileDescriptor} {chain : List ℕ} {buf : List UInt8} {t p p' : ℕ}
      (hx : (Holder.file fd.fatEntry).On v bound) (hchain : Owns v bound fd.fatEntry chain)
      (hoff : fd.wrOff ≤ p) (heffect : WriteEffect v v' bound fd fd' chain buf t p p') :
      Change v bound (some fd.fatEntry) v'
  | created {v' : Volume} {D e : ℕ} {tail chain' : List ℕ} {name : List UInt8}
      (hD : IsDir v bound D) (hchain : FileChain v bound (D :: tail))
      (hname : name.head? ≠ some deleted) (hcreated : Created v v' bound (D :: tail) chain' e name)
      (hnew : NewEntry v v' bound e (D :: tail) chain') : Change v bound none v'

namespace Change

variable {v v' : Volume} {bound : ℕ} {w : Option ℕ}

theorem intact (h : Change v bound w v') (hv : Intact v bound) : Intact v' bound := by
  cases h with
  | same => exact hv
  | wrote hx hchain hoff heffect => exact heffect.intact hv hx hchain hoff
  | created hD hchain hname hcreated hnew => exact hcreated.intact hv hD hchain hnew hname

/-- The files that are not written are not changed. -/
theorem kept (h : Change v bound w v') (hv : Intact v bound) {y : ℕ}
    (hy : (Holder.file y).On v bound) (hne : w ≠ some y) : Kept v v' bound y := by
  cases h with
  | same => exact ⟨rfl, hy, rfl, id, fun _ _ _ ↦ rfl⟩
  | wrote hx hchain hoff heffect =>
      exact heffect.kept hv hx hchain hy fun heq ↦ hne (congrArg some heq.symm)
  | created hD hchain hname hcreated hnew => exact hcreated.kept hv hD hchain hnew hname hy

theorem extends_ (h : Change v bound w v') (hv : Intact v bound) : Extends v v' bound := by
  cases h with
  | same => exact .refl v bound
  | @wrote _ fd fd' chain buf t p p' hx hchain hoff heffect =>
      refine ⟨heffect.grown.bpb, (heffect.on hv hx hchain _).mpr,
        fun hd ha ↦ (heffect.entryOf hv hx hchain hd _).mpr ha, fun {y l} hy hl ↦ ?_⟩
      by_cases hne : y = fd.fatEntry
      · subst hne
        obtain rfl := Owns.unique hchain hl
        obtain ⟨d, hd, hxd⟩ := id hx
        have hnext := (heffect.next (hv.apart hd hxd hchain)).1
        rw [heffect.entry] at hnext
        exact ⟨_, hnext⟩
      · refine ⟨[], ?_⟩
        rw [List.append_nil]
        exact (heffect.kept hv hx hchain hy hne).chain hl
  | created hD hchain hname hcreated hnew =>
      refine ⟨hcreated.bpb, fun hg ↦ (hcreated.on hv hD hchain hnew hname _).mpr (.inr hg),
        fun hd ha ↦ (hcreated.entryOf hv hD hchain hnew hname hd _).mpr (.inr ha),
        fun {y l} hy hl ↦ ⟨[], ?_⟩⟩
      rw [List.append_nil]
      exact (hcreated.kept hv hD hchain hnew hname hy).chain hl

/-- Every path that led to an entry leads to it behind a write. -/
theorem finds {x y : ℕ} (h : Change v bound (some x) v') (hv : Intact v bound) {q : Path}
    (hq : Live q.bytes) (hy : v.Finds bound q.bytes y) : v'.Finds bound q.bytes y := by
  cases h with
  | wrote hx hchain hoff heffect => exact heffect.finds hv hx hchain hq q.nonNul hy

end Change

/-- Where a descriptor can stand: at an entry of a directory and, if it has written, in the chain
of its file. -/
structure Stands (v : Volume) (bound : ℕ) (fd : FileDescriptor) : Prop where
  entry : ∃ d, IsDir v bound d ∧ EntryOf v bound d fd.fatEntry
  pos : fd.wrCluster = 0 ∧ fd.wrClusterOff = 0 ∧ fd.wrOff = 0 ∨
    (Holder.file fd.fatEntry).On v bound ∧ ∃ chain p, Owns v bound fd.fatEntry chain ∧
      Cursor v chain fd.wrCluster fd.wrClusterOff p ∧ fd.wrOff ≤ p

namespace Stands

variable {v v' : Volume} {bound : ℕ} {fd : FileDescriptor}

theorem fresh {d x : ℕ} (hd : IsDir v bound d) (hx : EntryOf v bound d x) :
    Stands v bound (FileDescriptor.fresh x) :=
  ⟨⟨d, hd, hx⟩, .inl ⟨rfl, rfl, rfl⟩⟩

/-- A descriptor of a file that is nothing else. -/
theorem on (h : Stands v bound fd) (hdir : v.entryAttr fd.fatEntry ≠ kDirectory)
    (hlong : v.entryAttr fd.fatEntry ≠ kLongName) : (Holder.file fd.fatEntry).On v bound := by
  obtain ⟨d, hd, hx⟩ := h.entry
  exact ⟨d, hd, hx, hdir, hlong⟩

theorem writePos (h : Stands v bound fd) {chain : List ℕ} (hchain : Owns v bound fd.fatEntry chain) :
    ∃ p, WritePos v fd chain p ∧ fd.wrOff ≤ p := by
  rcases h.pos with ⟨hc, hoff, hwr⟩ | ⟨-, chain', p, hchain', hcur, hle⟩
  · exact ⟨0, .inl ⟨hc, hoff, rfl⟩, hwr.le⟩
  · obtain rfl := Owns.unique hchain' hchain
    have hin := (hchain.inRange hcur.mem).1
    exact ⟨p, .inr ⟨by omega, hcur⟩, hle⟩

theorem mono (h : Stands v bound fd) (hext : Extends v v' bound) : Stands v' bound fd := by
  obtain ⟨d, hd, hx⟩ := h.entry
  refine ⟨⟨d, hext.on (h := .directory d) hd, hext.entryOf hd hx⟩, ?_⟩
  rcases h.pos with hfresh | ⟨hon, chain, p, hchain, hcur, hle⟩
  · exact .inl hfresh
  · obtain ⟨more, hmore⟩ := hext.chain hon hchain
    exact .inr ⟨hext.on hon, chain ++ more, p, hmore,
      (cursor_congr hext.bpb).mpr (hcur.append more), hle⟩

/-- A read does not move the write position. -/
theorem read {bytes : List UInt8} {len : ℕ} {fd' : FileDescriptor} (h : Stands v bound fd)
    (hread : v.read fd len = some (bytes, fd')) : Stands v bound fd' := by
  rw [Volume.read_eq, Option.map_eq_some_iff] at hread
  obtain ⟨r, -, heq⟩ := hread
  obtain ⟨-, rfl⟩ := Prod.mk.inj heq
  exact ⟨h.entry, h.pos⟩

end Stands

/-! ## Calls -/

theorem filename_mem_pathElements (path : List UInt8) : filename path ∈ pathElements path := by
  have hself : ∀ {name : List UInt8}, slash ∉ name → name ∈ pathElements name := by
    intro name hname
    have hmem := head_mem_pathElements name
    rwa [nextPathElement_of_slash_notMem hname] at hmem
  rcases splitLast_cases path with ⟨hsplit, -, hfile⟩ | hsplit
  · rw [hfile]
    exact hself (notMem_of_splitLast hsplit)
  · have hmem := hself (notMem_after_splitLast hsplit)
    rw [splitLast_eq hsplit, pathElements_append]
    exact List.mem_append_right _ (by rwa [← splitLast_eq hsplit])

theorem Live.parent {path : List UInt8} (h : Live path) : Live (parentDirName path) := by
  rcases splitLast_cases path with ⟨-, hdir, -⟩ | hsplit
  · rw [hdir]
    decide
  · intro elem helem
    apply h
    rw [splitLast_eq hsplit, pathElements_append]
    exact List.mem_append_left _ helem

section Calls

variable {v v' : Volume} {bound : ℕ}

theorem change_of_write {fd fd' : FileDescriptor} {buf : List UInt8} (hv : Intact v bound)
    (hfd : Stands v bound fd) (hx : (Holder.file fd.fatEntry).On v bound)
    (hwrite : v.write (bound - 2) fd buf = some (v', fd')) :
    Change v bound (some fd.fatEntry) v' ∧ Stands v' bound fd' := by
  obtain ⟨chain, hchain⟩ := hv.linked hx
  obtain ⟨p, hpos, hoff⟩ := hfd.writePos hchain
  obtain ⟨d, hd, hxd⟩ := id hx
  have hapart := hv.apart hd hxd hchain
  obtain ⟨t, p', heffect⟩ := write_effect hv.geometry hchain hapart hpos hwrite
  have hchange : Change v bound (some fd.fatEntry) v' := .wrote hx hchain hoff heffect
  have hext := hchange.extends_ hv
  refine ⟨hchange, ⟨?_, .inr ⟨?_, _, p', (heffect.next hapart).1, ?_, ?_⟩⟩⟩
  · rw [heffect.entry]
    exact ⟨d, hext.on (h := .directory d) hd, hext.entryOf hd hxd.toEntryOf⟩
  · rw [heffect.entry]
    exact hext.on hx
  · exact (cursor_congr hext.bpb).mpr heffect.cursor
  · rw [heffect.off]
    exact (Nat.add_le_add_right hoff _).trans heffect.le

theorem change_of_opensAs {p : Path} {x : ℕ} (hv : Intact v bound) (hlive : Live p.bytes)
    (hopens : v.OpensAs bound p.bytes x v') :
    Change v bound none v' ∧ Stands v' bound (FileDescriptor.fresh x) := by
  cases hopens with
  | found hfind =>
      obtain ⟨post, hfind⟩ := hfind
      obtain ⟨d, hd, hx, -⟩ :=
        hv.wellFormed.findFile_entryOf _ (Nat.lt_succ_self _) hlive (.inl rfl) hfind
      exact ⟨.same, .fresh hd hx⟩
  | created hnone hcreate =>
      obtain ⟨post, hnone⟩ := hnone
      obtain ⟨D, tail, chain', hres, hchain, hcreated, hnew⟩ :=
        created_of_createFile hv.wellFormed hlive.parent hnone hcreate
      have hname := hlive _ (filename_mem_pathElements p.bytes)
      have hchange : Change v bound none v' := .created hres.isDir hchain hname hcreated hnew
      refine ⟨hchange, .fresh ((hchange.extends_ hv).on (h := .directory D) hres.isDir) ?_⟩
      exact (hcreated.entryOf hv hres.isDir hchain hnew hname hres.isDir x).mpr (.inl ⟨rfl, rfl⟩)

end Calls

/-! ## Runs -/

/-- The volume with the descriptors of all tasks. -/
structure Disk where
  volume : Volume
  files : ℕ → Option FileDescriptor

inductive DiskOp where
  | openFile (i : ℕ) (path : Path) (creat : Bool)
  | redirect (i : ℕ) (path : Path)
  | read (i len : ℕ)
  | write (i : ℕ) (buf : List UInt8)
  | close (i : ℕ)

namespace Disk

def setFile (s : Disk) (v : Volume) (i : ℕ) (fd : FileDescriptor) : Disk where
  volume := v
  files := Function.update s.files i (some fd)

/-- A new descriptor, if there is an entry for it. -/
def opened (s : Disk) (v : Volume) (i : ℕ) : Option ℕ → Disk
  | none => { s with volume := v }
  | some x => s.setFile v i (.fresh x)

/-- One call, if it returns.  A write takes its clusters from the `bound - 2` data clusters of the
volume. -/
def step (bound : ℕ) (s : Disk) : DiskOp → Option Disk
  | .openFile i path creat =>
      (s.volume.openFile bound creat path.bytes).map fun r ↦ s.opened r.2 i (r.1.toOption.getD none)
  | .redirect i path =>
      (s.volume.redirect bound path.bytes).map fun r ↦ s.opened r.2 i r.1
  | .read i len =>
      match s.files i with
      | none => some s
      | some fd => (s.volume.read fd len).map fun r ↦ s.setFile s.volume i r.2
  | .write i buf =>
      match s.files i with
      | none => some s
      | some fd => (s.volume.write (bound - 2) fd buf).map fun r ↦ s.setFile r.1 i r.2
  | .close i => some { s with files := Function.update s.files i none }

/-- No name of a path is a deleted one, and only files are written. -/
def FilesOnly (s : Disk) : DiskOp → Prop
  | .openFile _ path _ => Live path.bytes
  | .redirect _ path => Live path.bytes
  | .write i _ => ∀ fd, s.files i = some fd →
      s.volume.entryAttr fd.fatEntry ≠ kDirectory ∧ s.volume.entryAttr fd.fatEntry ≠ kLongName
  | _ => True

/-- The file that a call writes. -/
def written (s : Disk) : DiskOp → Option ℕ
  | .write i _ => (s.files i).map FileDescriptor.fatEntry
  | _ => none

/-- No descriptor is open. -/
def booted (v : Volume) : Disk := { volume := v, files := fun _ ↦ none }

/-- The volume is intact and the descriptors stand in it. -/
structure Sound (bound : ℕ) (s : Disk) : Prop where
  intact : Intact s.volume bound
  stands : ∀ {i : ℕ} {fd : FileDescriptor}, s.files i = some fd → Stands s.volume bound fd

section Step

variable {bound : ℕ} {s s' : Disk}

theorem Sound.setFile (hs : s.Sound bound) {v' : Volume} {i : ℕ} {fd : FileDescriptor}
    {w : Option ℕ} (hchange : Change s.volume bound w v') (hfd : Stands v' bound fd) :
    (s.setFile v' i fd).Sound bound := by
  refine ⟨hchange.intact hs.intact, fun {j fd'} hj ↦ ?_⟩
  change Function.update s.files i (some fd) j = some fd' at hj
  by_cases heq : j = i
  · subst heq
    rw [Function.update_self] at hj
    exact Option.some.inj hj ▸ hfd
  · rw [Function.update_of_ne heq] at hj
    exact (hs.stands hj).mono (hchange.extends_ hs.intact)

/-- What one call does to the volume. -/
theorem Sound.step (hs : s.Sound bound) {op : DiskOp} (hfiles : s.FilesOnly op)
    (hstep : s.step bound op = some s') :
    s'.Sound bound ∧ Change s.volume bound (s.written op) s'.volume := by
  cases op with
  | openFile i path creat =>
      obtain ⟨⟨r, v'⟩, hopen, rfl⟩ := Option.map_eq_some_iff.mp hstep
      rcases Volume.openFile_cases hopen with ⟨x, rfl, hopens⟩ | ⟨hr, rfl⟩
      · obtain ⟨hchange, hstands⟩ := change_of_opensAs hs.intact hfiles hopens
        exact ⟨hs.setFile hchange hstands, hchange⟩
      · have hnone : r.toOption.getD none = none := by
          cases r with
          | error e => rfl
          | ok found =>
              cases found with
              | none => rfl
              | some x => exact absurd rfl (hr x)
        dsimp only
        rw [hnone]
        exact ⟨hs, .same⟩
  | redirect i path =>
      obtain ⟨⟨r, v'⟩, hopen, rfl⟩ := Option.map_eq_some_iff.mp hstep
      rcases Volume.redirect_cases hopen with ⟨x, rfl, hopens⟩ | ⟨rfl, rfl⟩
      · obtain ⟨hchange, hstands⟩ := change_of_opensAs hs.intact hfiles hopens
        exact ⟨hs.setFile hchange hstands, hchange⟩
      · exact ⟨hs, .same⟩
  | read i len =>
      rw [Disk.step] at hstep
      cases hi : s.files i with
      | none =>
          rw [hi] at hstep
          obtain rfl := Option.some.inj hstep
          exact ⟨hs, .same⟩
      | some fd =>
          rw [hi] at hstep
          obtain ⟨⟨bytes, fd'⟩, hread, rfl⟩ := Option.map_eq_some_iff.mp hstep
          exact ⟨hs.setFile .same ((hs.stands hi).read hread), .same⟩
  | write i buf =>
      rw [Disk.step] at hstep
      rw [written]
      cases hi : s.files i with
      | none =>
          rw [hi] at hstep
          obtain rfl := Option.some.inj hstep
          exact ⟨hs, .same⟩
      | some fd =>
          rw [hi] at hstep
          obtain ⟨⟨v', fd'⟩, hwrite, rfl⟩ := Option.map_eq_some_iff.mp hstep
          obtain ⟨hdir, hlong⟩ := hfiles fd hi
          have hstands := hs.stands hi
          obtain ⟨hchange, hstands'⟩ :=
            change_of_write hs.intact hstands (hstands.on hdir hlong) hwrite
          exact ⟨hs.setFile hchange hstands', hchange⟩
  | close i =>
      obtain rfl := Option.some.inj hstep
      refine ⟨⟨hs.intact, fun {j fd} hj ↦ ?_⟩, .same⟩
      change Function.update s.files i none j = some fd at hj
      by_cases heq : j = i
      · subst heq
        rw [Function.update_self] at hj
        cases hj
      · rw [Function.update_of_ne heq] at hj
        exact hs.stands hj

/-- The calls, as steps of the system. -/
def Step (bound : ℕ) (s : Disk) (op : DiskOp) (s' : Disk) : Prop := s.step bound op = some s'

theorem Sound.run (hs : s.Sound bound) {ops : List DiskOp}
    (hrun : Transition.Run (Transition.Guarded FilesOnly (Step bound)) s ops s') :
    s'.Sound bound ∧ Extends s.volume s'.volume bound := by
  have hinv : ∀ t op t', t.Sound bound ∧ Extends s.volume t.volume bound →
      Transition.Guarded FilesOnly (Step bound) t op t' →
      t'.Sound bound ∧ Extends s.volume t'.volume bound := by
    rintro t op t' ⟨ht, hext⟩ ⟨hfiles, hstep⟩
    obtain ⟨ht', hchange⟩ := ht.step hfiles hstep
    exact ⟨ht', hext.trans (hchange.extends_ ht.intact)⟩
  exact hrun.invariant hinv ⟨hs, .refl _ _⟩

/-- A file that is not written is kept. -/
theorem Sound.kept (hs : s.Sound bound) {x : ℕ} (hx : (Holder.file x).On s.volume bound)
    {ops : List DiskOp}
    (hrun : Transition.Run (Transition.Guarded (fun t op ↦ t.FilesOnly op ∧ t.written op ≠ some x)
      (Step bound)) s ops s') :
    s'.Sound bound ∧ Kept s.volume s'.volume bound x := by
  have hinv : ∀ t op t', t.Sound bound ∧ Kept s.volume t.volume bound x →
      Transition.Guarded (fun t op ↦ t.FilesOnly op ∧ t.written op ≠ some x) (Step bound) t op t' →
      t'.Sound bound ∧ Kept s.volume t'.volume bound x := by
    rintro t op t' ⟨ht, hkept⟩ ⟨⟨hfiles, hnot⟩, hstep⟩
    obtain ⟨ht', hchange⟩ := ht.step hfiles hstep
    exact ⟨ht', hkept.trans (hchange.kept ht.intact hkept.on hnot)⟩
  exact hrun.invariant hinv ⟨hs, ⟨rfl, hx, rfl, id, fun _ _ _ ↦ rfl⟩⟩

end Step

variable {bound : ℕ}

/-- A path that is opened leads to an entry, or it ends with a name that is stored as it is looked
for, with one slash before it. -/
def ShortName (v : Volume) (bound : ℕ) (path : List UInt8) : Prop :=
  (∃ x, v.Finds bound path x) ∨ fileName83 (filename path) = name83 (filename path) ∧
    (parentDirName path).getLast? ≠ some slash

def ShortNames (bound : ℕ) (s : Disk) : DiskOp → Prop
  | .openFile _ path _ => ShortName s.volume bound path.bytes
  | .redirect _ path => ShortName s.volume bound path.bytes
  | _ => True

section Names

variable {s s' : Disk}

theorem finds_of_opensAs {v v' : Volume} {p : Path} {x : ℕ} (hv : Intact v bound)
    (hlive : Live p.bytes) (hshort : ShortName v bound p.bytes)
    (hopens : v.OpensAs bound p.bytes x v') : Agrees v v' bound p x := by
  cases hopens with
  | found hfind => exact ⟨hfind, fun _ _ _ hy ↦ hy⟩
  | created hnone hcreate =>
      rcases hshort with ⟨y, post, hfind⟩ | ⟨hnames, hslash⟩
      · obtain ⟨post', hnone⟩ := hnone
        rw [hnone] at hfind
        cases hfind
      · exact agrees_of_names hv.wellFormed hnone hcreate hnames hslash hlive.parent

theorem Sound.finds_step (hs : s.Sound bound) {op : DiskOp} (hfiles : s.FilesOnly op)
    (hshort : s.ShortNames bound op) (hstep : s.step bound op = some s') {q : Path}
    (hq : Live q.bytes) {x : ℕ} (hx : s.volume.Finds bound q.bytes x) :
    s'.volume.Finds bound q.bytes x := by
  cases op with
  | openFile i path creat =>
      obtain ⟨⟨r, v'⟩, hopen, rfl⟩ := Option.map_eq_some_iff.mp hstep
      rcases Volume.openFile_cases hopen with ⟨y, rfl, hopens⟩ | ⟨hr, rfl⟩
      · exact (finds_of_opensAs hs.intact hfiles hshort hopens).2 q hq x hx
      · rcases r with e | _ | y
        · exact hx
        · exact hx
        · exact absurd rfl (hr y)
  | redirect i path =>
      obtain ⟨⟨r, v'⟩, hopen, rfl⟩ := Option.map_eq_some_iff.mp hstep
      rcases Volume.redirect_cases hopen with ⟨y, rfl, hopens⟩ | ⟨rfl, rfl⟩
      · exact (finds_of_opensAs hs.intact hfiles hshort hopens).2 q hq x hx
      · exact hx
  | read i len =>
      rw [Disk.step] at hstep
      cases hi : s.files i with
      | none =>
          rw [hi] at hstep
          exact Option.some.inj hstep ▸ hx
      | some fd =>
          rw [hi] at hstep
          obtain ⟨r, -, rfl⟩ := Option.map_eq_some_iff.mp hstep
          exact hx
  | write i buf =>
      rw [Disk.step] at hstep
      cases hi : s.files i with
      | none =>
          rw [hi] at hstep
          exact Option.some.inj hstep ▸ hx
      | some fd =>
          rw [hi] at hstep
          obtain ⟨⟨v', fd'⟩, hwrite, rfl⟩ := Option.map_eq_some_iff.mp hstep
          obtain ⟨hdir, hlong⟩ := hfiles fd hi
          have hstands := hs.stands hi
          obtain ⟨hchange, -⟩ := change_of_write hs.intact hstands (hstands.on hdir hlong) hwrite
          exact hchange.finds hs.intact hq hx
  | close i =>
      obtain rfl := Option.some.inj hstep
      exact hx

end Names

end Disk

/-! ## A disk with one file -/

/-- The volume with the bytes `abc` in cluster 3, as the file `A.TXT`. -/
def textVolume : Volume where
  bpb := sampleVolume.bpb
  mem := fun x ↦
    if 17408 ≤ x ∧ x < 17419 then
      [0x41, 0x20, 0x20, 0x20, 0x20, 0x20, 0x20, 0x20, 0x54, 0x58, 0x54].getD (x - 17408) 0
    else abcVolume.mem x

theorem textVolume_geometry : Geometry textVolume.bpb 16 := by
  constructor <;> decide

/-- The volume with an empty second file. -/
def noteVolume : Volume := ((textVolume.createFile 16 14 bPath.bytes).map Prod.snd).getD textVolume

def noteEntry : ℕ := 17440

theorem textVolume_values :
    (isEndOfClusterchain (textVolume.fatEntry 2) = true ∧
      isEndOfClusterchain (textVolume.fatEntry 3) = true) ∧
    ((textVolume.slots [2]).takeWhile (fun a ↦ decide (textVolume.mem a ≠ 0)) = [sampleEntry] ∧
      textVolume.mem sampleEntry = 0x41 ∧ textVolume.entryAttr sampleEntry = 0 ∧
      textVolume.firstCluster sampleEntry = 3 ∧ textVolume.fileSize sampleEntry = 3 ∧
      (textVolume.slots [2]).Pairwise fun a b ↦ textVolume.mem a = 0 → textVolume.mem b = 0) ∧
    textVolume.findFile 16 shortName.bytes 0 = some (some sampleEntry, false) ∧
    textVolume.findFile 16 bPath.bytes 0 = some (none, false) ∧
    (textVolume.createFile 16 14 bPath.bytes).map (fun r ↦ r.1.toOption) =
      some (some noteEntry) := by
  decide +kernel

theorem textVolume_chains : FileChain textVolume 16 [2] ∧ FileChain textVolume 16 [3] :=
  ⟨⟨textVolume_values.1.1, by simp⟩, ⟨textVolume_values.1.2, by simp⟩⟩

theorem textVolume_slots :
    (textVolume.slots [2]).takeWhile (fun a ↦ decide (textVolume.mem a ≠ 0)) = [sampleEntry] ∧
      textVolume.mem sampleEntry = 0x41 ∧ textVolume.entryAttr sampleEntry = 0 ∧
      textVolume.firstCluster sampleEntry = 3 ∧ textVolume.fileSize sampleEntry = 3 ∧
      (textVolume.slots [2]).Pairwise fun a b ↦ textVolume.mem a = 0 → textVolume.mem b = 0 :=
  textVolume_values.2.1

theorem textVolume_entryOf {x : ℕ} (hx : EntryOf textVolume 16 2 x) : x = sampleEntry := by
  have hin := ((entryOf_iff textVolume_chains.1).mp hx).1
  rwa [textVolume_slots.1, List.mem_singleton] at hin

theorem textVolume_not_subdirOf {x : ℕ} : ¬ SubdirOf textVolume 16 2 x := by
  intro hx
  have hattr := hx.attr
  rw [textVolume_entryOf hx.toEntryOf, textVolume_slots.2.2.1] at hattr
  cases hattr

theorem textVolume_isDir {d : ℕ} (hd : IsDir textVolume 16 d) : d = 2 := by
  induction hd with
  | root => rfl
  | sub hd hx ih => exact absurd (ih ▸ hx) textVolume_not_subdirOf

theorem textVolume_file : (Holder.file sampleEntry).On textVolume 16 := by
  obtain ⟨hslots, hmem, hattr, -⟩ := textVolume_slots
  refine ⟨2, .root, (entryOf_iff textVolume_chains.1).mpr ⟨?_, ?_⟩, ?_, ?_⟩
  · rw [hslots]
    exact List.mem_cons_self
  · rw [hmem]
    simp [deleted]
  · rw [hattr]
    simp [kDirectory]
  · rw [hattr]
    simp [kLongName]

theorem textVolume_owns : Owns textVolume 16 sampleEntry [3] :=
  .inr ⟨textVolume_chains.2, by rw [textVolume_slots.2.2.2.1]; rfl⟩

theorem textVolume_chain {h : Holder} (hon : h.On textVolume 16) :
    h = .directory 2 ∧ h.Chain textVolume 16 [2] ∨
      h = .file sampleEntry ∧ h.Chain textVolume 16 [3] := by
  cases h with
  | directory d =>
      obtain rfl := textVolume_isDir hon
      exact .inl ⟨rfl, textVolume_chains.1, rfl⟩
  | file x =>
      obtain ⟨d, hd, hx⟩ := hon
      obtain rfl := textVolume_isDir hd
      obtain rfl := textVolume_entryOf hx.toEntryOf
      exact .inr ⟨rfl, textVolume_owns⟩

theorem textVolume_intact : Intact textVolume 16 where
  geometry := textVolume_geometry
  entries := by decide
  linked := fun hon ↦ by
    rcases textVolume_chain hon with ⟨-, hchain⟩ | ⟨-, hchain⟩
    · exact ⟨_, hchain⟩
    · exact ⟨_, hchain⟩
  capacity := fun {x chain} hon hchain ↦ by
    rcases textVolume_chain hon with ⟨heq, -⟩ | ⟨heq, -⟩
    · cases heq
    · obtain rfl := Holder.file.inj heq
      obtain rfl := Owns.unique hchain textVolume_owns
      rw [textVolume_slots.2.2.2.2.1]
      decide
  disjoint := fun {g g' l l'} hon hon' hne hchain hchain' ↦ by
    rcases textVolume_chain hon with ⟨rfl, h⟩ | ⟨rfl, h⟩ <;>
      rcases textVolume_chain hon' with ⟨rfl, h'⟩ | ⟨rfl, h'⟩
    · exact absurd rfl hne
    · rw [hchain.unique h, hchain'.unique h']
      decide
    · rw [hchain.unique h, hchain'.unique h']
      decide
    · exact absurd rfl hne
  notRoot := fun hd hx ↦ absurd (textVolume_isDir hd ▸ hx) textVolume_not_subdirOf
  named := fun hd hx ↦ absurd (textVolume_isDir hd ▸ hx) textVolume_not_subdirOf
  clear := fun {d tail} hd htail ↦ by
    obtain rfl := textVolume_isDir hd
    obtain rfl := (List.cons.inj (htail.unique textVolume_chains.1 rfl)).2
    exact textVolume_slots.2.2.2.2.2

theorem noteVolume_created :
    textVolume.createFile 16 14 bPath.bytes = some (.ok noteEntry, noteVolume) := by
  obtain ⟨⟨r, v'⟩, hcreate, hr⟩ := Option.map_eq_some_iff.mp textVolume_values.2.2.2.2
  rw [noteVolume, hcreate]
  cases r with
  | error e => cases hr
  | ok e =>
      obtain rfl := Option.some.inj hr
      rfl

/-- The descriptor of `A.TXT` at its end. -/
def readerAtEnd : FileDescriptor :=
  { fatEntry := sampleEntry, rdOff := 3, rdCluster := 3, rdClusterOff := 3 }

theorem noteVolume_values :
    (isEndOfClusterchain (noteVolume.fatEntry 2) = true ∧
      isEndOfClusterchain (noteVolume.fatEntry 3) = true) ∧
    (noteVolume.rootCluster = 2 ∧
      (noteVolume.slots [2]).takeWhile (fun a ↦ decide (noteVolume.mem a ≠ 0)) =
        [sampleEntry, noteEntry] ∧
      noteVolume.mem noteEntry = 0x42 ∧ noteVolume.entryAttr noteEntry = 0 ∧
      noteVolume.firstCluster sampleEntry = 3 ∧ noteVolume.fileSize sampleEntry = 3 ∧
      3 ≤ noteVolume.bytesPerCluster ∧ content noteVolume sampleEntry [3] = [97, 98, 99]) ∧
    ((noteVolume.write 14 (.fresh noteEntry) [98]).isSome ∧
      (noteVolume.write 14 (.fresh noteEntry) [97, 98, 99]).isSome) ∧
    noteVolume.read (.fresh sampleEntry) 3 = some ([97, 98, 99], readerAtEnd) ∧
    noteVolume.read readerAtEnd 1 = some ([], readerAtEnd) ∧
    noteVolume.findFile 16 shortName.bytes 0 = some (some sampleEntry, false) := by
  decide +kernel

theorem noteVolume_chains : FileChain noteVolume 16 [2] ∧ FileChain noteVolume 16 [3] :=
  ⟨⟨noteVolume_values.1.1, by simp⟩, ⟨noteVolume_values.1.2, by simp⟩⟩

theorem noteVolume_file : (Holder.file noteEntry).On noteVolume 16 := by
  obtain ⟨hroot, hslots, hmem, hattr, -⟩ := noteVolume_values.2.1
  refine ⟨2, hroot ▸ .root, (entryOf_iff noteVolume_chains.1).mpr ⟨?_, ?_⟩, ?_, ?_⟩
  · rw [hslots]
    exact List.mem_cons_of_mem _ List.mem_cons_self
  · rw [hmem]
    simp [deleted]
  · rw [hattr]
    simp [kDirectory]
  · rw [hattr]
    simp [kLongName]

theorem noteVolume_owns : Owns noteVolume 16 sampleEntry [3] :=
  .inr ⟨noteVolume_chains.2, by rw [noteVolume_values.2.1.2.2.2.2.1]; rfl⟩

attribute [irreducible] noteVolume

namespace Disk

/-- Both files are open. -/
def noteDisk : Disk :=
  ((booted textVolume).setFile textVolume 0 (.fresh sampleEntry)).setFile noteVolume 1 (.fresh noteEntry)

theorem noteDisk_run :
    Transition.Run (Transition.Guarded (fun t op ↦ t.FilesOnly op ∧ t.ShortNames 16 op) (Step 16))
      (booted textVolume) [.openFile 0 shortName false, .openFile 1 bPath true] noteDisk := by
  obtain ⟨-, -, hfind, hnone, -⟩ := textVolume_values
  have hopen : textVolume.openFile 16 false shortName.bytes =
      some (.ok (some sampleEntry), textVolume) := by
    rw [Volume.openFile, if_neg (by decide), hfind]
    rfl
  have hcreate : textVolume.openFile 16 true bPath.bytes =
      some (.ok (some noteEntry), noteVolume) := by
    rw [Volume.openFile, if_neg (by decide), hnone]
    dsimp only [Option.bind_some]
    rw [if_pos rfl, noteVolume_created]
    rfl
  have hfirst : (booted textVolume).step 16 (.openFile 0 shortName false) =
      some ((booted textVolume).setFile textVolume 0 (.fresh sampleEntry)) := by
    rw [step]
    change (textVolume.openFile 16 false shortName.bytes).map _ = _
    rw [hopen]
    rfl
  have hsecond : ((booted textVolume).setFile textVolume 0 (.fresh sampleEntry)).step 16
      (.openFile 1 bPath true) = some noteDisk := by
    rw [step]
    change (textVolume.openFile 16 true bPath.bytes).map _ = _
    rw [hcreate]
    rfl
  have hlive : Live shortName.bytes ∧ Live bPath.bytes := by decide
  refine .snoc (.single ⟨⟨hlive.1, .inl ⟨_, _, hfind⟩⟩, hfirst⟩) ⟨⟨hlive.2, .inr ?_⟩, hsecond⟩
  decide

theorem textDisk_sound : (booted textVolume).Sound 16 :=
  ⟨textVolume_intact, fun hfd ↦ by cases hfd⟩

theorem noteDisk_sound : noteDisk.Sound 16 :=
  (textDisk_sound.run (noteDisk_run.mono fun _ _ _ h ↦ ⟨h.1.1, h.2⟩)).1

theorem noteDisk_write (buf : List UInt8) (h : (noteVolume.write 14 (.fresh noteEntry) buf).isSome) :
    ∃ s, Transition.Run (Transition.Guarded
      (fun t op ↦ t.FilesOnly op ∧ t.written op ≠ some sampleEntry) (Step 16)) noteDisk
      [.write 1 buf] s := by
  obtain ⟨r, hwrite⟩ := Option.isSome_iff_exists.mp h
  refine ⟨noteDisk.setFile r.1 1 r.2, .single ⟨⟨?_, ?_⟩, ?_⟩⟩
  · rintro fd hfd
    obtain rfl := Option.some.inj hfd
    change noteVolume.entryAttr noteEntry ≠ _ ∧ noteVolume.entryAttr noteEntry ≠ _
    rw [noteVolume_values.2.1.2.2.2.1]
    simp [kDirectory, kLongName]
  · change some noteEntry ≠ some sampleEntry
    decide
  · change (noteVolume.write 14 (.fresh noteEntry) buf).map _ = _
    rw [hwrite]
    rfl

theorem noteDisk_file : (Holder.file sampleEntry).On noteDisk.volume 16 :=
  (textDisk_sound.run (noteDisk_run.mono fun _ _ _ h ↦ ⟨h.1.1, h.2⟩)).2.on textVolume_file

end Disk

end Fat
end MinOS
