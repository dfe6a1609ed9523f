import MinOS.Fat.Descriptor

/-!
# The bound on the searches

The loops of the driver that walk a chain or search the table carry a bound on
their steps.  A loop that ends within one bound ends in the same way within any
larger one.
-/

namespace MinOS
namespace Fat
namespace Volume

theorem chainEnd_mono {v : Volume} {fuel fuel' c r : ℕ} (hle : fuel ≤ fuel')
    (h : v.chainEnd fuel c = some r) : v.chainEnd fuel' c = some r := by
  induction fuel generalizing fuel' c with
  | zero => simp [chainEnd] at h
  | succ fuel ih =>
      obtain ⟨fuel', rfl⟩ : ∃ k, fuel' = k + 1 := ⟨fuel' - 1, by omega⟩
      rw [chainEnd] at h ⊢
      split_ifs at h ⊢ with hend
      · exact h
      · exact ih (by omega) h

theorem linkFree_mono {v : Volume} {fuel fuel' candidate current n : ℕ} {r : ℕ × Volume}
    (hle : fuel ≤ fuel') (h : v.linkFree fuel candidate current n = some r) :
    v.linkFree fuel' candidate current n = some r := by
  induction fuel generalizing v fuel' candidate current n with
  | zero =>
      cases n with
      | zero =>
          rw [linkFree] at h ⊢
          exact h
      | succ n => simp [linkFree] at h
  | succ fuel ih =>
      obtain ⟨fuel', rfl⟩ : ∃ k, fuel' = k + 1 := ⟨fuel' - 1, by omega⟩
      cases n with
      | zero =>
          rw [linkFree] at h ⊢
          exact h
      | succ n =>
          rw [linkFree] at h ⊢
          split_ifs at h ⊢ with hfree
          · exact ih (by omega) h
          · exact ih (by omega) h

theorem findFree_mono {v : Volume} {fuel fuel' c r : ℕ} (hle : fuel ≤ fuel')
    (h : v.findFree fuel c = some r) : v.findFree fuel' c = some r := by
  induction fuel generalizing fuel' c with
  | zero => simp [findFree] at h
  | succ fuel ih =>
      obtain ⟨fuel', rfl⟩ : ∃ k, fuel' = k + 1 := ⟨fuel' - 1, by omega⟩
      rw [findFree] at h ⊢
      split_ifs at h ⊢ with hfree
      · exact h
      · exact ih (by omega) h

theorem extendCluster_mono {v : Volume} {fuel fuel' c n : ℕ} {r : ℕ × Volume} (hle : fuel ≤ fuel')
    (h : v.extendCluster fuel c n = some r) : v.extendCluster fuel' c n = some r := by
  rw [extendCluster, Option.bind_eq_bind, Option.bind_eq_some_iff] at h
  obtain ⟨last, hend, hlink⟩ := h
  rw [extendCluster, Option.bind_eq_bind, Option.bind_eq_some_iff]
  exact ⟨last, chainEnd_mono (by omega) hend, linkFree_mono hle hlink⟩

theorem allocateClusterChain_mono {v : Volume} {fuel fuel' n : ℕ} {r : ℕ × Volume}
    (hle : fuel ≤ fuel') (h : v.allocateClusterChain fuel n = some r) :
    v.allocateClusterChain fuel' n = some r := by
  rw [allocateClusterChain, Option.bind_eq_bind, Option.bind_eq_some_iff] at h
  obtain ⟨first, hfind, h⟩ := h
  rw [allocateClusterChain, Option.bind_eq_bind, Option.bind_eq_some_iff]
  refine ⟨first, findFree_mono hle hfind, ?_⟩
  dsimp only at h ⊢
  split_ifs at h ⊢ with hn
  · rw [Option.bind_eq_bind, Option.bind_eq_some_iff] at h ⊢
    obtain ⟨ext, hext, hres⟩ := h
    exact ⟨ext, extendCluster_mono hle hext, hres⟩
  · exact h

theorem advance_mono {v : Volume} {fuel fuel' c off len : ℕ} {r : Volume × ℕ × ℕ}
    (hle : fuel ≤ fuel') (h : v.advance fuel c off len = some r) :
    v.advance fuel' c off len = some r := by
  simp only [advance] at h ⊢
  split_ifs at h ⊢ with hfull hend
  · rw [Option.bind_eq_bind, Option.bind_eq_some_iff] at h ⊢
    obtain ⟨ext, hext, hres⟩ := h
    exact ⟨ext, extendCluster_mono hle hext, hres⟩
  · exact h
  · exact h

theorem writeLoop_mono {v : Volume} {fuel fuel' turns c off : ℕ} {bytes : List UInt8}
    {r : Volume × ℕ × ℕ} (hle : fuel ≤ fuel') (h : writeLoop fuel turns v c off bytes = some r) :
    writeLoop fuel' turns v c off bytes = some r := by
  induction turns generalizing v c off bytes with
  | zero =>
      cases bytes with
      | nil =>
          rw [writeLoop] at h ⊢
          exact h
      | cons b bytes => simp [writeLoop] at h
  | succ turns ih =>
      cases bytes with
      | nil =>
          rw [writeLoop] at h ⊢
          exact h
      | cons b bytes =>
          rw [writeLoop, Option.bind_eq_bind, Option.bind_eq_some_iff] at h ⊢
          obtain ⟨turn, hturn, hrest⟩ := h
          refine ⟨turn, ?_, ih hrest⟩
          rw [writeTurn, Option.bind_eq_bind, Option.bind_eq_some_iff] at hturn ⊢
          obtain ⟨pos, hadv, hres⟩ := hturn
          exact ⟨pos, advance_mono hle hadv, hres⟩

theorem writeStart_mono {v : Volume} {fuel fuel' len : ℕ} {fd : FileDescriptor} {r : Volume × ℕ}
    (hle : fuel ≤ fuel') (h : v.writeStart fuel fd len = some r) :
    v.writeStart fuel' fd len = some r := by
  rw [writeStart] at h ⊢
  split_ifs at h ⊢ with hzero hfirst
  · exact h
  · rw [Option.bind_eq_bind, Option.bind_eq_some_iff] at h ⊢
    obtain ⟨alloc, halloc, hres⟩ := h
    exact ⟨alloc, allocateClusterChain_mono hle halloc, hres⟩
  · exact h

theorem write_mono {v : Volume} {fuel fuel' : ℕ} {fd : FileDescriptor} {buf : List UInt8}
    {r : Volume × FileDescriptor} (hle : fuel ≤ fuel') (h : v.write fuel fd buf = some r) :
    v.write fuel' fd buf = some r := by
  rw [write, Option.bind_eq_bind, Option.bind_eq_some_iff] at h ⊢
  obtain ⟨start, hstart, h⟩ := h
  refine ⟨start, writeStart_mono hle hstart, ?_⟩
  rw [Option.bind_eq_bind, Option.bind_eq_some_iff] at h ⊢
  obtain ⟨last, hloop, hres⟩ := h
  exact ⟨last, writeLoop_mono hle hloop, hres⟩

end Volume
end Fat
end MinOS
