import Mathlib.Data.List.Basic
import Mathlib.Tactic

/-!
# Sixty-four bit memory read by words

Memory as a function from 64-bit addresses to bytes.  Addresses wrap, so two
blocks are compared by the distances between their starts, and whatever has a
known offset from one start needs no bound on the start itself.
-/

namespace MinOS
namespace WordMemory

abbrev Word := BitVec 64

abbrev Memory := Word → BitVec 8

/-- The little-endian word at an address. -/
def readWord (mem : Memory) (a : Word) : Word :=
  mem (a + 7) ++ mem (a + 6) ++ mem (a + 5) ++ mem (a + 4) ++
    mem (a + 3) ++ mem (a + 2) ++ mem (a + 1) ++ mem a

def writeWord (mem : Memory) (a v : Word) : Memory :=
  fun x ↦ if (x - a).toNat < 8 then v.extractLsb' (8 * (x - a).toNat) 8 else mem x

def readWords (mem : Memory) (a : Word) : ℕ → List Word
  | 0 => []
  | n + 1 => readWord mem a :: readWords mem (a + 8) n

def writeWords (mem : Memory) (a : Word) : List Word → Memory
  | [] => mem
  | w :: ws => writeWords (writeWord mem a w) (a + 8) ws

def memcpy (mem : Memory) (dst src : Word) (n : ℕ) : Memory :=
  fun x ↦ if (x - dst).toNat < n then mem (src + (x - dst)) else mem x

/-- No byte of the first block lies in the second. -/
def Apart (a : Word) (n : ℕ) (b : Word) (k : ℕ) : Prop :=
  n ≤ (b - a).toNat ∧ k ≤ (a - b).toNat

instance (a : Word) (n : ℕ) (b : Word) (k : ℕ) : Decidable (Apart a n b k) :=
  inferInstanceAs (Decidable (_ ∧ _))

/-- The two memories have the same bytes in a block. -/
def Agrees (mem mem' : Memory) (a : Word) (n : ℕ) : Prop :=
  ∀ x : Word, (x - a).toNat < n → mem' x = mem x

/-- The words that memory has from an address on. -/
def Holds (mem : Memory) (a : Word) : List Word → Prop
  | [] => True
  | w :: ws => readWord mem a = w ∧ Holds mem (a + 8) ws

theorem Apart.symm {a b : Word} {n k : ℕ} (h : Apart a n b k) : Apart b k a n :=
  And.symm h

/-- How far the bytes of a block are behind the start of one apart from it. -/
theorem Apart.far {a b x : Word} {n k : ℕ} (h : Apart a n b k) (hx : (x - b).toNat < k) :
    n ≤ (x - a).toNat := by
  obtain ⟨hab, hba⟩ := h
  bv_omega

theorem le_toNat_sub {d : Word} {p q : ℕ} (h : p + q ≤ d.toNat) :
    p ≤ (d - BitVec.ofNat 64 q).toNat := by
  bv_omega

/-! ## One word -/

theorem writeWord_add (mem : Memory) (a v : Word) {k : ℕ} (hk : k < 8) :
    writeWord mem a v (a + BitVec.ofNat 64 k) = v.extractLsb' (8 * k) 8 := by
  have hoff : (a + BitVec.ofNat 64 k - a).toNat = k := by bv_omega
  simp only [writeWord, hoff, hk, if_true]

theorem append_bytes (v : Word) :
    v.extractLsb' 56 8 ++ v.extractLsb' 48 8 ++ v.extractLsb' 40 8 ++ v.extractLsb' 32 8 ++
      v.extractLsb' 24 8 ++ v.extractLsb' 16 8 ++ v.extractLsb' 8 8 ++ v.extractLsb' 0 8 = v := by
  rw [BitVec.extractLsb'_append_extractLsb'_eq_extractLsb' (show 56 = 48 + 8 from rfl),
    BitVec.extractLsb'_append_extractLsb'_eq_extractLsb' (show 48 = 40 + 8 from rfl),
    BitVec.extractLsb'_append_extractLsb'_eq_extractLsb' (show 40 = 32 + 8 from rfl),
    BitVec.extractLsb'_append_extractLsb'_eq_extractLsb' (show 32 = 24 + 8 from rfl),
    BitVec.extractLsb'_append_extractLsb'_eq_extractLsb' (show 24 = 16 + 8 from rfl),
    BitVec.extractLsb'_append_extractLsb'_eq_extractLsb' (show 16 = 8 + 8 from rfl),
    BitVec.extractLsb'_append_extractLsb'_eq_extractLsb' (show 8 = 0 + 8 from rfl)]
  exact BitVec.extractLsb'_eq_self

@[simp] theorem readWord_writeWord (mem : Memory) (a v : Word) :
    readWord (writeWord mem a v) a = v := by
  have hfirst : writeWord mem a v a = v.extractLsb' 0 8 := by
    simpa using writeWord_add mem a v (show 0 < 8 by omega)
  calc readWord (writeWord mem a v) a
      = v.extractLsb' 56 8 ++ v.extractLsb' 48 8 ++ v.extractLsb' 40 8 ++ v.extractLsb' 32 8 ++
          v.extractLsb' 24 8 ++ v.extractLsb' 16 8 ++ v.extractLsb' 8 8 ++
          v.extractLsb' 0 8 := by
        rw [readWord, hfirst]
        exact congrArg₂ _ (congrArg₂ _ (congrArg₂ _ (congrArg₂ _ (congrArg₂ _ (congrArg₂ _
          (congrArg₂ _ (writeWord_add mem a v (show 7 < 8 by omega))
            (writeWord_add mem a v (show 6 < 8 by omega)))
          (writeWord_add mem a v (show 5 < 8 by omega)))
          (writeWord_add mem a v (show 4 < 8 by omega)))
          (writeWord_add mem a v (show 3 < 8 by omega)))
          (writeWord_add mem a v (show 2 < 8 by omega)))
          (writeWord_add mem a v (show 1 < 8 by omega))) rfl
    _ = v := append_bytes v

/-! ## What a write leaves alone -/

theorem writeWord_of_far {mem : Memory} {a v x : Word} (h : 8 ≤ (x - a).toNat) :
    writeWord mem a v x = mem x := by
  have hfar : ¬ (x - a).toNat < 8 := by omega
  simp only [writeWord, hfar, if_false]

theorem writeWords_of_far {mem : Memory} {a x : Word} {ws : List Word}
    (h : 8 * ws.length ≤ (x - a).toNat) : writeWords mem a ws x = mem x := by
  induction ws generalizing mem a with
  | nil => rfl
  | cons w ws ih =>
      simp only [List.length_cons] at h
      have hrest : 8 * ws.length ≤ (x - (a + 8)).toNat := by bv_omega
      rw [writeWords, ih hrest, writeWord_of_far (by omega)]

namespace Agrees

variable {mem mem' mem'' : Memory} {a b : Word} {n m : ℕ}

theorem refl (mem : Memory) (a : Word) (n : ℕ) : Agrees mem mem a n := fun _ _ ↦ rfl

theorem trans (h : Agrees mem mem' a n) (h' : Agrees mem' mem'' a n) : Agrees mem mem'' a n :=
  fun x hx ↦ (h' x hx).trans (h x hx)

theorem sub {o : ℕ} (h : Agrees mem mem' a n) (ho : o + m ≤ n) (hn : n ≤ 2 ^ 64) :
    Agrees mem mem' (a + BitVec.ofNat 64 o) m := by
  intro x hx
  apply h
  bv_omega

theorem readWord_eq {d : Word} (h : Agrees mem mem' a n) (hd : d.toNat + 8 ≤ n)
    (hn : n ≤ 2 ^ 64) : readWord mem' (a + d) = readWord mem (a + d) := by
  have hbyte (k : Word) (hk : k.toNat < 8) : mem' (a + d + k) = mem (a + d + k) := by
    apply h
    bv_omega
  have hfirst : mem' (a + d) = mem (a + d) := by
    simpa using hbyte 0 (by decide)
  simp only [readWord, hfirst, hbyte 1 (by decide), hbyte 2 (by decide), hbyte 3 (by decide),
    hbyte 4 (by decide), hbyte 5 (by decide), hbyte 6 (by decide), hbyte 7 (by decide)]

theorem readWord_first (h : Agrees mem mem' a n) (hn : 8 ≤ n) (hn' : n ≤ 2 ^ 64) :
    readWord mem' a = readWord mem a := by
  simpa using h.readWord_eq (show (0 : Word).toNat + 8 ≤ n by simpa using hn) hn'

theorem writeWord {v : Word} (h : Apart a 8 b n) : Agrees mem (writeWord mem a v) b n :=
  fun _ hx ↦ writeWord_of_far (h.far hx)

theorem writeWords {ws : List Word} (h : Apart a (8 * ws.length) b n) :
    Agrees mem (writeWords mem a ws) b n :=
  fun _ hx ↦ writeWords_of_far (h.far hx)

theorem memcpy {src : Word} {k : ℕ} (h : Apart a k b n) :
    Agrees mem (memcpy mem a src k) b n := by
  intro x hx
  have hfar : ¬ (x - a).toNat < k := Nat.not_lt.mpr (h.far hx)
  simp only [WordMemory.memcpy, hfar, if_false]

end Agrees

/-! ## Blocks of words -/

variable {mem mem' : Memory} {a : Word}

@[simp] theorem length_readWords (mem : Memory) (a : Word) (n : ℕ) :
    (readWords mem a n).length = n := by
  induction n generalizing a with
  | zero => rfl
  | succ n ih => simp [readWords, ih]

theorem readWords_congr {mem mem' : Memory} {n : ℕ} : ∀ {a a' : Word},
    (∀ i < n, readWord mem' (a' + BitVec.ofNat 64 (8 * i)) =
      readWord mem (a + BitVec.ofNat 64 (8 * i))) → readWords mem' a' n = readWords mem a n := by
  induction n with
  | zero => exact fun _ ↦ rfl
  | succ n ih =>
      intro a a' h
      have hfirst : readWord mem' a' = readWord mem a := by simpa using h 0 (Nat.succ_pos n)
      rw [readWords, readWords, hfirst, ih fun i hi ↦ ?_]
      have hnext := h (i + 1) (by omega)
      have hstep : ∀ c : Word, c + BitVec.ofNat 64 (8 * (i + 1)) = c + 8 + BitVec.ofNat 64 (8 * i) := by
        intro c
        bv_omega
      rwa [hstep, hstep] at hnext

theorem holds_iff {ws : List Word} : Holds mem a ws ↔ readWords mem a ws.length = ws := by
  induction ws generalizing a with
  | nil => simp [Holds, readWords]
  | cons w ws ih => simp [Holds, readWords, ih]

theorem holds_readWords (mem : Memory) (a : Word) (n : ℕ) : Holds mem a (readWords mem a n) := by
  rw [holds_iff, length_readWords]

theorem readWord_memcpy {dst src : Word} {n o : ℕ} (ho : o + 8 ≤ n) (hn : n ≤ 2 ^ 64) :
    readWord (memcpy mem dst src n) (dst + BitVec.ofNat 64 o) =
      readWord mem (src + BitVec.ofNat 64 o) := by
  have hbyte (k : Word) (hk : k.toNat < 8) :
      memcpy mem dst src n (dst + BitVec.ofNat 64 o + k) =
        mem (src + BitVec.ofNat 64 o + k) := by
    have hoff : dst + BitVec.ofNat 64 o + k - dst = BitVec.ofNat 64 o + k := by bv_omega
    have hlt : (BitVec.ofNat 64 o + k).toNat < n := by bv_omega
    rw [memcpy, hoff, if_pos hlt, BitVec.add_assoc]
  have hfirst : memcpy mem dst src n (dst + BitVec.ofNat 64 o) =
      mem (src + BitVec.ofNat 64 o) := by
    simpa using hbyte 0 (by decide)
  simp only [readWord, hfirst, hbyte 1 (by decide), hbyte 2 (by decide), hbyte 3 (by decide),
    hbyte 4 (by decide), hbyte 5 (by decide), hbyte 6 (by decide), hbyte 7 (by decide)]

namespace Holds

theorem getElem? {ws : List Word} {i : ℕ} {w : Word} (h : Holds mem a ws) (hi : ws[i]? = some w) :
    readWord mem (a + BitVec.ofNat 64 (8 * i)) = w := by
  induction ws generalizing a i with
  | nil => simp at hi
  | cons v ws ih =>
      obtain ⟨hfirst, hrest⟩ := h
      cases i with
      | zero =>
          simp only [List.getElem?_cons_zero, Option.some.injEq] at hi
          simpa [← hi] using hfirst
      | succ i =>
          have hstep : a + BitVec.ofNat 64 (8 * (i + 1)) = a + 8 + BitVec.ofNat 64 (8 * i) := by
            bv_omega
          rw [hstep]
          exact ih hrest (by simpa using hi)

theorem append_iff {ws vs : List Word} :
    Holds mem a (ws ++ vs) ↔
      Holds mem a ws ∧ Holds mem (a + BitVec.ofNat 64 (8 * ws.length)) vs := by
  induction ws generalizing a with
  | nil => simp [Holds]
  | cons w ws ih =>
      have hstep : a + BitVec.ofNat 64 (8 * (w :: ws).length) =
          a + 8 + BitVec.ofNat 64 (8 * ws.length) := by
        rw [List.length_cons]
        bv_omega
      rw [List.cons_append, Holds, Holds, ih, hstep, and_assoc]

theorem congr {ws : List Word} (h : Holds mem a ws) (hlen : 8 * ws.length ≤ 2 ^ 64)
    (hagree : Agrees mem mem' a (8 * ws.length)) : Holds mem' a ws := by
  induction ws generalizing a with
  | nil => trivial
  | cons w ws ih =>
      simp only [List.length_cons] at hlen hagree
      have hfirst : readWord mem' a = readWord mem a :=
        hagree.readWord_first (by omega) hlen
      have hrest : Agrees mem mem' (a + 8) (8 * ws.length) :=
        hagree.sub (show 8 + 8 * ws.length ≤ _ by omega) hlen
      exact ⟨hfirst.trans h.1, ih h.2 (by omega) hrest⟩

theorem push {ws : List Word} {v : Word} (h : Holds mem a ws)
    (hlen : 8 * (ws.length + 1) ≤ 2 ^ 64) : Holds (writeWord mem (a - 8) v) (a - 8) (v :: ws) := by
  refine ⟨readWord_writeWord _ _ _, ?_⟩
  rw [BitVec.sub_add_cancel]
  exact h.congr (by omega) (.writeWord ⟨by bv_omega, by bv_omega⟩)

theorem writeWords {ws : List Word} (hlen : 8 * ws.length ≤ 2 ^ 64) :
    Holds (writeWords mem a ws) a ws := by
  induction ws generalizing mem a with
  | nil => trivial
  | cons w ws ih =>
      simp only [List.length_cons] at hlen
      have hfirst : Agrees (writeWord mem a w)
          (WordMemory.writeWords (writeWord mem a w) (a + 8) ws) a 8 := by
        intro x hx
        exact writeWords_of_far (by bv_omega)
      refine ⟨?_, ih (by omega)⟩
      exact (hfirst.readWord_first le_rfl (by omega)).trans (readWord_writeWord _ _ _)

theorem pushWords {ws vs : List Word} (h : Holds mem a vs)
    (hlen : 8 * (ws.length + vs.length) ≤ 2 ^ 64) :
    Holds (WordMemory.writeWords mem (a - BitVec.ofNat 64 (8 * ws.length)) ws)
      (a - BitVec.ofNat 64 (8 * ws.length)) (ws ++ vs) := by
  rw [append_iff, BitVec.sub_add_cancel]
  refine ⟨writeWords (by omega), h.congr (by omega) ?_⟩
  intro x hx
  exact writeWords_of_far (by bv_omega)

theorem set {ws : List Word} {i : ℕ} {v : Word} (h : Holds mem a ws) (hi : i < ws.length)
    (hlen : 8 * ws.length ≤ 2 ^ 64) :
    Holds (writeWord mem (a + BitVec.ofNat 64 (8 * i)) v) a (ws.set i v) := by
  induction ws generalizing a i with
  | nil => simp at hi
  | cons w ws ih =>
      obtain ⟨hfirst, hrest⟩ := h
      simp only [List.length_cons] at hi hlen
      cases i with
      | zero =>
          rw [show a + BitVec.ofNat 64 (8 * 0) = a by simp]
          refine ⟨readWord_writeWord _ _ _, hrest.congr (by omega) (.writeWord ?_)⟩
          constructor <;> bv_omega
      | succ i =>
          have hstep : a + BitVec.ofNat 64 (8 * (i + 1)) = a + 8 + BitVec.ofNat 64 (8 * i) := by
            bv_omega
          rw [hstep]
          refine ⟨?_, ih hrest (by omega) (by omega)⟩
          have hkeep : Agrees mem (writeWord mem (a + 8 + BitVec.ofNat 64 (8 * i)) v) a 8 :=
            .writeWord (by constructor <;> bv_omega)
          exact (hkeep.readWord_first le_rfl (by omega)).trans hfirst

theorem memcpy {ws : List Word} {dst src : Word} {n : ℕ} (h : Holds mem src ws)
    (hlen : 8 * ws.length ≤ n) (hn : n ≤ 2 ^ 64) : Holds (memcpy mem dst src n) dst ws := by
  suffices hoff : ∀ o : ℕ, o + 8 * ws.length ≤ n → Holds mem (src + BitVec.ofNat 64 o) ws →
      Holds (WordMemory.memcpy mem dst src n) (dst + BitVec.ofNat 64 o) ws by
    simpa using hoff 0 (by omega) (by simpa using h)
  clear h hlen
  intro o
  induction ws generalizing o with
  | nil => exact fun _ _ ↦ trivial
  | cons w ws ih =>
      intro hlen h
      obtain ⟨hfirst, hrest⟩ := h
      simp only [List.length_cons] at hlen
      have hstep (b : Word) : b + BitVec.ofNat 64 o + 8 = b + BitVec.ofNat 64 (o + 8) := by
        bv_omega
      refine ⟨(readWord_memcpy (by omega) hn).trans hfirst, ?_⟩
      rw [hstep] at hrest ⊢
      exact ih (o + 8) (by omega) hrest

end Holds

end WordMemory
end MinOS
