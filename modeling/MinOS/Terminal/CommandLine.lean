import MinOS.Library.FirstMark
import Mathlib.Data.BitVec

/-!
# The parts of a command line

`ExecuteLine` looks for the first space, the first `>` and the first `|` of the line, and
then writes a terminator over one after another.  What it reads behind one of
them ends at the terminators that are written by then.
-/

namespace MinOS
namespace CommandLine

/-- `isspace`. -/
def isspace (c : BitVec 8) : Bool := c = 0x20 || (9 ≤ c && c ≤ 13)

/-- The string at an address of the line.  A line that ends reads like one with a
terminator. -/
def cstr (line : List (BitVec 8)) (p : ℕ) : List (BitVec 8) := (line.drop p).takeWhile (· ≠ 0)

/-- `strchr(&line[0], c)`. -/
def strchr (line : List (BitVec 8)) (c : BitVec 8) : Option ℕ := (cstr line 0).idxOf? c

/-- The address behind the whitespace at `p`. -/
def skipSpace (line : List (BitVec 8)) (p : ℕ) : ℕ := p + ((line.drop p).takeWhile isspace).length

/-- A terminator is written where `strchr` has found its character. -/
def terminate (line : List (BitVec 8)) : Option ℕ → List (BitVec 8)
  | none => line
  | some i => line.set i 0

/-- What `ExecuteLine` goes on with: the word that it compares with its commands, their
argument, the path that it redirects to, and the line of the reader of the pipe. -/
structure Parsed where
  command : List (BitVec 8)
  firstArg : Option (List (BitVec 8))
  redirDest : Option (List (BitVec 8))
  subcommand : Option (List (BitVec 8))
  deriving DecidableEq

/-- The first half of `ExecuteLine`.  The path is used before the pipe is cut off, the other
strings are read at the end. -/
def parse (line : List (BitVec 8)) : Parsed :=
  let firstArg := strchr line 0x20
  let redirChar := strchr line 0x3e
  let pipeChar := strchr line 0x7c
  let line := terminate line firstArg
  let firstArg := firstArg.map fun i ↦ skipSpace line (i + 1)
  let line := terminate line redirChar
  let redirDest := redirChar.map fun i ↦ cstr line (skipSpace line (i + 1))
  let line := terminate line pipeChar
  let subcommand := pipeChar.map fun i ↦ skipSpace line (i + 1)
  { command := cstr line 0
    firstArg := firstArg.map (cstr line)
    redirDest := redirDest
    subcommand := subcommand.map (cstr line) }

/-! ## Strings in the line -/

theorem isspace_zero : isspace 0 = false := rfl

theorem ne_zero_of_isspace {b : BitVec 8} (h : isspace b) : b ≠ 0 := by
  rintro rfl
  exact Bool.false_ne_true h

theorem cstr_skipSpace (line : List (BitVec 8)) (p : ℕ) :
    cstr line (skipSpace line p) = (cstr line p).dropWhile isspace := by
  rw [cstr, cstr, skipSpace, ← List.drop_drop]
  generalize line.drop p = l
  induction l with
  | nil => rfl
  | cons b l ih =>
      by_cases hb : isspace b
      · rw [List.takeWhile_cons_of_pos hb, List.length_cons, List.drop_succ_cons, ih,
          List.takeWhile_cons_of_pos (by simpa using ne_zero_of_isspace hb),
          List.dropWhile_cons_of_pos hb]
      · rw [List.takeWhile_cons_of_neg hb, List.length_nil, List.drop_zero]
        by_cases hne : b = 0
        · rw [hne]
          rfl
        · rw [List.takeWhile_cons_of_pos (by simpa using hne), List.dropWhile_cons_of_neg hb]

/-- Where the whitespace ends does not change when a terminator is written on
another character. -/
theorem skipSpace_replace {c : BitVec 8} (hc : isspace c = false) (line : List (BitVec 8))
    (p : ℕ) : skipSpace (line.replace c 0) p = skipSpace line p := by
  rw [skipSpace, takeWhile_drop_replace hc isspace_zero, skipSpace]

theorem cstr_zero_of_notMem {L : List (BitVec 8)} (h : 0 ∉ L) : cstr L 0 = L := by
  rw [cstr, List.drop_zero]
  exact before_of_notMem h

theorem cstr_append {L rest : List (BitVec 8)} {p : ℕ} (hp : p ≤ L.length) :
    cstr (L ++ 0 :: rest) p = cstr L p := by
  rw [cstr, cstr, List.drop_append_of_le_length hp]
  induction L.drop p with
  | nil => rfl
  | cons b l ih => rw [List.cons_append, List.takeWhile_cons, List.takeWhile_cons, ih]

theorem skipSpace_append {L rest : List (BitVec 8)} {p : ℕ} (hp : p ≤ L.length) :
    skipSpace (L ++ 0 :: rest) p = skipSpace L p := by
  rw [skipSpace, skipSpace, List.drop_append_of_le_length hp]
  congr 2
  induction L.drop p with
  | nil => rfl
  | cons b l ih => rw [List.cons_append, List.takeWhile_cons, List.takeWhile_cons, ih]

theorem skipSpace_le {L : List (BitVec 8)} {p : ℕ} (hp : p ≤ L.length) :
    skipSpace L p ≤ L.length := by
  have hle := (List.takeWhile_sublist isspace (l := L.drop p)).length_le
  rw [List.length_drop] at hle
  rw [skipSpace]
  omega

theorem strchr_append (L rest : List (BitVec 8)) (c : BitVec 8) :
    strchr (L ++ 0 :: rest) c = strchr L c := by
  rw [strchr, strchr, cstr_append (Nat.zero_le _)]

theorem strchr_lt {L : List (BitVec 8)} {c : BitVec 8} {i : ℕ} (h : strchr L c = some i) :
    i < L.length := by
  have hlt := (List.idxOf?_eq_some_iff.mp h).1
  exact hlt.trans_le (List.takeWhile_sublist _).length_le

theorem length_terminate (L : List (BitVec 8)) (i : Option ℕ) :
    (terminate L i).length = L.length := by
  cases i with
  | none => rfl
  | some i => exact List.length_set

theorem terminate_append {L rest : List (BitVec 8)} {i : Option ℕ} (hi : ∀ k ∈ i, k < L.length) :
    terminate (L ++ 0 :: rest) i = terminate L i ++ 0 :: rest := by
  cases i with
  | none => rfl
  | some k => exact List.set_append_left _ _ (hi k rfl)

/-- What `ExecuteLine` derives depends on the line alone, not on what an earlier and longer
one has left behind it. -/
theorem parse_append (L rest : List (BitVec 8)) : parse (L ++ 0 :: rest) = parse L := by
  have hlt (c : BitVec 8) (M : List (BitVec 8)) (hM : M.length = L.length) :
      ∀ k ∈ strchr L c, k < M.length := fun k hk ↦ hM ▸ strchr_lt hk
  have h1 := length_terminate L (strchr L 0x20)
  have h2 := (length_terminate (terminate L (strchr L 0x20)) (strchr L 0x3e)).trans h1
  have h3 := (length_terminate (terminate (terminate L (strchr L 0x20)) (strchr L 0x3e))
    (strchr L 0x7c)).trans h2
  have hread (c : BitVec 8) {M N : List (BitVec 8)} (hM : M.length = L.length)
      (hN : N.length = L.length) :
      (strchr L c).map (fun i ↦ cstr (N ++ 0 :: rest) (skipSpace (M ++ 0 :: rest) (i + 1))) =
        (strchr L c).map fun i ↦ cstr N (skipSpace M (i + 1)) := by
    refine Option.map_congr fun i hi ↦ ?_
    have hle : i + 1 ≤ M.length := hlt c M hM i hi
    rw [skipSpace_append hle, cstr_append (hN.symm ▸ hM ▸ skipSpace_le hle)]
  simp only [parse, strchr_append, terminate_append (hlt _ _ rfl), terminate_append (hlt _ _ h1),
    terminate_append (hlt _ _ h2), cstr_append (Nat.zero_le _), Option.map_map]
  congr 1
  · exact hread _ h1 h3
  · exact hread _ h2 h2
  · exact hread _ h3 h3

/-! ## The line with its terminators -/

theorem idxOf?_replace {c d : BitVec 8} (hcd : c ≠ d) (hd : d ≠ 0) (l : List (BitVec 8)) :
    (l.replace c 0).idxOf? d = l.idxOf? d := by
  induction l with
  | nil => rfl
  | cons b l ih =>
      by_cases hb : b = c
      · rw [hb, List.replace_cons_self, List.idxOf?_cons, List.idxOf?_cons,
          beq_false_of_ne hd.symm, beq_false_of_ne hcd]
      · rw [replace_cons_of_ne hb, List.idxOf?_cons, List.idxOf?_cons, ih]

theorem terminate_idxOf? (l : List (BitVec 8)) (c : BitVec 8) :
    terminate l (l.idxOf? c) = l.replace c 0 := by
  induction l with
  | nil => rfl
  | cons b l ih =>
      by_cases hb : b = c
      · rw [hb, List.replace_cons_self, List.idxOf?_cons, beq_self_eq_true]
        rfl
      · rw [replace_cons_of_ne hb, List.idxOf?_cons, beq_false_of_ne hb, ← ih]
        cases l.idxOf? c <;> rfl

theorem strchr_eq {L : List (BitVec 8)} (h : 0 ∉ L) (c : BitVec 8) : strchr L c = L.idxOf? c := by
  rw [strchr, cstr_zero_of_notMem h]

/-- The line when the path behind `>` is read. -/
def redirected (L : List (BitVec 8)) : List (BitVec 8) := (L.replace 0x20 0).replace 0x3e 0

/-- The line when all else is read. -/
def terminated (L : List (BitVec 8)) : List (BitVec 8) := (redirected L).replace 0x7c 0

/-- The parts of a line, by what stands behind its marks. -/
theorem parse_eq {L : List (BitVec 8)} (h : 0 ∉ L) :
    parse L =
      { command := cstr (terminated L) 0
        firstArg := (L.idxOf? 0x20).map fun i ↦ (cstr (terminated L) (i + 1)).dropWhile isspace
        redirDest := (L.idxOf? 0x3e).map fun i ↦ (cstr (redirected L) (i + 1)).dropWhile isspace
        subcommand :=
          (L.idxOf? 0x7c).map fun i ↦ (cstr (terminated L) (i + 1)).dropWhile isspace } := by
  have h1 : (L.replace 0x20 0).idxOf? 0x3e = L.idxOf? 0x3e :=
    idxOf?_replace (by decide) (by decide) L
  have h2 : (redirected L).idxOf? 0x7c = L.idxOf? 0x7c :=
    (idxOf?_replace (by decide) (by decide) _).trans (idxOf?_replace (by decide) (by decide) L)
  have hskip (p : ℕ) : skipSpace (terminated L) p = skipSpace (L.replace 0x20 0) p :=
    (skipSpace_replace rfl _ p).trans (skipSpace_replace rfl _ p)
  have hredir : terminate (L.replace 0x20 0) (L.idxOf? 0x3e) = redirected L := by
    rw [← h1, terminate_idxOf?, redirected]
  have hpipe : terminate (redirected L) (L.idxOf? 0x7c) = terminated L := by
    rw [← h2, terminate_idxOf?, terminated]
  simp only [parse, strchr_eq h, terminate_idxOf? L, hredir, hpipe, Option.map_map]
  congr 1
  · exact Option.map_congr fun i _ ↦ by
      rw [Function.comp_apply, ← hskip, cstr_skipSpace]
  · exact Option.map_congr fun i _ ↦ cstr_skipSpace _ _
  · exact Option.map_congr fun i _ ↦ cstr_skipSpace _ _

/-! ## Strings behind a mark -/

/-- The characters that `ExecuteLine` takes for operators. -/
def isOperator (c : BitVec 8) : Bool := c = 0x7c || c = 0x3e

theorem notMem_operators {A : List (BitVec 8)} (h : ∀ b ∈ A, isOperator b = false) :
    0x3e ∉ A ∧ 0x7c ∉ A :=
  ⟨fun hmem ↦ Bool.false_ne_true (h _ hmem).symm, fun hmem ↦ Bool.false_ne_true (h _ hmem).symm⟩

theorem idxOf?_append_cons {c : BitVec 8} {A R : List (BitVec 8)} (hA : c ∉ A) :
    (A ++ c :: R).idxOf? c = some A.length := by
  induction A with
  | nil => rw [List.nil_append, List.idxOf?_cons, beq_self_eq_true]; rfl
  | cons b A ih =>
      have hb : b ≠ c := fun heq ↦ hA (heq ▸ List.mem_cons_self)
      rw [List.cons_append, List.idxOf?_cons, beq_false_of_ne hb,
        ih fun hmem ↦ hA (List.mem_cons_of_mem _ hmem)]
      rfl

theorem cstr_behind {P R : List (BitVec 8)} {n : ℕ} (hn : P.length = n) :
    cstr (P ++ 0 :: R) (n + 1) = R.takeWhile (· ≠ 0) := by
  rw [cstr, ← hn, List.drop_append, List.drop_of_length_le (Nat.le_succ _), Nat.add_sub_cancel_left]
  rfl

/-- The bytes that both terminators and all the marks leave alone. -/
theorem takeWhile_terminated (L : List (BitVec 8)) :
    (terminated L).takeWhile (· ≠ 0) =
      L.takeWhile fun b ↦ (((b ≠ 0 : Bool) && b ≠ 0x7c) && b ≠ 0x3e) && b ≠ 0x20 := by
  rw [terminated, takeWhile_replace (by decide), redirected, takeWhile_replace (by decide),
    takeWhile_replace (by decide)]

theorem ne_of_not_isOperator {b : BitVec 8} (h : isOperator b = false) : b ≠ 0x7c ∧ b ≠ 0x3e := by
  constructor <;> rintro rfl <;> exact Bool.false_ne_true h.symm

theorem isOperator_iff {b : BitVec 8} : isOperator b ↔ b = 0x7c ∨ b = 0x3e := by
  rw [isOperator, Bool.or_eq_true, decide_eq_true_eq, decide_eq_true_eq]

theorem parse_command {A R : List (BitVec 8)} {c : BitVec 8} (h : 0 ∉ A ++ c :: R)
    (hA : ∀ b ∈ A, isOperator b = false) (hspace : 0x20 ∉ A) (hc : c = 0x20 ∨ isOperator c) :
    (parse (A ++ c :: R)).command = A := by
  rw [parse_eq h, cstr, List.drop_zero, takeWhile_terminated, List.takeWhile_append_of_pos,
    List.takeWhile_cons_of_neg, List.append_nil]
  · rw [isOperator_iff] at hc
    rcases hc with rfl | rfl | rfl <;> decide
  · intro b hb
    have hne : b ≠ 0 := fun heq ↦ h (List.mem_append_left _ (heq ▸ hb))
    have hsp : b ≠ 0x20 := fun heq ↦ hspace (heq ▸ hb)
    obtain ⟨hbar, hgt⟩ := ne_of_not_isOperator (hA b hb)
    simp only [hne, hsp, hgt, hbar, ne_eq, not_false_eq_true, decide_true, Bool.and_self]

theorem parse_firstArg {A₁ A₂ B : List (BitVec 8)} {o : BitVec 8}
    (h : 0 ∉ A₁ ++ 0x20 :: (A₂ ++ o :: B)) (hspace : 0x20 ∉ A₁)
    (hA₁ : ∀ b ∈ A₁, isOperator b = false) (hA₂ : ∀ b ∈ A₂, isOperator b = false)
    (ho : isOperator o) :
    (parse (A₁ ++ 0x20 :: (A₂ ++ o :: B))).firstArg = some (A₂.dropWhile isspace) := by
  obtain ⟨h3e, h7c⟩ := notMem_operators hA₁
  have hline : terminated (A₁ ++ 0x20 :: (A₂ ++ o :: B)) =
      A₁ ++ 0 :: ((A₂ ++ o :: B).replace 0x3e 0).replace 0x7c 0 := by
    rw [terminated, redirected, List.replace_append_right hspace, List.replace_cons_self,
      List.replace_append_right h3e, replace_cons_of_ne (by decide),
      List.replace_append_right h7c, replace_cons_of_ne (by decide)]
  rw [parse_eq h, idxOf?_append_cons hspace, hline, Option.map_some, cstr_behind rfl,
    takeWhile_replace (by decide), takeWhile_replace (by decide),
    List.takeWhile_append_of_pos, List.takeWhile_cons_of_neg, List.append_nil]
  · rw [isOperator_iff] at ho
    rcases ho with rfl | rfl <;> decide
  · intro b hb
    have hne : b ≠ 0 := fun heq ↦
      h (List.mem_append_right _ (List.mem_cons_of_mem _ (List.mem_append_left _ (heq ▸ hb))))
    obtain ⟨hbar, hgt⟩ := ne_of_not_isOperator (hA₂ b hb)
    simp only [hne, hgt, hbar, ne_eq, not_false_eq_true, decide_true, Bool.and_self]

theorem parse_redirDest {P C : List (BitVec 8)} (h : 0 ∉ P ++ 0x3e :: C) (hspace : 0x20 ∈ P)
    (hP : 0x3e ∉ P) : (parse (P ++ 0x3e :: C)).redirDest = some (C.dropWhile isspace) := by
  have hmem : (0x3e : BitVec 8) ∉ P.replace 0x20 0 := by
    rwa [mem_replace_of_ne (by decide) (by decide)]
  have hline : redirected (P ++ 0x3e :: C) = P.replace 0x20 0 ++ 0 :: C := by
    rw [redirected, List.replace_append_left hspace, List.replace_append_right hmem,
      List.replace_cons_self]
  have hC : 0 ∉ C := fun hmem ↦ h (List.mem_append_right _ (List.mem_cons_of_mem _ hmem))
  rw [parse_eq h, idxOf?_append_cons hP, hline, Option.map_some,
    cstr_behind List.length_replace, ← before, before_of_notMem hC]

theorem parse_subcommand {A B : List (BitVec 8)} (h : 0 ∉ A ++ 0x7c :: B) (hspace : 0x20 ∈ A)
    (hA : ∀ b ∈ A, isOperator b = false) :
    (parse (A ++ 0x7c :: B)).subcommand = some ((before 0x3e B).dropWhile isspace) := by
  obtain ⟨h3e, h7c⟩ := notMem_operators hA
  have hline : terminated (A ++ 0x7c :: B) = A.replace 0x20 0 ++ 0 :: B.replace 0x3e 0 := by
    rw [terminated, redirected, List.replace_append_left hspace,
      List.replace_append_right (by rwa [mem_replace_of_ne (by decide) (by decide)]),
      replace_cons_of_ne (by decide),
      List.replace_append_right (by rwa [mem_replace_of_ne (by decide) (by decide)]),
      List.replace_cons_self]
  have hB : ∀ b ∈ B, b ≠ 0 := fun b hb heq ↦
    h (List.mem_append_right _ (List.mem_cons_of_mem _ (heq ▸ hb)))
  rw [parse_eq h, idxOf?_append_cons h7c, hline, Option.map_some,
    cstr_behind List.length_replace, takeWhile_replace (by decide), before,
    takeWhile_congr fun b hb ↦ ?_]
  rw [decide_eq_true (hB b hb), Bool.true_and]

end CommandLine
end MinOS
