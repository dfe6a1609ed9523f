import MinOS.Terminal.CommandLine
import Mathlib.Logic.Relation
import Mathlib.Tactic.SplitIfs

/-!
# Blanks around operators

The lines that differ only in the blanks at their operators, and the lines for which
`ExecuteLine` makes no difference between them: those in which the first space does not
belong to an operator.
-/

namespace MinOS
namespace CommandLine

/-- `isblank`. -/
def isBlank (c : BitVec 8) : Bool := c = 0x20 || c = 9

/-- One more blank directly in front of or behind the first `|` or the first `>`. -/
inductive AddBlank : List (BitVec 8) → List (BitVec 8) → Prop where
  | front {c w : BitVec 8} {A B : List (BitVec 8)} (hc : isOperator c) (hA : c ∉ A)
      (hw : isBlank w) : AddBlank (A ++ c :: B) (A ++ w :: c :: B)
  | behind {c w : BitVec 8} {A B : List (BitVec 8)} (hc : isOperator c) (hA : c ∉ A)
      (hw : isBlank w) : AddBlank (A ++ c :: B) (A ++ c :: w :: B)

/-- Blanks are added and removed at the operators. -/
def Respaced : List (BitVec 8) → List (BitVec 8) → Prop := Relation.EqvGen AddBlank

/-- A string up to surrounding blanks. -/
def trim (l : List (BitVec 8)) : List (BitVec 8) := (l.dropWhile isBlank).rdropWhile isBlank

/-- What `ExecuteLine` derives from a line, the argument up to surrounding blanks. -/
def derived (line : List (BitVec 8)) : Parsed :=
  { parse line with firstArg := (parse line).firstArg.map trim }

/-- The line in front of its first operator and the blanks there. -/
def lead (L : List (BitVec 8)) : List (BitVec 8) :=
  (L.takeWhile fun b ↦ !isOperator b).rdropWhile isBlank

/-- The pipe comes first, and only whitespace stands between it and the redirection. -/
def PipeFirst (L : List (BitVec 8)) : Prop :=
  0x7c ∈ before 0x3e L ∧ ∀ b ∈ after 0x7c (before 0x3e L), isspace b

/-- The first space belongs to the command, and two operators leave no room for a
subcommand. -/
def Robust (L : List (BitVec 8)) : Prop :=
  0x20 ∈ lead L ∧ (0x7c ∈ L → 0x3e ∈ L → PipeFirst L)

/-- `ExecuteLine` derives the same from all the respacings of a line, whatever else is in
the buffer. -/
def Respaceable (L : List (BitVec 8)) : Prop :=
  ∀ L' rest rest', Respaced L L' → derived (L' ++ 0 :: rest') = derived (L ++ 0 :: rest)

/-! ## Blanks and operators -/

theorem isBlank_iff {b : BitVec 8} : isBlank b ↔ b = 0x20 ∨ b = 9 := by
  rw [isBlank, Bool.or_eq_true, decide_eq_true_eq, decide_eq_true_eq]

theorem isspace_of_isBlank {b : BitVec 8} (h : isBlank b) : isspace b := by
  rcases isBlank_iff.mp h with rfl | rfl <;> decide

theorem isOperator_of_isBlank {b : BitVec 8} (h : isBlank b) : isOperator b = false := by
  rcases isBlank_iff.mp h with rfl | rfl <;> decide

theorem ne_of_isBlank {w c : BitVec 8} (hw : isBlank w) (hc : isOperator c) : w ≠ c := by
  rintro rfl
  rw [isOperator_of_isBlank hw] at hc
  exact Bool.false_ne_true hc

/-- Every line with an operator splits at its first one. -/
theorem exists_first_operator {L : List (BitVec 8)} (h : ∃ c ∈ L, isOperator c) :
    ∃ A o B, L = A ++ o :: B ∧ (∀ b ∈ A, isOperator b = false) ∧ isOperator o := by
  induction L with
  | nil => simp at h
  | cons b L ih =>
      by_cases hb : isOperator b
      · exact ⟨[], b, L, rfl, by simp, hb⟩
      · obtain ⟨c, hc, hop⟩ := h
        have hL : c ∈ L := (List.mem_cons.mp hc).resolve_left fun heq ↦ hb (heq ▸ hop)
        obtain ⟨A, o, B, rfl, hA, ho⟩ := ih ⟨c, hL, hop⟩
        refine ⟨b :: A, o, B, rfl, ?_, ho⟩
        exact List.forall_mem_cons.mpr ⟨Bool.eq_false_iff.mpr hb, hA⟩

theorem lead_append_cons {A B : List (BitVec 8)} {o : BitVec 8}
    (hA : ∀ b ∈ A, isOperator b = false) (ho : isOperator o) :
    lead (A ++ o :: B) = A.rdropWhile isBlank := by
  rw [lead, List.takeWhile_append_of_pos fun b hb ↦ by rw [hA b hb]; rfl,
    List.takeWhile_cons_of_neg (by rw [ho]; decide), List.append_nil]

theorem exists_blanks (l : List (BitVec 8)) :
    ∃ s, l = l.rdropWhile isBlank ++ s ∧ ∀ b ∈ s, isBlank b :=
  ⟨l.rtakeWhile isBlank, List.rdropWhile_append_rtakeWhile.symm, fun _ hb ↦
    List.mem_rtakeWhile_imp hb⟩

theorem rdropWhile_append_blanks (l : List (BitVec 8)) {s : List (BitVec 8)}
    (hs : ∀ b ∈ s, isBlank b) : (l ++ s).rdropWhile isBlank = l.rdropWhile isBlank := by
  rw [List.rdropWhile, List.rdropWhile, List.reverse_append,
    List.dropWhile_append_of_pos fun b hb ↦ hs b (List.mem_reverse.mp hb)]

theorem trim_append_blanks (l : List (BitVec 8)) {s : List (BitVec 8)}
    (hs : ∀ b ∈ s, isBlank b) :
    trim ((l ++ s).dropWhile isspace) = trim (l.dropWhile isspace) := by
  have hspace : s.dropWhile isspace = [] :=
    List.dropWhile_eq_nil_iff.mpr fun b hb ↦ isspace_of_isBlank (hs b hb)
  rw [List.dropWhile_append]
  split
  · rename_i hempty
    rw [List.isEmpty_iff.mp hempty, hspace]
  · generalize l.dropWhile isspace = m
    rw [trim, List.dropWhile_append]
    split
    · rename_i hempty
      rw [trim, List.isEmpty_iff.mp hempty, List.dropWhile_eq_nil_iff.mpr hs]
    · exact rdropWhile_append_blanks _ hs

/-! ## What a robust line stands for -/

/-- The parts of a robust line, without regard to the blanks at its operators. -/
def meaning (L : List (BitVec 8)) : Parsed where
  command := before 0x20 (lead L)
  firstArg := some (trim ((after 0x20 (lead L)).dropWhile isspace))
  redirDest := if 0x3e ∈ L then some ((after 0x3e L).dropWhile isspace) else none
  subcommand :=
    if 0x7c ∈ L then some (if 0x3e ∈ L then [] else (after 0x7c L).dropWhile isspace) else none

section Robust

variable {L A B : List (BitVec 8)} {o : BitVec 8}

theorem mem_of_mem_lead {b : BitVec 8} (hA : ∀ b ∈ A, isOperator b = false)
    (ho : isOperator o) (h : b ∈ lead (A ++ o :: B)) : b ∈ A := by
  rw [lead_append_cons hA ho] at h
  exact (List.rdropWhile_prefix isBlank _).subset h

theorem parse_lead (hnul : 0 ∉ A ++ o :: B) (hA : ∀ b ∈ A, isOperator b = false)
    (ho : isOperator o) (hspace : 0x20 ∈ lead (A ++ o :: B)) :
    (parse (A ++ o :: B)).command = before 0x20 (lead (A ++ o :: B)) ∧
      (parse (A ++ o :: B)).firstArg.map trim =
        some (trim ((after 0x20 (lead (A ++ o :: B))).dropWhile isspace)) := by
  obtain ⟨s, hs, hblank⟩ := exists_blanks A
  rw [lead_append_cons hA ho] at hspace ⊢
  generalize A.rdropWhile isBlank = H at hs hspace ⊢
  have hline : A ++ o :: B = before 0x20 H ++ 0x20 :: ((after 0x20 H ++ s) ++ o :: B) := by
    conv_lhs => rw [hs, ← before_append_cons_after hspace]
    simp only [List.append_assoc, List.cons_append]
  rw [hs, ← before_append_cons_after hspace] at hA
  have hfront : ∀ b ∈ before 0x20 H, isOperator b = false := fun b hb ↦
    hA b (List.mem_append_left _ (List.mem_append_left _ hb))
  have hrest : ∀ b ∈ after 0x20 H ++ s, isOperator b = false := fun b hb ↦ by
    rw [List.append_assoc, List.cons_append] at hA
    exact hA b (List.mem_append_right _ (List.mem_cons_of_mem _ hb))
  rw [hline] at hnul ⊢
  refine ⟨parse_command hnul hfront notMem_before (Or.inl rfl), ?_⟩
  rw [parse_firstArg hnul notMem_before hfront hrest ho, Option.map_some,
    trim_append_blanks _ hblank]

theorem parse_redirDest_eq (hnul : 0 ∉ L) (hspace : 0x3e ∈ L → 0x20 ∈ before 0x3e L) :
    (parse L).redirDest = if 0x3e ∈ L then some ((after 0x3e L).dropWhile isspace) else none := by
  by_cases hmem : 0x3e ∈ L
  · rw [if_pos hmem]
    conv_lhs => rw [← before_append_cons_after hmem]
    exact parse_redirDest (by rwa [before_append_cons_after hmem]) (hspace hmem) notMem_before
  · rw [if_neg hmem, parse_eq hnul, List.idxOf?_eq_none_iff.mpr hmem, Option.map_none]

theorem mem_before_of_mem_lead (hop : ∃ c ∈ L, isOperator c) {b : BitVec 8} (h : b ∈ lead L) :
    b ∈ before 0x3e L := by
  obtain ⟨A, o, B, rfl, hA, ho⟩ := exists_first_operator hop
  rw [before_append_of_notMem (notMem_operators hA).1]
  exact List.mem_append_left _ (mem_of_mem_lead hA ho h)

/-- A robust line reads as it is meant. -/
theorem derived_eq_meaning (hnul : 0 ∉ L) (hop : ∃ c ∈ L, isOperator c) (hL : Robust L) :
    derived L = meaning L := by
  obtain ⟨A, o, B, rfl, hA, ho⟩ := exists_first_operator hop
  obtain ⟨hspace, hpipe⟩ := hL
  obtain ⟨hcommand, harg⟩ := parse_lead hnul hA ho hspace
  have hmemA := mem_of_mem_lead hA ho hspace
  obtain ⟨h3e, h7c⟩ := notMem_operators hA
  have hredir := parse_redirDest_eq hnul fun _ ↦ mem_before_of_mem_lead hop hspace
  have hsub : (parse (A ++ o :: B)).subcommand =
      if 0x7c ∈ A ++ o :: B then
        some (if 0x3e ∈ A ++ o :: B then [] else (after 0x7c (A ++ o :: B)).dropWhile isspace)
      else none := by
    by_cases hmem : 0x7c ∈ A ++ o :: B
    · -- the first operator is the pipe
      have hoeq : o = 0x7c := by
        rcases isOperator_iff.mp ho with heq | rfl
        · exact heq
        · have hfirst := (hpipe hmem (List.mem_append_right _ List.mem_cons_self)).1
          rw [before_append_of_notMem h3e, before_cons_self, List.append_nil] at hfirst
          exact absurd hfirst h7c
      subst hoeq
      rw [if_pos hmem, parse_subcommand hnul hmemA hA]
      by_cases hgt : 0x3e ∈ A ++ 0x7c :: B
      · have hbetween := (hpipe hmem hgt).2
        rw [before_append_of_notMem h3e, before_cons_of_ne (by decide),
          after_append_of_notMem h7c, after_cons_self] at hbetween
        rw [if_pos hgt, List.dropWhile_eq_nil_iff.mpr hbetween]
      · have hB : 0x3e ∉ B := fun hb ↦ hgt (List.mem_append_right _ (List.mem_cons_of_mem _ hb))
        rw [if_neg hgt, before_of_notMem hB, after_append_of_notMem h7c, after_cons_self]
    · rw [if_neg hmem, parse_eq hnul, List.idxOf?_eq_none_iff.mpr hmem, Option.map_none]
  rw [derived, harg, hcommand, hredir, hsub, meaning]

end Robust

/-! ## One blank more -/

section AddBlank

variable {L L' A B X : List (BitVec 8)} {c w : BitVec 8}

theorem AddBlank.mem_iff (h : AddBlank L L') {b : BitVec 8} (hb : isBlank b = false) :
    b ∈ L' ↔ b ∈ L := by
  have hne {w : BitVec 8} (hw : isBlank w) : b ≠ w := by
    rintro rfl
    exact Bool.false_ne_true (hb.symm.trans hw)
  cases h with
  | front hc hA hw => simp only [List.mem_append, List.mem_cons, hne hw, false_or]
  | behind hc hA hw => simp only [List.mem_append, List.mem_cons, hne hw, false_or]

theorem AddBlank.lead_eq (h : AddBlank L L') : lead L' = lead L := by
  have hsplit (A X : List (BitVec 8)) (hA : ∃ b ∈ A, isOperator b) :
      lead (A ++ X) = lead A := by
    obtain ⟨A', o, B', rfl, hA', ho⟩ := exists_first_operator hA
    rw [List.append_assoc, List.cons_append, lead_append_cons hA' ho, lead_append_cons hA' ho]
  cases h with
  | @front c w A B hc _ hw =>
      by_cases hA : ∃ b ∈ A, isOperator b
      · rw [hsplit _ _ hA, hsplit _ _ hA]
      · have hno : ∀ b ∈ A, isOperator b = false := by simpa using hA
        have hblank : ∀ b ∈ A ++ [w], isOperator b = false := by
          intro b hb
          rcases List.mem_append.mp hb with hb | hb
          · exact hno b hb
          · rw [List.mem_singleton.mp hb]
            exact isOperator_of_isBlank hw
        have hline : A ++ w :: c :: B = (A ++ [w]) ++ c :: B := by simp
        rw [hline, lead_append_cons hblank hc, lead_append_cons hno hc,
          rdropWhile_append_blanks A (by simpa using hw)]
  | @behind c w A B hc _ hw =>
      by_cases hA : ∃ b ∈ A, isOperator b
      · rw [hsplit _ _ hA, hsplit _ _ hA]
      · have hno : ∀ b ∈ A, isOperator b = false := by simpa using hA
        rw [lead_append_cons hno hc, lead_append_cons hno hc]

theorem after_front {d : BitVec 8} (hw : isBlank w) (hd : isOperator d) (h : d ∉ A) :
    after d (A ++ w :: c :: B) = after d (A ++ c :: B) := by
  rw [after_append_of_notMem h, after_append_of_notMem h, after_cons_of_ne (ne_of_isBlank hw hd)]

theorem after_behind {d : BitVec 8} (hw : isBlank w) (hd : isOperator d) (h : d ∉ A) :
    (after d (A ++ c :: w :: B)).dropWhile isspace = (after d (A ++ c :: B)).dropWhile isspace := by
  rw [after_append_of_notMem h, after_append_of_notMem h]
  by_cases hcd : c = d
  · rw [hcd, after_cons_self, after_cons_self, List.dropWhile_cons_of_pos (isspace_of_isBlank hw)]
  · rw [after_cons_of_ne hcd, after_cons_of_ne hcd, after_cons_of_ne (ne_of_isBlank hw hd)]

/-- What stands behind an operator is the same up to blanks, unless the other operator stands
there too. -/
theorem AddBlank.after_eq (h : AddBlank L L') {d : BitVec 8} (hd : isOperator d)
    (hA : ∀ c A B, L = A ++ c :: B → isOperator c → c ∉ A → d ∉ A) :
    (after d L').dropWhile isspace = (after d L).dropWhile isspace := by
  cases h with
  | front hc hcA hw => rw [after_front hw hd (hA _ _ _ rfl hc hcA)]
  | behind hc hcA hw => exact after_behind hw hd (hA _ _ _ rfl hc hcA)

theorem pipeFirst_append_pipe (hA : 0x7c ∉ A) (hgt : 0x3e ∉ A) :
    PipeFirst (A ++ 0x7c :: B) ↔ ∀ b ∈ before 0x3e B, isspace b := by
  rw [PipeFirst, before_append_of_notMem hgt, before_cons_of_ne (by decide),
    after_append_of_notMem hA, after_cons_self]
  exact and_iff_right (List.mem_append_right _ List.mem_cons_self)

theorem pipeFirst_append_redir (hA : 0x3e ∉ A) :
    PipeFirst (A ++ 0x3e :: B) ↔ 0x7c ∈ A ∧ ∀ b ∈ after 0x7c A, isspace b := by
  rw [PipeFirst, before_append_of_notMem hA, before_cons_self, List.append_nil]

/-- A blank more makes no difference to the order of the operators. -/
theorem AddBlank.pipeFirst_iff (h : AddBlank L L') : PipeFirst L' ↔ PipeFirst L := by
  have hsplit (A X : List (BitVec 8)) (hA : 0x3e ∈ A) : PipeFirst (A ++ X) ↔ PipeFirst A := by
    rw [PipeFirst, before_append_of_mem hA, PipeFirst]
  have hlast {A : List (BitVec 8)} {w : BitVec 8} (hw : isBlank w) :
      (0x7c ∈ A ++ [w] ∧ ∀ b ∈ after 0x7c (A ++ [w]), isspace b) ↔
        0x7c ∈ A ∧ ∀ b ∈ after 0x7c A, isspace b := by
    have hmem : 0x7c ∈ A ++ [w] ↔ 0x7c ∈ A := by
      rw [List.mem_append, List.mem_singleton]
      exact or_iff_left fun heq ↦ ne_of_isBlank hw rfl heq.symm
    rw [hmem]
    refine and_congr_right fun hA ↦ ?_
    rw [after_append_of_mem hA, List.forall_mem_append]
    exact and_iff_left (by simpa using isspace_of_isBlank hw)
  cases h with
  | @front c w A B hc hA hw =>
      have hline : A ++ w :: c :: B = (A ++ [w]) ++ c :: B := by simp
      have hmem {d : BitVec 8} (hd : isOperator d) (h : d ∉ A) : d ∉ A ++ [w] := by
        rw [List.mem_append, List.mem_singleton]
        exact fun hor ↦ hor.elim h fun heq ↦ ne_of_isBlank hw hd heq.symm
      rcases isOperator_iff.mp hc with rfl | rfl
      · by_cases hgt : 0x3e ∈ A
        · rw [hsplit _ _ hgt, hsplit _ _ hgt]
        · rw [hline, pipeFirst_append_pipe (hmem hc hA) (hmem rfl hgt),
            pipeFirst_append_pipe hA hgt]
      · rw [hline, pipeFirst_append_redir (hmem hc hA), pipeFirst_append_redir hA, hlast hw]
  | @behind c w A B hc hA hw =>
      rcases isOperator_iff.mp hc with rfl | rfl
      · by_cases hgt : 0x3e ∈ A
        · rw [hsplit _ _ hgt, hsplit _ _ hgt]
        · rw [pipeFirst_append_pipe hA hgt, pipeFirst_append_pipe hA hgt,
            before_cons_of_ne (ne_of_isBlank hw rfl), List.forall_mem_cons]
          exact and_iff_right (isspace_of_isBlank hw)
      · rw [pipeFirst_append_redir hA, pipeFirst_append_redir hA]

theorem AddBlank.robust_iff (h : AddBlank L L') : Robust L' ↔ Robust L := by
  rw [Robust, Robust, h.lead_eq, h.mem_iff (by decide), h.mem_iff (by decide), h.pipeFirst_iff]

theorem AddBlank.meaning_eq (h : AddBlank L L') (hL : Robust L) : meaning L' = meaning L := by
  have hredir (hmem : 0x3e ∈ L) :
      (after 0x3e L').dropWhile isspace = (after 0x3e L).dropWhile isspace := by
    refine h.after_eq rfl ?_
    rintro c A B rfl hc hcA hgt
    rcases isOperator_iff.mp hc with rfl | rfl
    · have hpipe : 0x7c ∈ A ++ 0x7c :: B := List.mem_append_right _ List.mem_cons_self
      have hfirst := (hL.2 hpipe hmem).1
      rw [before_append_of_mem hgt] at hfirst
      exact hcA ((List.takeWhile_prefix _).subset hfirst)
    · exact hcA hgt
  have hpipe (hmem : 0x3e ∉ L) :
      (after 0x7c L').dropWhile isspace = (after 0x7c L).dropWhile isspace := by
    refine h.after_eq rfl ?_
    rintro c A B rfl hc hcA
    rcases isOperator_iff.mp hc with rfl | rfl
    · exact hcA
    · exact absurd (List.mem_append_right _ List.mem_cons_self) hmem
  simp only [meaning, h.lead_eq, h.mem_iff (b := 0x3e) (by decide),
    h.mem_iff (b := 0x7c) (by decide)]
  congr 1
  · split_ifs with hmem
    · rw [hredir hmem]
    · rfl
  · split_ifs with _ hmem
    · rfl
    · rw [hpipe hmem]
    · rfl

end AddBlank

/-! ## All lines with the same operators -/

section Respaced

variable {L L' A B : List (BitVec 8)} {c : BitVec 8}

theorem Respaced.mem_iff (h : Respaced L L') {b : BitVec 8} (hb : isBlank b = false) :
    b ∈ L' ↔ b ∈ L := by
  induction h with
  | rel _ _ h => exact h.mem_iff hb
  | refl => rfl
  | symm _ _ _ ih => exact ih.symm
  | trans _ _ _ _ _ ih ih' => exact ih'.trans ih

theorem Respaced.robust_iff (h : Respaced L L') : Robust L' ↔ Robust L := by
  induction h with
  | rel _ _ h => exact h.robust_iff
  | refl => rfl
  | symm _ _ _ ih => exact ih.symm
  | trans _ _ _ _ _ ih ih' => exact ih'.trans ih

theorem Respaced.meaning_eq (h : Respaced L L') (hL : Robust L) : meaning L' = meaning L := by
  induction h with
  | rel _ _ h => exact h.meaning_eq hL
  | refl => rfl
  | symm _ _ h ih => exact (ih (Respaced.robust_iff h |>.mp hL)).symm
  | trans _ _ _ h _ ih ih' => exact (ih' (Respaced.robust_iff h |>.mpr hL)).trans (ih hL)

/-- Any number of blanks in front of an operator. -/
theorem respaced_front (hc : isOperator c) (hA : c ∉ A) {s : List (BitVec 8)}
    (hs : ∀ b ∈ s, isBlank b) : Respaced (A ++ c :: B) (A ++ s ++ c :: B) := by
  induction s generalizing A with
  | nil => rw [List.append_nil]; exact .refl _
  | cons w s ih =>
      obtain ⟨hw, hs⟩ := List.forall_mem_cons.mp hs
      have hmem : c ∉ A ++ [w] := by
        rw [List.mem_append, List.mem_singleton]
        exact fun hor ↦ hor.elim hA fun heq ↦ ne_of_isBlank hw hc heq.symm
      have hrest := ih hmem hs
      simp only [List.append_assoc, List.cons_append] at hrest ⊢
      exact .trans _ _ _ (.rel _ _ (.front hc hA hw)) hrest

/-- Without a space in front of the operators the blank there decides where the command ends:
a space ends it, a tab belongs to it. -/
theorem space_mem_lead (hnul : 0 ∉ L) (hop : ∃ c ∈ L, isOperator c)
    (hsame : ∀ L', Respaced L L' → derived L' = derived L) : 0x20 ∈ lead L := by
  obtain ⟨A, o, B, rfl, hA, ho⟩ := exists_first_operator hop
  obtain ⟨s, hs, hblank⟩ := exists_blanks A
  rw [lead_append_cons hA ho]
  generalize A.rdropWhile isBlank = H at hs ⊢
  subst hs
  by_contra hspace
  have hH : ∀ b ∈ H, isOperator b = false := fun b hb ↦ hA b (List.mem_append_left _ hb)
  have hoH : o ∉ H := fun hmem ↦ Bool.false_ne_true ((hH o hmem).symm.trans ho)
  have hback : Respaced (H ++ s ++ o :: B) (H ++ o :: B) :=
    .symm _ _ (respaced_front ho hoH hblank)
  have hnul' {w : BitVec 8} (hw : isBlank w) : 0 ∉ H ++ w :: o :: B := by
    rwa [(AddBlank.front ho hoH hw).mem_iff (by decide), hback.mem_iff (by decide)]
  have hder {w : BitVec 8} (hw : isBlank w) :
      (parse (H ++ w :: o :: B)).command = (parse (H ++ s ++ o :: B)).command := by
    have hcommand := congrArg Parsed.command
      (hsame _ (.trans _ _ _ hback (.rel _ _ (.front ho hoH hw))))
    exact hcommand
  have htab : (parse (H ++ 9 :: o :: B)).command = H ++ [9] := by
    have hline : H ++ 9 :: o :: B = (H ++ [9]) ++ o :: B := by simp
    rw [hline]
    refine parse_command (hline ▸ hnul' rfl) ?_ ?_ (Or.inr ho)
    · exact List.forall_mem_append.mpr ⟨hH, by decide⟩
    · rw [List.mem_append]
      exact fun hor ↦ hor.elim hspace (by decide)
  have hends : H = H ++ [9] :=
    calc H = (parse (H ++ 0x20 :: o :: B)).command :=
          (parse_command (hnul' rfl) hH hspace (Or.inl rfl)).symm
      _ = (parse (H ++ s ++ o :: B)).command := hder rfl
      _ = (parse (H ++ 9 :: o :: B)).command := (hder rfl).symm
      _ = H ++ [9] := htab
  simp at hends

/-- With a pipe behind it, a redirection takes the pipe into its path. -/
theorem pipe_mem_before (hnul : 0 ∉ L) (hlead : 0x20 ∈ lead L) (hpipe : 0x7c ∈ L)
    (hgt : 0x3e ∈ L) (hsame : ∀ L', Respaced L L' → derived L' = derived L) :
    0x7c ∈ before 0x3e L := by
  by_contra hbar
  have hP := notMem_before (c := 0x3e) (l := L)
  have hspace := mem_before_of_mem_lead ⟨_, hgt, rfl⟩ hlead
  rw [← before_append_cons_after hgt] at hnul hpipe hsame
  generalize before 0x3e L = P at *
  generalize after 0x3e L = C at *
  have hC : 0x7c ∈ C := by
    rcases List.mem_append.mp hpipe with hmem | hmem
    · exact absurd hmem hbar
    · exact (List.mem_cons.mp hmem).resolve_left (by decide)
  rw [← before_append_cons_after hC] at hnul hsame
  have hX := notMem_before (c := 0x7c) (l := C)
  generalize before 0x7c C = X at *
  generalize after 0x7c C = Y at *
  have hmem : 0x7c ∉ P ++ 0x3e :: X := by
    rw [List.mem_append, List.mem_cons]
    exact fun hor ↦ hor.elim hbar fun hor ↦ hor.elim (by decide) hX
  have hadd : AddBlank (P ++ 0x3e :: (X ++ 0x7c :: Y)) (P ++ 0x3e :: (X ++ 0x7c :: 0x20 :: Y)) := by
    have hbehind := AddBlank.behind (w := 0x20) (B := Y) rfl hmem rfl
    simpa only [List.append_assoc, List.cons_append] using hbehind
  have hnul' : 0 ∉ P ++ 0x3e :: (X ++ 0x7c :: 0x20 :: Y) := by rwa [hadd.mem_iff (by decide)]
  have hdest : (parse (P ++ 0x3e :: (X ++ 0x7c :: 0x20 :: Y))).redirDest =
      (parse (P ++ 0x3e :: (X ++ 0x7c :: Y))).redirDest := by
    have hall := congrArg Parsed.redirDest (hsame _ (.rel _ _ hadd))
    exact hall
  rw [parse_redirDest hnul hspace hP, parse_redirDest hnul' hspace hP,
    dropWhile_append_cons rfl, dropWhile_append_cons rfl] at hdest
  have htail := List.append_cancel_left (Option.some.inj hdest)
  exact List.cons_ne_self _ _ (List.cons.inj htail).2

/-- With a redirection behind it, the line of the reader keeps the blanks in front of the `>`. -/
theorem isspace_between (hnul : 0 ∉ L) (hlead : 0x20 ∈ lead L) (hgt : 0x3e ∈ L)
    (hpipe : 0x7c ∈ before 0x3e L) (hsame : ∀ L', Respaced L L' → derived L' = derived L) :
    ∀ b ∈ after 0x7c (before 0x3e L), isspace b := by
  have hP := notMem_before (c := 0x3e) (l := L)
  rw [← before_append_cons_after hgt] at hnul hlead hsame
  generalize before 0x3e L = P at *
  generalize after 0x3e L = C at *
  rw [← before_append_cons_after hpipe] at hnul hlead hsame hP
  have hbar := notMem_before (c := 0x7c) (l := P)
  generalize before 0x7c P = A at *
  generalize after 0x7c P = M at *
  rw [List.mem_append, List.mem_cons, not_or, not_or] at hP
  obtain ⟨hA3e, -, hM⟩ := hP
  have hA : ∀ b ∈ A, isOperator b = false := by
    intro b hb
    refine Bool.eq_false_iff.mpr fun hop ↦ ?_
    rcases isOperator_iff.mp hop with rfl | rfl
    · exact hbar hb
    · exact hA3e hb
  rw [List.append_assoc, List.cons_append] at hnul hlead hsame
  have hspace := mem_of_mem_lead hA rfl hlead
  have hmem : 0x3e ∉ A ++ 0x7c :: M := by
    rw [List.mem_append, List.mem_cons]
    exact fun hor ↦ hor.elim hA3e fun hor ↦ hor.elim (by decide) hM
  have hadd : AddBlank (A ++ 0x7c :: (M ++ 0x3e :: C)) (A ++ 0x7c :: (M ++ 0x20 :: 0x3e :: C)) := by
    have hfront := AddBlank.front (c := 0x3e) (w := 0x20) (A := A ++ 0x7c :: M) (B := C) rfl
      hmem rfl
    simpa only [List.append_assoc, List.cons_append] using hfront
  have hnul' : 0 ∉ A ++ 0x7c :: (M ++ 0x20 :: 0x3e :: C) := by rwa [hadd.mem_iff (by decide)]
  have hsub : (parse (A ++ 0x7c :: (M ++ 0x20 :: 0x3e :: C))).subcommand =
      (parse (A ++ 0x7c :: (M ++ 0x3e :: C))).subcommand := by
    have hall := congrArg Parsed.subcommand (hsame _ (.rel _ _ hadd))
    exact hall
  rw [parse_subcommand hnul hspace hA, parse_subcommand hnul' hspace hA,
    before_append_of_notMem hM, before_append_of_notMem hM, before_cons_self, List.append_nil,
    before_cons_of_ne (by decide), before_cons_self] at hsub
  have hdrop := Option.some.inj hsub
  rw [List.dropWhile_append] at hdrop
  split_ifs at hdrop with hempty
  · exact List.dropWhile_eq_nil_iff.mp (List.isEmpty_iff.mp hempty)
  · simp at hdrop

theorem derived_respaced_iff (hnul : 0 ∉ L) (hop : ∃ c ∈ L, isOperator c) :
    (∀ L', Respaced L L' → derived L' = derived L) ↔ Robust L := by
  constructor
  · intro hsame
    have hlead := space_mem_lead hnul hop hsame
    refine ⟨hlead, fun hpipe hgt ↦ ?_⟩
    have hfirst := pipe_mem_before hnul hlead hpipe hgt hsame
    exact ⟨hfirst, isspace_between hnul hlead hgt hfirst hsame⟩
  · intro hL L' hrespaced
    have hnul' : 0 ∉ L' := by rwa [hrespaced.mem_iff (by decide)]
    have hop' : ∃ c ∈ L', isOperator c := by
      obtain ⟨c, hc, hcop⟩ := hop
      refine ⟨c, ?_, hcop⟩
      rwa [hrespaced.mem_iff]
      exact Bool.eq_false_iff.mpr fun hblank ↦ ne_of_isBlank hblank hcop rfl
    rw [derived_eq_meaning hnul' hop' (hrespaced.robust_iff.mpr hL),
      derived_eq_meaning hnul hop hL, hrespaced.meaning_eq hL]

/-- `ExecuteLine` derives the same from a line and from every respacing of it, whatever
stands behind them in the buffer, exactly when the line is robust. -/
theorem respaceable_iff (hnul : 0 ∉ L) (hop : ∃ c ∈ L, isOperator c) :
    Respaceable L ↔ Robust L := by
  have hbuffer (L rest : List (BitVec 8)) : derived (L ++ 0 :: rest) = derived L := by
    rw [derived, parse_append, derived]
  rw [← derived_respaced_iff hnul hop]
  simp only [Respaceable, hbuffer]
  exact ⟨fun h L' ↦ h L' [] [], fun h L' _ _ ↦ h L'⟩

end Respaced

/-- The bytes of an ASCII text. -/
def ascii (text : List Char) : List (BitVec 8) := text.map fun c ↦ BitVec.ofNat 8 c.toNat

theorem respaceable_echo :
    Respaceable (ascii ['e', 'c', 'h', 'o', ' ', 'a', ' ', '>', 'b']) ↔
      Robust (ascii ['e', 'c', 'h', 'o', ' ', 'a', ' ', '>', 'b']) :=
  respaceable_iff (by decide) (by decide)

/-- `ls >a` writes to `a`, `ls> a` to the empty path. -/
theorem ls_not_respaceable :
    ¬∀ L : List (BitVec 8), 0 ∉ L → (∃ c ∈ L, isOperator c) → Respaceable L := by
  intro hall
  have hfront : AddBlank (ascii ['l', 's', '>', 'a']) (ascii ['l', 's', ' ', '>', 'a']) :=
    .front (A := ascii ['l', 's']) (B := ascii ['a']) (c := 0x3e) (w := 0x20) rfl (by decide) rfl
  have hbehind : AddBlank (ascii ['l', 's', '>', 'a']) (ascii ['l', 's', '>', ' ', 'a']) :=
    .behind (A := ascii ['l', 's']) (B := ascii ['a']) (c := 0x3e) (w := 0x20) rfl (by decide) rfl
  have hsame := hall (ascii ['l', 's', ' ', '>', 'a']) (by decide) (by decide)
    (ascii ['l', 's', '>', ' ', 'a']) [] []
    (.trans _ _ _ (.symm _ _ (.rel _ _ hfront)) (.rel _ _ hbehind))
  have hdest := congrArg Parsed.redirDest hsame
  revert hdest
  decide

end CommandLine
end MinOS
