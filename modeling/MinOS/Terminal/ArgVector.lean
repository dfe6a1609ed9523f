import MinOS.Terminal.CommandLine
import MinOS.Terminal.Text
import Mathlib.Data.List.Chain
import Mathlib.Data.List.Zip

/-!
# The argument vector

`MakeArgVector` cuts the argument string at every whitespace character, in place, and
copies the pieces one behind the other.
-/

namespace MinOS
namespace ArgVector

open CommandLine Font

/-- `argv` as offsets into `argbuf`, which fills up to `argbuf_index`. -/
structure Args where
  argv : List ℕ
  argbuf : ℕ → BitVec 8
  argbufIndex : ℕ

/-- `strcpy`. -/
def strcpy (dst : ℕ → BitVec 8) (d : ℕ) (s : List (BitVec 8)) : ℕ → BitVec 8 := fun k ↦
  if d ≤ k ∧ k ≤ d + s.length then s.getD (k - d) 0 else dst k

/-- The lambda `push_to_argv`.  An error is `kFull`. -/
def pushToArgv (argvLen argbufLen : ℕ) (a : Args) (s : List (BitVec 8)) : Except Args Args :=
  if a.argv.length ≥ argvLen ∨ a.argbufIndex ≥ argbufLen then .error a
  else
    .ok
      { argv := a.argv ++ [a.argbufIndex]
        argbuf := strcpy a.argbuf a.argbufIndex s
        argbufIndex := a.argbufIndex + s.length + 1 }

/-- A character at which the inner loop goes on. -/
def inWord (c : BitVec 8) : Bool := c ≠ 0 && !isspace c

/-- The address at which the inner loop ends. -/
def skipWord (line : List (BitVec 8)) (p : ℕ) : ℕ := p + ((line.drop p).takeWhile inWord).length

/-- The outer loop from the address `p` on, if it ends within `fuel` turns. -/
def argLoop (argvLen argbufLen : ℕ) :
    ℕ → List (BitVec 8) → ℕ → Args → Option (Except Args Args)
  | 0, _, _, _ => none
  | fuel + 1, line, p, a =>
      if line.getD p 0 = 0 then some (.ok a)
      else
        let q := skipWord line p
        let isEnd : Bool := line.getD q 0 = 0
        let line := line.set q 0
        match pushToArgv argvLen argbufLen a (cstr line p) with
        | .error a => some (.error a)
        | .ok a => if isEnd then some (.ok a) else argLoop argvLen argbufLen fuel line (q + 1) a

/-- `MakeArgVector`, with a turn of its loop for each byte of the line. -/
def makeArgVector (argvLen argbufLen : ℕ) (line : List (BitVec 8)) (command : ℕ)
    (firstArg : Option ℕ) (argbuf : ℕ → BitVec 8) : Option (Except Args Args) :=
  match pushToArgv argvLen argbufLen ⟨[], argbuf, 0⟩ (cstr line command) with
  | .error a => some (.error a)
  | .ok a =>
      match firstArg with
      | none => some (.ok a)
      | some p => argLoop argvLen argbufLen (line.length + 1) line p a

/-- The argument string. -/
def argument (line : List (BitVec 8)) (firstArg : Option ℕ) : List (BitVec 8) :=
  firstArg.elim [] (cstr line)

/-- The maximal runs of characters that are no whitespace. -/
def words (arg : List (BitVec 8)) : List (List (BitVec 8)) :=
  (arg.splitOnP isspace).filter (· ≠ [])

/-- The strings lie in the buffer, apart from each other and each with its terminator. -/
structure Laid (argbufLen : ℕ) (a : Args) (ss : List (List (BitVec 8))) : Prop where
  strings : List.Forall₂ (fun off s ↦
    CString (fun k ↦ a.argbuf (off + k)) s ∧ off + s.length < argbufLen) a.argv ss
  apart : (a.argv.zip ss).Pairwise fun x y ↦ x.1 + x.2.length < y.1

/-- The argument vector of a command: full, exactly if there are too many words, or the
command and the words. -/
def Correct (argvLen argbufLen : ℕ) (command arg : List (BitVec 8)) (r : Except Args Args) :
    Prop :=
  ((∃ a, r = .error a) ↔ argvLen < 1 + (words arg).length) ∧
    ∀ a, r = .ok a → Laid argbufLen a (command :: words arg)

/-- No whitespace at the beginning, and no two such characters in a row. -/
def SpacedOnce (arg : List (BitVec 8)) : Prop :=
  (0x20 :: arg).IsChain fun b c ↦ ¬(isspace b ∧ isspace c)

/-! ## The pieces -/

/-- What the loop cuts a string into: the piece behind a whitespace at the end is missing. -/
def pieces : List (BitVec 8) → List (List (BitVec 8))
  | [] => []
  | c :: s =>
      if isspace c then [] :: pieces s
      else
        match pieces s with
        | [] => [[c]]
        | w :: ws => (c :: w) :: ws

theorem pieces_cons_space {c : BitVec 8} (h : isspace c) (s : List (BitVec 8)) :
    pieces (c :: s) = [] :: pieces s := by
  rw [pieces, if_pos h]

theorem pieces_cons_inWord {c : BitVec 8} (h : ¬isspace c) (s : List (BitVec 8)) :
    pieces (c :: s) = (c :: (pieces s).headD []) :: (pieces s).tail := by
  rw [pieces, if_neg h]
  cases pieces s <;> rfl

theorem pieces_eq_splitOnP (s : List (BitVec 8)) :
    s.splitOnP isspace = pieces s ∨ s.splitOnP isspace = pieces s ++ [[]] := by
  induction s with
  | nil => exact Or.inr rfl
  | cons c s ih =>
      rw [List.splitOnP_cons_eq_if_modifyHead]
      by_cases hc : isspace c
      · rw [if_pos hc, pieces_cons_space hc]
        exact ih.imp (congrArg _) (congrArg _)
      · rw [if_neg hc, pieces_cons_inWord hc]
        cases hs : pieces s with
        | nil =>
            rw [hs] at ih
            rcases ih with heq | heq
            · exact absurd heq (List.splitOnP_ne_nil _ _)
            · exact Or.inl (by rw [heq]; rfl)
        | cons w ws =>
            rw [hs] at ih
            exact ih.imp (fun heq ↦ by rw [heq]; rfl) fun heq ↦ by rw [heq]; rfl

/-- The words are the pieces that are not empty. -/
theorem words_eq (s : List (BitVec 8)) : words s = (pieces s).filter (· ≠ []) := by
  rw [words]
  rcases pieces_eq_splitOnP s with heq | heq
  · rw [heq]
  · rw [heq, List.filter_append]
    exact List.append_nil _

theorem mem_of_mem_pieces {s w : List (BitVec 8)} (hw : w ∈ pieces s) : ∀ b ∈ w, b ∈ s := by
  induction s generalizing w with
  | nil => simp [pieces] at hw
  | cons c s ih =>
      intro b hb
      by_cases hc : isspace c
      · rw [pieces_cons_space hc] at hw
        rcases List.mem_cons.mp hw with rfl | hw
        · cases hb
        · exact List.mem_cons_of_mem _ (ih hw b hb)
      · rw [pieces_cons_inWord hc] at hw
        rcases List.mem_cons.mp hw with rfl | hw
        · rcases List.mem_cons.mp hb with rfl | hb
          · exact List.mem_cons_self
          · refine List.mem_cons_of_mem _ (ih (w := (pieces s).headD []) ?_ b hb)
            cases hs : pieces s with
            | nil =>
                rw [hs] at hb
                cases hb
            | cons v vs => exact List.mem_cons_self
        · exact List.mem_cons_of_mem _ (ih (List.mem_of_mem_tail hw) b hb)

/-- An empty piece comes from a whitespace at the beginning or behind another one. -/
theorem nil_mem_pieces_iff (s : List (BitVec 8)) :
    ([] ∈ pieces s ↔ ¬SpacedOnce s) ∧
      ([] ∈ (pieces s).tail ↔ ¬s.IsChain fun b c ↦ ¬(isspace b ∧ isspace c)) := by
  induction s with
  | nil =>
      refine ⟨⟨fun h ↦ ?_, fun h ↦ ?_⟩, ⟨fun h ↦ ?_, fun h ↦ ?_⟩⟩
      · cases h
      · exact absurd (List.isChain_singleton _) h
      · cases h
      · exact absurd List.isChain_nil h
  | cons c s ih =>
      by_cases hc : isspace c
      · have hsame : SpacedOnce s ↔
            (c :: s).IsChain fun b c ↦ ¬(isspace b ∧ isspace c) := by
          rw [SpacedOnce, List.isChain_cons, List.isChain_cons, hc]
          rfl
        have hbad : ¬SpacedOnce (c :: s) := fun h ↦
          (List.isChain_cons_cons.mp h).1 ⟨rfl, hc⟩
        rw [pieces_cons_space hc]
        exact ⟨⟨fun _ ↦ hbad, fun _ ↦ List.mem_cons_self⟩, ih.1.trans (not_congr hsame)⟩
      · have hdrop : (c :: s).IsChain (fun b c ↦ ¬(isspace b ∧ isspace c)) ↔
            s.IsChain fun b c ↦ ¬(isspace b ∧ isspace c) := by
          rw [List.isChain_cons]
          exact and_iff_right fun _ _ h ↦ hc h.1
        have hfirst : SpacedOnce (c :: s) ↔
            s.IsChain fun b c ↦ ¬(isspace b ∧ isspace c) := by
          rw [SpacedOnce, List.isChain_cons_cons, hdrop]
          exact and_iff_right fun h ↦ hc h.2
        rw [pieces_cons_inWord hc, List.tail_cons, hdrop, hfirst, List.mem_cons]
        refine ⟨?_, ih.2⟩
        rw [ih.2]
        exact or_iff_right (List.cons_ne_nil _ _).symm

/-- The bytes that strings take up with their terminators. -/
def size (ss : List (List (BitVec 8))) : ℕ := (ss.map fun s ↦ s.length + 1).sum

theorem size_pieces_le (s : List (BitVec 8)) : size (pieces s) ≤ s.length + 1 := by
  induction s with
  | nil => exact Nat.zero_le _
  | cons c s ih =>
      by_cases hc : isspace c
      · rw [pieces_cons_space hc, size, List.map_cons, List.sum_cons, List.length_cons,
          List.length_nil]
        change 0 + 1 + size (pieces s) ≤ _
        omega
      · rw [pieces_cons_inWord hc]
        cases hs : pieces s with
        | nil =>
            simp [size]
        | cons w ws =>
            rw [hs] at ih
            simp only [size, List.map_cons, List.sum_cons, List.headD_cons, List.tail_cons,
              List.length_cons] at ih ⊢
            omega

theorem pieces_of_ne_nil {s : List (BitVec 8)} (h : s ≠ []) :
    pieces s =
      (s.takeWhile fun c ↦ !isspace c) :: pieces (s.dropWhile fun c ↦ !isspace c).tail := by
  induction s with
  | nil => exact absurd rfl h
  | cons c s ih =>
      by_cases hc : isspace c
      · rw [pieces_cons_space hc, List.takeWhile_cons_of_neg (by simpa using hc),
          List.dropWhile_cons_of_neg (by simpa using hc), List.tail_cons]
      · rw [pieces_cons_inWord hc, List.takeWhile_cons_of_pos (by simpa using hc),
          List.dropWhile_cons_of_pos (by simpa using hc)]
        by_cases hs : s = []
        · rw [hs]
          rfl
        · rw [ih hs]
          rfl

/-! ## The strings in the buffer -/

/-- The strings are pushed one after another. -/
def pushAll (argvLen argbufLen : ℕ) : Args → List (List (BitVec 8)) → Except Args Args
  | a, [] => .ok a
  | a, s :: ss =>
      match pushToArgv argvLen argbufLen a s with
      | .error a => .error a
      | .ok a => pushAll argvLen argbufLen a ss

section Push

variable {argvLen argbufLen : ℕ} {a a' : Args} {s : List (BitVec 8)}
  {ss ts : List (List (BitVec 8))}

theorem strcpy_of_lt {dst : ℕ → BitVec 8} {d k : ℕ} (h : k < d) : strcpy dst d s k = dst k :=
  if_neg fun hin ↦ by omega

theorem cString_strcpy (dst : ℕ → BitVec 8) (d : ℕ) (hs : 0 ∉ s) :
    CString (fun k ↦ strcpy dst d s (d + k)) s := by
  refine ⟨fun k b hb ↦ ?_, fun b hb heq ↦ hs (heq ▸ hb)⟩
  have hk : k ≤ s.length := by
    have hlt := (List.getElem?_eq_some_iff.mp hb).1
    rw [List.length_append, List.length_singleton] at hlt
    omega
  change strcpy dst d s (d + k) = b
  rw [strcpy, if_pos ⟨Nat.le_add_right _ _, Nat.add_le_add_left hk d⟩, Nat.add_sub_cancel_left,
    List.getD_eq_getElem?_getD]
  rcases hk.lt_or_eq with hk | rfl
  · rw [List.getElem?_append_left hk] at hb
    rw [hb, Option.getD_some]
  · rw [List.getElem?_concat_length] at hb
    rw [List.getElem?_eq_none le_rfl, Option.getD_none]
    exact Option.some.inj hb

theorem CString.congr {f g : ℕ → BitVec 8} (h : CString f s) (hfg : ∀ k ≤ s.length, g k = f k) :
    CString g s := by
  refine ⟨fun k b hb ↦ ?_, h.2⟩
  have hlt := (List.getElem?_eq_some_iff.mp hb).1
  rw [List.length_append, List.length_singleton] at hlt
  rw [hfg k (Nat.le_of_lt_succ hlt)]
  exact h.1 k b hb

theorem Laid.mono {n m : ℕ} (h : Laid n a ss) (hle : n ≤ m) : Laid m a ss :=
  ⟨h.strings.imp fun _ _ hs ↦ ⟨hs.1, hs.2.trans_le hle⟩, h.apart⟩

/-- A push puts its string behind the others. -/
theorem Laid.push (h : Laid a.argbufIndex a ss) (hs : 0 ∉ s)
    (hpush : pushToArgv argvLen argbufLen a s = .ok a') :
    Laid a'.argbufIndex a' (ss ++ [s]) := by
  rw [pushToArgv] at hpush
  split at hpush
  · cases hpush
  · obtain rfl := Except.ok.inj hpush
    constructor
    · refine List.rel_append ?_ (.cons ⟨cString_strcpy _ _ hs, Nat.lt_succ_self _⟩ .nil)
      refine h.strings.imp fun off t ht ↦ ⟨CString.congr ht.1 fun k hk ↦ ?_, ?_⟩
      · exact strcpy_of_lt ((Nat.add_le_add_left hk off).trans_lt ht.2)
      · have hlt := ht.2
        dsimp only
        omega
    · rw [List.zip_append h.strings.length_eq, List.pairwise_append]
      refine ⟨h.apart, List.pairwise_singleton _ _, fun x hx y hy ↦ ?_⟩
      rw [List.zip_cons_cons, List.zip_nil_right, List.mem_singleton] at hy
      rw [hy]
      exact ((List.forall₂_iff_zip.mp h.strings).2 hx).2

theorem pushToArgv_ok (hlen : a.argv.length < argvLen) (hroom : a.argbufIndex < argbufLen) :
    pushToArgv argvLen argbufLen a s =
      .ok ⟨a.argv ++ [a.argbufIndex], strcpy a.argbuf a.argbufIndex s,
        a.argbufIndex + s.length + 1⟩ :=
  if_neg fun hfull ↦ hfull.elim hlen.not_ge hroom.not_ge

/-- The pushes go well as long as there is room in `argv`. -/
theorem pushAll_spec (h : Laid a.argbufIndex a ss) (hss : ss.length ≤ argvLen)
    (hts : ∀ t ∈ ts, 0 ∉ t) (hroom : a.argbufIndex + size ts ≤ argbufLen) :
    (ss.length + ts.length ≤ argvLen →
        ∃ a', pushAll argvLen argbufLen a ts = .ok a' ∧ Laid argbufLen a' (ss ++ ts)) ∧
      (argvLen < ss.length + ts.length → ∃ a', pushAll argvLen argbufLen a ts = .error a') := by
  induction ts generalizing a ss with
  | nil =>
      refine ⟨fun _ ↦ ⟨a, rfl, ?_⟩, fun hlt ↦ absurd hlt hss.not_gt⟩
      rw [List.append_nil]
      exact h.mono ((Nat.le_add_right _ _).trans hroom)
  | cons t ts ih =>
      obtain ⟨ht, hts⟩ := List.forall_mem_cons.mp hts
      have hsize : size (t :: ts) = t.length + 1 + size ts := List.sum_cons
      have hlen : a.argv.length = ss.length := h.strings.length_eq
      rcases hss.lt_or_eq with hlt | heq
      · have hpush : pushToArgv argvLen argbufLen a t = _ :=
          pushToArgv_ok (hlen ▸ hlt) (by omega)
        have hrest := ih (h.push ht hpush) (by rw [List.length_append]; exact hlt) hts
          (by dsimp only; omega)
        rw [List.length_append, List.append_assoc] at hrest
        rw [pushAll, hpush, List.length_cons]
        rw [List.length_singleton, Nat.add_assoc, Nat.add_comm 1] at hrest
        exact hrest
      · have hpush : pushToArgv argvLen argbufLen a t = .error a :=
          if_pos (Or.inl (hlen ▸ heq.ge))
        rw [pushAll, hpush, List.length_cons]
        exact ⟨fun hle ↦ by omega, fun _ ↦ ⟨a, rfl⟩⟩

end Push

/-! ## The loop -/

section Loop

variable {argvLen argbufLen : ℕ}

theorem inWord_iff {b : BitVec 8} : inWord b ↔ b ≠ 0 ∧ ¬isspace b := by
  rw [inWord, Bool.and_eq_true, decide_eq_true_eq, Bool.not_eq_true', Bool.not_eq_true]

theorem isspace_of_not_inWord {b : BitVec 8} (h : ¬inWord b) (hne : b ≠ 0) : isspace b := by
  by_contra hsp
  exact h (inWord_iff.mpr ⟨hne, hsp⟩)

theorem takeWhile_ne_zero_cons {b : BitVec 8} (h : b ≠ 0) (l : List (BitVec 8)) :
    (b :: l).takeWhile (· ≠ 0) = b :: l.takeWhile (· ≠ 0) :=
  List.takeWhile_cons_of_pos (by simpa using h)

/-- The piece that the terminator behind it cuts off. -/
theorem takeWhile_set (l : List (BitVec 8)) :
    (l.set (l.takeWhile inWord).length 0).takeWhile (· ≠ 0) =
      (l.takeWhile (· ≠ 0)).takeWhile fun c ↦ !isspace c := by
  induction l with
  | nil => rfl
  | cons b l ih =>
      by_cases hb : inWord b
      · obtain ⟨hne, hsp⟩ := inWord_iff.mp hb
        rw [List.takeWhile_cons_of_pos hb, List.length_cons, List.set_cons_succ,
          takeWhile_ne_zero_cons hne, takeWhile_ne_zero_cons hne, ih,
          List.takeWhile_cons_of_pos (by simpa using hsp)]
      · rw [List.takeWhile_cons_of_neg hb, List.length_nil, List.set_cons_zero]
        by_cases hne : b = 0
        · rw [hne]
          rfl
        · have hsp := isspace_of_not_inWord hb hne
          rw [takeWhile_ne_zero_cons hne, List.takeWhile_cons_of_neg (a := b) (by simp [hsp])]
          rfl

theorem takeWhile_drop_succ (l : List (BitVec 8)) :
    if l.getD (l.takeWhile inWord).length 0 = 0 then
      (l.takeWhile (· ≠ 0)).dropWhile (fun c ↦ !isspace c) = []
    else
      (l.drop ((l.takeWhile inWord).length + 1)).takeWhile (· ≠ 0) =
        ((l.takeWhile (· ≠ 0)).dropWhile fun c ↦ !isspace c).tail := by
  induction l with
  | nil => rfl
  | cons b l ih =>
      by_cases hb : inWord b
      · obtain ⟨hne, hsp⟩ := inWord_iff.mp hb
        rw [List.takeWhile_cons_of_pos hb, List.length_cons, List.getD_cons_succ,
          List.drop_succ_cons, takeWhile_ne_zero_cons hne,
          List.dropWhile_cons_of_pos (by simpa using hsp)]
        exact ih
      · rw [List.takeWhile_cons_of_neg hb, List.length_nil, List.getD_cons_zero]
        by_cases hne : b = 0
        · rw [if_pos hne, hne]
          rfl
        · have hsp := isspace_of_not_inWord hb hne
          rw [if_neg hne, takeWhile_ne_zero_cons hne,
            List.dropWhile_cons_of_neg (by simp [hsp])]
          rfl

theorem getD_add (line : List (BitVec 8)) (p n : ℕ) :
    line.getD (p + n) 0 = (line.drop p).getD n 0 := by
  rw [List.getD_eq_getElem?_getD, List.getD_eq_getElem?_getD, List.getElem?_drop]

theorem cstr_eq_nil_iff {line : List (BitVec 8)} {p : ℕ} :
    cstr line p = [] ↔ line.getD p 0 = 0 := by
  have hfirst := getD_add line p 0
  rw [Nat.add_zero] at hfirst
  rw [hfirst, cstr]
  cases line.drop p with
  | nil => exact ⟨fun _ ↦ rfl, fun _ ↦ rfl⟩
  | cons b l =>
      rw [List.getD_cons_zero]
      by_cases hb : b = 0
      · rw [hb]
        exact ⟨fun _ ↦ rfl, fun _ ↦ rfl⟩
      · rw [takeWhile_ne_zero_cons hb]
        exact ⟨fun h ↦ absurd h (List.cons_ne_nil _ _), fun h ↦ absurd h hb⟩

/-- The loop pushes the pieces of its string. -/
theorem argLoop_eq {fuel p : ℕ} {line : List (BitVec 8)} {a : Args}
    (hfuel : (cstr line p).length < fuel) :
    argLoop argvLen argbufLen fuel line p a =
      some (pushAll argvLen argbufLen a (pieces (cstr line p))) := by
  induction fuel generalizing p line a with
  | zero => exact absurd hfuel (Nat.not_lt_zero _)
  | succ fuel ih =>
      rw [argLoop]
      by_cases hend : line.getD p 0 = 0
      · rw [if_pos hend, cstr_eq_nil_iff.mpr hend]
        rfl
      · have hne : cstr line p ≠ [] := fun hnil ↦ hend (cstr_eq_nil_iff.mp hnil)
        have hpiece : cstr (line.set (skipWord line p) 0) p =
            (cstr line p).takeWhile fun c ↦ !isspace c := by
          rw [cstr, skipWord, List.drop_set, if_neg (by omega), Nat.add_sub_cancel_left,
            takeWhile_set, cstr]
        have hbehind : cstr (line.set (skipWord line p) 0) (skipWord line p + 1) =
            cstr line (skipWord line p + 1) := by
          rw [cstr, List.drop_set, if_pos (Nat.lt_succ_self _), cstr]
        have hrest := takeWhile_drop_succ (line.drop p)
        rw [← getD_add, ← skipWord, List.drop_drop, ← Nat.add_assoc, ← skipWord, ← cstr, ← cstr]
          at hrest
        rw [if_neg hend, pieces_of_ne_nil hne, pushAll]
        dsimp only
        rw [hpiece]
        cases pushToArgv argvLen argbufLen a ((cstr line p).takeWhile fun c ↦ !isspace c) with
        | error a => rfl
        | ok a =>
            by_cases hlast : line.getD (skipWord line p) 0 = 0
            · rw [if_pos hlast] at hrest
              rw [hrest, hlast]
              rfl
            · rw [if_neg hlast] at hrest
              have hshort : (cstr line (skipWord line p + 1)).length < fuel := by
                rw [hrest, List.length_tail]
                have hle := (List.dropWhile_sublist (fun c ↦ !isspace c) (l := cstr line p)).length_le
                have hpos := List.length_pos_of_ne_nil hne
                omega
              dsimp only
              rw [decide_eq_false hlast, ih (by rw [hbehind]; exact hshort), hbehind, hrest]
              rfl

end Loop

/-! ## The argument vector -/

section Result

variable {argvLen argbufLen command : ℕ} {line : List (BitVec 8)} {firstArg : Option ℕ}
  {argbuf : ℕ → BitVec 8}

theorem zero_notMem_cstr (line : List (BitVec 8)) (p : ℕ) : 0 ∉ cstr line p := by
  intro h
  simpa using List.mem_takeWhile_imp h

theorem length_cstr_le (line : List (BitVec 8)) (p : ℕ) : (cstr line p).length ≤ line.length :=
  ((List.takeWhile_sublist _).trans (List.drop_sublist p line)).length_le

theorem makeArgVector_eq :
    makeArgVector argvLen argbufLen line command firstArg argbuf =
      some (pushAll argvLen argbufLen ⟨[], argbuf, 0⟩
        (cstr line command :: pieces (argument line firstArg))) := by
  rw [makeArgVector, pushAll]
  cases pushToArgv argvLen argbufLen ⟨[], argbuf, 0⟩ (cstr line command) with
  | error a => rfl
  | ok a =>
      cases firstArg with
      | none => rfl
      | some p => exact argLoop_eq (Nat.lt_succ_of_le (length_cstr_le line p))

theorem words_length_le (arg : List (BitVec 8)) : (words arg).length ≤ (pieces arg).length := by
  rw [words_eq]
  exact List.length_filter_le _ _

theorem length_words_iff (arg : List (BitVec 8)) :
    (words arg).length = (pieces arg).length ↔ SpacedOnce arg := by
  rw [words_eq, List.length_filter_eq_length_iff, ← not_iff_not, ← (nil_mem_pieces_iff arg).1]
  simp

theorem words_eq_pieces {arg : List (BitVec 8)} (h : SpacedOnce arg) : words arg = pieces arg := by
  have hlen := (length_words_iff arg).mpr h
  rw [words_eq] at hlen ⊢
  exact List.filter_sublist.eq_of_length hlen

theorem pushAll_command (argvLen : ℕ) (argbuf : ℕ → BitVec 8)
    (hcommand : (cstr line command).length < kLineMax)
    (harg : (argument line firstArg).length < kLineMax) (hbuf : 2 * kLineMax ≤ argbufLen) :
    (1 + (pieces (argument line firstArg)).length ≤ argvLen →
        ∃ a, makeArgVector argvLen argbufLen line command firstArg argbuf = some (.ok a) ∧
          Laid argbufLen a (cstr line command :: pieces (argument line firstArg))) ∧
      (argvLen < 1 + (pieces (argument line firstArg)).length →
        ∃ a, makeArgVector argvLen argbufLen line command firstArg argbuf = some (.error a)) := by
  have hargnul : 0 ∉ argument line firstArg := by
    cases firstArg with
    | none => exact List.not_mem_nil
    | some p => exact zero_notMem_cstr line p
  have hsize : size (cstr line command :: pieces (argument line firstArg)) =
      (cstr line command).length + 1 + size (pieces (argument line firstArg)) := List.sum_cons
  have hpieces := size_pieces_le (argument line firstArg)
  have hempty : Laid (⟨[], argbuf, 0⟩ : Args).argbufIndex ⟨[], argbuf, 0⟩ [] := ⟨.nil, .nil⟩
  have hnul : ∀ w ∈ cstr line command :: pieces (argument line firstArg), 0 ∉ w :=
    List.forall_mem_cons.mpr ⟨zero_notMem_cstr _ _, fun w hw hmem ↦
      hargnul (mem_of_mem_pieces hw 0 hmem)⟩
  have hroom : 0 + size (cstr line command :: pieces (argument line firstArg)) ≤ argbufLen := by
    omega
  have hall := pushAll_spec hempty (Nat.zero_le argvLen) hnul hroom
  rw [List.length_nil, List.length_cons, Nat.zero_add, Nat.add_comm, List.nil_append] at hall
  rw [makeArgVector_eq]
  refine ⟨fun hle ↦ ?_, fun hlt ↦ ?_⟩
  · obtain ⟨a, hok, hlaid⟩ := hall.1 hle
    exact ⟨a, congrArg some hok, hlaid⟩
  · obtain ⟨a, herror⟩ := hall.2 hlt
    exact ⟨a, congrArg some herror⟩

/-- The argument vector is right exactly if no whitespace of the argument string follows
another one or begins it, or there are too many words anyway. -/
theorem makeArgVector_iff (argvLen : ℕ) (line : List (BitVec 8)) (command : ℕ)
    (firstArg : Option ℕ) (argbuf : ℕ → BitVec 8)
    (hcommand : (cstr line command).length < kLineMax)
    (harg : (argument line firstArg).length < kLineMax) (hbuf : 2 * kLineMax ≤ argbufLen) :
    (∃ r, makeArgVector argvLen argbufLen line command firstArg argbuf = some r ∧
        Correct argvLen argbufLen (cstr line command) (argument line firstArg) r) ↔
      SpacedOnce (argument line firstArg) ∨
        argvLen < 1 + (words (argument line firstArg)).length := by
  have hpush := pushAll_command argvLen argbuf hcommand harg hbuf
  have hwords := words_length_le (argument line firstArg)
  constructor
  · rintro ⟨r, hr, hfull, hlaid⟩
    rcases Nat.lt_or_ge argvLen (1 + (pieces (argument line firstArg)).length) with hlt | hle
    · obtain ⟨a, herror⟩ := hpush.2 hlt
      rw [herror] at hr
      exact Or.inr (hfull.mp ⟨a, (Option.some.inj hr).symm⟩)
    · obtain ⟨a, hok, hpieces⟩ := hpush.1 hle
      rw [hok] at hr
      have hlen := (hlaid a (Option.some.inj hr).symm).strings.length_eq
      rw [hpieces.strings.length_eq, List.length_cons, List.length_cons] at hlen
      exact Or.inl ((length_words_iff _).mp (Nat.succ.inj hlen).symm)
  · intro hcond
    rcases Nat.lt_or_ge argvLen (1 + (pieces (argument line firstArg)).length) with hlt | hle
    · obtain ⟨a, herror⟩ := hpush.2 hlt
      refine ⟨_, herror, ⟨fun _ ↦ ?_, fun _ ↦ ⟨a, rfl⟩⟩, fun _ h ↦ by cases h⟩
      rcases hcond with hspaced | hmany
      · rwa [words_eq_pieces hspaced]
      · exact hmany
    · obtain ⟨a, hok, hlaid⟩ := hpush.1 hle
      have hspaced := hcond.resolve_right (by omega)
      have hfew : ¬argvLen < 1 + (words (argument line firstArg)).length := by omega
      refine ⟨_, hok, ⟨fun herror ↦ ?_, fun hmany ↦ absurd hmany hfew⟩, fun a' ha' ↦ ?_⟩
      · obtain ⟨a', ha'⟩ := herror
        cases ha'
      · rw [← Except.ok.inj ha', words_eq_pieces hspaced]
        exact hlaid

end Result

/-- `cp a b`, cut behind its command, with the sizes of the argument page. -/
theorem makeArgVector_cp :
    (∃ r, makeArgVector 32 3840 [0x63, 0x70, 0, 0x61, 0x20, 0x62, 0] 0 (some 3) (fun _ ↦ 0) =
        some r ∧ Correct 32 3840 [0x63, 0x70] [0x61, 0x20, 0x62] r) ↔
      SpacedOnce [0x61, 0x20, 0x62] ∨ 32 < 1 + (words [0x61, 0x20, 0x62]).length :=
  makeArgVector_iff 32 [0x63, 0x70, 0, 0x61, 0x20, 0x62, 0] 0 (some 3) (fun _ ↦ 0) (by decide)
    (by decide) (by decide)

/-- `cp a  b`: the second blank makes an empty argument. -/
theorem makeArgVector_empty_argument :
    ¬∀ (argvLen argbufLen : ℕ) (line : List (BitVec 8)) (command : ℕ) (firstArg : Option ℕ)
      (argbuf : ℕ → BitVec 8), (cstr line command).length < kLineMax →
        (argument line firstArg).length < kLineMax → 2 * kLineMax ≤ argbufLen →
          ∃ r, makeArgVector argvLen argbufLen line command firstArg argbuf = some r ∧
            Correct argvLen argbufLen (cstr line command) (argument line firstArg) r := by
  intro hall
  have hcommand : (cstr [0x63, 0x70, 0, 0x61, 0x20, 0x20, 0x62, 0] 0).length < kLineMax := by decide
  have harg : (argument [0x63, 0x70, 0, 0x61, 0x20, 0x20, 0x62, 0] (some 3)).length < kLineMax := by
    decide
  obtain ⟨r, hr, -, hlaid⟩ := hall 32 3840 _ _ _ (fun _ ↦ 0) hcommand harg (by decide)
  obtain ⟨a, hok, hpieces⟩ :=
    (pushAll_command 32 (fun _ ↦ 0) hcommand harg (by decide : 2 * kLineMax ≤ 3840)).1 (by decide)
  rw [hok] at hr
  have hlen := (hlaid a (Option.some.inj hr).symm).strings.length_eq
  rw [hpieces.strings.length_eq] at hlen
  revert hlen
  decide

end ArgVector
end MinOS
