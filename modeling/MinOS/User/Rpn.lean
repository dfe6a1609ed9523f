import MinOS.Library.StackMachine
import MinOS.Terminal.CommandLine

/-!
# The calculator `rpn`

`rpn.cpp` runs the arguments of its command line as postfix code.  An access outside the array
`stack` is undefined, and ends the model's run.
-/

namespace MinOS
namespace Rpn

open StackMachine

/-- The length of `stack`. -/
def stackSize : ℕ := 100

/-- `stack_ptr` and the array `stack`, in which only the values up to `stack_ptr` count. -/
structure State where
  stackPtr : ℤ
  stack : ℕ → BitVec 64
  bounds : -1 ≤ stackPtr ∧ stackPtr < stackSize

namespace State

def start : State := ⟨-1, fun _ ↦ 0, by decide⟩

def pop (s : State) : Option (BitVec 64 × State) :=
  if h : 0 ≤ s.stackPtr then
    some (s.stack s.stackPtr.toNat, ⟨s.stackPtr - 1, s.stack, by have := s.bounds; omega⟩)
  else none

def push (s : State) (value : BitVec 64) : Option State :=
  if h : s.stackPtr + 1 < stackSize then
    some ⟨s.stackPtr + 1, Function.update s.stack (s.stackPtr + 1).toNat value,
      by have := s.bounds; omega⟩
  else none

end State

def isdigit (c : BitVec 8) : Bool := 0x30 ≤ c && c ≤ 0x39

/-- The value of decimal digits. -/
def decimal (digits : List (BitVec 8)) : ℕ :=
  digits.foldl (fun n c ↦ 10 * n + (c.toNat - 0x30)) 0

/-- `atol`, which ends at the first character that is no digit and at the limits of `long`. -/
def atol (s : List (BitVec 8)) : ℤ :=
  match s.dropWhile CommandLine.isspace with
  | 0x2d :: t => max (-(decimal (t.takeWhile isdigit))) (-2 ^ 63)
  | 0x2b :: t => min (decimal (t.takeWhile isdigit)) (2 ^ 63 - 1)
  | t => min (decimal (t.takeWhile isdigit)) (2 ^ 63 - 1)

/-- One turn of the loop of `main`. -/
def turn (s : State) (arg : List (BitVec 8)) : Option State :=
  if arg = [0x2b] then do
    let (b, s) ← s.pop
    let (a, s) ← s.pop
    s.push (a + b)
  else if arg = [0x2d] then do
    let (b, s) ← s.pop
    let (a, s) ← s.pop
    s.push (a - b)
  else s.push (BitVec.ofInt 64 (atol arg))

/-- `main`: what is printed, and the exit code. -/
def main (args : List (List (BitVec 8))) : Option (String × BitVec 32) := do
  let s ← args.foldlM turn .start
  let result := if 0 ≤ s.stackPtr then s.stack s.stackPtr.toNat else 0
  return (toString result.toInt ++ "\n", result.setWidth 32)

/-! ## What it computes -/

inductive Arith where
  | add
  | sub
  deriving DecidableEq

def Arith.word : Arith → BitVec 64 → BitVec 64 → BitVec 64
  | .add, a, b => a + b
  | .sub, a, b => a - b

def Arith.int : Arith → ℤ → ℤ → ℤ
  | .add, a, b => a + b
  | .sub, a, b => a - b

/-- What an argument stands for. -/
def token (arg : List (BitVec 8)) : Token ℤ Arith :=
  if arg = [0x2b] then .op .add else if arg = [0x2d] then .op .sub else .const (atol arg)

/-- The value of the last expression, or 0. -/
def lastValue (es : List (Expr ℤ Arith)) : ℤ :=
  (es.getLast?.map (Expr.eval id Arith.int)).getD 0

/-- The values on the stack, the top first. -/
def State.values (s : State) : List (BitVec 64) :=
  ((List.range (s.stackPtr + 1).toNat).map s.stack).reverse

section Values

variable {s s' : State} {v : BitVec 64} {vs : List (BitVec 64)}

theorem values_start : State.start.values = [] := rfl

theorem length_values (s : State) : (s.values.length : ℤ) = s.stackPtr + 1 := by
  have hbounds := s.bounds
  simp only [State.values, List.length_reverse, List.length_map, List.length_range]
  omega

theorem values_of_nonneg (h : 0 ≤ s.stackPtr) : ∃ s', s.pop = some (s.stack s.stackPtr.toNat, s') ∧
    s.values = s.stack s.stackPtr.toNat :: s'.values := by
  refine ⟨_, dif_pos h, ?_⟩
  have hnext : (s.stackPtr + 1).toNat = s.stackPtr.toNat + 1 := by omega
  have hprev : s.stackPtr - 1 + 1 = s.stackPtr := by omega
  simp only [State.values, hnext, hprev, List.range_succ, List.map_append, List.map_singleton,
    List.reverse_append, List.reverse_singleton, List.singleton_append]

theorem pop_of_cons (h : s.values = v :: vs) : ∃ s', s.pop = some (v, s') ∧ s'.values = vs := by
  have hlen := length_values s
  rw [h, List.length_cons] at hlen
  obtain ⟨s', hpop, hvalues⟩ := values_of_nonneg (s := s) (by omega)
  rw [h] at hvalues
  obtain ⟨rfl, rfl⟩ := List.cons.inj hvalues
  exact ⟨s', hpop, rfl⟩

theorem pop_of_nil (h : s.values = []) : s.pop = none := by
  have hlen := length_values s
  rw [h, List.length_nil] at hlen
  exact dif_neg (by omega)

theorem values_push (s : State) (v : BitVec 64) : (s.push v).map State.values =
    if s.values.length < stackSize then some (v :: s.values) else none := by
  have hlen := length_values s
  have hbounds := s.bounds
  by_cases h : s.stackPtr + 1 < stackSize
  · rw [if_pos (by omega), State.push, dif_pos h, Option.map_some]
    have hnext : (s.stackPtr + 1 + 1).toNat = (s.stackPtr + 1).toNat + 1 := by omega
    simp only [State.values, hnext, List.range_succ, List.map_append, List.map_singleton,
      List.reverse_append, List.reverse_singleton, List.singleton_append, Function.update_self]
    congr 3
    apply List.map_congr_left
    intro i hi
    exact Function.update_of_ne (List.mem_range.mp hi).ne _ _
  · rw [if_neg (by omega), State.push, dif_neg h, Option.map_none]

end Values

theorem values_operator (s : State) (o : Arith) :
    (do let (b, s) ← s.pop
        let (a, s) ← s.pop
        s.push (o.word a b)).map State.values =
      step stackSize (BitVec.ofInt 64) Arith.word s.values (.op o) := by
  match hvalues : s.values with
  | [] => simp [pop_of_nil hvalues, step]
  | [b] =>
      obtain ⟨s₁, hfirst, hrest⟩ := pop_of_cons hvalues
      simp [hfirst, pop_of_nil hrest, step]
  | b :: a :: vs =>
      obtain ⟨s₁, hfirst, hrest⟩ := pop_of_cons hvalues
      obtain ⟨s₂, hsecond, hvs⟩ := pop_of_cons hrest
      have hroom : s₂.values.length < stackSize := by
        have hlen := length_values s
        have hbounds := s.bounds
        rw [hvalues, List.length_cons, List.length_cons] at hlen
        rw [hvs]
        omega
      have hpush := values_push s₂ (o.word a b)
      rw [if_pos hroom, hvs] at hpush
      simpa [hfirst, hsecond, step] using hpush

/-- A turn is a step of the machine with a bounded stack. -/
theorem values_turn (s : State) (arg : List (BitVec 8)) : (turn s arg).map State.values =
    step stackSize (BitVec.ofInt 64) Arith.word s.values (token arg) := by
  unfold turn token
  split_ifs
  · exact values_operator s .add
  · exact values_operator s .sub
  · exact values_push s _

theorem values_turns (s : State) (args : List (List (BitVec 8))) :
    (args.foldlM turn s).map State.values =
      run stackSize (BitVec.ofInt 64) Arith.word s.values (args.map token) := by
  induction args generalizing s with
  | nil => rfl
  | cons arg args ih =>
      have hturn := values_turn s arg
      rw [List.foldlM_cons, List.map_cons, run, ← hturn]
      cases h : turn s arg with
      | none => rfl
      | some s' => exact ih s'

theorem word_eval (e : Expr ℤ Arith) :
    e.eval (BitVec.ofInt 64) Arith.word = BitVec.ofInt 64 (e.eval id Arith.int) := by
  refine (Expr.eval_map (BitVec.ofInt 64) (fun o a b ↦ ?_) e).symm
  cases o with
  | add => exact BitVec.ofInt_add a b
  | sub =>
      change BitVec.ofInt 64 (a - b) = BitVec.ofInt 64 a - BitVec.ofInt 64 b
      rw [BitVec.sub_eq_add_neg, ← BitVec.ofInt_neg, ← BitVec.ofInt_add, Int.sub_eq_add_neg]

/-- The result is the value on top of the stack. -/
theorem main_eq (args : List (List (BitVec 8))) : main args =
    (run stackSize (BitVec.ofInt 64) Arith.word [] (args.map token)).map fun st ↦
      (toString (st.head?.getD 0).toInt ++ "\n", (st.head?.getD 0).setWidth 32) := by
  rw [← values_start, ← values_turns, Option.map_map, main]
  cases h : args.foldlM turn .start with
  | none => rfl
  | some s =>
      have hhead : (s.values.head?.getD 0) =
          if 0 ≤ s.stackPtr then s.stack s.stackPtr.toNat else 0 := by
        split_ifs with hptr
        · obtain ⟨s', -, hvalues⟩ := values_of_nonneg hptr
          rw [hvalues]
          rfl
        · have hlen := length_values s
          rw [List.eq_nil_of_length_eq_zero (l := s.values) (by omega)]
          rfl
      change some _ = some _
      rw [← hhead]
      rfl

/-- `rpn` prints the value of the last expression modulo `2 ^ 64` as a `long`, and exits with it
modulo `2 ^ 32`, on exactly the command lines that are the postfix code of expressions which fit
on its stack.  Every other command line makes it leave the array. -/
theorem main_eq_some_iff (args : List (List (BitVec 8))) (out : String × BitVec 32) :
    main args = some out ↔ ∃! es : List (Expr ℤ Arith), args.map token = es.flatMap Expr.code ∧
      Fits stackSize 0 es ∧ out = (toString ((lastValue es).bmod (2 ^ 64)) ++ "\n",
        BitVec.ofInt 32 (lastValue es)) := by
  have hvalue : ∀ es : List (Expr ℤ Arith),
      ((es.map (Expr.eval (BitVec.ofInt 64) Arith.word)).reverse.head?.getD 0) =
        BitVec.ofInt 64 (lastValue es) := by
    intro es
    rw [List.head?_reverse, List.getLast?_map, lastValue]
    cases es.getLast? with
    | none => rfl
    | some e => exact word_eval e
  have hout : ∀ n : ℤ, (BitVec.ofInt 64 n).setWidth 32 = BitVec.ofInt 32 n := by
    intro n
    apply BitVec.eq_of_toNat_eq
    rw [BitVec.toNat_setWidth, BitVec.toNat_ofInt, BitVec.toNat_ofInt]
    omega
  rw [main_eq, Option.map_eq_some_iff]
  constructor
  · rintro ⟨st, hrun, rfl⟩
    obtain ⟨es, hcode, hfits, rfl⟩ := run_eq_some.mp hrun
    refine ⟨es, ⟨hcode, hfits, ?_⟩, fun es' h ↦ code_injective (h.1.symm.trans hcode)⟩
    rw [hvalue, hout, BitVec.toInt_ofInt]
  · rintro ⟨es, ⟨hcode, hfits, rfl⟩, -⟩
    refine ⟨_, run_eq_some.mpr ⟨es, hcode, hfits, rfl⟩, ?_⟩
    rw [hvalue, hout, BitVec.toInt_ofInt]

end Rpn
end MinOS
