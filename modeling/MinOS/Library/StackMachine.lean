import Mathlib.Tactic

/-!
# Postfix code

Expressions over binary operators, their postfix code, and a machine with a bounded stack that
runs it.  The machine accepts the codes of lists of expressions that fit on its stack, and of
each such code there is one list.
-/

namespace MinOS
namespace StackMachine

variable {κ ω β γ : Type*}

inductive Expr (κ ω : Type*) where
  | const (k : κ)
  | app (o : ω) (a b : Expr κ ω)
  deriving DecidableEq

inductive Token (κ ω : Type*) where
  | const (k : κ)
  | op (o : ω)
  deriving DecidableEq

namespace Expr

def code : Expr κ ω → List (Token κ ω)
  | const k => [.const k]
  | app o a b => a.code ++ b.code ++ [.op o]

/-- The meaning of an expression. -/
def eval (lit : κ → β) (apply : ω → β → β → β) : Expr κ ω → β
  | const k => lit k
  | app o a b => apply o (a.eval lit apply) (b.eval lit apply)

/-- The places on the stack that the code takes. -/
def height : Expr κ ω → ℕ
  | const _ => 1
  | app _ a b => max a.height (b.height + 1)

/-- Every meaning factors through the one in which an expression means itself. -/
theorem eval_self (e : Expr κ ω) : e.eval const app = e := by
  induction e with
  | const k => rfl
  | app o a b iha ihb => rw [eval, iha, ihb]

theorem eval_map {lit : κ → β} {apply : ω → β → β → β} {apply' : ω → γ → γ → γ} (f : β → γ)
    (happly : ∀ o a b, f (apply o a b) = apply' o (f a) (f b)) (e : Expr κ ω) :
    f (e.eval lit apply) = e.eval (f ∘ lit) apply' := by
  induction e with
  | const k => rfl
  | app o a b iha ihb => rw [eval, eval, happly, iha, ihb]

end Expr

section Machine

variable (capacity : ℕ) (lit : κ → β) (apply : ω → β → β → β)

/-- One token; the top of the stack comes first. -/
def step (st : List β) : Token κ ω → Option (List β)
  | .const k => if st.length < capacity then some (lit k :: st) else none
  | .op o =>
      match st with
      | b :: a :: st => some (apply o a b :: st)
      | _ => none

def run (st : List β) : List (Token κ ω) → Option (List β)
  | [] => some st
  | t :: ts => (step capacity lit apply st t).bind fun st' ↦ run st' ts

/-- The expressions fit on the stack one after the other, above `n` values. -/
def Fits : ℕ → List (Expr κ ω) → Prop
  | _, [] => True
  | n, e :: es => n + e.height ≤ capacity ∧ Fits (n + 1) es

variable {capacity lit apply}

theorem run_append (st : List β) (ts us : List (Token κ ω)) :
    run capacity lit apply st (ts ++ us) =
      (run capacity lit apply st ts).bind fun st' ↦ run capacity lit apply st' us := by
  induction ts generalizing st with
  | nil => rfl
  | cons t ts ih =>
      cases h : step capacity lit apply st t with
      | none => simp [run, h]
      | some st' => simpa [run, h] using ih st'

theorem run_singleton (st : List β) (t : Token κ ω) :
    run capacity lit apply st [t] = step capacity lit apply st t :=
  Option.bind_fun_some _

theorem fits_append {n : ℕ} {es es' : List (Expr κ ω)} :
    Fits capacity n (es ++ es') ↔ Fits capacity n es ∧ Fits capacity (n + es.length) es' := by
  induction es generalizing n with
  | nil => simp [Fits]
  | cons e es ih =>
      rw [List.cons_append, Fits, Fits, ih, and_assoc, List.length_cons]
      ring_nf

theorem Fits.mono {c c' n : ℕ} {es : List (Expr κ ω)} (h : Fits c n es) (hle : c ≤ c') :
    Fits c' n es := by
  induction es generalizing n with
  | nil => trivial
  | cons e es ih => exact ⟨h.1.trans hle, ih h.2⟩

theorem exists_fits (es : List (Expr κ ω)) (n : ℕ) : ∃ c, Fits c n es := by
  induction es generalizing n with
  | nil => exact ⟨0, trivial⟩
  | cons e es ih =>
      obtain ⟨c, hc⟩ := ih (n + 1)
      exact ⟨max (n + e.height) c, le_max_left _ _, hc.mono (le_max_right _ _)⟩

/-- The code of an expression leaves its value on the stack. -/
theorem run_code (e : Expr κ ω) {s : List β} (hfits : s.length + e.height ≤ capacity) :
    run capacity lit apply s e.code = some (e.eval lit apply :: s) := by
  induction e generalizing s with
  | const k =>
      rw [Expr.code, run_singleton, step, if_pos (Nat.lt_of_succ_le hfits)]
      rfl
  | app o a b iha ihb =>
      rw [Expr.height] at hfits
      have ha := iha (s := s) (by omega)
      have hb := ihb (s := a.eval lit apply :: s) (by rw [List.length_cons]; omega)
      rw [Expr.code, run_append, run_append, ha, Option.bind_some, hb, Option.bind_some,
        run_singleton]
      rfl

theorem run_codes {es : List (Expr κ ω)} {s : List β} (hfits : Fits capacity s.length es) :
    run capacity lit apply s (es.flatMap Expr.code) =
      some ((es.map (Expr.eval lit apply)).reverse ++ s) := by
  induction es generalizing s with
  | nil => rfl
  | cons e es ih =>
      obtain ⟨hfirst, hrest⟩ := hfits
      have hih := ih (s := e.eval lit apply :: s) hrest
      rw [List.flatMap_cons, run_append, run_code e hfirst, Option.bind_some, hih]
      simp

/-- A code is accepted only as the code of expressions that fit, and leaves their values. -/
theorem run_eq_some {ts : List (Token κ ω)} {st : List β} :
    run capacity lit apply [] ts = some st ↔ ∃ es : List (Expr κ ω), ts = es.flatMap Expr.code ∧
      Fits capacity 0 es ∧ st = (es.map (Expr.eval lit apply)).reverse := by
  constructor
  · induction ts using List.reverseRecOn generalizing st with
    | nil =>
        intro hrun
        exact ⟨[], rfl, trivial, (Option.some.inj hrun).symm⟩
    | append_singleton ts t ih =>
        intro hrun
        rw [run_append] at hrun
        obtain ⟨st₁, hfirst, hlast⟩ := Option.bind_eq_some_iff.mp hrun
        obtain ⟨es, rfl, hfits, hst₁⟩ := ih hfirst
        rw [run_singleton] at hlast
        cases t with
        | const k =>
            rw [step] at hlast
            split_ifs at hlast with hlt
            obtain rfl := Option.some.inj hlast
            have hlen : es.length < capacity := by simpa [hst₁] using hlt
            refine ⟨es ++ [.const k], by simp [Expr.code], ?_, by simp [hst₁, Expr.eval]⟩
            exact fits_append.mpr ⟨hfits, by rw [Expr.height]; omega, trivial⟩
        | op o =>
            -- the last two expressions become the arguments of the operator
            obtain ⟨b, a, st₂, rfl, rfl⟩ : ∃ b a st₂, st₁ = b :: a :: st₂ ∧
                st = apply o a b :: st₂ := by
              match st₁, hlast with
              | b :: a :: st₂, hlast => exact ⟨b, a, st₂, rfl, (Option.some.inj hlast).symm⟩
            have hvalues : es.map (Expr.eval lit apply) = st₂.reverse ++ [a, b] := by
              rw [← List.reverse_reverse (es.map (Expr.eval lit apply)), ← hst₁]
              simp
            obtain ⟨es₂, last, rfl, hes₂, hlast⟩ := List.map_eq_append_iff.mp hvalues
            obtain ⟨ea, rest, rfl, rfl, hrest⟩ := List.map_eq_cons_iff.mp hlast
            obtain ⟨eb, rest, rfl, rfl, hnil⟩ := List.map_eq_cons_iff.mp hrest
            obtain rfl := List.map_eq_nil_iff.mp hnil
            obtain ⟨hfits₂, ha, hb, -⟩ := fits_append.mp hfits
            refine ⟨es₂ ++ [.app o ea eb], by simp [Expr.code], fits_append.mpr ⟨hfits₂, ?_, trivial⟩,
              ?_⟩
            · rw [Expr.height]
              omega
            · rw [List.map_append, List.reverse_append, hes₂, List.reverse_reverse]
              rfl
  · rintro ⟨es, rfl, hfits, rfl⟩
    rw [run_codes (s := []) hfits, List.append_nil]

/-- There is one list of expressions for a code: it is what the machine computes when an
expression means itself. -/
theorem code_injective {es es' : List (Expr κ ω)}
    (h : es.flatMap Expr.code = es'.flatMap Expr.code) : es = es' := by
  obtain ⟨c, hc⟩ := exists_fits es 0
  obtain ⟨c', hc'⟩ := exists_fits es' 0
  have hrun : ∀ {es : List (Expr κ ω)}, Fits (max c c') 0 es →
      run (max c c') Expr.const Expr.app [] (es.flatMap Expr.code) = some es.reverse := by
    intro es hfits
    rw [run_codes (s := []) hfits, List.map_congr_left fun e _ ↦ e.eval_self]
    simp
  have hsame := hrun (hc.mono (le_max_left c c'))
  rw [h, hrun (hc'.mono (le_max_right c c'))] at hsame
  exact List.reverse_injective (Option.some.inj hsame).symm

end Machine

end StackMachine
end MinOS
