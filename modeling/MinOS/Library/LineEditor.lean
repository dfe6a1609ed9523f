import Mathlib.Tactic
import MinOS.Library.Transition

/-!
# Line editors

A line is typed and erased at its end, entered, and recalled from a history of the lines that were
entered.  The cursor shares its row with output, so that a key may be refused where it stands.
-/

namespace MinOS

open Transition

/-- The editor of lines over `α`. -/
structure LineEditor (α : Type*) where
  line : List α
  /-- The column of the cursor. -/
  column : ℤ
  /-- The newest entry comes first. -/
  history : List (List α)
  /-- The entry that was recalled last. -/
  place : Option ℕ
  /-- All lines that were entered, the newest first. -/
  entered : List (List α)

namespace LineEditor

variable {α : Type*}

inductive Key (α : Type*) where
  | char (a : α)
  | backspace
  | older
  | newer
  | enter
  | other

/-- An empty line behind a prompt, with `n` empty entries in the history. -/
def start (n : ℕ) : LineEditor α := ⟨[], 1, List.replicate n [], none, []⟩

/-- The entry before the one at `place`. -/
def older (e : LineEditor α) : Option ℕ :=
  match e.place with
  | none => if 0 < e.history.length then some 0 else none
  | some i => if i + 1 < e.history.length then some (i + 1) else some i

/-- The entry after the one at `place`; there is none after the newest one. -/
def newer (e : LineEditor α) : Option ℕ :=
  match e.place with
  | none => none
  | some 0 => none
  | some (i + 1) => some i

/-- The entry at a place in the history, or an empty line. -/
def entry (e : LineEditor α) (place : Option ℕ) : List α := (place.bind (e.history[·]?)).getD []

def takeEntry (e : LineEditor α) (place : Option ℕ) : LineEditor α :=
  { e with line := e.entry place, column := (e.entry place).length + 1, place := place }

def insert (columns : ℤ) (capacity : ℕ) (e : LineEditor α) (a : α) : LineEditor α :=
  if e.column < columns - 1 ∧ e.line.length + 1 < capacity then
    { e with line := e.line ++ [a], column := e.column + 1 }
  else e

def erase (e : LineEditor α) : LineEditor α :=
  if 1 < e.column then { e with line := e.line.dropLast, column := e.column - 1 } else e

/-- The line is entered; only one with a character becomes an entry. -/
def enter (e : LineEditor α) : LineEditor α :=
  { e with
    line := []
    history := if e.line.isEmpty then e.history else e.line :: e.history.dropLast
    place := none
    entered := e.line :: e.entered }

/-- Keys, and output in between.  Output leaves the cursor in any column. -/
inductive Step (columns : ℤ) (capacity : ℕ) :
    LineEditor α → Option (Key α) → LineEditor α → Prop where
  | char (e : LineEditor α) (a : α) :
      Step columns capacity e (some (.char a)) (e.insert columns capacity a)
  | backspace (e : LineEditor α) : Step columns capacity e (some .backspace) e.erase
  | older (e : LineEditor α) : Step columns capacity e (some .older) (e.takeEntry e.older)
  | newer (e : LineEditor α) : Step columns capacity e (some .newer) (e.takeEntry e.newer)
  | enter (e : LineEditor α) (column : ℤ) :
      Step columns capacity e (some .enter) { e.enter with column := column }
  | other (e : LineEditor α) : Step columns capacity e (some .other) e
  | output (e : LineEditor α) (column : ℤ) :
      Step columns capacity e none { e with column := column }

variable {columns : ℤ} {capacity n : ℕ} {e e' : LineEditor α} {keys : List (Option (Key α))}

/-! ## The history -/

/-- The latest `n` entries, filled up with empty ones. -/
def latest (n : ℕ) (entered : List (List α)) : List (List α) :=
  (entered.filter (fun l : List α ↦ !l.isEmpty) ++ List.replicate n []).take n

theorem length_latest (n : ℕ) (entered : List (List α)) : (latest n entered).length = n := by
  simp [latest]

theorem latest_cons {n : ℕ} (hn : 0 < n) {l : List α} (hl : l.isEmpty = false)
    (entered : List (List α)) : latest n (l :: entered) = l :: (latest n entered).dropLast := by
  obtain ⟨n, rfl⟩ := Nat.exists_eq_succ_of_ne_zero hn.ne'
  have hdrop : (latest (n + 1) entered).dropLast =
      (entered.filter (fun l : List α ↦ !l.isEmpty) ++ List.replicate (n + 1) []).take n := by
    rw [List.dropLast_eq_take, length_latest, latest, List.take_take,
      Nat.min_eq_left (Nat.sub_le _ _)]
    rfl
  rw [hdrop, latest, List.filter_cons_of_pos (by simp [hl]), List.cons_append, List.take_succ_cons]

theorem latest_cons_of_isEmpty (n : ℕ) {l : List α} (hl : l.isEmpty) (entered : List (List α)) :
    latest n (l :: entered) = latest n entered := by
  rw [latest, List.filter_cons_of_neg (by simp [hl]), latest]

theorem history_step (hn : 0 < n) {key : Option (Key α)} (he : e.history = latest n e.entered)
    (hstep : Step columns capacity e key e') : e'.history = latest n e'.entered := by
  cases hstep with
  | char a =>
      rw [insert]
      split_ifs <;> exact he
  | backspace =>
      rw [erase]
      split_ifs <;> exact he
  | older => exact he
  | newer => exact he
  | enter column =>
      rw [enter]
      dsimp only
      split_ifs with hempty
      · rw [latest_cons_of_isEmpty n hempty, he]
      · rw [latest_cons hn (by simpa using hempty), he]
  | other => exact he
  | output column => exact he

/-- The history holds the latest lines that were entered and had a character. -/
theorem history_of_run (hn : 0 < n) (hrun : Run (Step columns capacity) (start n) keys e) :
    e.history = latest n e.entered := by
  have hall : ∀ (e : LineEditor α) key e', e.history = latest n e.entered →
      Step columns capacity e key e' → e'.history = latest n e'.entered :=
    fun _ _ _ he hstep ↦ history_step hn he hstep
  exact hrun.invariant hall (by simp [start, latest])

/-! ## Recalling -/

theorem older_eq {k : ℕ} (hplace : e.place = if k = 0 then none else some (k - 1))
    (hk : k < e.history.length) : e.older = some k := by
  rw [older, hplace]
  by_cases hzero : k = 0
  · rw [if_pos hzero]
    dsimp only
    rw [if_pos (by omega), hzero]
  · rw [if_neg hzero]
    dsimp only
    rw [if_pos (by omega), Nat.sub_add_cancel (by omega)]

/-- Going back `k` entries from an empty prompt recalls the entry before the `k - 1` newest ones. -/
theorem line_of_older (hplace : e.place = none) {k : ℕ} (hk : k < e.history.length)
    (hrun : Run (Step columns capacity) e (List.replicate (k + 1) (some .older)) e') :
    e'.line = (e.history[k]?).getD [] ∧ e'.history = e.history ∧ e'.entered = e.entered := by
  suffices hall : ∀ (keys : List (Option (Key α))) (e' : LineEditor α),
      Run (Step columns capacity) e keys e' → (∀ key ∈ keys, key = some .older) →
        keys.length ≤ k + 1 → e'.place = (if keys.length = 0 then none else some (keys.length - 1)) ∧
          e'.history = e.history ∧ e'.entered = e.entered ∧
            (keys ≠ [] → e'.line = (e.history[keys.length - 1]?).getD []) by
    obtain ⟨-, hhistory, hentered, hline⟩ := hall _ e' hrun
      (fun key hkey ↦ List.eq_of_mem_replicate hkey) (by rw [List.length_replicate])
    rw [List.length_replicate] at hline
    exact ⟨hline (by simp), hhistory, hentered⟩
  intro keys e' hrun
  induction hrun with
  | nil => exact fun _ _ ↦ ⟨hplace, rfl, rfl, fun hne ↦ absurd rfl hne⟩
  | @snoc e u keys key run last ih =>
      intro hkeys hlen
      rw [List.length_append, List.length_singleton] at hlen ⊢
      obtain ⟨hplace', hhistory, hentered, -⟩ := ih (fun x hx ↦ hkeys x (List.mem_append_left _ hx))
        (by omega)
      obtain rfl := hkeys key (List.mem_append_right _ (List.mem_singleton_self key))
      cases last
      have holder := older_eq hplace' (by rw [hhistory]; omega)
      rw [holder]
      refine ⟨by rw [if_neg (Nat.succ_ne_zero _)]; rfl, hhistory, hentered, fun _ ↦ ?_⟩
      rw [takeEntry, entry, hhistory]
      rfl

end LineEditor
end MinOS
