import Mathlib.Tactic.Common

/-!
# Programs that leave a trace

A program changes a state, leaves events behind, and may not come back.  What it must not do
is stated for its events, what it has done for the state in which it comes back.
-/

namespace MinOS

universe u

/-- The events of a run, and its value and last state if it comes back. -/
structure Outcome (σ ε α : Type u) where
  events : List ε
  result : Option (α × σ)

def Program (σ ε α : Type u) : Type u := σ → Outcome σ ε α

namespace Program

variable {σ ε α β : Type u}

instance : Monad (Program σ ε) where
  pure a := fun s ↦ ⟨[], some (a, s)⟩
  bind x f := fun s ↦
    { events := (x s).events ++ (x s).result.elim [] fun r ↦ (f r.1 r.2).events
      result := (x s).result.bind fun r ↦ (f r.1 r.2).result }

instance : MonadStateOf σ (Program σ ε) where
  get := fun s ↦ ⟨[], some (s, s)⟩
  set s := fun _ ↦ ⟨[], some (⟨⟩, s)⟩
  modifyGet f := fun s ↦ ⟨[], some (f s)⟩

def emit (e : ε) : Program σ ε PUnit := fun s ↦ ⟨[e], some (⟨⟩, s)⟩

/-- A call of something outside, which may not come back. -/
def call (r : Option α) : Program σ ε α := fun s ↦ ⟨[], r.map (·, s)⟩

/-! ## The parts of a run -/

section Runs

variable {x : Program σ ε α} {f : α → Program σ ε β} {s t : σ} {a : α}

theorem bind_result (x : Program σ ε α) (f : α → Program σ ε β) (s : σ) :
    ((x >>= f) s).result = (x s).result.bind fun r ↦ (f r.1 r.2).result :=
  rfl

/-- A program that does not come back hides what follows it. -/
theorem bind_of_hangs (h : (x s).result = none) : (x >>= f) s = ⟨(x s).events, none⟩ := by
  change Outcome.mk _ _ = _
  rw [h, Option.elim_none, List.append_nil, Option.bind_none]

theorem bind_of_returns (h : (x s).result = some (a, t)) :
    (x >>= f) s = ⟨(x s).events ++ (f a t).events, (f a t).result⟩ := by
  change Outcome.mk _ _ = _
  rw [h]
  rfl

theorem call_some_bind (a : α) (f : α → Program σ ε β) (s : σ) :
    (call (some a) >>= f) s = f a s := rfl

theorem get_bind (f : σ → Program σ ε α) (s : σ) : (get >>= f) s = f s s := rfl

theorem mem_bind_left {e : ε} (h : e ∈ (x s).events) : e ∈ ((x >>= f) s).events :=
  List.mem_append_left _ h

theorem mem_bind_right {e : ε} (hx : (x s).result = some (a, t)) (h : e ∈ (f a t).events) :
    e ∈ ((x >>= f) s).events := by
  rw [bind_of_returns hx]
  exact List.mem_append_right _ h

theorem bind_hangs_iff :
    ((x >>= f) s).result = none ↔
      (x s).result = none ∨ ∃ a t, (x s).result = some (a, t) ∧ (f a t).result = none := by
  rw [bind_result]
  cases (x s).result with
  | none => exact iff_of_true rfl (Or.inl rfl)
  | some r =>
      refine ⟨fun h ↦ Or.inr ⟨r.1, r.2, rfl, h⟩, ?_⟩
      rintro (h | ⟨a, t, hr, h⟩)
      · cases h
      · cases hr
        exact h

end Runs

/-! ## Safe programs -/

/-- From a state with `P` every event of the program is allowed, and if it comes back, it is
with `Q`. -/
def Safe (ok : ε → Prop) (P : σ → Prop) (x : Program σ ε α) (Q : α → σ → Prop) : Prop :=
  ∀ s, P s → (∀ e ∈ (x s).events, ok e) ∧ ∀ a t, (x s).result = some (a, t) → Q a t

variable {ok : ε → Prop} {P : σ → Prop} {x : Program σ ε α} {Q : α → σ → Prop}

theorem Safe.pure (a : α) (h : ∀ s, P s → Q a s) :
    Safe ok P (Pure.pure a : Program σ ε α) Q := by
  intro s hs
  refine ⟨fun _ he ↦ absurd he List.not_mem_nil, ?_⟩
  rintro _ _ ⟨⟩
  exact h s hs

theorem Safe.bind {f : α → Program σ ε β} {R : β → σ → Prop} (hx : Safe ok P x Q)
    (hf : ∀ a, Safe ok (Q a) (f a) R) : Safe ok P (x >>= f) R := by
  intro s hs
  obtain ⟨hevents, hresult⟩ := hx s hs
  cases hreturns : (x s).result with
  | none =>
      rw [bind_of_hangs hreturns]
      exact ⟨hevents, fun _ _ h ↦ nomatch h⟩
  | some r =>
      obtain ⟨hrest, hlast⟩ := hf r.1 r.2 (hresult _ _ hreturns)
      rw [bind_of_returns hreturns]
      refine ⟨fun e he ↦ ?_, hlast⟩
      rcases List.mem_append.mp he with he | he
      · exact hevents e he
      · exact hrest e he

theorem Safe.weaken {P' : σ → Prop} {Q' : α → σ → Prop} (hx : Safe ok P x Q)
    (hpre : ∀ s, P' s → P s) (hpost : ∀ a s, Q a s → Q' a s) : Safe ok P' x Q' := fun s hs ↦
  ⟨(hx s (hpre s hs)).1, fun a t h ↦ hpost a t ((hx s (hpre s hs)).2 a t h)⟩

/-- A program that reads the state goes on from that state. -/
theorem Safe.bind_get {f : σ → Program σ ε α} (h : ∀ t, P t → Safe ok (· = t) (f t) Q) :
    Safe ok P (get >>= f) Q := fun s hs ↦ h s hs s rfl

theorem Safe.bind_get_of_forall {f : σ → Program σ ε α} (h : ∀ t, Safe ok P (f t) Q) :
    Safe ok P (get >>= f) Q :=
  .bind_get fun t ht ↦ (h t).weaken (fun _ hs ↦ hs ▸ ht) fun _ _ hs ↦ hs

theorem Safe.set {t : σ} {R : σ → Prop} (h : ∀ s, P s → R t) :
    Safe ok P (set t : Program σ ε PUnit) fun _ ↦ R := by
  intro s hs
  refine ⟨fun _ he ↦ absurd he List.not_mem_nil, ?_⟩
  rintro _ _ ⟨⟩
  exact h s hs

theorem Safe.modify {g : σ → σ} {R : σ → Prop} (h : ∀ s, P s → R (g s)) :
    Safe ok P (modify g : Program σ ε PUnit) fun _ ↦ R := by
  intro s hs
  refine ⟨fun _ he ↦ absurd he List.not_mem_nil, ?_⟩
  rintro _ _ ⟨⟩
  exact h s hs

theorem Safe.emit {e : ε} (he : ok e) : Safe ok P (emit e : Program σ ε PUnit) fun _ ↦ P := by
  intro s hs
  refine ⟨fun e' he' ↦ ?_, ?_⟩
  · rwa [List.mem_singleton.mp he']
  · rintro _ _ ⟨⟩
    exact hs

theorem Safe.call (r : Option α) : Safe ok P (call r : Program σ ε α) fun _ ↦ P := by
  intro s hs
  refine ⟨fun _ he ↦ absurd he List.not_mem_nil, fun a t h ↦ ?_⟩
  obtain ⟨b, -, hpair⟩ := Option.map_eq_some_iff.mp h
  cases hpair
  exact hs

theorem Safe.ite {c : Prop} [Decidable c] {y : Program σ ε α} (hx : c → Safe ok P x Q)
    (hy : ¬c → Safe ok P y Q) : Safe ok P (if c then x else y) Q := by
  by_cases hc : c
  · rw [if_pos hc]
    exact hx hc
  · rw [if_neg hc]
    exact hy hc

theorem Safe.forM {γ : Type u} {f : γ → Program σ ε PUnit} (l : List γ)
    (h : ∀ c ∈ l, Safe ok P (f c) fun _ ↦ P) : Safe ok P (l.forM f) fun _ ↦ P := by
  induction l with
  | nil => exact .pure _ fun _ hs ↦ hs
  | cons c l ih =>
      exact .bind (h c List.mem_cons_self) fun _ ↦ ih fun c hc ↦ h c (List.mem_cons_of_mem _ hc)

/-! ## Programs that come back -/

/-- From every state the program comes back. -/
def Returns (x : Program σ ε α) : Prop := ∀ s, ∃ a t, (x s).result = some (a, t)

theorem Returns.pure (a : α) : Returns (Pure.pure a : Program σ ε α) := fun s ↦ ⟨a, s, rfl⟩

theorem Returns.get : Returns (get : Program σ ε σ) := fun s ↦ ⟨s, s, rfl⟩

theorem Returns.set (t : σ) : Returns (set t : Program σ ε PUnit) := fun _ ↦ ⟨⟨⟩, t, rfl⟩

theorem Returns.modify (g : σ → σ) : Returns (modify g : Program σ ε PUnit) := fun s ↦
  ⟨⟨⟩, g s, rfl⟩

theorem Returns.emit (e : ε) : Returns (emit e : Program σ ε PUnit) := fun s ↦ ⟨⟨⟩, s, rfl⟩

theorem Returns.call (a : α) : Returns (call (some a) : Program σ ε α) := fun s ↦ ⟨a, s, rfl⟩

theorem Returns.bind {f : α → Program σ ε β} (hx : Returns x) (hf : ∀ a, Returns (f a)) :
    Returns (x >>= f) := by
  intro s
  obtain ⟨a, t, hresult⟩ := hx s
  rw [bind_of_returns hresult]
  exact hf a t

theorem Returns.ite {c : Prop} [Decidable c] {y : Program σ ε α} (hx : Returns x)
    (hy : Returns y) : Returns (if c then x else y) := by
  by_cases hc : c
  · rwa [if_pos hc]
  · rwa [if_neg hc]

theorem Returns.forM {γ : Type u} {f : γ → Program σ ε PUnit} (l : List γ)
    (h : ∀ c, Returns (f c)) : Returns (l.forM f) := by
  induction l with
  | nil => exact .pure _
  | cons c l ih => exact .bind (h c) fun _ ↦ ih

theorem Returns.not_hangs (hx : Returns x) (s : σ) : (x s).result ≠ none := by
  obtain ⟨a, t, hresult⟩ := hx s
  rw [hresult]
  exact Option.some_ne_none _

/-- Nothing that is sure to come back makes a program hang. -/
theorem Returns.bind_hangs_iff {f : α → Program σ ε β} (hf : ∀ a, Returns (f a)) (s : σ) :
    ((x >>= f) s).result = none ↔ (x s).result = none := by
  rw [Program.bind_hangs_iff]
  refine or_iff_left ?_
  rintro ⟨a, t, -, h⟩
  exact (hf a).not_hangs t h

end Program
end MinOS
