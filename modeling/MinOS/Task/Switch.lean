import MinOS.Task.Context

/-!
# Runs of tasks on one processor

Tasks are suspended by the timer interrupt and by `Sleep`, and go on when some
later switch chooses them.  What runs in between is any code that leaves the
contexts of suspended tasks alone.  An application is entered by `CallApp`, which
returns when the application exits.
-/

namespace MinOS
namespace Context

open WordMemory X86 Transition

variable {τ : Type*}

/-! ## Steps -/

/-- The processor with the tasks that exist and the addresses of their contexts. -/
structure System (τ : Type*) where
  machine : Machine
  current : τ
  context : τ → Option Word

inductive Event (τ : Type*) where
  | work
  | newTask (t : τ) (a : Word)
  | timer (next : τ)
  | sleep (next : τ)
  | finish (next : τ)

/-- The task that `RestoreContext` is called for. -/
def Event.next : Event τ → Option τ
  | .work => none
  | .newTask _ _ => none
  | .timer next => some next
  | .sleep next => some next
  | .finish next => some next

/-- The registers that the current task has to go on with. -/
def Event.savedRegs (m : Machine) : Event τ → Option Regs
  | .timer _ => some m.toRegs
  | .sleep _ => some (afterReturn m)
  | _ => none

/-- The context of `t` is not written. -/
def Spares (context : τ → Option Word) (mem mem' : Memory) (t : τ) : Prop :=
  ∀ a, context t = some a → Agrees mem mem' a contextBytes

/-- `RestoreContext` is called for `next` on a stack that is in no context. -/
structure Restores (context : τ → Option Word) (m : Machine) (next : τ) : Prop where
  context_eq : context next = some (m.gpr .rdi)
  room : ∀ t a, context t = some a → Apart (m.gpr .rsp - 40) 40 a contextBytes

theorem Event.next_of_savedRegs {e : Event τ} {m : Machine} {r : Regs}
    (hr : e.savedRegs m = some r) : ∃ next, e.next = some next := by
  cases e with
  | work => cases hr
  | newTask => cases hr
  | timer next => exact ⟨next, rfl⟩
  | sleep next => exact ⟨next, rfl⟩
  | finish => cases hr

/-- The task is not running, and its context has these registers. -/
def Suspended (s : System τ) (t : τ) (r : Regs) : Prop :=
  s.current ≠ t ∧ ∃ a, s.context t = some a ∧ Saved s.machine.mem a r

/-- What every switch does before `RestoreContext`. -/
structure Switches (s s' : System τ) (e : Event τ) (next : τ) (k : Machine) : Prop where
  machine : s'.machine = run k restoreContext
  current : s'.current = next
  other : next ≠ s.current
  restores : Restores s'.context k next
  context : ∀ t ≠ s.current, s'.context t = s.context t
  spares : ∀ t ≠ s.current, Spares s.context s.machine.mem k.mem t
  saved : ∀ r, e.savedRegs s.machine = some r →
    ∃ a, s'.context s.current = some a ∧ Saved k.mem a r

/-- `RestoreContext` writes to no context. -/
theorem Switches.agrees {s s' : System τ} {e : Event τ} {t next : τ} {k : Machine} {a : Word}
    (h : Switches s s' e next k) (ha : s'.context t = some a) :
    Agrees k.mem s'.machine.mem a contextBytes := by
  obtain ⟨r, hr⟩ := exists_saved k.mem (k.gpr .rdi)
  rw [h.machine]
  exact (run_restoreContext rfl hr (h.restores.room _ _ h.restores.context_eq)).2 a _
    (h.restores.room t a ha)

section Step

variable [DecidableEq τ]

inductive Step (gate : Gate) : System τ → Event τ → System τ → Prop where
  /-- The current task runs, in an application or in the kernel. -/
  | work {s : System τ} {m : Machine}
      (spares : ∀ t ≠ s.current, Spares s.context s.machine.mem m.mem t) :
      Step gate s .work { s with machine := m }
  | newTask {s : System τ} {m : Machine} {t : τ} {a : Word}
      (spares : ∀ u ≠ s.current, Spares s.context s.machine.mem m.mem u)
      (new : s.context t = none)
      (apart : ∀ u b, s.context u = some b → Apart a contextBytes b contextBytes)
      (handler : Apart (stackTop gate - 752) handlerBytes a contextBytes) :
      Step gate s (.newTask t a)
        { s with machine := m, context := Function.update s.context t (some a) }
  /-- `LAPICTimerOnInterrupt` calls `SwitchTask`, which copies the frame of the
  handler and rotates the queue. -/
  | timer {s : System τ} {h k : Machine} {mem : Memory} {a : Word} {next : τ}
      (handled : h = run (interrupt gate s.machine) intHandlerLAPICTimer)
      (frame : Agrees h.mem mem (h.gpr .rdi) contextBytes)
      (spares : ∀ t ≠ s.current, Spares s.context h.mem mem t)
      (current : s.context s.current = some a)
      (rotated : ∀ t, Spares s.context (memcpy mem a (h.gpr .rdi) contextBytes) k.mem t)
      (other : next ≠ s.current) (restores : Restores s.context k next) :
      Step gate s (.timer next) { s with machine := run k restoreContext, current := next }
  /-- `Sleep` calls `SwitchContext`. -/
  | sleep {s : System τ} {next : τ}
      (current : s.context s.current = some (s.machine.gpr .rsi))
      (context_eq : s.context next = some (s.machine.gpr .rdi))
      (room : ∀ t a, s.context t = some a → Apart (s.machine.gpr .rsp - 40) 48 a contextBytes)
      (other : next ≠ s.current) :
      Step gate s (.sleep next)
        { s with machine := run (run s.machine switchContext) restoreContext, current := next }
  /-- `Finish` has destroyed the current task. -/
  | finish {s : System τ} {next : τ} (other : next ≠ s.current)
      (restores : Restores (Function.update s.context s.current none) s.machine next) :
      Step gate s (.finish next)
        { machine := run s.machine restoreContext, current := next
          context := Function.update s.context s.current none }

/-- Contexts share no bytes, and none is on the stack of the handler. -/
structure Layout (gate : Gate) (context : τ → Option Word) : Prop where
  apart : ∀ t u a b, t ≠ u → context t = some a → context u = some b →
    Apart a contextBytes b contextBytes
  handler : ∀ t a, context t = some a → Apart (stackTop gate - 752) handlerBytes a contextBytes

variable {gate : Gate} {s s' : System τ} {e : Event τ} {t : τ} {r : Regs}

namespace Layout

variable {context : τ → Option Word}

theorem update_some {a : Word} (hl : Layout gate context)
    (happart : ∀ u b, context u = some b → Apart a contextBytes b contextBytes)
    (hhandler : Apart (stackTop gate - 752) handlerBytes a contextBytes) :
    Layout gate (Function.update context t (some a)) := by
  have hcases : ∀ u b, Function.update context t (some a) u = some b →
      u = t ∧ b = a ∨ u ≠ t ∧ context u = some b := by
    intro u b hu
    by_cases hut : u = t
    · subst hut
      rw [Function.update_self, Option.some.injEq] at hu
      exact .inl ⟨rfl, hu.symm⟩
    · rw [Function.update_of_ne hut] at hu
      exact .inr ⟨hut, hu⟩
  constructor
  · intro u v b c huv hu hv
    obtain ⟨rfl, rfl⟩ | ⟨-, hu'⟩ := hcases u b hu
    · obtain ⟨rfl, -⟩ | ⟨-, hv'⟩ := hcases v c hv
      · exact absurd rfl huv
      · exact happart v c hv'
    · obtain ⟨rfl, rfl⟩ | ⟨-, hv'⟩ := hcases v c hv
      · exact (happart u b hu').symm
      · exact hl.apart u v b c huv hu' hv'
  · intro u b hu
    obtain ⟨-, rfl⟩ | ⟨-, hu'⟩ := hcases u b hu
    · exact hhandler
    · exact hl.handler u b hu'

theorem update_none (hl : Layout gate context) :
    Layout gate (Function.update context t none) := by
  have hold : ∀ u b, Function.update context t none u = some b → context u = some b := by
    intro u b hu
    by_cases hut : u = t
    · subst hut
      simp at hu
    · rwa [Function.update_of_ne hut] at hu
  exact ⟨fun u v b c huv hu hv ↦ hl.apart u v b c huv (hold u b hu) (hold v c hv),
    fun u b hu ↦ hl.handler u b (hold u b hu)⟩

end Layout

theorem Step.layout (h : Step gate s e s') (hl : Layout gate s.context) :
    Layout gate s'.context := by
  cases h with
  | work => exact hl
  | newTask _ _ apart handler => exact hl.update_some apart handler
  | timer => exact hl
  | sleep => exact hl
  | finish => exact hl.update_none

theorem Step.switches {next : τ} (h : Step gate s e s') (hl : Layout gate s.context)
    (hnext : e.next = some next) : ∃ k, Switches s s' e next k := by
  cases h with
  | work => cases hnext
  | newTask => cases hnext
  | @timer h k mem a _ handled frame spares current rotated other restores =>
      cases hnext
      obtain ⟨hsaved, hagree⟩ := saved_handler gate s.machine handled
      refine ⟨k, rfl, rfl, other, restores, fun _ _ ↦ rfl, ?_, ?_⟩
      · intro t ht b hb
        have hcopy := hl.apart s.current t a b ht.symm current hb
        exact (((hagree b _ (hl.handler t b hb)).trans (spares t ht b hb)).trans
          (.memcpy hcopy)).trans (rotated t b hb)
      · rintro r ⟨⟩
        exact ⟨a, current, ((hsaved.congr frame).memcpy a).congr (rotated _ a current)⟩
  | sleep current context_eq room other =>
      cases hnext
      obtain ⟨hsaved, hrdi, hrsp, hagree⟩ := saved_switchContext s.machine (room _ _ current)
      refine ⟨_, rfl, rfl, other, ⟨?_, ?_⟩, fun _ _ ↦ rfl, ?_, ?_⟩
      · exact context_eq.trans (congrArg some hrdi.symm)
      · intro t b hb
        rw [hrsp]
        exact apart_sub (room t b hb) (by decide) (by bv_omega)
      · intro t ht b hb
        exact hagree b _ (hl.apart s.current t _ b ht.symm current hb)
          (apart_sub (room t b hb) (by decide) (by bv_omega))
      · rintro r ⟨⟩
        exact ⟨_, current, hsaved⟩
  | finish other restores =>
      cases hnext
      refine ⟨_, rfl, rfl, other, restores, ?_, fun t _ b _ ↦ .refl _ _ _, ?_⟩
      · intro t ht
        exact Function.update_of_ne ht _ _
      · rintro r ⟨⟩

/-- The task that was running is suspended. -/
theorem Step.suspends (h : Step gate s e s') (hl : Layout gate s.context)
    (hr : e.savedRegs s.machine = some r) : Suspended s' s.current r := by
  obtain ⟨next, hnext⟩ := Event.next_of_savedRegs hr
  obtain ⟨k, hk⟩ := h.switches hl hnext
  obtain ⟨a, ha, hsaved⟩ := hk.saved r hr
  exact ⟨hk.current ▸ hk.other, a, ha, hsaved.congr (hk.agrees ha)⟩

theorem Step.suspended (h : Step gate s e s') (hl : Layout gate s.context)
    (hs : Suspended s t r) (ht : e.next ≠ some t) : Suspended s' t r := by
  obtain ⟨hcurrent, a, ha, hsaved⟩ := hs
  cases hnext : e.next with
  | some next =>
      obtain ⟨k, hk⟩ := h.switches hl hnext
      have ha' : s'.context t = some a := (hk.context t hcurrent.symm).trans ha
      refine ⟨?_, a, ha', (hsaved.congr (hk.spares t hcurrent.symm a ha)).congr (hk.agrees ha')⟩
      rw [hk.current]
      rintro rfl
      exact ht hnext
  | none =>
      cases h with
      | work spares => exact ⟨hcurrent, a, ha, hsaved.congr (spares t hcurrent.symm a ha)⟩
      | @newTask m u b spares new =>
          have hut : t ≠ u := by
            rintro rfl
            rw [new] at ha
            cases ha
          refine ⟨hcurrent, a, ?_, hsaved.congr (spares t hcurrent.symm a ha)⟩
          exact (Function.update_of_ne hut _ _).trans ha
      | timer => cases hnext
      | sleep => cases hnext
      | finish => cases hnext

theorem Step.resumes (h : Step gate s e s') (hl : Layout gate s.context)
    (hs : Suspended s t r) (ht : e.next = some t) :
    s'.current = t ∧ s'.machine.toRegs = r := by
  obtain ⟨hcurrent, a, ha, hsaved⟩ := hs
  obtain ⟨k, hk⟩ := h.switches hl ht
  have ha' : s'.context t = some a := (hk.context t hcurrent.symm).trans ha
  have hrdi : k.gpr .rdi = a := Option.some.inj (hk.restores.context_eq.symm.trans ha')
  refine ⟨hk.current, ?_⟩
  rw [hk.machine]
  exact (run_restoreContext hrdi (hsaved.congr (hk.spares t hcurrent.symm a ha))
    (hk.restores.room t a ha')).1

theorem run_suspended {es : List (Event τ)} (hrun : Run (Step gate) s es s')
    (hl : Layout gate s.context) (hs : Suspended s t r) (hes : ∀ e ∈ es, e.next ≠ some t) :
    Layout gate s'.context ∧ Suspended s' t r := by
  induction hrun with
  | nil => exact ⟨hl, hs⟩
  | snoc run last ih =>
      simp only [List.mem_append, List.mem_singleton] at hes
      obtain ⟨hl', hs'⟩ := ih fun e he ↦ hes e (.inl he)
      exact ⟨last.layout hl', last.suspended hl' hs' (hes _ (.inr rfl))⟩

end Step

/-! ## Calling an application -/

/-- The end of `SyscallEntry` for the system call `Exit`, between the return of
that call and the jump to `ExitApp`. -/
def syscallExit : List Instr :=
  [.mov .rsp .rbp, .pop .rsi, .mov .rdi .rax, .mov32 .rsi .rdx]

/-- The ways to get to `ExitApp` with the stack pointer `sp` of the task. -/
inductive Exits (sp : Word) : Machine → Machine → Prop where
  /-- `Exit` has returned the stack pointer, and the number of the system call is
  the first word that `SyscallEntry` restores. -/
  | syscall {x : Machine}
      (number : (readWord x.mem (x.gpr .rbp)).setWidth 32 = (0x80000002 : BitVec 32))
      (value : x.gpr .rax = sp) : Exits sp x (run x syscallExit)
  /-- `KillApp` calls it with the stack pointer. -/
  | killApp {x : Machine} (argument : x.gpr .rdi = sp) : Exits sp x x

/-- The registers that a call preserves, apart from `rsp`. -/
def calleeSaved : List Reg := [.rbx, .rbp, .r12, .r13, .r14, .r15]

section CallApp

variable {m x y : Machine} {sp : Word}

theorem Exits.rdi (h : Exits sp x y) : y.gpr .rdi = sp := by
  cases h with
  | syscall _ value => simpa [syscallExit, run, exec, Machine.set] using value
  | killApp argument => exact argument

theorem Exits.mem (h : Exits sp x y) : y.mem = x.mem := by
  cases h with
  | syscall => rfl
  | killApp => rfl

/-- The words that `CallApp` leaves at the stack pointer it stores. -/
def savedWords (m : Machine) : List Word :=
  [m.gpr .r15, m.gpr .r14, m.gpr .r13, m.gpr .r12, m.gpr .rbp, m.gpr .rbx,
    readWord m.mem (m.gpr .rsp)]

theorem run_exitApp (h : Holds y.mem (y.gpr .rdi) (savedWords m)) :
    (run y exitApp).gpr .rsp = y.gpr .rdi + 56 ∧
      (run y exitApp).rip = readWord m.mem (m.gpr .rsp) ∧
      ∀ q ∈ calleeSaved, (run y exitApp).gpr q = m.gpr q := by
  obtain ⟨h15, h14, h13, h12, hbp, hbx, hret, -⟩ := h
  refine ⟨?_, hret, ?_⟩
  · simp [exitApp, run, exec, Machine.set]
    bv_omega
  · intro q hq
    simp only [calleeSaved, List.mem_cons, List.not_mem_nil, or_false] at hq
    rcases hq with rfl | rfl | rfl | rfl | rfl | rfl <;>
      simp [exitApp, run, exec, Machine.set]
    · exact hbx
    · exact hbp
    · exact h12
    · exact h13
    · exact h14
    · exact h15

/-- The words are on the stack when `CallApp` stores the stack pointer. -/
theorem run_callApp_saved (m : Machine) : ∃ k, k = run m (callApp.take 6) ∧
    k.OnStack (savedWords m) ∧ k.gpr .rsp = m.gpr .rsp - 48 ∧ k.gpr .r9 = m.gpr .r9 := by
  have hpush : ∀ q, q ≠ .rsp → Pushes m 6 (.push q) (m.gpr q) := fun _ ↦ pushes_push
  have hrun : run m (callApp.take 6) = m.pushWords [m.gpr .rbx, m.gpr .rbp, m.gpr .r12,
      m.gpr .r13, m.gpr .r14, m.gpr .r15] := by
    refine @run_pushes m 6 _ _ ?_ le_rfl
    exact .cons (hpush _ (by decide)) <| .cons (hpush _ (by decide)) <|
      .cons (hpush _ (by decide)) <| .cons (hpush _ (by decide)) <|
      .cons (hpush _ (by decide)) <| .cons (hpush _ (by decide)) .nil
  have hreturn : m.OnStack [readWord m.mem (m.gpr .rsp)] := ⟨rfl, trivial⟩
  refine ⟨_, hrun.symm, hreturn.pushWords (by simp), ?_, ?_⟩
  · exact Machine.gpr_pushWords_rsp m _
  · exact Machine.gpr_pushWords (by decide)

/-- What `CallApp` writes after that, the frame for `retf`, is below the stack pointer. -/
theorem run_callApp_frame {k : Machine} :
    (run k (callApp.drop 6)).mem = ((exec k (.store .r9 0 .rsp)).pushWords
      [k.gpr .rdx, k.gpr .r8, k.gpr .rdx + 8, k.gpr .rcx]).mem := by
  have hretf : ∀ x : Machine, (exec x .retf).mem = x.mem := by
    intro x
    simp only [exec]
    split <;> rfl
  have hsplit : callApp.drop 6 = (callApp.drop 6).take 6 ++ [Instr.retf] := rfl
  rw [hsplit, run_append]
  refine (hretf _).trans ?_
  simp [callApp, run, exec, Machine.set, Machine.pushWord, Machine.pushWords]

/-- The state in which `CallApp` leaves the stack and the word that `r9` points to. -/
theorem callApp_saved (hroom : Apart (m.gpr .rsp - 80) 88 (m.gpr .r9) 8) :
    Holds (run m callApp).mem (m.gpr .rsp - 48) (savedWords m) ∧
      readWord (run m callApp).mem (m.gpr .r9) = m.gpr .rsp - 48 := by
  obtain ⟨k, hk, hstack, hrsp, hr9⟩ := run_callApp_saved m
  have hrun : (run m callApp).mem = (run k (callApp.drop 6)).mem := by
    rw [hk, ← run_append, List.take_append_drop]
  have hstored : (exec k (.store .r9 0 .rsp)).mem =
      writeWord k.mem (m.gpr .r9) (m.gpr .rsp - 48) := by
    simp [exec, hr9, hrsp]
  have hframe : ∀ b n, Apart (m.gpr .rsp - 80) 32 b n →
      Agrees (writeWord k.mem (m.gpr .r9) (m.gpr .rsp - 48)) (run m callApp).mem b n := by
    intro b n hb
    rw [hrun, run_callApp_frame, ← hstored]
    refine @Machine.agrees_pushWords (exec k (.store .r9 0 .rsp)) _ b 4 n le_rfl ?_
    refine apart_sub hb (by decide) ?_
    rw [show (exec k (.store .r9 0 .rsp)).gpr .rsp = m.gpr .rsp - 48 from hrsp]
    bv_omega
  constructor
  · rw [Machine.OnStack, hrsp] at hstack
    have hbelow : Apart (m.gpr .r9) 8 (m.gpr .rsp - 48) 56 :=
      (apart_sub hroom (by decide) (by bv_omega)).symm
    have hframeBelow : Apart (m.gpr .rsp - 80) 32 (m.gpr .rsp - 48) 56 := by
      constructor <;> bv_omega
    exact (hstack.congr (by simp [savedWords]) (.writeWord hbelow)).congr (by simp [savedWords])
      (hframe _ _ hframeBelow)
  · have hword := hframe (m.gpr .r9) 8 (apart_sub hroom (by decide) (by bv_omega))
    rw [hword.readWord_first le_rfl (by decide), readWord_writeWord]

/-- `CallApp` returns as any call does, whichever way the application exits. -/
theorem callApp_returns (hroom : Apart (m.gpr .rsp - 80) 88 (m.gpr .r9) 8)
    (hstack : Agrees (run m callApp).mem x.mem (m.gpr .rsp - 48) 56)
    (hpointer : Agrees (run m callApp).mem x.mem (m.gpr .r9) 8)
    (hexit : Exits (readWord x.mem (m.gpr .r9)) x y) :
    (run y exitApp).gpr .rsp = m.gpr .rsp + 8 ∧
      (run y exitApp).rip = readWord m.mem (m.gpr .rsp) ∧
      ∀ q ∈ calleeSaved, (run y exitApp).gpr q = m.gpr q := by
  obtain ⟨hholds, hword⟩ := callApp_saved hroom
  have hsp : y.gpr .rdi = m.gpr .rsp - 48 := by
    rw [hexit.rdi, hpointer.readWord_first le_rfl (by decide), hword]
  have hsaved : Holds y.mem (y.gpr .rdi) (savedWords m) := by
    rw [hexit.mem, hsp]
    exact hholds.congr (by simp [savedWords]) hstack
  obtain ⟨hrsp, hrest⟩ := run_exitApp hsaved
  refine ⟨?_, hrest⟩
  rw [hrsp, hsp]
  bv_omega

end CallApp

/-! ## Transparency -/

/-- A task goes on with the registers it was suspended with, and a call of
`CallApp` returns with the registers it was made with. -/
theorem switch_transparent [DecidableEq τ] (gate : Gate) :
    (∀ (s₀ s₁ s₂ s₃ : System τ) (e₀ e₁ : Event τ) (es : List (Event τ)) (r : Regs),
      Layout gate s₀.context → Step gate s₀ e₀ s₁ → e₀.savedRegs s₀.machine = some r →
      Run (Step gate) s₁ es s₂ → (∀ e ∈ es, e.next ≠ some s₀.current) →
      Step gate s₂ e₁ s₃ → e₁.next = some s₀.current →
      s₃.current = s₀.current ∧ s₃.machine.toRegs = r) ∧
    ∀ m x y : Machine, Apart (m.gpr .rsp - 80) 88 (m.gpr .r9) 8 →
      Agrees (run m callApp).mem x.mem (m.gpr .rsp - 48) 56 →
      Agrees (run m callApp).mem x.mem (m.gpr .r9) 8 →
      Exits (readWord x.mem (m.gpr .r9)) x y →
      (run y exitApp).gpr .rsp = m.gpr .rsp + 8 ∧
        (run y exitApp).rip = readWord m.mem (m.gpr .rsp) ∧
        ∀ q ∈ calleeSaved, (run y exitApp).gpr q = m.gpr q := by
  constructor
  · intro s₀ s₁ s₂ s₃ e₀ e₁ es r hl first hr others hes last hnext
    obtain ⟨hl₂, hs₂⟩ := run_suspended others (first.layout hl) (first.suspends hl hr) hes
    exact last.resumes hl₂ hs₂ hnext
  · intro m x y
    exact callApp_returns

/-- A processor with these addresses in the registers that switches and calls use. -/
def sampleMachine (rdi rsi rsp r9 : Word) (mem : Memory) : Machine where
  gpr
    | .rdi => rdi
    | .rsi => rsi
    | .rsp => rsp
    | .r9 => r9
    | _ => 7
  rip := 0x101000
  rflags := RFlags.load 0x202
  seg := fun _ ↦ 0x10
  cr3 := 0x9000
  fx := ⟨List.replicate 64 3, rfl⟩
  mem := mem

def sampleContext (t : Bool) : Option Word :=
  if t then some 0x2000 else some 0x1000

def sampleGate : Gate := ⟨0x100000, 8, 0x8000⟩

theorem layout_sample : Layout sampleGate sampleContext where
  apart := by
    rintro (_ | _) (_ | _) a b htu ⟨⟩ ⟨⟩ <;> first | exact absurd rfl htu | decide
  handler := by
    rintro (_ | _) a ⟨⟩ <;> decide

theorem restores_sample (next : Bool) (mem : Memory) : Restores sampleContext
    (sampleMachine ((sampleContext next).getD 0) 0 0x5000 0 mem) next where
  context_eq := by cases next <;> rfl
  room := by
    have happart : ∀ t a, sampleContext t = some a → Apart (0x5000 - 40) 40 a contextBytes := by
      rintro (_ | _) a ⟨⟩ <;> decide
    exact happart

/-- A task is interrupted, another one runs and sleeps, and the first one goes on;
an application is killed. -/
theorem switch_transparent_sample :
    (∃ s₁ s₂ s₃ : System Bool,
      Step sampleGate ⟨sampleMachine 1 2 0x6000 4 fun _ ↦ 0, false, sampleContext⟩ (.timer true) s₁ ∧
      Step sampleGate s₁ .work s₂ ∧ Step sampleGate s₂ (.sleep false) s₃ ∧
      s₃.current = false ∧ s₃.machine.toRegs = (sampleMachine 1 2 0x6000 4 fun _ ↦ 0).toRegs) ∧
    (run (sampleMachine (0x6000 - 48) 139 0x7000 0
      (run (sampleMachine 1 2 0x6000 0x3000 fun _ ↦ 0) callApp).mem) exitApp).gpr .rsp = 0x6008 := by
  have htransparent := @switch_transparent Bool _ sampleGate
  constructor
  · have first := @Step.timer Bool _ sampleGate
      ⟨sampleMachine 1 2 0x6000 4 fun _ ↦ 0, false, sampleContext⟩ _ _ _ 0x1000 true rfl
      (.refl _ _ _) (fun _ _ _ _ ↦ .refl _ _ _) rfl (fun _ _ _ ↦ .refl _ _ _) (by decide)
      (restores_sample true _)
    obtain ⟨s₁, hs₁⟩ : ∃ s₁ : System Bool, Step sampleGate
        ⟨sampleMachine 1 2 0x6000 4 fun _ ↦ 0, false, sampleContext⟩ (.timer true) s₁ ∧
        s₁.current = true ∧ s₁.context = sampleContext := ⟨_, first, rfl, rfl⟩
    obtain ⟨first, hcurrent, hcontext⟩ := hs₁
    have hroom : ∀ t a, sampleContext t = some a → Apart (0x6800 - 40) 48 a contextBytes := by
      rintro (_ | _) a ⟨⟩ <;> decide
    have work : Step sampleGate s₁ .work { s₁ with
        machine := sampleMachine 0x1000 0x2000 0x6800 0 s₁.machine.mem } :=
      .work fun _ _ _ _ ↦ .refl _ _ _
    have last := @Step.sleep Bool _ sampleGate { s₁ with
        machine := sampleMachine 0x1000 0x2000 0x6800 0 s₁.machine.mem } false
      (by simp [hcurrent, hcontext, sampleContext, sampleMachine])
      (by simp [hcontext, sampleContext, sampleMachine])
      (fun t a ha ↦ hroom t a (hcontext ▸ ha)) (by simp [hcurrent])
    exact ⟨_, _, _, first, work, last, htransparent.1 _ _ _ _ _ _ _ _ layout_sample first rfl
      (.single work) (by simp [Event.next]) last rfl⟩
  · have hroom : Apart ((sampleMachine 1 2 0x6000 0x3000 fun _ ↦ 0).gpr .rsp - 80) 88
        ((sampleMachine 1 2 0x6000 0x3000 fun _ ↦ 0).gpr .r9) 8 := by decide
    have hpointer := (callApp_saved hroom).2
    have hreturns := htransparent.2 (sampleMachine 1 2 0x6000 0x3000 fun _ ↦ 0)
      (sampleMachine (0x6000 - 48) 139 0x7000 0
        (run (sampleMachine 1 2 0x6000 0x3000 fun _ ↦ 0) callApp).mem) _ hroom
      (Agrees.refl _ _ _) (Agrees.refl _ _ _) (.killApp hpointer.symm)
    exact hreturns.1

end Context
end MinOS
