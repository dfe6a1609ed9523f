import MinOS.Library.X86Calls
import MinOS.Task.Switch

/-!
# System calls

`SyscallEntry` of `asmfunc.asm`, between the `syscall` of an application and its return to it,
and the run of an application from `CallApp` to `Exit`.
-/

namespace MinOS
namespace Context

open WordMemory X86 Transition

/-- `InitializeSyscall`. -/
def syscallMSRs (entry : Word) : SyscallMSRs where
  lstar := entry
  star := 8 <<< 32 ||| (16 ||| 3) <<< 48
  fmask := 0

/-- `SyscallEntry` up to the call of `GetCurrentTaskOSStackPointer`. -/
def syscallEntryStart : List CallInstr :=
  [.plain (.push .rbp),
    .plain (.push .rcx),  -- original RIP
    .plain (.push .r11),  -- original RFLAGS
    .plain (.push .rax),
    .plain (.mov .rcx .r10), .and32 .rax 0x7fffffff, .plain (.mov .rbp .rsp),
    .and .rsp 0xfffffffffffffff0, .plain (.push .rax), .plain (.push .rdx), .cli]

/-- `SyscallEntry` goes over to the stack of the kernel, which the last call has returned. -/
def syscallEntryStack : List CallInstr :=
  [.sti,
    .plain (.load .rdx .rsp 0), .plain (.store .rax (-16) .rdx),
    .plain (.load .rdx .rsp 8), .plain (.store .rax (-8) .rdx),
    .plain (.lea .rsp .rax (-16)), .plain (.pop .rdx), .plain (.pop .rax),
    .and .rsp 0xfffffffffffffff0]

/-- The end of `SyscallEntry` for a system call that is not `Exit`. -/
def syscallEntryEnd : List Instr :=
  [.mov .rsp .rbp, .pop .rsi, .pop .r11, .pop .rcx, .pop .rbp]

/-- The index into `syscall_table`. -/
def syscallIndex (m : Machine) : Word := ((m.gpr .rax).setWidth 32 &&& 0x7fffffff).setWidth 64

/-- `GetCurrentTaskOSStackPointer` keeps all registers, and the words above its stack pointer. -/
structure PointerCall (pointer : Word) (k g : Machine) : Prop where
  rax : g.gpr .rax = readWord k.mem pointer
  gpr : ∀ q ≠ .rax, g.gpr q = k.gpr q
  stack : Agrees k.mem g.mem (k.gpr .rsp) 16
  saved : Agrees k.mem g.mem (k.gpr .rbp) 32

/-- A function of `syscall_table` keeps the registers that calls preserve, and does not store
into the words that `SyscallEntry` has saved. -/
structure HandlerCall (h h' : Machine) : Prop where
  gpr : ∀ q ∈ calleeSaved, h'.gpr q = h.gpr q
  saved : Agrees h.mem h'.mem (h.gpr .rbp) 32

/-- A system call with what its two calls of the kernel do. -/
structure SystemCall (msrs : SyscallMSRs) (pointer : Word) (m g h' : Machine) : Prop where
  pointerCall : PointerCall pointer (CallInstr.run (syscall msrs m) syscallEntryStart) g
  handlerCall : HandlerCall (CallInstr.run g syscallEntryStack) h'

/-- The stack of the application and that of the kernel do not meet. -/
structure StacksApart (pointer : Word) (m : Machine) : Prop where
  word : Apart (m.gpr .rsp - 64) 64 pointer 8
  kernel : Apart (readWord m.mem pointer - 16) 16 (m.gpr .rsp - 64) 64

/-! ## The way in -/

section Start

/-- The words that `SyscallEntry` saves on the stack of the application. -/
def entryWords (u : Machine) : List Word := [u.gpr .rax, u.gpr .r11, u.gpr .rcx, u.gpr .rbp]

/-- `SyscallEntry` began in `u`, and calls the kernel in `k`. -/
structure Entered (u k : Machine) : Prop where
  rsp : k.gpr .rsp = alignDown (u.gpr .rsp - 32) - 16
  rbp : k.gpr .rbp = u.gpr .rsp - 32
  rcx : k.gpr .rcx = u.gpr .r10
  gpr : ∀ q, q ≠ .rsp → q ≠ .rbp → q ≠ .rax → q ≠ .rcx → k.gpr q = u.gpr q
  saved : Holds k.mem (u.gpr .rsp - 32) (entryWords u)
  words : Holds k.mem (k.gpr .rsp) [u.gpr .rdx, syscallIndex u]
  agrees : ∀ b n, Apart (u.gpr .rsp - 64) 64 b n → Agrees u.mem k.mem b n

theorem apart_alignDown (a : Word) : Apart (alignDown a - 16) 16 a 32 := by
  have hlt := toNat_sub_alignDown a
  constructor <;> bv_omega

theorem entered (u : Machine) : Entered u (CallInstr.run u syscallEntryStart) := by
  obtain ⟨p, hp⟩ : ∃ p, p = u.pushWords [u.gpr .rbp, u.gpr .rcx, u.gpr .r11, u.gpr .rax] :=
    ⟨_, rfl⟩
  have hsp : p.gpr .rsp = u.gpr .rsp - 32 := by
    rw [hp, Machine.gpr_pushWords_rsp]
    rfl
  have hgpr : ∀ q, q ≠ .rsp → p.gpr q = u.gpr q := fun q hq ↦ by rw [hp, Machine.gpr_pushWords hq]
  have hsaved : Holds p.mem (u.gpr .rsp - 32) (entryWords u) := by
    have hstack : u.OnStack [] := trivial
    have hpushed : p.OnStack (entryWords u) := by
      rw [hp]
      exact hstack.pushWords (by simp)
    rw [Machine.OnStack, hsp] at hpushed
    exact hpushed
  -- the registers are set, and the stack is aligned
  obtain ⟨k, hk⟩ : ∃ k, k = CallInstr.run p [.plain (.mov .rcx .r10), .and32 .rax 0x7fffffff,
      .plain (.mov .rbp .rsp), .and .rsp 0xfffffffffffffff0] := ⟨_, rfl⟩
  have hkmem : k.mem = p.mem := by
    rw [hk]
    rfl
  have hkgpr : ∀ q, k.gpr q = Function.update (Function.update (Function.update (Function.update
      p.gpr .rcx (u.gpr .r10)) .rax (syscallIndex u)) .rbp (u.gpr .rsp - 32)) .rsp
        (alignDown (u.gpr .rsp - 32)) q := by
    intro q
    rw [hk, ← hsp, ← hgpr .r10 (by decide), syscallIndex, ← hgpr .rax (by decide)]
    simp [CallInstr.run, CallInstr.exec, exec, Machine.set, alignDown]
  have hrun : CallInstr.run u syscallEntryStart =
      CallInstr.exec (k.pushWords [syscallIndex u, u.gpr .rdx]) .cli := by
    have hrax : k.gpr .rax = syscallIndex u := by simp [hkgpr]
    have hrdx : k.gpr .rdx = u.gpr .rdx := by simp [hkgpr, hgpr]
    rw [← hrax, ← hrdx, hk, hp]
    rfl
  rw [hrun]
  obtain ⟨e, he⟩ : ∃ e, e = k.pushWords [syscallIndex u, u.gpr .rdx] := ⟨_, rfl⟩
  rw [← he]
  have hesp : e.gpr .rsp = alignDown (u.gpr .rsp - 32) - 16 := by
    rw [he, Machine.gpr_pushWords_rsp, hkgpr]
    simp
  have hegpr : ∀ q, q ≠ .rsp → e.gpr q = k.gpr q := fun q hq ↦ by rw [he, Machine.gpr_pushWords hq]
  have heagrees : ∀ b n, Apart (alignDown (u.gpr .rsp - 32) - 16) 16 b n →
      Agrees p.mem e.mem b n := by
    intro b n hb
    rw [he, ← hkmem]
    refine Machine.agrees_pushWords (n := 2) le_rfl ?_
    rw [hkgpr]
    simpa using hb
  refine ⟨hesp, ?_, ?_, ?_, ?_, ?_, ?_⟩
  · exact (hegpr .rbp (by decide)).trans (by simp [hkgpr])
  · exact (hegpr .rcx (by decide)).trans (by simp [hkgpr])
  · intro q hrsp hrbp hrax hrcx
    exact (hegpr q hrsp).trans (by simp [hkgpr, hrsp, hrbp, hrax, hrcx, hgpr])
  · exact hsaved.congr (by simp [entryWords]) (heagrees _ _ (apart_alignDown _))
  · have hstack : k.OnStack [] := trivial
    rw [he]
    exact hstack.pushWords (by simp)
  · intro b n hb
    have hlt := toNat_sub_alignDown (u.gpr .rsp - 32)
    have hfirst : Agrees u.mem p.mem b n := by
      rw [hp]
      refine Machine.agrees_pushWords (n := 4) le_rfl ?_
      exact apart_sub hb (by decide) (by bv_omega)
    exact hfirst.trans (heagrees b n (apart_sub hb (by decide) (by bv_omega)))

end Start

section Handler

variable {u k g : Machine} {pointer : Word}

/-- The function of `syscall_table` is called in `h`, on the stack of the kernel. -/
structure Handling (u h : Machine) (sp : Word) : Prop where
  rsp : h.gpr .rsp = alignDown sp
  rbp : h.gpr .rbp = u.gpr .rsp - 32
  rax : h.gpr .rax = syscallIndex u
  rcx : h.gpr .rcx = u.gpr .r10
  gpr : ∀ q, q ≠ .rsp → q ≠ .rbp → q ≠ .rax → q ≠ .rcx → h.gpr q = u.gpr q
  saved : Holds h.mem (u.gpr .rsp - 32) (entryWords u)

theorem apart_entryWords {sp : Word} (h : Apart (sp - 16) 16 (u.gpr .rsp - 64) 64) :
    Apart (sp - 16) 16 (u.gpr .rsp - 32) 32 :=
  (apart_sub h.symm (by decide) (by bv_omega)).symm

theorem Entered.handling (h : Entered u k) (hcall : PointerCall pointer k g)
    (happart : Apart (readWord k.mem pointer - 16) 16 (u.gpr .rsp - 64) 64) :
    Handling u (CallInstr.run g syscallEntryStack) (readWord k.mem pointer) ∧
      ∀ b n, Apart (readWord k.mem pointer - 16) 16 b n →
        Agrees g.mem (CallInstr.run g syscallEntryStack).mem b n := by
  obtain ⟨sp, hsp⟩ : ∃ sp, sp = readWord k.mem pointer := ⟨_, rfl⟩
  rw [← hsp] at happart ⊢
  have hrax : g.gpr .rax = sp := hcall.rax.trans hsp.symm
  have hgsp : g.gpr .rsp = alignDown (u.gpr .rsp - 32) - 16 := (hcall.gpr .rsp (by decide)).trans h.rsp
  obtain ⟨hrdx, hindex, -⟩ := h.words.congr (by simp) hcall.stack
  rw [h.rsp] at hrdx hindex
  -- the words on the stack of the application are read before and after the first store
  have hwords : Apart (sp - 16) 8 (alignDown (u.gpr .rsp - 32) - 16) 16 := by
    have hlt := toNat_sub_alignDown (u.gpr .rsp - 32)
    exact (apart_sub (apart_sub happart.symm (by decide) (by bv_omega)).symm (by decide)
      (by bv_omega))
  obtain ⟨m₁, hm₁⟩ : ∃ m₁, m₁ = writeWord g.mem (sp - 16) (u.gpr .rdx) := ⟨_, rfl⟩
  have hindex₁ : readWord m₁ (alignDown (u.gpr .rsp - 32) - 16 + 8) = syscallIndex u := by
    rw [← hindex, hm₁]
    exact (Agrees.writeWord hwords).readWord_eq (by decide) (by decide)
  obtain ⟨m₂, hm₂⟩ : ∃ m₂, m₂ = writeWord m₁ (sp - 8) (syscallIndex u) := ⟨_, rfl⟩
  have hpopRax : readWord m₂ (sp - 8) = syscallIndex u := by
    rw [hm₂]
    exact readWord_writeWord _ _ _
  have hpopRdx : readWord m₂ (sp - 16) = u.gpr .rdx := by
    have hkeep : Agrees m₁ m₂ (sp - 16) 8 := by
      rw [hm₂]
      exact .writeWord ⟨by bv_omega, by bv_omega⟩
    rw [hkeep.readWord_first le_rfl (by decide), hm₁]
    exact readWord_writeWord _ _ _
  have hoff : ∀ d : Word, sp + d = sp - -d := fun d ↦ by bv_omega
  -- the two words have been copied
  obtain ⟨c, hc⟩ : ∃ c, c = CallInstr.run g (syscallEntryStack.take 5) := ⟨_, rfl⟩
  have hcmem : c.mem = m₂ := by
    rw [hm₂, hm₁, ← hindex₁, hm₁, ← hrdx, hc]
    simp [CallInstr.run, syscallEntryStack, CallInstr.exec, exec, Machine.set, hrax, hgsp, hoff]
  have hcgpr : ∀ q, q ≠ .rdx → c.gpr q = g.gpr q := by
    intro q hq
    rw [hc]
    simp [CallInstr.run, syscallEntryStack, CallInstr.exec, exec, Machine.set, hq]
  obtain ⟨r, hr⟩ : ∃ r, r = CallInstr.run c (syscallEntryStack.drop 5) := ⟨_, rfl⟩
  have hrun : CallInstr.run g syscallEntryStack = r := by
    rw [hr, hc, ← CallInstr.run_append, List.take_append_drop]
  have hrmem : r.mem = m₂ := by
    rw [hr, ← hcmem]
    rfl
  have hcrax : c.gpr .rax = sp := (hcgpr .rax (by decide)).trans hrax
  have hback : sp + -16 + 8 + 8 = sp := by bv_omega
  have hrsp : r.gpr .rsp = alignDown sp := by
    rw [hr, ← hback, ← hcrax]
    simp [CallInstr.run, syscallEntryStack, CallInstr.exec, exec, Machine.set, alignDown]
  have hrrax : r.gpr .rax = syscallIndex u := by
    rw [← hpopRax, ← hcmem, show sp - 8 = sp + -16 + 8 by bv_omega, ← hcrax, hr]
    simp [CallInstr.run, syscallEntryStack, CallInstr.exec, exec, Machine.set]
  have hrrdx : r.gpr .rdx = u.gpr .rdx := by
    rw [← hpopRdx, ← hcmem, show sp - 16 = sp + -16 by bv_omega, ← hcrax, hr]
    simp [CallInstr.run, syscallEntryStack, CallInstr.exec, exec, Machine.set]
  have hrgpr : ∀ q, q ≠ .rsp → q ≠ .rax → q ≠ .rdx → r.gpr q = k.gpr q := by
    intro q hsp hrax hrdx
    rw [← hcall.gpr q hrax, ← hcgpr q hrdx, hr]
    simp [CallInstr.run, syscallEntryStack, CallInstr.exec, exec, Machine.set, hsp, hrax, hrdx]
  have hagrees : ∀ b n, Apart (sp - 16) 16 b n → Agrees g.mem r.mem b n := by
    intro b n hb
    rw [hrmem, hm₂, hm₁]
    exact (Agrees.writeWord (apart_sub hb (by decide) (by bv_omega))).trans
      (.writeWord (apart_sub hb (by decide) (by bv_omega)))
  rw [hrun]
  refine ⟨⟨hrsp, ?_, hrrax, ?_, ?_, ?_⟩, hagrees⟩
  · exact (hrgpr .rbp (by decide) (by decide) (by decide)).trans h.rbp
  · exact (hrgpr .rcx (by decide) (by decide) (by decide)).trans h.rcx
  · intro q hsp hbp hax hcx
    by_cases hdx : q = .rdx
    · rw [hdx, hrrdx]
    · exact (hrgpr q hsp hax hdx).trans (h.gpr q hsp hbp hax hcx)
  · have hkept := h.saved.congr (by simp [entryWords]) (h.rbp ▸ hcall.saved)
    exact hkept.congr (by simp [entryWords]) (hagrees _ _ (apart_entryWords happart))

theorem Handling.returned {h h' : Machine} {sp : Word} (hin : Handling u h sp)
    (hcall : HandlerCall h h') :
    h'.gpr .rbp = u.gpr .rsp - 32 ∧ Holds h'.mem (u.gpr .rsp - 32) (entryWords u) := by
  refine ⟨(hcall.gpr .rbp (by decide)).trans hin.rbp, ?_⟩
  exact hin.saved.congr (by simp [entryWords]) (hin.rbp ▸ hcall.saved)

/-- The registers are restored from the stack of the application. -/
theorem run_syscallEntryEnd {h' : Machine} (hbp : h'.gpr .rbp = u.gpr .rsp - 32)
    (hsaved : Holds h'.mem (u.gpr .rsp - 32) (entryWords u)) :
    (run h' syscallEntryEnd).gpr .rsp = u.gpr .rsp ∧
      (run h' syscallEntryEnd).gpr .rbp = u.gpr .rbp ∧
      (run h' syscallEntryEnd).gpr .rcx = u.gpr .rcx ∧
      (run h' syscallEntryEnd).gpr .r11 = u.gpr .r11 ∧
      (∀ q, q ≠ .rsp → q ≠ .rbp → q ≠ .rcx → q ≠ .r11 → q ≠ .rsi →
        (run h' syscallEntryEnd).gpr q = h'.gpr q) ∧
      (run h' syscallEntryEnd).mem = h'.mem := by
  obtain ⟨-, hr11, hrcx, hrbp, -⟩ := hsaved
  have hback : u.gpr .rsp - 32 + 8 + 8 + 8 + 8 = u.gpr .rsp := by bv_omega
  refine ⟨?_, ?_, ?_, ?_, ?_, rfl⟩
  · rw [← hback, ← hbp]
    simp [run, syscallEntryEnd, exec, Machine.set]
  · rw [← hrbp, ← hbp]
    simp [run, syscallEntryEnd, exec, Machine.set]
  · rw [← hrcx, ← hbp]
    simp [run, syscallEntryEnd, exec, Machine.set]
  · rw [← hr11, ← hbp]
    simp [run, syscallEntryEnd, exec, Machine.set]
  · intro q hsp hbp hcx h11 hsi
    simp [run, syscallEntryEnd, exec, Machine.set, hsp, hbp, hcx, h11, hsi]

end Handler

/-! ## Transparency of system calls -/

section Transparent

variable {entry pointer : Word} {m g h' : Machine}

theorem gpr_syscall {msrs : SyscallMSRs} {q : Reg} (hcx : q ≠ .rcx) (h11 : q ≠ .r11) :
    (syscall msrs m).gpr q = m.gpr q := by
  simp [syscall, Machine.set, hcx, h11]

/-- The application goes on with its own segments. -/
theorem seg_sysret (entry : Word) (m : Machine) :
    (sysret (syscallMSRs entry) m).seg .cs = 0x23 ∧
      (sysret (syscallMSRs entry) m).seg .ss = 0x1b := by
  simp [sysret, syscallMSRs]

/-- The state in which the application goes on. -/
def afterSyscall (msrs : SyscallMSRs) (h' : Machine) : Machine :=
  sysret msrs (run h' syscallEntryEnd)

/-- The kernel is called with the arguments of the application. -/
structure PassesArguments (m h : Machine) (sp : Word) : Prop where
  index : h.gpr .rax = syscallIndex m
  arg4 : h.gpr .rcx = m.gpr .r10
  args : ∀ q ∈ ([.rdi, .rsi, .rdx, .r8, .r9] : List Reg), h.gpr q = m.gpr q
  stack : h.gpr .rsp = alignDown sp

/-- The application goes on in `y` as after a call that returned in `h'`. -/
structure ReturnsTo (m h' y : Machine) : Prop where
  rip : y.rip = m.rip
  rflags : y.rflags = m.rflags
  cs : y.seg .cs = 0x23
  ss : y.seg .ss = 0x1b
  rsp : y.gpr .rsp = m.gpr .rsp
  kept : ∀ q ∈ calleeSaved, y.gpr q = m.gpr q
  rax : y.gpr .rax = h'.gpr .rax
  rdx : y.gpr .rdx = h'.gpr .rdx
  mem : y.mem = h'.mem

theorem SystemCall.handling (h : SystemCall (syscallMSRs entry) pointer m g h')
    (happart : StacksApart pointer m) :
    Handling (syscall (syscallMSRs entry) m) (CallInstr.run g syscallEntryStack)
      (readWord m.mem pointer) := by
  obtain ⟨hword, hkernel⟩ := happart
  have hsp : (syscall (syscallMSRs entry) m).gpr .rsp = m.gpr .rsp :=
    gpr_syscall (by decide) (by decide)
  have hin := entered (syscall (syscallMSRs entry) m)
  have hpointer : readWord (CallInstr.run (syscall (syscallMSRs entry) m) syscallEntryStart).mem
      pointer = readWord m.mem pointer :=
    (hin.agrees pointer 8 (hsp ▸ hword)).readWord_first le_rfl (by decide)
  rw [← hpointer] at hkernel ⊢
  exact (hin.handling h.pointerCall (hsp ▸ hkernel)).1

/-- The kernel serves a system call on its own stack with the arguments of the application, which
goes on behind `syscall` with the result and with its stack, its flags and the registers that calls
preserve. -/
theorem syscall_transparent (happart : StacksApart pointer m)
    (h : SystemCall (syscallMSRs entry) pointer m g h') :
    PassesArguments m (CallInstr.run g syscallEntryStack) (readWord m.mem pointer) ∧
      ReturnsTo m h' (afterSyscall (syscallMSRs entry) h') := by
  have hin := h.handling happart
  obtain ⟨hbp, hsaved⟩ := hin.returned h.handlerCall
  obtain ⟨hsp, hbp', hcx, h11, hrest, hmem⟩ := run_syscallEntryEnd hbp hsaved
  obtain ⟨hcs, hss⟩ := seg_sysret entry (run h' syscallEntryEnd)
  have hgpr : ∀ q, q ≠ .rcx → q ≠ .r11 → (syscall (syscallMSRs entry) m).gpr q = m.gpr q :=
    fun q ↦ gpr_syscall
  constructor
  · refine ⟨?_, ?_, ?_, hin.rsp⟩
    · rw [hin.rax, syscallIndex, syscallIndex, hgpr .rax (by decide) (by decide)]
    · rw [hin.rcx, hgpr .r10 (by decide) (by decide)]
    · intro q hq
      simp only [List.mem_cons, List.not_mem_nil, or_false] at hq
      rcases hq with rfl | rfl | rfl | rfl | rfl <;>
        exact (hin.gpr _ (by decide) (by decide) (by decide) (by decide)).trans
          (hgpr _ (by decide) (by decide))
  · refine ⟨?_, ?_, hcs, hss, ?_, ?_, ?_, ?_, hmem⟩
    · change (run h' syscallEntryEnd).gpr .rcx = m.rip
      rw [hcx]
      rfl
    · change RFlags.load ((run h' syscallEntryEnd).gpr .r11) = m.rflags
      rw [h11]
      exact RFlags.load_bits m.rflags
    · exact hsp.trans (hgpr .rsp (by decide) (by decide))
    · intro q hq
      by_cases hqbp : q = .rbp
      · subst hqbp
        exact hbp'.trans (hgpr .rbp (by decide) (by decide))
      · have hmem := hq
        simp only [calleeSaved, List.mem_cons, List.not_mem_nil, or_false] at hq
        have hne : q ≠ .rsp ∧ q ≠ .rcx ∧ q ≠ .r11 ∧ q ≠ .rsi ∧ q ≠ .rax := by
          rcases hq with rfl | rfl | rfl | rfl | rfl | rfl <;> decide
        obtain ⟨hqsp, hqcx, hq11, hqsi, hqax⟩ := hne
        exact (hrest q hqsp hqbp hqcx hq11 hqsi).trans <| (h.handlerCall.gpr q hmem).trans <|
          (hin.gpr q hqsp hqbp hqax hqcx).trans (hgpr q hqcx hq11)
    · exact hrest .rax (by decide) (by decide) (by decide) (by decide) (by decide)
    · exact hrest .rdx (by decide) (by decide) (by decide) (by decide) (by decide)

end Transparent

theorem pointerCall_set (pointer : Word) (k : Machine) :
    PointerCall pointer k (k.set .rax (readWord k.mem pointer)) where
  rax := by simp [Machine.set]
  gpr q hq := by simp [Machine.set, hq]
  stack := .refl _ _ _
  saved := .refl _ _ _

/-- A function that only returns a result. -/
theorem handlerCall_set (h : Machine) (value error : Word) :
    HandlerCall h ((h.set .rax value).set .rdx error) where
  gpr q hq := by
    simp only [calleeSaved, List.mem_cons, List.not_mem_nil, or_false] at hq
    rcases hq with rfl | rfl | rfl | rfl | rfl | rfl <;> simp [Machine.set]
  saved := .refl _ _ _

/-- A system call of an application whose task has its stack pointer at `0x3000`. -/
theorem syscall_transparent_sample : ∃ m g h', m.gpr .rsp = 0x9000 ∧ h'.gpr .rax = 5 ∧
    PassesArguments m (CallInstr.run g syscallEntryStack) 0x5fd0 ∧
      ReturnsTo m h' (afterSyscall (syscallMSRs 0x101000) h') := by
  have hword : readWord (writeWord (fun _ ↦ 0) 0x3000 0x5fd0) 0x3000 = 0x5fd0 :=
    readWord_writeWord _ _ _
  have happart : StacksApart 0x3000
      (sampleMachine 1 2 0x9000 4 (writeWord (fun _ ↦ 0) 0x3000 0x5fd0)) := by
    refine ⟨by decide, ?_⟩
    change Apart (readWord (writeWord (fun _ ↦ 0) 0x3000 0x5fd0) 0x3000 - 16) 16 (0x9000 - 64) 64
    rw [hword]
    decide
  have hcall : SystemCall (syscallMSRs 0x101000) 0x3000
      (sampleMachine 1 2 0x9000 4 (writeWord (fun _ ↦ 0) 0x3000 0x5fd0)) _ _ :=
    ⟨pointerCall_set _ _, handlerCall_set _ 5 0⟩
  have htransparent := syscall_transparent happart hcall
  rw [show readWord (sampleMachine 1 2 0x9000 4 (writeWord (fun _ ↦ 0) 0x3000 0x5fd0)).mem 0x3000 =
    0x5fd0 from hword] at htransparent
  exact ⟨_, _, _, rfl, rfl, htransparent⟩

/-! ## From `CallApp` to `ExitApp` -/

section App

variable {entry sp pointer : Word} {m m' m'' x g h' z : Machine} {code : Word}

/-- The frame of `CallApp` and the word that points to it stay. -/
structure KeepsFrame (sp pointer : Word) (m m' : Machine) : Prop where
  frame : Agrees m.mem m'.mem sp 56
  word : Agrees m.mem m'.mem pointer 8

theorem KeepsFrame.trans (h : KeepsFrame sp pointer m m') (h' : KeepsFrame sp pointer m' m'') :
    KeepsFrame sp pointer m m'' :=
  ⟨h.frame.trans h'.frame, h.word.trans h'.word⟩

/-- The application's stack is not where the kernel keeps the frame, and works below it. -/
structure Outside (sp pointer : Word) (m : Machine) : Prop where
  stack : Apart (m.gpr .rsp - 64) 64 (sp - 16) 72
  word : Apart (m.gpr .rsp - 64) 64 pointer 8

inductive AppOp where
  | work
  | syscall

/-- A system call that leaves the frame alone. -/
structure QuietCall (entry sp pointer : Word) (m g h' : Machine) : Prop where
  call : SystemCall (syscallMSRs entry) pointer m g h'
  outside : Outside sp pointer m
  pointerKeeps : KeepsFrame sp pointer
    (CallInstr.run (syscall (syscallMSRs entry) m) syscallEntryStart) g
  handlerKeeps : KeepsFrame sp pointer (CallInstr.run g syscallEntryStack) h'

/-- What happens while an application runs: it works, is interrupted and other tasks run, or it
makes a system call that is not `Exit`. -/
inductive AppStep (entry sp pointer : Word) : Machine → AppOp → Machine → Prop where
  | work {m m' : Machine} (keeps : KeepsFrame sp pointer m m') :
      AppStep entry sp pointer m .work m'
  | syscall {m g h' : Machine} (number : (m.gpr .rax).setWidth 32 ≠ (0x80000002 : BitVec 32))
      (quiet : QuietCall entry sp pointer m g h') :
      AppStep entry sp pointer m .syscall (afterSyscall (syscallMSRs entry) h')

/-- The application leaves for `ExitApp`, which is called in `z` with this exit code. -/
inductive Leaves (entry sp pointer : Word) (m : Machine) : Machine → Word → Prop where
  /-- `Exit` returns the stack pointer of the task and its argument, an `int`. -/
  | exit {g h' : Machine} (number : (m.gpr .rax).setWidth 32 = (0x80000002 : BitVec 32))
      (quiet : QuietCall entry sp pointer m g h')
      (value : h'.gpr .rax = readWord (CallInstr.run g syscallEntryStack).mem pointer)
      (error : (h'.gpr .rdx).setWidth 32 =
        ((CallInstr.run g syscallEntryStack).gpr .rdi).setWidth 32) :
      Leaves entry sp pointer m (run h' syscallExit) (m.gpr .rdi)
  /-- A fault handler calls `KillApp`. -/
  | killApp {z : Machine} (keeps : KeepsFrame sp pointer m z)
      (argument : z.gpr .rdi = readWord z.mem pointer) :
      Leaves entry sp pointer m z (z.gpr .rsi)

theorem Outside.stacksApart (h : Outside sp pointer m) (hsp : readWord m.mem pointer = sp) :
    StacksApart pointer m where
  word := h.word
  kernel := by
    rw [hsp]
    exact apart_sub h.stack.symm (by decide) (by bv_omega)

/-- `SyscallEntry` stores below the frame only. -/
theorem QuietCall.keeps (h : QuietCall entry sp pointer m g h')
    (hsp : readWord m.mem pointer = sp) (hroom : Apart (sp - 16) 16 pointer 8) :
    KeepsFrame sp pointer m h' := by
  have hrsp : (syscall (syscallMSRs entry) m).gpr .rsp = m.gpr .rsp :=
    gpr_syscall (by decide) (by decide)
  have hin := entered (syscall (syscallMSRs entry) m)
  have hfirst : KeepsFrame sp pointer m
      (CallInstr.run (syscall (syscallMSRs entry) m) syscallEntryStart) := by
    refine ⟨hin.agrees sp 56 ?_, hin.agrees pointer 8 (hrsp ▸ h.outside.word)⟩
    rw [hrsp]
    exact (apart_sub h.outside.stack.symm (by decide) (by bv_omega)).symm
  have hpointer : readWord (CallInstr.run (syscall (syscallMSRs entry) m) syscallEntryStart).mem
      pointer = sp :=
    (hfirst.word.readWord_first le_rfl (by decide)).trans hsp
  have hkernel := (h.outside.stacksApart hsp).kernel
  rw [hsp, ← hpointer, ← hrsp] at hkernel
  have hstores := (hin.handling h.call.pointerCall hkernel).2
  rw [hpointer] at hstores
  have hthird : KeepsFrame sp pointer g (CallInstr.run g syscallEntryStack) :=
    ⟨hstores sp 56 ⟨by bv_omega, by bv_omega⟩, hstores pointer 8 hroom⟩
  exact hfirst.trans (h.pointerKeeps.trans (hthird.trans h.handlerKeeps))

theorem AppStep.keeps {op : AppOp} (h : AppStep entry sp pointer m op m')
    (hsp : readWord m.mem pointer = sp) (hroom : Apart (sp - 16) 16 pointer 8) :
    KeepsFrame sp pointer m m' := by
  cases h with
  | work keeps => exact keeps
  | syscall number quiet =>
      obtain ⟨hframe, hword⟩ := quiet.keeps hsp hroom
      exact ⟨hframe, hword⟩

/-- The frame of `CallApp` is there in every state of a run. -/
theorem keepsFrame_run {ops : List AppOp} (hrun : Run (AppStep entry sp pointer) m ops x)
    (hsp : readWord m.mem pointer = sp) (hroom : Apart (sp - 16) 16 pointer 8) :
    KeepsFrame sp pointer m x := by
  induction hrun with
  | nil => exact ⟨.refl _ _ _, .refl _ _ _⟩
  | snoc run last ih =>
      refine ih.trans (last.keeps ?_ hroom)
      exact (ih.word.readWord_first le_rfl (by decide)).trans hsp

/-- The way to `ExitApp` leads to the frame with the exit code. -/
theorem Leaves.exits (h : Leaves entry sp pointer m z code) (hsp : readWord m.mem pointer = sp)
    (hroom : Apart (sp - 16) 16 pointer 8) : ∃ y, Exits sp y z ∧ KeepsFrame sp pointer m y ∧
      (z.gpr .rsi).setWidth 32 = code.setWidth 32 := by
  cases h with
  | @exit g h' number quiet value error =>
      have happart := quiet.outside.stacksApart hsp
      have hin := quiet.call.handling happart
      obtain ⟨hbp, hsaved⟩ := hin.returned quiet.call.handlerCall
      have hkeeps := quiet.keeps hsp hroom
      have hnumber : (readWord h'.mem (h'.gpr .rbp)).setWidth 32 = (0x80000002 : BitVec 32) := by
        rw [hbp, hsaved.1, gpr_syscall (by decide) (by decide), number]
      have hvalue : h'.gpr .rax = sp := by
        have hword := (hkeeps.word.readWord_first le_rfl (by decide)).trans hsp
        rw [value, ← quiet.handlerKeeps.word.readWord_first le_rfl (by decide), hword]
      refine ⟨h', .syscall hnumber hvalue, hkeeps, ?_⟩
      have hrdi : (CallInstr.run g syscallEntryStack).gpr .rdi = m.gpr .rdi :=
        (syscall_transparent happart quiet.call).1.args .rdi (by simp)
      rw [← hrdi, ← error]
      simp [syscallExit, run, exec, Machine.set]
  | killApp keeps argument =>
      refine ⟨z, .killApp ?_, keeps, rfl⟩
      rw [argument, keeps.word.readWord_first le_rfl (by decide), hsp]

theorem rax_exitApp (z : Machine) :
    (run z exitApp).gpr .rax = ((z.gpr .rsi).setWidth 32).setWidth 64 := by
  simp [exitApp, run, exec, Machine.set]

/-- However an application that cannot reach the kernel's frame runs, and however it ends,
`CallApp` returns to its caller with the exit code, and as any call does. -/
theorem callApp_of_run {ops : List AppOp} (hroom : Apart (m.gpr .rsp - 80) 88 (m.gpr .r9) 8)
    (hrun : Run (AppStep entry (m.gpr .rsp - 48) (m.gpr .r9)) (run m callApp) ops x)
    (hleaves : Leaves entry (m.gpr .rsp - 48) (m.gpr .r9) x z code) :
    (run z exitApp).gpr .rsp = m.gpr .rsp + 8 ∧
      (run z exitApp).rip = readWord m.mem (m.gpr .rsp) ∧
      (∀ q ∈ calleeSaved, (run z exitApp).gpr q = m.gpr q) ∧
      (run z exitApp).gpr .rax = (code.setWidth 32).setWidth 64 := by
  obtain ⟨-, hword⟩ := callApp_saved hroom
  have hbelow : Apart (m.gpr .rsp - 48 - 16) 16 (m.gpr .r9) 8 :=
    apart_sub hroom (by decide) (by bv_omega)
  have hkeeps := keepsFrame_run hrun hword hbelow
  have hx := (hkeeps.word.readWord_first le_rfl (by decide)).trans hword
  obtain ⟨y, hexits, hlast, hcode⟩ := hleaves.exits hx hbelow
  have hall := hkeeps.trans hlast
  have hy := (hall.word.readWord_first le_rfl (by decide)).trans hword
  obtain ⟨hrsp, hrip, hkept⟩ := callApp_returns hroom hall.frame hall.word (hy ▸ hexits)
  exact ⟨hrsp, hrip, hkept, by rw [rax_exitApp, hcode]⟩

/-- An application exits with the code 42. -/
theorem callApp_of_run_sample : ∃ m z : Machine, m.gpr .rsp = 0x6000 ∧
    (run z exitApp).gpr .rsp = m.gpr .rsp + 8 ∧ (run z exitApp).gpr .rax = 42 := by
  obtain ⟨m, hm⟩ : ∃ m, m = sampleMachine 1 2 0x6000 0x3000 fun _ ↦ 0 := ⟨_, rfl⟩
  have hsp : m.gpr .rsp = 0x6000 := by rw [hm]; rfl
  have hr9 : m.gpr .r9 = 0x3000 := by rw [hm]; rfl
  have hroom : Apart (m.gpr .rsp - 80) 88 (m.gpr .r9) 8 := by
    rw [hsp, hr9]
    decide
  obtain ⟨x, hx⟩ : ∃ x, x = (sampleMachine 42 2 0x9000 4 (run m callApp).mem).set .rax 0x80000002 :=
    ⟨_, rfl⟩
  have hxsp : x.gpr .rsp = 0x9000 := by rw [hx]; rfl
  have hxrax : (x.gpr .rax).setWidth 32 = (0x80000002 : BitVec 32) := by rw [hx]; rfl
  have hxrdi : x.gpr .rdi = 42 := by rw [hx]; rfl
  have hxmem : x.mem = (run m callApp).mem := by rw [hx]; rfl
  obtain ⟨k, hk⟩ : ∃ k, k = CallInstr.run (syscall (syscallMSRs 0x101000) x) syscallEntryStart :=
    ⟨_, rfl⟩
  obtain ⟨g, hg⟩ : ∃ g, g = k.set .rax (readWord k.mem (m.gpr .r9)) := ⟨_, rfl⟩
  have hcall : PointerCall (m.gpr .r9) k g := hg ▸ pointerCall_set _ _
  have hkeeps : KeepsFrame (m.gpr .rsp - 48) (m.gpr .r9) k g := by
    rw [hg]
    exact ⟨.refl _ _ _, .refl _ _ _⟩
  have hwork : Run (AppStep 0x101000 (m.gpr .rsp - 48) (m.gpr .r9)) (run m callApp) [.work] x :=
    .single (.work (by constructor <;> rw [hxmem] <;> exact .refl _ _ _))
  obtain ⟨h, hh⟩ : ∃ h, h = CallInstr.run g syscallEntryStack := ⟨_, rfl⟩
  have houtside : Outside (m.gpr .rsp - 48) (m.gpr .r9) x := by
    refine ⟨?_, ?_⟩
    · rw [hxsp, hsp]
      decide
    · rw [hxsp, hr9]
      decide
  have hquiet : QuietCall 0x101000 (m.gpr .rsp - 48) (m.gpr .r9) x g
      ((h.set .rax (readWord h.mem (m.gpr .r9))).set .rdx (h.gpr .rdi)) :=
    ⟨⟨hk ▸ hcall, hh ▸ handlerCall_set _ _ _⟩, houtside, hk ▸ hkeeps, hh ▸ ⟨.refl _ _ _, .refl _ _ _⟩⟩
  have hleaves := Leaves.exit hxrax hquiet (by rw [← hh]; simp [Machine.set])
    (by rw [← hh]; simp [Machine.set])
  obtain ⟨hrsp, -, -, hrax⟩ := callApp_of_run hroom hwork hleaves
  exact ⟨m, _, hsp, hrsp, hrax.trans (by rw [hxrdi]; rfl)⟩

end App

end Context
end MinOS
