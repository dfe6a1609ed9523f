import MinOS.Library.Transition
import MinOS.Library.X86

/-!
# Switching between tasks

The switch code of `asmfunc.asm` and the part of `SwitchTask` that copies a
context.  Contexts, stacks and the code are in the half of the address space that
all page maps share, so they are read and written in one memory.
-/

namespace MinOS
namespace Context

open WordMemory X86

/-! ## The code -/

/-- `IntHandlerLAPICTimer` up to the call of `LAPICTimerOnInterrupt`. -/
def intHandlerLAPICTimer : List Instr :=
  [.push .rbp, .mov .rbp .rsp,
    .subImm .rsp 512, .fxsave .rsp 0,
    .push .r15, .push .r14, .push .r13, .push .r12, .push .r11, .push .r10, .push .r9, .push .r8,
    .pushMem .rbp 0,     -- RBP
    .pushMem .rbp 0x20,  -- RSP
    .push .rsi, .push .rdi, .push .rdx, .push .rcx, .push .rbx, .push .rax,
    .movFromSeg .rax .fs, .movFromSeg .rbx .gs, .movFromCr3 .rcx,
    .push .rbx, .push .rax,
    .pushMem .rbp 0x28,  -- SS
    .pushMem .rbp 0x10,  -- CS
    .push .rbp,
    .pushMem .rbp 0x18,  -- RFLAGS
    .pushMem .rbp 0x08,  -- RIP
    .push .rcx,
    .mov .rdi .rsp]

def restoreContext : List Instr :=
  [.pushMem .rdi 0x28, .pushMem .rdi 0x70, .pushMem .rdi 0x10, .pushMem .rdi 0x20,
    .pushMem .rdi 0x08,
    .fxrstor .rdi 0xc0,
    .load .rax .rdi 0x00, .movToCr3 .rax,
    .load .rax .rdi 0x30, .movToSeg .fs .rax,
    .load .rax .rdi 0x38, .movToSeg .gs .rax,
    .load .rax .rdi 0x40, .load .rbx .rdi 0x48, .load .rcx .rdi 0x50, .load .rdx .rdi 0x58,
    .load .rsi .rdi 0x68, .load .rbp .rdi 0x78,
    .load .r8 .rdi 0x80, .load .r9 .rdi 0x88, .load .r10 .rdi 0x90, .load .r11 .rdi 0x98,
    .load .r12 .rdi 0xa0, .load .r13 .rdi 0xa8, .load .r14 .rdi 0xb0, .load .r15 .rdi 0xb8,
    .load .rdi .rdi 0x60,
    .iret]

/-- `SwitchContext` goes on with `RestoreContext`. -/
def switchContext : List Instr :=
  [.store .rsi 0x40 .rax, .store .rsi 0x48 .rbx, .store .rsi 0x50 .rcx, .store .rsi 0x58 .rdx,
    .store .rsi 0x60 .rdi, .store .rsi 0x68 .rsi,
    .lea .rax .rsp 8, .store .rsi 0x70 .rax, .store .rsi 0x78 .rbp,
    .store .rsi 0x80 .r8, .store .rsi 0x88 .r9, .store .rsi 0x90 .r10, .store .rsi 0x98 .r11,
    .store .rsi 0xa0 .r12, .store .rsi 0xa8 .r13, .store .rsi 0xb0 .r14, .store .rsi 0xb8 .r15,
    .movFromCr3 .rax, .store .rsi 0x00 .rax,
    .load .rax .rsp 0, .store .rsi 0x08 .rax,
    .pushfq, .popMem .rsi 0x10,
    .movFromSeg .rax .cs, .store .rsi 0x20 .rax,
    .movFromSeg .rbx .ss, .store .rsi 0x28 .rbx,
    .movFromSeg .rcx .fs, .store .rsi 0x30 .rcx,
    .movFromSeg .rdx .gs, .store .rsi 0x38 .rdx,
    .fxsave .rsi 0xc0]

/-- The address of the stack pointer's copy is in `r9`. -/
def callApp : List Instr :=
  [.push .rbx, .push .rbp, .push .r12, .push .r13, .push .r14, .push .r15,
    .store .r9 0 .rsp,
    .push .rdx, .push .r8, .addImm .rdx 8, .push .rdx, .push .rcx, .retf]

def exitApp : List Instr :=
  [.mov .rsp .rdi, .mov32 .rax .rsi,
    .pop .r15, .pop .r14, .pop .r13, .pop .r12, .pop .rbp, .pop .rbx, .ret]

/-! ## Contexts -/

/-- `sizeof(TaskContext)`. -/
def contextBytes : ℕ := 704

/-- The field of `TaskContext` for a general-purpose register. -/
def slot : Reg → Word
  | .rax => 0x40
  | .rbx => 0x48
  | .rcx => 0x50
  | .rdx => 0x58
  | .rdi => 0x60
  | .rsi => 0x68
  | .rsp => 0x70
  | .rbp => 0x78
  | .r8 => 0x80
  | .r9 => 0x88
  | .r10 => 0x90
  | .r11 => 0x98
  | .r12 => 0xa0
  | .r13 => 0xa8
  | .r14 => 0xb0
  | .r15 => 0xb8

/-- The field of `TaskContext` for a selector. -/
def segSlot : Seg → Word
  | .cs => 0x20
  | .ss => 0x28
  | .fs => 0x30
  | .gs => 0x38

/-- A context with these registers.  The upper bits of the fields for selectors
and the bits of `rflags` that are no flags do not count. -/
structure Saved (mem : Memory) (a : Word) (r : Regs) : Prop where
  cr3 : readWord mem a = r.cr3
  rip : readWord mem (a + 0x08) = r.rip
  rflags : RFlags.load (readWord mem (a + 0x10)) = r.rflags
  cs : (readWord mem (a + 0x20)).setWidth 16 = r.seg .cs
  ss : (readWord mem (a + 0x28)).setWidth 16 = r.seg .ss
  fs : (readWord mem (a + 0x30)).setWidth 16 = r.seg .fs
  gs : (readWord mem (a + 0x38)).setWidth 16 = r.seg .gs
  gpr : ∀ q, readWord mem (a + slot q) = r.gpr q
  fx : FxArea.read mem (a + 0xc0) = r.fx

section Saved

variable {mem mem' : Memory} {a : Word} {r : Regs}

theorem saved_of_holds {flags x cs ss fs gs : Word}
    (h : Holds mem a ([r.cr3, r.rip, flags, x, cs, ss, fs, gs, r.gpr .rax, r.gpr .rbx, r.gpr .rcx,
      r.gpr .rdx, r.gpr .rdi, r.gpr .rsi, r.gpr .rsp, r.gpr .rbp, r.gpr .r8, r.gpr .r9, r.gpr .r10,
      r.gpr .r11, r.gpr .r12, r.gpr .r13, r.gpr .r14, r.gpr .r15] ++ r.fx.words))
    (hflags : RFlags.load flags = r.rflags) (hcs : cs.setWidth 16 = r.seg .cs)
    (hss : ss.setWidth 16 = r.seg .ss) (hfs : fs.setWidth 16 = r.seg .fs)
    (hgs : gs.setWidth 16 = r.seg .gs) : Saved mem a r := by
  obtain ⟨hwords, hfx⟩ := Holds.append_iff.mp h
  refine ⟨hwords.1, hwords.getElem? (i := 1) rfl, ?_, ?_, ?_, ?_, ?_, ?_, FxArea.read_of_holds hfx⟩
  · rw [← hflags, ← hwords.getElem? (i := 2) rfl]
    rfl
  · rw [← hcs, ← hwords.getElem? (i := 4) rfl]
    rfl
  · rw [← hss, ← hwords.getElem? (i := 5) rfl]
    rfl
  · rw [← hfs, ← hwords.getElem? (i := 6) rfl]
    rfl
  · rw [← hgs, ← hwords.getElem? (i := 7) rfl]
    rfl
  · intro q
    cases q
    · exact hwords.getElem? (i := 8) rfl
    · exact hwords.getElem? (i := 9) rfl
    · exact hwords.getElem? (i := 10) rfl
    · exact hwords.getElem? (i := 11) rfl
    · exact hwords.getElem? (i := 12) rfl
    · exact hwords.getElem? (i := 13) rfl
    · exact hwords.getElem? (i := 14) rfl
    · exact hwords.getElem? (i := 15) rfl
    · exact hwords.getElem? (i := 16) rfl
    · exact hwords.getElem? (i := 17) rfl
    · exact hwords.getElem? (i := 18) rfl
    · exact hwords.getElem? (i := 19) rfl
    · exact hwords.getElem? (i := 20) rfl
    · exact hwords.getElem? (i := 21) rfl
    · exact hwords.getElem? (i := 22) rfl
    · exact hwords.getElem? (i := 23) rfl

/-- Whatever memory has at an address can be restored. -/
theorem exists_saved (mem : Memory) (a : Word) : ∃ r, Saved mem a r :=
  ⟨{ gpr := fun q ↦ readWord mem (a + slot q)
     rip := readWord mem (a + 0x08)
     rflags := RFlags.load (readWord mem (a + 0x10))
     seg := fun s ↦ (readWord mem (a + segSlot s)).setWidth 16
     cr3 := readWord mem a
     fx := FxArea.read mem (a + 0xc0) }, rfl, rfl, rfl, rfl, rfl, rfl, rfl, fun _ ↦ rfl, rfl⟩

theorem Saved.of_words {a' : Word} (h : Saved mem a r) (hword : ∀ d : Word,
    d.toNat + 8 ≤ contextBytes → readWord mem' (a' + d) = readWord mem (a + d)) :
    Saved mem' a' r := by
  have hfx : FxArea.read mem' (a' + 0xc0) = FxArea.read mem (a + 0xc0) := by
    refine FxArea.ext (readWords_congr fun i hi ↦ ?_)
    rw [BitVec.add_assoc, BitVec.add_assoc]
    apply hword
    simp only [contextBytes]
    bv_omega
  refine ⟨?_, ?_, ?_, ?_, ?_, ?_, ?_, ?_, hfx.trans h.fx⟩
  · simpa [h.cr3] using hword 0 (by decide)
  · rw [hword _ (by decide), h.rip]
  · rw [hword _ (by decide), h.rflags]
  · rw [hword _ (by decide), h.cs]
  · rw [hword _ (by decide), h.ss]
  · rw [hword _ (by decide), h.fs]
  · rw [hword _ (by decide), h.gs]
  · intro q
    rw [hword _ (by cases q <;> decide), h.gpr]

theorem Saved.congr (h : Saved mem a r) (hagree : Agrees mem mem' a contextBytes) :
    Saved mem' a r :=
  h.of_words fun _ hd ↦ hagree.readWord_eq hd (by decide)

theorem Saved.memcpy {src : Word} (h : Saved mem src r) (dst : Word) :
    Saved (memcpy mem dst src contextBytes) dst r := by
  refine h.of_words fun d hd ↦ ?_
  have hcopy := @readWord_memcpy mem dst src contextBytes d.toNat hd (by decide)
  rwa [BitVec.ofNat_toNat, BitVec.setWidth_eq] at hcopy

end Saved

/-! ## Restoring -/

section Restore

variable {m : Machine} {a : Word} {r : Regs}

/-- The part of `RestoreContext` after the frame for `iret` was pushed. -/
theorem run_loads (ha : m.gpr .rdi = a) (h : Saved m.mem a r) (flags cs ss : Word)
    (hstack : m.OnStack [r.rip, cs, flags, r.gpr .rsp, ss])
    (hflags : RFlags.load flags = r.rflags) (hcs : cs.setWidth 16 = r.seg .cs)
    (hss : ss.setWidth 16 = r.seg .ss) :
    run m (restoreContext.drop 5) = { r with mem := m.mem } := by
  obtain ⟨hip, hcsw, hflagsw, hspw, hssw, -⟩ := hstack
  have h16 : m.gpr .rsp + 8 + 8 = m.gpr .rsp + 16 := by bv_omega
  have h24 : m.gpr .rsp + 8 + 8 + 8 = m.gpr .rsp + 24 := by bv_omega
  have h32 : m.gpr .rsp + 8 + 8 + 8 + 8 = m.gpr .rsp + 32 := by bv_omega
  rw [h16] at hflagsw
  rw [h24] at hspw
  rw [h32] at hssw
  have hmem : (run m (restoreContext.drop 5)).mem = m.mem := rfl
  have hregs : (run m (restoreContext.drop 5)).toRegs = r := by
    ext1
    · funext q
      have hq := h.gpr q
      cases q <;> simp [restoreContext, run, exec, Machine.set, ha]
      case rsp => exact hspw
      all_goals exact hq
    · simp [restoreContext, run, exec, Machine.set, hip]
    · rw [← hflags, ← hflagsw]
      simp [restoreContext, run, exec, Machine.set]
    · funext q
      cases q <;> simp [restoreContext, run, exec, Machine.set, ha]
      case cs => exact hcsw ▸ hcs
      case ss => exact hssw ▸ hss
      case fs => exact h.fs
      case gs => exact h.gs
    · simp [restoreContext, run, exec, Machine.set, ha, h.cr3]
    · rw [← h.fx, ← ha]
      simp [restoreContext, run, exec, Machine.set]
  rw [← hmem, ← hregs]

theorem run_restoreContext (ha : m.gpr .rdi = a) (h : Saved m.mem a r)
    (hroom : Apart (m.gpr .rsp - 40) 40 a contextBytes) :
    (run m restoreContext).toRegs = r ∧ ∀ b k, Apart (m.gpr .rsp - 40) 40 b k →
      Agrees m.mem (run m restoreContext).mem b k := by
  have hpushes : ∀ d : Word, d.toNat + 8 ≤ contextBytes →
      Pushes m 5 (.pushMem .rdi d) (readWord m.mem (a + d)) := by
    intro d hd
    rw [← ha]
    exact pushes_pushMem (by decide) hd (by decide) (ha ▸ hroom)
  have hpush₁ := hpushes 0x28 (by decide)
  have hpush₂ := hpushes 0x70 (by decide)
  have hpush₃ := hpushes 0x10 (by decide)
  have hpush₄ := hpushes 0x20 (by decide)
  have hpush₅ := hpushes 0x08 (by decide)
  have hsp := h.gpr .rsp
  rw [slot] at hsp
  rw [hsp] at hpush₂
  rw [h.rip] at hpush₅
  have hflags := h.rflags
  have hcs := h.cs
  have hss := h.ss
  generalize readWord m.mem (a + 0x28) = ss at hpush₁ hss
  generalize readWord m.mem (a + 0x10) = flags at hpush₃ hflags
  generalize readWord m.mem (a + 0x20) = cs at hpush₄ hcs
  have hcode : run m (restoreContext.take 5) = m.pushWords [ss, r.gpr .rsp, flags, cs, r.rip] :=
    run_pushes (.cons hpush₁ (.cons hpush₂ (.cons hpush₃ (.cons hpush₄ (.cons hpush₅ .nil))))) le_rfl
  have hstack : (m.pushWords [ss, r.gpr .rsp, flags, cs, r.rip]).OnStack
      [r.rip, cs, flags, r.gpr .rsp, ss] :=
    @Machine.OnStack.pushWords m [ss, r.gpr .rsp, flags, cs, r.rip] [] trivial (by simp)
  have hlen : [ss, r.gpr .rsp, flags, cs, r.rip].length ≤ 5 := le_rfl
  have hloads := run_loads ((Machine.gpr_pushWords (by decide)).trans ha)
    (h.congr (Machine.agrees_pushWords hlen hroom)) flags cs ss hstack hflags hcs hss
  rw [← List.take_append_drop 5 restoreContext, run_append, hcode, hloads]
  exact ⟨rfl, fun b k hb ↦ Machine.agrees_pushWords hlen hb⟩

end Restore

/-! ## The timer interrupt -/

/-- The top of the stack that the processor switches to. -/
def stackTop (gate : Gate) : Word := gate.ist &&& ~~~0xf

/-- The bytes that the handler pushes, with the frame of the processor. -/
def handlerBytes : ℕ := 752

section Handler

variable {m i : Machine} {gate : Gate} {b : Word} {k : ℕ}

theorem apart_sub {a a' : Word} {n n' : ℕ} (h : Apart a n b k) (hpos : 0 < n')
    (hlow : (a' - a).toNat + n' ≤ n) : Apart a' n' b k := by
  obtain ⟨hab, hba⟩ := h
  constructor <;> bv_omega

theorem onStack_interrupt (gate : Gate) (m : Machine) :
    (interrupt gate m).OnStack [m.rip, (m.seg .cs).setWidth 64, m.rflags.bits, m.gpr .rsp,
      (m.seg .ss).setWidth 64] :=
  @Machine.OnStack.pushWords (m.set .rsp (stackTop gate)) [(m.seg .ss).setWidth 64, m.gpr .rsp,
    m.rflags.bits, (m.seg .cs).setWidth 64, m.rip] [] trivial (by simp)

theorem gpr_interrupt (gate : Gate) (m : Machine) :
    (interrupt gate m).gpr = Function.update m.gpr .rsp (stackTop gate - 40) := by
  have hregs := congrArg Regs.gpr (Machine.toRegs_pushWords (m.set .rsp (stackTop gate))
    [(m.seg .ss).setWidth 64, m.gpr .rsp, m.rflags.bits, (m.seg .cs).setWidth 64, m.rip])
  refine hregs.trans ?_
  simp [Machine.set]

theorem agrees_interrupt (hroom : Apart (stackTop gate - 752) handlerBytes b k) :
    Agrees m.mem (interrupt gate m).mem b k := by
  have hlen : [(m.seg .ss).setWidth 64, m.gpr .rsp, m.rflags.bits, (m.seg .cs).setWidth 64,
      m.rip].length ≤ 5 := le_rfl
  refine @Machine.agrees_pushWords (m.set .rsp (stackTop gate)) _ b 5 k hlen (apart_sub hroom (by decide) ?_)
  simp only [handlerBytes, Machine.set, Function.update_self]
  bv_omega

/-- The handler saves `rbp` and the floating point state. -/
theorem run_handler_frame (i : Machine) :
    (run i (intHandlerLAPICTimer.take 4)).toRegs =
        { i.toRegs with
          gpr := Function.update (Function.update i.gpr .rbp (i.gpr .rsp - 8)) .rsp
            (i.gpr .rsp - 8 - 512)
          rflags := (run i (intHandlerLAPICTimer.take 4)).rflags } ∧
      (run i (intHandlerLAPICTimer.take 4)).mem =
        writeWords (writeWord i.mem (i.gpr .rsp - 8) (i.gpr .rbp)) (i.gpr .rsp - 8 - 512)
          i.fx.words := by
  constructor
  · ext1
    · funext q
      cases q <;> simp [intHandlerLAPICTimer, run, exec, Machine.set, Machine.pushWord]
    · rfl
    · rfl
    · rfl
    · rfl
    · rfl
  · simp [intHandlerLAPICTimer, run, exec, Machine.set, Machine.pushWord]

/-- The general-purpose registers as the handler pushes them, the last one first. -/
def pushedGprs (i : Machine) (sp : Word) : List Word :=
  [i.gpr .rax, i.gpr .rbx, i.gpr .rcx, i.gpr .rdx, i.gpr .rdi, i.gpr .rsi, sp, i.gpr .rbp,
    i.gpr .r8, i.gpr .r9, i.gpr .r10, i.gpr .r11, i.gpr .r12, i.gpr .r13, i.gpr .r14, i.gpr .r15]

/-- The handler after it has pushed the general-purpose registers. -/
theorem run_handler_gprs {ip cs flags sp ss : Word} (hstack : i.OnStack [ip, cs, flags, sp, ss])
    {m₂ : Machine} (hm₂ : m₂ = run i (intHandlerLAPICTimer.take 20)) :
    m₂.OnStack (pushedGprs i sp ++ (i.fx.words ++ [i.gpr .rbp, ip, cs, flags, sp, ss])) ∧
      m₂.gpr .rsp = i.gpr .rsp - 8 - 512 - 128 ∧ m₂.gpr .rbp = i.gpr .rsp - 8 ∧
      m₂.seg = i.seg ∧ m₂.cr3 = i.cr3 ∧ m₂.gpr .rax = i.gpr .rax ∧ m₂.gpr .rbx = i.gpr .rbx ∧
      ∀ b k, Apart (i.gpr .rsp - 712) 712 b k → Agrees i.mem m₂.mem b k := by
  obtain ⟨hregs, hmem⟩ := run_handler_frame i
  obtain ⟨m₁, hm₁⟩ : ∃ m₁, m₁ = run i (intHandlerLAPICTimer.take 4) := ⟨_, rfl⟩
  rw [← hm₁] at hregs hmem
  have hgpr := congrArg Regs.gpr hregs
  have hseg : m₁.seg = i.seg := (congrArg Regs.seg hregs).trans rfl
  have hcr3 : m₁.cr3 = i.cr3 := (congrArg Regs.cr3 hregs).trans rfl
  have hrsp : m₁.gpr .rsp = i.gpr .rsp - 8 - 512 := by simp [hgpr]
  have hrbp : m₁.gpr .rbp = i.gpr .rsp - 8 := by simp [hgpr]
  have hother : ∀ q, q ≠ .rbp → q ≠ .rsp → m₁.gpr q = i.gpr q := by
    intro q hq hq'
    simp [hgpr, hq, hq']
  have hrest : Holds (writeWord i.mem (i.gpr .rsp - 8) (i.gpr .rbp)) (i.gpr .rsp - 8)
      [i.gpr .rbp, ip, cs, flags, sp, ss] := Holds.push hstack (by simp)
  have hstack₁ : m₁.OnStack (i.fx.words ++ [i.gpr .rbp, ip, cs, flags, sp, ss]) := by
    have hfx := @Holds.pushWords _ _ i.fx.words _ hrest (by simp [i.fx.length_words])
    rw [i.fx.length_words] at hfx
    rw [Machine.OnStack, hrsp, hmem]
    exact hfx
  have hpush : ∀ q, q ≠ .rbp → q ≠ .rsp → Pushes m₁ 16 (.push q) (i.gpr q) := by
    intro q hq hq'
    rw [← hother q hq hq']
    exact pushes_push hq'
  have hblock : Holds m₁.mem (i.gpr .rsp - 8) [i.gpr .rbp, ip, cs, flags, sp, ss] := by
    have hafter := (Holds.append_iff.mp hstack₁).2
    rw [i.fx.length_words, hrsp] at hafter
    have hback : i.gpr .rsp - 8 - 512 + BitVec.ofNat 64 (8 * 64) = i.gpr .rsp - 8 := by bv_omega
    rwa [hback] at hafter
  have hframe : ∀ {j w}, [i.gpr .rbp, ip, cs, flags, sp, ss][j]? = some w →
      Pushes m₁ 16 (.pushMem .rbp (BitVec.ofNat 64 (8 * j))) w := by
    intro j w
    apply pushes_holds (by decide) (hrbp ▸ hblock) (by simp)
    change Apart _ _ _ 48
    rw [hrsp, hrbp]
    constructor <;> bv_omega
  have hcode : run m₁ ((intHandlerLAPICTimer.drop 4).take 16) =
      m₁.pushWords (pushedGprs i sp).reverse := by
    refine @run_pushes m₁ 16 _ _ ?_ le_rfl
    exact .cons (hpush _ (by decide) (by decide)) <| .cons (hpush _ (by decide) (by decide)) <|
      .cons (hpush _ (by decide) (by decide)) <| .cons (hpush _ (by decide) (by decide)) <|
      .cons (hpush _ (by decide) (by decide)) <| .cons (hpush _ (by decide) (by decide)) <|
      .cons (hpush _ (by decide) (by decide)) <| .cons (hpush _ (by decide) (by decide)) <|
      .cons (hframe (j := 0) rfl) <| .cons (hframe (j := 4) rfl) <|
      .cons (hpush _ (by decide) (by decide)) <| .cons (hpush _ (by decide) (by decide)) <|
      .cons (hpush _ (by decide) (by decide)) <| .cons (hpush _ (by decide) (by decide)) <|
      .cons (hpush _ (by decide) (by decide)) <| .cons (hpush _ (by decide) (by decide)) .nil
  have hrun : m₂ = m₁.pushWords (pushedGprs i sp).reverse := by
    have hsplit : intHandlerLAPICTimer.take 20 =
        intHandlerLAPICTimer.take 4 ++ (intHandlerLAPICTimer.drop 4).take 16 := rfl
    rw [hm₂, hsplit, run_append, ← hm₁, hcode]
  have hregs₂ := Machine.toRegs_pushWords m₁ (pushedGprs i sp).reverse
  rw [← hrun] at hregs₂
  have hgpr₂ := congrArg Regs.gpr hregs₂
  refine ⟨?_, ?_, ?_, ?_, ?_, ?_, ?_, ?_⟩
  · have hpushed := @Machine.OnStack.pushWords _ (pushedGprs i sp).reverse _ hstack₁ (by
      simp [pushedGprs, i.fx.length_words])
    rwa [List.reverse_reverse, ← hrun] at hpushed
  · simp only [hgpr₂, Function.update_self, hrsp]
    rfl
  · simp [hgpr₂, hrbp]
  · exact (congrArg Regs.seg hregs₂).trans hseg
  · exact (congrArg Regs.cr3 hregs₂).trans hcr3
  · simp [hgpr₂, hother]
  · simp [hgpr₂, hother]
  · intro b k hb
    have hword : Agrees i.mem (writeWord i.mem (i.gpr .rsp - 8) (i.gpr .rbp)) b k :=
      .writeWord (apart_sub hb (by decide) (by bv_omega))
    have hfx : Agrees (writeWord i.mem (i.gpr .rsp - 8) (i.gpr .rbp)) m₁.mem b k := by
      rw [hmem]
      refine .writeWords (apart_sub hb ?_ ?_) <;> rw [i.fx.length_words]
      · decide
      · bv_omega
    have hlen : (pushedGprs i sp).reverse.length ≤ 16 := le_rfl
    have hpushes : Agrees m₁.mem m₂.mem b k := by
      rw [hrun]
      refine Machine.agrees_pushWords hlen (apart_sub hb (by decide) ?_)
      rw [hrsp]
      bv_omega
    exact (hword.trans hfx).trans hpushes

/-- The whole frame that the handler passes on. -/
theorem run_handler {ip cs flags sp ss : Word} (hstack : i.OnStack [ip, cs, flags, sp, ss])
    {h : Machine} (hh : h = run i intHandlerLAPICTimer) :
    (∃ x fs gs rest, fs.setWidth 16 = i.seg .fs ∧ gs.setWidth 16 = i.seg .gs ∧
      Holds h.mem (h.gpr .rdi) ([i.cr3, ip, flags, x, cs, ss, fs, gs] ++ (pushedGprs i sp ++
        (i.fx.words ++ rest)))) ∧
      ∀ b k, Apart (i.gpr .rsp - 712) 712 b k → Agrees i.mem h.mem b k := by
  obtain ⟨m₂, hm₂⟩ : ∃ m₂, m₂ = run i (intHandlerLAPICTimer.take 20) := ⟨_, rfl⟩
  obtain ⟨hstack₂, hrsp, hrbp, hseg, hcr3, hrax, hrbx, hagree⟩ := run_handler_gprs hstack hm₂
  obtain ⟨m₃, hm₃⟩ : ∃ m₃, m₃ = run m₂ ((intHandlerLAPICTimer.drop 20).take 3) := ⟨_, rfl⟩
  have hmem₃ : m₃.mem = m₂.mem := hm₃ ▸ rfl
  have hrsp₃ : m₃.gpr .rsp = i.gpr .rsp - 8 - 512 - 128 := by
    rw [hm₃, ← hrsp]
    simp [intHandlerLAPICTimer, run, exec, Machine.set]
  have hrbp₃ : m₃.gpr .rbp = i.gpr .rsp - 8 := by
    rw [hm₃, ← hrbp]
    simp [intHandlerLAPICTimer, run, exec, Machine.set]
  have hrax₃ : m₃.gpr .rax = withLow16 (i.gpr .rax) (i.seg .fs) := by
    rw [hm₃, ← hrax, ← hseg]
    simp [intHandlerLAPICTimer, run, exec, Machine.set]
  have hrbx₃ : m₃.gpr .rbx = withLow16 (i.gpr .rbx) (i.seg .gs) := by
    rw [hm₃, ← hrbx, ← hseg]
    simp [intHandlerLAPICTimer, run, exec, Machine.set]
  have hrcx₃ : m₃.gpr .rcx = i.cr3 := by
    rw [hm₃, ← hcr3]
    simp [intHandlerLAPICTimer, run, exec, Machine.set]
  have hstack₃ : m₃.OnStack (pushedGprs i sp ++ (i.fx.words ++
      [i.gpr .rbp, ip, cs, flags, sp, ss])) := by
    rw [Machine.OnStack, hrsp₃, hmem₃, ← hrsp]
    exact hstack₂
  have hblock : Holds m₃.mem (i.gpr .rsp - 8) [i.gpr .rbp, ip, cs, flags, sp, ss] := by
    have hafter := (Holds.append_iff.mp (Holds.append_iff.mp hstack₃).2).2
    rw [i.fx.length_words, hrsp₃] at hafter
    have hback : i.gpr .rsp - 8 - 512 - 128 + BitVec.ofNat 64 (8 * (pushedGprs i sp).length) +
        BitVec.ofNat 64 (8 * 64) = i.gpr .rsp - 8 := by
      simp only [pushedGprs, List.length_cons, List.length_nil]
      bv_omega
    rwa [hback] at hafter
  have hpush : ∀ q w, q ≠ .rsp → m₃.gpr q = w → Pushes m₃ 8 (.push q) w := by
    rintro q w hq rfl
    exact pushes_push hq
  have hframe : ∀ {j w}, [i.gpr .rbp, ip, cs, flags, sp, ss][j]? = some w →
      Pushes m₃ 8 (.pushMem .rbp (BitVec.ofNat 64 (8 * j))) w := by
    intro j w
    apply pushes_holds (by decide) (hrbp₃ ▸ hblock) (by simp)
    change Apart _ _ _ 48
    rw [hrsp₃, hrbp₃]
    constructor <;> bv_omega
  obtain ⟨control, hcontrol⟩ : ∃ control, control = [i.cr3, ip, flags, i.gpr .rsp - 8, cs, ss,
      withLow16 (i.gpr .rax) (i.seg .fs), withLow16 (i.gpr .rbx) (i.seg .gs)] := ⟨_, rfl⟩
  have hcode : run m₃ ((intHandlerLAPICTimer.drop 23).take 8) = m₃.pushWords control.reverse := by
    rw [hcontrol]
    refine @run_pushes m₃ 8 _ _ ?_ le_rfl
    exact .cons (hpush _ _ (by decide) hrbx₃) <| .cons (hpush _ _ (by decide) hrax₃) <|
      .cons (hframe (j := 5) rfl) <| .cons (hframe (j := 2) rfl) <|
      .cons (hpush _ _ (by decide) hrbp₃) <| .cons (hframe (j := 3) rfl) <|
      .cons (hframe (j := 1) rfl) <| .cons (hpush _ _ (by decide) hrcx₃) .nil
  have hlen : control.length = 8 := hcontrol ▸ rfl
  have hrun : h = exec (m₃.pushWords control.reverse) (.mov .rdi .rsp) := by
    have hsplit : intHandlerLAPICTimer = intHandlerLAPICTimer.take 20 ++
        ((intHandlerLAPICTimer.drop 20).take 3 ++ ((intHandlerLAPICTimer.drop 23).take 8 ++
          [.mov .rdi .rsp])) := rfl
    rw [hh, hsplit, run_append, run_append, run_append, ← hm₂, ← hm₃, hcode]
    rfl
  have hmem : h.mem = (m₃.pushWords control.reverse).mem := by rw [hrun]; rfl
  have hrdi : h.gpr .rdi = (m₃.pushWords control.reverse).gpr .rsp := by
    rw [hrun]
    simp [exec, Machine.set]
  constructor
  · have hpushed := @Machine.OnStack.pushWords _ control.reverse _ hstack₃ (by
      simp [pushedGprs, i.fx.length_words, hlen])
    rw [List.reverse_reverse, Machine.OnStack, ← hmem, ← hrdi, hcontrol] at hpushed
    exact ⟨_, _, _, _, setWidth_withLow16 _ _, setWidth_withLow16 _ _, hpushed⟩
  · intro b k hb
    have hpushes : Agrees m₃.mem h.mem b k := by
      rw [hmem]
      refine Machine.agrees_pushWords (by simp [hlen] : control.reverse.length ≤ 8)
        (apart_sub hb (by decide) ?_)
      rw [hrsp₃]
      bv_omega
    exact (hmem₃ ▸ hagree b k hb).trans hpushes

/-- The frame that the handler passes on is the context of the interrupted task. -/
theorem saved_handler (gate : Gate) (m : Machine) {h : Machine}
    (hh : h = run (interrupt gate m) intHandlerLAPICTimer) :
    Saved h.mem (h.gpr .rdi) m.toRegs ∧ ∀ b k, Apart (stackTop gate - 752) handlerBytes b k →
      Agrees m.mem h.mem b k := by
  obtain ⟨⟨x, fs, gs, rest, hfs, hgs, hholds⟩, hagree⟩ := run_handler (onStack_interrupt gate m) hh
  have hgpr := gpr_interrupt gate m
  have hfx : (interrupt gate m).fx = m.fx := rfl
  have hcr3 : (interrupt gate m).cr3 = m.cr3 := rfl
  have hgprs : pushedGprs (interrupt gate m) (m.gpr .rsp) = pushedGprs m (m.gpr .rsp) := by
    simp [pushedGprs, hgpr]
  rw [hgprs, hfx, hcr3, ← List.append_assoc, ← List.append_assoc, Holds.append_iff] at hholds
  constructor
  · refine saved_of_holds hholds.1 (RFlags.load_bits m.rflags) (by simp) (by simp) (hfs.trans ?_)
      (hgs.trans ?_)
    · simp [interrupt]
    · simp [interrupt]
  · intro b k hb
    refine (agrees_interrupt hb).trans (hagree b k ?_)
    refine apart_sub hb (by decide) ?_
    rw [hgpr, Function.update_self]
    simp only [handlerBytes]
    bv_omega

end Handler

/-! ## Saving -/

/-- The registers after a call has returned without changing any other register. -/
def afterReturn (m : Machine) : Regs :=
  { m.toRegs with
    gpr := Function.update m.gpr .rsp (m.gpr .rsp + 8)
    rip := readWord m.mem (m.gpr .rsp) }

/-- `SwitchContext` was called in `m` and is in `k`; the words `ws` are in the
context before the floating point state. -/
structure Saving (m k : Machine) (ws : List Word) : Prop where
  length : ws.length = 24
  holds : Holds k.mem (m.gpr .rsi) ws
  gpr : ∀ q, q ≠ .rax → q ≠ .rbx → q ≠ .rcx → q ≠ .rdx → k.gpr q = m.gpr q
  rflags : k.rflags = m.rflags
  seg : k.seg = m.seg
  cr3 : k.cr3 = m.cr3
  fx : k.fx = m.fx
  agrees : ∀ b n, Apart (m.gpr .rsi) contextBytes b n → Apart (m.gpr .rsp - 8) 8 b n →
    Agrees m.mem k.mem b n

/-- The code that stores registers in the context. -/
def storeCode (l : List (ℕ × Reg)) : List Instr :=
  l.map fun p ↦ .store .rsi (BitVec.ofNat 64 (8 * p.1)) p.2

/-- A value goes into the context through a scratch register. -/
def scratchCode (c : Instr) (i : ℕ) (q : Reg) : List Instr :=
  [c, .store .rsi (BitVec.ofNat 64 (8 * i)) q]

section Saving

variable {m k : Machine} {ws : List Word}

theorem saving_start (m : Machine) : Saving m m (readWords m.mem (m.gpr .rsi) 24) where
  length := length_readWords _ _ _
  holds := holds_readWords _ _ _
  gpr := fun _ _ _ _ _ ↦ rfl
  rflags := rfl
  seg := rfl
  cr3 := rfl
  fx := rfl
  agrees := fun _ _ _ _ ↦ .refl _ _ _

namespace Saving

theorem rsi (h : Saving m k ws) : k.gpr .rsi = m.gpr .rsi :=
  h.gpr .rsi (by decide) (by decide) (by decide) (by decide)

theorem rsp (h : Saving m k ws) : k.gpr .rsp = m.gpr .rsp :=
  h.gpr .rsp (by decide) (by decide) (by decide) (by decide)

/-- A field of the context is within it. -/
theorem field_apart {i : ℕ} (hi : i < 24) {b : Word} {n : ℕ}
    (hb : Apart (m.gpr .rsi) contextBytes b n) :
    Apart (m.gpr .rsi + BitVec.ofNat 64 (8 * i)) 8 b n := by
  refine apart_sub hb (by decide) ?_
  simp only [contextBytes]
  bv_omega

theorem store (h : Saving m k ws) {i : ℕ} (hi : i < 24) (q : Reg) {w : Word} (hw : k.gpr q = w) :
    Saving m (exec k (.store .rsi (BitVec.ofNat 64 (8 * i)) q)) (ws.set i w) where
  length := (List.length_set ..).trans h.length
  holds := by
    rw [exec, h.rsi, hw]
    exact h.holds.set (h.length ▸ hi) (by simp [h.length])
  gpr := h.gpr
  rflags := h.rflags
  seg := h.seg
  cr3 := h.cr3
  fx := h.fx
  agrees := by
    intro b n hb hb'
    refine (h.agrees b n hb hb').trans ?_
    rw [exec, h.rsi]
    exact .writeWord (field_apart hi hb)

theorem scratch (h : Saving m k ws) {q : Reg} (v : Word)
    (hq : q = .rax ∨ q = .rbx ∨ q = .rcx ∨ q = .rdx) : Saving m (k.set q v) ws where
  length := h.length
  holds := h.holds
  gpr := by
    intro q' ha hb hc hd
    have hne : q' ≠ q := by
      rintro rfl
      rcases hq with rfl | rfl | rfl | rfl <;> contradiction
    exact (Function.update_of_ne hne v k.gpr).trans (h.gpr q' ha hb hc hd)
  rflags := h.rflags
  seg := h.seg
  cr3 := h.cr3
  fx := h.fx
  agrees := h.agrees

/-- The flags go through a word below the stack. -/
theorem flags (h : Saving m k ws) (hroom : Apart (m.gpr .rsp - 8) 8 (m.gpr .rsi) contextBytes) :
    Saving m (run k [.pushfq, .popMem .rsi 0x10]) (ws.set 2 m.rflags.bits) := by
  have hgpr : (run k [.pushfq, .popMem .rsi 0x10]).gpr = k.gpr := by
    funext q
    cases q <;> simp [run, exec, Machine.pushWord, Machine.set, BitVec.sub_add_cancel]
  have hmem : (run k [.pushfq, .popMem .rsi 0x10]).mem =
      writeWord (writeWord k.mem (m.gpr .rsp - 8) m.rflags.bits)
        (m.gpr .rsi + BitVec.ofNat 64 (8 * 2)) m.rflags.bits := by
    simp [run, exec, Machine.pushWord, Machine.set, h.rsi, h.rsp, h.rflags]
  have hpush : Agrees k.mem (writeWord k.mem (m.gpr .rsp - 8) m.rflags.bits) (m.gpr .rsi)
      (8 * ws.length) := by
    rw [h.length]
    intro x hx
    exact (Agrees.writeWord hroom) x (lt_of_lt_of_le hx (by decide))
  exact
    { length := (List.length_set ..).trans h.length
      holds := by
        rw [hmem]
        exact (h.holds.congr (by simp [h.length]) hpush).set (by simp [h.length])
          (by simp [h.length])
      gpr := hgpr ▸ h.gpr
      rflags := h.rflags
      seg := h.seg
      cr3 := h.cr3
      fx := h.fx
      agrees := by
        intro b n hb hb'
        rw [hmem]
        exact ((h.agrees b n hb hb').trans (.writeWord hb')).trans
          (.writeWord (field_apart (by decide) hb)) }

theorem through (h : Saving m k ws) (i : ℕ) {q : Reg} {v : Word} {c : Instr} (hi : i < 24)
    (hq : q = .rax ∨ q = .rbx ∨ q = .rcx ∨ q = .rdx) (hc : exec k c = k.set q v) :
    Saving m (run k (scratchCode c i q)) (ws.set i v) := by
  have hset := h.scratch v hq
  rw [← hc] at hset
  exact hset.store hi q (hc ▸ Function.update_self ..)

theorem exec_lea (h : Saving m k ws) :
    exec k (.lea .rax .rsp 8) = k.set .rax (m.gpr .rsp + 8) := by
  rw [exec, h.rsp]

theorem exec_cr3 (h : Saving m k ws) : exec k (.movFromCr3 .rax) = k.set .rax m.cr3 := by
  rw [exec, h.cr3]

theorem exec_seg (h : Saving m k ws) (q : Reg) (s : Seg) :
    exec k (.movFromSeg q s) = k.set q (withLow16 (k.gpr q) (m.seg s)) := by
  rw [exec, h.seg]

/-- The return address is where the call left it. -/
theorem exec_load (h : Saving m k ws) (hroom : Apart (m.gpr .rsi) contextBytes (m.gpr .rsp) 8) :
    exec k (.load .rax .rsp 0) = k.set .rax (readWord m.mem (m.gpr .rsp)) := by
  have hagree := h.agrees (m.gpr .rsp) 8 hroom ⟨by bv_omega, by bv_omega⟩
  rw [exec, h.rsp, hagree.readWord_eq (by decide) (by decide), BitVec.ofNat_eq_ofNat,
    BitVec.add_zero]

end Saving

theorem Saving.stores {l : List (ℕ × Reg)} : ∀ {k : Machine} {ws : List Word}, Saving m k ws →
    (∀ p ∈ l, p.1 < 24 ∧ k.gpr p.2 = m.gpr p.2) →
      Saving m (run k (storeCode l)) (l.foldl (fun ws p ↦ ws.set p.1 (m.gpr p.2)) ws) := by
  induction l with
  | nil => exact fun h _ ↦ h
  | cons p l ih =>
      intro k ws h hl
      obtain ⟨⟨hi, hp⟩, hrest⟩ := List.forall_mem_cons.mp hl
      exact ih (h.store hi p.2 hp) hrest

def firstGprs : List (ℕ × Reg) :=
  [(8, .rax), (9, .rbx), (10, .rcx), (11, .rdx), (12, .rdi), (13, .rsi)]

def lastGprs : List (ℕ × Reg) :=
  [(15, .rbp), (16, .r8), (17, .r9), (18, .r10), (19, .r11), (20, .r12), (21, .r13), (22, .r14),
    (23, .r15)]

theorem switchContext_eq : switchContext =
    storeCode firstGprs ++ (scratchCode (.lea .rax .rsp 8) 14 .rax ++ (storeCode lastGprs ++
      (scratchCode (.movFromCr3 .rax) 0 .rax ++ (scratchCode (.load .rax .rsp 0) 1 .rax ++
        ([Instr.pushfq, Instr.popMem .rsi 0x10] ++ (scratchCode (.movFromSeg .rax .cs) 4 .rax ++
          (scratchCode (.movFromSeg .rbx .ss) 5 .rbx ++ (scratchCode (.movFromSeg .rcx .fs) 6 .rcx ++
            (scratchCode (.movFromSeg .rdx .gs) 7 .rdx ++ [Instr.fxsave .rsi 0xc0]))))))))) :=
  rfl

theorem scratch_notMem_lastGprs :
    ∀ p ∈ lastGprs, p.1 < 24 ∧ p.2 ≠ .rax ∧ p.2 ≠ .rbx ∧ p.2 ≠ .rcx ∧ p.2 ≠ .rdx := by
  decide

/-- The stores of `SwitchContext` into the 24 words before the floating point state. -/
def storedWords (m : Machine) (ws : List Word) (ip cs ss fs gs : Word) : List Word :=
  ((((((((lastGprs.foldl (fun ws p ↦ ws.set p.1 (m.gpr p.2))
    ((firstGprs.foldl (fun ws p ↦ ws.set p.1 (m.gpr p.2)) ws).set 14 (m.gpr .rsp + 8))).set
      0 m.cr3).set 1 ip).set 2 m.rflags.bits).set 4 cs).set 5 ss).set 6 fs).set 7 gs)

theorem storedWords_eq (m : Machine) (mem : Memory) (a ip cs ss fs gs : Word) :
    storedWords m (readWords mem a 24) ip cs ss fs gs =
      [m.cr3, ip, m.rflags.bits, readWord mem (a + 8 + 8 + 8), cs, ss, fs, gs] ++
        pushedGprs m (m.gpr .rsp + 8) := by
  simp only [storedWords, readWords, firstGprs, lastGprs, List.foldl_cons, List.foldl_nil,
    List.set_cons_succ, List.set_cons_zero]
  rfl

/-- `SwitchContext` before it stores the floating point state. -/
theorem saving_switchContext (m : Machine)
    (hroom : Apart (m.gpr .rsp - 40) 48 (m.gpr .rsi) contextBytes) :
    ∃ k x cs ss fs gs, run m switchContext = exec k (.fxsave .rsi 0xc0) ∧
      cs.setWidth 16 = m.seg .cs ∧ ss.setWidth 16 = m.seg .ss ∧ fs.setWidth 16 = m.seg .fs ∧
      gs.setWidth 16 = m.seg .gs ∧
      Saving m k ([m.cr3, readWord m.mem (m.gpr .rsp), m.rflags.bits, x, cs, ss, fs, gs] ++
        pushedGprs m (m.gpr .rsp + 8)) := by
  have hslot : Apart (m.gpr .rsp - 8) 8 (m.gpr .rsi) contextBytes :=
    apart_sub hroom (by decide) (by bv_omega)
  have hreturn : Apart (m.gpr .rsp) 8 (m.gpr .rsi) contextBytes :=
    apart_sub hroom (by decide) (by bv_omega)
  have h₁ := (saving_start m).stores (show ∀ p ∈ firstGprs, _ by simp [firstGprs])
  have h₂ := h₁.through 14 (by decide) (.inl rfl) h₁.exec_lea
  have h₃ := h₂.stores fun p hp ↦
    have ⟨hi, ha, hb, hc, hd⟩ := scratch_notMem_lastGprs p hp
    ⟨hi, h₂.gpr p.2 ha hb hc hd⟩
  have h₄ := h₃.through 0 (by decide) (.inl rfl) h₃.exec_cr3
  have h₅ := h₄.through 1 (by decide) (.inl rfl) (h₄.exec_load ⟨hreturn.2, hreturn.1⟩)
  have h₆ := h₅.flags hslot
  have h₇ := h₆.through 4 (by decide) (.inl rfl) (h₆.exec_seg .rax .cs)
  have h₈ := h₇.through 5 (by decide) (.inr (.inl rfl)) (h₇.exec_seg .rbx .ss)
  have h₉ := h₈.through 6 (by decide) (.inr (.inr (.inl rfl))) (h₈.exec_seg .rcx .fs)
  have h₁₀ : Saving m _ (storedWords m _ _ _ _ _ _) :=
    h₉.through 7 (by decide) (.inr (.inr (.inr rfl))) (h₉.exec_seg .rdx .gs)
  rw [storedWords_eq] at h₁₀
  refine ⟨_, _, _, _, _, _, ?_, setWidth_withLow16 _ _, setWidth_withLow16 _ _,
    setWidth_withLow16 _ _, setWidth_withLow16 _ _, h₁₀⟩
  rw [switchContext_eq]
  simp only [run_append]
  rfl

/-- `SwitchContext` saves the state in which its call returns. -/
theorem saved_switchContext (m : Machine)
    (hroom : Apart (m.gpr .rsp - 40) 48 (m.gpr .rsi) contextBytes) :
    Saved (run m switchContext).mem (m.gpr .rsi) (afterReturn m) ∧
      (run m switchContext).gpr .rdi = m.gpr .rdi ∧
      (run m switchContext).gpr .rsp = m.gpr .rsp ∧
      ∀ b n, Apart (m.gpr .rsi) contextBytes b n → Apart (m.gpr .rsp - 8) 8 b n →
        Agrees m.mem (run m switchContext).mem b n := by
  obtain ⟨k, x, cs, ss, fs, gs, hrun, hcs, hss, hfs, hgs, h⟩ := saving_switchContext m hroom
  have hmem : (run m switchContext).mem =
      writeWords k.mem (m.gpr .rsi + BitVec.ofNat 64 (8 * 24)) m.fx.words := by
    rw [hrun, exec, h.rsi, h.fx]
    rfl
  have hgprs : pushedGprs m (m.gpr .rsp + 8) =
      pushedGprs ⟨afterReturn m, m.mem⟩ (m.gpr .rsp + 8) := by
    simp [pushedGprs, afterReturn]
  have hbehind : Agrees k.mem (run m switchContext).mem (m.gpr .rsi) (8 * 24) := by
    rw [hmem]
    refine .writeWords ?_
    rw [m.fx.length_words]
    constructor <;> bv_omega
  have hfields := h.holds.congr (by rw [h.length]; omega) (h.length ▸ hbehind)
  have hfx : Holds (run m switchContext).mem (m.gpr .rsi + BitVec.ofNat 64 (8 * 24)) m.fx.words := by
    rw [hmem]
    exact Holds.writeWords (by simp [m.fx.length_words])
  rw [hgprs] at hfields
  refine ⟨?_, ?_, ?_, ?_⟩
  · exact saved_of_holds (Holds.append_iff.mpr ⟨hfields, hfx⟩) (RFlags.load_bits m.rflags) hcs hss
      hfs hgs
  · rw [hrun]
    exact h.gpr .rdi (by decide) (by decide) (by decide) (by decide)
  · rw [hrun]
    exact h.rsp
  · intro b n hb hb'
    rw [hmem]
    refine (h.agrees b n hb hb').trans (.writeWords (apart_sub hb ?_ ?_)) <;>
      rw [m.fx.length_words]
    · decide
    · simp only [contextBytes]
      bv_omega

end Saving

end Context
end MinOS
