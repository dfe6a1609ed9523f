import MinOS.Library.WordMemory

/-!
# A part of the x86-64 instruction set

The registers a task switch has to carry over, memory, and the moves, stack
operations and returns that switch code is made of.  A piece of straight-line
code is a list of instructions.  `rip` only changes at the instructions that
leave such a list, no instruction raises an exception, and a selector is a number:
no instruction looks at its descriptor.
-/

namespace MinOS
namespace X86

open WordMemory

inductive Reg where
  | rax | rbx | rcx | rdx | rdi | rsi | rsp | rbp
  | r8 | r9 | r10 | r11 | r12 | r13 | r14 | r15
  deriving DecidableEq, Repr

inductive Seg where
  | cs | ss | fs | gs
  deriving DecidableEq, Repr

abbrev Selector := BitVec 16

/-- The flags that exist.  `RF` and `VM` are left out: an instruction finds them
clear, and a pushed image has them clear. -/
def flagMask : Word := 0x3c7fd5

/-- The flags register, in which bit 1 is set and every other bit that is not a
flag is clear. -/
@[ext]
structure RFlags where
  bits : Word
  wellFormed : bits &&& flagMask ||| 2 = bits

/-- What a word popped into the flags register leaves there. -/
def RFlags.load (w : Word) : RFlags where
  bits := w &&& flagMask ||| 2
  wellFormed := by
    apply BitVec.eq_of_getLsbD_eq
    intro i hi
    simp only [BitVec.getLsbD_or, BitVec.getLsbD_and]
    cases w.getLsbD i <;> cases hmask : flagMask.getLsbD i <;> cases htwo : (2 : Word).getLsbD i <;>
      simp

theorem RFlags.load_bits (f : RFlags) : RFlags.load f.bits = f :=
  RFlags.ext f.wellFormed

/-- The 512 bytes that `fxsave` stores, eight at a time. -/
@[ext]
structure FxArea where
  words : List Word
  length_words : words.length = 64

def FxArea.read (mem : Memory) (a : Word) : FxArea :=
  ⟨readWords mem a 64, length_readWords mem a 64⟩

theorem FxArea.read_of_holds {mem : Memory} {a : Word} {fx : FxArea} (h : Holds mem a fx.words) :
    FxArea.read mem a = fx := by
  rw [holds_iff, fx.length_words] at h
  exact FxArea.ext h

@[ext]
structure Regs where
  gpr : Reg → Word
  rip : Word
  rflags : RFlags
  seg : Seg → Selector
  cr3 : Word
  fx : FxArea

structure Machine extends Regs where
  mem : Memory

/-- A 16-bit register written in a 64-bit one, whose other bits stay. -/
def withLow16 (w : Word) (s : Selector) : Word :=
  w.extractLsb' 16 48 ++ s

@[simp] theorem setWidth_withLow16 (w : Word) (s : Selector) :
    (withLow16 w s).setWidth 16 = s :=
  BitVec.setWidth_append_eq_right

namespace Machine

def set (m : Machine) (r : Reg) (v : Word) : Machine :=
  { m with gpr := Function.update m.gpr r v }

def pushWord (m : Machine) (v : Word) : Machine :=
  { m with
    gpr := Function.update m.gpr .rsp (m.gpr .rsp - 8)
    mem := writeWord m.mem (m.gpr .rsp - 8) v }

def pushWords (m : Machine) (vs : List Word) : Machine :=
  vs.foldl pushWord m

/-- The words on the stack, the top first. -/
def OnStack (m : Machine) (ws : List Word) : Prop :=
  Holds m.mem (m.gpr .rsp) ws

end Machine

/-- The flags after an addition or a subtraction with the given carries out of
bits 63 and 3. -/
def RFlags.arith (f : RFlags) (result : Word) (carry adjust overflow : Bool) : RFlags :=
  let parity := (List.range 8).foldl (fun p i ↦ p ^^ result.getLsbD i) true
  let bit (b : Bool) (i : ℕ) : Word := (BitVec.ofBool b).setWidth 64 <<< i
  RFlags.load (f.bits &&& ~~~0x8d5 ||| bit carry 0 ||| bit parity 2 ||| bit adjust 4 |||
    bit (result == 0) 6 ||| bit result.msb 7 ||| bit overflow 11)

inductive Instr where
  | mov (dst src : Reg)
  | mov32 (dst src : Reg)
  | load (dst base : Reg) (disp : Word)
  | store (base : Reg) (disp : Word) (src : Reg)
  | lea (dst base : Reg) (disp : Word)
  | push (src : Reg)
  | pushMem (base : Reg) (disp : Word)
  | pop (dst : Reg)
  | popMem (base : Reg) (disp : Word)
  | pushfq
  | movFromSeg (dst : Reg) (src : Seg)
  | movToSeg (dst : Seg) (src : Reg)
  | movFromCr3 (dst : Reg)
  | movToCr3 (src : Reg)
  | fxsave (base : Reg) (disp : Word)
  | fxrstor (base : Reg) (disp : Word)
  | addImm (dst : Reg) (imm : Word)
  | subImm (dst : Reg) (imm : Word)
  | ret
  | retf
  | iret
  deriving DecidableEq, Repr

def exec (m : Machine) : Instr → Machine
  | .mov dst src => m.set dst (m.gpr src)
  | .mov32 dst src => m.set dst (((m.gpr src).setWidth 32).setWidth 64)
  | .load dst base disp => m.set dst (readWord m.mem (m.gpr base + disp))
  | .store base disp src => { m with mem := writeWord m.mem (m.gpr base + disp) (m.gpr src) }
  | .lea dst base disp => m.set dst (m.gpr base + disp)
  | .push src => m.pushWord (m.gpr src)
  | .pushMem base disp => m.pushWord (readWord m.mem (m.gpr base + disp))
  | .pop dst => (m.set .rsp (m.gpr .rsp + 8)).set dst (readWord m.mem (m.gpr .rsp))
  | .popMem base disp =>
      -- the address is computed after the pop has moved `rsp`
      let popped := m.set .rsp (m.gpr .rsp + 8)
      { popped with
        mem := writeWord m.mem (popped.gpr base + disp) (readWord m.mem (m.gpr .rsp)) }
  | .pushfq => m.pushWord m.rflags.bits
  | .movFromSeg dst src => m.set dst (withLow16 (m.gpr dst) (m.seg src))
  | .movToSeg dst src => { m with seg := Function.update m.seg dst ((m.gpr src).setWidth 16) }
  | .movFromCr3 dst => m.set dst m.cr3
  | .movToCr3 src => { m with cr3 := m.gpr src }
  | .fxsave base disp => { m with mem := writeWords m.mem (m.gpr base + disp) m.fx.words }
  | .fxrstor base disp => { m with fx := FxArea.read m.mem (m.gpr base + disp) }
  | .addImm dst imm =>
      let a := m.gpr dst
      let sum := a + imm
      { m.set dst sum with
        rflags := m.rflags.arith sum (decide (2 ^ 64 ≤ a.toNat + imm.toNat))
          (decide (16 ≤ a.toNat % 16 + imm.toNat % 16))
          (a.msb == imm.msb && sum.msb != a.msb) }
  | .subImm dst imm =>
      let a := m.gpr dst
      let difference := a - imm
      { m.set dst difference with
        rflags := m.rflags.arith difference (decide (a.toNat < imm.toNat))
          (decide (a.toNat % 16 < imm.toNat % 16))
          (a.msb != imm.msb && difference.msb != a.msb) }
  | .ret => { m.set .rsp (m.gpr .rsp + 8) with rip := readWord m.mem (m.gpr .rsp) }
  | .retf =>
      let sp := m.gpr .rsp
      let cs : Selector := (readWord m.mem (sp + 8)).setWidth 16
      -- a return to a less privileged level also pops that level's stack
      if (m.seg .cs).setWidth 2 < cs.setWidth 2 then
        { m.set .rsp (readWord m.mem (sp + 16)) with
          rip := readWord m.mem sp
          seg := Function.update (Function.update m.seg .cs cs) .ss
            ((readWord m.mem (sp + 24)).setWidth 16) }
      else
        { m.set .rsp (sp + 16) with
          rip := readWord m.mem sp
          seg := Function.update m.seg .cs cs }
  | .iret =>
      let sp := m.gpr .rsp
      { m.set .rsp (readWord m.mem (sp + 24)) with
        rip := readWord m.mem sp
        rflags := RFlags.load (readWord m.mem (sp + 16))
        seg := Function.update (Function.update m.seg .cs ((readWord m.mem (sp + 8)).setWidth 16))
          .ss ((readWord m.mem (sp + 32)).setWidth 16) }

/-- Straight-line code. -/
def run (m : Machine) (code : List Instr) : Machine :=
  code.foldl exec m

/-- An interrupt gate with a stack of its own: the handler, its code segment and
the stack that the processor switches to. -/
structure Gate where
  offset : Word
  cs : Selector
  ist : Word

/-- What the processor does when it takes an interrupt through a gate. -/
def interrupt (gate : Gate) (m : Machine) : Machine :=
  { (m.set .rsp (gate.ist &&& ~~~0xf)).pushWords
      [(m.seg .ss).setWidth 64, m.gpr .rsp, m.rflags.bits, (m.seg .cs).setWidth 64, m.rip] with
    rip := gate.offset
    -- `TF`, `IF` and `NT` are cleared
    rflags := RFlags.load (m.rflags.bits &&& ~~~0x4300)
    seg := Function.update
      (Function.update m.seg .ss
        (if (m.seg .cs).setWidth 2 = gate.cs.setWidth 2 then m.seg .ss else (0 : Selector)))
      .cs gate.cs }

/-! ## Registers and stack after a run -/

theorem run_append (m : Machine) (code code' : List Instr) :
    run m (code ++ code') = run (run m code) code' :=
  List.foldl_append

theorem run_cons (m : Machine) (i : Instr) (code : List Instr) :
    run m (i :: code) = run (exec m i) code := rfl

namespace Machine

variable {m : Machine} {vs ws : List Word}

theorem sub_eight_sub (a : Word) (n : ℕ) :
    a - 8 - BitVec.ofNat 64 (8 * n) = a - BitVec.ofNat 64 (8 * (n + 1)) := by
  bv_omega

theorem pushWords_cons (m : Machine) (v : Word) (vs : List Word) :
    m.pushWords (v :: vs) = (m.pushWord v).pushWords vs := rfl

theorem pushWords_append (m : Machine) (vs ws : List Word) :
    m.pushWords (vs ++ ws) = (m.pushWords vs).pushWords ws :=
  List.foldl_append

/-- Pushing moves the stack pointer and no other register. -/
theorem toRegs_pushWords (m : Machine) (vs : List Word) :
    (m.pushWords vs).toRegs =
      { m.toRegs with
        gpr := Function.update m.gpr .rsp (m.gpr .rsp - BitVec.ofNat 64 (8 * vs.length)) } := by
  induction vs generalizing m with
  | nil => simp [pushWords]
  | cons v vs ih =>
      rw [pushWords_cons, ih, List.length_cons, ← sub_eight_sub]
      simp [pushWord]

theorem gpr_pushWords_rsp (m : Machine) (vs : List Word) :
    (m.pushWords vs).gpr .rsp = m.gpr .rsp - BitVec.ofNat 64 (8 * vs.length) := by
  simp [toRegs_pushWords]

theorem gpr_pushWords {r : Reg} (hr : r ≠ .rsp) : (m.pushWords vs).gpr r = m.gpr r := by
  simp [toRegs_pushWords, hr]

theorem mem_pushWords {x : Word}
    (hx : 8 * vs.length ≤ (x - (m.gpr .rsp - BitVec.ofNat 64 (8 * vs.length))).toNat) :
    (m.pushWords vs).mem x = m.mem x := by
  induction vs generalizing m with
  | nil => rfl
  | cons v vs ih =>
      simp only [List.length_cons] at hx
      have hsp : (m.pushWord v).gpr .rsp = m.gpr .rsp - 8 := by simp [pushWord]
      have hrest : 8 * vs.length ≤
          (x - ((m.pushWord v).gpr .rsp - BitVec.ofNat 64 (8 * vs.length))).toNat := by
        rw [hsp, sub_eight_sub]
        omega
      have hslot (p : Word) : x - (m.gpr .rsp - 8) = x - (m.gpr .rsp - 8 - p) - p := by
        bv_omega
      rw [pushWords_cons, ih hrest]
      apply writeWord_of_far
      rw [hslot (BitVec.ofNat 64 (8 * vs.length)), sub_eight_sub]
      exact le_toNat_sub (by omega)

/-- A block that the stack would not reach even after `n` pushes. -/
theorem agrees_pushWords {b : Word} {n k : ℕ} (hn : vs.length ≤ n)
    (h : Apart (m.gpr .rsp - BitVec.ofNat 64 (8 * n)) (8 * n) b k) :
    Agrees m.mem (m.pushWords vs).mem b k := by
  intro x hx
  have hsum : BitVec.ofNat 64 (8 * n) =
      BitVec.ofNat 64 (8 * vs.length) + BitVec.ofNat 64 (8 * (n - vs.length)) := by
    rw [← BitVec.ofNat_add]
    congr 1
    omega
  have hslot (p q : Word) : x - (m.gpr .rsp - p) = x - (m.gpr .rsp - (p + q)) - q := by
    bv_omega
  have hfar := h.far hx
  apply mem_pushWords
  rw [hslot _ (BitVec.ofNat 64 (8 * (n - vs.length))), ← hsum]
  exact le_toNat_sub (by omega)

theorem OnStack.pushWords (h : m.OnStack ws) (hlen : 8 * (vs.length + ws.length) ≤ 2 ^ 64) :
    (m.pushWords vs).OnStack (vs.reverse ++ ws) := by
  induction vs generalizing m ws with
  | nil => exact h
  | cons v vs ih =>
      simp only [List.length_cons] at hlen
      have hpush : (m.pushWord v).OnStack (v :: ws) := by
        have := Holds.push (v := v) h (by omega)
        simpa [OnStack, pushWord] using this
      have hrest := ih hpush (by simp only [List.length_cons]; omega)
      simpa [pushWords_cons] using hrest

end Machine

/-- The instruction pushes the value, also after up to `n` other pushes. -/
def Pushes (m : Machine) (n : ℕ) (i : Instr) (v : Word) : Prop :=
  ∀ ws : List Word, ws.length ≤ n → exec (m.pushWords ws) i = (m.pushWords ws).pushWord v

theorem pushes_push {m : Machine} {n : ℕ} {r : Reg} (hr : r ≠ .rsp) :
    Pushes m n (.push r) (m.gpr r) := by
  intro ws _
  rw [exec, Machine.gpr_pushWords hr]

theorem pushes_pushMem {m : Machine} {n k : ℕ} {b : Reg} {d : Word} (hb : b ≠ .rsp)
    (hd : d.toNat + 8 ≤ k) (hk : k ≤ 2 ^ 64)
    (hfar : Apart (m.gpr .rsp - BitVec.ofNat 64 (8 * n)) (8 * n) (m.gpr b) k) :
    Pushes m n (.pushMem b d) (readWord m.mem (m.gpr b + d)) := by
  intro ws hws
  have hread := (Machine.agrees_pushWords hws hfar).readWord_eq hd hk
  rw [exec, Machine.gpr_pushWords hb, hread]

/-- A word of a block that a register points to. -/
theorem pushes_holds {m : Machine} {n j : ℕ} {b : Reg} {ws : List Word} {w : Word} (hb : b ≠ .rsp)
    (hholds : Holds m.mem (m.gpr b) ws) (hlen : 8 * ws.length ≤ 2 ^ 64)
    (hfar : Apart (m.gpr .rsp - BitVec.ofNat 64 (8 * n)) (8 * n) (m.gpr b) (8 * ws.length))
    (hw : ws[j]? = some w) : Pushes m n (.pushMem b (BitVec.ofNat 64 (8 * j))) w := by
  have hj := (List.getElem?_eq_some_iff.mp hw).1
  have hd : (BitVec.ofNat 64 (8 * j)).toNat + 8 ≤ 8 * ws.length := by
    rw [BitVec.toNat_ofNat, Nat.mod_eq_of_lt (by omega)]
    omega
  rw [← hholds.getElem? hw]
  exact pushes_pushMem hb hd hlen hfar

/-- Code made of pushes. -/
theorem run_pushes {m : Machine} {n : ℕ} {code : List Instr} {vs : List Word}
    (h : List.Forall₂ (Pushes m n) code vs) (hn : vs.length ≤ n) :
    run m code = m.pushWords vs := by
  suffices hafter : ∀ ws : List Word, ws.length + vs.length ≤ n →
      run (m.pushWords ws) code = (m.pushWords ws).pushWords vs from
    hafter [] (by simpa using hn)
  clear hn
  induction h with
  | nil => exact fun _ _ ↦ rfl
  | @cons i v code vs hfirst hrest ih =>
      intro ws hlen
      simp only [List.length_cons] at hlen
      rw [run_cons, hfirst ws (by omega)]
      have hmore := ih (ws ++ [v]) (by simp only [List.length_append, List.length_singleton]; omega)
      rwa [Machine.pushWords_append] at hmore

end X86
end MinOS
