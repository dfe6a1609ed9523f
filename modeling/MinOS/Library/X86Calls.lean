import MinOS.Library.X86

/-!
# System calls on x86-64

The instructions by which an application enters the kernel and comes back, and those that the
entry code uses besides moves and stack operations.
-/

namespace MinOS
namespace X86

open WordMemory

/-- The flags after a bitwise operation.  The adjust flag is undefined then; here it is cleared. -/
def RFlags.logic (f : RFlags) (low : BitVec 8) (zero sign : Bool) : RFlags :=
  let parity := (List.range 8).foldl (fun p i ↦ p ^^ low.getLsbD i) true
  let bit (b : Bool) (i : ℕ) : Word := (BitVec.ofBool b).setWidth 64 <<< i
  RFlags.load (f.bits &&& ~~~0x8d5 ||| bit parity 2 ||| bit zero 6 ||| bit sign 7)

inductive CallInstr where
  | plain (i : Instr)
  | and (dst : Reg) (imm : Word)
  | and32 (dst : Reg) (imm : BitVec 32)
  | cli
  | sti

namespace CallInstr

def exec (m : Machine) : CallInstr → Machine
  | .plain i => X86.exec m i
  | .and dst imm =>
      let r := m.gpr dst &&& imm
      { m.set dst r with rflags := m.rflags.logic (r.setWidth 8) (r == 0) r.msb }
  | .and32 dst imm =>
      let r := (m.gpr dst).setWidth 32 &&& imm
      { m.set dst (r.setWidth 64) with rflags := m.rflags.logic (r.setWidth 8) (r == 0) r.msb }
  | .cli => { m with rflags := RFlags.load (m.rflags.bits &&& ~~~0x200) }
  | .sti => { m with rflags := RFlags.load (m.rflags.bits ||| 0x200) }

def run (m : Machine) (code : List CallInstr) : Machine := code.foldl exec m

theorem run_append (m : Machine) (code code' : List CallInstr) :
    run m (code ++ code') = run (run m code) code' :=
  List.foldl_append

theorem run_plain (m : Machine) (code : List Instr) : run m (code.map plain) = X86.run m code :=
  List.foldl_map

end CallInstr

/-- The registers that configure system calls. -/
structure SyscallMSRs where
  lstar : Word
  star : Word
  fmask : Word

/-- `syscall`; `rip` is the address of the next instruction. -/
def syscall (msrs : SyscallMSRs) (m : Machine) : Machine :=
  let cs : Selector := msrs.star.extractLsb' 32 16
  { (m.set .rcx m.rip).set .r11 m.rflags.bits with
    rip := msrs.lstar
    rflags := RFlags.load (m.rflags.bits &&& ~~~msrs.fmask)
    seg := Function.update (Function.update m.seg .cs (cs &&& ~~~3)) .ss (cs + 8) }

/-- `sysret` to 64-bit code. -/
def sysret (msrs : SyscallMSRs) (m : Machine) : Machine :=
  let cs : Selector := msrs.star.extractLsb' 48 16
  { m with
    rip := m.gpr .rcx
    rflags := RFlags.load (m.gpr .r11)
    seg := Function.update (Function.update m.seg .cs ((cs + 16) ||| 3)) .ss ((cs + 8) ||| 3) }

/-! ## Stacks that are aligned -/

/-- The start of the 16 bytes in which an address is. -/
def alignDown (a : Word) : Word := a &&& 0xfffffffffffffff0

theorem alignDown_and (a : Word) : alignDown a &&& 0xf = 0 := by
  have hmask : (0xfffffffffffffff0 : Word) &&& 0xf = 0 := rfl
  rw [alignDown, BitVec.and_assoc, hmask]
  exact BitVec.and_zero

theorem alignDown_add (a : Word) : alignDown a + (a &&& 0xf) = a := by
  have hdisjoint : alignDown a &&& (a &&& 0xf) = 0 := by
    rw [BitVec.and_comm a, ← BitVec.and_assoc, alignDown_and]
    exact BitVec.zero_and
  rw [BitVec.add_eq_or_of_and_eq_zero _ _ hdisjoint, alignDown, ← BitVec.and_or_distrib_left]
  exact BitVec.and_allOnes

theorem toNat_sub_alignDown (a : Word) : (a - alignDown a).toNat < 16 := by
  have hlow : a - alignDown a = a &&& 0xf := by
    nth_rewrite 1 [← alignDown_add a]
    bv_omega
  rw [hlow, BitVec.toNat_and]
  exact lt_of_le_of_lt Nat.and_le_right (by decide)

theorem toNat_alignDown_mod (a : Word) : (alignDown a).toNat % 16 = 0 := by
  have hbits := congrArg BitVec.toNat (alignDown_and a)
  rw [BitVec.toNat_and] at hbits
  rwa [← Nat.and_two_pow_sub_one_eq_mod _ 4]

end X86
end MinOS
