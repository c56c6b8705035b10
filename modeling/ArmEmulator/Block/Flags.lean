import ArmEmulator.Block.Frame
import ArmEmulator.Guest.Condition

/-!
# Conditions and flags in translated code

A conditional instruction jumps over its code when its condition fails on the
status in the processor state.  A flag-setting instruction copies the host flags
of its last operation into that status.
-/

namespace ArmEmulator.Block

open Host (Instr Code Label)

/-! ## Conditions -/

/-- Leaves the host zero flag set when the condition fails.  Every guest register
is kept. -/
def testCondition (cond : Cond) : List Instr :=
  [.push .rax, .push .rcx, .load64 .rax (stateSlot 2), .load32 .rcx stateStatus,
    .shrImm .rcx 28, .movImm .rax (cond.passMask.setWidth 32), .shrCl .rax, .aluImm .and .rax 1,
    .pop .rcx, .pop .rax]

/-- Jumps to a label when the condition fails. -/
def skipUnless (cond : Cond) (skip : Label) : Code :=
  Code.ofInstrs (testCondition cond) ++ [.jump .e skip]

/-- Executes code only if the condition passes. -/
def conditional (cond : Cond) (skip : Label) (body : Code) : Code :=
  if cond = .al then body else skipUnless cond skip ++ body ++ [.label skip]

/-! ## Flags -/

/-- Where the carry flag comes from after a flag-setting operation. -/
inductive CarrySource where
  /-- A condition on the host flags. -/
  | host (cc : Host.Cc)
  /-- Known from the instruction. -/
  | const (carry : Bool)
  /-- The carry flag stays as it is. -/
  | keep
deriving DecidableEq

/-- Copies the host flags of the last operation into the status: N from the sign,
Z from zero, C as told, and V from the overflow or clear. -/
def captureFlags (carry : CarrySource) (overflow : Bool) : List Instr :=
  let carryInstr : Instr := match carry with
    | .host cc => .setcc cc .dl
    | .const c => .movByteImm .dl ((BitVec.ofBool c).setWidth 8)
    | .keep => .movByteImm .dl 0
  let overflowInstr : Instr := if overflow then .setcc .o .dh else .movByteImm .dh 0
  let kept : BitVec 32 := if carry = .keep then 0x2fffffff else 0x0fffffff
  [.push .rax, .push .rcx, .push .rdx,
    .setcc .s .al, .setcc .e .ah, carryInstr, overflowInstr,
    .movzx .rcx .al,
    .shlImm .rcx 1, .orByte .cl .ah,
    .shlImm .rcx 1, .orByte .cl .dl,
    .shlImm .rcx 1, .orByte .cl .dh,
    .shlImm .rcx 28,
    .load64 .rax (stateSlot 3), .and32Imm stateStatus kept, .or32 stateStatus .rcx,
    .pop .rdx, .pop .rcx, .pop .rax]

end ArmEmulator.Block
