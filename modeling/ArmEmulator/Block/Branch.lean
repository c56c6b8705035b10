import ArmEmulator.Block.Flags
import ArmEmulator.Guest.Instruction

/-!
# Branches in translated code

A branch ends its block: it leaves to its target or, when its condition fails,
to the next instruction.  Only the branch to the value of the program counter
itself goes through the interpreter.
-/

namespace ArmEmulator.Block

open Host (Code Label)

/-- Leaves a block to the address in a register, with its lowest bit cleared. -/
def exitToReg (r : Reg) : Code :=
  Code.ofInstrs
    (spill ++
      [.load32 .rcx (stateReg r), .aluImm .and .rcx (~~~1), .store32 (stateReg .pc) .rcx] ++
      leave)

/-- The host code of the taken branch; none if it goes through the interpreter. -/
def takenBranch? (addr : Word) (b : Branch) : Option Code :=
  match b.target with
  | .reg .pc => none
  | .reg r => some (exitToReg r)
  | .offset bytes =>
    some (Code.ofInstrs
      ((if b.link then [.movImm .r15 (addr + 4)] else []) ++ exitTo (addr + 8 + bytes)))

/-- The host code of a branch at {lit}`addr`; none if it goes through the
interpreter. -/
def branch? (cond : Cond) (skip : Label) (addr : Word) (b : Branch) : Option Code :=
  (takenBranch? addr b).map fun taken =>
    if cond = .al then taken
    else
      skipUnless cond skip ++ taken ++ .label skip :: Code.ofInstrs (exitTo (addr + 4))

end ArmEmulator.Block
