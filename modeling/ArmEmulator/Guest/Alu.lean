import ArmEmulator.Guest.Cpu
import ArmEmulator.Guest.Shifter

/-!
# Arithmetic and logic

The result of a data-processing operation on two words.  Arithmetic operations
define both carry and overflow; logical ones pass on the carry of the shifter
and define no overflow.
-/

namespace ArmEmulator

/-- The outcome of an operation; {lit}`overflow` is absent for logical ones. -/
structure AluResult where
  value : Word
  carry : Bool
  overflow? : Option Bool
deriving DecidableEq

namespace AluResult

/-- A logical result with the carry of the shifter. -/
def logical (value : Word) (carry : Bool) : AluResult :=
  ⟨value, carry, none⟩

/-- A sum: it carries when it wraps below an operand, and overflows when both
operands have the sign that the sum has not. -/
def sum (a b : Word) : AluResult :=
  let value := a + b
  ⟨value, decide (value < a), some (~~~(a ^^^ b) &&& (a ^^^ value)).msb⟩

/-- A difference: it carries when nothing is borrowed, and overflows when the
operands differ in sign and the difference has not the sign of the first. -/
def difference (a b : Word) : AluResult :=
  let value := a - b
  ⟨value, decide (b ≤ a), some ((a ^^^ b) &&& (a ^^^ value)).msb⟩

end AluResult

/-- The result of an operation on the first register and the second operand;
none for the three operations that read the carry flag. -/
def AluOp.compute? (op : AluOp) (a b : Word) (shifterCarry : Bool) : Option AluResult :=
  match op with
  | .and | .tst => some (.logical (a &&& b) shifterCarry)
  | .eor | .teq => some (.logical (a ^^^ b) shifterCarry)
  | .orr => some (.logical (a ||| b) shifterCarry)
  | .bic => some (.logical (a &&& ~~~b) shifterCarry)
  | .mov => some (.logical b shifterCarry)
  | .mvn => some (.logical (~~~b) shifterCarry)
  | .sub | .cmp => some (.difference a b)
  | .rsb => some (.difference b a)
  | .add | .cmn => some (.sum a b)
  | .adc | .sbc | .rsc => none

/-- The flags after a result. -/
def Cpu.setResultFlags (cpu : Cpu) (result : AluResult) : Cpu :=
  match result.overflow? with
  | some overflow => cpu.setArithmeticFlags result.value result.carry overflow
  | none => cpu.setLogicalFlags result.value result.carry

end ArmEmulator
