import ArmEmulator.Block.Flags
import ArmEmulator.Guest.Instruction

/-!
# Data processing in translated code

Operations without carry-in, whose second operand is an immediate or a plain
register and whose result is no program counter, become host operations on the
homes of their registers.  All others go through the interpreter.
-/

namespace ArmEmulator.Block

open Host (Instr Code Label)

/-! ## Operands -/

/-- An input of an operation: a host register, or a word known from the
instruction. -/
inductive Source where
  | reg (r : Host.Reg)
  | imm (value : Word)
deriving DecidableEq

namespace Source

/-- A guest register as an input of the instruction at {lit}`addr`. -/
def ofReg (addr : Word) (r : Reg) : Source :=
  match home? r with
  | some h => .reg h
  | none => .imm (addr + 8)

/-- Copies an input into a register. -/
def moveTo (dst : Host.Reg) : Source → List Instr
  | reg r => if r = dst then [] else [.mov dst r]
  | imm value => [.movImm dst value]

/-- Combines an input into a register. -/
def applyTo (op : Host.Alu) (dst : Host.Reg) : Source → List Instr
  | reg r => [.alu op dst r]
  | imm value => [.aluImm op dst value]

end Source

/-- A register that is none of the inputs. -/
def scratchFor (a b : Source) : Host.Reg :=
  ([.rax, .rcx, .rdx].find? fun r => a ≠ .reg r ∧ b ≠ .reg r).getD .rbx

/-! ## Operations -/

/-- Puts the result of an operation whose inputs may be swapped into a
register. -/
def commutative (op : Host.Alu) (dst : Host.Reg) (a b : Source) : List Instr :=
  if b = .reg dst then a.applyTo op dst else a.moveTo dst ++ b.applyTo op dst

/-- Puts a difference into a register. -/
def subtract (dst : Host.Reg) (a b : Source) : List Instr :=
  if b = .reg dst ∧ a ≠ .reg dst then
    let s := scratchFor a b
    .push s :: a.moveTo s ++ b.applyTo .sub s ++ [.mov dst s, .pop s]
  else
    a.moveTo dst ++ b.applyTo .sub dst

/-- Sets the host flags by an operation in a saved register. -/
def scratchOperation (op : Host.Alu) (a b : Source) : List Instr :=
  let s := scratchFor a b
  .push s :: a.moveTo s ++ b.applyTo op s ++ [.pop s]

/-- Sets the host flags by a comparison. -/
def compare (a b : Source) : List Instr :=
  match a with
  | .reg r => b.applyTo .cmp r
  | .imm _ => scratchOperation .cmp a b

/-- Sets the host flags by the bits two inputs share. -/
def testBits (a b : Source) : List Instr :=
  match a, b with
  | .reg x, .reg y => [.test x y]
  | .reg x, .imm value => [.testImm x value]
  | .imm value, .reg x => [.testImm x value]
  | .imm _, .imm value => [.push .rax] ++ a.moveTo .rax ++ [.testImm .rax value, .pop .rax]

/-- The host code of an operation on two inputs; {lit}`dst` is the home of its
result.  None for operations that have no host code. -/
def operation? (op : AluOp) (setFlags : Bool) (dst? : Option Host.Reg) (a b : Source)
    (carry : CarrySource) : Option (List Instr) :=
  let flags (source : CarrySource) (overflow : Bool) : List Instr :=
    if setFlags then captureFlags source overflow else []
  match op, dst? with
  | .mov, some dst =>
    some (b.moveTo dst ++ if setFlags then .test dst dst :: captureFlags carry false else [])
  | .mvn, some dst =>
    some (b.moveTo dst ++ .not dst ::
      if setFlags then .test dst dst :: captureFlags carry false else [])
  | .and, some dst => some (commutative .and dst a b ++ flags carry false)
  | .eor, some dst => some (commutative .xor dst a b ++ flags carry false)
  | .orr, some dst => some (commutative .or dst a b ++ flags carry false)
  | .add, some dst => some (commutative .add dst a b ++ flags (.host .b) true)
  | .sub, some dst => some (subtract dst a b ++ flags (.host .ae) true)
  | .cmp, _ => some (compare a b ++ captureFlags (.host .ae) true)
  | .cmn, _ => some (scratchOperation .add a b ++ captureFlags (.host .b) true)
  | .teq, _ => some (scratchOperation .xor a b ++ captureFlags carry false)
  | .tst, _ => some (testBits a b ++ captureFlags carry false)
  | _, _ => none

/-- A second operand as an input, with the carry it shifts out; none for shifted
registers. -/
def operandSource? (addr : Word) (operand : Operand) : Option (Source × CarrySource) :=
  match operand with
  | .imm imm8 rotate =>
    let value := Operand.immValue imm8 rotate
    some (.imm value, if rotate = 0 then .keep else .const value.msb)
  | _ => operand.plainReg?.map fun r => (.ofReg addr r, .keep)

/-- The host code of a data-processing instruction at {lit}`addr`; none if it goes
through the interpreter. -/
def dataProcessing? (cond : Cond) (skip : Label) (addr : Word) (d : DataProcessing) :
    Option Code := do
  let (b, carry) ← operandSource? addr d.operand
  let dst? := if d.op.isTest then none else home? d.rd
  let body ← operation? d.op d.setFlags dst? (.ofReg addr d.rn) b carry
  return conditional cond skip (Code.ofInstrs body)

end ArmEmulator.Block
