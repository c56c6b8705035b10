import ArmEmulator.Guest.Instruction
import ArmEmulator.Text.Hex

/-!
# Assembling guest programs

Words for the instruction forms that small guest programs are built from.  Every
function gives an instruction that always executes; {lit}`withCond` replaces the
condition.  Register numbers and conditions are words that are shifted into
place as they are.
-/

namespace ArmEmulator.Assembly

/-- A request the encoding has no room for. -/
inductive Error where
  | notImmediate (value : Word)
deriving DecidableEq

/-- The text of an assembly error. -/
def Error.message : Error → String
  | notImmediate value => Hex.short value.toNat ++ " is not an immediate"

/-! ## Condition and S bit -/

/-- Replaces the condition field. -/
def withCond (cond word : Word) : Word :=
  (word &&& 0x0fffffff) ||| (cond <<< 28)

/-- Sets the S bit. -/
def withS (word : Word) : Word :=
  word ||| (1 <<< 20)

/-- The condition field of an instruction that always executes. -/
def always : Word :=
  0xe <<< 28

/-! ## Data processing -/

/-- The twelve bits of a rotated immediate, with the smallest rotation that can
represent the value. -/
def encodeImm? (value : Word) : Option Word :=
  (List.range 16).findSome? fun rotate =>
    let imm8 := value.rotateLeft (2 * rotate)
    if imm8 ≤ 0xff then some (BitVec.ofNat 32 (rotate <<< 8) ||| imm8) else none

/-- The operations that can be assembled: all but those that read the carry. -/
def ops : List AluOp :=
  [.and, .eor, .sub, .rsb, .add, .tst, .teq, .cmp, .cmn, .orr, .mov, .bic, .mvn]

/-- A data-processing word; comparisons always set the flags. -/
def dataWord (op : AluOp) (rd rn operand : Word) : Word :=
  always ||| (op.bits.setWidth 32 <<< 21) ||| (if op.isTest then 1 <<< 20 else 0) |||
    (rn <<< 16) ||| (rd <<< 12) ||| operand

/-- An operation with an immediate operand. -/
def dpImm (op : AluOp) (rd rn imm : Word) : Except Error Word :=
  match encodeImm? imm with
  | some operand => .ok (dataWord op rd rn ((1 <<< 25) ||| operand))
  | none => .error (.notImmediate imm)

/-- An operation with a register operand, shifted by a fixed amount. -/
def dpReg (op : AluOp) (rd rn rm shift amount : Word) : Word :=
  dataWord op rd rn (((amount &&& 0x1f) <<< 7) ||| ((shift &&& 3) <<< 5) ||| rm)

/-- Moves an immediate into a register. -/
def movImm (rd imm : Word) : Except Error Word :=
  dpImm .mov rd 0 imm

/-- Moves a register into another. -/
def mov (rd rm : Word) : Word :=
  dpReg .mov rd 0 rm 0 0

/-- Adds two registers. -/
def add (rd rn rm : Word) : Word :=
  dpReg .add rd rn rm 0 0

/-- Subtracts an immediate from a register. -/
def subImm (rd rn imm : Word) : Except Error Word :=
  dpImm .sub rd rn imm

/-- Adds an immediate to a register. -/
def addImm (rd rn imm : Word) : Except Error Word :=
  dpImm .add rd rn imm

/-- Compares a register with an immediate. -/
def cmpImm (rn imm : Word) : Except Error Word :=
  dpImm .cmp 0 rn imm

/-! ## Transfers -/

/-- A bit at a given position. -/
def bitAt (b : Bool) (position : Nat) : Word :=
  (BitVec.ofBool b).setWidth 32 <<< position

/-- A single transfer with an immediate offset.  The sign of the offset selects
addition or subtraction; its low twelve bits are encoded. -/
def transfer (load byte : Bool) (rd rn : Word) (offset : Int) (preIndex writeback : Bool) : Word :=
  always ||| (1 <<< 26) ||| bitAt preIndex 24 ||| bitAt (0 ≤ offset) 23 ||| bitAt byte 22 |||
    bitAt writeback 21 ||| bitAt load 20 ||| (rn <<< 16) ||| (rd <<< 12) |||
    (BitVec.ofNat 32 offset.natAbs &&& 0xfff)

/-- Loads a word at an offset from a base. -/
def ldr (rd rn : Word) (offset : Int) : Word :=
  transfer true false rd rn offset true false

/-- Stores a word at an offset from a base. -/
def str (rd rn : Word) (offset : Int) : Word :=
  transfer false false rd rn offset true false

/-- Loads the byte at a base, then moves the base by an offset. -/
def ldrbPost (rd rn : Word) (offset : Int) : Word :=
  transfer true true rd rn offset false false

/-- Stores a byte at a base, then moves the base by an offset. -/
def strbPost (rd rn : Word) (offset : Int) : Word :=
  transfer false true rd rn offset false false

/-- A multiple transfer of the listed registers.  A number of 32 or more, which is no
register and at which the program ends, is taken modulo 32. -/
def multiple (load preIndex add writeback : Bool) (rn : Word) (regs : List Word) : Word :=
  let list := regs.foldl (fun list r => list ||| ((1 : Word) <<< (r.toNat % 32))) 0
  always ||| (0b100 <<< 25) ||| bitAt preIndex 24 ||| bitAt add 23 ||| bitAt writeback 21 |||
    bitAt load 20 ||| (rn <<< 16) ||| list

/-- Loads registers from a base upwards and moves the base past them. -/
def ldmia (rn : Word) (regs : List Word) : Word :=
  multiple true false true true rn regs

/-- Stores registers from a base upwards and moves the base past them. -/
def stmia (rn : Word) (regs : List Word) : Word :=
  multiple false false true true rn regs

/-- Pushes registers on the stack. -/
def push (regs : List Word) : Word :=
  multiple false true false true 13 regs

/-- Pops registers from the stack. -/
def pop (regs : List Word) : Word :=
  multiple true false true true 13 regs

/-! ## Branches -/

/-- A branch from one address to another; the low two bits of the distance are
dropped. -/
def branch (link : Bool) (source target : Word) : Word :=
  let offset := (target - (source + 8)).sshiftRight 2
  always ||| (0b101 <<< 25) ||| bitAt link 24 ||| (offset &&& 0x00ffffff)

/-- Branches. -/
def b (source target : Word) : Word :=
  branch false source target

/-- Branches and keeps the return address in the link register. -/
def bl (source target : Word) : Word :=
  branch true source target

/-- A branch to the address held in a register. -/
def bx (rm : Word) : Word :=
  always ||| 0x012fff10 ||| rm

/-- An unconditional branch to itself. -/
def halt : Word :=
  0xeafffffe

/-- The bytes of a program. -/
def image (words : List Word) : List Byte :=
  words.flatMap Word.bytes

end ArmEmulator.Assembly
