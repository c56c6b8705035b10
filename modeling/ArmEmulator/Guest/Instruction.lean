import ArmEmulator.Guest.Condition
import ArmEmulator.Guest.Register

/-!
# Guest instructions

An instruction is a condition and an operation.  Each operation keeps the
fields of its encoding at their own width, so that nothing of the word is lost
but the coprocessor space, which executes as nothing.

Main results:

- Theorem {lit}`RegList.mem_toList`: a register list holds exactly the registers
  whose bit is set.
- Definition {lit}`Operation.writesPc`: the operations that can move execution
  anywhere but to the next word.
-/

namespace ArmEmulator

/-! ## Operands -/

/-- A data-processing operation. -/
inductive AluOp where
  | and | eor | sub | rsb | add | adc | sbc | rsc
  | tst | teq | cmp | cmn | orr | mov | bic | mvn
deriving DecidableEq

namespace AluOp

/-- Every operation in the order of its encoding. -/
def all : Vector AluOp 16 :=
  #v[and, eor, sub, rsb, add, adc, sbc, rsc, tst, teq, cmp, cmn, orr, mov, bic, mvn]

/-- The operation encoded by four bits. -/
def ofBits (b : BitVec 4) : AluOp :=
  all.get b.toFin

/-- The encoding of an operation. -/
def bits : AluOp → BitVec 4
  | and => 0x0 | eor => 0x1 | sub => 0x2 | rsb => 0x3
  | add => 0x4 | adc => 0x5 | sbc => 0x6 | rsc => 0x7
  | tst => 0x8 | teq => 0x9 | cmp => 0xa | cmn => 0xb
  | orr => 0xc | mov => 0xd | bic => 0xe | mvn => 0xf

@[simp]
theorem ofBits_bits (op : AluOp) : ofBits op.bits = op := by
  cases op <;> rfl

/-- Comparisons set the flags and write no register. -/
def isTest : AluOp → Bool
  | tst | teq | cmp | cmn => true
  | _ => false

/-- Moves ignore their first operand. -/
def isMove : AluOp → Bool
  | mov | mvn => true
  | _ => false

/-- The mnemonic of an operation. -/
def mnemonic : AluOp → String
  | and => "and" | eor => "eor" | sub => "sub" | rsb => "rsb"
  | add => "add" | adc => "adc" | sbc => "sbc" | rsc => "rsc"
  | tst => "tst" | teq => "teq" | cmp => "cmp" | cmn => "cmn"
  | orr => "orr" | mov => "mov" | bic => "bic" | mvn => "mvn"

end AluOp

/-- The way a register operand is shifted. -/
inductive Shift where
  | lsl | lsr | asr | ror
deriving DecidableEq

namespace Shift

/-- The shift encoded by two bits. -/
def ofBits (b : BitVec 2) : Shift :=
  #v[lsl, lsr, asr, ror].get b.toFin

/-- The mnemonic of a shift. -/
def mnemonic : Shift → String
  | lsl => "lsl"
  | lsr => "lsr"
  | asr => "asr"
  | ror => "ror"

end Shift

/-- A register shifted by an amount fixed in the instruction. -/
structure ShiftedReg where
  reg : Reg
  shift : Shift
  amount : BitVec 5
deriving DecidableEq

/-- The second operand of a data-processing operation. -/
inductive Operand where
  /-- Eight bits rotated right by twice the rotation. -/
  | imm (imm8 : BitVec 8) (rotate : BitVec 4)
  /-- A register shifted by a fixed amount. -/
  | reg (r : ShiftedReg)
  /-- A register shifted by the bottom byte of another. -/
  | regByReg (reg : Reg) (shift : Shift) (amount : Reg)
deriving DecidableEq

namespace Operand

/-- The word an immediate stands for. -/
def immValue (imm8 : BitVec 8) (rotate : BitVec 4) : Word :=
  (imm8.setWidth 32).rotateRight (2 * rotate.toNat)

/-- The register of an operand that is a register and nothing else. -/
def plainReg? : Operand → Option Reg
  | reg ⟨r, .lsl, 0⟩ => some r
  | _ => none

end Operand

/-- The offset of a single transfer from its base. -/
inductive Offset where
  | imm (value : BitVec 12)
  | reg (r : ShiftedReg)
deriving DecidableEq

/-! ## Register lists -/

/-- A set of registers as sixteen bits, bit {lit}`i` for register {lit}`i`. -/
abbrev RegList := BitVec 16

namespace RegList

/-- Whether a register is listed. -/
def has (list : RegList) (r : Reg) : Bool :=
  list.getLsbD r.index

/-- The listed registers, lowest first. -/
def toList (list : RegList) : List Reg :=
  Reg.all.toList.filter list.has

/-- The number of listed registers. -/
def count (list : RegList) : Nat :=
  list.toList.length

@[simp]
theorem mem_toList {list : RegList} {r : Reg} : r ∈ list.toList ↔ list.has r = true := by
  have : r ∈ Reg.all.toList := by cases r <;> decide
  simp [toList, this]

end RegList

/-! ## Operations -/

/-- An arithmetic, logical or comparing operation. -/
structure DataProcessing where
  op : AluOp
  setFlags : Bool
  rn : Reg
  rd : Reg
  operand : Operand
deriving DecidableEq

/-- A transfer of one word or byte. -/
structure Transfer where
  load : Bool
  byte : Bool
  /-- The offset is applied before the access. -/
  preIndex : Bool
  /-- The offset is added, not subtracted. -/
  add : Bool
  writeback : Bool
  rn : Reg
  rd : Reg
  offset : Offset
deriving DecidableEq

/-- Whether the base register is updated: always when the offset is applied
after the access. -/
def Transfer.writesBack (t : Transfer) : Bool :=
  !t.preIndex || t.writeback

/-- A transfer of a list of registers. -/
structure MultiTransfer where
  load : Bool
  preIndex : Bool
  add : Bool
  writeback : Bool
  /-- A load of the program counter also restores the status register. -/
  psr : Bool
  rn : Reg
  list : RegList
deriving DecidableEq

namespace MultiTransfer

/-- The number of bytes transferred. -/
def byteCount (m : MultiTransfer) : Word :=
  BitVec.ofNat 32 (4 * m.list.count)

/-- The address of the lowest listed register for a given base. -/
def startAddress (m : MultiTransfer) (base : Word) : Word :=
  match m.preIndex, m.add with
  | false, true => base
  | true, true => base + 4
  | false, false => base - m.byteCount + 4
  | true, false => base - m.byteCount

/-- The base after write-back. -/
def finalBase (m : MultiTransfer) (base : Word) : Word :=
  if m.add then base + m.byteCount else base - m.byteCount

end MultiTransfer

/-- Where a branch goes. -/
inductive BranchTarget where
  /-- A byte offset from two words past the instruction. -/
  | offset (bytes : Word)
  /-- The address held in a register. -/
  | reg (r : Reg)
deriving DecidableEq

/-- A branch, with or without a return address in the link register. -/
structure Branch where
  link : Bool
  target : BranchTarget
deriving DecidableEq

/-- The target of a branch at {lit}`addr`, when the instruction alone fixes it. -/
def Branch.targetAddress? (b : Branch) (addr : Word) : Option Word :=
  match b.target with
  | .offset bytes => some (addr + 8 + bytes)
  | .reg _ => none

/-- A move between a status register and the registers; {lit}`spsr` selects the
saved status. -/
inductive StatusTransfer where
  | read (rd : Reg) (spsr : Bool)
  | write (spsr : Bool) (fields : BitVec 4) (operand : Operand)
deriving DecidableEq

/-- The bytes of a status register that four field bits select, as a mask. -/
def StatusTransfer.fieldMask (fields : BitVec 4) : Word :=
  (List.range 4).foldl
    (fun mask i => if fields.getLsbD i then mask ||| (0xff#32 <<< (8 * i)) else mask) 0

/-- What an instruction does when its condition holds. -/
inductive Operation where
  | dataProcessing (d : DataProcessing)
  | transfer (t : Transfer)
  | multiTransfer (m : MultiTransfer)
  | branch (b : Branch)
  | statusTransfer (s : StatusTransfer)
  /-- Coprocessor transfers and operations execute as nothing. -/
  | coprocessor
  /-- A word outside the supported instructions. -/
  | unknown (word : Word)
deriving DecidableEq

/-- An instruction: its condition and what it does. -/
structure Instruction where
  cond : Cond
  op : Operation
deriving DecidableEq

namespace Operation

/-- Whether executing the operation can move execution anywhere but to the next
word. -/
def writesPc : Operation → Bool
  | dataProcessing d => !d.op.isTest && d.rd == .pc
  | transfer t => (t.load && t.rd == .pc) || (t.writesBack && t.rn == .pc)
  | multiTransfer m => (m.load && m.list.has .pc) || (m.writeback && m.rn == .pc)
  | branch _ => true
  | statusTransfer (.read rd _) => rd == .pc
  | statusTransfer (.write _ _ _) | coprocessor | unknown _ => false

end Operation

/-- Whether executing the instruction can move execution anywhere but to the
next word. -/
def Instruction.writesPc (i : Instruction) : Bool :=
  i.op.writesPc

end ArmEmulator
