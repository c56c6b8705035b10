import ArmEmulator.Bus
import ArmEmulator.Guest.Alu
import ArmEmulator.Guest.Decoding

/-!
# Executing guest instructions

One instruction at a given address changes the processor and the bus.  The
processor state is only given back when every access of the instruction
succeeded, so a faulting instruction leaves it untouched; what the accesses
before the fault did to the bus stays done.

An instruction that reads the program counter sees the address of the second
next word.
-/

namespace ArmEmulator

/-- What became of one instruction. -/
inductive Outcome where
  | executed
  /-- The condition failed. -/
  | skipped
  /-- The instruction is not supported; execution goes on behind it. -/
  | unhandled (addr word : Word)
  /-- A branch without link to its own address. -/
  | selfLoop (addr : Word)
deriving DecidableEq

/-! ## Registers as an instruction sees them -/

namespace Cpu

/-- A register as read by the instruction at {lit}`addr`. -/
def readAt (cpu : Cpu) (addr : Word) (r : Reg) : Word :=
  if r = .pc then addr + 8 else cpu.reg r

/-- Goes on behind the instruction at {lit}`addr`. -/
def advance (cpu : Cpu) (addr : Word) : Cpu :=
  cpu.setPc (addr + 4)

/-- Goes on at the word that holds {lit}`target`. -/
def jump (cpu : Cpu) (target : Word) : Cpu :=
  cpu.setPc (target &&& ~~~3)

/-- Restores the saved status. -/
def restoreStatus (cpu : Cpu) : Cpu :=
  { cpu with cpsr := cpu.spsr }

end Cpu

/-! ## Data processing -/

/-- The value and shifter carry of a second operand; none for shifts by a
register, which are not supported. -/
def Operand.eval? (operand : Operand) (addr : Word) (cpu : Cpu) : Option (Word × Bool) :=
  let carry := cpu.flag .c
  match operand with
  | .imm imm8 rotate =>
    let value := immValue imm8 rotate
    some (value, if rotate = 0 then carry else value.msb)
  | .reg r => some (r.apply (cpu.readAt addr r.reg) carry)
  | .regByReg _ _ _ => none

/-- The state after a data-processing operation; none if it is not supported.  A
result for the program counter is a jump, and with the S bit also restores the
saved status. -/
def DataProcessing.execute? (d : DataProcessing) (addr : Word) (cpu : Cpu) : Option Cpu := do
  let (b, shifterCarry) ← d.operand.eval? addr cpu
  let result ← d.op.compute? (cpu.readAt addr d.rn) b shifterCarry
  if d.op.isTest then
    some ((cpu.setResultFlags result).advance addr)
  else if d.rd = .pc then
    some ((if d.setFlags then cpu.restoreStatus else cpu).jump result.value)
  else
    let written := cpu.setReg d.rd result.value
    some ((if d.setFlags then written.setResultFlags result else written).advance addr)

/-! ## Single transfers -/

namespace Transfer

/-- The offset of a transfer as a word. -/
def offsetValue (t : Transfer) (addr : Word) (cpu : Cpu) : Word :=
  match t.offset with
  | .imm value => value.setWidth 32
  | .reg r => (r.apply (cpu.readAt addr r.reg) (cpu.flag .c)).1

/-- The base with the offset applied. -/
def offsetAddress (t : Transfer) (addr : Word) (cpu : Cpu) : Word :=
  let base := cpu.readAt addr t.rn
  if t.add then base + t.offsetValue addr cpu else base - t.offsetValue addr cpu

/-- The address accessed. -/
def accessAddress (t : Transfer) (addr : Word) (cpu : Cpu) : Word :=
  if t.preIndex then t.offsetAddress addr cpu else cpu.readAt addr t.rn

/-- Updates the base register, if the transfer does. -/
def writeBack (t : Transfer) (addr : Word) (cpu : Cpu) : Cpu :=
  if t.writesBack then cpu.setReg t.rn (t.offsetAddress addr cpu) else cpu

/-- Goes on behind the transfer, unless it wrote its base back to the program
counter. -/
def proceed (t : Transfer) (addr : Word) (cpu : Cpu) : Cpu :=
  if t.writesBack && t.rn == .pc then cpu else cpu.advance addr

/-- The state after a load of {lit}`value`.  The base is updated first, so that a
load into the base register wins. -/
def afterLoad (t : Transfer) (addr : Word) (cpu : Cpu) (value : Word) : Cpu :=
  let written := t.writeBack addr cpu
  if t.rd = .pc then written.jump value else t.proceed addr (written.setReg t.rd value)

/-- The state after a store. -/
def afterStore (t : Transfer) (addr : Word) (cpu : Cpu) : Cpu :=
  t.proceed addr (t.writeBack addr cpu)

variable {ω : Type}

/-- The state after a transfer. -/
def execute (t : Transfer) (addr : Word) (cpu : Cpu) : Access (Bus ω) Cpu :=
  let target := t.accessAddress addr cpu
  if t.load then do
    let value ← if t.byte then (·.setWidth 32) <$> Bus.read8 target else Bus.read32 target
    return t.afterLoad addr cpu value
  else do
    let value := cpu.readAt addr t.rd
    if t.byte then Bus.write8 target (value.setWidth 8) else Bus.write32 target value
    return t.afterStore addr cpu

end Transfer

/-! ## Multiple transfers -/

section Lists

variable {ω : Type}

/-- Reads one word per register from consecutive addresses. -/
def readList (addr : Word) : List Reg → Access (Bus ω) (List (Reg × Word))
  | [] => pure []
  | r :: rest => do
    let value ← Bus.read32 addr
    return (r, value) :: (← readList (addr + 4) rest)

/-- Writes the value of each register to consecutive addresses. -/
def writeList (value : Reg → Word) (addr : Word) : List Reg → Access (Bus ω) Unit
  | [] => pure ()
  | r :: rest => do
    Bus.write32 addr (value r)
    writeList value (addr + 4) rest

end Lists

namespace MultiTransfer

/-- Updates the base register, if the transfer does. -/
def writeBack (m : MultiTransfer) (addr : Word) (cpu : Cpu) : Cpu :=
  if m.writeback then cpu.setReg m.rn (m.finalBase (cpu.readAt addr m.rn)) else cpu

/-- Goes on behind the transfer, unless it wrote its base back to the program
counter. -/
def proceed (m : MultiTransfer) (addr : Word) (cpu : Cpu) : Cpu :=
  if m.writeback && m.rn == .pc then cpu else cpu.advance addr

/-- The state after loading the given values.  The base is updated first, so that
a load into the base register wins; a loaded program counter is a jump, and with
the S bit also restores the saved status. -/
def afterLoad (m : MultiTransfer) (addr : Word) (cpu : Cpu) (values : List (Reg × Word)) : Cpu :=
  let loaded := values.foldl
    (fun cpu (r, value) => if r = .pc then cpu else cpu.setReg r value) (m.writeBack addr cpu)
  match values.lookup .pc with
  | some target => (if m.psr then loaded.restoreStatus else loaded).jump target
  | none => m.proceed addr loaded

variable {ω : Type}

/-- The state after a multiple transfer. -/
def execute (m : MultiTransfer) (addr : Word) (cpu : Cpu) : Access (Bus ω) Cpu :=
  let start := m.startAddress (cpu.readAt addr m.rn)
  if m.load then do
    let values ← readList start m.list.toList
    return m.afterLoad addr cpu values
  else do
    writeList (cpu.readAt addr) start m.list.toList
    return m.proceed addr (m.writeBack addr cpu)

end MultiTransfer

/-! ## Branches and status transfers -/

namespace Branch

/-- The address a branch goes to.  A register branch drops the lowest bit. -/
def destination (b : Branch) (addr : Word) (cpu : Cpu) : Word :=
  match b.target with
  | .offset bytes => addr + 8 + bytes
  | .reg r => cpu.readAt addr r &&& ~~~1

/-- The state after a branch, and whether it was a branch to itself. -/
def execute (b : Branch) (addr : Word) (cpu : Cpu) : Outcome × Cpu :=
  let target := b.destination addr cpu
  let linked := if b.link then cpu.setReg .lr (addr + 4) else cpu
  (if target = addr ∧ !b.link then .selfLoop addr else .executed, linked.setPc target)

end Branch

/-- The state after a status transfer; none if its operand is not supported. -/
def StatusTransfer.execute? (s : StatusTransfer) (addr : Word) (cpu : Cpu) : Option Cpu :=
  match s with
  | .read rd spsr =>
    let value := if spsr then cpu.spsr else cpu.cpsr
    some (if rd = .pc then cpu.jump value else (cpu.setReg rd value).advance addr)
  | .write spsr fields operand => do
    let (value, _) ← operand.eval? addr cpu
    let mask := fieldMask fields
    let merge (psr : Word) : Word := (psr &&& ~~~mask) ||| (value &&& mask)
    let written :=
      if spsr then { cpu with spsr := merge cpu.spsr } else { cpu with cpsr := merge cpu.cpsr }
    some (written.advance addr)

/-! ## Instructions -/

namespace Instruction

variable {ω : Type}

/-- The outcome of an operation that may not be supported. -/
def orUnhandled (addr word : Word) (cpu : Cpu) (after? : Option Cpu) : Outcome × Cpu :=
  match after? with
  | some after => (.executed, after)
  | none => (.unhandled addr word, cpu.advance addr)

/-- Executes a fetched instruction as if it were at {lit}`addr`; {lit}`word` is
its encoding, for the report of an unsupported instruction. -/
def execute (i : Instruction) (addr word : Word) (cpu : Cpu) :
    Access (Bus ω) (Outcome × Cpu) :=
  if i.cond.passes cpu.cpsr then
    match i.op with
    | .dataProcessing d => pure (orUnhandled addr word cpu (d.execute? addr cpu))
    | .transfer t => do return (.executed, ← t.execute addr cpu)
    | .multiTransfer m => do return (.executed, ← m.execute addr cpu)
    | .branch b => pure (b.execute addr cpu)
    | .statusTransfer s => pure (orUnhandled addr word cpu (s.execute? addr cpu))
    | .coprocessor => pure (.executed, cpu.advance addr)
    | .unknown _ => pure (orUnhandled addr word cpu none)
  else
    pure (.skipped, cpu.advance addr)

end Instruction

/-- Fetches, decodes and executes the instruction at the program counter. -/
def Cpu.step {ω : Type} (cpu : Cpu) : Access (Bus ω) (Outcome × Cpu) := do
  let word ← Bus.read32 cpu.pc
  (Instruction.decode word).execute cpu.pc word cpu

end ArmEmulator
