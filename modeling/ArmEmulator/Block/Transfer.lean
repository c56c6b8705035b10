import ArmEmulator.Block.Flags
import ArmEmulator.Guest.Instruction

/-!
# Transfers in translated code

Addresses are computed by host code on the spilled state; every access is a
helper call, so that devices and unmapped addresses behave as for interpreted
instructions.  The base register is updated before a load, so that a loaded base
wins.
-/

namespace ArmEmulator.Block

open Host (Instr Code Label)

/-- The second word of a load or store helper: the register number, and whether
the access is of one byte. -/
def accessWord (r : Reg) (byte : Bool) : Word :=
  BitVec.ofNat 32 r.index ||| (if byte then 0x100 else 0)

/-! ## Single transfers -/

/-- Whether a single transfer has host code: it must not touch the program
counter except as a base that stays, must not store the base it updates, and may
only shift its offset to the left. -/
def transferSupported (t : Transfer) : Bool :=
  t.rd != .pc && !(t.writesBack && t.rn == .pc) && !(!t.load && t.writesBack && t.rd == t.rn) &&
    match t.offset with
    | .imm _ => true
    | .reg r => r.reg != .pc && r.shift == .lsl

/-- Puts the base into {lit}`edx` and the base with the offset applied into
{lit}`esi`. -/
def transferAddress (addr : Word) (t : Transfer) : List Instr :=
  let op : Host.Alu := if t.add then .add else .sub
  let base : Instr :=
    if t.rn = .pc then .movImm .rdx (addr + 8) else .load32 .rdx (stateReg t.rn)
  let offset : List Instr := match t.offset with
    | .imm value => [.aluImm op .rsi (value.setWidth 32)]
    | .reg r =>
      .load32 .rcx (stateReg r.reg) ::
        (if r.amount = 0 then [] else [.shlImm .rcx (r.amount.setWidth 8)]) ++
        [.alu op .rsi .rcx]
  base :: .mov .rsi .rdx :: offset

/-- The host code of a single transfer at {lit}`addr` that always executes. -/
def transferBody (helpers : Helpers) (addr : Word) (t : Transfer) : Code :=
  Code.ofInstrs
    (spill ++ transferAddress addr t ++
      (if t.writesBack then [.store32 (stateReg t.rn) .rsi] else []) ++
      (if t.preIndex then [.mov .rdx .rsi] else []) ++
      [.movImm .rcx (accessWord t.rd t.byte)]) ++
    callHelper (if t.load then helpers.load else helpers.store) ++
    Code.ofInstrs reload

/-- The host code of a single transfer; none if it goes through the
interpreter. -/
def transfer? (helpers : Helpers) (cond : Cond) (skip : Label) (addr : Word) (t : Transfer) :
    Option Code :=
  if transferSupported t then some (conditional cond skip (transferBody helpers addr t)) else none

/-! ## Multiple transfers -/

/-- Whether a multiple transfer has host code: it must list a register, must not
touch the program counter, and must not restore the status. -/
def multiTransferSupported (m : MultiTransfer) : Bool :=
  m.list != 0 && !m.psr && m.rn != .pc && !m.list.has .pc

/-- Adds a word to a base register in the spilled state. -/
def updateBase (rn : Reg) (delta : Word) : List Instr :=
  [.load64 .rax (stateSlot 0), .load32 .rcx (stateReg rn), .aluImm .add .rcx delta,
    .store32 (stateReg rn) .rcx]

/-- Transfers the registers of a list, {lit}`k` words and more past the address in
the scratch slot. -/
def transferEach (helper : BitVec 64) (k : Nat) : List Reg → Code
  | [] => []
  | r :: rest =>
    Code.ofInstrs
      (.load32 .rdx (scratchSlot 0) ::
        (if k = 0 then [] else [.aluImm .add .rdx (BitVec.ofNat 32 (4 * k))]) ++
        [.movImm .rcx (accessWord r false)]) ++
      callHelper helper ++ transferEach helper (k + 1) rest

/-- The host code of a multiple transfer that always executes.  Where the first
word lies and where the base ends up differ from the base by constants. -/
def multiTransferBody (helpers : Helpers) (m : MultiTransfer) : Code :=
  let startDelta := m.startAddress 0
  let finalDelta := m.finalBase 0
  Code.ofInstrs
    (spill ++ [.load32 .rdx (stateReg m.rn)] ++
      (if startDelta = 0 then [] else [.aluImm .add .rdx startDelta]) ++
      [.store32 (scratchSlot 0) .rdx] ++
      (if m.writeback && m.load then updateBase m.rn finalDelta else [])) ++
    transferEach (if m.load then helpers.load else helpers.store) 0 m.list.toList ++
    Code.ofInstrs
      ((if m.writeback && !m.load then updateBase m.rn finalDelta else []) ++ reload)

/-- The host code of a multiple transfer; none if it goes through the
interpreter. -/
def multiTransfer? (helpers : Helpers) (cond : Cond) (skip : Label) (m : MultiTransfer) :
    Option Code :=
  if multiTransferSupported m then some (conditional cond skip (multiTransferBody helpers m))
  else none

end ArmEmulator.Block
