import ArmEmulator.Guest.Instruction

/-!
# Decoding

The instruction a word encodes.  Bits 27 to 25 select the class; inside the
data-processing classes, comparisons that set no flag encode the status
transfers, one pattern is the register branch, and words with bits 7 and 4 set
belong to instructions that are not supported.

Main results:

- Theorem {lit}`Instruction.cond_decode`: the condition is the one named by the
  top four bits of the word.
-/

namespace ArmEmulator

/-! ## Fields -/

/-- The register named by the four bits from {lit}`lsb` upwards. -/
def Word.regAt (w : Word) (lsb : Nat) : Reg :=
  Reg.ofBits (w.extractLsb' lsb 4)

/-- The shifted register in the low twelve bits. -/
def Word.shiftedReg (w : Word) : ShiftedReg where
  reg := w.regAt 0
  shift := Shift.ofBits (w.extractLsb' 5 2)
  amount := w.extractLsb' 7 5

/-! ## Classes -/

namespace Operation

/-- A single transfer with the given offset. -/
def ofTransferWord (w : Word) (offset : Offset) : Operation :=
  .transfer
    { load := w.getLsbD 20
      byte := w.getLsbD 22
      preIndex := w.getLsbD 24
      add := w.getLsbD 23
      writeback := w.getLsbD 21
      rn := w.regAt 16
      rd := w.regAt 12
      offset }

/-- The status transfer of a comparison that sets no flag. -/
def ofStatusWord (w : Word) (operand : Operand) : Operation :=
  let spsr := w.getLsbD 22
  if w &&& 0x0fbf0fff = 0x010f0000 then
    .statusTransfer (.read (w.regAt 12) spsr)
  else if w &&& 0x0fb0f000 = 0x0320f000 ∨ w &&& 0x0fb0fff0 = 0x0120f000 then
    .statusTransfer (.write spsr (w.extractLsb' 16 4) operand)
  else
    .unknown w

/-- A data-processing operation with the given second operand. -/
def ofDataWord (w : Word) (operand : Operand) : Operation :=
  let op := AluOp.ofBits (w.extractLsb' 21 4)
  let setFlags := w.getLsbD 20
  if op.isTest && !setFlags then
    ofStatusWord w operand
  else
    .dataProcessing { op, setFlags, rn := w.regAt 16, rd := w.regAt 12, operand }

/-- The class of register operands, register branches and multiplications. -/
def ofRegisterWord (w : Word) : Operation :=
  if w &&& 0x0ffffff0 = 0x012fff10 then
    .branch { link := false, target := .reg (w.regAt 0) }
  else if w.getLsbD 7 && w.getLsbD 4 then
    .unknown w
  else if w.getLsbD 4 then
    ofDataWord w (.regByReg (w.regAt 0) (Shift.ofBits (w.extractLsb' 5 2)) (w.regAt 8))
  else
    ofDataWord w (.reg w.shiftedReg)

/-- The operation a word encodes. -/
def decode (w : Word) : Operation :=
  match w.extractLsb' 25 3 with
  | 0b000#3 => ofRegisterWord w
  | 0b001#3 => ofDataWord w (.imm (w.extractLsb' 0 8) (w.extractLsb' 8 4))
  | 0b010#3 => ofTransferWord w (.imm (w.extractLsb' 0 12))
  | 0b011#3 => if w.getLsbD 4 then .unknown w else ofTransferWord w (.reg w.shiftedReg)
  | 0b100#3 =>
    .multiTransfer
      { load := w.getLsbD 20
        preIndex := w.getLsbD 24
        add := w.getLsbD 23
        writeback := w.getLsbD 21
        psr := w.getLsbD 22
        rn := w.regAt 16
        list := w.extractLsb' 0 16 }
  | 0b101#3 =>
    .branch
      { link := w.getLsbD 24
        target := .offset ((w.extractLsb' 0 24 ++ 0#2).signExtend 32) }
  | 0b110#3 => .coprocessor
  | _ => if w.getLsbD 24 then .unknown w else .coprocessor

end Operation

/-- The instruction a word encodes. -/
def Instruction.decode (w : Word) : Instruction where
  cond := Cond.ofBits (w.extractLsb' 28 4)
  op := Operation.decode w

theorem Instruction.cond_decode (w : Word) :
    (decode w).cond = Cond.ofBits (w.extractLsb' 28 4) := rfl

end ArmEmulator
