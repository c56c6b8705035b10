import ArmEmulator.Host.Instruction
import ArmEmulator.Word

/-!
# Decoding host code

Reads host instructions from bytes, one after the other: an optional extension
byte, the opcode, and what the opcode asks for, which is an operand byte with its
memory operand, or an immediate, or both.  Bytes that begin none of the instructions
blocks are made of do not decode.
-/

namespace ArmEmulator.Host

/-! ## Numbered names -/

/-- The operation with a number in opcodes. -/
def Alu.ofNumber? : BitVec 3 → Option Alu
  | 0 => some .add
  | 1 => some .or
  | 4 => some .and
  | 5 => some .sub
  | 6 => some .xor
  | 7 => some .cmp
  | _ => none

/-- The condition with a number in opcodes. -/
def Cc.ofNumber? : BitVec 4 → Option Cc
  | 0 => some .o
  | 2 => some .b
  | 3 => some .ae
  | 4 => some .e
  | 5 => some .ne
  | 8 => some .s
  | _ => none

/-- The eight-bit register with a number in instructions without extension byte. -/
def ByteReg.ofNumber? : BitVec 3 → Option ByteReg
  | 0 => some .al
  | 1 => some .cl
  | 2 => some .dl
  | 4 => some .ah
  | 6 => some .dh
  | _ => none

/-! ## Parts of an instruction -/

/-- The extension byte: whether there is one, whether it widens the operation, and
the bits it adds to the numbers of the register, the index and the base. -/
structure Extension where
  present : Bool
  wide : Bool
  reg : Bool
  index : Bool
  base : Bool
deriving DecidableEq

/-- Takes the extension byte if there is one. -/
def takeExtension : List Byte → Extension × List Byte
  | [] => (⟨false, false, false, false, false⟩, [])
  | b :: rest =>
    if b.extractLsb' 4 4 = 0b0100 then
      (⟨true, b.getLsbD 3, b.getLsbD 2, b.getLsbD 1, b.getLsbD 0⟩, rest)
    else
      (⟨false, false, false, false, false⟩, b :: rest)

/-- The register with a number of three bits and one that extends it. -/
def extended (high : Bool) (low : BitVec 3) : Reg :=
  Reg.ofCode (BitVec.ofBool high ++ low)

/-- Takes one byte. -/
def take8 : List Byte → Option (BitVec 8 × List Byte)
  | [] => none
  | b :: rest => some (b, rest)

/-- Takes 32 bits, least significant byte first. -/
def take32 : List Byte → Option (BitVec 32 × List Byte)
  | b₀ :: b₁ :: b₂ :: b₃ :: rest => some (b₃ ++ b₂ ++ b₁ ++ b₀, rest)
  | _ => none

/-- Takes 64 bits, least significant byte first. -/
def take64 (bs : List Byte) : Option (BitVec 64 × List Byte) := do
  let (low, rest) ← take32 bs
  let (high, rest) ← take32 rest
  return (high ++ low, rest)

/-- What an operand byte names beside its register field: a register by its three
bits, or memory. -/
inductive Place where
  | reg (low : BitVec 3)
  | mem (m : Mem)
deriving DecidableEq

/-- Takes the base register of a memory operand: the number in the operand byte, or
for the number 4 the one in a scale byte without an index. -/
def takeBase (x : Extension) (low : BitVec 3) (bs : List Byte) : Option (Reg × List Byte) :=
  if low = 4 then
    match bs with
    | [] => none
    | b :: rest =>
      if b.extractLsb' 3 3 = 4 ∧ x.index = false then
        some (extended x.base (b.extractLsb' 0 3), rest)
      else
        none
  else
    some (extended x.base low, bs)

/-- Takes an operand byte and its memory operand with a displacement of 32 bits;
gives the register field and the place. -/
def takeOperand (x : Extension) : List Byte → Option (BitVec 3 × Place × List Byte)
  | [] => none
  | b :: rest =>
    let field := b.extractLsb' 3 3
    let low := b.extractLsb' 0 3
    match b.extractLsb' 6 2 with
    | 3 => some (field, .reg low, rest)
    | 2 => do
      let (base, rest) ← takeBase x low rest
      let (disp, rest) ← take32 rest
      return (field, .mem ⟨base, disp⟩, rest)
    | _ => none

/-! ## Instructions -/

/-- An instruction as its bytes tell it.  A jump goes as far from its end as its
distance says.  The byte in an operation on the stack pointer is a signed number,
extended to the 64 bits of the operation. -/
inductive Decoded where
  | instr (i : Instr)
  | jump (cc : Cc) (distance : BitVec 32)
  | onStackPointer (op : Alu) (operand : BitVec 64)
deriving DecidableEq

namespace Decoded

/-- The instruction of an opcode with a 32-bit operand byte. -/
def withOperand? (x : Extension) (opcode : Byte) (field : BitVec 3) (place : Place)
    (rest : List Byte) : Option (Instr × List Byte) :=
  let reg := extended x.reg field
  match opcode, place with
  | 0x89, .reg rm => some (.mov (extended x.base rm) reg, rest)
  | 0x89, .mem m => some (.store32 m reg, rest)
  | 0x8b, .mem m => some (.load32 reg m, rest)
  | 0x85, .reg rm => some (.test (extended x.base rm) reg, rest)
  | 0x81, .reg rm => do
    let (imm, rest) ← take32 rest
    return (.aluImm (← Alu.ofNumber? field) (extended x.base rm) imm, rest)
  | 0x81, .mem m => do
    let (imm, rest) ← take32 rest
    if field = 4 then some (.and32Imm m imm, rest) else none
  | 0xc7, .mem m => do
    let (imm, rest) ← take32 rest
    if field = 0 then some (.store32Imm m imm, rest) else none
  | 0xc1, .reg rm => do
    let (n, rest) ← take8 rest
    match field with
    | 4 => some (.shlImm (extended x.base rm) n, rest)
    | 5 => some (.shrImm (extended x.base rm) n, rest)
    | _ => none
  | 0xd3, .reg rm => if field = 5 then some (.shrCl (extended x.base rm), rest) else none
  | 0xf7, .reg rm =>
    match field with
    | 0 => do
      let (imm, rest) ← take32 rest
      return (.testImm (extended x.base rm) imm, rest)
    | 2 => some (.not (extended x.base rm), rest)
    | _ => none
  | 0xff, .reg rm => if field = 2 then some (.call (extended x.base rm), rest) else none
  | 0x08, .reg rm => do
    if x.present then none
    else return (.orByte (← ByteReg.ofNumber? rm) (← ByteReg.ofNumber? field), rest)
  | _, _ =>
    if opcode.extractLsb' 6 2 = 0 ∧ opcode.extractLsb' 0 3 = 1 then do
      let op ← Alu.ofNumber? (opcode.extractLsb' 3 3)
      match place with
      | .reg rm => return (.alu op (extended x.base rm) reg, rest)
      | .mem m => if op = .or then some (.or32 m reg, rest) else none
    else
      none

/-- The instruction of an opcode with a 64-bit operand byte. -/
def withWideOperand? (x : Extension) (opcode : Byte) (field : BitVec 3) (place : Place)
    (rest : List Byte) : Option (Decoded × List Byte) :=
  let reg := extended x.reg field
  match opcode, place with
  | 0x89, .mem m => some (.instr (.store64 m reg), rest)
  | 0x8b, .mem m => some (.instr (.load64 reg m), rest)
  | 0x87, .mem m => some (.instr (.xchg64 reg m), rest)
  | 0x83, .reg rm => do
    let (n, rest) ← take8 rest
    if extended x.base rm = .rsp then
      return (.onStackPointer (← Alu.ofNumber? field) (n.signExtend 64), rest)
    else
      none
  | _, _ => none

/-- The instruction of an opcode of two bytes, given the second. -/
def ofSecondOpcode? (x : Extension) (opcode : Byte) (rest : List Byte) :
    Option (Decoded × List Byte) :=
  match opcode.extractLsb' 4 4 with
  | 0x8 => do
    let cc ← Cc.ofNumber? (opcode.extractLsb' 0 4)
    let (distance, rest) ← take32 rest
    return (.jump cc distance, rest)
  | 0x9 => do
    let cc ← Cc.ofNumber? (opcode.extractLsb' 0 4)
    match ← takeOperand x rest with
    | (_, .reg rm, rest) =>
      if x.present then none else return (.instr (.setcc cc (← ByteReg.ofNumber? rm)), rest)
    | _ => none
  | _ =>
    if opcode = 0xb6 then do
      match ← takeOperand x rest with
      | (field, .reg rm, rest) =>
        if x.present then none
        else return (.instr (.movzx (extended false field) (← ByteReg.ofNumber? rm)), rest)
      | _ => none
    else
      none

/-- The instruction of an opcode that an operand byte follows. -/
def ofOperand? (x : Extension) (opcode : Byte) (rest : List Byte) :
    Option (Decoded × List Byte) := do
  let (field, place, rest) ← takeOperand x rest
  if x.wide then
    withWideOperand? x opcode field place rest
  else
    let (i, rest) ← withOperand? x opcode field place rest
    return (.instr i, rest)

/-- The instruction of an opcode. -/
def ofOpcode? (x : Extension) (opcode : Byte) (rest : List Byte) : Option (Decoded × List Byte) :=
  let low := opcode.extractLsb' 0 3
  match opcode.extractLsb' 3 5 with
  | 0b01010 => some (.instr (.push (extended x.base low)), rest)
  | 0b01011 => some (.instr (.pop (extended x.base low)), rest)
  | 0b10110 => do
    let (imm, rest) ← take8 rest
    if x.present then none else return (.instr (.movByteImm (← ByteReg.ofNumber? low) imm), rest)
  | 0b10111 =>
    if x.wide then do
      let (imm, rest) ← take64 rest
      return (.instr (.mov64Imm (extended x.base low) imm), rest)
    else do
      let (imm, rest) ← take32 rest
      return (.instr (.movImm (extended x.base low) imm), rest)
  | _ =>
    match opcode with
    | 0xc3 => some (.instr .ret, rest)
    | 0x0f =>
      match rest with
      | [] => none
      | second :: rest => ofSecondOpcode? x second rest
    | _ => ofOperand? x opcode rest

/-- The first instruction of some bytes, and the bytes after it. -/
def ofBytes? (bs : List Byte) : Option (Decoded × List Byte) :=
  match takeExtension bs with
  | (_, []) => none
  | (x, opcode :: rest) => ofOpcode? x opcode rest

/-- At most {lit}`n` instructions that fill some bytes. -/
def upTo? : Nat → List Byte → Option (List Decoded)
  | _, [] => some []
  | 0, _ :: _ => none
  | n + 1, bs => do
    let (d, rest) ← ofBytes? bs
    return d :: (← upTo? n rest)

/-- The instructions that fill some bytes; none if the bytes do not decode.  Every
instruction has a byte, so there are at most as many as bytes. -/
def allOfBytes? (bs : List Byte) : Option (List Decoded) :=
  upTo? bs.length bs

end Decoded

end ArmEmulator.Host
