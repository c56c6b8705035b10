import ArmEmulator.Host.Instruction
import ArmEmulator.Word

/-!
# Encoding host code

The bytes of host instructions: an optional extension byte, the opcode, the
operand byte with the scale byte that two base registers need, the displacement
and the immediate.  A jump holds the distance from its end to the place of its
label, so encoding fails exactly when a label has no place.
-/

namespace ArmEmulator.Host

/-! ## Parts of an instruction -/

/-- Four bytes, least significant first. -/
def imm32 (imm : BitVec 32) : List Byte :=
  littleEndian 4 imm.toNat

/-- The extension byte, left out when it extends nothing.  It widens the
operation and holds the fourth bit of two register codes. -/
def rex (wide : Bool) (reg rm : BitVec 4) : List Byte :=
  let byte : Byte :=
    0b0100#4 ++ BitVec.ofBool wide ++ BitVec.ofBool reg.msb ++ 0b0#1 ++ BitVec.ofBool rm.msb
  if byte = 0x40 then [] else [byte]

/-- The operand byte of two registers. -/
def regOperand (reg rm : BitVec 3) : Byte :=
  0b11#2 ++ reg ++ rm

/-- The operand byte of a register and memory, with the scale byte that the base
registers of code 4 need, and the displacement. -/
def memOperand (reg : BitVec 3) (m : Mem) : List Byte :=
  (0b10#2 ++ reg ++ m.base.low : Byte) ::
    ((if m.base.low = 4 then [0x24] else []) ++ imm32 m.disp)

namespace Alu

/-- The opcode of the form with two registers. -/
def opcode : Alu → Byte
  | add => 0x01
  | or => 0x09
  | and => 0x21
  | sub => 0x29
  | xor => 0x31
  | cmp => 0x39

/-- The register field of the form with an immediate. -/
def extension : Alu → BitVec 3
  | add => 0
  | or => 1
  | and => 4
  | sub => 5
  | xor => 6
  | cmp => 7

end Alu

/-! ## Instructions -/

namespace Instr

/-- An instruction on two registers. -/
def encodeRegs (opcode : Byte) (reg rm : Reg) : List Byte :=
  rex false reg.code rm.code ++ [opcode, regOperand reg.low rm.low]

/-- An instruction on one register, told apart by an extension of its opcode. -/
def encodeReg (opcode : Byte) (extension : BitVec 3) (rm : Reg) : List Byte :=
  rex false 0 rm.code ++ [opcode, regOperand extension rm.low]

/-- An instruction on a register and memory. -/
def encodeMem (wide : Bool) (opcode : Byte) (reg : Reg) (m : Mem) : List Byte :=
  rex wide reg.code m.base.code ++ opcode :: memOperand reg.low m

/-- An instruction on memory, told apart by an extension of its opcode. -/
def encodeMemExtended (opcode : Byte) (extension : BitVec 3) (m : Mem) : List Byte :=
  rex false 0 m.base.code ++ opcode :: memOperand extension m

/-- An instruction with its register inside the opcode. -/
def encodeShort (wide : Bool) (opcode : BitVec 5) (r : Reg) : List Byte :=
  rex wide 0 r.code ++ [(opcode ++ r.low : Byte)]

/-- The bytes of an instruction. -/
def encode : Instr → List Byte
  | mov dst src => encodeRegs 0x89 src dst
  | movImm dst imm => encodeShort false 0b10111 dst ++ imm32 imm
  | mov64Imm dst imm => encodeShort true 0b10111 dst ++ littleEndian 8 imm.toNat
  | alu op dst src => encodeRegs op.opcode src dst
  | aluImm op dst imm => encodeReg 0x81 op.extension dst ++ imm32 imm
  | test a b => encodeRegs 0x85 b a
  | testImm a imm => encodeReg 0xf7 0 a ++ imm32 imm
  | not r => encodeReg 0xf7 2 r
  | shlImm r n => encodeReg 0xc1 4 r ++ [n]
  | shrImm r n => encodeReg 0xc1 5 r ++ [n]
  | shrCl r => encodeReg 0xd3 5 r
  | load32 dst src => encodeMem false 0x8b dst src
  | store32 dst src => encodeMem false 0x89 src dst
  | store32Imm dst imm => encodeMemExtended 0xc7 0 dst ++ imm32 imm
  | load64 dst src => encodeMem true 0x8b dst src
  | store64 dst src => encodeMem true 0x89 src dst
  | xchg64 r m => encodeMem true 0x87 r m
  | and32Imm dst imm => encodeMemExtended 0x81 4 dst ++ imm32 imm
  | or32 dst src => encodeMem false 0x09 src dst
  | setcc cc dst => [0x0f, 0x9#4 ++ cc.code, regOperand 0 dst.code]
  | movByteImm dst imm => [(0b10110#5 ++ dst.code : Byte), imm]
  | orByte dst src => [0x08, regOperand src.code dst.code]
  | movzx dst src => [0x0f, 0xb6, regOperand dst.low src.code]
  | push r => encodeShort false 0b01010 r
  | pop r => encodeShort false 0b01011 r
  | subRsp n => [0x48, 0x83, 0xec, n]
  | addRsp n => [0x48, 0x83, 0xc4, n]
  | call target => encodeReg 0xff 2 target
  | ret => [0xc3]

end Instr

/-! ## Code -/

/-- The number of bytes of a piece of code. -/
def Item.size : Item → Nat
  | .instr i => i.encode.length
  | .jump _ _ => 6
  | .label _ => 0

namespace Code

/-- The number of bytes of code. -/
def size : Code → Nat
  | [] => 0
  | item :: rest => item.size + size rest

/-- The labels placed in code laid out from a position, each with its place, in
the order of their cells. -/
def places (pos : Nat) : Code → List (Label × Nat)
  | [] => []
  | .label l :: rest => (l, pos) :: places pos rest
  | item :: rest => places (pos + item.size) rest

/-- The place of a label: where its last cell lies. -/
def place? (code : Code) (l : Label) : Option Nat :=
  (code.places 0).reverse.lookup l

/-- The bytes of code laid out from a position, given the places of labels. -/
def encodeFrom (place? : Label → Option Nat) (pos : Nat) : Code → Option (List Byte)
  | [] => some []
  | item :: rest => do
    let bytes ← match item with
      | .instr i => some i.encode
      | .jump cc target => do
        let place ← place? target
        some ([0x0f, (0x8#4 ++ cc.code : Byte)] ++
          imm32 (BitVec.ofInt 32 (place - (pos + item.size))))
      | .label _ => some []
    return bytes ++ (← encodeFrom place? (pos + item.size) rest)

/-- The bytes of code; none if a jump goes to a label without a place. -/
def encode? (code : Code) : Option (List Byte) :=
  let places := (code.places 0).reverse
  encodeFrom (fun l => places.lookup l) 0 code

@[simp]
theorem size_nil : size [] = 0 := rfl

@[simp]
theorem size_cons (item : Item) (code : Code) : size (item :: code) = item.size + code.size := rfl

@[simp]
theorem size_append (code code' : Code) : size (code ++ code') = code.size + code'.size := by
  induction code with
  | nil => simp
  | cons item rest ih => rw [List.cons_append, size_cons, size_cons, ih, Nat.add_assoc]

end Code

end ArmEmulator.Host
