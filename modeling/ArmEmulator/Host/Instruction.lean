/-!
# Host instructions

The x86-64 instructions that translated blocks are made of.  Arithmetic is on 32
bits unless a name says otherwise.  Code is a list of instructions, jumps to
labels, and label cells; a label names the place of its cell.
-/

namespace ArmEmulator.Host

/-! ## Registers and condition codes -/

/-- A host register. -/
inductive Reg where
  | rax | rcx | rdx | rbx | rsp | rbp | rsi | rdi
  | r8 | r9 | r10 | r11 | r12 | r13 | r14 | r15
deriving DecidableEq

namespace Reg

/-- Every register in the order of its code. -/
def all : Vector Reg 16 :=
  #v[rax, rcx, rdx, rbx, rsp, rbp, rsi, rdi, r8, r9, r10, r11, r12, r13, r14, r15]

/-- The four bits an instruction names a register by. -/
def code : Reg → BitVec 4
  | rax => 0 | rcx => 1 | rdx => 2 | rbx => 3
  | rsp => 4 | rbp => 5 | rsi => 6 | rdi => 7
  | r8 => 8 | r9 => 9 | r10 => 10 | r11 => 11
  | r12 => 12 | r13 => 13 | r14 => 14 | r15 => 15

/-- The number of a register. -/
def index (r : Reg) : Fin 16 :=
  r.code.toFin

/-- The three bits of the code that the instruction itself holds; the fourth goes
into its extension byte. -/
def low (r : Reg) : BitVec 3 :=
  r.code.extractLsb' 0 3

/-- The register with a given code. -/
def ofCode (c : BitVec 4) : Reg :=
  all.get c.toFin

@[simp]
theorem ofCode_code (r : Reg) : ofCode r.code = r := by
  cases r <;> rfl

theorem index_inj {r s : Reg} : r.index = s.index ↔ r = s := by
  refine ⟨fun h => ?_, fun h => h ▸ rfl⟩
  rw [← ofCode_code r, ← ofCode_code s, BitVec.toFin_inj.1 h]

/-- The name of a register. -/
def name : Reg → String
  | rax => "rax" | rcx => "rcx" | rdx => "rdx" | rbx => "rbx"
  | rsp => "rsp" | rbp => "rbp" | rsi => "rsi" | rdi => "rdi"
  | r8 => "r8" | r9 => "r9" | r10 => "r10" | r11 => "r11"
  | r12 => "r12" | r13 => "r13" | r14 => "r14" | r15 => "r15"

end Reg

/-- An eight-bit register that needs no extension byte; the last two are the
second byte of their 64-bit register. -/
inductive ByteReg where
  | al | cl | dl | ah | dh
deriving DecidableEq

/-- The three bits that name an eight-bit register. -/
def ByteReg.code : ByteReg → BitVec 3
  | al => 0
  | cl => 1
  | dl => 2
  | ah => 4
  | dh => 6

/-- A condition on the host flags: overflow, below, above or equal, equal, not
equal, sign. -/
inductive Cc where
  | o | b | ae | e | ne | s
deriving DecidableEq

/-- The four bits that name a condition. -/
def Cc.code : Cc → BitVec 4
  | o => 0x0
  | b => 0x2
  | ae => 0x3
  | e => 0x4
  | ne => 0x5
  | s => 0x8

/-- A two-operand operation. -/
inductive Alu where
  | add | or | and | sub | xor | cmp
deriving DecidableEq

/-! ## Instructions -/

/-- A memory operand: a base register and a displacement. -/
structure Mem where
  base : Reg
  disp : BitVec 32
deriving DecidableEq

/-- An instruction that does not jump. -/
inductive Instr where
  | mov (dst src : Reg)
  | movImm (dst : Reg) (imm : BitVec 32)
  | mov64Imm (dst : Reg) (imm : BitVec 64)
  | alu (op : Alu) (dst src : Reg)
  | aluImm (op : Alu) (dst : Reg) (imm : BitVec 32)
  | test (a b : Reg)
  | testImm (a : Reg) (imm : BitVec 32)
  | not (r : Reg)
  | shlImm (r : Reg) (n : BitVec 8)
  | shrImm (r : Reg) (n : BitVec 8)
  | shrCl (r : Reg)
  | load32 (dst : Reg) (src : Mem)
  | store32 (dst : Mem) (src : Reg)
  | store32Imm (dst : Mem) (imm : BitVec 32)
  | load64 (dst : Reg) (src : Mem)
  | store64 (dst : Mem) (src : Reg)
  | xchg64 (r : Reg) (m : Mem)
  | and32Imm (dst : Mem) (imm : BitVec 32)
  | or32 (dst : Mem) (src : Reg)
  | setcc (cc : Cc) (dst : ByteReg)
  | movByteImm (dst : ByteReg) (imm : BitVec 8)
  | orByte (dst src : ByteReg)
  /-- Zero-extends a byte register into one of the first eight registers. -/
  | movzx (dst : Reg) (src : ByteReg)
  | push (r : Reg)
  | pop (r : Reg)
  | subRsp (n : BitVec 8)
  | addRsp (n : BitVec 8)
  | call (target : Reg)
  | ret
deriving DecidableEq

/-! ## Code -/

/-- The name of a place in code. -/
abbrev Label := Nat

/-- A piece of code: an instruction, a conditional jump, or the cell that places
a label. -/
inductive Item where
  | instr (i : Instr)
  | jump (cc : Cc) (target : Label)
  | label (l : Label)
deriving DecidableEq

/-- Code in the order it is laid out. -/
abbrev Code := List Item

/-- Instructions as code. -/
def Code.ofInstrs (is : List Instr) : Code :=
  is.map .instr

end ArmEmulator.Host
