import ArmEmulator.Guest.Cpu
import ArmEmulator.Host.Instruction

/-!
# Host machine

The meaning of host code called as a function of two pointers.  The machine has
the host registers and flags, the stack from the stack pointer up to the return
address, and the processor state that the first pointer leads to.

The stack is a list of 32-bit units, lowest address first; a unit holds nothing
until something is stored.  The stack pointer is implied by the length of the
list, so no instruction may use it but as the base of an access to the stack.
The machine is stuck on anything a well-behaved block must not do: an access
outside its stack and the processor state, a read of a unit that holds nothing, a
call with a misaligned stack or without the two pointers it was entered with, a
return with something left on the stack, and running off the end of the code.

Main results:

- Theorem {lit}`Machine.reg_setReg`: a register write is seen by reads of that
  register only.
-/

namespace ArmEmulator.Host

/-! ## Flags -/

/-- The host flags that conditions read. -/
structure Flags where
  carry : Bool
  zero : Bool
  sign : Bool
  overflow : Bool
deriving DecidableEq

/-- Whether a condition holds. -/
def Cc.holds (cc : Cc) (flags : Flags) : Bool :=
  match cc with
  | o => flags.overflow
  | b => flags.carry
  | ae => !flags.carry
  | e => flags.zero
  | ne => !flags.zero
  | s => flags.sign

/-- The flags after a result, with the given carry and overflow. -/
def Flags.ofResult {w : Nat} (result : BitVec w) (carry overflow : Bool) : Flags where
  carry
  zero := result == 0
  sign := result.msb
  overflow

/-- The result and the flags of an operation.  The carry of a sum tells that it is
too large, that of a difference that something was borrowed; the overflow tells
that the signed result is out of range.  Logical operations clear both. -/
def Alu.eval (op : Alu) (a b : BitVec 32) : BitVec 32 × Flags :=
  match op with
  | .add =>
    (a + b, .ofResult (a + b) (a.uaddOverflow b) (a.saddOverflow b))
  | .sub | .cmp =>
    (a - b, .ofResult (a - b) (a.usubOverflow b) (a.ssubOverflow b))
  | .and => (a &&& b, .ofResult (a &&& b) false false)
  | .or => (a ||| b, .ofResult (a ||| b) false false)
  | .xor => (a ^^^ b, .ofResult (a ^^^ b) false false)

/-- The number of places a shift moves by: the count modulo 32. -/
def shiftCount (n : BitVec 8) : Nat :=
  n.toNat % 32

/-- A shift to the left.  A shift by zero places keeps the flags; the carry is the
last bit shifted out.  The overflow is only defined for one place. -/
def shiftLeft (a : BitVec 32) (n : Nat) (flags : Flags) : BitVec 32 × Flags :=
  let result := a <<< n
  let carry := a.getLsbD (32 - n)
  (result, if n = 0 then flags else .ofResult result carry (result.msb != carry))

/-- A shift to the right, with flags as for a shift to the left. -/
def shiftRight (a : BitVec 32) (n : Nat) (flags : Flags) : BitVec 32 × Flags :=
  let result := a >>> n
  (result, if n = 0 then flags else .ofResult result (a.getLsbD (n - 1)) a.msb)

/-! ## Machine state -/

/-- The state of a running host function. -/
structure Machine (ε : Type) where
  regs : Vector (BitVec 64) 16
  flags : Flags
  stack : List (Option (BitVec 32))
  cpu : Cpu
  env : ε

/-- What a called function leaves behind.  It may overwrite the registers it need
not restore, and the flags. -/
structure Returned (ε : Type) where
  result : BitVec 64
  clobbered : Reg → BitVec 64
  flags : Flags
  cpu : Cpu
  env : ε

/-- What surrounds a host function: the two pointers it is called with, and the
functions it can call by their addresses, each of which gets two words. -/
structure Linkage (ε : Type) where
  state : BitVec 64
  environment : BitVec 64
  function? : BitVec 64 → Option (BitVec 32 → BitVec 32 → Cpu → ε → Returned ε)

/-- The registers besides {lit}`rax` that a called function need not restore. -/
def volatileRegs : List Reg :=
  [.rcx, .rdx, .rsi, .rdi, .r8, .r9, .r10, .r11]

namespace Machine

variable {ε : Type}

/-- The value of a register. -/
def reg (m : Machine ε) (r : Reg) : BitVec 64 :=
  m.regs[r.index]

/-- Writes a register. -/
def setReg (m : Machine ε) (r : Reg) (value : BitVec 64) : Machine ε :=
  { m with regs := m.regs.set r.index value }

theorem reg_setReg (m : Machine ε) (r s : Reg) (value : BitVec 64) :
    (m.setReg r value).reg s = if r = s then value else m.reg s := by
  unfold reg setReg
  simp only [Fin.getElem_fin, Vector.getElem_set]
  split
  · rename_i h
    rw [if_pos (Reg.index_inj.1 (Fin.ext h))]
  · rename_i h
    rw [if_neg (by rintro rfl; exact h rfl)]

/-! ### Registers as operands -/

/-- A register as a 64-bit operand. -/
def get64? (m : Machine ε) (r : Reg) : Option (BitVec 64) :=
  if r = .rsp then none else some (m.reg r)

/-- Writes a 64-bit operand. -/
def set64? (m : Machine ε) (r : Reg) (value : BitVec 64) : Option (Machine ε) :=
  if r = .rsp then none else some (m.setReg r value)

/-- A register as a 32-bit operand. -/
def get32? (m : Machine ε) (r : Reg) : Option (BitVec 32) :=
  (m.get64? r).map (·.setWidth 32)

/-- Writes a 32-bit operand, which clears the upper half of the register. -/
def set32? (m : Machine ε) (r : Reg) (value : BitVec 32) : Option (Machine ε) :=
  m.set64? r (value.setWidth 64)

/-- The value of an eight-bit register. -/
def getByte (m : Machine ε) (r : ByteReg) : BitVec 8 :=
  match r with
  | .al => (m.reg .rax).extractLsb' 0 8
  | .cl => (m.reg .rcx).extractLsb' 0 8
  | .dl => (m.reg .rdx).extractLsb' 0 8
  | .ah => (m.reg .rax).extractLsb' 8 8
  | .dh => (m.reg .rdx).extractLsb' 8 8

/-- Replaces the lowest byte of a register. -/
def setLowByte (m : Machine ε) (r : Reg) (value : BitVec 8) : Machine ε :=
  m.setReg r ((m.reg r).extractLsb' 8 56 ++ value)

/-- Replaces the second byte of a register. -/
def setSecondByte (m : Machine ε) (r : Reg) (value : BitVec 8) : Machine ε :=
  m.setReg r ((m.reg r).extractLsb' 16 48 ++ value ++ (m.reg r).extractLsb' 0 8)

/-- Writes an eight-bit register and keeps the other bytes. -/
def setByte (m : Machine ε) (r : ByteReg) (value : BitVec 8) : Machine ε :=
  match r with
  | .al => m.setLowByte .rax value
  | .cl => m.setLowByte .rcx value
  | .dl => m.setLowByte .rdx value
  | .ah => m.setSecondByte .rax value
  | .dh => m.setSecondByte .rdx value

/-! ### Memory operands -/

/-- The words of the processor state. -/
inductive Field where
  | reg (r : ArmEmulator.Reg)
  | cpsr
  | spsr
deriving DecidableEq

/-- The word at a displacement from the processor state. -/
def field? (disp : BitVec 32) : Option Field :=
  let n := disp.toNat
  if n % 4 = 0 then
    if h : n / 4 < 16 then some (.reg (.ofIndex ⟨n / 4, h⟩))
    else if n / 4 = 16 then some .cpsr
    else if n / 4 = 17 then some .spsr
    else none
  else
    none

/-- The value of a word of the processor state. -/
def getField (cpu : Cpu) : Field → BitVec 32
  | .reg r => cpu.reg r
  | .cpsr => cpu.cpsr
  | .spsr => cpu.spsr

/-- Writes a word of the processor state. -/
def setField (cpu : Cpu) (value : BitVec 32) : Field → Cpu
  | .reg r => cpu.setReg r value
  | .cpsr => { cpu with cpsr := value }
  | .spsr => { cpu with spsr := value }

/-- The number of the stack unit at a displacement from the stack pointer. -/
def unit? (disp : BitVec 32) : Option Nat :=
  if disp.toNat % 4 = 0 then some (disp.toNat / 4) else none

/-- The word a stack unit holds. -/
def getUnit? (m : Machine ε) (k : Nat) : Option (BitVec 32) :=
  m.stack[k]?.join

/-- Stores a word into a stack unit. -/
def setUnit? (m : Machine ε) (k : Nat) (value : BitVec 32) : Option (Machine ε) :=
  if k < m.stack.length then some { m with stack := m.stack.set k (some value) } else none

/-- Reads a word from the stack or from the processor state. -/
def load32? (link : Linkage ε) (m : Machine ε) (src : Mem) : Option (BitVec 32) :=
  if src.base = .rsp then do
    m.getUnit? (← unit? src.disp)
  else if m.reg src.base = link.state then
    (field? src.disp).map (getField m.cpu)
  else
    none

/-- Writes a word to the stack or to the processor state. -/
def store32? (link : Linkage ε) (m : Machine ε) (dst : Mem) (value : BitVec 32) :
    Option (Machine ε) :=
  if dst.base = .rsp then do
    m.setUnit? (← unit? dst.disp) value
  else if m.reg dst.base = link.state then
    (field? dst.disp).map fun f => { m with cpu := setField m.cpu value f }
  else
    none

/-- Reads two neighbouring units of the stack. -/
def load64? (m : Machine ε) (src : Mem) : Option (BitVec 64) :=
  if src.base = .rsp then do
    let k ← unit? src.disp
    let low ← m.getUnit? k
    let high ← m.getUnit? (k + 1)
    return high ++ low
  else
    none

/-- Writes two neighbouring units of the stack. -/
def store64? (m : Machine ε) (dst : Mem) (value : BitVec 64) : Option (Machine ε) :=
  if dst.base = .rsp then do
    let k ← unit? dst.disp
    let m ← m.setUnit? k (value.extractLsb' 0 32)
    m.setUnit? (k + 1) (value.extractLsb' 32 32)
  else
    none

/-! ### Stack -/

/-- Pushes 64 bits. -/
def push (m : Machine ε) (value : BitVec 64) : Machine ε :=
  { m with stack := some (value.extractLsb' 0 32) :: some (value.extractLsb' 32 32) :: m.stack }

/-- Pops 64 bits. -/
def pop? (m : Machine ε) : Option (BitVec 64 × Machine ε) :=
  match m.stack with
  | some low :: some high :: rest => some (high ++ low, { m with stack := rest })
  | _ => none

/-- Makes room for a number of bytes, which hold nothing. -/
def reserve? (m : Machine ε) (n : BitVec 8) : Option (Machine ε) :=
  if n.toNat % 4 = 0 then
    some { m with stack := List.replicate (n.toNat / 4) none ++ m.stack }
  else
    none

/-- Gives back the room of a number of bytes. -/
def release? (m : Machine ε) (n : BitVec 8) : Option (Machine ε) :=
  if n.toNat % 4 = 0 ∧ n.toNat / 4 ≤ m.stack.length then
    some { m with stack := m.stack.drop (n.toNat / 4) }
  else
    none

/-- Whether the stack pointer is a multiple of 16.  It was one word of 64 bits
below such an address on entry. -/
def aligned (m : Machine ε) : Bool :=
  m.stack.length % 4 == 2

/-! ### Calls -/

/-- The state after a called function returned. -/
def afterCall (m : Machine ε) (r : Returned ε) : Machine ε :=
  let returned : Machine ε := { m with flags := r.flags, cpu := r.cpu, env := r.env }
  (volatileRegs.foldl (fun m s => m.setReg s (r.clobbered s)) returned).setReg .rax r.result

/-- Calls the function at an address. -/
def call? (link : Linkage ε) (m : Machine ε) (target : BitVec 64) : Option (Machine ε) :=
  if m.aligned ∧ m.reg .rdi = link.state ∧ m.reg .rsi = link.environment then do
    let function ← link.function? target
    return m.afterCall
      (function ((m.reg .rdx).setWidth 32) ((m.reg .rcx).setWidth 32) m.cpu m.env)
  else
    none

end Machine

/-! ## Running code -/

variable {ε : Type}

/-- The effect of one instruction other than a return; none if the machine is
stuck. -/
def Instr.step? (link : Linkage ε) (m : Machine ε) : Instr → Option (Machine ε)
  | mov dst src => do m.set32? dst (← m.get32? src)
  | movImm dst imm => m.set32? dst imm
  | mov64Imm dst imm => m.set64? dst imm
  | alu op dst src => do
    let (result, flags) := op.eval (← m.get32? dst) (← m.get32? src)
    let m := { m with flags }
    if op = .cmp then some m else m.set32? dst result
  | aluImm op dst imm => do
    let (result, flags) := op.eval (← m.get32? dst) imm
    let m := { m with flags }
    if op = .cmp then some m else m.set32? dst result
  | test a b => do
    let (_, flags) := Alu.and.eval (← m.get32? a) (← m.get32? b)
    return { m with flags }
  | testImm a imm => do
    let (_, flags) := Alu.and.eval (← m.get32? a) imm
    return { m with flags }
  | not r => do m.set32? r (~~~(← m.get32? r))
  | shlImm r n => do
    let (result, flags) := shiftLeft (← m.get32? r) (shiftCount n) m.flags
    { m with flags }.set32? r result
  | shrImm r n => do
    let (result, flags) := shiftRight (← m.get32? r) (shiftCount n) m.flags
    { m with flags }.set32? r result
  | shrCl r => do
    let (result, flags) := shiftRight (← m.get32? r) (shiftCount (m.getByte .cl)) m.flags
    { m with flags }.set32? r result
  | load32 dst src => do m.set32? dst (← m.load32? link src)
  | store32 dst src => do m.store32? link dst (← m.get32? src)
  | store32Imm dst imm => m.store32? link dst imm
  | load64 dst src => do m.set64? dst (← m.load64? src)
  | store64 dst src => do m.store64? dst (← m.get64? src)
  | xchg64 r place => do
    let inMemory ← m.load64? place
    let m' ← m.store64? place (← m.get64? r)
    m'.set64? r inMemory
  | and32Imm dst imm => do
    let (result, flags) := Alu.and.eval (← m.load32? link dst) imm
    { m with flags }.store32? link dst result
  | or32 dst src => do
    let (result, flags) := Alu.or.eval (← m.load32? link dst) (← m.get32? src)
    { m with flags }.store32? link dst result
  | setcc cc dst => some (m.setByte dst ((BitVec.ofBool (cc.holds m.flags)).setWidth 8))
  | movByteImm dst imm => some (m.setByte dst imm)
  | orByte dst src =>
    let result := m.getByte dst ||| m.getByte src
    some ({ m with flags := .ofResult result false false }.setByte dst result)
  | movzx dst src =>
    if dst.index.val < 8 then m.set32? dst ((m.getByte src).setWidth 32) else none
  | push r => do return m.push (← m.get64? r)
  | pop r => do
    let (value, m) ← m.pop?
    m.set64? r value
  | subRsp n => m.reserve? n
  | addRsp n => m.release? n
  | call target => do m.call? link (← m.get64? target)
  | ret => none

/-- Runs code to its return; none if the machine gets stuck.  With a label to skip
to, everything up to the place of that label is passed over.  Jumps only go
forward: a label is placed by its last cell. -/
def Code.run? (link : Linkage ε) : Option Label → Code → Machine ε → Option (Machine ε)
  | _, [], _ => none
  | some l, item :: rest, m =>
    if item = .label l ∧ ¬ .label l ∈ rest then run? link none rest m
    else run? link (some l) rest m
  | none, .label _ :: rest, m => run? link none rest m
  | none, .jump cc l :: rest, m =>
    run? link (if cc.holds m.flags then some l else none) rest m
  | none, .instr .ret :: _, m => if m.stack = [] then some m else none
  | none, .instr i :: rest, m => (i.step? link m).bind (run? link none rest)

end ArmEmulator.Host
