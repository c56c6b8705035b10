import ArmEmulator.Guest.Register
import ArmEmulator.Host.Encoding

/-!
# Frame of a translated block

A block is a host function of two pointers, one to the processor state and one
to the environment its helpers need.  It returns 0 with the next program counter
in the state, or 1 after a helper failed.

Registers 0 to 14 live in host registers between instructions; the program
counter is known for every instruction and lives nowhere.  The state is only
current at exits and around helper calls.  Three slots above the stack pointer
hold the two pointers and a scratch word; temporaries pushed on top move them up.

Main results:

- Theorem {lit}`home?_eq_none_iff`: only the program counter has no host register.
- Theorem {lit}`home?_injective`: no two registers share a host register.
- Theorem {lit}`home?_ne_rsp`: no register lives in the stack pointer.
-/

namespace ArmEmulator.Block

open Host (Instr Code Label Mem)

/-! ## Homes of guest registers -/

/-- Registers 0 to 14 with the host registers they live in. -/
def homes : List (Reg × Host.Reg) :=
  [(.r0, .rax), (.r1, .rcx), (.r2, .rdx), (.r3, .rbx), (.r4, .rbp), (.r5, .rsi), (.r6, .rdi),
    (.r7, .r8), (.r8, .r9), (.r9, .r10), (.r10, .r11), (.r11, .r12), (.ip, .r13), (.sp, .r14),
    (.lr, .r15)]

/-- The host register a guest register lives in. -/
def home? (r : Reg) : Option Host.Reg :=
  homes.lookup r

theorem home?_eq_none_iff {r : Reg} : home? r = none ↔ r = .pc := by
  cases r <;> decide

theorem home?_injective {r s : Reg} {h : Host.Reg} (hr : home? r = some h)
    (hs : home? s = some h) : r = s := by
  cases r <;> cases hr <;> cases s <;> cases hs <;> rfl

theorem home?_ne_rsp (r : Reg) : home? r ≠ some .rsp := by
  cases r <;> decide

/-! ## Memory operands -/

/-- The offset of a register in the processor state. -/
def stateOffset (r : Reg) : Nat :=
  4 * r.index

/-- The offset of the current status in the processor state. -/
def statusOffset : Nat := 64

/-- A register in the processor state that {lit}`rax` points to. -/
def stateReg (r : Reg) : Mem :=
  ⟨.rax, BitVec.ofNat 32 (stateOffset r)⟩

/-- The current status in the processor state that {lit}`rax` points to. -/
def stateStatus : Mem :=
  ⟨.rax, BitVec.ofNat 32 statusOffset⟩

/-- A slot of the frame under a number of temporaries. -/
def slot (number temporaries : Nat) : Mem :=
  ⟨.rsp, BitVec.ofNat 32 (8 * number + 8 * temporaries)⟩

/-- The slot of the pointer to the processor state. -/
def stateSlot (temporaries : Nat) : Mem := slot 0 temporaries

/-- The slot of the pointer to the environment. -/
def environmentSlot (temporaries : Nat) : Mem := slot 1 temporaries

/-- The slot of the scratch word. -/
def scratchSlot (temporaries : Nat) : Mem := slot 2 temporaries

/-- The number of bytes of the three slots. -/
def frameBytes : Byte := 24

/-! ## Entering and leaving -/

/-- The registers a host function must restore. -/
def calleeSaved : List Host.Reg :=
  [.rbx, .rbp, .r12, .r13, .r14, .r15]

/-- Loads every guest register from the state.  The first one shares its host
register with the state pointer and comes last. -/
def reload : List Instr :=
  .load64 .rax (stateSlot 0) ::
    (homes.tail.map fun (r, h) => .load32 h (stateReg r)) ++
    [.load32 .rax (stateReg .r0)]

/-- Stores every guest register into the state and leaves the state pointer in
{lit}`rax`.  The first guest register is parked in the slot of the state pointer
while {lit}`rax` holds the pointer. -/
def spill : List Instr :=
  .xchg64 .rax (stateSlot 0) ::
    (homes.tail.map fun (r, h) => .store32 (stateReg r) h) ++
    [.load32 .rcx (stateSlot 0), .store32 (stateReg .r0) .rcx, .store64 (stateSlot 0) .rax]

/-- Enters a block. -/
def prologue : List Instr :=
  calleeSaved.map .push ++
    [.subRsp frameBytes, .store64 (stateSlot 0) .rdi, .store64 (environmentSlot 0) .rsi] ++
    reload

/-- Leaves a block. -/
def epilogue : List Instr :=
  .addRsp frameBytes :: calleeSaved.reverse.map .pop ++ [.ret]

/-- Leaves a block successfully with the program counter that the state holds. -/
def leave : List Instr :=
  .movImm .rax 0 :: epilogue

/-- Leaves a block successfully to go on at {lit}`pc`. -/
def exitTo (pc : Word) : List Instr :=
  spill ++ .store32Imm (stateReg .pc) pc :: leave

/-! ## Helper calls -/

/-- The addresses of the functions that blocks call, each of which takes the two
pointers and two words and returns zero on success. -/
structure Helpers where
  /-- Executes the instruction at an address with a given encoding. -/
  interpret : BitVec 64
  /-- Loads a register from an address. -/
  load : BitVec 64
  /-- Stores a register at an address. -/
  store : BitVec 64
deriving DecidableEq

/-- The helpers of a program, wherever it is loaded.  They are three functions, so no two
of them share an address. -/
class HelperTable extends Helpers where
  load_ne_interpret : load ≠ interpret
  store_ne_interpret : store ≠ interpret
  store_ne_load : store ≠ load

/-- The label of the exit after a failed helper. -/
def faultLabel : Label := 0

/-- Leaves a block after a failed helper. -/
def faultExit : Code :=
  .label faultLabel :: Code.ofInstrs (.movImm .rax 1 :: epilogue)

/-- Calls a helper with its two words in {lit}`edx` and {lit}`ecx` and the guest
registers spilled. -/
def callHelper (target : BitVec 64) : Code :=
  Code.ofInstrs
    [.load64 .rdi (stateSlot 0), .load64 .rsi (environmentSlot 0), .mov64Imm .rax target,
      .call .rax, .test .rax .rax] ++
    [.jump .ne faultLabel]

/-- Executes an instruction through the interpreter; {lit}`exits` tells that it
may move the program counter, which ends the block. -/
def interpret (helpers : Helpers) (addr word : Word) (exits : Bool) : Code :=
  Code.ofInstrs (spill ++ [.movImm .rdx addr, .movImm .rcx word]) ++
    callHelper helpers.interpret ++
    Code.ofInstrs (if exits then leave else reload)

end ArmEmulator.Block
