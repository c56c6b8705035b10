import ArmEmulator.Guest.Condition
import ArmEmulator.Guest.Register
import ArmEmulator.Text.Hex

/-!
# Processor state

The sixteen registers, the current status register and the saved one.  The
state starts, and is reset, in supervisor mode with both interrupts masked.

Main results:

- Theorem {lit}`Cpu.reg_setReg`: a register write is seen by reads of that
  register only.
- Theorems {lit}`Cpu.cpsr_setReg` and {lit}`Cpu.spsr_setReg`: it leaves the
  status registers alone.
-/

namespace ArmEmulator

/-! ## Processor modes -/

/-- The processor mode held in the low five bits of a status register. -/
inductive Mode where
  | user | fiq | irq | supervisor | abort | undefined | system
deriving DecidableEq

namespace Mode

/-- The encoding of a mode. -/
def bits : Mode → BitVec 5
  | user => 0x10
  | fiq => 0x11
  | irq => 0x12
  | supervisor => 0x13
  | abort => 0x17
  | undefined => 0x1b
  | system => 0x1f

/-- The mode of an encoding, if it is one of the seven. -/
def ofBits? (b : BitVec 5) : Option Mode :=
  [user, fiq, irq, supervisor, abort, undefined, system].find? (·.bits == b)

@[simp]
theorem ofBits?_bits (m : Mode) : ofBits? m.bits = some m := by
  cases m <;> rfl

/-- The name of a mode. -/
def name : Mode → String
  | user => "User"
  | fiq => "Fiq"
  | irq => "Irq"
  | supervisor => "Supervisor"
  | abort => "Abort"
  | undefined => "Undefined"
  | system => "System"

end Mode

/-! ## Registers and status -/

/-- The registers a program can observe. -/
structure Cpu where
  regs : Vector Word 16
  cpsr : Word
  spsr : Word
deriving DecidableEq

namespace Cpu

/-- The status after reset: supervisor mode, both interrupts masked, no flag. -/
def resetStatus : Word :=
  0x000000d3

/-- The state at power-on: every register is zero. -/
def initial : Cpu where
  regs := Vector.replicate 16 0
  cpsr := resetStatus
  spsr := 0

/-- The value of a register. -/
def reg (cpu : Cpu) (r : Reg) : Word :=
  cpu.regs[r.index]

/-- Writes one register. -/
def setReg (cpu : Cpu) (r : Reg) (value : Word) : Cpu :=
  { cpu with regs := cpu.regs.set r.index value }

/-- The address of the next instruction. -/
def pc (cpu : Cpu) : Word :=
  cpu.reg .pc

/-- Moves execution to another address. -/
def setPc (cpu : Cpu) (addr : Word) : Cpu :=
  cpu.setReg .pc addr

/-- The power-on state with the program counter at {lit}`entry` and the stack
pointer at {lit}`stackTop`. -/
def reset (entry stackTop : Word) : Cpu :=
  (initial.setPc entry).setReg .sp stackTop

theorem reg_setReg (cpu : Cpu) (r s : Reg) (value : Word) :
    (cpu.setReg r value).reg s = if r = s then value else cpu.reg s := by
  unfold reg setReg
  simp only [Fin.getElem_fin, Vector.getElem_set]
  split
  · rename_i h
    rw [if_pos (Reg.index_inj.1 (Fin.ext h))]
  · rename_i h
    rw [if_neg (by rintro rfl; exact h rfl)]

@[simp]
theorem reg_setReg_self (cpu : Cpu) (r : Reg) (value : Word) :
    (cpu.setReg r value).reg r = value := by
  simp [reg_setReg]

theorem reg_setReg_of_ne (cpu : Cpu) {r s : Reg} (h : r ≠ s) (value : Word) :
    (cpu.setReg r value).reg s = cpu.reg s := by
  simp [reg_setReg, h]

@[simp]
theorem cpsr_setReg (cpu : Cpu) (r : Reg) (value : Word) :
    (cpu.setReg r value).cpsr = cpu.cpsr := rfl

@[simp]
theorem spsr_setReg (cpu : Cpu) (r : Reg) (value : Word) :
    (cpu.setReg r value).spsr = cpu.spsr := rfl

theorem ext_reg {cpu cpu' : Cpu} (hr : ∀ r, cpu.reg r = cpu'.reg r)
    (hc : cpu.cpsr = cpu'.cpsr) (hs : cpu.spsr = cpu'.spsr) : cpu = cpu' := by
  obtain ⟨regs, cpsr, spsr⟩ := cpu
  obtain ⟨regs', cpsr', spsr'⟩ := cpu'
  have : regs = regs' := by
    apply Vector.ext
    intro i hi
    have := hr (Reg.ofIndex ⟨i, hi⟩)
    simpa [reg] using this
  simp_all

/-- The register with a given number; a number past the last reads as zero. -/
def registerAt (cpu : Cpu) (i : Nat) : Word :=
  cpu.regs[i]?.getD 0

/-- Writes the register with a given number; a number past the last is ignored. -/
def setRegisterAt (cpu : Cpu) (i : Nat) (value : Word) : Cpu :=
  { cpu with regs := cpu.regs.setIfInBounds i value }

/-! ## Flags -/

/-- Whether a flag of the current status is set. -/
def flag (cpu : Cpu) (f : Flag) : Bool :=
  Psr.flag cpu.cpsr f

/-- Sets or clears one flag of the current status. -/
def setFlag (cpu : Cpu) (f : Flag) (set : Bool) : Cpu :=
  { cpu with cpsr := Psr.withFlag cpu.cpsr f set }

/-- The flags after a logical result: N and Z describe it, C is given, V is
clear. -/
def setLogicalFlags (cpu : Cpu) (result : Word) (carry : Bool) : Cpu :=
  { cpu with cpsr := Psr.withFlags cpu.cpsr result.msb (result == 0) carry false }

/-- The flags after an arithmetic result: N and Z describe it, C and V are
given. -/
def setArithmeticFlags (cpu : Cpu) (result : Word) (carry overflow : Bool) : Cpu :=
  { cpu with cpsr := Psr.withFlags cpu.cpsr result.msb (result == 0) carry overflow }

/-- The processor mode, if the mode bits encode one. -/
def mode? (cpu : Cpu) : Option Mode :=
  Mode.ofBits? (cpu.cpsr.extractLsb' 0 5)

/-! ## Text -/

/-- Every register with its value, in the order of the register numbers. -/
def named (cpu : Cpu) : List (Reg × Word) :=
  Reg.all.toList.map fun r => (r, cpu.reg r)

/-- The flags as four letters, upper case when set. -/
def flagText (cpu : Cpu) : String :=
  String.ofList ([Flag.n, .z, .c, .v].map fun f =>
    if cpu.flag f then f.letter.toUpper else f.letter)

/-- The lines of a register dump: one per register, the status with its flags,
and the mode. -/
def lines (cpu : Cpu) : List String :=
  let registers := cpu.named.map fun (r, value) =>
    (r.name ++ ":").pushn ' ' (5 - r.name.length) ++ Hex.address value
  let status := "cpsr: " ++ Hex.address cpu.cpsr ++ " [" ++ cpu.flagText ++ "]"
  let mode := match cpu.mode? with
    | some m => "mode: " ++ m.name
    | none => "mode: invalid (0x" ++ Hex.padded 2 (cpu.cpsr.extractLsb' 0 5).toNat ++ ")"
  registers ++ [status, mode]

end Cpu

end ArmEmulator
