import ArmEmulator.Block.Code
import ArmEmulator.Guest.Execution
import ArmEmulator.Host.Machine

/-!
# Running translated blocks

The functions that blocks call work on the bus: they interpret an instruction,
or load or store one register.  A device fault inside such a call is kept in the
environment and reported to the block as failure, so the block leaves at once.
-/

namespace ArmEmulator.Block

open Host (Code Machine Linkage Returned Flags)

/-! ## Environment -/

/-- What the functions called by a block work on: the bus, the fault that ended
the block with the address it is reported at, and the number of unsupported
instructions interpreted so far. -/
structure Environment (ω : Type) where
  bus : Bus ω
  fault? : Option (Word × Fault)
  unhandled : Nat

variable {ω : Type}

/-- The environment of a block that is about to run. -/
def Environment.ofBus (bus : Bus ω) : Environment ω where
  bus
  fault? := none
  unhandled := 0

/-! ## Called functions -/

/-- What a function leaves behind: the state, the environment, and 0 or 1 for
success or failure. -/
def returned (failed : Bool) (cpu : Cpu) (env : Environment ω) : Returned (Environment ω) where
  result := (BitVec.ofBool failed).setWidth 64
  clobbered := fun _ => 0
  flags := ⟨false, false, false, false⟩
  cpu
  env

/-- Runs an access for a block; a fault is kept with the address {lit}`addr`. -/
def guarded {α : Type} (addr : Word) (cpu : Cpu) (env : Environment ω)
    (access : Access (Bus ω) α) (finish : α → Environment ω → Cpu × Environment ω) :
    Returned (Environment ω) :=
  match access env.bus with
  | .ok a bus =>
    let (cpu, env) := finish a { env with bus }
    returned false cpu env
  | .error fault bus => returned true cpu { env with bus, fault? := some (addr, fault) }

/-- Executes the instruction at {lit}`addr` encoded by {lit}`word`. -/
def interpretFunction (addr word : Word) (cpu : Cpu) (env : Environment ω) :
    Returned (Environment ω) :=
  guarded addr cpu env ((Instruction.decode word).execute addr word cpu)
    fun (outcome, cpu) env =>
      match outcome with
      | .unhandled _ _ => (cpu, { env with unhandled := env.unhandled + 1 })
      | _ => (cpu, env)

/-- The register an access word names. -/
def accessReg (access : Word) : Reg :=
  Reg.ofBits (access.extractLsb' 0 4)

/-- Whether an access word asks for one byte. -/
def accessByte (access : Word) : Bool :=
  access.getLsbD 8

/-- Loads the register that {lit}`access` names from {lit}`addr`. -/
def loadFunction (addr access : Word) (cpu : Cpu) (env : Environment ω) :
    Returned (Environment ω) :=
  guarded addr cpu env
    (if accessByte access then (·.setWidth 32) <$> Bus.read8 addr else Bus.read32 addr)
    fun value env => (cpu.setReg (accessReg access) value, env)

/-- Stores the register that {lit}`access` names at {lit}`addr`. -/
def storeFunction (addr access : Word) (cpu : Cpu) (env : Environment ω) :
    Returned (Environment ω) :=
  let value := cpu.reg (accessReg access)
  guarded addr cpu env
    (if accessByte access then Bus.write8 addr (value.setWidth 8) else Bus.write32 addr value)
    fun _ env => (cpu, env)

/-! ## Running a block -/

/-- The two pointers of a block, and the three functions at their addresses. -/
def linkage (helpers : Helpers) : Linkage (Environment ω) where
  state := 0x10000
  environment := 0x20000
  function? target :=
    if target = helpers.interpret then some interpretFunction
    else if target = helpers.load then some loadFunction
    else if target = helpers.store then some storeFunction
    else none

/-- The machine at the entry of a block. -/
def entryMachine (link : Linkage (Environment ω)) (cpu : Cpu) (env : Environment ω) :
    Machine (Environment ω) :=
  let start : Machine (Environment ω) :=
    { regs := Vector.replicate 16 0
      flags := ⟨false, false, false, false⟩
      stack := []
      cpu
      env }
  (start.setReg .rdi link.state).setReg .rsi link.environment

/-- Runs the code of a block; gives its result, the processor state and the
environment. -/
def run? (helpers : Helpers) (code : Code) (cpu : Cpu) (bus : Bus ω) :
    Option (BitVec 32 × Cpu × Environment ω) :=
  let link := linkage helpers
  (code.run? link none (entryMachine link cpu (.ofBus bus))).map fun m =>
    ((m.reg .rax).setWidth 32, m.cpu, m.env)

end ArmEmulator.Block
