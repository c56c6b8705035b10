import ArmEmulator.Translator

/-!
# Emulator

A processor on a bus, run by interpretation or by translated blocks until a run
is stopped, its exit condition holds, its instruction limit is reached, or the
program branches to itself.

A translated step runs the block at the program counter, translating a new region
first if there is no such block; code outside memory is interpreted.  The new
region holds what is reachable from the program counter and everything that was
translated before.
-/

namespace ArmEmulator

/-! ## Errors -/

/-- Why an image was rejected; nothing is changed then. -/
inductive LoadError where
  | empty
  | outOfRange (addr : Word) (length : Nat) (ramBase : Word) (ramEnd : Nat)
deriving DecidableEq

/-- The text of a load error. -/
def LoadError.message : LoadError → String
  | empty => "firmware image is empty"
  | outOfRange addr length ramBase ramEnd =>
    "image of " ++ Hex.short length ++ " bytes at " ++ Hex.address addr ++
      " does not fit in ram " ++ Hex.address ramBase ++ ".." ++ Hex.short ramEnd

/-- Why an image could not be loaded from a file. -/
inductive RomError where
  | unreadable (path reason : String)
  | rejected (path : String) (cause : LoadError)
deriving DecidableEq

namespace RomError

/-- The text of a file error. -/
def message : RomError → String
  | unreadable path _ => "failed to read " ++ path
  | rejected path _ => "failed to load " ++ path

/-- The texts of what caused a file error, outermost first. -/
def causes : RomError → List String
  | unreadable _ reason => [reason]
  | rejected _ cause => [cause.message]

end RomError

/-- Why a run failed; {lit}`instructions` counts what had been executed. -/
inductive RunError where
  | translate (pc : Word) (instructions : Nat) (cause : TranslateError)
  | fault (pc : Word) (instructions : Nat) (reason : String)
  | execute (block : Word) (instructions : Nat) (cause : ExecError)
deriving DecidableEq

namespace RunError

/-- The text of a run error. -/
def message : RunError → String
  | translate pc instructions _ =>
    "translation failed at " ++ Hex.address pc ++ " after " ++ toString instructions ++
      " instructions"
  | fault pc instructions reason =>
    "fault at " ++ Hex.address pc ++ " after " ++ toString instructions ++ " instructions: " ++
      reason
  | execute block instructions _ =>
    "translated block at " ++ Hex.address block ++ " failed after " ++ toString instructions ++
      " instructions"

/-- The texts of what caused a run error, outermost first. -/
def causes : RunError → List String
  | translate _ _ cause => [cause.message]
  | fault _ _ _ => []
  | execute _ _ cause => [cause.message]

end RunError

/-! ## Runs -/

/-- Why a run ended without failing. -/
inductive StopReason where
  | stopRequested
  | budgetExhausted
  | selfLoop (addr : Word)
  | exitCondition
deriving DecidableEq

/-- How a run ended and how many instructions it executed. -/
structure RunSummary where
  reason : StopReason
  instructions : Nat
deriving DecidableEq

/-- The verdict of an exit condition on the state before a step: whether the run
ends, whether a stop is requested, and the state of the condition. -/
structure ExitVerdict (ε : Type) where
  exit : Bool
  requestStop : Bool
  next : ε

/-- An exit condition with a state of its own. -/
abbrev ExitCondition (ε : Type) := ε → Cpu → ExitVerdict ε

/-! ## State -/

/-- An emulator: the processor and the bus, the settings, the translator once one
was needed, the mode it has reached, a pending stop request, and counters of
executed and of unsupported instructions. -/
structure Emulator (ω : Type) where
  cpu : Cpu
  bus : Bus ω
  config : Configuration
  translator? : Option Translator
  mode : ExecMode
  stopRequested : Bool
  /-- A number without a bound, where the program counts in 64 bits: fewer than
  {lit}`2 ^ 64` instructions are executed between two resets. -/
  instructions : Nat
  /-- A number without a bound, as the one of executed instructions. -/
  unhandled : Nat

namespace Emulator

variable {ω : Type}

/-- An emulator with the given settings, no registered device, and the given
device state. -/
def create (config : Configuration) (devices : ω) :
    Except Configuration.Failure (Emulator ω) := do
  config.validate
  return {
    cpu := .reset config.defaultEntry config.stackTop
    bus := .ofRam (.zeroed config.ramBase config.ramSize.toNat) devices
    config
    translator? := none
    mode := .interpreted
    stopRequested := false
    instructions := 0
    unhandled := 0 }

/-- Resets the processor to start at an address, clears the counters, and drops
all translated code.  Memory and devices stay. -/
def reset (e : Emulator ω) (entry : Word) : Emulator ω :=
  { e with
    cpu := .reset entry e.config.stackTop
    instructions := 0
    unhandled := 0
    mode := .interpreted
    translator? := e.translator?.map (·.reset) }

/-- Copies an image into memory, at the default entry if no address is given, and
resets the processor to start there. -/
def loadImage (e : Emulator ω) (image : List Byte) (addr? : Option Word) :
    Except LoadError (Emulator ω) :=
  let addr := addr?.getD e.config.defaultEntry
  if image.isEmpty then
    .error .empty
  else
    match e.bus.ram.store? addr image with
    | some ram => .ok ({ e with bus := { e.bus with ram } }.reset addr)
    | none => .error (.outOfRange addr image.length e.bus.ram.base e.bus.ram.endAddress)

/-- Loads the image read from a file; {lit}`read` is its bytes or the reason why
there are none. -/
def loadRom (e : Emulator ω) (path : String) (read : Except String (List Byte))
    (addr? : Option Word) : Except RomError (Emulator ω) :=
  match read with
  | .error reason => .error (.unreadable path reason)
  | .ok image =>
    match e.loadImage image addr? with
    | .error cause => .error (.rejected path cause)
    | .ok e => .ok e

/-- Requests the current or next run to stop. -/
def requestStop (e : Emulator ω) : Emulator ω :=
  { e with stopRequested := true }

/-! ## Steps -/

/-- Interprets one instruction, whatever the mode.  After a fault the processor and
the counters are as before. -/
def step (e : Emulator ω) : Except Fault Outcome × Emulator ω :=
  match e.cpu.step e.bus with
  | .ok (outcome, cpu) bus =>
    let unhandled := match outcome with
      | .unhandled _ _ => e.unhandled + 1
      | _ => e.unhandled
    (.ok outcome, { e with cpu, bus, instructions := e.instructions + 1, unhandled })
  | .error fault bus => (.error fault, { e with bus })

/-- Interprets one instruction of a run; gives the address of a branch to
itself. -/
def stepInterpreted (e : Emulator ω) : Except RunError (Option Word) × Emulator ω :=
  match e.step with
  | (.ok (.selfLoop addr), e) => (.ok (some addr), e)
  | (.ok _, e) => (.ok none, e)
  | (.error fault, e) => (.error (.fault e.cpu.pc e.instructions fault.reason), e)

variable [Block.HelperTable]

/-- Translates a new region: the code at {lit}`pc` and every block there was. -/
def retranslate (e : Emulator ω) (pc : Word) : Except TranslateError Unit × Emulator ω :=
  let t := e.translator?.getD (.ofConfiguration e.config)
  match t.reset.translateRegion e.bus.ram (pc :: t.blockStarts) with
  | (.ok _, t) => (.ok (), { e with translator? := some t.finalize, mode := .translated })
  | (.error err, t) => (.error err, { e with translator? := some t })

/-- Runs the block at the program counter, if there is one; else interprets one
instruction. -/
def stepBlock (e : Emulator ω) : Except RunError (Option Word) × Emulator ω :=
  match e.translator? with
  | none => e.stepInterpreted
  | some t =>
    let pc := e.cpu.pc
    match t.execute pc e.cpu e.bus with
    | (.ok (some run), cpu, bus) =>
      (.ok run.selfLoop?,
        { e with
          cpu
          bus
          instructions := e.instructions + run.instructions
          unhandled := e.unhandled + run.unhandled })
    | (.ok none, cpu, bus) => { e with cpu, bus }.stepInterpreted
    | (.error err, cpu, bus) => (.error (.execute pc e.instructions err), { e with cpu, bus })

/-- Runs one block, translating a new region first if needed; code outside memory
is interpreted. -/
def stepTranslated (e : Emulator ω) : Except RunError (Option Word) × Emulator ω :=
  let pc := e.cpu.pc
  if e.bus.ram.contains pc 4 then
    if e.translator?.any (·.contains pc) then
      e.stepBlock
    else
      match e.retranslate pc with
      | (.ok (), e) => e.stepBlock
      | (.error err, e) => (.error (.translate pc e.instructions err), e)
  else
    e.stepInterpreted

/-- One step of a run in the configured mode. -/
def runStep (e : Emulator ω) : Except RunError (Option Word) × Emulator ω :=
  match e.config.mode with
  | .interpreted => e.stepInterpreted
  | .translated => e.stepTranslated

/-! ## Running -/

variable {ε : Type}

/-- Whether a run that started at a given count has reached the instruction
limit. -/
def limitReached (e : Emulator ω) (start : Nat) : Bool :=
  e.config.instructionLimit?.any fun limit => limit ≤ e.instructions - start

/-- Runs for at most {lit}`fuel` steps; none if that was not enough.  Before each
step a pending stop request is looked for and taken first, then the exit
condition, then the limit. -/
def runFor (exit : ExitCondition ε) (start : Nat) :
    Nat → ε → Emulator ω → Option (Except RunError StopReason × Emulator ω)
  | 0, _, _ => none
  | fuel + 1, state, e =>
    if e.stopRequested then
      some (.ok .stopRequested, { e with stopRequested := false })
    else
      let verdict := exit state e.cpu
      let e := if verdict.requestStop then e.requestStop else e
      if verdict.exit then
        some (.ok .exitCondition, e)
      else if e.limitReached start then
        some (.ok .budgetExhausted, e)
      else
        match e.runStep with
        | (.error err, e) => some (.error err, e)
        | (.ok (some addr), e) => some (.ok (.selfLoop addr), e)
        | (.ok none, e) => runFor exit start fuel verdict.next e

/-- The number of steps after which a run is given up: one more than the
instruction limit, since every step executes an instruction.  Without a limit it
is the range of a 64-bit counter. -/
def stepBound (e : Emulator ω) : Nat :=
  e.config.instructionLimit?.getD 0x10000000000000000 + 1

/-- Runs until the exit condition holds, a stop is requested, the instruction
limit is reached, or the program branches to itself. -/
def runUntil? (e : Emulator ω) (exit : ExitCondition ε) (state : ε) :
    Option (Except RunError RunSummary × Emulator ω) :=
  (runFor exit e.instructions e.stepBound state e).map fun (result, e') =>
    (result.map fun reason => ⟨reason, e'.instructions - e.instructions⟩, e')

/-- Runs without an exit condition. -/
def run? (e : Emulator ω) : Option (Except RunError RunSummary × Emulator ω) :=
  e.runUntil? (fun _ _ => ⟨false, false, ()⟩) ()

end Emulator

end ArmEmulator
