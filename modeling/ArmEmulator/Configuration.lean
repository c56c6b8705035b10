import ArmEmulator.Text.Hex
import ArmEmulator.Word

/-!
# Configuration

How an emulator is set up.  Sizes are 64-bit words, and a sum or a difference of them
that overflows ends the program.  Validation rejects the settings that no emulator can
be built from, reporting the first that is wrong.
-/

namespace ArmEmulator

/-! ## Checked arithmetic -/

/-- An operation on 64-bit numbers whose result does not fit. -/
inductive Overflow where
  | sum
  | difference
deriving DecidableEq

/-- The text that the program ends with. -/
def Overflow.message : Overflow → String
  | sum => "attempt to add with overflow"
  | difference => "attempt to subtract with overflow"

/-- The sum of two numbers, unless it overflows. -/
def sum? (a b : BitVec 64) : Option (BitVec 64) :=
  if a.uaddOverflow b then none else some (a + b)

/-- The difference of two numbers, unless something is borrowed. -/
def difference? (a b : BitVec 64) : Option (BitVec 64) :=
  if a.usubOverflow b then none else some (a - b)

/-! ## Settings -/

/-- How guest code is run. -/
inductive ExecMode where
  | interpreted
  | translated
deriving DecidableEq

/-- The name of a mode. -/
def ExecMode.name : ExecMode → String
  | interpreted => "Interpreted"
  | translated => "Translated"

/-- The settings of an emulator. -/
structure Configuration where
  /-- The address of the first byte of memory. -/
  ramBase : Word
  ramSize : BitVec 64
  /-- The entry point of an image that is loaded without an address. -/
  defaultEntry : Word
  /-- The bytes kept free above the initial stack pointer. -/
  stackGuard : Word
  /-- The number of instructions after which a run ends. -/
  instructionLimit? : Option Nat
  mode : ExecMode
  codeCacheSize : Nat
  /-- The most instructions a translated block has. -/
  maxBlockLength : Nat
  /-- The most blocks a translated region has. -/
  regionBlockLimit : Nat
  /-- Whether executed instructions are logged. -/
  trace : Bool
deriving DecidableEq

namespace Configuration

/-- The settings where none are given. -/
def default : Configuration where
  ramBase := 0
  ramSize := 0x1000000
  defaultEntry := 0x8000
  stackGuard := 0x1000
  instructionLimit? := some 100000000
  mode := .interpreted
  codeCacheSize := 0x400000
  maxBlockLength := 64
  regionBlockLimit := 256
  trace := false

/-- One past the last byte of memory, unless the sum overflows. -/
def ramEnd? (c : Configuration) : Option (BitVec 64) :=
  sum? (c.ramBase.setWidth 64) c.ramSize

/-- The initial stack pointer: the low half of the end of memory less the guard, unless
one of the two operations overflows. -/
def stackTop? (c : Configuration) : Option Word := do
  let ramEnd ← c.ramEnd?
  let top ← difference? ramEnd (c.stackGuard.setWidth 64)
  return top.setWidth 32

/-- The initial stack pointer of an emulator.  Its settings are accepted ones, for which
nothing overflows. -/
def stackTop (c : Configuration) : Word :=
  c.stackTop?.getD 0

/-! ## Validation -/

/-- What is wrong with a configuration. -/
inductive Error where
  | emptyRam
  | ramOverflow (base : Word) (size : BitVec 64)
  | stackGuard (guard : Word) (size : BitVec 64)
  | codeCacheTooSmall (size : Nat)
  | zeroBlockLength
  | zeroRegionLimit
deriving DecidableEq

/-- The text of a configuration error. -/
def Error.message : Error → String
  | emptyRam => "ram size must be non-zero"
  | ramOverflow base size =>
    "ram at " ++ Hex.address base ++ " with size " ++ Hex.short size.toNat ++
      " runs past the end of the address space"
  | stackGuard guard size =>
    "stack guard of " ++ Hex.short guard.toNat ++ " bytes leaves no stack in " ++
      Hex.short size.toNat ++ " bytes of ram"
  | codeCacheTooSmall size =>
    "code cache of " ++ toString size ++ " bytes is too small to hold a block"
  | zeroBlockLength => "blocks must be allowed at least one instruction"
  | zeroRegionLimit => "regions must be allowed at least one block"

/-- Why settings are not accepted: they are wrong, or the program ends before it can
tell. -/
inductive Failure where
  | invalid (error : Error)
  | overflow (operation : Overflow)
deriving DecidableEq

/-- Goes on with the result of an operation, or ends the program. -/
def unlessOverflow (operation : Overflow) (result? : Option (BitVec 64)) :
    Except Failure (BitVec 64) :=
  match result? with
  | some result => .ok result
  | none => .error (.overflow operation)

/-- The least size of a code cache. -/
def minCodeCache : Nat := 4096

/-- Accepts the limits on translated code or reports the first that is wrong. -/
def validateLimits (c : Configuration) : Except Failure Unit :=
  if c.codeCacheSize < minCodeCache then
    .error (.invalid (.codeCacheTooSmall c.codeCacheSize))
  else if c.maxBlockLength = 0 then
    .error (.invalid .zeroBlockLength)
  else if c.regionBlockLimit = 0 then
    .error (.invalid .zeroRegionLimit)
  else
    .ok ()

/-- Accepts a configuration or reports what is wrong first. -/
def validate (c : Configuration) : Except Failure Unit :=
  if c.ramSize = 0 then
    .error (.invalid .emptyRam)
  else do
    let ramEnd ← unlessOverflow .sum c.ramEnd?
    if 0x100000000 < ramEnd then
      .error (.invalid (.ramOverflow c.ramBase c.ramSize))
    else if c.ramSize ≤ c.stackGuard.setWidth 64 then
      .error (.invalid (.stackGuard c.stackGuard c.ramSize))
    else do
      let top ← unlessOverflow .difference (difference? ramEnd (c.stackGuard.setWidth 64))
      if 0xffffffff < top then
        .error (.invalid (.stackGuard c.stackGuard c.ramSize))
      else
        c.validateLimits

end Configuration

end ArmEmulator
