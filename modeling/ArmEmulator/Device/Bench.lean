import Std.Data.TreeMap
import ArmEmulator.Device

/-!
# Bench devices

Simple devices for trying out guest programs: banks of registers that latch what
is written to them, probes that record every access into a common log, and
devices that fault on purpose.
-/

namespace ArmEmulator

/-! ## Register banks -/

/-- Registers that read as the last value written, else as their preset, else as
a default; every write is remembered, oldest first. -/
structure RegisterBank where
  values : Std.TreeMap Word Word
  default : Word
  writes : Array (Word × Word)

namespace RegisterBank

/-- A bank whose registers all read as {lit}`default`. -/
def ofDefault (default : Word) : RegisterBank where
  values := ∅
  default
  writes := #[]

/-- Presets one register. -/
def preset (bank : RegisterBank) (addr value : Word) : RegisterBank :=
  { bank with values := bank.values.insert addr value }

/-- The value a register reads as. -/
def read (bank : RegisterBank) (addr : Word) : Word :=
  bank.values.getD addr bank.default

/-- Latches and remembers a write. -/
def write (bank : RegisterBank) (addr value : Word) : RegisterBank :=
  { bank with
    values := bank.values.insert addr value
    writes := bank.writes.push (addr, value) }

end RegisterBank

/-! ## The state of a bench -/

/-- One access recorded by a probe. -/
inductive ProbeEntry where
  | read (probe : String) (addr : Word)
  | write (probe : String) (addr value : Word)
deriving DecidableEq

/-- The state of all bench devices: the register banks by number, each with its
name, and the log of the probes, oldest entry first. -/
structure Bench where
  banks : Array (String × RegisterBank)
  log : Array ProbeEntry

namespace Bench

/-- A bench without devices. -/
def empty : Bench where
  banks := #[]
  log := #[]

/-- Adds a register bank and gives its number. -/
def addBank (bench : Bench) (name : String) (bank : RegisterBank) : Nat × Bench :=
  (bench.banks.size, { bench with banks := bench.banks.push (name, bank) })

/-- Appends an entry to the log. -/
def record (bench : Bench) (entry : ProbeEntry) : Bench :=
  { bench with log := bench.log.push entry }

end Bench

/-! ## Handlers -/

namespace Handler

/-- The register bank of a given number. -/
def bank (number : Nat) : Handler Bench where
  read addr := do
    let bench ← get
    return bench.banks[number]?.elim 0 fun (_, bank) => bank.read addr
  write addr value := modify fun bench =>
    { bench with
      banks := bench.banks.modify number fun (name, bank) => (name, bank.write addr value) }

/-- A probe: it answers reads with its tag combined with the address, and
records every access. -/
def probe (name : String) (tag : Word) : Handler Bench where
  read addr := do
    modify (·.record (.read name addr))
    return tag ^^^ addr
  write addr value := modify (·.record (.write name addr value))

/-- A device that faults on the given kinds of access; where it does not fault it
reads as zero and drops writes. -/
def faulty (readFault? writeFault? : Option Fault) : Handler Bench where
  read _ := readFault?.elim (pure 0) throw
  write _ _ := writeFault?.elim (pure ()) throw

end Handler

end ArmEmulator
