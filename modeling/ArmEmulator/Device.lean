import ArmEmulator.Word

/-!
# Devices

A device answers reads and writes of the addresses it is registered for.  What
it does is a function on a state that all devices share, so that devices may
keep their own registers, record into a common log, or stand for a group of
other devices.  An access either succeeds or faults; both leave a state behind.

Main results:

- Theorem {lit}`Dispatcher.find?_register_of_not_contains`: registering a device
  changes nothing outside its range.
-/

namespace ArmEmulator

/-! ## Accesses that may fault -/

/-- The failure of a device, with the reason it gave. -/
structure Fault where
  reason : String
deriving DecidableEq

/-- The failure of a device that gave no reason. -/
def Fault.unexplained : Fault :=
  ⟨"panicked"⟩

/-- A computation on a state that succeeds or faults; what it did to the state
stays done either way. -/
abbrev Access (σ α : Type) := EStateM Fault σ α

/-- What a device does on a read and on a write, given the state of all
devices. -/
structure Handler (ω : Type) where
  read : Word → Access ω Word
  write : Word → Word → Access ω Unit

/-! ## Address ranges -/

/-- The addresses from {lit}`first` to {lit}`last`, both included; none when
they are the wrong way round. -/
structure AddressRange where
  first : Word
  last : Word
deriving DecidableEq

/-- Whether an address lies in the range. -/
def AddressRange.contains (range : AddressRange) (addr : Word) : Bool :=
  decide (range.first ≤ addr) && decide (addr ≤ range.last)

/-! ## Registered devices -/

/-- A device registered for a range of addresses. -/
structure Region (ω : Type) where
  name : String
  range : AddressRange
  priority : Int
  handler : Handler ω

/-- The registered devices, by descending priority and, among equals, in the
order of registration. -/
structure Dispatcher (ω : Type) where
  regions : List (Region ω)

namespace Dispatcher

variable {ω : Type}

/-- No device. -/
def empty : Dispatcher ω :=
  ⟨[]⟩

/-- Inserts a region behind all regions of equal or higher priority. -/
def insertRegion (region : Region ω) : List (Region ω) → List (Region ω)
  | [] => [region]
  | r :: rest =>
    if r.priority < region.priority then region :: r :: rest else r :: insertRegion region rest

/-- Registers a device. -/
def register (d : Dispatcher ω) (region : Region ω) : Dispatcher ω :=
  ⟨insertRegion region d.regions⟩

/-- The region that answers an address: the first whose range contains it. -/
def find? (d : Dispatcher ω) (addr : Word) : Option (Region ω) :=
  d.regions.find? (·.range.contains addr)

/-- Whether some device answers an address. -/
def claims (d : Dispatcher ω) (addr : Word) : Bool :=
  d.regions.any (·.range.contains addr)

/-- The name of the device that answers an address. -/
def owner? (d : Dispatcher ω) (addr : Word) : Option String :=
  (d.find? addr).map (·.name)

/-- Reads from the device that answers an address, if there is one. -/
def tryRead (d : Dispatcher ω) (addr : Word) : Access ω (Option Word) :=
  match d.find? addr with
  | some region => some <$> region.handler.read addr
  | none => pure none

/-- Writes to the device that answers an address; false if there is none. -/
def tryWrite (d : Dispatcher ω) (addr value : Word) : Access ω Bool :=
  match d.find? addr with
  | some region => do
    region.handler.write addr value
    return true
  | none => pure false

/-- The devices as one device: addresses that none of them answers read as zero
and drop writes. -/
def handler (d : Dispatcher ω) : Handler ω where
  read addr := do return (← d.tryRead addr).getD 0
  write addr value := do let _ ← d.tryWrite addr value

/-- The devices as one device read as zero where none of them answers. -/
theorem handler_read_of_find? {d : Dispatcher ω} {addr : Word} (h : d.find? addr = none) :
    d.handler.read addr = pure 0 := by
  have none : d.tryRead addr = pure none := by rw [tryRead, h]
  show (d.tryRead addr >>= fun value? => pure (value?.getD 0)) = pure 0
  rw [none]
  rfl

/-- The devices as one device drop a write where none of them answers. -/
theorem handler_write_of_find? {d : Dispatcher ω} {addr : Word} (h : d.find? addr = none)
    (value : Word) : d.handler.write addr value = pure () := by
  have none : d.tryWrite addr value = pure false := by rw [tryWrite, h]
  show (d.tryWrite addr value >>= fun _ => pure ()) = pure ()
  rw [none]
  rfl

theorem find?_insertRegion_of_not_contains {region : Region ω} {addr : Word}
    (h : region.range.contains addr = false) (regions : List (Region ω)) :
    (insertRegion region regions).find? (·.range.contains addr) =
      regions.find? (·.range.contains addr) := by
  induction regions with
  | nil => simp [insertRegion, h]
  | cons r rest ih =>
    unfold insertRegion
    split
    · rw [List.find?_cons_of_neg (by simp [h])]
    · rw [List.find?_cons, List.find?_cons, ih]

theorem find?_register_of_not_contains (d : Dispatcher ω) {region : Region ω} {addr : Word}
    (h : region.range.contains addr = false) :
    (d.register region).find? addr = d.find? addr :=
  find?_insertRegion_of_not_contains h d.regions

end Dispatcher

end ArmEmulator
