import ArmEmulator.Device
import ArmEmulator.Memory

/-!
# Bus

Everything the processor can address.  An access goes to the device that answers
its address, else to memory, else nowhere: then it is counted, and the devices as a
whole read as zero and drop writes.  Stores inside a watched range are queued for
the watcher.

Main results:

- Theorems {lit}`Bus.read32_eq`, {lit}`Bus.read8_eq`, {lit}`Bus.putWord_eq` and
  {lit}`Bus.putByte_eq`: where each access goes, and that nothing but the count
  changes where it goes nowhere.
-/

namespace ArmEmulator

/-! ## Watches -/

/-- A store that landed in a watched range. -/
structure StoreEvent where
  addr : Word
  value : Word
deriving DecidableEq

/-- A subscription to the stores in a range, with the events its watcher has not
taken yet, oldest first.  A closed watch takes no more events. -/
structure Watch where
  range : AddressRange
  isOpen : Bool
  pending : Array StoreEvent
deriving DecidableEq

/-- Queues an event, if the watch is open and its range contains the address. -/
def Watch.notify (watch : Watch) (event : StoreEvent) : Watch :=
  if watch.isOpen && watch.range.contains event.addr then
    { watch with pending := watch.pending.push event }
  else
    watch

/-! ## State of the bus -/

/-- Memory, devices with their state, watches, and the number of accesses that
went nowhere. -/
structure Bus (ω : Type) where
  ram : Ram
  mmio : Dispatcher ω
  devices : ω
  watches : Array Watch
  /-- A number without a bound, where the program counts in 64 bits: fewer than
  {lit}`2 ^ 64` accesses are made. -/
  unmapped : Nat

namespace Bus

variable {ω : Type}

/-- A bus with memory and no registered device. -/
def ofRam (ram : Ram) (devices : ω) : Bus ω where
  ram
  mmio := .empty
  devices
  watches := #[]
  unmapped := 0

/-- Registers a device. -/
def register (bus : Bus ω) (region : Region ω) : Bus ω :=
  { bus with mmio := bus.mmio.register region }

/-- Subscribes to the stores in a range; gives the number of the watch. -/
def watch (bus : Bus ω) (range : AddressRange) : Nat × Bus ω :=
  (bus.watches.size, { bus with watches := bus.watches.push ⟨range, true, #[]⟩ })

/-- Closes a watch; what it had queued is lost. -/
def unwatch (bus : Bus ω) (number : Nat) : Bus ω :=
  { bus with
    watches := bus.watches.modify number fun w => { w with isOpen := false, pending := #[] } }

/-- Takes the events an open watch has queued. -/
def takeEvents (bus : Bus ω) (number : Nat) : Option (Array StoreEvent) × Bus ω :=
  match bus.watches[number]? with
  | some w =>
    if w.isOpen then
      (some w.pending,
        { bus with watches := bus.watches.modify number fun w => { w with pending := #[] } })
    else
      (none, bus)
  | none => (none, bus)

/-- Tells every watch about a store. -/
def notify (bus : Bus ω) (addr value : Word) : Bus ω :=
  { bus with watches := bus.watches.map (·.notify ⟨addr, value⟩) }

/-- Counts an access that went nowhere. -/
def countUnmapped (bus : Bus ω) : Bus ω :=
  { bus with unmapped := bus.unmapped + 1 }

/-! ## Accesses -/

/-- Runs a device access on the device state of the bus. -/
def onDevices {α : Type} (access : Access ω α) : Access (Bus ω) α := fun bus =>
  match access bus.devices with
  | .ok a devices => .ok a { bus with devices }
  | .error fault devices => .error fault { bus with devices }

/-- A read that neither a device nor memory answers: it is counted, and left to the
devices as a whole. -/
def readUnmapped (addr : Word) : Access (Bus ω) Word := fun bus =>
  onDevices (bus.mmio.handler.read addr) bus.countUnmapped

/-- A write that neither a device nor memory takes: it is counted, and left to the
devices as a whole. -/
def writeUnmapped (addr value : Word) : Access (Bus ω) Unit := fun bus =>
  onDevices (bus.mmio.handler.write addr value) bus.countUnmapped

/-- Reads a word. -/
def read32 (addr : Word) : Access (Bus ω) Word := fun bus =>
  match bus.mmio.find? addr with
  | some region => onDevices (region.handler.read addr) bus
  | none =>
    match bus.ram.word? addr with
    | some value => .ok value bus
    | none => readUnmapped addr bus

/-- Reads a byte; a device gives the low byte of its answer. -/
def read8 (addr : Word) : Access (Bus ω) Byte := fun bus =>
  match bus.mmio.find? addr with
  | some region => onDevices ((·.setWidth 8) <$> region.handler.read addr) bus
  | none =>
    match bus.ram.byte? addr with
    | some value => .ok value bus
    | none => ((·.setWidth 8) <$> readUnmapped addr) bus

/-- Stores a word where its address leads. -/
def putWord (addr value : Word) : Access (Bus ω) Unit := fun bus =>
  match bus.mmio.find? addr with
  | some region => onDevices (region.handler.write addr value) bus
  | none =>
    match bus.ram.storeWord? addr value with
    | some ram => .ok () { bus with ram }
    | none => writeUnmapped addr value bus

/-- Stores a byte where its address leads; a device gets it as a word. -/
def putByte (addr : Word) (value : Byte) : Access (Bus ω) Unit := fun bus =>
  match bus.mmio.find? addr with
  | some region => onDevices (region.handler.write addr (value.setWidth 32)) bus
  | none =>
    match bus.ram.storeByte? addr value with
    | some ram => .ok () { bus with ram }
    | none => writeUnmapped addr (value.setWidth 32) bus

/-- Writes a word, then tells the watches. -/
def write32 (addr value : Word) : Access (Bus ω) Unit := do
  putWord addr value
  modify (·.notify addr value)

/-- Writes a byte, then tells the watches. -/
def write8 (addr : Word) (value : Byte) : Access (Bus ω) Unit := do
  putByte addr value
  modify (·.notify addr (value.setWidth 32))

/-! ## Where accesses go -/

section

variable {bus : Bus ω} {addr : Word}

/-- The devices as a whole read as zero where none of them answers. -/
theorem readUnmapped_of_find? (h : bus.mmio.find? addr = none) :
    readUnmapped addr bus = .ok 0 bus.countUnmapped := by
  rw [readUnmapped, Dispatcher.handler_read_of_find? h]
  rfl

/-- The devices as a whole drop a write where none of them answers. -/
theorem writeUnmapped_of_find? (h : bus.mmio.find? addr = none) (value : Word) :
    writeUnmapped addr value bus = .ok () bus.countUnmapped := by
  rw [writeUnmapped, Dispatcher.handler_write_of_find? h]
  rfl

end

theorem read32_eq (addr : Word) (bus : Bus ω) :
    read32 addr bus =
      match bus.mmio.find? addr with
      | some region => onDevices (region.handler.read addr) bus
      | none =>
        match bus.ram.word? addr with
        | some value => .ok value bus
        | none => .ok 0 bus.countUnmapped := by
  unfold read32
  cases h : bus.mmio.find? addr with
  | some region => rfl
  | none => rw [readUnmapped_of_find? h]

theorem read8_eq (addr : Word) (bus : Bus ω) :
    read8 addr bus =
      match bus.mmio.find? addr with
      | some region => onDevices ((·.setWidth 8) <$> region.handler.read addr) bus
      | none =>
        match bus.ram.byte? addr with
        | some value => .ok value bus
        | none => .ok 0 bus.countUnmapped := by
  unfold read8
  cases h : bus.mmio.find? addr with
  | some region => rfl
  | none =>
    cases bus.ram.byte? addr with
    | some value => rfl
    | none =>
      show EStateM.map _ _ _ = _
      rw [EStateM.map, readUnmapped_of_find? h]
      rfl

theorem putWord_eq (addr value : Word) (bus : Bus ω) :
    putWord addr value bus =
      match bus.mmio.find? addr with
      | some region => onDevices (region.handler.write addr value) bus
      | none =>
        match bus.ram.storeWord? addr value with
        | some ram => .ok () { bus with ram }
        | none => .ok () bus.countUnmapped := by
  unfold putWord
  cases h : bus.mmio.find? addr with
  | some region => rfl
  | none => rw [writeUnmapped_of_find? h]

theorem putByte_eq (addr : Word) (value : Byte) (bus : Bus ω) :
    putByte addr value bus =
      match bus.mmio.find? addr with
      | some region => onDevices (region.handler.write addr (value.setWidth 32)) bus
      | none =>
        match bus.ram.storeByte? addr value with
        | some ram => .ok () { bus with ram }
        | none => .ok () bus.countUnmapped := by
  unfold putByte
  cases h : bus.mmio.find? addr with
  | some region => rfl
  | none => rw [writeUnmapped_of_find? h]

theorem read32_of_find? {bus : Bus ω} {addr : Word} {region : Region ω}
    (h : bus.mmio.find? addr = some region) :
    read32 addr bus = onDevices (region.handler.read addr) bus := by
  simp [read32_eq, h]

theorem read32_of_word? {bus : Bus ω} {addr value : Word} (h : bus.mmio.find? addr = none)
    (hw : bus.ram.word? addr = some value) : read32 addr bus = .ok value bus := by
  simp [read32_eq, h, hw]

theorem read32_of_unmapped {bus : Bus ω} {addr : Word} (h : bus.mmio.find? addr = none)
    (hw : bus.ram.word? addr = none) : read32 addr bus = .ok 0 bus.countUnmapped := by
  simp [read32_eq, h, hw]

end Bus

end ArmEmulator
