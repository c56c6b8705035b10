import ArmEmulator.Bus
import ArmEmulator.Device.Bench
import ArmEmulator.Proofs.Access

/-!
# Where one access goes

Words and bytes are read and written by four functions that all follow one rule: an
access goes to the device that answers its address, else to memory if all its bytes
are there, else nowhere.  This file states the rule once for requests of either
width, and shows that each of the four functions follows it.

Main results:

- Theorem {lit}`Bus.effect_of_perform`: a request that succeeds is served at its place,
  and has no other effect.
- Theorem {lit}`Bus.exists_effect`: a request to devices that do not fault succeeds.
-/

namespace ArmEmulator

/-! ## Bytes of a word -/

/-- The byte of a word that memory holds at a distance from its address. -/
def Word.byte (w : Word) (k : Nat) : Byte :=
  w.extractLsb' (8 * k) 8

theorem getElem?_littleEndian (n value k : Nat) :
    (littleEndian n value)[k]? =
      if k < n then some (BitVec.ofNat 8 (value >>> (8 * k))) else none := by
  induction n generalizing value k with
  | zero => rfl
  | succ n ih =>
    cases k with
    | zero => simp [littleEndian]
    | succ k =>
      have shifted : value >>> (8 * (k + 1)) = (value / 256) >>> (8 * k) := by
        rw [show 8 * (k + 1) = 8 + 8 * k by omega, Nat.shiftRight_add,
          Nat.shiftRight_eq_div_pow value 8]
      simp [littleEndian, ih, shifted]

theorem ofNat_ofLittleEndian (bs : List Byte) (k : Nat) :
    BitVec.ofNat 8 (ofLittleEndian bs >>> (8 * k)) = bs.getD k 0 := by
  induction bs generalizing k with
  | nil => simp [ofLittleEndian]
  | cons b bs ih =>
    cases k with
    | zero =>
      apply BitVec.eq_of_toNat_eq
      have := b.isLt
      simp [ofLittleEndian]
      omega
    | succ k =>
      have rest : (b.toNat + 256 * ofLittleEndian bs) >>> 8 = ofLittleEndian bs := by
        have := b.isLt
        simp only [Nat.shiftRight_eq_div_pow]
        omega
      rw [ofLittleEndian, show 8 * (k + 1) = 8 + 8 * k by omega, Nat.shiftRight_add, rest, ih,
        List.getD_cons_succ]

namespace Word

theorem length_bytes (w : Word) : w.bytes.length = 4 :=
  length_littleEndian 4 w.toNat

/-- The bytes of a word in memory. -/
theorem getElem?_bytes (w : Word) (k : Nat) :
    w.bytes[k]? = if k < 4 then some (w.byte k) else none :=
  getElem?_littleEndian 4 w.toNat k

/-- A word that is read from memory has the bytes found there. -/
theorem byte_ofBytes (bs : List Byte) {k : Nat} (hk : k < 4) :
    (ofBytes bs).byte k = bs.getD k 0 := by
  rw [← ofNat_ofLittleEndian]
  apply BitVec.eq_of_getLsbD_eq
  intro i hi
  rw [byte, BitVec.getLsbD_extractLsb', ofBytes, BitVec.getLsbD_ofNat, BitVec.getLsbD_ofNat,
    Nat.testBit_shiftRight, decide_eq_true hi, decide_eq_true (by omega : 8 * k + i < 32),
    Bool.true_and]

/-- A byte that is read as a word is extended by zeros. -/
theorem ofBytes_singleton (b : Byte) : ofBytes [b] = b.setWidth 32 := by
  apply BitVec.eq_of_toNat_eq
  simp [ofBytes, ofLittleEndian]

end Word

/-- The bytes from an offset upwards, one by one. -/
theorem Ram.getD_bytesAt (ram : Ram) (i n k : Nat) (b : Byte) :
    (ram.bytesAt i n).getD k b = if k < n then ram.byteAt (i + k) else b := by
  induction n generalizing i k with
  | zero => simp [bytesAt]
  | succ n ih =>
    cases k with
    | zero => simp [bytesAt]
    | succ k =>
      rw [bytesAt, List.getD_cons_succ, ih, show i + 1 + k = i + (k + 1) by omega]
      simp

/-! ## Devices that do not fault -/

namespace Handler

/-- Every access to the device succeeds. -/
structure Succeeds {ω : Type} (handler : Handler ω) : Prop where
  read : ∀ addr devices, ∃ value devices', handler.read addr devices = .ok value devices'
  write : ∀ addr value devices, ∃ devices', handler.write addr value devices = .ok () devices'

theorem probe_succeeds (name : String) (tag : Word) : (probe name tag).Succeeds where
  read _ _ := ⟨_, _, rfl⟩
  write _ _ _ := ⟨_, rfl⟩

end Handler

namespace Bus

variable {ω : Type}

/-! ## Requests -/

/-- The width of an access. -/
inductive Width where
  | byte | word
deriving DecidableEq

namespace Width

/-- The number of bytes of an access. -/
def count : Width → Nat
  | byte => 1
  | word => 4

/-- The part of a word that an access transfers, extended by zeros. -/
def low : Width → Word → Word
  | byte, value => (value.setWidth 8).setWidth 32
  | word, value => value

/-- The bytes of an access that writes a word or its lowest byte. -/
def split : Width → Word → List Byte
  | byte, value => [value.setWidth 8]
  | word, value => value.bytes

theorem count_le (width : Width) : width.count ≤ 4 := by
  cases width <;> decide

@[simp]
theorem length_split (width : Width) (value : Word) : (width.split value).length = width.count := by
  cases width <;> simp [split, count, Word.length_bytes]

theorem getD_split (width : Width) (value : Word) (k : Nat) (b : Byte) :
    (width.split value).getD k b = if k < width.count then value.byte k else b := by
  cases width with
  | byte =>
    cases k with
    | zero => exact BitVec.setWidth_eq_extractLsb' (by decide : 8 ≤ 32)
    | succ k => simp [split, count]
  | word =>
    rw [List.getD_eq_getElem?_getD, split, Word.getElem?_bytes, count]
    split <;> rfl

/-- A value of a narrow access is extended by zeros. -/
theorem low_ofBytes {width : Width} {bs : List Byte} (h : bs.length = width.count) :
    width.low (Word.ofBytes bs) = Word.ofBytes bs := by
  cases width with
  | byte =>
    obtain ⟨b, rfl⟩ := List.length_eq_one_iff.1 h
    simp [low, Word.ofBytes_singleton]
  | word => rfl

end Width

/-- What can be asked of a bus: accesses, the registration of a device, and a watch on
stores.  A byte is written as the lowest of a word. -/
inductive Request (ω : Type) where
  | read (width : Width) (addr : Word)
  | write (width : Width) (addr value : Word)
  | register (region : Region ω)
  | watch (range : AddressRange)

namespace Request

/-- Serves a request.  The answer to a read of a byte is extended by zeros; the answer
to all but reads is zero. -/
def perform : Request ω → Access (Bus ω) Word
  | read .word addr => read32 addr
  | read .byte addr => (·.setWidth 32) <$> read8 addr
  | write .word addr value => do
    write32 addr value
    return 0
  | write .byte addr value => do
    write8 addr (value.setWidth 8)
    return 0
  | register region => do
    modify (·.register region)
    return 0
  | watch range => do
    modify fun bus => (bus.watch range).2
    return 0

/-- The address and the width of an access. -/
def access? : Request ω → Option (Word × Width)
  | read width addr | write width addr _ => some (addr, width)
  | register _ | watch _ => none

/-- The device that a request registers. -/
def region? : Request ω → Option (Region ω)
  | register region => some region
  | read .. | write .. | watch _ => none

end Request

/-! ## Places -/

/-- Where an access goes: to a device, to an offset in memory, or nowhere. -/
inductive Place (ω : Type) where
  | device (region : Region ω)
  | memory (offset : Nat)
  | nowhere

/-- Whether an access goes nowhere. -/
def Place.isNowhere : Place ω → Bool
  | nowhere => true
  | device _ | memory _ => false

/-- The byte that a request which goes to a place leaves at an offset in memory, if it
writes there. -/
def Request.stored? (request : Request ω) (place? : Option (Place ω)) (j : Nat) : Option Byte :=
  match request, place? with
  | write width _ value, some (.memory i) =>
    if i ≤ j ∧ j < i + width.count then some (value.byte (j - i)) else none
  | _, _ => none

/-- Where an access goes on a bus. -/
def place (bus : Bus ω) (addr : Word) (width : Width) : Place ω :=
  match bus.mmio.find? addr with
  | some region => .device region
  | none =>
    match bus.ram.offset? addr width.count with
    | some i => .memory i
    | none => .nowhere

/-- Where a request goes, if it is an access. -/
def placeOf? (bus : Bus ω) (request : Request ω) : Option (Place ω) :=
  request.access?.map fun (addr, width) => bus.place addr width

/-- The effect of a request that goes to a place: the answer and the bus behind it.  A
device is asked once, and changes only the state of the devices; memory changes in the
written bytes only; an access that goes nowhere is counted.  The watches are told of
every write, wherever it goes. -/
inductive Effect (bus : Bus ω) : Request ω → Option (Place ω) → Word → Bus ω → Prop where
  | readDevice {width : Width} {addr value : Word} {region : Region ω} {devices : ω}
      (h : region.handler.read addr bus.devices = .ok value devices) :
      Effect bus (.read width addr) (some (.device region)) (width.low value)
        { bus with devices }
  | writeDevice {width : Width} {addr value : Word} {region : Region ω} {devices : ω}
      (h : region.handler.write addr (width.low value) bus.devices = .ok () devices) :
      Effect bus (.write width addr value) (some (.device region)) 0
        (notify { bus with devices } addr (width.low value))
  | readMemory {width : Width} {addr answer : Word} {i : Nat}
      (hbytes : ∀ k < width.count, answer.byte k = bus.ram.byteAt (i + k))
      (hlow : width.low answer = answer) :
      Effect bus (.read width addr) (some (.memory i)) answer bus
  | writeMemory {width : Width} {addr value : Word} {i : Nat} {ram : Ram}
      (hbase : ram.base = bus.ram.base) (hsize : ram.size = bus.ram.size)
      (hbytes : ∀ j, ram.byteAt j =
        if i ≤ j ∧ j < i + width.count then value.byte (j - i) else bus.ram.byteAt j) :
      Effect bus (.write width addr value) (some (.memory i)) 0
        (notify { bus with ram } addr (width.low value))
  | readNowhere {width : Width} {addr : Word} :
      Effect bus (.read width addr) (some .nowhere) 0 bus.countUnmapped
  | writeNowhere {width : Width} {addr value : Word} :
      Effect bus (.write width addr value) (some .nowhere) 0
        (bus.countUnmapped.notify addr (width.low value))
  | register {region : Region ω} : Effect bus (.register region) none 0 (bus.register region)
  | watch {range : AddressRange} : Effect bus (.watch range) none 0 (bus.watch range).2

namespace Effect

variable {bus after : Bus ω} {request : Request ω} {place? : Option (Place ω)} {answer : Word}

/-- Devices are added by their registration only. -/
theorem mmio_eq (h : Effect bus request place? answer after) :
    after.mmio = (request.region?.map bus.mmio.register).getD bus.mmio := by
  cases h <;> rfl

/-- The window of memory stays where it is. -/
theorem window_eq (h : Effect bus request place? answer after) :
    after.ram.base = bus.ram.base ∧ after.ram.size = bus.ram.size := by
  cases h with
  | writeMemory hbase hsize => exact ⟨hbase, hsize⟩
  | _ => exact ⟨rfl, rfl⟩

/-- A byte of memory changes only by a write that goes to memory and covers it. -/
theorem byteAt_eq (h : Effect bus request place? answer after) (j : Nat) :
    after.ram.byteAt j = (request.stored? place? j).getD (bus.ram.byteAt j) := by
  cases h with
  | writeMemory _ _ hbytes =>
    refine (hbytes j).trans ?_
    dsimp only [Request.stored?]
    split <;> rfl
  | _ => rfl

/-- Only accesses that go nowhere are counted. -/
theorem unmapped_eq (h : Effect bus request place? answer after) :
    after.unmapped = bus.unmapped + (place?.any Place.isNowhere).toNat := by
  cases h <;> rfl

end Effect

/-! ## The four functions at their places -/

theorem onDevices_of_eq_ok {α : Type} {access : Access ω α} {bus : Bus ω} {a : α} {devices : ω}
    (h : access bus.devices = .ok a devices) :
    onDevices access bus = .ok a { bus with devices } := by
  rw [onDevices, h]

theorem map_onDevices {α β : Type} (f : α → β) (access : Access ω α) :
    f <$> onDevices access = onDevices (f <$> access) := by
  funext bus
  show EStateM.map f (onDevices access) bus = onDevices (EStateM.map f access) bus
  unfold EStateM.map onDevices
  dsimp only
  cases access bus.devices <;> rfl

section

variable (width : Width) (addr value : Word) (bus : Bus ω)

theorem perform_readByte_eq :
    (Request.read .byte addr).perform bus =
      match bus.mmio.find? addr with
      | some region => onDevices (Width.low .byte <$> region.handler.read addr) bus
      | none =>
        match bus.ram.byte? addr with
        | some value => .ok (value.setWidth 32) bus
        | none => .ok 0 bus.countUnmapped := by
  show EStateM.map _ _ _ = _
  rw [EStateM.map, read8_eq]
  cases bus.mmio.find? addr with
  | some region =>
    show ((·.setWidth 32) <$> onDevices ((·.setWidth 8) <$> region.handler.read addr)) bus = _
    rw [map_onDevices, Functor.map_map]
    rfl
  | none => cases bus.ram.byte? addr <;> rfl

/-- A read by its place.  A device answers with a word, of which a narrow access takes
the low part. -/
theorem perform_read_eq :
    (Request.read width addr).perform bus =
      match bus.place addr width with
      | .device region => onDevices (width.low <$> region.handler.read addr) bus
      | .memory i => .ok (Word.ofBytes (bus.ram.bytesAt i width.count)) bus
      | .nowhere => .ok 0 bus.countUnmapped := by
  cases width with
  | byte =>
    rw [perform_readByte_eq, place, Ram.byte?, Width.count]
    cases bus.mmio.find? addr with
    | some region => rfl
    | none =>
      cases bus.ram.offset? addr 1 with
      | some i => simp [Ram.bytesAt, Word.ofBytes_singleton]
      | none => rfl
  | word =>
    rw [Request.perform, read32_eq, place, Ram.word?, Ram.load?, Width.count]
    cases bus.mmio.find? addr with
    | some region =>
      show onDevices _ _ = onDevices (id <$> _) _
      rw [id_map]
    | none => cases bus.ram.offset? addr 4 <;> rfl

/-- Stores a value of either width where its address leads. -/
def put (width : Width) (addr value : Word) : Access (Bus ω) Unit :=
  match width with
  | .byte => putByte addr (value.setWidth 8)
  | .word => putWord addr value

/-- A store by its place.  A device gets the value extended by zeros. -/
theorem put_eq :
    put width addr value bus =
      match bus.place addr width with
      | .device region => onDevices (region.handler.write addr (width.low value)) bus
      | .memory i => .ok () { bus with ram := bus.ram.putBytes i (width.split value) }
      | .nowhere => .ok () bus.countUnmapped := by
  cases width with
  | byte =>
    rw [put, putByte_eq, place, Ram.storeByte?, Ram.store?, Width.count]
    cases bus.mmio.find? addr with
    | some region => rfl
    | none => cases bus.ram.offset? addr 1 <;> rfl
  | word =>
    rw [put, putWord_eq, place, Ram.storeWord?, Ram.store?, Word.length_bytes, Width.count]
    cases bus.mmio.find? addr with
    | some region => rfl
    | none => cases bus.ram.offset? addr 4 <;> rfl

/-- A write is a store, of which the watches are told. -/
theorem perform_write :
    (Request.write width addr value : Request ω).perform = do
      put width addr value
      modify (·.notify addr (width.low value))
      return 0 := by
  cases width <;> exact bind_assoc ..

end

/-! ## The effect of a request -/

section

variable {bus : Bus ω} {addr : Word} {width : Width}

theorem place_eq_device_iff {region : Region ω} :
    bus.place addr width = .device region ↔ bus.mmio.find? addr = some region := by
  unfold place
  cases bus.mmio.find? addr with
  | some answer => simp
  | none => cases bus.ram.offset? addr width.count <;> simp

theorem place_eq_memory_iff {i : Nat} :
    bus.place addr width = .memory i ↔
      bus.mmio.find? addr = none ∧ bus.ram.offset? addr width.count = some i := by
  unfold place
  cases bus.mmio.find? addr with
  | some answer => simp
  | none => cases bus.ram.offset? addr width.count <;> simp

theorem place_eq_nowhere_iff :
    bus.place addr width = .nowhere ↔
      bus.mmio.find? addr = none ∧ bus.ram.offset? addr width.count = none := by
  unfold place
  cases bus.mmio.find? addr with
  | some answer => simp
  | none => cases bus.ram.offset? addr width.count <;> simp

theorem perform_write_of_put {value : Word} {after : Bus ω}
    (h : put width addr value bus = .ok () after) :
    (Request.write width addr value).perform bus = .ok 0 (after.notify addr (width.low value)) := by
  rw [perform_write, Access.bind_of_eq_ok h]
  rfl

theorem exists_put_of_perform_write {value answer : Word} {after : Bus ω}
    (h : (Request.write width addr value).perform bus = .ok answer after) :
    ∃ between, put width addr value bus = .ok () between ∧ answer = 0 ∧
      after = between.notify addr (width.low value) := by
  rw [perform_write] at h
  obtain ⟨_, between, hput, hnotify⟩ := Access.bind_eq_ok_iff.1 h
  cases hnotify
  exact ⟨between, hput, rfl, rfl⟩

theorem exists_of_onDevices {α : Type} {access : Access ω α} {a : α} {after : Bus ω}
    (h : onDevices access bus = .ok a after) :
    ∃ devices, access bus.devices = .ok a devices ∧ after = { bus with devices } := by
  unfold onDevices at h
  split at h
  · rename_i b devices haccess
    cases h
    exact ⟨devices, haccess, rfl⟩
  · cases h

theorem effect_of_perform_read {answer : Word} {after : Bus ω}
    (h : (Request.read width addr).perform bus = .ok answer after) :
    Effect bus (.read width addr) (some (bus.place addr width)) answer after := by
  rw [perform_read_eq] at h
  cases hplace : bus.place addr width with
  | device region =>
    rw [hplace] at h
    obtain ⟨devices, hlow, rfl⟩ := exists_of_onDevices h
    rw [← bind_pure_comp] at hlow
    obtain ⟨value, hread, rfl⟩ := Access.bind_pure_eq_ok_iff.1 hlow
    exact .readDevice hread
  | memory i =>
    rw [hplace] at h
    cases h
    refine .readMemory ?_ (Width.low_ofBytes (by simp))
    intro k hk
    rw [Word.byte_ofBytes _ (Nat.lt_of_lt_of_le hk width.count_le), Ram.getD_bytesAt, if_pos hk]
  | nowhere =>
    rw [hplace] at h
    cases h
    exact .readNowhere

theorem effect_of_perform_write {value answer : Word} {after : Bus ω}
    (h : (Request.write width addr value).perform bus = .ok answer after) :
    Effect bus (.write width addr value) (some (bus.place addr width)) answer after := by
  obtain ⟨between, hput, rfl, rfl⟩ := exists_put_of_perform_write h
  rw [put_eq] at hput
  cases hplace : bus.place addr width with
  | device region =>
    rw [hplace] at hput
    obtain ⟨devices, hwrite, rfl⟩ := exists_of_onDevices hput
    exact .writeDevice hwrite
  | memory i =>
    rw [hplace] at hput
    cases hput
    refine .writeMemory (Ram.base_putBytes ..) (Ram.size_putBytes ..) ?_
    intro j
    rw [Ram.byteAt_putBytes, Width.getD_split]
    by_cases hj : i ≤ j
    · simp only [hj, true_and, if_true, Nat.sub_lt_iff_lt_add' hj]
    · simp only [hj, false_and, if_false]
  | nowhere =>
    rw [hplace] at hput
    cases hput
    exact .writeNowhere

/-- A request that succeeds has its effect and no other. -/
theorem effect_of_perform {request : Request ω} {answer : Word} {after : Bus ω}
    (h : request.perform bus = .ok answer after) :
    Effect bus request (bus.placeOf? request) answer after := by
  cases request with
  | read width addr => exact effect_of_perform_read h
  | write width addr value => exact effect_of_perform_write h
  | register region =>
    cases h
    exact .register
  | watch range =>
    cases h
    exact .watch

variable (hdevices : ∀ {addr region}, bus.mmio.find? addr = some region → region.handler.Succeeds)
include hdevices

theorem exists_perform_read (width : Width) (addr : Word) :
    ∃ answer after, (Request.read width addr).perform bus = .ok answer after := by
  rw [perform_read_eq]
  cases hplace : bus.place addr width with
  | device region =>
    obtain ⟨value, devices, hread⟩ :=
      (hdevices (place_eq_device_iff.1 hplace)).read addr bus.devices
    refine ⟨width.low value, { bus with devices }, onDevices_of_eq_ok ?_⟩
    rw [← bind_pure_comp, Access.bind_of_eq_ok hread]
    rfl
  | memory i => exact ⟨_, bus, rfl⟩
  | nowhere => exact ⟨0, bus.countUnmapped, rfl⟩

theorem exists_perform_write (width : Width) (addr value : Word) :
    ∃ answer after, (Request.write width addr value).perform bus = .ok answer after := by
  have hput := put_eq width addr value bus
  cases hplace : bus.place addr width with
  | device region =>
    obtain ⟨devices, hwrite⟩ :=
      (hdevices (place_eq_device_iff.1 hplace)).write addr (width.low value) bus.devices
    rw [hplace] at hput
    exact ⟨0, _, perform_write_of_put (hput.trans (onDevices_of_eq_ok hwrite))⟩
  | memory i =>
    rw [hplace] at hput
    exact ⟨0, _, perform_write_of_put hput⟩
  | nowhere =>
    rw [hplace] at hput
    exact ⟨0, _, perform_write_of_put hput⟩

/-- A request to devices that do not fault succeeds, with its effect and no other. -/
theorem exists_effect (request : Request ω) :
    ∃ answer after, request.perform bus = .ok answer after ∧
      Effect bus request (bus.placeOf? request) answer after := by
  obtain ⟨answer, after, h⟩ : ∃ answer after, request.perform bus = .ok answer after := by
    cases request with
    | read width addr => exact exists_perform_read hdevices width addr
    | write width addr value => exact exists_perform_write hdevices width addr value
    | register region => exact ⟨0, bus.register region, rfl⟩
    | watch range => exact ⟨0, (bus.watch range).2, rfl⟩
  exact ⟨answer, after, h, effect_of_perform h⟩

end

end Bus

end ArmEmulator
