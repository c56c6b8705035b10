import ArmEmulator.Proofs.Guest.Execution

/-!
# Devices while instructions are executed

An instruction may change the state of devices, but it registers none, so an
address that no device answers stays so; and it does not move memory.  It faults only
where a device does.  Only branches can branch to themselves.

Main results:

- Theorem {lit}`Instruction.keeps_execute`: what no access changes is kept, as are the
  registered devices and the window of memory.
- Theorem {lit}`Instruction.exists_panic_of_execute`: the fault of an instruction is
  one of a device that it accessed.
- Theorem {lit}`Instruction.writesPc_of_selfLoop`: an instruction that branches to
  itself can move the program counter.
-/

namespace ArmEmulator

variable {ω : Type}

/-! ## Accesses -/

/-- Where a memory starts and the number of its bytes. -/
def Ram.window (ram : Ram) : Word × Nat :=
  (ram.base, ram.size)

/-- The offset of an access depends on the window only. -/
theorem Ram.offset?_congr {ram ram' : Ram} (h : ram.window = ram'.window) (addr : Word)
    (width : Nat) : ram.offset? addr width = ram'.offset? addr width := by
  obtain ⟨hbase, hsize⟩ := Prod.mk.inj h
  rw [offset?, offset?, hbase, hsize]

/-- Whether memory has the bytes of an access depends on its window only. -/
theorem Ram.contains_congr {ram ram' : Ram} (h : ram.window = ram'.window) (addr : Word)
    (width : Nat) : ram.contains addr width = ram'.contains addr width := by
  rw [contains, contains, offset?_congr h]

theorem Ram.window_putBytes (ram : Ram) (i : Nat) (bytes : List Byte) :
    (ram.putBytes i bytes).window = ram.window := by
  rw [window, base_putBytes, size_putBytes]
  rfl

namespace Bus

open Access (Keeps)

variable {τ : Type} {part : Bus ω → τ}

/-- A part of the bus that no access changes: an access may change the state of the
devices and the contents of memory, count itself, and tell the watches. -/
structure Settled (part : Bus ω → τ) : Prop where
  devices : ∀ (bus : Bus ω) (devices : ω), part { bus with devices } = part bus
  stored : ∀ (bus : Bus ω) (i : Nat) (bytes : List Byte),
    part { bus with ram := bus.ram.putBytes i bytes } = part bus
  counted : ∀ bus : Bus ω, part bus.countUnmapped = part bus
  notified : ∀ (bus : Bus ω) (addr value : Word), part (bus.notify addr value) = part bus

/-- No access registers a device. -/
theorem settled_mmio : Settled (mmio (ω := ω)) :=
  ⟨fun _ _ => rfl, fun _ _ _ => rfl, fun _ => rfl, fun _ _ _ => rfl⟩

/-- No access moves memory. -/
theorem settled_window : Settled fun bus : Bus ω => bus.ram.window where
  devices _ _ := rfl
  stored bus i bytes := bus.ram.window_putBytes i bytes
  counted _ := rfl
  notified _ _ _ := rfl

section Settled

variable (h : Settled part)
include h

/-- A device access changes the state of the devices only. -/
theorem keeps_onDevices {α : Type} (access : Access ω α) : Keeps part (onDevices access) := by
  intro bus
  unfold Access.after onDevices
  cases access bus.devices <;> exact h.devices bus _

theorem keeps_read32 (addr : Word) : Keeps part (read32 addr) := by
  intro bus
  unfold Access.after
  rw [read32_eq]
  cases bus.mmio.find? addr with
  | some region => exact keeps_onDevices h _ bus
  | none =>
      cases bus.ram.word? addr with
      | some value => rfl
      | none => exact h.counted bus

theorem keeps_read8 (addr : Word) : Keeps part (read8 addr) := by
  intro bus
  unfold Access.after
  rw [read8_eq]
  cases bus.mmio.find? addr with
  | some region => exact keeps_onDevices h _ bus
  | none =>
      cases bus.ram.byte? addr with
      | some value => rfl
      | none => exact h.counted bus

/-- Telling the watches leaves the rest of the bus alone. -/
theorem keeps_notify (addr value : Word) :
    Keeps part (modify (·.notify addr value) : Access (Bus ω) Unit) :=
  fun bus => h.notified bus addr value

theorem keeps_write32 (addr value : Word) : Keeps part (write32 addr value) := by
  refine Keeps.bind (fun bus => ?_) fun _ => keeps_notify h addr value
  unfold Access.after
  rw [putWord_eq, Ram.storeWord?, Ram.store?]
  cases bus.mmio.find? addr with
  | some region => exact keeps_onDevices h _ bus
  | none =>
      cases bus.ram.offset? addr value.bytes.length with
      | some i => exact h.stored bus i _
      | none => exact h.counted bus

theorem keeps_write8 (addr : Word) (value : Byte) : Keeps part (write8 addr value) := by
  refine Keeps.bind (fun bus => ?_) fun _ => keeps_notify h addr _
  unfold Access.after
  rw [putByte_eq, Ram.storeByte?, Ram.store?]
  cases bus.mmio.find? addr with
  | some region => exact keeps_onDevices h _ bus
  | none =>
      cases bus.ram.offset? addr [value].length with
      | some i => exact h.stored bus i _
      | none => exact h.counted bus

theorem keeps_readList (addr : Word) (list : List Reg) : Keeps part (readList addr list) := by
  induction list generalizing addr with
  | nil => exact Keeps.pure _ _
  | cons r rest ih =>
      exact (keeps_read32 h addr).bind fun value => (ih (addr + 4)).bind fun _ => Keeps.pure _ _

theorem keeps_writeList (value : Reg → Word) (addr : Word) (list : List Reg) :
    Keeps part (writeList value addr list) := by
  induction list generalizing addr with
  | nil => exact Keeps.pure _ _
  | cons r rest ih => exact (keeps_write32 h addr (value r)).bind fun _ => ih (addr + 4)

end Settled

end Bus

/-! ## Faults of devices -/

/-- A device that answers some address faults in an access and leaves {lit}`devices`. -/
def Dispatcher.Panics (mmio : Dispatcher ω) (fault : Fault) (devices : ω) : Prop :=
  ∃ addr region before, mmio.find? addr = some region ∧
    (region.handler.read addr before = .error fault devices ∨
      ∃ value, region.handler.write addr value before = .error fault devices)

namespace Bus

open Access (Keeps)

/-- Every fault of an access is one of a device. -/
def FaultsOnDevices {α : Type} (x : Access (Bus ω) α) : Prop :=
  ∀ bus fault bus', x bus = .error fault bus' → bus.mmio.Panics fault bus'.devices

namespace FaultsOnDevices

variable {α β : Type} {x : Access (Bus ω) α}

theorem pure (a : α) : FaultsOnDevices (pure a : Access (Bus ω) α) :=
  fun _ _ _ h => nomatch h

/-- The first part of a sequence leaves the registered devices to the second. -/
theorem bind {f : α → Access (Bus ω) β} (hx : FaultsOnDevices x) (hkeeps : Keeps mmio x)
    (hf : ∀ a, FaultsOnDevices (f a)) : FaultsOnDevices (x >>= f) := by
  intro bus fault bus' h
  rcases Access.bind_eq_error_iff.1 h with hfirst | ⟨a, between, hfirst, hsecond⟩
  · exact hx bus fault bus' hfirst
  · rw [← hkeeps.of_ok hfirst]
    exact hf a between fault bus' hsecond

theorem map (hx : FaultsOnDevices x) (g : α → β) : FaultsOnDevices (g <$> x) := by
  intro bus fault bus' h
  rw [← bind_pure_comp] at h
  exact hx bus fault bus' (Access.bind_pure_eq_error_iff.1 h)

end FaultsOnDevices

/-- A device access faults where the device does. -/
theorem error_of_onDevices {α : Type} {access : Access ω α} {bus bus' : Bus ω} {fault : Fault}
    (h : onDevices access bus = .error fault bus') :
    access bus.devices = .error fault bus'.devices := by
  unfold onDevices at h
  split at h
  · cases h
  · rename_i haccess
    cases h
    exact haccess

theorem faultsOnDevices_read32 (addr : Word) : FaultsOnDevices (read32 (ω := ω) addr) := by
  intro bus fault bus' h
  rw [read32_eq] at h
  split at h
  · rename_i region hfind
    exact ⟨addr, region, bus.devices, hfind, .inl (error_of_onDevices h)⟩
  · split at h <;> cases h

theorem faultsOnDevices_read8 (addr : Word) : FaultsOnDevices (read8 (ω := ω) addr) := by
  intro bus fault bus' h
  rw [read8_eq] at h
  split at h
  · rename_i region hfind
    have hread := error_of_onDevices h
    rw [← bind_pure_comp] at hread
    exact ⟨addr, region, bus.devices, hfind, .inl (Access.bind_pure_eq_error_iff.1 hread)⟩
  · split at h <;> cases h

theorem faultsOnDevices_write32 (addr value : Word) :
    FaultsOnDevices (write32 (ω := ω) addr value) := by
  intro bus fault bus' h
  rcases Access.bind_eq_error_iff.1 h with hput | ⟨_, _, _, hnotify⟩
  · rw [putWord_eq] at hput
    split at hput
    · rename_i region hfind
      exact ⟨addr, region, bus.devices, hfind, .inr ⟨value, error_of_onDevices hput⟩⟩
    · split at hput <;> cases hput
  · cases hnotify

theorem faultsOnDevices_write8 (addr : Word) (value : Byte) :
    FaultsOnDevices (write8 (ω := ω) addr value) := by
  intro bus fault bus' h
  rcases Access.bind_eq_error_iff.1 h with hput | ⟨_, _, _, hnotify⟩
  · rw [putByte_eq] at hput
    split at hput
    · rename_i region hfind
      exact ⟨addr, region, bus.devices, hfind, .inr ⟨_, error_of_onDevices hput⟩⟩
    · split at hput <;> cases hput
  · cases hnotify

theorem faultsOnDevices_readList (addr : Word) (list : List Reg) :
    FaultsOnDevices (readList (ω := ω) addr list) := by
  induction list generalizing addr with
  | nil => exact .pure _
  | cons r rest ih =>
      exact (faultsOnDevices_read32 addr).bind (keeps_read32 settled_mmio addr) fun value =>
        (ih (addr + 4)).bind (keeps_readList settled_mmio (addr + 4) rest) fun _ => .pure _

theorem faultsOnDevices_writeList (value : Reg → Word) (addr : Word) (list : List Reg) :
    FaultsOnDevices (writeList (ω := ω) value addr list) := by
  induction list generalizing addr with
  | nil => exact .pure _
  | cons r rest ih =>
      exact (faultsOnDevices_write32 addr (value r)).bind
        (keeps_write32 settled_mmio addr (value r)) fun _ => ih (addr + 4)

end Bus

/-! ## Instructions -/

open Access (Keeps)

open Bus (Settled settled_mmio)

section Settled

variable {τ : Type} {part : Bus ω → τ} (h : Settled part)
include h

theorem Transfer.keeps_execute (t : Transfer) (addr : Word) (cpu : Cpu) :
    Keeps part (t.execute addr cpu) := by
  unfold Transfer.execute
  dsimp only
  split
  · split
    · exact ((Bus.keeps_read8 h _).map _).bind fun _ => Keeps.pure _ _
    · exact (Bus.keeps_read32 h _).bind fun _ => Keeps.pure _ _
  · split
    · exact (Bus.keeps_write8 h _ _).bind fun _ => Keeps.pure _ _
    · exact (Bus.keeps_write32 h _ _).bind fun _ => Keeps.pure _ _

theorem MultiTransfer.keeps_execute (t : MultiTransfer) (addr : Word) (cpu : Cpu) :
    Keeps part (t.execute addr cpu) := by
  unfold MultiTransfer.execute
  dsimp only
  split
  · exact (Bus.keeps_readList h _ _).bind fun _ => Keeps.pure _ _
  · exact (Bus.keeps_writeList h _ _ _).bind fun _ => Keeps.pure _ _

/-- An instruction keeps what no access changes. -/
theorem Instruction.keeps_execute (i : Instruction) (addr word : Word) (cpu : Cpu) :
    Keeps part (i.execute addr word cpu) := by
  unfold execute
  split
  · split
    · exact Keeps.pure _ _
    · exact (Transfer.keeps_execute h _ addr cpu).bind fun _ => Keeps.pure _ _
    · exact (MultiTransfer.keeps_execute h _ addr cpu).bind fun _ => Keeps.pure _ _
    · exact Keeps.pure _ _
    · exact Keeps.pure _ _
    · exact Keeps.pure _ _
    · exact Keeps.pure _ _
  · exact Keeps.pure _ _

theorem Cpu.keeps_step (cpu : Cpu) : Keeps part cpu.step :=
  (Bus.keeps_read32 h cpu.pc).bind fun word => Instruction.keeps_execute h _ cpu.pc word cpu

end Settled

open Bus (FaultsOnDevices)

theorem Transfer.faultsOnDevices_execute (t : Transfer) (addr : Word) (cpu : Cpu) :
    FaultsOnDevices (ω := ω) (t.execute addr cpu) := by
  unfold Transfer.execute
  dsimp only
  split
  · split
    · exact ((Bus.faultsOnDevices_read8 _).map _).bind
        ((Bus.keeps_read8 settled_mmio _).map _) fun _ => .pure _
    · exact (Bus.faultsOnDevices_read32 _).bind (Bus.keeps_read32 settled_mmio _) fun _ => .pure _
  · split
    · exact (Bus.faultsOnDevices_write8 _ _).bind
        (Bus.keeps_write8 settled_mmio _ _) fun _ => .pure _
    · exact (Bus.faultsOnDevices_write32 _ _).bind
        (Bus.keeps_write32 settled_mmio _ _) fun _ => .pure _

theorem MultiTransfer.faultsOnDevices_execute (t : MultiTransfer) (addr : Word) (cpu : Cpu) :
    FaultsOnDevices (ω := ω) (t.execute addr cpu) := by
  unfold MultiTransfer.execute
  dsimp only
  split
  · exact (Bus.faultsOnDevices_readList _ _).bind
      (Bus.keeps_readList settled_mmio _ _) fun _ => .pure _
  · exact (Bus.faultsOnDevices_writeList _ _ _).bind
      (Bus.keeps_writeList settled_mmio _ _ _) fun _ => .pure _

namespace Instruction

theorem faultsOnDevices_execute (i : Instruction) (addr word : Word) (cpu : Cpu) :
    FaultsOnDevices (ω := ω) (i.execute addr word cpu) := by
  unfold execute
  split
  · split
    · exact .pure _
    · exact (Transfer.faultsOnDevices_execute _ addr cpu).bind
        (Transfer.keeps_execute settled_mmio _ addr cpu) fun _ => .pure _
    · exact (MultiTransfer.faultsOnDevices_execute _ addr cpu).bind
        (MultiTransfer.keeps_execute settled_mmio _ addr cpu) fun _ => .pure _
    · exact .pure _
    · exact .pure _
    · exact .pure _
    · exact .pure _
  · exact .pure _

/-- The registered devices are kept. -/
theorem mmio_of_execute {i : Instruction} {addr word : Word} {cpu cpu' : Cpu} {bus bus' : Bus ω}
    {outcome : Outcome} (h : i.execute addr word cpu bus = .ok (outcome, cpu') bus') :
    bus'.mmio = bus.mmio :=
  (keeps_execute settled_mmio i addr word cpu).of_ok h

/-- The fault of an instruction is that of a device that answered an access of it,
and nothing happened to the devices after it. -/
theorem exists_panic_of_execute {i : Instruction} {addr word : Word} {cpu : Cpu}
    {bus bus' : Bus ω} {fault : Fault} (h : i.execute addr word cpu bus = .error fault bus') :
    bus.mmio.Panics fault bus'.devices :=
  faultsOnDevices_execute i addr word cpu bus fault bus' h

/-- An instruction whose condition fails only moves on. -/
theorem execute_of_fails {i : Instruction} {cpu : Cpu} (h : i.cond.passes cpu.cpsr = false)
    (addr word : Word) (bus : Bus ω) :
    i.execute addr word cpu bus = .ok (.skipped, cpu.advance addr) bus := by
  unfold execute
  rw [h, if_neg Bool.false_ne_true]
  rfl

/-! ## Branches to themselves -/

/-- What an operation without a branch reports is no branch to itself. -/
theorem orUnhandled_ne_selfLoop (addr word : Word) (cpu : Cpu) (after? : Option Cpu)
    (target : Word) : (orUnhandled addr word cpu after?).1 ≠ .selfLoop target := by
  cases after? <;> exact nofun

/-- An instruction that branches to itself is a branch that is taken. -/
theorem exists_branch_of_selfLoop {i : Instruction} {addr word target : Word} {cpu cpu' : Cpu}
    {bus bus' : Bus ω} (h : i.execute addr word cpu bus = .ok (.selfLoop target, cpu') bus') :
    ∃ b, i.op = .branch b ∧ i.cond.passes cpu.cpsr = true ∧
      b.execute addr cpu = (.selfLoop target, cpu') ∧ bus' = bus := by
  obtain ⟨cond, op⟩ := i
  unfold execute at h
  split at h
  · rename_i hpasses
    cases op with
    | dataProcessing d =>
        obtain ⟨heq, -⟩ := Access.pure_eq_ok_iff.1 h
        exact absurd (congrArg Prod.fst heq) (orUnhandled_ne_selfLoop _ _ _ _ _)
    | transfer t =>
        obtain ⟨after, -, heq⟩ := Access.bind_pure_eq_ok_iff.1 h
        cases heq
    | multiTransfer t =>
        obtain ⟨after, -, heq⟩ := Access.bind_pure_eq_ok_iff.1 h
        cases heq
    | branch b =>
        obtain ⟨heq, rfl⟩ := Access.pure_eq_ok_iff.1 h
        exact ⟨b, rfl, hpasses, heq, rfl⟩
    | statusTransfer s =>
        obtain ⟨heq, -⟩ := Access.pure_eq_ok_iff.1 h
        exact absurd (congrArg Prod.fst heq) (orUnhandled_ne_selfLoop _ _ _ _ _)
    | coprocessor => cases (Access.pure_eq_ok_iff.1 h).1
    | unknown w =>
        obtain ⟨heq, -⟩ := Access.pure_eq_ok_iff.1 h
        exact absurd (congrArg Prod.fst heq) (orUnhandled_ne_selfLoop _ _ _ _ _)
  · cases (Access.pure_eq_ok_iff.1 h).1

/-- An instruction that branches to itself can move the program counter. -/
theorem writesPc_of_selfLoop {i : Instruction} {addr word target : Word} {cpu cpu' : Cpu}
    {bus bus' : Bus ω} (h : i.execute addr word cpu bus = .ok (.selfLoop target, cpu') bus') :
    i.writesPc = true := by
  obtain ⟨b, hb, -⟩ := exists_branch_of_selfLoop h
  rw [writesPc, hb]
  rfl

/-- After a branch to itself everything is as before. -/
theorem eq_of_selfLoop {i : Instruction} {word target : Word} {cpu cpu' : Cpu}
    {bus bus' : Bus ω} (h : i.execute cpu.pc word cpu bus = .ok (.selfLoop target, cpu') bus') :
    target = cpu.pc ∧ cpu' = cpu ∧ bus' = bus := by
  obtain ⟨b, -, -, hb, hbus⟩ := exists_branch_of_selfLoop h
  unfold Branch.execute at hb
  dsimp only at hb
  split at hb
  · rename_i htarget
    cases hb
    have hlink : b.link = false := by
      simpa using htarget.2
    rw [hlink, if_neg Bool.false_ne_true, htarget.1]
    exact ⟨rfl, Cpu.setPc_pc cpu, hbus⟩
  · cases hb

/-- The unconditional branch back by two words always branches to itself. -/
theorem execute_loop (addr word : Word) (cpu : Cpu) (bus : Bus ω) :
    (⟨.al, .branch ⟨false, .offset (-8)⟩⟩ : Instruction).execute addr word cpu bus =
      .ok (.selfLoop addr, cpu.setPc addr) bus := by
  have htarget : addr + 8 + -8 = addr := by
    rw [BitVec.add_assoc]
    exact BitVec.add_zero addr
  have hbranch : Branch.execute ⟨false, .offset (-8)⟩ addr cpu =
      (.selfLoop addr, cpu.setPc addr) := by
    unfold Branch.execute Branch.destination
    dsimp only
    rw [htarget]
    simp
  show (pure (Branch.execute ⟨false, .offset (-8)⟩ addr cpu) : Access (Bus ω) _) bus = _
  rw [hbranch]
  rfl

end Instruction

end ArmEmulator
