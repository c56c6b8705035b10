import ArmEmulator.Proofs.Emulator.Interpretation
import ArmEmulator.Proofs.Emulator.Reach
import ArmEmulator.Proofs.Guest.InPlace
import ArmEmulator.Proofs.Guest.Requests

/-!
# Faults of interpreted instructions

An interpreted step faults exactly when a device panics in its fetch or in one of its
accesses.  Then the accesses before that one stay done, and so does what the device
did before it gave up.  Nothing else has happened, even if the processor and the
counters are changed where they are.

Main results:

- Theorem {lit}`Bus.perform_eq_error_iff`: when a request faults and what it leaves.
- Theorem {lit}`Cpu.step_eq_error_iff`: when a step faults and what it leaves.
- Theorem {lit}`Emulator.stepInterpreted_atomic`: an interpreted step that faults
  leaves the processor and the counters as they were.
-/

namespace ArmEmulator

open Bus (Request Width)

variable {ω : Type}

/-! ## Requests that a device refuses -/

namespace Bus

variable {bus bus' : Bus ω} {fault : Fault}

/-- The device that answers the address of a request panics over it, and leaves the
devices in the state {lit}`devices`. -/
def Refuses (bus : Bus ω) (fault : Fault) (devices : ω) : Request ω → Prop
  | .read _ addr => ∃ region, bus.mmio.find? addr = some region ∧
      region.handler.read addr bus.devices = .error fault devices
  | .write width addr value => ∃ region, bus.mmio.find? addr = some region ∧
      region.handler.write addr (width.low value) bus.devices = .error fault devices
  | .register _ | .watch _ => False

theorem onDevices_eq_error_iff {α : Type} {access : Access ω α} :
    onDevices access bus = .error fault bus' ↔
      ∃ devices, access bus.devices = .error fault devices ∧ bus' = { bus with devices } := by
  unfold onDevices
  cases access bus.devices with
  | ok a devices => simp
  | error fault' devices => grind

theorem perform_read_eq_error_iff {width : Width} {addr : Word} :
    (Request.read width addr).perform bus = .error fault bus' ↔
      ∃ devices, bus.Refuses fault devices (.read width addr) ∧ bus' = { bus with devices } := by
  rw [perform_read_eq, place]
  cases hfind : bus.mmio.find? addr with
  | some region =>
      simp only [Refuses, hfind, Option.some.injEq, exists_eq_left', onDevices_eq_error_iff,
        ← bind_pure_comp, Access.bind_pure_eq_error_iff]
  | none =>
      refine iff_of_false ?_ (by simp [Refuses, hfind])
      cases bus.ram.offset? addr width.count <;> simp

/-- The watches are told of a write that succeeded only. -/
theorem perform_write_eq_error_iff {width : Width} {addr value : Word} :
    (Request.write width addr value).perform bus = .error fault bus' ↔
      ∃ devices, bus.Refuses fault devices (.write width addr value) ∧
        bus' = { bus with devices } := by
  have hput : (Request.write width addr value).perform bus = .error fault bus' ↔
      put width addr value bus = .error fault bus' := by
    rw [perform_write, Access.bind_eq_error_iff]
    refine or_iff_left ?_
    rintro ⟨_, between, -, h⟩
    cases h
  rw [hput, put_eq, place]
  cases hfind : bus.mmio.find? addr with
  | some region =>
      simp only [Refuses, hfind, Option.some.injEq, exists_eq_left', onDevices_eq_error_iff]
  | none =>
      refine iff_of_false ?_ (by simp [Refuses, hfind])
      cases bus.ram.offset? addr width.count <;> simp

/-- A request faults exactly when a device refuses it, and then changes nothing but the
state of the devices. -/
theorem perform_eq_error_iff (request : Request ω) :
    request.perform bus = .error fault bus' ↔
      ∃ devices, bus.Refuses fault devices request ∧ bus' = { bus with devices } := by
  cases request with
  | read width addr => exact perform_read_eq_error_iff
  | write width addr value => exact perform_write_eq_error_iff
  | register region =>
      refine iff_of_false ?_ (by simp [Refuses])
      rintro ⟨⟩
  | watch range =>
      refine iff_of_false ?_ (by simp [Refuses])
      rintro ⟨⟩

/-- Requests stop where the device at the address of one of them panics. -/
theorem stopsAt_iff_refuses {requests : List (Request ω)} {j : Nat} {request : Request ω} :
    StopsAt requests bus j request fault bus' ↔
      requests[j]? = some request ∧ ∃ answers between devices,
        (requests.take j).mapM Request.perform bus = .ok answers between ∧
        between.Refuses fault devices request ∧ bus' = { between with devices } := by
  constructor
  · rintro ⟨hasked, answers, between, hserved, hfault⟩
    obtain ⟨devices, hrefuses, rfl⟩ := (perform_eq_error_iff request).1 hfault
    exact ⟨hasked, answers, between, devices, hserved, hrefuses, rfl⟩
  · rintro ⟨hasked, answers, between, devices, hserved, hrefuses, rfl⟩
    exact ⟨hasked, answers, between, hserved,
      (perform_eq_error_iff request).2 ⟨devices, hrefuses, rfl⟩⟩

end Bus

/-! ## Faults of a step -/

/-- A device panics while the instruction at the program counter is fetched, or in one of
its accesses.  The accesses before that one are completed and leave the bus
{lit}`between`; the device that panics leaves the devices in the state {lit}`devices`. -/
inductive Cpu.Interrupted (cpu : Cpu) (bus : Bus ω) (fault : Fault) : Bus ω → ω → Prop
  | fetch {devices : ω} (hrefuses : bus.Refuses fault devices (.read .word cpu.pc)) :
      Interrupted cpu bus fault bus devices
  | access {word : Word} {fetched between : Bus ω} {k : Nat} {request : Request ω}
      {answers : List Word} {devices : ω} (hfetch : Bus.read32 cpu.pc bus = .ok word fetched)
      (hrequest : ((Instruction.decode word).requests cpu.pc cpu)[k]? = some request)
      (hserved : (((Instruction.decode word).requests cpu.pc cpu).take k).mapM Request.perform
        fetched = .ok answers between)
      (hrefuses : between.Refuses fault devices request) :
      Interrupted cpu bus fault between devices

/-- An instruction faults exactly when the requests before one of its requests are served
and a device refuses that one. -/
theorem Instruction.execute_eq_error_iff {i : Instruction} {addr word : Word} {cpu : Cpu}
    {bus bus' : Bus ω} {fault : Fault} :
    i.execute addr word cpu bus = .error fault bus' ↔
      ∃ (k : Nat) (request : Request ω) (answers : List Word) (between : Bus ω) (devices : ω),
        (i.requests addr cpu)[k]? = some request ∧
        ((i.requests addr cpu).take k).mapM Request.perform bus = .ok answers between ∧
        between.Refuses fault devices request ∧ bus' = { between with devices } := by
  simp only [execute_eq_error_iff_stopsAt, Bus.stopsAt_iff_refuses]
  constructor
  · rintro ⟨k, request, hrequest, answers, between, devices, hserved, hrefuses, rfl⟩
    exact ⟨k, request, answers, between, devices, hrequest, hserved, hrefuses, rfl⟩
  · rintro ⟨k, request, answers, between, devices, hrequest, hserved, hrefuses, rfl⟩
    exact ⟨k, request, hrequest, answers, between, devices, hserved, hrefuses, rfl⟩

/-- A step faults exactly when a device panics in it, and leaves the bus as the completed
accesses and that device left it. -/
theorem Cpu.step_eq_error_iff {cpu : Cpu} {bus bus' : Bus ω} {fault : Fault} :
    cpu.step bus = .error fault bus' ↔
      ∃ between devices, cpu.Interrupted bus fault between devices ∧
        bus' = { between with devices } := by
  rw [step, Access.bind_eq_error_iff]
  -- the fetch is a request as well: a read of the word at the program counter
  constructor
  · rintro (hfetch | ⟨word, fetched, hfetch, hexecute⟩)
    · obtain ⟨devices, hrefuses, rfl⟩ :=
        (Bus.perform_eq_error_iff (.read .word cpu.pc)).1 hfetch
      exact ⟨bus, devices, .fetch hrefuses, rfl⟩
    · obtain ⟨k, request, answers, between, devices, hrequest, hserved, hrefuses, rfl⟩ :=
        Instruction.execute_eq_error_iff.1 hexecute
      exact ⟨between, devices, .access hfetch hrequest hserved hrefuses, rfl⟩
  · rintro ⟨between, devices, hinterrupted, rfl⟩
    cases hinterrupted with
    | fetch hrefuses =>
        left
        exact (Bus.perform_eq_error_iff (.read .word cpu.pc)).2 ⟨devices, hrefuses, rfl⟩
    | access hfetch hrequest hserved hrefuses =>
        right
        exact ⟨_, _, hfetch, Instruction.execute_eq_error_iff.2
          ⟨_, _, _, between, devices, hrequest, hserved, hrefuses, rfl⟩⟩

/-! ## Interpreted steps in place -/

namespace Emulator

/-- Works on the processor and the bus of an emulator. -/
def onBoard {α : Type} (x : Access (Board ω) α) : Access (Emulator ω) α := fun e =>
  match x ⟨e.cpu, e.bus⟩ with
  | .ok a board => .ok a { e with cpu := board.cpu, bus := board.bus }
  | .error fault board => .error fault { e with cpu := board.cpu, bus := board.bus }

/-- A single step in place: the instruction, then the counters. -/
def stepInPlace : Access (Emulator ω) Outcome := do
  let outcome ← onBoard Board.step
  modify fun e => { e with instructions := e.instructions + 1 }
  match outcome with
  | .unhandled _ _ => modify fun e => { e with unhandled := e.unhandled + 1 }
  | _ => pure ()
  return outcome

/-- A single step of a run in place.  A panic is reported at the instruction that was to
be interpreted, with what the counter has come to. -/
def stepInterpretedInPlace (e : Emulator ω) : Except RunError (Option Word) × Emulator ω :=
  match e.stepInPlace with
  | .ok (.selfLoop addr) e' => (.ok (some addr), e')
  | .ok _ e' => (.ok none, e')
  | .error fault e' => (.error (.fault e.cpu.pc e'.instructions fault.reason), e')

/-- A step in place succeeds and fails as a step at once does, with the same emulator
behind it. -/
theorem stepInPlace_eq (e : Emulator ω) :
    stepInPlace e =
      match e.step with
      | (.ok outcome, e') => .ok outcome e'
      | (.error fault, e') => .error fault e' := by
  have hboard := Board.step_eq ⟨e.cpu, e.bus⟩
  rw [Board.atOnce_eq] at hboard
  cases h : e.cpu.step e.bus with
  | ok result bus =>
      obtain ⟨outcome, cpu⟩ := result
      have hon : onBoard Board.step e = .ok outcome { e with cpu, bus } := by
        rw [onBoard, hboard, h]
      rw [step_of_ok h, stepInPlace, Access.bind_of_eq_ok hon]
      cases outcome <;> rfl
  | error fault bus =>
      have hon : onBoard Board.step e = .error fault { e with bus } := by
        rw [onBoard, hboard, h]
      rw [step_of_error h]
      exact Access.bind_of_eq_error hon

theorem stepInterpretedInPlace_eq (e : Emulator ω) :
    e.stepInterpretedInPlace = e.stepInterpreted := by
  rw [stepInterpretedInPlace, stepInPlace_eq, stepInterpreted]
  cases h : e.cpu.step e.bus with
  | ok result bus =>
      rw [step_of_ok h]
      cases result.1 <;> rfl
  | error fault bus => rw [step_of_error h]

/-- An interpreted step fails exactly when a device panics while the instruction at the
program counter is fetched or in one of its accesses.  It reports that instruction, the
count of instructions and the text of the panic.  Registers, statuses and counters are
as before, and the bus is as the completed accesses left it, but for the state of the
devices, which is what the one that panicked left.  Changing everything in place comes
to the same. -/
theorem stepInterpreted_atomic (e : Emulator ω) :
    (∀ err e', e.stepInterpreted = (.error err, e') ↔
      ∃ fault between devices, e.cpu.Interrupted e.bus fault between devices ∧
        err = .fault e.cpu.pc e.instructions fault.reason ∧
        e' = { e with bus := { between with devices } }) ∧
      e.stepInterpretedInPlace = e.stepInterpreted := by
  refine ⟨fun err e' => ?_, e.stepInterpretedInPlace_eq⟩
  constructor
  · intro h
    cases hcpu : e.cpu.step e.bus with
    | ok result bus =>
        rw [stepInterpreted_of_step (step_of_ok hcpu)] at h
        cases h
    | error fault bus =>
        obtain ⟨between, devices, hinterrupted, rfl⟩ := Cpu.step_eq_error_iff.1 hcpu
        rw [stepInterpreted, step_of_error hcpu] at h
        cases h
        exact ⟨fault, between, devices, hinterrupted, rfl, rfl⟩
  · rintro ⟨fault, between, devices, hinterrupted, rfl, rfl⟩
    have hcpu := Cpu.step_eq_error_iff.2 ⟨between, devices, hinterrupted, rfl⟩
    rw [stepInterpreted, step_of_error hcpu]

/-- A program that loads two words, writes the base back, and finds a device that
refuses behind the first word. -/
def loadTwoAndFault : Emulator Unit :=
  { loaded [0xe8b00006] with
    cpu := (loaded []).cpu.setReg .r0 0x1ffc
    bus := (loaded [0xe8b00006]).bus.register
      ⟨"gate", ⟨0x2000, 0x2003⟩, 0, ⟨fun _ => throw ⟨"closed"⟩, fun _ _ => pure ()⟩⟩ }

theorem stepInterpreted_atomic_loadTwo :
    loadTwoAndFault.stepInterpreted = (.error (.fault 0 0 "closed"),
      { loadTwoAndFault with bus := loadTwoAndFault.bus.countUnmapped }) := by
  have hinterrupted : loadTwoAndFault.cpu.Interrupted loadTwoAndFault.bus ⟨"closed"⟩
      loadTwoAndFault.bus.countUnmapped () := by
    have hfetch : Bus.read32 loadTwoAndFault.cpu.pc loadTwoAndFault.bus =
        .ok 0xe8b00006 loadTwoAndFault.bus := rfl
    have hsecond : ((Instruction.decode 0xe8b00006).requests loadTwoAndFault.cpu.pc
        loadTwoAndFault.cpu)[1]? = some (.read .word 0x2000 : Request Unit) := rfl
    exact .access hfetch hsecond rfl ⟨_, rfl, rfl⟩
  exact ((stepInterpreted_atomic loadTwoAndFault).1 _ _).2
    ⟨_, _, _, hinterrupted, rfl, rfl⟩

end Emulator

end ArmEmulator
