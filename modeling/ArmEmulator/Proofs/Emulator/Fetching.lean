import ArmEmulator.Proofs.Emulator.LifeCycle
import ArmEmulator.Proofs.Emulator.Refinement

/-!
# Fetching in both modes

An interpreted step takes its instruction from the bus, where devices come before
memory.  A translated step takes its block from memory and asks no device for it; only
outside memory does it fetch as an interpreted one does.

Main results:

- Theorem {lit}`Emulator.fetches_of_claimed`: the words that either step executes at an
  address that a device answers, and the words that the blocks held are made of.
-/

namespace ArmEmulator

open Block (Fetched executeAll)

/-- A device that answers an address is asked for the word there. -/
theorem Bus.read32_of_claimed {ω : Type} {bus : Bus ω} {addr word : Word} {region : Region ω}
    {devices : ω} (hclaimed : bus.mmio.find? addr = some region)
    (hread : region.handler.read addr bus.devices = .ok word devices) :
    Bus.read32 addr bus = .ok word { bus with devices } := by
  rw [read32_of_find? hclaimed, onDevices, hread]

namespace Emulator

variable {ω : Type} {snapshot? : Option Ram} {e : Emulator ω}

/-! ## What a step executes -/

/-- A step that ended with {lit}`result` executed words one after another on a bus: it
succeeded with what they leave, or failed with the bus that the first fault leaves. -/
def Executes (e : Emulator ω) (instrs : List Fetched) (bus : Bus ω)
    (result : Except RunError (Option Word) × Emulator ω) : Prop :=
  match executeAll instrs e.cpu bus with
  | .ok (_, cpu) bus => result.1.isOk = true ∧ result.2.cpu = cpu ∧ result.2.bus = bus
  | .error _ bus => result.1.isOk = false ∧ result.2.bus = bus

/-- An interpreted step executes the word that the bus has at the program counter. -/
theorem executes_stepInterpreted {word : Word} {bus : Bus ω}
    (hfetch : Bus.read32 e.cpu.pc e.bus = .ok word bus) :
    e.Executes [⟨e.cpu.pc, word⟩] bus e.stepInterpreted := by
  have hstep : e.cpu.step e.bus = (⟨e.cpu.pc, word⟩ : Fetched).execute e.cpu bus :=
    Access.bind_of_eq_ok hfetch
  unfold Executes executeAll
  cases hword : (⟨e.cpu.pc, word⟩ : Fetched).execute e.cpu bus with
  | ok result bus' =>
    rw [hword] at hstep
    rw [Access.bind_of_eq_ok hword, stepInterpreted_of_step (step_of_ok hstep)]
    exact ⟨rfl, rfl, rfl⟩
  | error fault bus' =>
    rw [hword] at hstep
    rw [Access.bind_of_eq_error hword, stepInterpreted, step_of_error hstep]
    exact ⟨rfl, rfl⟩

variable [Block.HelperTable]

/-- A block that is held executes the words that it was translated from. -/
theorem executes_stepBlock {t : Translator} {ram : Ram} (hready : t.Ready ram)
    (hheld : t.contains e.cpu.pc = true) (mode : ExecMode) :
    e.Executes (fetchBlock ram t.maxBlockLength e.cpu.pc) e.bus
      (e.equipped t mode).stepBlock := by
  obtain ⟨block, hblock, -⟩ := hready.exists_faithful hheld
  unfold Executes
  cases hall : executeAll (fetchBlock ram t.maxBlockLength e.cpu.pc) e.cpu e.bus with
  | ok result bus =>
    rw [stepBlock_of_ok hready hblock mode hall]
    exact ⟨rfl, rfl, rfl⟩
  | error fault bus =>
    obtain ⟨addr, cpu, hrun⟩ := stepBlock_of_error hready hblock mode hall
    rw [hrun]
    exact ⟨rfl, rfl⟩

/-! ## Where the words come from -/

omit [Block.HelperTable] in
/-- A block starts with the word that memory has there. -/
theorem exists_fetchBlock_eq_cons {ram : Ram} {n : Nat} {addr : Word}
    (h : fetchBlock ram n addr ≠ []) :
    ∃ word rest, fetchBlock ram n addr = ⟨addr, word⟩ :: rest ∧ ram.word? addr = some word := by
  cases n with
  | zero => exact absurd rfl h
  | succ n =>
    cases hword : ram.word? addr with
    | none =>
      rw [fetchBlock, hword] at h
      exact absurd rfl h
    | some word =>
      rw [fetchBlock, hword]
      exact ⟨word, _, rfl, rfl⟩

/-- A translated step in memory executes a block of the memory that was translated, or
fails to translate it. -/
theorem executes_stepTranslated (h : e.Sound snapshot?) (hmode : e.config.mode = .translated)
    (hpc : e.bus.ram.contains e.cpu.pc 4 = true) :
    (∃ n cause, e.stepTranslated.1 = .error (.translate e.cpu.pc n cause)) ∨
      ∃ ram word rest, e.snapshotAfter snapshot? = some ram ∧
        ram.word? e.cpu.pc = some word ∧
        fetchBlock ram e.config.maxBlockLength e.cpu.pc = ⟨e.cpu.pc, word⟩ :: rest ∧
        e.Executes (⟨e.cpu.pc, word⟩ :: rest) e.bus e.stepTranslated := by
  cases stepTranslated_cases h with
  | outside hout => exact nomatch hout.symm.trans hpc
  | overflow t _ _ _ _ _ _ heq =>
    rw [heq]
    exact .inl ⟨_, _, rfl⟩
  | runs t mode ram _ _ hready hlimits hheld hprepared hsnapshot heq =>
    have hmax : t.maxBlockLength = e.config.maxBlockLength := hlimits.maxBlockLength_eq.symm
    obtain ⟨block, -, hfaithful⟩ := hready.exists_faithful hheld
    obtain ⟨word, rest, hinstrs, hword⟩ := exists_fetchBlock_eq_cons hfaithful.fetched
    have hexecutes := executes_stepBlock hready hheld mode
    rw [hinstrs, ← hprepared, ← heq] at hexecutes
    exact .inr ⟨ram, word, rest, hsnapshot hmode, hword, hmax ▸ hinstrs, hexecutes⟩

/-- Where a device answers the program counter with a word, an interpreted step executes
that word; so does a translated step outside memory, while in memory it executes a block
of the memory that was translated, unless it fails to translate it.  Every block held is
made of the words that memory had, whichever addresses devices answer. -/
theorem fetches_of_claimed (h : Reached snapshot? e) (hmode : e.config.mode = .translated) :
    (∀ region word devices, e.bus.mmio.find? e.cpu.pc = some region →
      region.handler.read e.cpu.pc e.bus.devices = .ok word devices →
        e.Executes [⟨e.cpu.pc, word⟩] { e.bus with devices } e.stepInterpreted ∧
        (e.bus.ram.contains e.cpu.pc 4 = false →
          e.Executes [⟨e.cpu.pc, word⟩] { e.bus with devices } e.stepTranslated) ∧
        (e.bus.ram.contains e.cpu.pc 4 = true →
          (∃ n cause, e.stepTranslated.1 = .error (.translate e.cpu.pc n cause)) ∨
            ∃ ram stored rest, e.snapshotAfter snapshot? = some ram ∧
              ram.word? e.cpu.pc = some stored ∧
              fetchBlock ram e.config.maxBlockLength e.cpu.pc = ⟨e.cpu.pc, stored⟩ :: rest ∧
              e.Executes (⟨e.cpu.pc, stored⟩ :: rest) e.bus e.stepTranslated)) ∧
      ∀ t start block, e.translator? = some t → t.blocks[start]? = some block →
        ∃ ram, snapshot? = some ram ∧
          block = Translator.blockOf start (fetchBlock ram e.config.maxBlockLength start)
            block.entryOffset := by
  have hs := h.sound
  constructor
  · intro region word devices hclaimed hread
    have hinterpreted := executes_stepInterpreted (Bus.read32_of_claimed hclaimed hread)
    refine ⟨hinterpreted, ?_, executes_stepTranslated hs hmode⟩
    intro hout
    cases stepTranslated_cases hs with
    | outside _ _ heq => rwa [heq]
    | overflow _ hneeds => exact nomatch hout.symm.trans (contains_of_needsRegion hneeds)
    | runs _ _ _ hpc => exact nomatch hout.symm.trans hpc
  · intro t start block ht hblock
    have hmax : t.maxBlockLength = e.config.maxBlockLength :=
      (hs.limits t ht).maxBlockLength_eq.symm
    have hheld : t.contains start = true := by
      rw [Translator.contains_eq_isSome, hblock]
      rfl
    obtain ⟨ram, hsnapshot, hready⟩ :=
      hs.exists_snapshot ht (Translator.size_pos_of_contains hheld)
    exact ⟨ram, hsnapshot, hmax ▸ (hready.faithful start block hblock).block_eq⟩

end Emulator

/-! ## A device over the first word of a program -/

namespace Emulator

attribute [local instance] Block.threeTable

/-- A device that reads as an instruction, over the first word in memory. -/
def shadow : Region Unit where
  name := "shadow"
  range := ⟨0, 3⟩
  priority := 0
  handler := ⟨fun _ => pure 0xe3a01007, fun _ _ => pure ()⟩

/-- The program of two words with its first word behind the device: memory sets the
first register there, the device the second one. -/
def shadowed : Emulator Unit :=
  { setAndLoop with bus := setAndLoop.bus.register shadow }

theorem reached_shadowed : Reached none shadowed :=
  reached_setAndLoop.edit setAndLoop.cpu shadowed.bus

theorem fetches_of_claimed_shadowed :
    shadowed.Executes [⟨0, 0xe3a01007⟩] shadowed.bus shadowed.stepInterpreted ∧
      ((∃ n cause, shadowed.stepTranslated.1 = .error (.translate 0 n cause)) ∨
        ∃ ram stored rest, shadowed.snapshotAfter none = some ram ∧ ram.word? 0 = some stored ∧
          fetchBlock ram 2 0 = ⟨0, stored⟩ :: rest ∧
          shadowed.Executes (⟨0, stored⟩ :: rest) shadowed.bus shadowed.stepTranslated) := by
  obtain ⟨hinterpreted, -, htranslated⟩ := (fetches_of_claimed reached_shadowed rfl).1 shadow
    0xe3a01007 () rfl rfl
  exact ⟨hinterpreted, htranslated (by decide)⟩

/-- The interpreted step executes the word of the device, the translated step that of
memory, in a block that contains the address of the device. -/
theorem steps_differ_shadowed :
    Reached none shadowed ∧ shadowed.bus.mmio.claims shadowed.cpu.pc = true ∧
      (∃ e', shadowed.stepInterpreted = (.ok none, e') ∧
        e'.cpu.reg .r0 = 0 ∧ e'.cpu.reg .r1 = 7) ∧
      ∃ e', shadowed.stepTranslated = (.ok (some 4), e') ∧
        e'.cpu.reg .r0 = 42 ∧ e'.cpu.reg .r1 = 0 ∧
        ∃ t, e'.translator? = some t ∧ t.contains shadowed.cpu.pc = true := by
  have hblock : shadowed.blockAtPc = [⟨0, 0xe3a0002a⟩, ⟨4, 0xeafffffe⟩] := by decide
  obtain ⟨cpu, hall, hfirst, hsecond⟩ : ∃ cpu,
      executeAll shadowed.blockAtPc shadowed.cpu shadowed.bus = .ok (0, cpu) shadowed.bus ∧
        cpu.reg .r0 = 42 ∧ cpu.reg .r1 = 0 := by
    rw [hblock]
    exact ⟨_, rfl, rfl, rfl⟩
  obtain ⟨t, hheld, htranslated⟩ := stepTranslated_of_fits reached_shadowed.sound (by decide)
    (by decide) fits_setAndLoop hall
  rw [hblock] at htranslated
  exact ⟨reached_shadowed, by decide, ⟨_, rfl, rfl, rfl⟩, _, htranslated, hfirst, hsecond, t, rfl,
    hheld⟩

end Emulator

end ArmEmulator
