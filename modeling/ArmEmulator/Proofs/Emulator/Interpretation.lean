import ArmEmulator.Proofs.Emulator.Steps
import ArmEmulator.Proofs.Guest.Devices

/-!
# Interpreting a block

Single steps over the words of a block do what executing its instructions one
after another does, as long as every word is found in memory when its turn comes.

Main results:

- Theorem {lit}`Emulator.stepN_of_executeAll`: the steps over a block whose
  instructions all succeed.
-/

namespace ArmEmulator

open Block (Fetched Closes executeAll unhandledCount)

variable {ω : Type}

/-- Instructions keep what no access changes. -/
theorem Block.keeps_executeAll {τ : Type} {part : Bus ω → τ} (h : Bus.Settled part)
    (instrs : List Fetched) (cpu : Cpu) : Access.Keeps part (executeAll instrs cpu) := by
  induction instrs generalizing cpu with
  | nil => exact .pure _ _
  | cons f fs ih =>
      refine (Instruction.keeps_execute h (.decode f.word) f.addr f.word cpu).bind ?_
      intro result
      exact (ih result.2).bind fun _ => .pure _ _

namespace Emulator

/-! ## Single steps -/

/-- The emulator after a number of single steps. -/
def stepN : Nat → Emulator ω → Emulator ω
  | 0, e => e
  | n + 1, e => stepN n e.step.2

theorem stepN_add (m n : Nat) (e : Emulator ω) : e.stepN (m + n) = (e.stepN m).stepN n := by
  induction m generalizing e with
  | zero => rw [Nat.zero_add, stepN]
  | succ m ih => rw [Nat.succ_add, stepN, stepN, ih]

/-- The last of some steps is a step after the others. -/
theorem stepN_succ (n : Nat) (e : Emulator ω) : e.stepN (n + 1) = (e.stepN n).step.2 :=
  stepN_add n 1 e

/-- The counters add up. -/
theorem ran_ran (e : Emulator ω) (cpu cpu' : Cpu) (bus bus' : Bus ω) (n n' u u' : Nat) :
    (e.ran cpu bus n u).ran cpu' bus' n' u' = e.ran cpu' bus' (n + n') (u + u') := by
  unfold ran
  dsimp only
  rw [Nat.add_assoc, Nat.add_assoc]

theorem step_of_ok {e : Emulator ω} {cpu : Cpu} {bus : Bus ω} {outcome : Outcome}
    (h : e.cpu.step e.bus = .ok (outcome, cpu) bus) :
    e.step = (.ok outcome, e.ran cpu bus 1 (unhandledCount outcome)) := by
  unfold step
  rw [h]
  cases outcome <;> rfl

theorem step_of_error {e : Emulator ω} {bus : Bus ω} {fault : Fault}
    (h : e.cpu.step e.bus = .error fault bus) : e.step = (.error fault, { e with bus }) := by
  unfold step
  rw [h]

/-- A step faults exactly when the processor does, and keeps all but the bus. -/
theorem step_eq_error_iff {e : Emulator ω} {bus : Bus ω} {fault : Fault} :
    e.step = (.error fault, { e with bus }) ↔ e.cpu.step e.bus = .error fault bus := by
  constructor
  · intro h
    cases hcpu : e.cpu.step e.bus with
    | ok result bus' =>
        rw [step_of_ok hcpu] at h
        cases h
    | error fault' bus' =>
        rw [step_of_error hcpu] at h
        obtain ⟨hfault, he⟩ := Prod.mk.inj h
        rw [Except.error.inj hfault, show bus' = bus from congrArg Emulator.bus he]
  · exact step_of_error

/-- A step keeps what no access changes. -/
theorem kept_step {τ : Type} {part : Bus ω → τ} (hpart : Bus.Settled part) (e : Emulator ω) :
    part e.step.2.bus = part e.bus := by
  cases h : e.cpu.step e.bus with
  | ok result bus =>
      rw [step_of_ok h]
      exact (Cpu.keeps_step hpart e.cpu).of_ok h
  | error fault bus =>
      rw [step_of_error h]
      exact (Cpu.keeps_step hpart e.cpu).of_error h

/-- A step registers no device. -/
theorem mmio_step (e : Emulator ω) : e.step.2.bus.mmio = e.bus.mmio :=
  kept_step Bus.settled_mmio e

theorem mmio_stepN (n : Nat) (e : Emulator ω) : (e.stepN n).bus.mmio = e.bus.mmio := by
  induction n with
  | zero => rfl
  | succ n ih => rw [stepN_succ, mmio_step, ih]

/-- A step that succeeds is one of the processor. -/
theorem cpu_step_of_step {e e' : Emulator ω} {outcome : Outcome} (h : e.step = (.ok outcome, e')) :
    e.cpu.step e.bus = .ok (outcome, e'.cpu) e'.bus := by
  cases hcpu : e.cpu.step e.bus with
  | ok result bus =>
      rw [step_of_ok hcpu] at h
      cases h
      rfl
  | error fault bus =>
      rw [step_of_error hcpu] at h
      cases h

/-- A step that succeeds counts one instruction. -/
theorem instructions_of_step {e e' : Emulator ω} {outcome : Outcome}
    (h : e.step = (.ok outcome, e')) : e'.instructions = e.instructions + 1 := by
  rw [step_of_ok (cpu_step_of_step h)] at h
  exact (congrArg (fun result => result.2.instructions) h).symm

/-- The address of a branch to itself. -/
def loopTarget? : Outcome → Option Word
  | .selfLoop addr => some addr
  | _ => none

theorem loopTarget?_eq_some_iff {outcome : Outcome} {addr : Word} :
    loopTarget? outcome = some addr ↔ outcome = .selfLoop addr := by
  cases outcome <;> simp [loopTarget?]

theorem ne_selfLoop_of_loopTarget? {outcome : Outcome} (h : loopTarget? outcome = none)
    (addr : Word) : outcome ≠ .selfLoop addr := by
  rintro rfl
  cases h

theorem stepInterpreted_of_step {e e' : Emulator ω} {outcome : Outcome}
    (h : e.step = (.ok outcome, e')) : e.stepInterpreted = (.ok (loopTarget? outcome), e') := by
  unfold stepInterpreted
  rw [h]
  cases outcome <;> rfl

/-- An interpreted step that succeeds is a single step, and tells of a branch to
itself. -/
theorem stepInterpreted_eq_ok_iff {e e' : Emulator ω} {halted : Option Word} :
    e.stepInterpreted = (.ok halted, e') ↔
      ∃ outcome, e.step = (.ok outcome, e') ∧ loopTarget? outcome = halted := by
  constructor
  · intro h
    cases hstep : e.step with
    | mk result after =>
        rcases result with fault | outcome
        · unfold stepInterpreted at h
          rw [hstep] at h
          cases h
        · rw [stepInterpreted_of_step hstep] at h
          cases h
          exact ⟨outcome, rfl, rfl⟩
  · rintro ⟨outcome, hstep, rfl⟩
    exact stepInterpreted_of_step hstep

theorem config_stepN (n : Nat) (e : Emulator ω) : (e.stepN n).config = e.config := by
  induction n with
  | zero => rfl
  | succ n ih => rw [stepN_succ, (step_config_translator? _).1, ih]

/-- The emulator configured for another mode. -/
def withMode (e : Emulator ω) (mode : ExecMode) : Emulator ω :=
  { e with config := { e.config with mode } }

/-- A step does not look at the mode. -/
theorem step_withMode (e : Emulator ω) (mode : ExecMode) :
    (e.withMode mode).step = (e.step.1, e.step.2.withMode mode) := by
  cases h : e.cpu.step e.bus with
  | ok result bus =>
      have h' : (e.withMode mode).cpu.step (e.withMode mode).bus = .ok result bus := h
      rw [step_of_ok h, step_of_ok h']
      rfl
  | error fault bus =>
      have h' : (e.withMode mode).cpu.step (e.withMode mode).bus = .error fault bus := h
      rw [step_of_error h, step_of_error h']
      rfl

theorem stepN_withMode (n : Nat) (e : Emulator ω) (mode : ExecMode) :
    (e.withMode mode).stepN n = (e.stepN n).withMode mode := by
  induction n with
  | zero => rfl
  | succ n ih => rw [stepN_succ, ih, step_withMode, stepN_succ]

end Emulator

/-! ## Fetched instructions -/

/-- Where a word is found in memory, a step executes it. -/
theorem Cpu.step_of_word? {f : Fetched} {cpu : Cpu} {bus : Bus ω} (hpc : f.addr = cpu.pc)
    (hdevice : bus.mmio.find? f.addr = none) (hword : bus.ram.word? f.addr = some f.word) :
    cpu.step bus = f.execute cpu bus := by
  rw [hpc] at hdevice hword
  rw [Fetched.execute, hpc]
  exact Access.bind_of_eq_ok (Bus.read32_of_word? hdevice hword)

/-- A marked block ends with a branch to itself. -/
theorem outcome_of_loopMark? {f : Fetched} {target : Word}
    (hmark : Translator.loopMark? [f] = some target) {cpu cpu' : Cpu} {bus bus' : Bus ω}
    {outcome : Outcome} (h : f.execute cpu bus = .ok (outcome, cpu') bus') :
    outcome = .selfLoop target := by
  obtain ⟨hloop, rfl⟩ := Translator.selfLoopAt?_eq_some_iff.1
    (show selfLoopAt? f.addr (Instruction.decode f.word) = some target from hmark)
  rw [Fetched.execute, hloop, Instruction.execute_loop] at h
  cases h
  rfl

namespace Emulator

/-! ## Steps over a block -/

/-- Steps over the words of a block whose instructions all succeed lead to what they
leave, and if the block is marked the last step branches to itself. -/
theorem stepN_of_executeAll {instrs : List Fetched} {next? : Option Word}
    (hcloses : Closes instrs next?) {e : Emulator ω} (hfrom : Consecutive e.cpu.pc instrs)
    (hdevice : ∀ f ∈ instrs, e.bus.mmio.find? f.addr = none)
    (hintact : ∀ j f, instrs[j]? = some f → (e.stepN j).bus.ram.word? f.addr = some f.word)
    {count : Nat} {cpu : Cpu} {bus : Bus ω}
    (h : executeAll instrs e.cpu e.bus = .ok (count, cpu) bus) :
    e.stepN instrs.length = e.ran cpu bus instrs.length count ∧
      (∀ i, i < instrs.length → ∃ outcome, (e.stepN i).step.1 = .ok outcome) ∧
      ∀ target, Translator.loopMark? instrs = some target →
        (e.stepN (instrs.length - 1)).step.1 = .ok (.selfLoop target) := by
  induction instrs generalizing e count with
  | nil => cases hcloses
  | cons f fs ih =>
      obtain ⟨⟨outcome, after⟩, between, hf, h⟩ := Access.bind_eq_ok_iff.1 h
      obtain ⟨⟨tail, last⟩, hrest, heq⟩ := Access.bind_pure_eq_ok_iff.1 h
      cases heq
      have hfetch := Cpu.step_of_word? hfrom.1 (hdevice f (List.mem_cons_self ..))
        (hintact 0 f rfl)
      have hstep : e.step = (.ok outcome, e.ran after between 1 (unhandledCount outcome)) :=
        step_of_ok (hfetch.trans hf)
      cases fs with
      | nil =>
          obtain ⟨heq, rfl⟩ := Access.pure_eq_ok_iff.1 hrest
          cases heq
          refine ⟨?_, ?_, ?_⟩
          · show e.step.2 = _
            rw [hstep]
            rfl
          · intro i hi
            cases Nat.lt_one_iff.1 hi
            exact ⟨outcome, congrArg Prod.fst hstep⟩
          · intro target hmark
            rw [← outcome_of_loopMark? hmark hf]
            exact congrArg Prod.fst hstep
      | cons g fs =>
          obtain ⟨next, hnext⟩ : ∃ next, next = e.ran after between 1 (unhandledCount outcome) :=
            ⟨_, rfl⟩
          have hsucc : ∀ j, e.stepN (j + 1) = next.stepN j := by
            intro j
            rw [stepN, hstep, hnext]
          have hpc : next.cpu.pc = f.addr + 4 := by
            rw [hnext]
            exact Instruction.pc_of_execute hcloses.1 hf
          have hmmio : next.bus.mmio = e.bus.mmio := by
            rw [hnext]
            exact Instruction.mmio_of_execute hf
          have hfrom' : Consecutive next.cpu.pc (g :: fs) := by
            rw [hpc, hfrom.1]
            exact hfrom.2
          have hrest' : executeAll (g :: fs) next.cpu next.bus = .ok (tail, last) bus := by
            rw [hnext]
            exact hrest
          obtain ⟨hlast, hok, hloop⟩ := ih hcloses.2 hfrom'
            (fun k hk => hmmio ▸ hdevice k (List.mem_cons_of_mem f hk))
            (fun j k hk => hsucc j ▸ hintact (j + 1) k hk) hrest'
          refine ⟨?_, ?_, ?_⟩
          · rw [List.length_cons, hsucc, hlast, hnext, ran_ran, Nat.add_comm 1]
          · intro i hi
            cases i with
            | zero => exact ⟨outcome, congrArg Prod.fst hstep⟩
            | succ i =>
                rw [hsucc]
                exact hok i (Nat.lt_of_succ_lt_succ hi)
          · intro target hmark
            have hmark' : Translator.loopMark? (g :: fs) = some target := by
              rw [Translator.loopMark?, List.getLast?_cons_cons] at hmark
              exact hmark
            rw [show (f :: g :: fs).length - 1 = (g :: fs).length - 1 + 1 from rfl, hsucc]
            exact hloop target hmark'

end Emulator

end ArmEmulator
