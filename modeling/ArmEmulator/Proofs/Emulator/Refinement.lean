import ArmEmulator.Proofs.Emulator.Interpretation
import ArmEmulator.Proofs.Emulator.Reach

/-!
# Translated steps as single steps

A translated step that succeeds does what as many single steps do as it counts
instructions, provided that no device answers the addresses of its block and that
each word of the block is still in memory when its turn comes.

Main results:

- Theorem {lit}`Emulator.stepTranslated_refines`: processor, bus and counters after
  a translated step are those after the single steps.
-/

namespace ArmEmulator

open Block (Fetched executeAll)

namespace Emulator

variable {ω : Type} [Block.HelperTable] {snapshot? : Option Ram} {e e' : Emulator ω}
  {halted : Option Word}

/-- The words of the block that the next translated step runs, as they were
translated; none outside memory. -/
def blockAhead (snapshot? : Option Ram) (e : Emulator ω) : List Fetched :=
  if e.bus.ram.contains e.cpu.pc 4 then
    (e.snapshotAfter snapshot?).elim [] fun ram =>
      fetchBlock ram e.config.maxBlockLength e.cpu.pc
  else
    []

/-! ## Refinement -/

/-- The same processor, bus and counters. -/
structure SameGuest (e e' : Emulator ω) : Prop where
  cpu_eq : e.cpu = e'.cpu
  bus_eq : e.bus = e'.bus
  instructions_eq : e.instructions = e'.instructions
  unhandled_eq : e.unhandled = e'.unhandled

/-- A block that runs to its end does what single steps over its words do. -/
theorem refines_of_stepBlock {t : Translator} {mode : ExecMode} {ram : Ram}
    (hready : t.Ready ram) (hheld : t.contains e.cpu.pc = true)
    (hlength : t.maxBlockLength < 0x100000000) {instrs : List Fetched}
    (hinstrs : instrs = fetchBlock ram t.maxBlockLength e.cpu.pc)
    (hdevice : ∀ f ∈ instrs, e.bus.mmio.find? f.addr = none)
    (hintact : ∀ j f, instrs[j]? = some f → (e.stepN j).bus.ram.word? f.addr = some f.word)
    (hok : (e.equipped t mode).stepBlock = (.ok halted, e')) :
    e'.instructions = e.instructions + instrs.length ∧ 0 < instrs.length ∧
      e'.SameGuest (e.stepN instrs.length) ∧
      (∀ i, i < instrs.length → ∃ outcome, (e.stepN i).step.1 = .ok outcome) ∧
      ∀ target, halted = some target →
        (e.stepN (instrs.length - 1)).step.1 = .ok (.selfLoop target) := by
  obtain ⟨block, hblock, hfaithful⟩ := hready.exists_faithful hheld
  have hcount := hfaithful.instructionCount_eq hlength
  have hcloses := closes_fetchBlock hfaithful.fetched
  have hfrom := consecutive_fetchBlock ram t.maxBlockLength e.cpu.pc
  have hmark := hfaithful.selfLoop?_eq
  have hpos := List.length_pos_iff.2 hfaithful.fetched
  cases hall : executeAll (fetchBlock ram t.maxBlockLength e.cpu.pc) e.cpu e.bus with
  | error fault bus =>
      obtain ⟨addr, cpu, hrun⟩ := stepBlock_of_error hready hblock mode hall
      rw [hrun] at hok
      cases hok
  | ok result bus =>
      obtain ⟨count, cpu⟩ := result
      rw [stepBlock_of_ok hready hblock mode hall, hcount, hmark] at hok
      cases hok
      rw [← hinstrs] at hcloses hfrom hall hpos ⊢
      obtain ⟨hsteps, hsucceed, hloop⟩ := stepN_of_executeAll hcloses hfrom hdevice hintact hall
      refine ⟨rfl, hpos, ?_, hsucceed, hloop⟩
      rw [hsteps]
      exact ⟨rfl, rfl, rfl, rfl⟩

/-- A translated step that succeeds and counts {lit}`n` instructions does what
{lit}`n` single steps do, each of which succeeds; if it reports a branch to itself
the last of them does. -/
theorem stepTranslated_refines (h : Reached snapshot? e) (hmode : e.config.mode = .translated)
    (hlength : e.config.maxBlockLength < 0x100000000)
    (hdevice : ∀ f ∈ e.blockAhead snapshot?, e.bus.mmio.find? f.addr = none)
    (hintact : ∀ j f, (e.blockAhead snapshot?)[j]? = some f →
      (e.stepN j).bus.ram.word? f.addr = some f.word)
    (hok : e.stepTranslated = (.ok halted, e')) {n : Nat}
    (hn : e'.instructions = e.instructions + n) :
    0 < n ∧ e'.SameGuest (e.stepN n) ∧
      (∀ i, i < n → ∃ outcome, (e.stepN i).step.1 = .ok outcome) ∧
      ∀ target, halted = some target → (e.stepN (n - 1)).step.1 = .ok (.selfLoop target) := by
  cases stepTranslated_cases h.sound with
  | outside hpc hneeds heq =>
      obtain ⟨outcome, hstep, rfl⟩ := stepInterpreted_eq_ok_iff.1 (heq.symm.trans hok)
      have hone : n = 1 := by
        rw [instructions_of_step hstep] at hn
        exact (Nat.add_left_cancel hn).symm
      subst hone
      have hafter : e.stepN 1 = e' := congrArg Prod.snd hstep
      refine ⟨Nat.one_pos, ?_, ?_, ?_⟩
      · rw [hafter]
        exact ⟨rfl, rfl, rfl, rfl⟩
      · intro i hi
        cases Nat.lt_one_iff.1 hi
        exact ⟨outcome, congrArg Prod.fst hstep⟩
      · intro target ht
        rw [← loopTarget?_eq_some_iff.1 ht]
        exact congrArg Prod.fst hstep
  | overflow t hneeds hover hidle hlimits hprepared hsnapshot heq =>
      rw [heq] at hok
      cases hok
  | runs t mode ram hpc hfits hready hlimits hheld hprepared hsnapshot heq =>
      have hmax : t.maxBlockLength = e.config.maxBlockLength := hlimits.maxBlockLength_eq.symm
      have hahead : e.blockAhead snapshot? = fetchBlock ram t.maxBlockLength e.cpu.pc := by
        rw [blockAhead, hpc, if_pos rfl, hsnapshot hmode, hmax]
        rfl
      rw [heq, hprepared] at hok
      obtain ⟨hcount, hrefines⟩ := refines_of_stepBlock hready hheld (hmax ▸ hlength) hahead
        hdevice hintact hok
      have hlen : n = (e.blockAhead snapshot?).length :=
        Nat.add_left_cancel (hn.symm.trans hcount)
      subst hlen
      exact hrefines

end Emulator

/-! ## The program of two words -/

namespace Emulator

attribute [local instance] Block.threeTable

/-- The first step over the program of two words takes its branch to itself. -/
theorem stepTranslated_setAndLoop :
    ∃ e', setAndLoop.stepTranslated = (.ok (some 4), e') ∧ e'.instructions = 0 + 2 := by
  cases stepTranslated_cases reached_setAndLoop.sound with
  | outside hpc hneeds heq => exact absurd hpc (by decide)
  | overflow t hneeds hover hidle hlimits hprepared hsnapshot heq =>
      exact absurd hover (Nat.not_lt_of_le fits_setAndLoop)
  | runs t mode ram hpc hfits hready hlimits hheld hprepared hsnapshot heq =>
      obtain ⟨-, -, -, hram⟩ := runStep_setAndLoop
      cases (hsnapshot rfl).symm.trans hram
      have hmax : t.maxBlockLength = 2 := hlimits.maxBlockLength_eq.symm
      obtain ⟨block, hblock, hfaithful⟩ := hready.exists_faithful hheld
      have hinstrs : fetchBlock setAndLoop.bus.ram t.maxBlockLength setAndLoop.cpu.pc =
          [⟨0, 0xe3a0002a⟩, ⟨4, 0xeafffffe⟩] := by
        rw [hmax]
        decide
      have hcount := hfaithful.instructionCount_eq (by rw [hmax]; decide)
      have hmark := hfaithful.selfLoop?_eq
      rw [hinstrs] at hcount hmark
      obtain ⟨cpu, bus, hall⟩ : ∃ cpu bus, executeAll [⟨0, 0xe3a0002a⟩, ⟨4, 0xeafffffe⟩]
          setAndLoop.cpu setAndLoop.bus = .ok (0, cpu) bus := ⟨_, _, rfl⟩
      rw [← hinstrs] at hall
      rw [heq, hprepared, stepBlock_of_ok hready hblock mode hall, hcount, hmark]
      exact ⟨_, rfl, rfl⟩

theorem stepTranslated_refines_setAndLoop :
    ∃ e', setAndLoop.stepTranslated = (.ok (some 4), e') ∧ e'.SameGuest (setAndLoop.stepN 2) ∧
      (setAndLoop.stepN 1).step.1 = .ok (.selfLoop 4) := by
  obtain ⟨e', hok, hn⟩ := stepTranslated_setAndLoop
  have hahead : setAndLoop.blockAhead none = [⟨0, 0xe3a0002a⟩, ⟨4, 0xeafffffe⟩] := by
    obtain ⟨-, -, -, hram⟩ := runStep_setAndLoop
    rw [blockAhead, hram]
    decide
  have hintact : ∀ j f, (setAndLoop.blockAhead none)[j]? = some f →
      (setAndLoop.stepN j).bus.ram.word? f.addr = some f.word := by
    rw [hahead]
    intro j f hf
    match j, hf with
    | 0, rfl => decide
    | 1, rfl => decide
  obtain ⟨-, hsame, -, hloop⟩ := stepTranslated_refines reached_setAndLoop rfl (by decide)
    (fun f _ => rfl) hintact hok hn
  exact ⟨e', hok, hsame, hloop 4 rfl⟩

end Emulator

end ArmEmulator
