import ArmEmulator.Proofs.Emulator.Refinement

/-!
# Programs that branch to themselves

An interpreted run ends with any branch to itself that is taken.  A translated run
of the same program goes through the same states, but it tells such a branch only
by its encoding: it ends too if the branch is the unconditional one back by two
words, and otherwise it runs on for ever.

Main results:

- Theorem {lit}`Emulator.stepTranslated_of_halts`: a translated step gets closer to
  the branch, or takes it.
- Theorem {lit}`Emulator.translated_run_halts_iff`: when a translated run ends as
  the interpreted run does.
-/

namespace ArmEmulator

open Block (Fetched Closes executeAll)

variable {ω : Type}

/-! ## Runs up to a branch to itself -/

/-- The words of a program at the addresses its run visits, and the settings it is
translated with. -/
structure Program where
  code : Word → Option Word
  visited : Word → Prop
  config : Configuration

/-- A state in which translated code is up to date and can be translated: memory
has the program at all addresses visited, no device answers at the program
counter, and the block there fits into the empty code cache. -/
structure Program.Steady [Block.HelperTable] (p : Program) (cpu : Cpu) (bus : Bus ω) : Prop where
  here : p.visited cpu.pc
  words : ∀ addr, p.visited addr → bus.ram.word? addr = p.code addr
  device : bus.mmio.find? cpu.pc = none
  room : bus.ram.contains cpu.pc 4 = true →
    (Translator.blockBytes (fetchBlock bus.ram p.config.maxBlockLength cpu.pc)).length ≤
      (CodeCache.ofSize p.config.codeCacheSize).capacity

/-- The first branch to itself is the one at {lit}`addr`, a number of instructions
ahead, and leaves a processor and a bus. -/
inductive Halts [Block.HelperTable] (p : Program) (addr : Word) (last : Cpu)
    (lastBus : Bus ω) : Nat → Cpu → Bus ω → Prop where
  | here {cpu : Cpu} {bus : Bus ω} (hsteady : p.Steady cpu bus)
      (hstep : cpu.step bus = .ok (.selfLoop addr, last) lastBus) :
      Halts p addr last lastBus 1 cpu bus
  | later {cpu cpu' : Cpu} {bus bus' : Bus ω} {outcome : Outcome} {k : Nat}
      (hsteady : p.Steady cpu bus) (hstep : cpu.step bus = .ok (outcome, cpu') bus')
      (hother : ∀ target, outcome ≠ .selfLoop target)
      (hrest : Halts p addr last lastBus k cpu' bus') :
      Halts p addr last lastBus (k + 1) cpu bus

/-- The mark of the block that ends with the instruction at an address. -/
def Program.mark? (p : Program) (addr : Word) : Option Word :=
  (p.code addr).bind fun word => selfLoopAt? addr (Instruction.decode word)

/-- Where the words of a block end: before the branch to itself, or with it. -/
inductive BlockEnd [Block.HelperTable] (p : Program) (addr : Word) (last : Cpu)
    (lastBus : Bus ω) (k : Nat) (instrs : List Fetched) (cpu : Cpu) (bus : Bus ω) : Prop where
  | before (hlength : instrs.length < k)
      (hrest : Halts p addr last lastBus (k - instrs.length) cpu bus)
      (hmark : Translator.loopMark? instrs = none)
  | within (hlength : instrs.length = k) (hcpu : cpu = last) (hbus : bus = lastBus)
      (hmark : Translator.loopMark? instrs = p.mark? addr)

section Halts

variable {p : Program} {addr : Word} {cpu last : Cpu} {bus lastBus : Bus ω} {k : Nat}

/-- Outside memory there is no branch. -/
theorem contains_of_selfLoop {target : Word} (hdevice : bus.mmio.find? cpu.pc = none)
    (h : cpu.step bus = .ok (.selfLoop target, last) lastBus) :
    bus.ram.contains cpu.pc 4 = true := by
  rw [← Ram.word?_isSome_iff]
  cases hword : bus.ram.word? cpu.pc with
  | some word => rfl
  | none =>
      have hread := Bus.read32_of_unmapped hdevice hword
      rw [Cpu.step, Access.bind_of_eq_ok hread] at h
      exact absurd (Instruction.writesPc_of_selfLoop h) (by decide)

/-- A branch to itself leaves everything as it was. -/
theorem eq_of_step_selfLoop {target : Word} (hdevice : bus.mmio.find? cpu.pc = none)
    (h : cpu.step bus = .ok (.selfLoop target, last) lastBus) :
    target = cpu.pc ∧ last = cpu ∧ lastBus = bus := by
  obtain ⟨word, hword⟩ := Option.isSome_iff_exists.1
    (Ram.word?_isSome_iff.2 (contains_of_selfLoop hdevice h))
  rw [Cpu.step, Access.bind_of_eq_ok (Bus.read32_of_word? hdevice hword)] at h
  exact Instruction.eq_of_selfLoop h

/-- A step goes on at the next word, or memory has a word there that can move the
program counter. -/
theorem pc_of_step {cpu' : Cpu} {bus' : Bus ω} {outcome : Outcome}
    (hdevice : bus.mmio.find? cpu.pc = none) (h : cpu.step bus = .ok (outcome, cpu') bus') :
    cpu'.pc = cpu.pc + 4 ∨
      ∃ word, bus.ram.word? cpu.pc = some word ∧ (Instruction.decode word).writesPc = true := by
  cases hword : bus.ram.word? cpu.pc with
  | none =>
      rw [Cpu.step, Access.bind_of_eq_ok (Bus.read32_of_unmapped hdevice hword)] at h
      exact .inl (Instruction.pc_of_execute (by decide) h)
  | some word =>
      rw [Cpu.step, Access.bind_of_eq_ok (Bus.read32_of_word? hdevice hword)] at h
      cases hwrites : (Instruction.decode word).writesPc with
      | false => exact .inl (Instruction.pc_of_execute hwrites h)
      | true => exact .inr ⟨word, rfl, hwrites⟩

variable [Block.HelperTable]

theorem Halts.steady (h : Halts p addr last lastBus k cpu bus) : p.Steady cpu bus := by
  cases h <;> assumption

theorem Halts.pos (h : Halts p addr last lastBus k cpu bus) : 0 < k := by
  cases h <;> exact Nat.succ_pos _

/-- At an address visited a step executes the word that the program has there. -/
theorem Program.Steady.step_eq {f : Fetched} (h : p.Steady cpu bus) (hpc : f.addr = cpu.pc)
    (hword : p.code f.addr = some f.word) : cpu.step bus = f.execute cpu bus := by
  have hvisited : p.visited f.addr := hpc ▸ h.here
  exact Cpu.step_of_word? hpc (hpc ▸ h.device) ((h.words f.addr hvisited).trans hword)

/-- On the way to a branch to itself there is, in step with the program counter, a
word that can move it. -/
theorem Halts.exists_writesPc (h : Halts p addr last lastBus k cpu bus) :
    ∃ j word : Word, p.visited (cpu.pc + 4 * j) ∧ p.code (cpu.pc + 4 * j) = some word ∧
      (Instruction.decode word).writesPc = true := by
  have hnow : ∀ {cpu : Cpu} {bus : Bus ω}, p.Steady cpu bus →
      (∃ word, bus.ram.word? cpu.pc = some word ∧ (Instruction.decode word).writesPc = true) →
      ∃ j word : Word, p.visited (cpu.pc + 4 * j) ∧ p.code (cpu.pc + 4 * j) = some word ∧
        (Instruction.decode word).writesPc = true := by
    rintro cpu bus hsteady ⟨word, hword, hwrites⟩
    have hcode := (hsteady.words cpu.pc hsteady.here).symm.trans hword
    rw [← BitVec.add_zero cpu.pc] at hcode
    exact ⟨0, word, (BitVec.add_zero cpu.pc).symm ▸ hsteady.here, hcode, hwrites⟩
  induction h with
  | here hsteady hstep =>
      obtain ⟨word, hword⟩ := Option.isSome_iff_exists.1
        (Ram.word?_isSome_iff.2 (contains_of_selfLoop hsteady.device hstep))
      rw [Cpu.step, Access.bind_of_eq_ok (Bus.read32_of_word? hsteady.device hword)] at hstep
      exact hnow hsteady ⟨word, hword, Instruction.writesPc_of_selfLoop hstep⟩
  | later hsteady hstep hother hrest ih =>
      rcases pc_of_step hsteady.device hstep with hpc | hhere
      · obtain ⟨j, word, hvisited, hcode, hwrites⟩ := ih
        have hnext : ∀ pc : Word, pc + 4 + 4 * j = pc + 4 * (j + 1) := by grind
        rw [hpc, hnext] at hvisited hcode
        exact ⟨j + 1, word, hvisited, hcode, hwrites⟩
      · exact hnow hsteady hhere

/-- No block on the way to a branch to itself has more words than the address space
holds: it would go around it for ever. -/
theorem Halts.length_le {instrs : List Fetched} {next? : Option Word}
    (h : Halts p addr last lastBus k cpu bus) (hcloses : Closes instrs next?)
    (hfrom : Consecutive cpu.pc instrs)
    (hwords : ∀ f ∈ instrs, p.visited f.addr → p.code f.addr = some f.word) :
    instrs.length ≤ 0x40000000 := by
  apply Nat.le_of_not_lt
  intro hlong
  obtain ⟨j, word, hvisited, hcode, hwrites⟩ := h.exists_writesPc
  obtain ⟨f, hf, haddr, hstays⟩ := exists_fetched_of_lt_length hcloses hfrom hlong j
  rw [← haddr] at hvisited hcode
  cases (hwords f hf hvisited).symm.trans hcode
  exact nomatch hstays.symm.trans hwrites

/-- The branch to itself is taken again and again. -/
theorem Halts.again (h : Halts p addr last lastBus k cpu bus) :
    Halts p addr last lastBus 1 last lastBus := by
  induction h with
  | here hsteady hstep =>
      obtain ⟨-, rfl, rfl⟩ := eq_of_step_selfLoop hsteady.device hstep
      exact .here hsteady hstep
  | later hsteady hstep hother hrest ih => exact ih

/-- The words of a block are executed up to the branch to itself at most. -/
theorem Halts.executeAll {instrs : List Fetched} {next? : Option Word}
    (h : Halts p addr last lastBus k cpu bus) (hcloses : Closes instrs next?)
    (hfrom : Consecutive cpu.pc instrs)
    (hwords : ∀ f ∈ instrs, p.visited f.addr → p.code f.addr = some f.word) :
    ∃ count cpu' bus', Block.executeAll instrs cpu bus = .ok (count, cpu') bus' ∧
      BlockEnd p addr last lastBus k instrs cpu' bus' := by
  induction instrs generalizing k cpu bus with
  | nil => cases hcloses
  | cons f fs ih =>
      have hword : p.code f.addr = some f.word :=
        hwords f (List.mem_cons_self ..) (hfrom.1 ▸ h.steady.here)
      have hexecute := h.steady.step_eq hfrom.1 hword
      cases h with
      | here hsteady hstep =>
          have hf := hexecute.symm.trans hstep
          have hwrites : f.writesPc = true := Instruction.writesPc_of_selfLoop hf
          have hfs : fs = [] := by
            cases fs with
            | nil => rfl
            | cons g fs => exact nomatch hwrites.symm.trans hcloses.1
          subst hfs
          obtain ⟨haddr, -, -⟩ := eq_of_step_selfLoop hsteady.device hstep
          refine ⟨_, last, lastBus, Access.bind_of_eq_ok hf, .within rfl rfl rfl ?_⟩
          rw [Program.mark?, haddr, ← hfrom.1, hword]
          rfl
      | later hsteady hstep hother hrest =>
          rename_i cpu' bus' outcome k
          have hf := hexecute.symm.trans hstep
          cases fs with
          | nil =>
              refine ⟨_, cpu', bus', Access.bind_of_eq_ok hf,
                .before (Nat.succ_lt_succ hrest.pos) hrest ?_⟩
              cases hmark : Translator.loopMark? [f] with
              | none => rfl
              | some target => exact absurd (outcome_of_loopMark? hmark hf) (hother target)
          | cons g fs =>
              have hpc : cpu'.pc = f.addr + 4 := Instruction.pc_of_execute hcloses.1 hf
              have hfrom' : Consecutive cpu'.pc (g :: fs) := by
                rw [hpc, hfrom.1]
                exact hfrom.2
              have hmark :
                  Translator.loopMark? (f :: g :: fs) = Translator.loopMark? (g :: fs) := by
                rw [Translator.loopMark?, List.getLast?_cons_cons, Translator.loopMark?]
              obtain ⟨count, cpuEnd, busEnd, hall, hend⟩ := ih hrest hcloses.2 hfrom'
                fun h hh => hwords h (List.mem_cons_of_mem f hh)
              refine ⟨_, cpuEnd, busEnd, (Access.bind_of_eq_ok hf).trans
                (Access.bind_of_eq_ok hall), ?_⟩
              cases hend with
              | before hlength hend hnone =>
                  refine .before (Nat.succ_lt_succ hlength) ?_ (hmark.trans hnone)
                  rw [List.length_cons, Nat.succ_sub_succ]
                  exact hend
              | within hlength hcpu hbus hsome =>
                  exact .within (congrArg Nat.succ hlength) hcpu hbus (hmark.trans hsome)

end Halts

namespace Emulator

variable [Block.HelperTable]

/-! ## Translated steps -/

/-- An emulator that runs a program in translated mode: its blocks are of a memory
that has the program at all addresses visited. -/
structure Drives (p : Program) (snapshot? : Option Ram) (e : Emulator ω) : Prop where
  sound : e.Sound snapshot?
  config_eq : e.config = p.config
  quiet : e.stopRequested = false
  words : ∀ ram, snapshot? = some ram → ∀ addr, p.visited addr → ram.word? addr = p.code addr

/-- What a translated step does on the way to a branch to itself: it comes closer,
or takes the branch and reports what the block is marked with. -/
inductive Advance (p : Program) (addr : Word) (last : Cpu) (lastBus : Bus ω) (k : Nat)
    (e e' : Emulator ω) : Option Word → Prop where
  | before (n : Nat) (hpos : 0 < n) (hlt : n < k)
      (hcount : e'.instructions = e.instructions + n)
      (hrest : Halts p addr last lastBus (k - n) e'.cpu e'.bus) :
      Advance p addr last lastBus k e e' none
  | within (hcount : e'.instructions = e.instructions + k)
      (hcpu : e'.cpu = last) (hbus : e'.bus = lastBus) :
      Advance p addr last lastBus k e e' (p.mark? addr)

section Drives

variable {p : Program} {addr : Word} {last : Cpu} {lastBus : Bus ω} {k : Nat}
  {snapshot? : Option Ram} {e : Emulator ω}

/-- The memory of the blocks keeps the program when a new region is translated. -/
theorem Drives.words_after (hd : Drives p snapshot? e)
    (h : Halts p addr last lastBus k e.cpu e.bus) {ram : Ram}
    (hsnapshot : e.snapshotAfter snapshot? = some ram) (a : Word) (ha : p.visited a) :
    ram.word? a = p.code a := by
  unfold snapshotAfter at hsnapshot
  split at hsnapshot
  · cases hsnapshot
    exact h.steady.words a ha
  · exact hd.words ram hsnapshot a ha

/-- A step of a translated run keeps driving the program. -/
theorem Drives.stepTranslated (hd : Drives p snapshot? e) (hmode : p.config.mode = .translated)
    (h : Halts p addr last lastBus k e.cpu e.bus)
    (hquiet : e.stepTranslated.2.stopRequested = false) :
    Drives p (e.snapshotAfter snapshot?) e.stepTranslated.2 := by
  have hrun := runStep_of_translated (hd.config_eq ▸ hmode)
  refine ⟨?_, ?_, hquiet, fun ram hram a ha => hd.words_after h hram a ha⟩
  · rw [← hrun]
    exact hd.sound.runStep
  · rw [← hrun, hd.sound.runStep_config, hd.config_eq]

/-- A translated step gets closer to the branch to itself, or takes it. -/
theorem stepTranslated_of_halts (hd : Drives p snapshot? e)
    (hmode : p.config.mode = .translated) (h : Halts p addr last lastBus k e.cpu e.bus) :
    ∃ halted e', e.stepTranslated = (.ok halted, e') ∧
      Drives p (e.snapshotAfter snapshot?) e' ∧ Advance p addr last lastBus k e e' halted := by
  have hdrives := hd.stepTranslated hmode h
  cases stepTranslated_cases hd.sound with
  | outside hpc hneeds heq =>
      cases h with
      | here hsteady hstep =>
          exact nomatch hpc.symm.trans (contains_of_selfLoop hsteady.device hstep)
      | later hsteady hstep hother hrest =>
          rename_i cpu bus outcome k
          have hnone : loopTarget? outcome = none :=
            Option.eq_none_iff_forall_ne_some.2 fun target htarget =>
              hother target (loopTarget?_eq_some_iff.1 htarget)
          have hnext := stepInterpreted_eq_ok_iff.2 ⟨outcome, step_of_ok hstep, hnone⟩
          rw [heq, hnext] at hdrives
          exact ⟨none, _, heq.trans hnext, hdrives hd.quiet,
            .before 1 Nat.one_pos (Nat.succ_lt_succ hrest.pos) rfl hrest⟩
  | overflow t hneeds hover hidle hlimits hprepared hsnapshot heq =>
      have hpc : e.bus.ram.contains e.cpu.pc 4 = true := (Bool.and_eq_true_iff.1 hneeds).1
      have hroom := h.steady.room hpc
      rw [← hd.config_eq] at hroom
      exact absurd hroom (Nat.not_le_of_lt hover)
  | runs t mode ram hpc hfits hready hlimits hheld hprepared hsnapshot heq =>
      have hram := hd.words_after h (hsnapshot (hd.config_eq ▸ hmode))
      obtain ⟨block, hblock, hfaithful⟩ := hready.exists_faithful hheld
      have hcloses := closes_fetchBlock hfaithful.fetched
      have hfrom := consecutive_fetchBlock ram t.maxBlockLength e.cpu.pc
      have hwords : ∀ f ∈ fetchBlock ram t.maxBlockLength e.cpu.pc, p.visited f.addr →
          p.code f.addr = some f.word := fun f hf hvisited =>
        (hram f.addr hvisited).symm.trans (word?_of_mem_fetchBlock hf)
      have hcount := hfaithful.instructionCount_of_length_lt
        (Nat.lt_of_le_of_lt (h.length_le hcloses hfrom hwords) (by decide))
      have hmark := hfaithful.selfLoop?_eq
      obtain ⟨count, cpu, bus, hall, hend⟩ := h.executeAll hcloses hfrom hwords
      rw [hprepared] at heq
      have hstep := heq.trans (stepBlock_of_ok hready hblock mode hall)
      rw [hmark] at hstep
      rw [hstep] at hdrives
      refine ⟨_, _, hstep, hdrives hd.quiet, ?_⟩
      cases hend with
      | before hlt hrest hnone =>
          rw [hnone]
          exact .before _ (List.length_pos_iff.2 hfaithful.fetched) hlt
            (congrArg (e.instructions + ·) hcount) hrest
      | within hlen hcpu hbus hsome =>
          rw [hsome]
          exact .within (congrArg (e.instructions + ·) (hcount.trans hlen)) hcpu hbus

end Drives

/-! ## Runs -/

section Runs

variable {ε : Type} {exit : ExitCondition ε}

/-- An exit condition that is never true and never requests a stop. -/
def Never (exit : ExitCondition ε) : Prop :=
  ∀ state cpu, (exit state cpu).exit = false ∧ (exit state cpu).requestStop = false

/-- Without anything to stop it a run only steps. -/
theorem runFor_succ_of_never (hexit : Never exit) {e : Emulator ω}
    (hquiet : e.stopRequested = false) (hlimit : e.config.instructionLimit? = none)
    (start fuel : Nat) (state : ε) :
    runFor exit start (fuel + 1) state e =
      match e.runStep with
      | (.error err, e') => some (.error err, e')
      | (.ok (some addr), e') => some (.ok (.selfLoop addr), e')
      | (.ok none, e') => runFor exit start fuel (exit state e.cpu).next e' := by
  have hasked : e.asked exit state = e := by
    rw [asked, (hexit state e.cpu).2, if_neg Bool.false_ne_true]
  have hreached : e.limitReached start = false := by
    rw [limitReached, hlimit]
    rfl
  have hsucc := runFor_succ exit start fuel state e
  rw [hquiet, if_neg Bool.false_ne_true, (hexit state e.cpu).1, if_neg Bool.false_ne_true, hasked,
    hreached, if_neg Bool.false_ne_true] at hsucc
  exact hsucc

section Translated

variable {p : Program} (hmode : p.config.mode = .translated)
  (hlimit : p.config.instructionLimit? = none) (hexit : Never exit) {addr : Word} {last : Cpu}
  {lastBus : Bus ω}
include hmode hlimit hexit

/-- If the block of the branch is marked a translated run ends with it. -/
theorem runFor_of_marked (hmark : p.mark? addr = some addr) {start fuel k : Nat} (hk : k ≤ fuel)
    {state : ε} {snapshot? : Option Ram} {e : Emulator ω} (hd : Drives p snapshot? e)
    (h : Halts p addr last lastBus k e.cpu e.bus) :
    ∃ e', runFor exit start fuel state e = some (.ok (.selfLoop addr), e') ∧ e'.cpu = last ∧
      e'.bus = lastBus ∧ e'.instructions = e.instructions + k := by
  induction fuel generalizing k state snapshot? e with
  | zero => exact absurd h.pos (Nat.not_lt_of_le hk)
  | succ fuel ih =>
      obtain ⟨halted, e', hstep, hd', hadvance⟩ := stepTranslated_of_halts hd hmode h
      rw [← runStep_of_translated (hd.config_eq ▸ hmode)] at hstep
      rw [runFor_succ_of_never hexit hd.quiet (hd.config_eq ▸ hlimit), hstep]
      cases hadvance with
      | before n hpos hlt hcount hrest =>
          obtain ⟨e'', hrun, hcpu, hbus, hcount'⟩ := ih (by omega) hd' hrest
          refine ⟨e'', hrun, hcpu, hbus, ?_⟩
          rw [hcount', hcount]
          omega
      | within hcount hcpu hbus =>
          rw [hmark]
          exact ⟨e', rfl, hcpu, hbus, hcount⟩

/-- If the block of the branch is not marked a translated run never ends. -/
theorem runFor_of_unmarked (hmark : p.mark? addr = none) {start fuel k : Nat} {state : ε}
    {snapshot? : Option Ram} {e : Emulator ω} (hd : Drives p snapshot? e)
    (h : Halts p addr last lastBus k e.cpu e.bus) : runFor exit start fuel state e = none := by
  induction fuel generalizing k state snapshot? e with
  | zero => rfl
  | succ fuel ih =>
      obtain ⟨halted, e', hstep, hd', hadvance⟩ := stepTranslated_of_halts hd hmode h
      rw [← runStep_of_translated (hd.config_eq ▸ hmode)] at hstep
      rw [runFor_succ_of_never hexit hd.quiet (hd.config_eq ▸ hlimit), hstep]
      cases hadvance with
      | before n hpos hlt hcount hrest => exact ih hd' hrest
      | within hcount hcpu hbus =>
          have hagain : Halts p addr last lastBus 1 e'.cpu e'.bus := by
            rw [hcpu, hbus]
            exact h.again
          rw [hmark]
          exact ih hd' hagain

end Translated

/-- An interpreted run that ends with a branch to itself steps up to the first one
that is taken. -/
theorem halts_of_runFor (hexit : Never exit) {start fuel : Nat} {state : ε} {addr : Word}
    {e e' : Emulator ω} (hmode : e.config.mode = .interpreted)
    (hlimit : e.config.instructionLimit? = none)
    (hrun : runFor exit start fuel state e = some (.ok (.selfLoop addr), e')) :
    e.stopRequested = false ∧ ∃ k, k ≤ fuel ∧ e'.instructions = e.instructions + k ∧
      ∀ p : Program, (∀ i, i < k → p.Steady (e.stepN i).cpu (e.stepN i).bus) →
        Halts p addr e'.cpu e'.bus k e.cpu e.bus := by
  induction fuel generalizing state e with
  | zero => cases hrun
  | succ fuel ih =>
      have hquiet : e.stopRequested = false := by
        cases hstop : e.stopRequested with
        | false => rfl
        | true =>
            rw [runFor_succ, hstop, if_pos rfl] at hrun
            cases hrun
      rw [runFor_succ_of_never hexit hquiet hlimit, runStep_of_interpreted hmode] at hrun
      refine ⟨hquiet, ?_⟩
      cases hresult : e.stepInterpreted with
      | mk outcome after =>
          rw [hresult] at hrun
          rcases outcome with err | ⟨_ | target⟩
          · cases hrun
          · have hkept := stepInterpreted_config_translator? e
            rw [hresult] at hkept
            obtain ⟨outcome, hstep, hnone⟩ := stepInterpreted_eq_ok_iff.1 hresult
            obtain ⟨-, k, hk, hcount, hhalts⟩ := ih (hkept.1 ▸ hmode) (hkept.1 ▸ hlimit) hrun
            have hsucc : ∀ i, e.stepN (i + 1) = after.stepN i := by
              intro i
              rw [stepN, hstep]
            refine ⟨k + 1, Nat.succ_le_succ hk, ?_, fun p hsteady => ?_⟩
            · rw [hcount, instructions_of_step hstep]
              omega
            · exact .later (hsteady 0 (Nat.succ_pos k)) (cpu_step_of_step hstep)
                (ne_selfLoop_of_loopTarget? hnone)
                (hhalts p fun i hi => hsucc i ▸ hsteady (i + 1) (Nat.succ_lt_succ hi))
          · cases hrun
            obtain ⟨outcome, hstep, htarget⟩ := stepInterpreted_eq_ok_iff.1 hresult
            cases loopTarget?_eq_some_iff.1 htarget
            exact ⟨1, Nat.succ_le_succ (Nat.zero_le fuel), instructions_of_step hstep,
              fun p hsteady => .here (hsteady 0 Nat.one_pos) (cpu_step_of_step hstep)⟩

/-! ## Both modes -/

/-- For a number of single steps the program is left alone: memory keeps the words
at the addresses executed, no device answers there, and the blocks there fit into
the empty code cache. -/
structure Undisturbed (e : Emulator ω) (k : Nat) : Prop where
  words : ∀ i j, i < k → j < k →
    (e.stepN i).bus.ram.word? (e.stepN j).cpu.pc = e.bus.ram.word? (e.stepN j).cpu.pc
  device : ∀ j, j < k → e.bus.mmio.find? (e.stepN j).cpu.pc = none
  room : ∀ j, j < k → (e.stepN j).bus.ram.contains (e.stepN j).cpu.pc 4 = true →
    (Translator.blockBytes (e.stepN j).blockAtPc).length ≤ e.cacheCapacity

/-- The program that an emulator executes in a number of single steps. -/
def programOf (e : Emulator ω) (k : Nat) : Program where
  code := e.bus.ram.word?
  visited addr := ∃ j, j < k ∧ (e.stepN j).cpu.pc = addr
  config := e.config

theorem Undisturbed.steady {e : Emulator ω} {k : Nat} (h : e.Undisturbed k) {i : Nat}
    (hi : i < k) : (e.programOf k).Steady (e.stepN i).cpu (e.stepN i).bus where
  here := ⟨i, hi, rfl⟩
  words addr haddr := by
    obtain ⟨j, hj, rfl⟩ := haddr
    exact h.words i j hi hj
  device := by
    rw [mmio_stepN]
    exact h.device i hi
  room hpc := by
    have hroom := h.room i hi hpc
    rw [blockAtPc, config_stepN] at hroom
    exact hroom

theorem drives_programOf {snapshot? : Option Ram} {e : Emulator ω} (h : e.Sound snapshot?)
    (hfresh : ∀ t, e.translator? = some t → t.blocks.size = 0) (hquiet : e.stopRequested = false)
    (k : Nat) : Drives (e.programOf k) none e := by
  refine ⟨⟨h.valid, h.limits, fun t ht => .inl ?_⟩, rfl, hquiet, nofun⟩
  rcases h.phase t ht with hidle | ⟨ram, -, hready⟩
  · exact hidle
  · exact absurd (hfresh t ht) (Nat.ne_of_gt hready.nonempty)

omit [Block.HelperTable] in
theorem mark?_of_plain {p : Program} {addr word : Word} (hword : p.code addr = some word)
    (hplain : Instruction.decode word = ⟨.al, .branch ⟨false, .offset (-8)⟩⟩) :
    p.mark? addr = some addr := by
  rw [Program.mark?, hword, Option.bind_some, Translator.selfLoopAt?_eq_some_iff]
  exact ⟨hplain, rfl⟩

omit [Block.HelperTable] in
theorem mark?_of_not_plain {p : Program} {addr : Word}
    (hother : ¬∃ word, p.code addr = some word ∧
      Instruction.decode word = ⟨.al, .branch ⟨false, .offset (-8)⟩⟩) : p.mark? addr = none := by
  refine Option.eq_none_iff_forall_ne_some.2 fun target hmark => hother ?_
  obtain ⟨word, hword, hloop⟩ := Option.bind_eq_some_iff.1 hmark
  exact ⟨word, hword, (Translator.selfLoopAt?_eq_some_iff.1 hloop).1⟩

/-- An interpreted run of a program that is left alone ends with a branch to itself.
The translated run of the program from the same state ends with the same branch,
processor, bus and count exactly if the branch is the unconditional one back by
two words; with any other branch it never ends. -/
theorem translated_run_halts_iff {snapshot? : Option Ram} {e e' : Emulator ω}
    (h : Reached snapshot? e) (hmode : e.config.mode = .translated)
    (hlimit : e.config.instructionLimit? = none)
    (hfresh : ∀ t, e.translator? = some t → t.blocks.size = 0) (hexit : Never exit)
    {start fuel : Nat} {state : ε} {addr : Word}
    (hrun : runFor exit start fuel state (e.withMode .interpreted) =
      some (.ok (.selfLoop addr), e'))
    {k : Nat} (hk : e'.instructions = e.instructions + k) (halone : e.Undisturbed k) :
    ((∃ e'', runFor exit start fuel state e = some (.ok (.selfLoop addr), e'') ∧
        e''.cpu = e'.cpu ∧ e''.bus = e'.bus ∧ e''.instructions = e.instructions + k) ↔
      ∃ word, e.bus.ram.word? addr = some word ∧
        Instruction.decode word = ⟨.al, .branch ⟨false, .offset (-8)⟩⟩) ∧
    ((¬∃ word, e.bus.ram.word? addr = some word ∧
        Instruction.decode word = ⟨.al, .branch ⟨false, .offset (-8)⟩⟩) →
      ∀ fuel, runFor exit start fuel state e = none) := by
  have hlimit' : (e.withMode .interpreted).config.instructionLimit? = none := hlimit
  obtain ⟨hquiet, k', hle, hcount, hhalts⟩ := halts_of_runFor hexit rfl hlimit' hrun
  have hsame : k' = k := Nat.add_left_cancel (hcount.symm.trans hk)
  subst hsame
  have hsteps := hhalts (e.programOf k') fun i hi => by
    rw [stepN_withMode]
    exact halone.steady hi
  have hdrives := drives_programOf h.sound hfresh hquiet k'
  have hnever : (¬∃ word, e.bus.ram.word? addr = some word ∧
      Instruction.decode word = ⟨.al, .branch ⟨false, .offset (-8)⟩⟩) →
        ∀ fuel, runFor exit start fuel state e = none := fun hother fuel =>
    runFor_of_unmarked hmode hlimit hexit (mark?_of_not_plain hother) hdrives hsteps
  refine ⟨⟨?_, ?_⟩, hnever⟩
  · rintro ⟨e'', hends, -⟩
    apply Classical.byContradiction
    intro hother
    rw [hnever hother fuel] at hends
    cases hends
  · rintro ⟨word, hword, hplain⟩
    exact runFor_of_marked hmode hlimit hexit (mark?_of_plain hword hplain) hle hdrives hsteps

end Runs

end Emulator

/-! ## Two programs -/

namespace Emulator

attribute [local instance] Block.threeTable

/-- The exit condition that is never true. -/
def never : ExitCondition Unit := fun _ _ => ⟨false, false, ()⟩

theorem undisturbed_setAndLoop : setAndLoop.Undisturbed 2 where
  words i j hi hj := by
    obtain rfl | rfl : i = 0 ∨ i = 1 := by omega
    · obtain rfl | rfl : j = 0 ∨ j = 1 := by omega
      · rfl
      · rfl
    · obtain rfl | rfl : j = 0 ∨ j = 1 := by omega
      · rfl
      · rfl
  device j hj := by
    obtain rfl | rfl : j = 0 ∨ j = 1 := by omega
    · rfl
    · rfl
  room j hj _ := by
    rw [Host.Code.length_of_encode? (Translator.encode?_blockCode _)]
    obtain rfl | rfl : j = 0 ∨ j = 1 := by omega
    · decide
    · decide

theorem translated_run_halts_iff_setAndLoop :
    ∃ e' e'', runFor never 0 2 () (setAndLoop.withMode .interpreted) =
        some (.ok (.selfLoop 4), e') ∧
      runFor never 0 2 () setAndLoop = some (.ok (.selfLoop 4), e'') ∧
      e''.cpu = e'.cpu ∧ e''.instructions = 0 + 2 := by
  obtain ⟨e', hrun, hk⟩ : ∃ e', runFor never 0 2 () (setAndLoop.withMode .interpreted) =
      some (.ok (.selfLoop 4), e') ∧ e'.instructions = 0 + 2 := ⟨_, rfl, rfl⟩
  obtain ⟨e'', hends, hcpu, -, hcount⟩ := (translated_run_halts_iff reached_setAndLoop rfl rfl
    nofun (fun _ _ => ⟨rfl, rfl⟩) hrun hk undisturbed_setAndLoop).1.2
      ⟨0xeafffffe, by decide, by decide⟩
  exact ⟨e', e'', hrun, hends, hcpu, hcount⟩

/-- A program of one word, a branch to the address in a register that holds that of
the branch. -/
def registerLoop : Emulator Unit := loaded [0xe12fff10]

/-- A register branch to itself ends the interpreted run only. -/
theorem registerBranch_never_ends :
    (∃ e', runFor never 0 1 () (registerLoop.withMode .interpreted) =
        some (.ok (.selfLoop 0), e') ∧ e'.instructions = 1) ∧
      ∀ fuel, runFor never 0 fuel () registerLoop = none := by
  refine ⟨⟨_, rfl, rfl⟩, ?_⟩
  intro fuel
  have hsound : registerLoop.Sound none := (reached_loaded _).sound
  have hroom : (Translator.blockBytes registerLoop.blockAtPc).length ≤
      registerLoop.cacheCapacity := by
    rw [Host.Code.length_of_encode? (Translator.encode?_blockCode _)]
    decide
  have hsteady : (registerLoop.programOf 1).Steady registerLoop.cpu registerLoop.bus :=
    ⟨⟨0, Nat.one_pos, rfl⟩, fun _ _ => rfl, rfl, fun _ => hroom⟩
  exact runFor_of_unmarked rfl rfl (fun _ _ => ⟨rfl, rfl⟩) (by decide)
    (drives_programOf hsound nofun rfl 1) (.here hsteady rfl)

end Emulator

end ArmEmulator
