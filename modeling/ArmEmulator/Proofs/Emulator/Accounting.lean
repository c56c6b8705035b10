import ArmEmulator.Proofs.Emulator.Refinement

/-!
# Accounting of runs

Every step that succeeds executes at least one instruction, and one of a block at
most as many as a block may have.  So a run with a limit ends, and overshoots the
limit by less than a block.  What it reports is what its last check or its last
step found.

A stop that is requested from elsewhere while a step runs is seen by the next
check, as is one that the exit condition requested before that step; runs are
therefore stated for exit conditions that may request a stop at any check.

Main results:

- Theorem {lit}`Emulator.instructions_of_runStep`: how many instructions a step
  that succeeds may count.
- Theorem {lit}`Emulator.exists_steps_of_runFor`: a run is a number of steps and one
  way to end.
- Theorem {lit}`Emulator.runUntil?_accounted`: a limited run ends, what it counts,
  and why it ends.
-/

namespace ArmEmulator

open Block (Fetched Closes executeAll)

namespace Emulator

variable {ω ε : Type} [Block.HelperTable] {snapshot? : Option Ram} {e e' : Emulator ω}
  {halted : Option Word}

/-! ## What a step counts -/

/-- The most instructions that one step of a run may execute. -/
def stepLimit (e : Emulator ω) : Nat :=
  match e.config.mode with
  | .interpreted => 1
  | .translated => e.config.maxBlockLength

theorem stepLimit_pos (h : e.Sound snapshot?) : 0 < e.stepLimit := by
  unfold stepLimit
  cases e.config.mode with
  | interpreted => exact Nat.one_pos
  | translated => exact Nat.pos_of_ne_zero (Configuration.limits_of_validate h.valid).1

omit [Block.HelperTable] in
theorem instructions_of_stepInterpreted (hok : e.stepInterpreted = (.ok halted, e')) :
    e'.instructions = e.instructions + 1 := by
  obtain ⟨outcome, hstep, -⟩ := stepInterpreted_eq_ok_iff.1 hok
  exact instructions_of_step hstep

/-- A block that runs to its end counts its instructions. -/
theorem instructions_of_stepBlock {t : Translator} {mode : ExecMode} {ram : Ram}
    (hready : t.Ready ram) (hheld : t.contains e.cpu.pc = true)
    (hlength : t.maxBlockLength < 0x100000000)
    (hok : (e.equipped t mode).stepBlock = (.ok halted, e')) :
    ∃ n, 0 < n ∧ n ≤ t.maxBlockLength ∧ e'.instructions = e.instructions + n := by
  obtain ⟨block, hblock, hfaithful⟩ := hready.exists_faithful hheld
  cases hall : executeAll (fetchBlock ram t.maxBlockLength e.cpu.pc) e.cpu e.bus with
  | error fault bus =>
      obtain ⟨addr, cpu, hrun⟩ := stepBlock_of_error hready hblock mode hall
      rw [hrun] at hok
      cases hok
  | ok result bus =>
      rw [stepBlock_of_ok hready hblock mode hall, hfaithful.instructionCount_eq hlength] at hok
      cases hok
      exact ⟨_, List.length_pos_iff.2 hfaithful.fetched, length_fetchBlock_le _ _ _, rfl⟩

/-- A step that succeeds counts at least one instruction, and at most as many as a
block has if it is translated. -/
theorem instructions_of_runStep (h : e.Sound snapshot?)
    (hlength : e.config.maxBlockLength < 0x100000000) (hok : e.runStep = (.ok halted, e')) :
    ∃ n, 0 < n ∧ n ≤ e.stepLimit ∧ e'.instructions = e.instructions + n := by
  have hpos := stepLimit_pos h
  cases hmode : e.config.mode with
  | interpreted =>
      rw [runStep_of_interpreted hmode] at hok
      exact ⟨1, Nat.one_pos, hpos, instructions_of_stepInterpreted hok⟩
  | translated =>
      rw [runStep_of_translated hmode] at hok
      cases stepTranslated_cases h with
      | outside hpc hneeds heq =>
          rw [heq] at hok
          exact ⟨1, Nat.one_pos, hpos, instructions_of_stepInterpreted hok⟩
      | overflow t hneeds hover hidle hlimits hprepared hsnapshot heq =>
          rw [heq] at hok
          cases hok
      | runs t mode ram hpc hfits hready hlimits hheld hprepared hsnapshot heq =>
          have hmax : t.maxBlockLength = e.stepLimit := by
            rw [stepLimit, hmode]
            exact hlimits.maxBlockLength_eq.symm
          rw [heq, hprepared] at hok
          rw [← hmax]
          exact instructions_of_stepBlock hready hheld
            (hlimits.maxBlockLength_eq ▸ hlength) hok

/-! ## Stop requests -/

omit [Block.HelperTable] in
theorem stopRequested_step (e : Emulator ω) : e.step.2.stopRequested = e.stopRequested := by
  unfold step
  split <;> rfl

theorem stopRequested_stepBlock (e : Emulator ω) :
    e.stepBlock.2.stopRequested = e.stopRequested := by
  unfold stepBlock
  split
  · rw [stepInterpreted_snd, stopRequested_step]
  · dsimp only
    split
    · rfl
    · rw [stepInterpreted_snd, stopRequested_step]
    · rfl

/-- A step of a run neither requests a stop nor forgets a request. -/
theorem Sound.stopRequested_runStep (h : e.Sound snapshot?) :
    e.runStep.2.stopRequested = e.stopRequested := by
  have hinterpreted : e.stepInterpreted.2.stopRequested = e.stopRequested := by
    rw [stepInterpreted_snd, stopRequested_step]
  cases hmode : e.config.mode with
  | interpreted => rw [runStep_of_interpreted hmode, hinterpreted]
  | translated =>
      rw [runStep_of_translated hmode]
      cases stepTranslated_cases h with
      | outside hpc hneeds heq => rw [heq, hinterpreted]
      | overflow t hneeds hover hidle hlimits hprepared hsnapshot heq =>
          rw [heq, hprepared]
          rfl
      | runs t mode ram hpc hfits hready hlimits hheld hprepared hsnapshot heq =>
          rw [heq, stopRequested_stepBlock, hprepared]
          rfl

/-! ## Steps that end with a branch to itself -/

/-- The word at an address is a branch to that address that is taken and keeps no
return address. -/
def LoopsAt (addr word : Word) (cpu : Cpu) : Prop :=
  ∃ b : Branch, (Instruction.decode word).op = .branch b ∧
    (Instruction.decode word).cond.passes cpu.cpsr = true ∧ b.link = false ∧
    b.destination addr cpu = addr

/-- The last instruction of a step was a branch at an address to itself: the one
instruction that was interpreted, or the last one of the block. -/
inductive EndsInLoop (snapshot? : Option Ram) (addr : Word) (e e' : Emulator ω) : Prop where
  | interpreted (word : Word) (hpc : e.cpu.pc = addr)
      (hfetch : Bus.read32 addr e.bus = .ok word e'.bus) (hcpu : e'.cpu = e.cpu)
      (hloop : LoopsAt addr word e.cpu)
  | translated (hmode : e.config.mode = .translated) (before : List Fetched) (word : Word)
      (count : Nat) (hblock : e.blockAhead snapshot? = before ++ [⟨addr, word⟩])
      (hbefore : executeAll before e.cpu e.bus = .ok (count, e'.cpu) e'.bus)
      (hpc : e'.cpu.pc = addr) (hloop : LoopsAt addr word e'.cpu)

theorem EndsInLoop.pc_eq {addr : Word} (h : EndsInLoop snapshot? addr e e') :
    e'.cpu.pc = addr := by
  cases h with
  | interpreted word hpc hfetch hcpu hloop => rw [hcpu, hpc]
  | translated hmode before word count hblock hbefore hpc hloop => exact hpc

omit [Block.HelperTable] in
/-- An instruction at the program counter that branches to itself loops there. -/
theorem loopsAt_of_execute {word addr : Word} {cpu cpu' : Cpu} {bus bus' : Bus ω}
    (h : (Instruction.decode word).execute cpu.pc word cpu bus =
      .ok (.selfLoop addr, cpu') bus') :
    addr = cpu.pc ∧ cpu' = cpu ∧ bus' = bus ∧ LoopsAt cpu.pc word cpu := by
  obtain ⟨haddr, hcpu, hbus⟩ := Instruction.eq_of_selfLoop h
  obtain ⟨b, hb, hpasses, hexecute, -⟩ := Instruction.exists_branch_of_selfLoop h
  refine ⟨haddr, hcpu, hbus, b, hb, hpasses, ?_⟩
  unfold Branch.execute at hexecute
  dsimp only at hexecute
  split at hexecute
  · rename_i htarget
    exact ⟨by simpa using htarget.2, htarget.1⟩
  · cases hexecute

theorem endsInLoop_of_stepInterpreted {addr : Word}
    (hok : e.stepInterpreted = (.ok (some addr), e')) : EndsInLoop snapshot? addr e e' := by
  obtain ⟨outcome, hstep, hloop⟩ := stepInterpreted_eq_ok_iff.1 hok
  cases loopTarget?_eq_some_iff.1 hloop
  obtain ⟨word, bus, hfetch, hexecute⟩ := Access.bind_eq_ok_iff.1 (cpu_step_of_step hstep)
  obtain ⟨rfl, hcpu, rfl, hloops⟩ := loopsAt_of_execute hexecute
  exact .interpreted word rfl hfetch hcpu hloops

omit [Block.HelperTable] in
/-- A marked block arrives at its last instruction, which changes nothing. -/
theorem executeAll_of_loopMark? {instrs : List Fetched} {next? : Option Word}
    (hcloses : Closes instrs next?) {addr : Word} (hmark : Translator.loopMark? instrs = some addr)
    {cpu cpu' : Cpu} (hfrom : Consecutive cpu.pc instrs) {bus bus' : Bus ω} {count : Nat}
    (h : executeAll instrs cpu bus = .ok (count, cpu') bus') :
    ∃ before word count', instrs = before ++ [⟨addr, word⟩] ∧
      executeAll before cpu bus = .ok (count', cpu') bus' ∧ cpu'.pc = addr ∧
      LoopsAt addr word cpu' := by
  induction instrs generalizing cpu bus count with
  | nil => cases hcloses
  | cons f fs ih =>
      obtain ⟨⟨outcome, after⟩, between, hf, h⟩ := Access.bind_eq_ok_iff.1 h
      obtain ⟨⟨tail, last⟩, hrest, heq⟩ := Access.bind_pure_eq_ok_iff.1 h
      cases heq
      cases fs with
      | nil =>
          obtain ⟨heq, rfl⟩ := Access.pure_eq_ok_iff.1 hrest
          cases heq
          have hloop := outcome_of_loopMark? hmark hf
          subst hloop
          obtain ⟨faddr, word⟩ := f
          cases (hfrom.1 : faddr = cpu.pc)
          obtain ⟨rfl, rfl, rfl, hloops⟩ := loopsAt_of_execute hf
          exact ⟨[], word, 0, rfl, rfl, rfl, hloops⟩
      | cons g fs =>
          have hpc : after.pc = cpu.pc + 4 := by
            rw [← hfrom.1]
            exact Instruction.pc_of_execute hcloses.1 hf
          have hmark' : Translator.loopMark? (g :: fs) = some addr := by
            rw [Translator.loopMark?, List.getLast?_cons_cons] at hmark
            exact hmark
          obtain ⟨before, word, count', hsplit, hbefore, hlast⟩ :=
            ih hcloses.2 hmark' (hpc ▸ hfrom.2) hrest
          refine ⟨f :: before, word, Block.unhandledCount outcome + count',
            congrArg (f :: ·) hsplit, ?_, hlast⟩
          exact Access.bind_eq_ok_iff.2 ⟨_, _, hf,
            Access.bind_pure_eq_ok_iff.2 ⟨(count', last), hbefore, rfl⟩⟩

/-- A step that reports a branch to itself ended with it. -/
theorem endsInLoop_of_runStep (h : e.Sound snapshot?) {addr : Word}
    (hok : e.runStep = (.ok (some addr), e')) : EndsInLoop snapshot? addr e e' := by
  cases hmode : e.config.mode with
  | interpreted =>
      rw [runStep_of_interpreted hmode] at hok
      exact endsInLoop_of_stepInterpreted hok
  | translated =>
      rw [runStep_of_translated hmode] at hok
      cases stepTranslated_cases h with
      | outside hpc hneeds heq => exact endsInLoop_of_stepInterpreted (heq.symm.trans hok)
      | overflow t hneeds hover hidle hlimits hprepared hsnapshot heq =>
          rw [heq] at hok
          cases hok
      | runs t mode ram hpc hfits hready hlimits hheld hprepared hsnapshot heq =>
          have hahead : e.blockAhead snapshot? = fetchBlock ram t.maxBlockLength e.cpu.pc := by
            rw [blockAhead, hpc, if_pos rfl, hsnapshot hmode, ← hlimits.maxBlockLength_eq]
            rfl
          obtain ⟨block, hblock, hfaithful⟩ := hready.exists_faithful hheld
          rw [heq, hprepared] at hok
          cases hall : executeAll (fetchBlock ram t.maxBlockLength e.cpu.pc) e.cpu e.bus with
          | error fault bus =>
              obtain ⟨_, _, hrun⟩ := stepBlock_of_error hready hblock mode hall
              rw [hrun] at hok
              cases hok
          | ok result bus =>
              rw [stepBlock_of_ok hready hblock mode hall, hfaithful.selfLoop?_eq] at hok
              obtain ⟨hmark, heq'⟩ := Prod.mk.inj hok
              subst heq'
              obtain ⟨before, word, count, hsplit, hbefore, hpc', hloops⟩ :=
                executeAll_of_loopMark? (closes_fetchBlock hfaithful.fetched)
                  (Except.ok.inj hmark) (consecutive_fetchBlock ram t.maxBlockLength e.cpu.pc)
                  hall
              exact .translated hmode before word count (hahead.trans hsplit) hbefore hpc' hloops

/-! ## Steps of a run -/

section Runs

variable {exit : ExitCondition ε} {start : Nat} {state state' : ε}

/-- A check that finds nothing to end a run. -/
structure Proceeds (exit : ExitCondition ε) (start : Nat) (state : ε) (e : Emulator ω) : Prop where
  quiet : e.stopRequested = false
  goesOn : (exit state e.cpu).exit = false
  room : e.limitReached start = false

/-- A number of steps of a run, each after a check that finds nothing to end it:
all succeed and none reports a branch to itself. -/
inductive Steps (exit : ExitCondition ε) (start : Nat) :
    Nat → ε → Emulator ω → ε → Emulator ω → Prop where
  | none {state : ε} {e : Emulator ω} : Steps exit start 0 state e state e
  | next {n : Nat} {state last : ε} {e e' e'' : Emulator ω} (hcheck : Proceeds exit start state e)
      (hstep : (e.asked exit state).runStep = (.ok Option.none, e'))
      (hrest : Steps exit start n (exit state e.cpu).next e' last e'') :
      Steps exit start (n + 1) state e last e''

/-- The one way in which a run ends after its last check. -/
inductive Ends (exit : ExitCondition ε) (start : Nat) (state : ε) (e : Emulator ω) :
    Except RunError StopReason → Emulator ω → Prop where
  | stopRequested (hstop : e.stopRequested = true) :
      Ends exit start state e (.ok .stopRequested) { e with stopRequested := false }
  | exitCondition (hquiet : e.stopRequested = false) (hexit : (exit state e.cpu).exit = true) :
      Ends exit start state e (.ok .exitCondition) (e.asked exit state)
  | budgetExhausted (hquiet : e.stopRequested = false) (hgo : (exit state e.cpu).exit = false)
      (hfull : e.limitReached start = true) :
      Ends exit start state e (.ok .budgetExhausted) (e.asked exit state)
  | selfLoop (hcheck : Proceeds exit start state e) {addr : Word} {e' : Emulator ω}
      (hstep : (e.asked exit state).runStep = (.ok (some addr), e')) :
      Ends exit start state e (.ok (.selfLoop addr)) e'
  | failed (hcheck : Proceeds exit start state e) {err : RunError} {e' : Emulator ω}
      (hstep : (e.asked exit state).runStep = (.error err, e')) :
      Ends exit start state e (.error err) e'

section Asked

omit [Block.HelperTable]

/-- To be asked changes nothing but the stop request. -/
theorem asked_eq (exit : ExitCondition ε) (state : ε) (e : Emulator ω) :
    e.asked exit state =
      { e with stopRequested := (exit state e.cpu).requestStop || e.stopRequested } := by
  unfold asked
  split
  · rename_i h
    rw [h]
    rfl
  · rename_i h
    rw [Bool.not_eq_true _ |>.mp h]
    rfl

theorem config_asked : (e.asked exit state).config = e.config := by
  rw [asked_eq]

theorem instructions_asked : (e.asked exit state).instructions = e.instructions := by
  rw [asked_eq]

theorem limitReached_asked : (e.asked exit state).limitReached start = e.limitReached start := by
  rw [asked_eq]
  rfl

end Asked

theorem Reached.asked (exit : ExitCondition ε) (state : ε) (h : Reached snapshot? e) :
    Reached snapshot? (e.asked exit state) := by
  rw [asked_eq]
  exact h.signal _

/-- A check that finds nothing lets the run take a step. -/
theorem runFor_of_proceeds (h : Proceeds exit start state e) (fuel : Nat) :
    runFor exit start (fuel + 1) state e =
      match (e.asked exit state).runStep with
      | (.error err, e') => some (.error err, e')
      | (.ok (some addr), e') => some (.ok (.selfLoop addr), e')
      | (.ok none, e') => runFor exit start fuel (exit state e.cpu).next e' := by
  rewrite [runFor_succ, h.quiet, if_neg Bool.false_ne_true, h.goesOn, if_neg Bool.false_ne_true,
    limitReached_asked, h.room, if_neg Bool.false_ne_true]
  rfl

/-- The steps of a run use up fuel. -/
theorem runFor_of_steps {n : Nat} (h : Steps exit start n state e state' e') (fuel : Nat) :
    runFor exit start (fuel + n) state e = runFor exit start fuel state' e' := by
  induction h with
  | none => rfl
  | next hcheck hstep hrest ih =>
      rw [← Nat.add_assoc, runFor_of_proceeds hcheck, hstep]
      exact ih

/-- One more step after the others. -/
theorem Steps.snoc {n : Nat} (h : Steps exit start n state e state' e')
    (hcheck : Proceeds exit start state' e') {e'' : Emulator ω}
    (hstep : (e'.asked exit state').runStep = (.ok Option.none, e'')) :
    Steps exit start (n + 1) state e (exit state' e'.cpu).next e'' := by
  induction h with
  | none => exact .next hcheck hstep .none
  | next hfirst hsecond hrest ih => exact .next hfirst hsecond (ih hcheck hstep)

/-- Steps lead from one reachable emulator to another. -/
theorem Steps.reached {n : Nat} (hsteps : Steps exit start n state e state' e')
    (h : Reached snapshot? e) : ∃ snapshot?, Reached snapshot? e' := by
  induction hsteps generalizing snapshot? with
  | none => exact ⟨_, h⟩
  | @next n state last e e' e'' hcheck hstep hrest ih =>
      have hnext := (h.asked exit state).runStep
      rw [hstep] at hnext
      exact ih hnext

/-- A run that is at its end ends with the next unit of fuel. -/
theorem runFor_of_ends {result : Except RunError StopReason} (h : Ends exit start state e result e')
    (fuel : Nat) : runFor exit start (fuel + 1) state e = some (result, e') := by
  cases h with
  | stopRequested hstop => rw [runFor_succ, hstop, if_pos rfl]
  | exitCondition hquiet hexit =>
      rw [runFor_succ, hquiet, if_neg Bool.false_ne_true, hexit, if_pos rfl]
  | budgetExhausted hquiet hgo hfull =>
      rw [runFor_succ, hquiet, if_neg Bool.false_ne_true, hgo, if_neg Bool.false_ne_true,
        limitReached_asked, hfull, if_pos rfl]
  | selfLoop hcheck hstep => rw [runFor_of_proceeds hcheck, hstep]
  | failed hcheck hstep => rw [runFor_of_proceeds hcheck, hstep]

/-- A check finds something to end the run, or the run takes a step. -/
theorem ends_or_proceeds (exit : ExitCondition ε) (start : Nat) (state : ε) (e : Emulator ω) :
    (∃ result e', Ends exit start state e result e') ∨
      Proceeds exit start state e ∧ ∃ e', (e.asked exit state).runStep = (.ok none, e') := by
  cases hstop : e.stopRequested with
  | true => exact .inl ⟨_, _, .stopRequested hstop⟩
  | false =>
      cases hexit : (exit state e.cpu).exit with
      | true => exact .inl ⟨_, _, .exitCondition hstop hexit⟩
      | false =>
          cases hlimit : e.limitReached start with
          | true => exact .inl ⟨_, _, .budgetExhausted hstop hexit hlimit⟩
          | false =>
              have hcheck : Proceeds exit start state e := ⟨hstop, hexit, hlimit⟩
              rcases hstep : (e.asked exit state).runStep with ⟨err | ⟨_ | addr⟩, e'⟩
              · exact .inl ⟨_, _, .failed hcheck hstep⟩
              · exact .inr ⟨hcheck, e', rfl⟩
              · exact .inl ⟨_, _, .selfLoop hcheck hstep⟩

/-- A run is a number of steps and one way to end. -/
theorem exists_steps_of_runFor {fuel : Nat} {result : Except RunError StopReason}
    (hrun : runFor exit start fuel state e = some (result, e')) :
    ∃ n state' last, n < fuel ∧ Steps exit start n state e state' last ∧
      Ends exit start state' last result e' := by
  induction fuel generalizing state e with
  | zero => cases hrun
  | succ fuel ih =>
      rcases ends_or_proceeds exit start state e with ⟨result', after, hends⟩ |
        ⟨hcheck, after, hstep⟩
      · rw [runFor_of_ends hends] at hrun
        cases hrun
        exact ⟨0, state, e, Nat.succ_pos fuel, .none, hends⟩
      · rw [runFor_of_proceeds hcheck, hstep] at hrun
        obtain ⟨n, state', last, hn, hsteps, hends⟩ := ih hrun
        exact ⟨n + 1, state', last, Nat.succ_lt_succ hn, .next hcheck hstep hsteps, hends⟩

/-! ## Limited runs -/

variable {limit : Nat}

omit [Block.HelperTable] in
theorem limitReached_eq (hlimit : e.config.instructionLimit? = some limit) :
    e.limitReached start = decide (limit ≤ e.instructions - start) := by
  rw [limitReached, hlimit, Option.any_some]

/-- What is known of the emulator before a check, some steps after a run started:
it is reachable, has the settings it started with, has counted an instruction for
each step, and overshoots the limit by less than a step. -/
structure Accounted (start limit n : Nat) (e last : Emulator ω) : Prop where
  reached : ∃ snapshot?, Reached snapshot? last
  config_eq : last.config = e.config
  counted : e.instructions + n ≤ last.instructions
  within : last.instructions < start + limit + e.stepLimit
  bounded : e.instructions + n ≤ max e.instructions (start + limit)

theorem Accounted.stepLimit_eq {n : Nat} {last : Emulator ω}
    (h : Accounted start limit n e last) : last.stepLimit = e.stepLimit := by
  rw [stepLimit, h.config_eq, stepLimit]

/-- A step after a check that finds room. -/
theorem accounted_step (h : Reached snapshot? e)
    (hlimit : e.config.instructionLimit? = some limit)
    (hlength : e.config.maxBlockLength < 0x100000000) (hcheck : Proceeds exit start state e)
    (hstart : start ≤ e.instructions)
    (hstep : (e.asked exit state).runStep = (.ok halted, e')) : Accounted start limit 1 e e' := by
  have hasked : Reached snapshot? (e.asked exit state) := h.asked exit state
  have hconfig := hasked.sound.runStep_config
  have hreached := hasked.runStep
  rw [hstep] at hconfig hreached
  obtain ⟨n, hpos, hle, hcount⟩ := instructions_of_runStep hasked.sound
    (by rw [config_asked]; exact hlength) hstep
  have hroom : e.instructions - start < limit := by
    have := hcheck.room
    rw [limitReached_eq hlimit, decide_eq_false_iff_not] at this
    omega
  have hsame : (e.asked exit state).stepLimit = e.stepLimit := by
    rw [stepLimit, config_asked, stepLimit]
  rw [instructions_asked] at hcount
  refine ⟨⟨_, hreached⟩, hconfig.trans config_asked, ?_, ?_, ?_⟩
  all_goals omega

/-- Every number of steps is accounted for. -/
theorem Steps.accounted {n : Nat} {last : Emulator ω}
    (hsteps : Steps exit start n state e state' last) (h : Reached snapshot? e)
    (hlimit : e.config.instructionLimit? = some limit)
    (hlength : e.config.maxBlockLength < 0x100000000) (hstart : start ≤ e.instructions)
    (hwithin : e.instructions < start + limit + e.stepLimit) :
    Accounted start limit n e last := by
  induction hsteps generalizing snapshot? with
  | none => exact ⟨⟨_, h⟩, rfl, Nat.le_refl _, hwithin, Nat.le_max_left ..⟩
  | next hcheck hstep hrest ih =>
      have hone := accounted_step h hlimit hlength hcheck hstart hstep
      obtain ⟨_, hnext⟩ := hone.reached
      have hsame := hone.stepLimit_eq
      have hcounted := hone.counted
      have hfirst := hone.bounded
      have hrest := ih hnext (hone.config_eq ▸ hlimit) (hone.config_eq ▸ hlength) (by omega)
        (hsame ▸ hone.within)
      refine ⟨hrest.reached, hrest.config_eq.trans hone.config_eq, ?_, hsame ▸ hrest.within, ?_⟩
      · have := hrest.counted
        omega
      · have := hrest.bounded
        omega

/-- With a limit a run ends before its fuel does. -/
theorem exists_ends (exit : ExitCondition ε) (state : ε) (h : Reached snapshot? e)
    (hlimit : e.config.instructionLimit? = some limit)
    (hlength : e.config.maxBlockLength < 0x100000000) (hstart : start ≤ e.instructions)
    {fuel : Nat} (hpos : 0 < fuel) (hfuel : limit < fuel + (e.instructions - start)) :
    ∃ n state' last result e', n < fuel ∧ Steps exit start n state e state' last ∧
      Ends exit start state' last result e' := by
  induction fuel generalizing snapshot? state e with
  | zero => exact absurd hpos (Nat.lt_irrefl 0)
  | succ fuel ih =>
      rcases ends_or_proceeds exit start state e with ⟨result, e', hends⟩ | ⟨hcheck, e', hstep⟩
      · exact ⟨0, state, e, result, e', Nat.succ_pos fuel, .none, hends⟩
      · have hone := accounted_step h hlimit hlength hcheck hstart hstep
        obtain ⟨_, hnext⟩ := hone.reached
        have hcounted := hone.counted
        have hroom := hcheck.room
        rw [limitReached_eq hlimit, decide_eq_false_iff_not] at hroom
        obtain ⟨n, state', last, result, e'', hn, hsteps, hends⟩ :=
          ih _ hnext (hone.config_eq ▸ hlimit) (hone.config_eq ▸ hlength) (by omega) (by omega)
            (by omega)
        exact ⟨n + 1, state', last, result, e'', Nat.succ_lt_succ hn,
          .next hcheck hstep hsteps, hends⟩

/-- The summary of a run that is at its end after some steps. -/
theorem runUntil?_of_ends {n : Nat} {last : Emulator ω} {result : Except RunError StopReason}
    (hlimit : e.config.instructionLimit? = some limit)
    (hsteps : Steps exit e.instructions n state e state' last)
    (hends : Ends exit e.instructions state' last result e') (hn : n ≤ limit) :
    e.runUntil? exit state =
      some (result.map fun reason => ⟨reason, e'.instructions - e.instructions⟩, e') := by
  have hbound : e.stepBound = limit - n + 1 + n := by
    rw [stepBound, hlimit, Option.getD_some]
    omega
  rw [runUntil?, hbound, runFor_of_steps hsteps, runFor_of_ends hends]
  rfl

/-- What a reason says of the last check and of the end of a run that executed a
number of instructions. -/
def Truthful (exit : ExitCondition ε) (limit executed : Nat) (state : ε)
    (last e' : Emulator ω) : StopReason → Prop
  | .stopRequested =>
    last.stopRequested = true ∧ e'.stopRequested = false ∧ e'.cpu = last.cpu
  | .exitCondition =>
    last.stopRequested = false ∧ (exit state last.cpu).exit = true ∧ e'.cpu = last.cpu
  | .budgetExhausted =>
    last.stopRequested = false ∧ (exit state last.cpu).exit = false ∧ limit ≤ executed
  | .selfLoop addr =>
    last.stopRequested = false ∧ (exit state last.cpu).exit = false ∧ e'.cpu.pc = addr ∧
      ∃ snapshot?, Reached snapshot? last ∧ EndsInLoop snapshot? addr (last.asked exit state) e'

/-- The reason a run ends with is truthful. -/
theorem Ends.truthful {last : Emulator ω} {reason : StopReason}
    (hlimit : last.config.instructionLimit? = some limit) (hreached : Reached snapshot? last)
    (h : Ends exit start state last (.ok reason) e') :
    Truthful exit limit (e'.instructions - start) state last e' reason := by
  cases h with
  | stopRequested hstop => exact ⟨hstop, rfl, rfl⟩
  | exitCondition hquiet hexit => exact ⟨hquiet, hexit, by rw [asked_eq]⟩
  | budgetExhausted hquiet hgo hfull =>
      rw [limitReached_eq hlimit, decide_eq_true_eq] at hfull
      exact ⟨hquiet, hgo, by rw [instructions_asked]; exact hfull⟩
  | selfLoop hcheck hstep =>
      have hloop := endsInLoop_of_runStep (hreached.asked exit state).sound hstep
      exact ⟨hcheck.quiet, hcheck.goesOn, hloop.pc_eq, _, hreached, hloop⟩

/-- What a run counts in the end, for each way to end. -/
theorem Ends.counted {n : Nat} {last : Emulator ω} {reason : StopReason}
    (hlimit : e.config.instructionLimit? = some limit)
    (hlength : e.config.maxBlockLength < 0x100000000)
    (hlast : Accounted start limit n e last) (hstart : start ≤ e.instructions)
    (h : Ends exit start state last (.ok reason) e') :
    e.instructions ≤ e'.instructions ∧ e'.instructions < start + limit + e.stepLimit := by
  have hcounted := hlast.counted
  have hwithin := hlast.within
  cases h with
  | stopRequested hstop =>
      show e.instructions ≤ last.instructions ∧ last.instructions < start + limit + e.stepLimit
      exact ⟨by omega, hwithin⟩
  | exitCondition hquiet hexit =>
      rw [instructions_asked]
      exact ⟨by omega, hwithin⟩
  | budgetExhausted hquiet hgo hfull =>
      rw [instructions_asked]
      exact ⟨by omega, hwithin⟩
  | selfLoop hcheck hstep =>
      obtain ⟨_, hreached⟩ := hlast.reached
      have hone := accounted_step hreached (hlast.config_eq ▸ hlimit) (hlast.config_eq ▸ hlength)
        hcheck (by omega) hstep
      have := hone.counted
      exact ⟨by omega, hlast.stepLimit_eq ▸ hone.within⟩

/-- A run with a limit ends after at most as many successful steps, each of which
counts.  Its summary counts what it executed, at most the limit if it is
interpreted and less than a block more if it is translated, and its reason is what
the last check found first, or the branch to itself that the last step took.  A
stop that the exit condition requests ends the run after one more step, if neither
that call nor the limit nor that step ends it. -/
theorem runUntil?_accounted (h : Reached snapshot? e)
    (hlimit : e.config.instructionLimit? = some limit)
    (hlength : e.config.maxBlockLength < 0x100000000) (exit : ExitCondition ε) (state : ε) :
    (∀ halted e', e.runStep = (.ok halted, e') → e.instructions + 1 ≤ e'.instructions) ∧
    (∃ n state' last result e', n ≤ limit ∧ (∀ addr, result = .ok (.selfLoop addr) → n < limit) ∧
      Steps exit e.instructions n state e state' last ∧
      Ends exit e.instructions state' last result e' ∧
      e.runUntil? exit state =
        some (result.map fun reason => ⟨reason, e'.instructions - e.instructions⟩, e')) ∧
    (∀ summary e', e.runUntil? exit state = some (.ok summary, e') →
      e'.instructions = e.instructions + summary.instructions ∧
      (e.config.mode = .interpreted → summary.instructions ≤ limit) ∧
      (e.config.mode = .translated →
        summary.instructions < limit + e.config.maxBlockLength) ∧
      ∃ n state' last, Steps exit e.instructions n state e state' last ∧
        Truthful exit limit summary.instructions state' last e' summary.reason) ∧
    (∀ n state' last, Steps exit e.instructions n state e state' last →
      last.stopRequested = false → (exit state' last.cpu).requestStop = true →
      (∃ result e', Ends exit e.instructions state' last result e' ∧ e.runUntil? exit state =
        some (result.map fun reason => ⟨reason, e'.instructions - e.instructions⟩, e')) ∨
      (∃ e', last.requestStop.runStep = (.ok none, e') ∧ e.runUntil? exit state =
        some (.ok ⟨.stopRequested, e'.instructions - e.instructions⟩,
          { e' with stopRequested := false }))) := by
  have hpos := stepLimit_pos h.sound
  have accounted {n : Nat} {state' : ε} {last : Emulator ω}
      (hsteps : Steps exit e.instructions n state e state' last) :
      Accounted e.instructions limit n e last :=
    hsteps.accounted h hlimit hlength (Nat.le_refl _) (by omega)
  refine ⟨?counts, ?ends, ?summary, ?request⟩
  case counts =>
    intro halted e' hok
    obtain ⟨n, hn, -, hcount⟩ := instructions_of_runStep h.sound hlength hok
    omega
  case ends =>
    obtain ⟨n, state', last, result, e', -, hsteps, hends⟩ :=
      exists_ends exit state h hlimit hlength (Nat.le_refl e.instructions)
        (Nat.succ_pos limit) (by omega)
    have hlast := accounted hsteps
    have hn : n ≤ limit := by
      have := hlast.bounded
      omega
    refine ⟨n, state', last, result, e', hn, ?_, hsteps, hends,
      runUntil?_of_ends hlimit hsteps hends hn⟩
    rintro addr rfl
    cases hends with
    | selfLoop hcheck hstep =>
        have hroom := hcheck.room
        rw [limitReached_eq (hlast.config_eq ▸ hlimit), decide_eq_false_iff_not] at hroom
        have := hlast.counted
        omega
  case summary =>
    intro summary e' hrun
    obtain ⟨⟨result, after⟩, hfor, heq⟩ := Option.map_eq_some_iff.1 hrun
    obtain ⟨n, state', last, -, hsteps, hends⟩ := exists_steps_of_runFor hfor
    have hlast := accounted hsteps
    obtain ⟨_, hreached⟩ := hlast.reached
    rcases result with err | reason
    · cases heq
    · cases heq
      obtain ⟨hle, hlt⟩ := hends.counted hlimit hlength hlast (Nat.le_refl _)
      refine ⟨by dsimp only; omega, fun hmode => ?_, fun hmode => ?_, n, state', last, hsteps,
        hends.truthful (hlast.config_eq ▸ hlimit) hreached⟩
      · rw [stepLimit, hmode] at hlt
        dsimp only at hlt ⊢
        omega
      · rw [stepLimit, hmode] at hlt
        dsimp only at hlt ⊢
        omega
  case request =>
    intro n state' last hsteps hquiet hrequest
    have hlast := accounted hsteps
    obtain ⟨_, hreached⟩ := hlast.reached
    have hn : n ≤ limit := by
      have := hlast.bounded
      omega
    rcases ends_or_proceeds exit e.instructions state' last with ⟨result, e', hends⟩ |
      ⟨hcheck, e', hstep⟩
    · exact .inl ⟨result, e', hends, runUntil?_of_ends hlimit hsteps hends hn⟩
    · have hasked : last.asked exit state' = last.requestStop := by
        rw [asked, hrequest, if_pos rfl]
      have hkept := (hreached.asked exit state').sound.stopRequested_runStep
      rw [hstep, hasked] at hkept
      have hmore := hsteps.snoc hcheck hstep
      have hnext := (accounted hmore).bounded
      exact .inr ⟨e', hasked ▸ hstep,
        runUntil?_of_ends hlimit hmore (.stopRequested hkept) (by omega)⟩

end Runs

end Emulator

/-! ## A loop with a limit -/

namespace Emulator

attribute [local instance] Block.threeTable

/-- The program of two words with room for a single instruction. -/
def limitedLoop : Emulator Unit :=
  { setAndLoop with config := { small with instructionLimit? := some 1 } }

theorem reached_limitedLoop : Reached none limitedLoop := by
  have hfresh : Reached none (fresh { small with instructionLimit? := some 1 } ()) :=
    reached_fresh rfl ()
  exact hfresh.edit setAndLoop.cpu setAndLoop.bus

/-- A limit of one instruction lets the run execute no more than the two of a block. -/
theorem runUntil?_accounted_limitedLoop :
    ∃ result e', limitedLoop.run? = some (result, e') ∧
      ∀ summary, result = .ok summary →
        e'.instructions = summary.instructions ∧ summary.instructions < 1 + 2 := by
  obtain ⟨-, ⟨_, _, _, result, e', -, -, -, -, hrun⟩, hsummary, -⟩ :=
    runUntil?_accounted reached_limitedLoop rfl (by decide) (fun _ _ => ⟨false, false, ()⟩) ()
  refine ⟨_, _, hrun, fun summary hok => ?_⟩
  obtain ⟨hcount, -, hlt, -⟩ := hsummary summary e' (hok ▸ hrun)
  exact ⟨hcount.trans (Nat.zero_add _), hlt rfl⟩

end Emulator

end ArmEmulator
