import ArmEmulator.Proofs.Emulator.Reach

/-!
# Life cycle of the translator

Between two operations there is no translator, or a writable one without blocks,
or an executable one with blocks.  A translated step has made sure of a block
before it runs one, so it finds one and may run it; only a block larger than the
empty cache cannot be translated.

Main results:

- Theorem {lit}`Emulator.stepTranslated_eq_translateError_iff`: when a step fails
  to translate, and how.
- Theorem {lit}`Emulator.translator_lifeCycle`: the states of the translator and
  what they rule out in steps and runs.
-/

namespace ArmEmulator

/-! ## Finalized blocks -/

namespace Translator

variable {ω : Type} [Block.HelperTable] {t : Translator} {ram : Ram} {pc : Word}

/-- A block that is held runs. -/
theorem Ready.execute_ne (h : t.Ready ram) (hheld : t.contains pc = true) (cpu : Cpu)
    (bus : Bus ω) :
    (t.execute pc cpu bus).1 ≠ .ok none ∧ (t.execute pc cpu bus).1 ≠ .error .notFinalized := by
  obtain ⟨block, hblock, hfaithful⟩ := h.exists_faithful hheld
  cases hall : Block.executeAll (fetchBlock ram t.maxBlockLength pc) cpu bus with
  | ok result bus' =>
      rw [execute_of_ok hblock hfaithful h.executable hall]
      exact ⟨nofun, nofun⟩
  | error fault bus' =>
      obtain ⟨addr, cpu', hrun⟩ := execute_of_error hblock hfaithful h.executable hall
      rw [hrun]
      exact ⟨nofun, nofun⟩

end Translator

namespace Emulator

variable {ω : Type} {snapshot? : Option Ram} {e : Emulator ω}

/-! ## Failing steps -/

/-- An interpreted step fails with a fault only. -/
theorem stepInterpreted_error {err : RunError} (h : e.stepInterpreted.1 = .error err) :
    ∃ pc n reason, err = .fault pc n reason := by
  unfold stepInterpreted at h
  split at h
  · cases h
  · cases h
  · cases h
    exact ⟨_, _, _, rfl⟩

variable [Block.HelperTable]

/-- A block that is held fails with a fault only. -/
theorem stepBlock_error {t : Translator} {mode : ExecMode} {ram : Ram} (hready : t.Ready ram)
    (hheld : t.contains e.cpu.pc = true) {err : RunError}
    (h : (e.equipped t mode).stepBlock.1 = .error err) :
    ∃ addr reason, err = .execute e.cpu.pc e.instructions (.fault addr reason) := by
  obtain ⟨block, hblock, -⟩ := hready.exists_faithful hheld
  cases hall : Block.executeAll (fetchBlock ram t.maxBlockLength e.cpu.pc) e.cpu e.bus with
  | ok result bus =>
      rw [stepBlock_of_ok hready hblock mode hall] at h
      cases h
  | error fault bus =>
      obtain ⟨addr, cpu, hrun⟩ := stepBlock_of_error hready hblock mode hall
      rw [hrun] at h
      cases h
      exact ⟨addr, _, rfl⟩

/-- A step fails to translate exactly when it needs a block that is larger than the
empty cache, and says so. -/
theorem stepTranslated_eq_translateError_iff (h : e.Sound snapshot?) {pc : Word} {n : Nat}
    {cause : TranslateError} :
    e.stepTranslated.1 = .error (.translate pc n cause) ↔
      e.needsRegion = true ∧ e.cacheCapacity < (Translator.blockBytes e.blockAtPc).length ∧
        pc = e.cpu.pc ∧ n = e.instructions ∧
        cause = .cacheExhausted e.cpu.pc (Translator.blockBytes e.blockAtPc).length 0
          e.cacheCapacity := by
  cases stepTranslated_cases h with
  | outside hpc hneeds heq =>
      constructor
      · intro herr
        rw [heq] at herr
        obtain ⟨_, _, _, hfault⟩ := stepInterpreted_error herr
        cases hfault
      · rintro ⟨hneeds', -⟩
        exact nomatch hneeds.symm.trans hneeds'
  | overflow t hneeds hover hidle hlimits hprepared hsnapshot heq =>
      rw [heq]
      constructor
      · intro herr
        cases herr
        exact ⟨hneeds, hover, rfl, rfl, rfl⟩
      · rintro ⟨-, -, rfl, rfl, rfl⟩
        rfl
  | runs t mode ram hpc hfits hready hlimits hblock hprepared hsnapshot heq =>
      constructor
      · intro herr
        rw [heq, hprepared] at herr
        obtain ⟨_, _, hfault⟩ := stepBlock_error hready hblock herr
        cases hfault
      · rintro ⟨hneeds, hover, -⟩
        exact absurd (hfits hneeds) (Nat.not_le_of_lt hover)

/-- No step finds the cache writable when it runs a block. -/
theorem stepTranslated_ne_notFinalized (h : e.Sound snapshot?) (pc : Word) (n : Nat) :
    e.stepTranslated.1 ≠ .error (.execute pc n .notFinalized) := by
  intro herr
  cases stepTranslated_cases h with
  | outside hpc hneeds heq =>
      rw [heq] at herr
      obtain ⟨_, _, _, hfault⟩ := stepInterpreted_error herr
      cases hfault
  | overflow t hneeds hover hidle hlimits hprepared hsnapshot heq =>
      rw [heq] at herr
      cases herr
  | runs t mode ram hpc hfits hready hlimits hblock hprepared hsnapshot heq =>
      rw [heq, hprepared] at herr
      obtain ⟨_, _, hfault⟩ := stepBlock_error hready hblock herr
      cases hfault

/-- Once a region is there if one is needed, a step in memory runs the block at the
program counter and finds it. -/
theorem exists_execute_of_stepTranslated (h : e.Sound snapshot?)
    (hpc : e.bus.ram.contains e.cpu.pc 4 = true)
    (hregion : e.needsRegion = true → (e.retranslate e.cpu.pc).1 = .ok ()) :
    ∃ t, e.prepared.translator? = some t ∧ e.stepTranslated = e.prepared.stepBlock ∧
      (t.execute e.cpu.pc e.cpu e.bus).1 ≠ .ok none ∧
      (t.execute e.cpu.pc e.cpu e.bus).1 ≠ .error .notFinalized := by
  cases stepTranslated_cases h with
  | outside hout hneeds heq => exact nomatch hout.symm.trans hpc
  | overflow t hneeds hover hidle hlimits hprepared hsnapshot heq =>
      obtain ⟨t', -, -, hfails⟩ := retranslate_of_overflow h hpc hover
      rw [hfails] at hregion
      exact nomatch hregion hneeds
  | runs t mode ram hpc' hfits hready hlimits hblock hprepared hsnapshot heq =>
      exact ⟨t, by rw [hprepared, translator?_equipped], heq,
        hready.execute_ne hblock e.cpu e.bus⟩

/-! ## Failing runs -/

section Runs

variable {ε : Type} {exit : ExitCondition ε} {e' : Emulator ω}

/-- A run fails only through one of its steps. -/
theorem Sound.step_of_runFor_error (h : e.Sound snapshot?) {start fuel : Nat} {state : ε}
    {err : RunError} (hrun : runFor exit start fuel state e = some (.error err, e')) :
    ∃ snapshot? last, Sound snapshot? last ∧ last.config = e.config ∧
      last.runStep = (.error err, e') := by
  induction fuel generalizing snapshot? e state with
  | zero => cases hrun
  | succ fuel ih =>
      have hconfig : (e.asked exit state).config = e.config := by
        unfold asked
        split <;> rfl
      have htranslator : (e.asked exit state).translator? = e.translator? := by
        unfold asked
        split <;> rfl
      have hasked : (e.asked exit state).Sound snapshot? := h.congr hconfig htranslator
      rw [runFor_succ] at hrun
      split at hrun
      · cases hrun
      split at hrun
      · cases hrun
      split at hrun
      · cases hrun
      have hstep := hasked.runStep
      have hkept := hasked.runStep_config
      cases hresult : (e.asked exit state).runStep with
      | mk outcome after =>
          rw [hresult] at hrun hstep hkept
          rcases outcome with err | ⟨_ | addr⟩
          · cases hrun
            exact ⟨_, _, hasked, hconfig, hresult⟩
          · obtain ⟨s, last, hlast, hsame, herr⟩ := ih hstep hrun
            exact ⟨s, last, hlast, hsame.trans (hkept.trans hconfig), herr⟩
          · cases hrun

end Runs

/-! ## Life cycle -/

/-- The translator of a reachable emulator is absent, or writable without blocks,
or executable with blocks up to the limits.  So a translated step that needs no
region, or has translated one, finds its block and may run it; a step fails to
translate exactly when its block is larger than the empty cache; and no run fails
otherwise for want of a block. -/
theorem translator_lifeCycle (h : Reached snapshot? e)
    (hlength : e.config.maxBlockLength < 0x100000000) :
    (∀ t, e.translator? = some t →
      (t.isFinalized = false ∧ t.blocks.size = 0) ∨
      (t.isFinalized = true ∧ 1 ≤ t.blocks.size ∧ t.blocks.size ≤ e.config.regionBlockLimit ∧
        ∀ (start : Word) block, t.blocks[start]? = some block →
          1 ≤ block.instructionCount.toNat ∧
            block.instructionCount.toNat ≤ e.config.maxBlockLength)) ∧
    (e.bus.ram.contains e.cpu.pc 4 = true →
      (e.needsRegion = true → (e.retranslate e.cpu.pc).1 = .ok ()) →
        ∃ t, e.prepared.translator? = some t ∧ e.stepTranslated = e.prepared.stepBlock ∧
          (t.execute e.cpu.pc e.cpu e.bus).1 ≠ .ok none ∧
          (t.execute e.cpu.pc e.cpu e.bus).1 ≠ .error .notFinalized) ∧
    (∀ pc n, e.stepTranslated.1 ≠ .error (.execute pc n .notFinalized)) ∧
    (∀ pc n cause, e.stepTranslated.1 = .error (.translate pc n cause) ↔
      e.needsRegion = true ∧ e.cacheCapacity < (Translator.blockBytes e.blockAtPc).length ∧
        pc = e.cpu.pc ∧ n = e.instructions ∧
        cause = .cacheExhausted e.cpu.pc (Translator.blockBytes e.blockAtPc).length 0
          e.cacheCapacity) ∧
    (∀ (ε : Type) (exit : ExitCondition ε) start fuel state err e',
      runFor exit start fuel state e = some (.error err, e') →
        (∀ pc n, err ≠ .execute pc n .notFinalized) ∧
        ∀ pc n cause, err = .translate pc n cause →
          ∃ needed, e.cacheCapacity < needed ∧
            cause = .cacheExhausted pc needed 0 e.cacheCapacity) := by
  have hs := h.sound
  refine ⟨?_, exists_execute_of_stepTranslated hs, stepTranslated_ne_notFinalized hs,
    fun pc n cause => stepTranslated_eq_translateError_iff hs, ?_⟩
  · intro t ht
    have hlimits := hs.limits t ht
    have hmax : t.maxBlockLength = e.config.maxBlockLength := hlimits.maxBlockLength_eq.symm
    have hregion : t.regionBlockLimit = e.config.regionBlockLimit :=
      hlimits.regionBlockLimit_eq.symm
    rcases hs.phase t ht with hidle | ⟨ram, -, hready⟩
    · exact .inl ⟨hidle.writable, hidle.empty⟩
    · refine .inr ⟨hready.executable, hready.nonempty, hregion ▸ hready.limited, ?_⟩
      intro start block hblock
      rw [(hready.faithful start block hblock).instructionCount_eq (hmax ▸ hlength), ← hmax]
      exact ⟨List.length_pos_iff.2 (hready.faithful start block hblock).fetched,
        length_fetchBlock_le _ _ _⟩
  · intro ε exit start fuel state err e' hrun
    obtain ⟨_, last, hlast, hconfig, hstep⟩ := hs.step_of_runFor_error hrun
    have hcapacity : last.cacheCapacity = e.cacheCapacity := by
      rw [cacheCapacity, hconfig, cacheCapacity]
    have herr : last.runStep.1 = .error err := by rw [hstep]
    cases hmode : last.config.mode with
    | interpreted =>
        rw [runStep_of_interpreted hmode] at herr
        obtain ⟨_, _, _, rfl⟩ := stepInterpreted_error herr
        exact ⟨nofun, nofun⟩
    | translated =>
        rw [runStep_of_translated hmode] at herr
        constructor
        · rintro pc n rfl
          exact stepTranslated_ne_notFinalized hlast pc n herr
        · rintro pc n cause rfl
          obtain ⟨-, hover, rfl, -, rfl⟩ := (stepTranslated_eq_translateError_iff hlast).1 herr
          rw [hcapacity] at hover ⊢
          exact ⟨_, hover, rfl⟩

end Emulator

/-! ## The program of two words -/

namespace Emulator

attribute [local instance] Block.threeTable

theorem translator_lifeCycle_setAndLoop :
    ∃ t, setAndLoop.runStep.2.translator? = some t ∧ t.isFinalized = true ∧
      t.blocks.size = 1 := by
  obtain ⟨t, ht, hheld, -⟩ := runStep_setAndLoop
  have hconfig := reached_setAndLoop.sound.runStep_config
  have hlength : setAndLoop.runStep.2.config.maxBlockLength < 0x100000000 := by
    rw [hconfig]
    decide
  rcases (translator_lifeCycle reached_setAndLoop.runStep hlength).1 t ht with ⟨-, hempty⟩ |
    ⟨hfinalized, hleast, hmost, -⟩
  · exact absurd hempty (Nat.ne_of_gt (Translator.size_pos_of_contains hheld))
  · rw [hconfig] at hmost
    exact ⟨t, ht, hfinalized, Nat.le_antisymm hmost hleast⟩

end Emulator

end ArmEmulator
