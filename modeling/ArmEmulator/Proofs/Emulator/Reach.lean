import ArmEmulator.Proofs.Emulator.Steps

/-!
# Reachable emulators

An emulator is created, loaded, reset, stepped and run in any order, and between
two operations its processor and its bus may be changed at will.  Along with the
emulator goes the memory that its blocks are of: the one at the last region that
was translated since the last reset.

Main results:

- Theorem {lit}`Emulator.Reached.sound`: every reachable emulator satisfies the
  invariant.
- Theorem {lit}`Emulator.Reached.runFor`: a run ends in a reachable emulator.
-/

namespace ArmEmulator

namespace Emulator

variable {ω : Type} [Block.HelperTable]

/-! ## Reachability -/

/-- The emulators that operations lead to, with the memory at the last region that
was translated since the last reset, if there was one. -/
inductive Reached : Option Ram → Emulator ω → Prop where
  | create {config : Configuration} {devices : ω} {e : Emulator ω}
      (h : create config devices = .ok e) : Reached none e
  | loadImage {snapshot? : Option Ram} {e e' : Emulator ω} (h : Reached snapshot? e)
      {image : List Byte} {addr? : Option Word} (hload : e.loadImage image addr? = .ok e') :
      Reached none e'
  | reset {snapshot? : Option Ram} {e : Emulator ω} (h : Reached snapshot? e) (entry : Word) :
      Reached none (e.reset entry)
  | edit {snapshot? : Option Ram} {e : Emulator ω} (h : Reached snapshot? e) (cpu : Cpu)
      (bus : Bus ω) : Reached snapshot? { e with cpu, bus }
  | signal {snapshot? : Option Ram} {e : Emulator ω} (h : Reached snapshot? e)
      (stopRequested : Bool) : Reached snapshot? { e with stopRequested }
  | step {snapshot? : Option Ram} {e : Emulator ω} (h : Reached snapshot? e) :
      Reached snapshot? e.step.2
  | runStep {snapshot? : Option Ram} {e : Emulator ω} (h : Reached snapshot? e) :
      Reached (e.snapshotAfter snapshot?) e.runStep.2

/-! ## Runs -/

section Runs

variable {ε : Type} {exit : ExitCondition ε} {snapshot? : Option Ram} {e e' : Emulator ω}

/-- The emulator after its exit condition was asked, which may request a stop. -/
def asked (exit : ExitCondition ε) (state : ε) (e : Emulator ω) : Emulator ω :=
  if (exit state e.cpu).requestStop then e.requestStop else e

theorem runFor_succ (exit : ExitCondition ε) (start fuel : Nat) (state : ε) (e : Emulator ω) :
    Emulator.runFor exit start (fuel + 1) state e =
      if e.stopRequested then
        some (.ok .stopRequested, { e with stopRequested := false })
      else if (exit state e.cpu).exit then
        some (.ok .exitCondition, e.asked exit state)
      else if (e.asked exit state).limitReached start then
        some (.ok .budgetExhausted, e.asked exit state)
      else
        match (e.asked exit state).runStep with
        | (.error err, e) => some (.error err, e)
        | (.ok (some addr), e) => some (.ok (.selfLoop addr), e)
        | (.ok none, e') => Emulator.runFor exit start fuel (exit state e.cpu).next e' := rfl

/-- A run ends in a reachable emulator. -/
theorem Reached.runFor (h : Reached snapshot? e) {start fuel : Nat} {state : ε}
    {result : Except RunError StopReason}
    (hrun : runFor exit start fuel state e = some (result, e')) :
    ∃ snapshot?, Reached snapshot? e' := by
  induction fuel generalizing snapshot? e state with
  | zero => cases hrun
  | succ fuel ih =>
      have hasked : Reached snapshot? (e.asked exit state) := by
        unfold asked
        split
        · exact h.signal true
        · exact h
      rw [runFor_succ] at hrun
      split at hrun
      · cases hrun
        exact ⟨_, h.signal false⟩
      split at hrun
      · cases hrun
        exact ⟨_, hasked⟩
      split at hrun
      · cases hrun
        exact ⟨_, hasked⟩
      have hstep := hasked.runStep
      cases hresult : (e.asked exit state).runStep with
      | mk outcome after =>
          rw [hresult] at hrun hstep
          rcases outcome with err | ⟨_ | addr⟩
          · cases hrun
            exact ⟨_, hstep⟩
          · exact ih hstep hrun
          · cases hrun
            exact ⟨_, hstep⟩

/-- A run until a condition holds ends in a reachable emulator. -/
theorem Reached.runUntil? (h : Reached snapshot? e) {state : ε}
    {result : Except RunError RunSummary} (hrun : e.runUntil? exit state = some (result, e')) :
    ∃ snapshot?, Reached snapshot? e' := by
  obtain ⟨⟨reason, last⟩, hfor, heq⟩ := Option.map_eq_some_iff.1 hrun
  cases heq
  exact h.runFor hfor

end Runs

/-! ## The invariant along operations -/

/-- The emulator that is created from valid settings. -/
def fresh (config : Configuration) (devices : ω) : Emulator ω where
  cpu := .reset config.defaultEntry config.stackTop
  bus := .ofRam (.zeroed config.ramBase config.ramSize.toNat) devices
  config
  translator? := none
  mode := .interpreted
  stopRequested := false
  instructions := 0
  unhandled := 0

omit [Block.HelperTable] in
theorem create_eq_ok_iff {config : Configuration} {devices : ω} {e : Emulator ω} :
    create config devices = .ok e ↔ config.validate = .ok () ∧ fresh config devices = e := by
  unfold create
  cases config.validate with
  | error err =>
      constructor
      · intro h
        cases h
      · intro h
        cases h.1
  | ok u =>
      show (Except.ok (fresh config devices) = Except.ok e) ↔ _
      rw [Except.ok.injEq]
      constructor
      · intro h
        exact ⟨rfl, h⟩
      · exact And.right

theorem reached_fresh {config : Configuration} (h : config.validate = .ok ()) (devices : ω) :
    Reached none (fresh config devices) :=
  .create (create_eq_ok_iff.2 ⟨h, rfl⟩)

section Preservation

variable {snapshot? : Option Ram} {e e' : Emulator ω}

theorem sound_fresh {config : Configuration} (h : config.validate = .ok ()) (devices : ω) :
    (fresh config devices).Sound snapshot? where
  valid := h
  limits _ ht := nomatch ht
  phase _ ht := nomatch ht

/-- A reset keeps no block. -/
theorem Sound.reset (h : e.Sound snapshot?) (entry : Word) : (e.reset entry).Sound none where
  valid := h.valid
  limits t ht := by
    obtain ⟨held, hheld, rfl⟩ := Option.map_eq_some_iff.1 ht
    exact (h.limits held hheld).trans (Translator.sameLimits_reset held)
  phase t ht := by
    obtain ⟨held, hheld, rfl⟩ := Option.map_eq_some_iff.1 ht
    exact .inl (Translator.idle_reset held)

omit [Block.HelperTable] in
/-- A loaded image is a reset after its bytes were stored. -/
theorem exists_stored_of_loadImage {image : List Byte} {addr? : Option Word}
    (hload : e.loadImage image addr? = .ok e') :
    ∃ (loaded : Emulator ω) (addr : Word), loaded.config = e.config ∧
      loaded.translator? = e.translator? ∧
      (∃ i, loaded.bus.ram = e.bus.ram.putBytes i image) ∧ e' = loaded.reset addr := by
  unfold loadImage at hload
  dsimp only at hload
  split at hload
  · cases hload
  · split at hload
    · rename_i ram hstore
      cases hload
      obtain ⟨i, -, hstored⟩ := Option.map_eq_some_iff.1 hstore
      exact ⟨{ e with bus := { e.bus with ram } }, _, rfl, rfl, ⟨i, hstored.symm⟩, rfl⟩
    · cases hload

omit [Block.HelperTable] in
/-- A loaded image is a reset on another bus. -/
theorem exists_reset_of_loadImage {image : List Byte} {addr? : Option Word}
    (hload : e.loadImage image addr? = .ok e') :
    ∃ (loaded : Emulator ω) (addr : Word), loaded.config = e.config ∧
      loaded.translator? = e.translator? ∧ e' = loaded.reset addr := by
  obtain ⟨loaded, addr, hconfig, htranslator, -, heq⟩ := exists_stored_of_loadImage hload
  exact ⟨loaded, addr, hconfig, htranslator, heq⟩

theorem sound_equipped (hvalid : e.config.validate = .ok ()) {t : Translator} {ram : Ram}
    (hlimits : (Translator.ofConfiguration e.config).SameLimits t) (hready : t.Ready ram)
    (mode : ExecMode) : (e.equipped t mode).Sound (some ram) where
  valid := hvalid
  limits t' ht := by
    cases ht
    exact hlimits
  phase t' ht := by
    cases ht
    exact .inr ⟨ram, rfl, hready⟩

omit [Block.HelperTable] in
theorem stepInterpreted_config_translator? (e : Emulator ω) :
    e.stepInterpreted.2.config = e.config ∧ e.stepInterpreted.2.translator? = e.translator? := by
  rw [stepInterpreted_snd]
  exact step_config_translator? e

/-- Running a block changes neither the configuration nor the translator. -/
theorem stepBlock_config_translator? (e : Emulator ω) :
    e.stepBlock.2.config = e.config ∧ e.stepBlock.2.translator? = e.translator? := by
  unfold stepBlock
  split
  · exact stepInterpreted_config_translator? e
  · dsimp only
    split
    · exact ⟨rfl, rfl⟩
    · exact stepInterpreted_config_translator? _
    · exact ⟨rfl, rfl⟩

/-- Preparing a translated step keeps the invariant. -/
theorem Sound.prepared (h : e.Sound snapshot?) (hmode : e.config.mode = .translated) :
    e.prepared.Sound (e.snapshotAfter snapshot?) := by
  cases stepTranslated_cases h with
  | outside hpc hneeds heq =>
      rw [prepared_of_not_needsRegion hneeds, snapshotAfter_of_not_needsRegion hneeds]
      exact h
  | overflow t hneeds hover hidle hlimits hprepared hsnapshot heq =>
      rw [hprepared, hsnapshot]
      refine ⟨h.valid, ?_, ?_⟩
      · rintro t' ⟨⟩
        exact hlimits
      · rintro t' ⟨⟩
        exact .inl hidle
  | runs t mode ram hpc hfits hready hlimits hblock hprepared hsnapshot heq =>
      rw [hprepared, hsnapshot hmode]
      exact sound_equipped h.valid hlimits hready mode

/-- Preparing a translated step keeps the configuration. -/
theorem Sound.prepared_config (h : e.Sound snapshot?) : e.prepared.config = e.config := by
  cases stepTranslated_cases h with
  | outside hpc hneeds heq => rw [prepared_of_not_needsRegion hneeds]
  | overflow t hneeds hover hidle hlimits hprepared hsnapshot heq =>
      rw [hprepared]
      rfl
  | runs t mode ram hpc hfits hready hlimits hblock hprepared hsnapshot heq =>
      rw [hprepared]
      rfl

/-- Once prepared, a translated step changes neither the configuration nor the
translator. -/
theorem Sound.stepTranslated_config_translator? (h : e.Sound snapshot?) :
    e.stepTranslated.2.config = e.prepared.config ∧
      e.stepTranslated.2.translator? = e.prepared.translator? := by
  cases stepTranslated_cases h with
  | outside hpc hneeds heq =>
      rw [prepared_of_not_needsRegion hneeds, heq]
      exact stepInterpreted_config_translator? e
  | overflow t hneeds hover hidle hlimits hprepared hsnapshot heq =>
      rw [heq]
      exact ⟨rfl, rfl⟩
  | runs t mode ram hpc hfits hready hlimits hblock hprepared hsnapshot heq =>
      rw [heq]
      exact stepBlock_config_translator? e.prepared

/-- A step of a run keeps the invariant. -/
theorem Sound.runStep (h : e.Sound snapshot?) :
    e.runStep.2.Sound (e.snapshotAfter snapshot?) := by
  cases hmode : e.config.mode with
  | interpreted =>
      rw [runStep_of_interpreted hmode, snapshotAfter, if_neg (by simp [hmode])]
      exact h.congr (stepInterpreted_config_translator? e).1
        (stepInterpreted_config_translator? e).2
  | translated =>
      rw [runStep_of_translated hmode]
      have hkept := h.stepTranslated_config_translator?
      exact (h.prepared hmode).congr hkept.1 hkept.2

/-- A step of a run keeps the configuration. -/
theorem Sound.runStep_config (h : e.Sound snapshot?) : e.runStep.2.config = e.config := by
  cases hmode : e.config.mode with
  | interpreted =>
      rw [runStep_of_interpreted hmode]
      exact (stepInterpreted_config_translator? e).1
  | translated =>
      rw [runStep_of_translated hmode, h.stepTranslated_config_translator?.1, h.prepared_config]

end Preservation

/-- Every reachable emulator satisfies the invariant. -/
theorem Reached.sound {snapshot? : Option Ram} {e : Emulator ω} (h : Reached snapshot? e) :
    e.Sound snapshot? := by
  induction h with
  | create h =>
      obtain ⟨hvalid, rfl⟩ := create_eq_ok_iff.1 h
      exact sound_fresh hvalid _
  | loadImage h hload ih =>
      obtain ⟨loaded, addr, hconfig, htranslator, rfl⟩ := exists_reset_of_loadImage hload
      exact (ih.congr hconfig htranslator).reset addr
  | reset h entry ih => exact ih.reset entry
  | edit h cpu bus ih => exact ih.congr rfl rfl
  | signal h stopRequested ih => exact ih.congr rfl rfl
  | step h ih => exact ih.congr (step_config_translator? _).1 (step_config_translator? _).2
  | runStep h ih => exact ih.runStep

end Emulator

/-! ## A program of two words -/

namespace Emulator

attribute [local instance] Block.threeTable

/-- Settings with little room: two instructions a block, one block a region. -/
def small : Configuration where
  ramBase := 0
  ramSize := 0x1000
  defaultEntry := 0
  stackGuard := 0
  instructionLimit? := none
  mode := .translated
  codeCacheSize := 0x1000
  maxBlockLength := 2
  regionBlockLimit := 1
  trace := false

/-- A fresh emulator with the words of a program at its entry. -/
def loaded (words : List Word) : Emulator Unit :=
  { fresh small () with
    bus := .ofRam ((Ram.zeroed 0 0x1000).putBytes 0 (words.flatMap Word.bytes)) () }

theorem reached_loaded (words : List Word) : Reached none (loaded words) := by
  have hfresh : Reached none (fresh small ()) := reached_fresh rfl ()
  exact hfresh.edit (fresh small ()).cpu (loaded words).bus

/-- A program that sets a register and then branches to itself. -/
def setAndLoop : Emulator Unit := loaded [0xe3a0002a, 0xeafffffe]

theorem reached_setAndLoop : Reached none setAndLoop :=
  reached_loaded _

/-- The program is a block that fits into the empty cache. -/
theorem fits_setAndLoop :
    (Translator.blockBytes setAndLoop.blockAtPc).length ≤ setAndLoop.cacheCapacity := by
  rw [Host.Code.length_of_encode? (Translator.encode?_blockCode _)]
  decide

/-- The first step leaves that block. -/
theorem runStep_setAndLoop :
    ∃ t, setAndLoop.runStep.2.translator? = some t ∧ t.contains 0 = true ∧
      setAndLoop.snapshotAfter none = some setAndLoop.bus.ram := by
  have hsound : setAndLoop.Sound none := reached_setAndLoop.sound
  have hneeds : setAndLoop.needsRegion = true := by decide
  obtain ⟨t, hregion, -, -, hheld⟩ := retranslate_of_fits hsound (by decide) fits_setAndLoop
  refine ⟨t, ?_, hheld, ?_⟩
  · rw [runStep_of_translated rfl, hsound.stepTranslated_config_translator?.2, prepared, hneeds,
      if_pos rfl, hregion, translator?_equipped]
  · rw [snapshotAfter, hregion, if_pos ⟨rfl, hneeds, rfl⟩]

end Emulator

end ArmEmulator
