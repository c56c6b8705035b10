import ArmEmulator.Proofs.Emulator.Accounting
import ArmEmulator.Proofs.Emulator.LifeCycle

/-!
# Reported mode

An emulator reports the translated mode once a region was translated, until it is
reset.  A new region starts by dropping the blocks there are, so a step that fails to
translate leaves none, and it does not change the mode that is reported.

Main results:

- Theorem {lit}`Emulator.finalized_iff_not_stripped`: an emulator in translated mode
  has the region last translated ready to run exactly when no failure to translate has
  dropped it since.
-/

namespace ArmEmulator

open Block (executeAll)

namespace Emulator

variable {ω : Type} {snapshot? : Option Ram} {e : Emulator ω}

/-! ## What keeps the mode -/

theorem mode_step (e : Emulator ω) : e.step.2.mode = e.mode := by
  unfold step
  split <;> rfl

theorem mode_stepInterpreted (e : Emulator ω) : e.stepInterpreted.2.mode = e.mode := by
  rw [stepInterpreted_snd, mode_step]

variable [Block.HelperTable]

theorem mode_stepBlock (e : Emulator ω) : e.stepBlock.2.mode = e.mode := by
  unfold stepBlock
  split
  · exact mode_stepInterpreted e
  · dsimp only
    split
    · rfl
    · exact mode_stepInterpreted _
    · rfl

/-- The next step of a run translates nothing. -/
def TranslatesNothing (e : Emulator ω) : Prop :=
  e.config.mode = .interpreted ∨ e.needsRegion = false

theorem TranslatesNothing.runStep_eq (h : e.TranslatesNothing) :
    e.runStep = e.stepBlock ∨ e.runStep = e.stepInterpreted := by
  cases hmode : e.config.mode with
  | interpreted => exact .inr (runStep_of_interpreted hmode)
  | translated =>
    have hneeds : e.needsRegion = false := h.resolve_left (by rw [hmode]; nofun)
    rw [runStep_of_translated hmode]
    unfold stepTranslated
    dsimp only
    cases hpc : e.bus.ram.contains e.cpu.pc 4 with
    | false => exact .inr rfl
    | true =>
      have hheld : e.translator?.any (·.contains e.cpu.pc) = true := by
        simpa [needsRegion, hpc] using hneeds
      rw [if_pos rfl, hheld]
      exact .inl rfl

theorem TranslatesNothing.mode_runStep (h : e.TranslatesNothing) : e.runStep.2.mode = e.mode := by
  rcases h.runStep_eq with heq | heq <;> rw [heq]
  · exact mode_stepBlock e
  · exact mode_stepInterpreted e

theorem TranslatesNothing.translator?_runStep (h : e.TranslatesNothing) :
    e.runStep.2.translator? = e.translator? := by
  rcases h.runStep_eq with heq | heq <;> rw [heq]
  · exact (stepBlock_config_translator? e).2
  · exact (stepInterpreted_config_translator? e).2

theorem TranslatesNothing.snapshotAfter_eq (h : e.TranslatesNothing) :
    e.snapshotAfter snapshot? = snapshot? := by
  rw [snapshotAfter, if_neg]
  rintro ⟨hmode, hneeds, -⟩
  rcases h with h | h
  · cases hmode.symm.trans h
  · cases hneeds.symm.trans h

/-! ## Failures to translate -/

/-- The emulators whose blocks a failure to translate has dropped, with no region
translated and no reset since. -/
inductive Stripped : Emulator ω → Prop where
  | fail {snapshot? : Option Ram} {e : Emulator ω} (h : Reached snapshot? e) {pc : Word} {n : Nat}
      {cause : TranslateError} (herr : e.runStep.1 = .error (.translate pc n cause)) :
      Stripped e.runStep.2
  | edit {e : Emulator ω} (h : Stripped e) (cpu : Cpu) (bus : Bus ω) :
      Stripped { e with cpu, bus }
  | signal {e : Emulator ω} (h : Stripped e) (stopRequested : Bool) :
      Stripped { e with stopRequested }
  | step {e : Emulator ω} (h : Stripped e) : Stripped e.step.2
  | runStep {e : Emulator ω} (h : Stripped e) (hkept : e.TranslatesNothing) :
      Stripped e.runStep.2

/-- The translator exists, can be run, and holds the region last translated. -/
def Finalized (snapshot? : Option Ram) (e : Emulator ω) : Prop :=
  ∃ t ram, e.translator? = some t ∧ snapshot? = some ram ∧ t.isFinalized = true ∧ t.Ready ram

/-- Only the translator matters. -/
theorem Finalized.congr {e' : Emulator ω} (h : e.Finalized snapshot?)
    (htranslator : e'.translator? = e.translator?) : e'.Finalized snapshot? := by
  unfold Finalized
  rw [htranslator]
  exact h

/-- A failure to translate leaves a translator without blocks. -/
theorem Sound.exists_idle_of_translateError (h : e.Sound snapshot?) {pc : Word} {n : Nat}
    {cause : TranslateError} (herr : e.runStep.1 = .error (.translate pc n cause)) :
    ∃ t, e.runStep.2.translator? = some t ∧ t.Idle := by
  cases hmode : e.config.mode with
  | interpreted =>
    rw [runStep_of_interpreted hmode] at herr
    obtain ⟨_, _, _, hfault⟩ := stepInterpreted_error herr
    cases hfault
  | translated =>
    rw [runStep_of_translated hmode] at herr ⊢
    obtain ⟨hneeds, hover, -⟩ := (stepTranslated_eq_translateError_iff h).1 herr
    cases stepTranslated_cases h with
    | outside hpc hneeds' heq => exact nomatch hneeds.symm.trans hneeds'
    | overflow t _ _ hidle _ hprepared _ heq =>
      rw [heq, hprepared]
      exact ⟨t, rfl, hidle⟩
    | runs t mode ram _ hfits => exact absurd (hfits hneeds) (Nat.not_le_of_lt hover)

/-! ## The translator behind the mode -/

/-- A failure to translate leaves nothing to run. -/
theorem Stripped.exists_idle (h : Stripped e) : ∃ t, e.translator? = some t ∧ t.Idle := by
  induction h with
  | fail h herr => exact h.sound.exists_idle_of_translateError herr
  | edit h cpu bus ih => exact ih
  | signal h stopRequested ih => exact ih
  | step h ih => rwa [(step_config_translator? _).2]
  | runStep h hkept ih => rwa [hkept.translator?_runStep]

theorem Stripped.not_finalized (h : Stripped e) : ¬e.Finalized snapshot? := by
  rintro ⟨t, ram, ht, -, hfinalized, -⟩
  obtain ⟨t', ht', hidle⟩ := h.exists_idle
  cases ht.symm.trans ht'
  exact nomatch hfinalized.symm.trans hidle.writable

/-- A step of a run that ends in translated mode has its region ready, or fails to
translate, or leaves all as it was. -/
theorem finalized_or_stripped_runStep (h : Reached snapshot? e)
    (ih : e.mode = .translated → e.Finalized snapshot? ∨ Stripped e)
    (hmode : e.runStep.2.mode = .translated) :
    e.runStep.2.Finalized (e.snapshotAfter snapshot?) ∨ Stripped e.runStep.2 := by
  by_cases hkept : e.TranslatesNothing
  · rw [hkept.mode_runStep] at hmode
    rw [hkept.snapshotAfter_eq]
    exact (ih hmode).imp (·.congr hkept.translator?_runStep) (·.runStep hkept)
  · obtain ⟨hconfig, hneeds⟩ := not_or.1 hkept
    replace hconfig : e.config.mode = .translated := by
      cases hc : e.config.mode with
      | interpreted => exact absurd hc hconfig
      | translated => rfl
    have hrun := runStep_of_translated hconfig
    cases stepTranslated_cases h.sound with
    | outside hpc hneeds' heq => exact absurd hneeds' hneeds
    | overflow t _ _ _ _ _ _ heq => exact .inr (.fail h (congrArg Prod.fst (hrun.trans heq)))
    | runs t mode ram _ _ hready _ _ hprepared hsnapshot _ =>
      refine .inl ⟨t, ram, ?_, hsnapshot hconfig, hready.executable, hready⟩
      rw [hrun, h.sound.stepTranslated_config_translator?.2, hprepared, translator?_equipped]

theorem Reached.finalized_or_stripped (h : Reached snapshot? e) (hmode : e.mode = .translated) :
    e.Finalized snapshot? ∨ Stripped e := by
  induction h with
  | create h =>
    obtain ⟨-, rfl⟩ := create_eq_ok_iff.1 h
    cases hmode
  | loadImage h hload ih =>
    obtain ⟨loaded, addr, -, -, rfl⟩ := exists_reset_of_loadImage hload
    cases hmode
  | reset h entry ih => cases hmode
  | edit h cpu bus ih => exact (ih hmode).imp (·.congr rfl) (·.edit cpu bus)
  | signal h stopRequested ih => exact (ih hmode).imp (·.congr rfl) (·.signal stopRequested)
  | step h ih =>
    rw [mode_step] at hmode
    exact (ih hmode).imp (·.congr (step_config_translator? _).2) .step
  | runStep h ih => exact finalized_or_stripped_runStep h ih hmode

/-- A run that fails to translate ends with its blocks dropped. -/
theorem Reached.stripped_of_runUntil? (h : Reached snapshot? e) {ε : Type}
    {exit : ExitCondition ε} {state : ε} {pc : Word} {n : Nat} {cause : TranslateError}
    {e' : Emulator ω}
    (hrun : e.runUntil? exit state = some (.error (.translate pc n cause), e')) : Stripped e' := by
  obtain ⟨⟨result, last⟩, hfor, heq⟩ := Option.map_eq_some_iff.1 hrun
  cases result with
  | ok reason => cases heq
  | error err =>
    cases heq
    obtain ⟨_, state', before, -, hsteps, hends⟩ := exists_steps_of_runFor hfor
    obtain ⟨_, hbefore⟩ := hsteps.reached h
    cases hends with
    | failed hcheck hstep =>
      have hstripped := Stripped.fail (hbefore.asked exit state') (congrArg Prod.fst hstep)
      rwa [hstep] at hstripped

/-- In translated mode the region last translated is ready to run exactly when no
failure to translate has dropped it since; a run that fails to translate drops it. -/
theorem finalized_iff_not_stripped (h : Reached snapshot? e) :
    (e.mode = .translated → (e.Finalized snapshot? ↔ ¬Stripped e)) ∧
      ∀ (ε : Type) (exit : ExitCondition ε) (state : ε) pc n cause e',
        e.runUntil? exit state = some (.error (.translate pc n cause), e') →
          Stripped e' ∧ ∃ t, e'.translator? = some t ∧ t.isFinalized = false := by
  constructor
  · intro hmode
    constructor
    · exact fun hfinalized hstripped => hstripped.not_finalized hfinalized
    · exact (h.finalized_or_stripped hmode).resolve_right
  · intro ε exit state pc n cause e' hrun
    have hstripped := h.stripped_of_runUntil? hrun
    obtain ⟨t, ht, hidle⟩ := hstripped.exists_idle
    exact ⟨hstripped, t, ht, hidle.writable⟩

/-- A step of a run that translates a region ends in translated mode. -/
theorem Sound.mode_runStep_of_fits (h : e.Sound snapshot?) (hconfig : e.config.mode = .translated)
    (hneeds : e.needsRegion = true)
    (hfits : (Translator.blockBytes e.blockAtPc).length ≤ e.cacheCapacity) :
    e.runStep.2.mode = .translated := by
  have hpc := contains_of_needsRegion hneeds
  obtain ⟨t, hregion, -⟩ := retranslate_of_fits h hpc hfits
  rw [runStep_of_translated hconfig]
  cases stepTranslated_cases h with
  | outside hpc' => exact nomatch hpc'.symm.trans hpc
  | overflow t _ hover => exact absurd hfits (Nat.not_le_of_lt hover)
  | runs t' mode ram _ _ _ _ _ _ _ heq =>
    rw [heq, mode_stepBlock, Emulator.prepared, hneeds, if_pos rfl, hregion]
    rfl

end Emulator

/-! ## A program that outgrows the cache -/

namespace Emulator

attribute [local instance] Block.threeTable

/-- The program of two words has its region ready after a step. -/
theorem finalized_iff_not_stripped_setAndLoop :
    setAndLoop.runStep.2.mode = .translated ∧
      setAndLoop.runStep.2.Finalized (setAndLoop.snapshotAfter none) ∧
      ¬Stripped setAndLoop.runStep.2 := by
  have hreached := reached_setAndLoop.runStep
  have hmode : setAndLoop.runStep.2.mode = .translated :=
    reached_setAndLoop.sound.mode_runStep_of_fits rfl (by decide) fits_setAndLoop
  obtain ⟨t, ht, hheld, -⟩ := runStep_setAndLoop
  obtain ⟨ram, hsnapshot, hready⟩ :=
    hreached.sound.exists_snapshot ht (Translator.size_pos_of_contains hheld)
  have hfinalized : setAndLoop.runStep.2.Finalized (setAndLoop.snapshotAfter none) :=
    ⟨t, ram, ht, hsnapshot, hready.executable, hready⟩
  exact ⟨hmode, hfinalized, ((finalized_iff_not_stripped hreached).1 hmode).1 hfinalized⟩

/-- Settings with room for eight instructions a block. -/
def roomy : Configuration :=
  { small with instructionLimit? := some 10, maxBlockLength := 8 }

/-- A program that jumps to eight loads of thirteen registers each, whose code is larger
than the cache. -/
def overfull : Emulator Unit :=
  let words : List Word := [0xe3a02008, 0xe12fff12] ++ .replicate 8 0xe89d1fff
  { fresh roomy () with
    bus := .ofRam ((Ram.zeroed 0 0x1000).putBytes 0 (words.flatMap Word.bytes)) () }

theorem reached_overfull : Reached none overfull := by
  have hfresh : Reached none (fresh roomy ()) := reached_fresh rfl ()
  exact hfresh.edit (fresh roomy ()).cpu overfull.bus

theorem fits_overfull :
    (Translator.blockBytes overfull.blockAtPc).length ≤ overfull.cacheCapacity := by
  rw [Host.Code.length_of_encode? (Translator.encode?_blockCode _)]
  decide

theorem overflow_overfull :
    overfull.cacheCapacity <
      (Translator.blockBytes (fetchBlock overfull.bus.ram 8 8)).length := by
  rw [Host.Code.length_of_encode? (Translator.encode?_blockCode _)]
  decide +kernel

/-- The first step translates its block and jumps to the loads. -/
theorem runStep_overfull :
    ∃ t cpu, overfull.runStep = (.ok none,
        (overfull.equipped t .translated).ran cpu overfull.bus 2 0) ∧ cpu.pc = 8 := by
  have hblock : overfull.blockAtPc = [⟨0, 0xe3a02008⟩, ⟨4, 0xe12fff12⟩] := by decide
  obtain ⟨cpu, hall, hpc⟩ : ∃ cpu, executeAll [⟨0, 0xe3a02008⟩, ⟨4, 0xe12fff12⟩]
      overfull.cpu overfull.bus = .ok (0, cpu) overfull.bus ∧ cpu.pc = 8 := ⟨_, rfl, rfl⟩
  rw [← hblock] at hall
  obtain ⟨t, -, hstep⟩ := stepTranslated_of_fits reached_overfull.sound (by decide) (by decide)
    fits_overfull hall
  rw [hblock] at hstep
  exact ⟨t, cpu, hstep, hpc⟩

/-- A step at the loads fails to translate, and does not change the mode. -/
theorem runStep_of_overfull {snapshot? : Option Ram} {e : Emulator Unit}
    (h : e.Sound snapshot?) (hconfig : e.config = roomy) (hpc : e.cpu.pc = 8)
    (hbus : e.bus = overfull.bus) (hsnapshot : snapshot? = some overfull.bus.ram) :
    ∃ cause t, e.runStep =
        (.error (.translate 8 e.instructions cause), e.equipped t e.mode) ∧ t.Idle := by
  have hinstrs : e.blockAtPc = fetchBlock overfull.bus.ram 8 8 := by
    rw [blockAtPc, hconfig, hpc, hbus]
    rfl
  have hover : e.cacheCapacity < (Translator.blockBytes e.blockAtPc).length := by
    rw [hinstrs, cacheCapacity, hconfig]
    exact overflow_overfull
  rw [runStep_of_translated (by rw [hconfig]; rfl)]
  cases stepTranslated_cases h with
  | outside hout =>
    rw [hpc, hbus] at hout
    exact absurd hout (by decide)
  | overflow t _ _ hidle _ hprepared _ heq =>
    rw [hprepared, hpc] at heq
    exact ⟨_, t, heq, hidle⟩
  | runs t mode ram _ _ hready hlimits hheld _ hafter _ =>
    -- A block that is held would be the one that does not fit.
    have hram : ram = e.bus.ram := by
      have hsome := hafter (by rw [hconfig]; rfl)
      rw [snapshotAfter, hsnapshot, hbus, ite_self] at hsome
      rw [hbus]
      exact (Option.some.inj hsome).symm
    have hmax : t.maxBlockLength = e.config.maxBlockLength := hlimits.maxBlockLength_eq.symm
    have hcapacity : t.cache.capacity = e.cacheCapacity := hlimits.capacity_eq.symm
    obtain ⟨block, hblock, -⟩ := hready.exists_faithful hheld
    have hle := hready.length_blockBytes_le hblock
    rw [hram, hmax, hcapacity] at hle
    exact absurd hle (Nat.not_le_of_lt hover)

/-- A run that fails to translate and reports the translated mode, with nothing
translated. -/
theorem translated_without_blocks_overfull :
    Reached none overfull ∧ ∃ cause e',
      overfull.run? = some (.error (.translate 8 2 cause), e') ∧ e'.mode = .translated ∧
        ∃ t, e'.translator? = some t ∧ t.isFinalized = false ∧ t.blocks.size = 0 := by
  obtain ⟨t, cpu, hfirst, hpc⟩ := runStep_overfull
  obtain ⟨first, heq⟩ :
      ∃ first, first = (overfull.equipped t .translated).ran cpu overfull.bus 2 0 := ⟨_, rfl⟩
  rw [← heq] at hfirst
  have hsound : first.Sound (overfull.snapshotAfter none) := by
    have hsound := reached_overfull.runStep.sound
    rwa [hfirst] at hsound
  have hsnapshot : overfull.snapshotAfter none = some overfull.bus.ram :=
    snapshotAfter_of_fits reached_overfull.sound rfl (by decide) fits_overfull
  obtain ⟨cause, t', hsecond, hidle⟩ :=
    runStep_of_overfull hsound (by rw [heq]; rfl) (by rw [heq, ← hpc]; rfl) (by rw [heq]; rfl)
      hsnapshot
  have hsteps : Steps (fun _ _ => ⟨false, false, ()⟩) 0 1 () overfull () first :=
    .next ⟨rfl, rfl, rfl⟩ hfirst .none
  have hends : Ends (fun _ _ => ⟨false, false, ()⟩) 0 () first (.error (.translate 8 2 cause))
      (first.equipped t' .translated) := by
    subst heq
    exact .failed ⟨rfl, rfl, rfl⟩ hsecond
  have hlimit : overfull.config.instructionLimit? = some 10 := rfl
  have hrun := runUntil?_of_ends hlimit hsteps hends (by decide)
  exact ⟨reached_overfull, cause, _, hrun, rfl, t', rfl, hidle.writable, hidle.empty⟩

end Emulator

end ArmEmulator
