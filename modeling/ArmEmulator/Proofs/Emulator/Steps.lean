import ArmEmulator.Emulator
import ArmEmulator.Proofs.Configuration
import ArmEmulator.Proofs.Translator.Running

/-!
# Steps of the driver

A translated step either interprets one instruction outside memory, or fails to
translate the block at the program counter, or runs that block, which is the one
of the memory that the translator works from.

Main results:

- Theorems {lit}`Emulator.retranslate_of_fits` and
  {lit}`Emulator.retranslate_of_overflow`: a new region is translated exactly when
  its first block fits into the empty cache.
- Theorem {lit}`Emulator.stepTranslated_cases`: all that a translated step can do.
-/

namespace ArmEmulator

open Block (Fetched executeAll)

namespace Emulator

variable {ω : Type} [Block.HelperTable]

/-! ## The invariant -/

/-- An emulator with a valid configuration whose translator, if it has one, has
the configured limits and holds no block or those of the memory
{lit}`snapshot?`. -/
structure Sound (snapshot? : Option Ram) (e : Emulator ω) : Prop where
  valid : e.config.validate = .ok ()
  limits : ∀ t, e.translator? = some t → (Translator.ofConfiguration e.config).SameLimits t
  phase : ∀ t, e.translator? = some t →
    t.Idle ∨ ∃ ram, snapshot? = some ram ∧ t.Ready ram

/-- Everything but the configuration and the translator may be changed at will. -/
theorem Sound.congr {snapshot? : Option Ram} {e e' : Emulator ω} (h : e.Sound snapshot?)
    (hconfig : e'.config = e.config) (htranslator : e'.translator? = e.translator?) :
    e'.Sound snapshot? where
  valid := by rw [hconfig, h.valid]
  limits t ht := by
    rw [hconfig]
    exact h.limits t (htranslator ▸ ht)
  phase t ht := h.phase t (htranslator ▸ ht)

/-- An emulator that satisfies the invariant holds blocks of one memory only. -/
theorem Sound.exists_snapshot {snapshot? : Option Ram} {e : Emulator ω} (h : e.Sound snapshot?)
    {t : Translator} (ht : e.translator? = some t) (hheld : 0 < t.blocks.size) :
    ∃ ram, snapshot? = some ram ∧ t.Ready ram := by
  rcases h.phase t ht with hidle | hready
  · rw [hidle.empty] at hheld
    cases hheld
  · exact hready

/-! ## What steps keep -/

section Kept

omit [Block.HelperTable]

/-- The emulator with a translator in a mode. -/
def equipped (e : Emulator ω) (t : Translator) (mode : ExecMode) : Emulator ω :=
  { e with translator? := some t, mode }

@[simp]
theorem translator?_equipped (e : Emulator ω) (t : Translator) (mode : ExecMode) :
    (e.equipped t mode).translator? = some t := rfl

/-- The emulator after some instructions were executed. -/
def ran (e : Emulator ω) (cpu : Cpu) (bus : Bus ω) (executed unhandled : Nat) : Emulator ω :=
  { e with
    cpu
    bus
    instructions := e.instructions + executed
    unhandled := e.unhandled + unhandled }

/-- A step changes neither the configuration nor the translator. -/
theorem step_config_translator? (e : Emulator ω) :
    e.step.2.config = e.config ∧ e.step.2.translator? = e.translator? := by
  unfold step
  split <;> exact ⟨rfl, rfl⟩

/-- An interpreted step does what a step does. -/
theorem stepInterpreted_snd (e : Emulator ω) : e.stepInterpreted.2 = e.step.2 := by
  unfold stepInterpreted
  split <;> simp_all

end Kept

theorem runStep_of_translated {e : Emulator ω} (h : e.config.mode = .translated) :
    e.runStep = e.stepTranslated := by
  rw [runStep, h]

theorem runStep_of_interpreted {e : Emulator ω} (h : e.config.mode = .interpreted) :
    e.runStep = e.stepInterpreted := by
  rw [runStep, h]

/-! ## New regions -/

/-- Whether a translated step needs a new region: memory holds a word at the
program counter and no block starts there. -/
def needsRegion (e : Emulator ω) : Bool :=
  e.bus.ram.contains e.cpu.pc 4 && !e.translator?.any (·.contains e.cpu.pc)

/-- The emulator with a block at its program counter, if need be after translating
a new region. -/
def prepared (e : Emulator ω) : Emulator ω :=
  if e.needsRegion then (e.retranslate e.cpu.pc).2 else e

/-- The memory that the blocks are of after a step of a run: the one there is, if
the step translates a new region, else that from before. -/
def snapshotAfter (snapshot? : Option Ram) (e : Emulator ω) : Option Ram :=
  if e.config.mode = .translated ∧ e.needsRegion = true ∧
      (e.retranslate e.cpu.pc).1.isOk = true then
    some e.bus.ram
  else
    snapshot?

omit [Block.HelperTable] in
theorem contains_of_needsRegion {e : Emulator ω} (h : e.needsRegion = true) :
    e.bus.ram.contains e.cpu.pc 4 = true := by
  rw [needsRegion, Bool.and_eq_true] at h
  exact h.1

/-- Where no region is needed the emulator is prepared as it is. -/
theorem prepared_of_not_needsRegion {e : Emulator ω} (h : e.needsRegion = false) :
    e.prepared = e := by
  rw [prepared, h, if_neg Bool.false_ne_true]

theorem snapshotAfter_of_not_needsRegion {snapshot? : Option Ram} {e : Emulator ω}
    (h : e.needsRegion = false) : e.snapshotAfter snapshot? = snapshot? := by
  rw [snapshotAfter, if_neg (by simp [h])]

/-- The words of the block that memory has at the program counter. -/
def blockAtPc (e : Emulator ω) : List Fetched :=
  fetchBlock e.bus.ram e.config.maxBlockLength e.cpu.pc

/-- The room of the empty code cache. -/
def cacheCapacity (e : Emulator ω) : Nat :=
  (CodeCache.ofSize e.config.codeCacheSize).capacity

/-- The translator that a new region starts from, and drops the blocks of. -/
def previous (e : Emulator ω) : Translator :=
  e.translator?.getD (.ofConfiguration e.config)

/-- A new region starts from the program counter and from every block there was. -/
theorem retranslate_eq (e : Emulator ω) (pc : Word) :
    e.retranslate pc =
      match e.previous.reset.translateRegion e.bus.ram (pc :: e.previous.blockStarts) with
      | (.ok _, t) => (.ok (), e.equipped t.finalize .translated)
      | (.error err, t) => (.error err, e.equipped t e.mode) := rfl

section Retranslate

variable {snapshot? : Option Ram} {e : Emulator ω} (hs : e.Sound snapshot?)
include hs

theorem Sound.sameLimits_previous :
    (Translator.ofConfiguration e.config).SameLimits e.previous := by
  unfold previous
  cases ht : e.translator? with
  | none => exact .refl _
  | some t => exact hs.limits t ht

/-- A new region whose first block fits into the empty cache is translated. -/
theorem retranslate_of_fits (hpc : e.bus.ram.contains e.cpu.pc 4 = true)
    (hfits : (Translator.blockBytes e.blockAtPc).length ≤ e.cacheCapacity) :
    ∃ t, e.retranslate e.cpu.pc = (.ok (), e.equipped t .translated) ∧ t.Ready e.bus.ram ∧
      (Translator.ofConfiguration e.config).SameLimits t ∧ t.contains e.cpu.pc = true := by
  obtain ⟨hlength, hlimit⟩ := Configuration.limits_of_validate hs.valid
  have hlimits := hs.sameLimits_previous
  have hfetch : fetchBlock e.bus.ram e.previous.maxBlockLength e.cpu.pc = e.blockAtPc := by
    rw [← hlimits.maxBlockLength_eq]
    rfl
  have hne : fetchBlock e.bus.ram e.previous.maxBlockLength e.cpu.pc ≠ [] := by
    rw [hfetch]
    exact fetchBlock_ne_nil hlength hpc
  obtain ⟨n, t, hregion, hbuilding, hkept, hheld⟩ := Translator.translateRegion_of_fits
    (hlimits.regionBlockLimit_eq ▸ hlimit) hne
    (by rw [hfetch, ← hlimits.capacity_eq]; exact hfits) e.previous.blockStarts
  refine ⟨t.finalize, ?_, hbuilding.finalize hheld,
    (hlimits.trans hkept).trans (Translator.sameLimits_finalize t), hheld⟩
  rw [retranslate_eq, hregion]

/-- A step that translates a region leaves blocks of the memory there is. -/
theorem snapshotAfter_of_fits (hmode : e.config.mode = .translated)
    (hneeds : e.needsRegion = true)
    (hfits : (Translator.blockBytes e.blockAtPc).length ≤ e.cacheCapacity) :
    e.snapshotAfter snapshot? = some e.bus.ram := by
  obtain ⟨t, hregion, -⟩ := retranslate_of_fits hs (contains_of_needsRegion hneeds) hfits
  rw [snapshotAfter, hregion, if_pos ⟨hmode, hneeds, rfl⟩]

/-- A new region whose first block does not fit into the empty cache is not
translated. -/
theorem retranslate_of_overflow (hpc : e.bus.ram.contains e.cpu.pc 4 = true)
    (hover : e.cacheCapacity < (Translator.blockBytes e.blockAtPc).length) :
    ∃ t : Translator, t.Idle ∧ (Translator.ofConfiguration e.config).SameLimits t ∧
      e.retranslate e.cpu.pc =
        (.error (.cacheExhausted e.cpu.pc (Translator.blockBytes e.blockAtPc).length 0
          e.cacheCapacity), e.equipped t e.mode) := by
  obtain ⟨hlength, hlimit⟩ := Configuration.limits_of_validate hs.valid
  have hlimits := hs.sameLimits_previous
  have hfetch : fetchBlock e.bus.ram e.previous.maxBlockLength e.cpu.pc = e.blockAtPc := by
    rw [← hlimits.maxBlockLength_eq]
    rfl
  have hcapacity : e.previous.cache.capacity = e.cacheCapacity := hlimits.capacity_eq.symm
  have hne : fetchBlock e.bus.ram e.previous.maxBlockLength e.cpu.pc ≠ [] := by
    rw [hfetch]
    exact fetchBlock_ne_nil hlength hpc
  refine ⟨e.previous.reset, Translator.idle_reset _,
    hlimits.trans (Translator.sameLimits_reset _), ?_⟩
  rw [retranslate_eq, Translator.translateRegion_of_overflow
    (hlimits.regionBlockLimit_eq ▸ hlimit) hne (by rw [hfetch, hcapacity]; exact hover), hfetch,
    hcapacity]

end Retranslate

/-! ## Translated steps -/

/-- All that a translated step can do: interpret an instruction outside memory,
fail because the block at the program counter is larger than the empty cache, or
run the block that it was prepared with. -/
inductive TranslatedStep (snapshot? : Option Ram) (e : Emulator ω) : Prop where
  | outside (hpc : e.bus.ram.contains e.cpu.pc 4 = false) (hneeds : e.needsRegion = false)
      (heq : e.stepTranslated = e.stepInterpreted)
  | overflow (t : Translator) (hneeds : e.needsRegion = true)
      (hover : e.cacheCapacity < (Translator.blockBytes e.blockAtPc).length) (hidle : t.Idle)
      (hlimits : (Translator.ofConfiguration e.config).SameLimits t)
      (hprepared : e.prepared = e.equipped t e.mode)
      (hsnapshot : e.snapshotAfter snapshot? = snapshot?)
      (heq : e.stepTranslated =
        (.error (.translate e.cpu.pc e.instructions (.cacheExhausted e.cpu.pc
          (Translator.blockBytes e.blockAtPc).length 0 e.cacheCapacity)), e.prepared))
  | runs (t : Translator) (mode : ExecMode) (ram : Ram)
      (hpc : e.bus.ram.contains e.cpu.pc 4 = true)
      (hfits : e.needsRegion = true →
        (Translator.blockBytes e.blockAtPc).length ≤ e.cacheCapacity)
      (hready : t.Ready ram) (hlimits : (Translator.ofConfiguration e.config).SameLimits t)
      (hblock : t.contains e.cpu.pc = true) (hprepared : e.prepared = e.equipped t mode)
      (hsnapshot : e.config.mode = .translated → e.snapshotAfter snapshot? = some ram)
      (heq : e.stepTranslated = e.prepared.stepBlock)

/-- A translated step of an emulator that satisfies the invariant. -/
theorem stepTranslated_cases {snapshot? : Option Ram} {e : Emulator ω}
    (hs : e.Sound snapshot?) : TranslatedStep snapshot? e := by
  cases hpc : e.bus.ram.contains e.cpu.pc 4 with
  | false =>
      refine .outside hpc (by rw [needsRegion, hpc]; rfl) ?_
      unfold stepTranslated
      dsimp only
      rw [hpc, if_neg Bool.false_ne_true]
  | true =>
      cases hheld : e.translator?.any (·.contains e.cpu.pc) with
      | true =>
          obtain ⟨t, ht, hblock⟩ := (Option.any_eq_true _ _).1 hheld
          obtain ⟨ram, hsnapshot, hready⟩ :=
            hs.exists_snapshot ht (Translator.size_pos_of_contains hblock)
          have hneeds : e.needsRegion = false := by
            rw [needsRegion, hheld, hpc]
            rfl
          have hprepared := prepared_of_not_needsRegion hneeds
          refine .runs t e.mode ram hpc (fun h => nomatch hneeds.symm.trans h) hready
            (hs.limits t ht) hblock (by rw [hprepared, equipped, ← ht])
            (fun _ => (snapshotAfter_of_not_needsRegion hneeds).trans hsnapshot) ?_
          unfold stepTranslated
          dsimp only
          rw [hpc, if_pos rfl, hheld, if_pos rfl, hprepared]
      | false =>
          have hneeds : e.needsRegion = true := by
            rw [needsRegion, hheld, hpc]
            rfl
          rcases Nat.lt_or_ge e.cacheCapacity (Translator.blockBytes e.blockAtPc).length with
            hover | hfits
          · obtain ⟨t, hidle, hlimits, hregion⟩ := retranslate_of_overflow hs hpc hover
            have hprepared : e.prepared = e.equipped t e.mode := by
              rw [prepared, hneeds, if_pos rfl, hregion]
            refine .overflow t hneeds hover hidle hlimits hprepared ?_ ?_
            · rw [snapshotAfter, hregion, if_neg (fun h => nomatch h.2.2)]
            · unfold stepTranslated
              dsimp only
              rw [hpc, if_pos rfl, hheld, if_neg Bool.false_ne_true, hregion, hprepared]
              rfl
          · obtain ⟨t, hregion, hready, hlimits, hblock⟩ := retranslate_of_fits hs hpc hfits
            have hprepared : e.prepared = e.equipped t .translated := by
              rw [prepared, hneeds, if_pos rfl, hregion]
            refine .runs t .translated e.bus.ram hpc (fun _ => hfits) hready hlimits hblock
              hprepared (fun hmode => ?_) ?_
            · rw [snapshotAfter, hregion, if_pos ⟨hmode, hneeds, rfl⟩]
            · unfold stepTranslated
              dsimp only
              rw [hpc, if_pos rfl, hheld, if_neg Bool.false_ne_true, hregion, hprepared]

/-! ## Running the block at the program counter -/

section Block

variable {e : Emulator ω} {t : Translator} {ram : Ram} (hready : t.Ready ram)
  {block : TranslatedBlock} (hblock : t.blocks[e.cpu.pc]? = some block) (mode : ExecMode)
  {bus : Bus ω}
include hready hblock

/-- A block whose instructions all succeed. -/
theorem stepBlock_of_ok {count : Nat} {cpu : Cpu}
    (h : executeAll (fetchBlock ram t.maxBlockLength e.cpu.pc) e.cpu e.bus =
      .ok (count, cpu) bus) :
    (e.equipped t mode).stepBlock =
      (.ok block.selfLoop?,
        (e.equipped t mode).ran cpu bus block.instructionCount.toNat count) := by
  have hrun := Translator.execute_of_ok hblock (hready.faithful _ _ hblock) hready.executable h
  unfold stepBlock
  dsimp only [equipped]
  rw [hrun]
  rfl

/-- A block one of whose instructions faults. -/
theorem stepBlock_of_error {fault : Fault}
    (h : executeAll (fetchBlock ram t.maxBlockLength e.cpu.pc) e.cpu e.bus =
      .error fault bus) :
    ∃ addr cpu, (e.equipped t mode).stepBlock =
      (.error (.execute e.cpu.pc e.instructions (.fault addr fault.reason)),
        { e.equipped t mode with cpu, bus }) := by
  obtain ⟨addr, cpu, hrun⟩ := Translator.execute_of_error hblock
    (hready.faithful _ _ hblock) hready.executable h
  refine ⟨addr, cpu, ?_⟩
  unfold stepBlock
  dsimp only [equipped]
  rw [hrun]

end Block

/-- A step that translates a region runs its first block, here one whose instructions
all succeed. -/
theorem stepTranslated_of_fits {snapshot? : Option Ram} {e : Emulator ω} (hs : e.Sound snapshot?)
    (hlength : e.config.maxBlockLength < 0x100000000) (hneeds : e.needsRegion = true)
    (hfits : (Translator.blockBytes e.blockAtPc).length ≤ e.cacheCapacity) {count : Nat}
    {cpu : Cpu} {bus : Bus ω} (h : executeAll e.blockAtPc e.cpu e.bus = .ok (count, cpu) bus) :
    ∃ t : Translator, t.contains e.cpu.pc = true ∧
      e.stepTranslated = (.ok (Translator.loopMark? e.blockAtPc),
        (e.equipped t .translated).ran cpu bus e.blockAtPc.length count) := by
  have hpc := contains_of_needsRegion hneeds
  obtain ⟨t, hregion, hready, hlimits, hheld⟩ := retranslate_of_fits hs hpc hfits
  have hmax : t.maxBlockLength = e.config.maxBlockLength := hlimits.maxBlockLength_eq.symm
  have hinstrs : fetchBlock e.bus.ram t.maxBlockLength e.cpu.pc = e.blockAtPc := by
    rw [hmax]
    rfl
  obtain ⟨block, hblock, hfaithful⟩ := hready.exists_faithful hheld
  refine ⟨t, hheld, ?_⟩
  cases stepTranslated_cases hs with
  | outside hpc' => exact nomatch hpc'.symm.trans hpc
  | overflow _ _ hover => exact absurd hfits (Nat.not_le_of_lt hover)
  | runs _ _ _ _ _ _ _ _ _ _ heq =>
      rw [heq, prepared, hneeds, if_pos rfl, hregion,
        stepBlock_of_ok hready hblock .translated (hinstrs ▸ h), hfaithful.selfLoop?_eq,
        hfaithful.instructionCount_eq (hmax ▸ hlength), hinstrs]

end Emulator

end ArmEmulator
