import ArmEmulator.Proofs.Emulator.Refinement
import ArmEmulator.Proofs.Translator.Worklist

/-!
# Generations of blocks

A new region starts from the program counter and from every block of the region before
it.  Nothing that an emulator does moves its memory, so the words of those blocks are
still there, and if there is room for everything reachable no block is lost.

Main results:

- Theorem {lit}`Emulator.Stationary.memory_window`: the memory of an emulator stays where its
  settings put it.
- Theorem {lit}`Emulator.regions_reach`: the blocks of a region, and what the next
  generation of an emulator keeps.
-/

namespace ArmEmulator

open Block (executeAll)
open Translator (Course Reachable Work)

/-! ## Memory stays where it is -/

/-- The window of memory that the settings ask for. -/
def Configuration.window (c : Configuration) : Word × Nat :=
  (c.ramBase, c.ramSize.toNat)

namespace Translator

theorem mem_blockStarts_iff {t : Translator} {addr : Word} :
    addr ∈ t.blockStarts ↔ t.contains addr = true :=
  Std.TreeMap.mem_keys

theorem length_blockStarts (t : Translator) : t.blockStarts.length = t.blocks.size :=
  Std.TreeMap.length_keys

end Translator

namespace Emulator

variable {ω : Type} [Block.HelperTable]

/-- A step of a run keeps what no access changes. -/
theorem kept_runStep {τ : Type} {part : Bus ω → τ} (hpart : Bus.Settled part)
    {snapshot? : Option Ram} {e : Emulator ω} (h : e.Sound snapshot?) :
    part e.runStep.2.bus = part e.bus := by
  have hinterpreted : part e.stepInterpreted.2.bus = part e.bus := by
    rw [stepInterpreted_snd]
    exact kept_step hpart e
  cases hmode : e.config.mode with
  | interpreted =>
      rw [runStep_of_interpreted hmode]
      exact hinterpreted
  | translated =>
      rw [runStep_of_translated hmode]
      cases stepTranslated_cases h with
      | outside hpc hneeds heq =>
          rw [heq]
          exact hinterpreted
      | overflow t hneeds hover hidle hlimits hprepared hsnapshot heq =>
          rw [heq, hprepared]
          rfl
      | runs t mode ram hpc hfits hready hlimits hheld hprepared hsnapshot heq =>
          obtain ⟨block, hblock, -⟩ := hready.exists_faithful hheld
          have hkeeps :=
            Block.keeps_executeAll hpart (fetchBlock ram t.maxBlockLength e.cpu.pc) e.cpu
          rw [heq, hprepared]
          cases hall : executeAll (fetchBlock ram t.maxBlockLength e.cpu.pc) e.cpu e.bus with
          | ok left bus =>
              rw [stepBlock_of_ok hready hblock mode hall]
              exact hkeeps.of_ok hall
          | error fault bus =>
              obtain ⟨addr, cpu, hfails⟩ := stepBlock_of_error hready hblock mode hall
              rw [hfails]
              exact hkeeps.of_error hall

/-- The emulators that operations lead to while nobody puts another memory window in
place, with the memory at the last region that was translated since the last reset. -/
inductive Stationary : Option Ram → Emulator ω → Prop where
  | create {config : Configuration} {devices : ω} {e : Emulator ω}
      (h : create config devices = .ok e) : Stationary none e
  | loadImage {snapshot? : Option Ram} {e e' : Emulator ω} (h : Stationary snapshot? e)
      {image : List Byte} {addr? : Option Word} (hload : e.loadImage image addr? = .ok e') :
      Stationary none e'
  | reset {snapshot? : Option Ram} {e : Emulator ω} (h : Stationary snapshot? e) (entry : Word) :
      Stationary none (e.reset entry)
  | edit {snapshot? : Option Ram} {e : Emulator ω} (h : Stationary snapshot? e) (cpu : Cpu)
      {bus : Bus ω} (hwindow : bus.ram.window = e.bus.ram.window) :
      Stationary snapshot? { e with cpu, bus }
  | signal {snapshot? : Option Ram} {e : Emulator ω} (h : Stationary snapshot? e)
      (stopRequested : Bool) : Stationary snapshot? { e with stopRequested }
  | step {snapshot? : Option Ram} {e : Emulator ω} (h : Stationary snapshot? e) :
      Stationary snapshot? e.step.2
  | runStep {snapshot? : Option Ram} {e : Emulator ω} (h : Stationary snapshot? e) :
      Stationary (e.snapshotAfter snapshot?) e.runStep.2

section Stationary

variable {snapshot? : Option Ram} {e : Emulator ω}

theorem Stationary.reached (h : Stationary snapshot? e) : Reached snapshot? e := by
  induction h with
  | create h => exact .create h
  | loadImage _ hload ih => exact ih.loadImage hload
  | reset _ entry ih => exact ih.reset entry
  | edit _ cpu _ ih => exact ih.edit cpu _
  | signal _ stopRequested ih => exact ih.signal stopRequested
  | step _ ih => exact ih.step
  | runStep _ ih => exact ih.runStep

/-- The memory of an emulator stays where its settings put it, and so do the memories that
its blocks were translated from. -/
theorem Stationary.memory_window (h : Stationary snapshot? e) :
    e.bus.ram.window = e.config.window ∧
      ∀ ram, snapshot? = some ram → ram.window = e.config.window := by
  induction h with
  | create h =>
      obtain ⟨-, rfl⟩ := create_eq_ok_iff.1 h
      exact ⟨rfl, nofun⟩
  | loadImage _ hload ih =>
      obtain ⟨loaded, addr, hconfig, -, ⟨i, hram⟩, rfl⟩ := exists_stored_of_loadImage hload
      show loaded.bus.ram.window = loaded.config.window ∧ _
      rw [hram, Ram.window_putBytes, hconfig]
      exact ⟨ih.1, nofun⟩
  | reset _ entry ih => exact ⟨ih.1, nofun⟩
  | edit _ cpu hwindow ih => exact ⟨hwindow.trans ih.1, ih.2⟩
  | signal _ stopRequested ih => exact ih
  | @step _ e h ih =>
      rw [kept_step Bus.settled_window e, (step_config_translator? e).1]
      exact ih
  | @runStep snapshot? e h ih =>
      rw [kept_runStep Bus.settled_window h.reached.sound, h.reached.sound.runStep_config]
      refine ⟨ih.1, fun ram hsnapshot => ?_⟩
      unfold snapshotAfter at hsnapshot
      split at hsnapshot
      · cases hsnapshot
        exact ih.1
      · exact ih.2 ram hsnapshot

end Stationary

/-! ## The next generation -/

section Generations

variable {snapshot? : Option Ram} {e : Emulator ω}

/-- The blocks of the last region start at words of the memory that it was translated
from. -/
theorem Sound.exists_contains_of_previous (h : e.Sound snapshot?) {addr : Word}
    (hheld : e.previous.contains addr = true) :
    ∃ ram, snapshot? = some ram ∧ ram.contains addr 4 = true := by
  unfold previous at hheld
  cases ht : e.translator? with
  | none =>
      rw [ht] at hheld
      have hnone : (Translator.ofConfiguration e.config).contains addr = false := by
        simp [Translator.ofConfiguration, Translator.contains]
      rw [Option.getD_none, hnone] at hheld
      cases hheld
  | some t =>
      rw [ht] at hheld
      obtain ⟨ram, hsnapshot, hready⟩ :=
        h.exists_snapshot ht (Translator.size_pos_of_contains hheld)
      obtain ⟨block, -, hfaithful⟩ := hready.exists_faithful hheld
      exact ⟨ram, hsnapshot, Translator.contains_of_fetchBlock_ne_nil hfaithful.fetched⟩

/-- A block of the last region starts at a word that memory still has. -/
theorem Stationary.contains_of_previous (h : Stationary snapshot? e) {addr : Word}
    (hheld : e.previous.contains addr = true) : e.bus.ram.contains addr 4 = true := by
  obtain ⟨ram, hsnapshot, hram⟩ := h.reached.sound.exists_contains_of_previous hheld
  obtain ⟨hwindow, hsnapshots⟩ := h.memory_window
  rw [Ram.contains_congr (hwindow.trans (hsnapshots ram hsnapshot).symm), hram]

/-- If the loop over the program counter and the blocks there were ends with an empty
queue, the new region holds every one of them that is a word of memory. -/
theorem retranslate_of_drained (h : e.Sound snapshot?) {pc : Word} {last : Work}
    (hdrained :
      Course e.bus.ram ⟨pc :: e.previous.blockStarts, 0, e.previous.reset⟩ .drained last) :
    e.retranslate pc = (.ok (), e.equipped last.translator.finalize .translated) ∧
      ∀ addr, addr = pc ∨ e.previous.contains addr = true → e.bus.ram.contains addr 4 = true →
        last.translator.contains addr = true := by
  have hlimits := h.sameLimits_previous
  have hlength : e.previous.maxBlockLength ≠ 0 := by
    rw [← hlimits.maxBlockLength_eq]
    exact (Configuration.limits_of_validate h.valid).1
  obtain ⟨ending, last', hcourse, hregion⟩ :=
    Translator.exists_course_of_region hlength e.bus.ram (pc :: e.previous.blockStarts)
  obtain ⟨rfl, rfl⟩ := hdrained.unique hcourse
  refine ⟨?_, fun addr hseed hram => ?_⟩
  · rw [retranslate_eq, hregion]
    rfl
  · obtain ⟨hexplored, hend⟩ := hdrained.explored hlength (Translator.explored_reset _ _ _)
    rw [hexplored.contains_iff hend]
    refine .seed ?_ hram
    rw [List.mem_cons, Translator.mem_blockStarts_iff]
    exact hseed

end Generations

/-- Translating a region ends.  If it neither reaches the limit nor fills the cache, its
blocks are those that successors lead to from the first addresses, and their number is
given; there are never more than the limit allows, and the first of the addresses that is
a word of memory has a block unless the call fails.  So a new region of an emulator that
ends this way has the block at the program counter and every block there was. -/
theorem regions_reach {c : Configuration} (hvalid : c.validate = .ok ()) :
    (∀ (t : Translator) (ram : Ram) (seeds : List Word),
      (Translator.ofConfiguration c).SameLimits t →
      ∃ ending last, Course ram ⟨seeds, 0, t.reset⟩ ending last ∧
        t.reset.translateRegion ram seeds = last.outcome ending ∧
        (ending = .drained →
          (∀ addr, addr ∈ last.translator.blockStarts ↔
            Reachable ram c.maxBlockLength seeds addr) ∧
          last.count = last.translator.blockStarts.length) ∧
        last.translator.blockStarts.length ≤ c.regionBlockLimit ∧
        ∀ addr, seeds.find? (ram.contains · 4) = some addr →
          addr ∈ last.translator.blockStarts ∨
            ∃ err, (t.reset.translateRegion ram seeds).1 = .error err) ∧
    ∀ (snapshot? : Option Ram) (e : Emulator ω) (pc : Word) (last : Work),
      Reached snapshot? e → e.bus.ram.contains pc 4 = true →
      Course e.bus.ram ⟨pc :: e.previous.blockStarts, 0, e.previous.reset⟩ .drained last →
        e.retranslate pc = (.ok (), e.equipped last.translator.finalize .translated) ∧
        pc ∈ last.translator.finalize.blockStarts ∧
        (∀ addr ∈ e.previous.blockStarts, e.bus.ram.contains addr 4 = true →
          addr ∈ last.translator.finalize.blockStarts) ∧
        (Stationary snapshot? e → ∀ addr ∈ e.previous.blockStarts,
          addr ∈ last.translator.finalize.blockStarts) := by
  obtain ⟨hlength, hlimit⟩ := Configuration.limits_of_validate hvalid
  refine ⟨?_, ?_⟩
  · intro t ram seeds hlimits
    have hmax : t.maxBlockLength = c.maxBlockLength := hlimits.maxBlockLength_eq.symm
    have hmost : t.regionBlockLimit = c.regionBlockLimit := hlimits.regionBlockLimit_eq.symm
    obtain ⟨ending, last, hcourse, hregion⟩ :=
      Translator.exists_course_of_region (hmax ▸ hlength) ram seeds
    obtain ⟨hexplored, hend⟩ :=
      hcourse.explored (hmax ▸ hlength) (Translator.explored_reset t ram seeds)
    refine ⟨ending, last, hcourse, hregion, ?_, ?_, ?_⟩
    · rintro rfl
      refine ⟨fun addr => ?_, ?_⟩
      · rw [Translator.mem_blockStarts_iff, hexplored.contains_iff hend, hmax]
      · rw [Translator.length_blockStarts, hexplored.counted]
    · rw [Translator.length_blockStarts, ← hmost, hexplored.limits.regionBlockLimit_eq]
      exact hexplored.building.limited
    · intro addr hfirst
      rw [Translator.mem_blockStarts_iff]
      rcases hexplored.contains_first (hmost ▸ hlimit) hend hfirst with hheld | ⟨err, rfl⟩
      · exact .inl hheld
      · exact .inr ⟨err, congrArg Prod.fst hregion⟩
  · intro snapshot? e pc last h hpc hdrained
    obtain ⟨hregion, hkept⟩ := retranslate_of_drained h.sound hdrained
    have hstarts : ∀ addr, addr ∈ last.translator.finalize.blockStarts ↔
        last.translator.contains addr = true := fun addr => Translator.mem_blockStarts_iff
    refine ⟨hregion, ?_, ?_, ?_⟩
    · rw [hstarts]
      exact hkept pc (.inl rfl) hpc
    · intro addr hold hram
      rw [hstarts]
      exact hkept addr (.inr (Translator.mem_blockStarts_iff.1 hold)) hram
    · intro hstationary addr hold
      have hheld := Translator.mem_blockStarts_iff.1 hold
      rw [hstarts]
      exact hkept addr (.inr hheld) (hstationary.contains_of_previous hheld)

end Emulator

/-! ## Two blocks at most -/

namespace Emulator

attribute [local instance] Block.threeTable

/-- Settings with room for two blocks in a region. -/
def twoBlocks : Configuration :=
  { small with regionBlockLimit := 2 }

/-- A fresh emulator with a branch to itself at its entry. -/
def standing : Emulator Unit :=
  { fresh twoBlocks () with
    bus := .ofRam ((Ram.zeroed 0 0x1000).putBytes 0 (Word.bytes 0xeafffffe)) () }

theorem stationary_standing : Stationary none standing := by
  have hfresh : Stationary none (fresh twoBlocks ()) := .create (create_eq_ok_iff.2 ⟨rfl, rfl⟩)
  exact hfresh.edit (fresh twoBlocks ()).cpu (Ram.window_putBytes _ 0 _)

/-- The loop over the entry translates the branch, passes over its target, which is the
same address, and ends. -/
theorem course_standing :
    Course standing.bus.ram ⟨[0], 0, standing.previous.reset⟩ .drained
      ⟨[], 1, standing.previous.reset.appended standing.bus.ram 0⟩ := by
  have hempty : standing.previous.reset.blocks.size = 0 := Std.TreeMap.size_emptyc
  have hnew : standing.previous.reset.contains 0 = false := Translator.contains_reset _ 0
  have hfits : (Translator.blockBytes
      (fetchBlock standing.bus.ram standing.previous.reset.maxBlockLength 0)).length ≤
        standing.previous.reset.cache.capacity - standing.previous.reset.cache.size := by
    rw [Host.Code.length_of_encode? (Translator.encode?_blockCode _)]
    decide
  have hone : (standing.previous.reset.appended standing.bus.ram 0).blocks.size < 2 := by
    have hle : (standing.previous.reset.appended standing.bus.ram 0).blocks.size ≤
        standing.previous.reset.blocks.size + 1 := Std.TreeMap.size_insert_le
    omega
  have hheld : (standing.previous.reset.appended standing.bus.ram 0).contains 0 = true := by
    rw [Translator.contains_appended]
    rfl
  have hfirst : Work.turn standing.bus.ram ⟨[0], 0, standing.previous.reset⟩ = _ :=
    Translator.turn_of_new (hempty ▸ Nat.two_pos) hnew _
  rw [Translator.translateBlock_of_fits rfl (Translator.blocks_of_not_contains hnew) (by decide)
    hfits] at hfirst
  exact .turns hfirst (.turns (Translator.turn_of_held hone hheld _) (.ends rfl))

theorem regions_reach_standing :
    twoBlocks.validate = .ok () ∧ ∃ last : Work,
      standing.previous.reset.translateRegion standing.bus.ram [0] = (.ok 1, last.translator) ∧
      (∀ addr, addr ∈ last.translator.blockStarts ↔ Reachable standing.bus.ram 2 [0] addr) ∧
      standing.retranslate 0 = (.ok (), standing.equipped last.translator.finalize .translated) ∧
      0 ∈ last.translator.finalize.blockStarts := by
  have hvalid : twoBlocks.validate = .ok () := rfl
  obtain ⟨hregions, hgenerations⟩ := regions_reach (ω := Unit) hvalid
  obtain ⟨ending, last, hcourse, hregion, hdrained, -, -⟩ :=
    hregions standing.previous standing.bus.ram [0] (.refl _)
  obtain ⟨rfl, rfl⟩ := course_standing.unique hcourse
  obtain ⟨hnext, hpc, -, -⟩ :=
    hgenerations none standing 0 _ stationary_standing.reached (by decide) course_standing
  exact ⟨hvalid, _, hregion, (hdrained rfl).1, hnext, hpc⟩

end Emulator

end ArmEmulator
