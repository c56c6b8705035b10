import ArmEmulator.Proofs.Emulator.Reach

/-!
# Blocks of one memory

All blocks held are of one memory: each is what a freshly reset translator makes
of that memory at its start, whatever the order of translation and wherever its
bytes lie.  So no block outlives a reset.

Main results:

- Theorem {lit}`Translator.Ready.reproduces`: a freshly reset translator makes the
  same block again.
- Theorem {lit}`Emulator.blocks_of_snapshot`: the blocks of a reachable emulator
  are those of the memory at the last region since the last reset.
-/

namespace ArmEmulator

/-! ## Translating again -/

namespace Translator

variable [Block.HelperTable]

/-- A block held is, up to its position, what a freshly reset translator makes of
a memory at an address, and its bytes are the same. -/
def Reproduces (t : Translator) (ram : Ram) (start : Word) (block : TranslatedBlock) :
    Prop :=
  ∃ again t', t.reset.translateBlock ram start = .ok (again, t') ∧
    block = { again with entryOffset := block.entryOffset } ∧
    ∃ bytes, t.hostCode? start = some bytes ∧ t'.hostCode? start = some bytes

variable {t : Translator} {ram : Ram} {start : Word} {block : TranslatedBlock}

/-- The bytes of a faithful block are those of the words at its start. -/
theorem Faithful.hostCode? (h : t.Faithful ram start block)
    (hblock : t.blocks[start]? = some block) :
    t.hostCode? start = some (blockBytes (fetchBlock ram t.maxBlockLength start)) := by
  unfold Translator.hostCode?
  rw [hblock]
  exact h.bytes_eq

/-- A freshly reset translator makes the same block again. -/
theorem Ready.reproduces (h : t.Ready ram) (hblock : t.blocks[start]? = some block) :
    t.Reproduces ram start block := by
  have hfaithful := h.faithful start block hblock
  have hfetch : fetchBlock ram t.reset.maxBlockLength start ≠ [] := hfaithful.fetched
  have hfits : (blockBytes (fetchBlock ram t.reset.maxBlockLength start)).length ≤
      t.reset.cache.capacity - t.reset.cache.size := h.length_blockBytes_le hblock
  have hnew := blocks_of_not_contains (contains_reset t start)
  have hagain : (t.reset.appended ram start).blocks[start]? =
      some (blockOf start (fetchBlock ram t.maxBlockLength start) t.reset.cache.size) := by
    rw [getElem?_blocks_appended, if_pos rfl]
    rfl
  refine ⟨_, _, translateBlock_of_fits (writable_reset t) hnew hfetch hfits, hfaithful.block_eq,
    _, hfaithful.hostCode? hblock, ?_⟩
  unfold Translator.hostCode?
  rw [hagain]
  exact CodeCache.bytes?_extended_size _ _

end Translator

namespace Emulator

variable {ω : Type} {snapshot? : Option Ram} {e : Emulator ω}

/-! ## The memory of the blocks -/

/-- A reset emulator holds no block. -/
theorem contains_reset (e : Emulator ω) (entry addr : Word) :
    (e.reset entry).translator?.any (·.contains addr) = false := by
  unfold Emulator.reset
  dsimp only
  cases e.translator? with
  | none => rfl
  | some t => exact Translator.contains_reset t addr

variable [Block.HelperTable]

/-- The blocks of a reachable emulator, and the block that its next step runs, are
what a freshly reset translator makes of the memory at the last region that was
translated since the last reset.  After a reset or a loaded image there is no
block. -/
theorem blocks_of_snapshot (h : Reached snapshot? e) :
    (∀ t, e.translator? = some t → 0 < t.blocks.size →
      ∃ ram, snapshot? = some ram ∧ ∀ start block, t.blocks[start]? = some block →
        t.Reproduces ram start block) ∧
    (e.config.mode = .translated → ∀ t block, e.prepared.translator? = some t →
      t.blocks[e.cpu.pc]? = some block →
        ∃ ram, e.snapshotAfter snapshot? = some ram ∧ t.Reproduces ram e.cpu.pc block) ∧
    (∀ entry addr, (e.reset entry).translator?.any (·.contains addr) = false) ∧
    (∀ image addr? e' addr, e.loadImage image addr? = .ok e' →
      e'.translator?.any (·.contains addr) = false) := by
  refine ⟨?_, ?_, contains_reset e, ?_⟩
  · intro t ht hheld
    obtain ⟨ram, hsnapshot, hready⟩ := h.sound.exists_snapshot ht hheld
    exact ⟨ram, hsnapshot, fun start block hblock => hready.reproduces hblock⟩
  · intro hmode t block ht hblock
    have hheld : t.contains e.cpu.pc = true := by
      rw [Translator.contains_eq_isSome, hblock]
      rfl
    obtain ⟨ram, hsnapshot, hready⟩ := (h.sound.prepared hmode).exists_snapshot ht
      (Translator.size_pos_of_contains hheld)
    exact ⟨ram, hsnapshot, hready.reproduces hblock⟩
  · intro image addr? e' addr hload
    obtain ⟨loaded, entry, -, -, rfl⟩ := exists_reset_of_loadImage hload
    exact contains_reset loaded entry addr

end Emulator

/-! ## The program of two words -/

namespace Emulator

attribute [local instance] Block.threeTable

theorem blocks_of_snapshot_setAndLoop :
    ∃ t block, setAndLoop.runStep.2.translator? = some t ∧ t.blocks[(0 : Word)]? = some block ∧
      t.Reproduces setAndLoop.bus.ram 0 block := by
  obtain ⟨t, ht, hheld, hsnapshot⟩ := runStep_setAndLoop
  obtain ⟨block, hblock⟩ : ∃ block, t.blocks[(0 : Word)]? = some block := by
    rw [Translator.contains_eq_isSome] at hheld
    exact Option.isSome_iff_exists.1 hheld
  obtain ⟨ram, hram, hreproduces⟩ := (blocks_of_snapshot reached_setAndLoop.runStep).1 t ht
    (Translator.size_pos_of_contains hheld)
  rw [hsnapshot] at hram
  cases hram
  exact ⟨t, block, ht, hblock, hreproduces 0 block hblock⟩

end Emulator

end ArmEmulator
