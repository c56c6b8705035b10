import ArmEmulator.Proofs.CodeCache.Contents
import ArmEmulator.Proofs.Translator.Blocks

/-!
# Translated regions

While a region is translated every block held is the one of the words fetched at
its start, and its bytes stay where they were put.  Only the first block can fail
for want of room, and then nothing was translated.

Main results:

- Theorem {lit}`Translator.Building.appended`: appending a block keeps the
  invariant of a region.
- Theorem {lit}`Translator.translateRegion_of_fits`: a region whose first block
  fits into the empty cache is translated and holds that block.
- Theorem {lit}`Translator.translateRegion_of_overflow`: a region whose first
  block does not fit is not translated at all.
-/

namespace ArmEmulator

open Block (Fetched)

namespace Translator

/-! ## Blocks and limits -/

/-- A map by words after an insertion. -/
theorem getElem?_insert_word {α : Type} (m : Std.TreeMap Word α) (key addr : Word) (value : α) :
    (m.insert key value)[addr]? = if key = addr then some value else m[addr]? := by
  rw [Std.TreeMap.getElem?_insert]
  simp only [Std.LawfulEqCmp.compare_eq_iff_eq]

/-- A translator without blocks that can be given some. -/
structure Idle (t : Translator) : Prop where
  writable : t.cache.executable = false
  empty : t.blocks.size = 0

/-- Two translators with the same limits. -/
structure SameLimits (t t' : Translator) : Prop where
  maxBlockLength_eq : t.maxBlockLength = t'.maxBlockLength
  regionBlockLimit_eq : t.regionBlockLimit = t'.regionBlockLimit
  capacity_eq : t.cache.capacity = t'.cache.capacity

theorem SameLimits.refl (t : Translator) : t.SameLimits t :=
  ⟨rfl, rfl, rfl⟩

theorem SameLimits.trans {t t' t'' : Translator} (h : t.SameLimits t') (h' : t'.SameLimits t'') :
    t.SameLimits t'' :=
  ⟨h.1.trans h'.1, h.2.trans h'.2, h.3.trans h'.3⟩

theorem sameLimits_reset (t : Translator) : t.SameLimits t.reset :=
  ⟨rfl, rfl, rfl⟩

theorem sameLimits_finalize (t : Translator) : t.SameLimits t.finalize :=
  ⟨rfl, rfl, rfl⟩

theorem contains_eq_isSome (t : Translator) (addr : Word) :
    t.contains addr = t.blocks[addr]?.isSome :=
  Std.TreeMap.contains_eq_isSome_getElem?

theorem contains_reset (t : Translator) (addr : Word) : t.reset.contains addr = false := by
  simp [contains, reset]

theorem writable_reset (t : Translator) : t.reset.cache.executable = false := rfl

theorem idle_reset (t : Translator) : t.reset.Idle :=
  ⟨rfl, Std.TreeMap.size_emptyc⟩

/-- Where a block starts there is a block. -/
theorem size_pos_of_contains {t : Translator} {addr : Word} (h : t.contains addr = true) :
    0 < t.blocks.size := by
  apply Nat.pos_of_ne_zero
  intro hsize
  have hempty : t.blocks.isEmpty = true := by
    rw [Std.TreeMap.isEmpty_eq_size_eq_zero, hsize]
    rfl
  rw [contains, Std.TreeMap.contains_of_isEmpty hempty] at h
  cases h

theorem blocks_of_not_contains {t : Translator} {addr : Word} (h : t.contains addr = false) :
    t.blocks[addr]? = none := by
  rw [contains_eq_isSome] at h
  exact Option.isNone_iff_eq_none.1 (Option.isSome_eq_false_iff.1 h)

/-! ## Invariants -/

variable [Block.HelperTable]

/-- The block held at {lit}`start` is the one of the words that memory has there,
and the cache has its bytes. -/
structure Faithful (t : Translator) (ram : Ram) (start : Word) (block : TranslatedBlock) :
    Prop where
  fetched : fetchBlock ram t.maxBlockLength start ≠ []
  block_eq : block = blockOf start (fetchBlock ram t.maxBlockLength start) block.entryOffset
  bytes_eq : t.cache.bytes? block.entryOffset block.size =
    some (blockBytes (fetchBlock ram t.maxBlockLength start))

/-- The blocks held are those of a memory, and no more than there may be. -/
structure Holding (t : Translator) (ram : Ram) : Prop where
  inside : t.cache.size ≤ t.cache.capacity
  limited : t.blocks.size ≤ t.regionBlockLimit
  faithful : ∀ start block, t.blocks[start]? = some block → t.Faithful ram start block

/-- A translator at work on the region of a memory. -/
structure Building (t : Translator) (ram : Ram) : Prop extends t.Holding ram where
  writable : t.cache.executable = false

/-- A translator whose blocks can be run. -/
structure Ready (t : Translator) (ram : Ram) : Prop extends t.Holding ram where
  executable : t.cache.executable = true
  nonempty : 0 < t.blocks.size

/-- A translator that is ready holds a faithful block wherever it holds one. -/
theorem Ready.exists_faithful {t : Translator} {ram : Ram} {addr : Word} (h : t.Ready ram)
    (hheld : t.contains addr = true) :
    ∃ block, t.blocks[addr]? = some block ∧ t.Faithful ram addr block := by
  rw [contains_eq_isSome] at hheld
  obtain ⟨block, hblock⟩ := Option.isSome_iff_exists.1 hheld
  exact ⟨block, hblock, h.faithful addr block hblock⟩

theorem Faithful.finalize {t : Translator} {ram : Ram} {start : Word} {block : TranslatedBlock}
    (h : t.Faithful ram start block) : t.finalize.Faithful ram start block :=
  ⟨h.fetched, h.block_eq, h.bytes_eq⟩

/-- The blocks of a region can be run once they are finalized. -/
theorem Building.finalize {t : Translator} {ram : Ram} {addr : Word} (h : t.Building ram)
    (hheld : t.contains addr = true) : t.finalize.Ready ram where
  inside := h.inside
  limited := h.limited
  faithful start block hblock := (h.faithful start block hblock).finalize
  executable := rfl
  nonempty := size_pos_of_contains hheld

/-- A reset translator is ready for a region of any memory. -/
theorem building_reset (t : Translator) (ram : Ram) : t.reset.Building ram where
  writable := rfl
  inside := Nat.zero_le _
  limited := by
    rw [show t.reset.blocks.size = 0 from Std.TreeMap.size_emptyc]
    exact Nat.zero_le _
  faithful start block h := by
    rw [show t.reset.blocks[start]? = none from Std.TreeMap.getElem?_emptyc] at h
    cases h

/-! ## One block -/

section Append

variable {t : Translator} {ram : Ram} {start : Word}

/-- The translator after the block at an address was appended to its cache. -/
def appended (t : Translator) (ram : Ram) (start : Word) : Translator :=
  t.withBlock start (fetchBlock ram t.maxBlockLength start) t.cache.size
    (t.cache.extended (blockBytes (fetchBlock ram t.maxBlockLength start)))

theorem sameLimits_appended (t : Translator) (ram : Ram) (start : Word) :
    t.SameLimits (t.appended ram start) :=
  ⟨rfl, rfl, rfl⟩

theorem getElem?_blocks_appended (t : Translator) (ram : Ram) (start addr : Word) :
    (t.appended ram start).blocks[addr]? =
      if start = addr then
        some (blockOf start (fetchBlock ram t.maxBlockLength start) t.cache.size)
      else t.blocks[addr]? := by
  rw [appended, withBlock, getElem?_insert_word]

theorem contains_appended (t : Translator) (ram : Ram) (start addr : Word) :
    (t.appended ram start).contains addr = (decide (start = addr) || t.contains addr) := by
  rw [contains_eq_isSome, getElem?_blocks_appended, contains_eq_isSome]
  by_cases h : start = addr
  · simp [h]
  · simp [h]

/-- The block that is appended is faithful. -/
theorem faithful_appended (hne : fetchBlock ram t.maxBlockLength start ≠ []) :
    (t.appended ram start).Faithful ram start
      (blockOf start (fetchBlock ram t.maxBlockLength start) t.cache.size) :=
  ⟨hne, rfl, CodeCache.bytes?_extended_size _ _⟩

/-- The bytes of the blocks there are stay where they are. -/
theorem Faithful.appended {ram' : Ram} {addr : Word} {block : TranslatedBlock}
    (h : t.Faithful ram' addr block) (ram : Ram) (start : Word) :
    (t.appended ram start).Faithful ram' addr block :=
  ⟨h.fetched, h.block_eq, CodeCache.bytes?_extended_of_eq_some h.bytes_eq _⟩

theorem size_cache_appended (t : Translator) (ram : Ram) (start : Word) :
    (t.appended ram start).cache.size =
      t.cache.size + (blockBytes (fetchBlock ram t.maxBlockLength start)).length :=
  CodeCache.size_extended _ _

/-- Appending a block keeps the blocks there are and adds a faithful one. -/
theorem Building.appended (h : t.Building ram) (hroom : t.blocks.size < t.regionBlockLimit)
    (hne : fetchBlock ram t.maxBlockLength start ≠ [])
    (hfits : (blockBytes (fetchBlock ram t.maxBlockLength start)).length ≤
      t.cache.capacity - t.cache.size) :
    (t.appended ram start).Building ram := by
  have hinside := h.inside
  refine ⟨⟨?_, ?_, fun addr block hblock => ?_⟩, h.writable⟩
  · rw [size_cache_appended]
    show _ ≤ t.cache.capacity
    omega
  · show (t.blocks.insert start _).size ≤ t.regionBlockLimit
    rw [Std.TreeMap.size_insert]
    split <;> omega
  · rw [getElem?_blocks_appended] at hblock
    split at hblock
    · rename_i heq
      cases heq
      cases hblock
      exact faithful_appended hne
    · exact (h.faithful addr block hblock).appended ram start

/-- A new block that fits is appended. -/
theorem translateBlock_of_fits (hwritable : t.cache.executable = false)
    (hnew : t.blocks[start]? = none) (hne : fetchBlock ram t.maxBlockLength start ≠ [])
    (hfits : (blockBytes (fetchBlock ram t.maxBlockLength start)).length ≤
      t.cache.capacity - t.cache.size) :
    t.translateBlock ram start =
      .ok (blockOf start (fetchBlock ram t.maxBlockLength start) t.cache.size,
        t.appended ram start) := by
  rw [translateBlock_of_new hwritable hnew rfl hne, CodeCache.append_of_fits hwritable hfits]
  rfl

/-- A new block that does not fit is reported. -/
theorem translateBlock_of_overflow (hwritable : t.cache.executable = false)
    (hnew : t.blocks[start]? = none) (hne : fetchBlock ram t.maxBlockLength start ≠ [])
    (hover : t.cache.capacity - t.cache.size <
      (blockBytes (fetchBlock ram t.maxBlockLength start)).length) :
    t.translateBlock ram start =
      .error (.cacheExhausted start
        (blockBytes (fetchBlock ram t.maxBlockLength start)).length t.cache.size
        t.cache.capacity) := by
  rw [translateBlock_of_new hwritable hnew rfl hne, CodeCache.append_of_overflow hwritable hover]
  rfl

end Append

/-! ## Queues -/

/-- Once a block was translated, the region is completed as far as there is room
and no block is lost. -/
theorem translateQueue_of_pos {ram : Ram} (fuel : Nat) (queue : List Word) {count : Nat}
    (hcount : 0 < count) {t : Translator} (h : t.Building ram) :
    ∃ n t', translateQueue ram fuel queue count t = (.ok n, t') ∧ t'.Building ram ∧
      t.SameLimits t' ∧ ∀ addr, t.contains addr = true → t'.contains addr = true := by
  induction fuel generalizing queue count t with
  | zero =>
      have hdone : translateQueue ram 0 queue count t = (.ok count, t) := by
        cases queue <;> rfl
      exact ⟨count, t, hdone, h, .refl t, fun _ => id⟩
  | succ fuel ih =>
      cases queue with
      | nil => exact ⟨count, t, rfl, h, .refl t, fun _ => id⟩
      | cons addr queue =>
          unfold translateQueue
          by_cases hlimit : t.regionBlockLimit ≤ t.blocks.size
          · rw [if_pos hlimit]
            exact ⟨count, t, rfl, h, .refl t, fun _ => id⟩
          · rw [if_neg hlimit]
            cases hheld : t.contains addr with
            | true =>
                rw [if_pos rfl]
                exact ih queue hcount h
            | false =>
                rw [if_neg Bool.false_ne_true]
                have hnew := blocks_of_not_contains hheld
                by_cases hne : fetchBlock ram t.maxBlockLength addr = []
                · rw [translateBlock_of_nil h.writable hnew hne]
                  exact ih queue hcount h
                by_cases hfits : (blockBytes (fetchBlock ram t.maxBlockLength addr)).length ≤
                    t.cache.capacity - t.cache.size
                · rw [translateBlock_of_fits h.writable hnew hne hfits]
                  have hnext := h.appended (Nat.lt_of_not_le hlimit) hne hfits
                  obtain ⟨n, t', hrun, hbuilding, hlimits, hkept⟩ := ih
                    (queue ++ (blockOf addr (fetchBlock ram t.maxBlockLength addr)
                      t.cache.size).successors) (Nat.succ_pos count) hnext
                  refine ⟨n, t', hrun, hbuilding, (sameLimits_appended t ram addr).trans hlimits,
                    fun a ha => hkept a ?_⟩
                  rw [contains_appended, ha, Bool.or_true]
                · rw [translateBlock_of_overflow h.writable hnew hne (Nat.lt_of_not_le hfits)]
                  refine ⟨count, t, ?_, h, .refl t, fun _ => id⟩
                  show (if 0 < count then _ else _) = _
                  rw [if_pos hcount]

/-! ## Regions -/

section Region

variable {t : Translator}

/-- A region starts with the block at its first address. -/
theorem translateRegion_reset (hlimit : t.regionBlockLimit ≠ 0) (ram : Ram) (pc : Word)
    (seeds : List Word) :
    ∃ fuel, t.reset.translateRegion ram (pc :: seeds) =
      match t.reset.translateBlock ram pc with
      | .ok (block, t') => translateQueue ram fuel (seeds ++ block.successors) 1 t'
      | .error (.notMapped _) => translateQueue ram fuel seeds 0 t.reset
      | .error (.cacheExhausted addr needed used capacity) =>
        (.error (.cacheExhausted addr needed used capacity), t.reset)
      | .error e => (.error e, t.reset) := by
  refine ⟨seeds.length + 2 * t.regionBlockLimit, ?_⟩
  unfold translateRegion
  rw [show (pc :: seeds).length + 2 * t.reset.regionBlockLimit =
      seeds.length + 2 * t.regionBlockLimit + 1 by
    show seeds.length + 1 + 2 * t.regionBlockLimit = _
    omega, translateQueue]
  have hempty : t.reset.blocks.size = 0 := Std.TreeMap.size_emptyc
  rw [if_neg (by rw [hempty]; exact fun h => hlimit (Nat.le_zero.1 h)), contains_reset,
    if_neg Bool.false_ne_true]
  rfl

variable {ram : Ram} {pc : Word} (hlimit : t.regionBlockLimit ≠ 0)
  (hne : fetchBlock ram t.maxBlockLength pc ≠ [])
include hlimit hne

/-- A region whose first block fits into the empty cache is translated and holds
that block. -/
theorem translateRegion_of_fits
    (hfits : (blockBytes (fetchBlock ram t.maxBlockLength pc)).length ≤ t.cache.capacity)
    (seeds : List Word) :
    ∃ n t', t.reset.translateRegion ram (pc :: seeds) = (.ok n, t') ∧ t'.Building ram ∧
      t.SameLimits t' ∧ t'.contains pc = true := by
  obtain ⟨fuel, hregion⟩ := translateRegion_reset hlimit ram pc seeds
  have hnew := blocks_of_not_contains (contains_reset t pc)
  have hfetch : fetchBlock ram t.reset.maxBlockLength pc ≠ [] := hne
  have hblock := translateBlock_of_fits (writable_reset t) hnew hfetch hfits
  have hbuilding : (t.reset.appended ram pc).Building ram := by
    refine (building_reset t ram).appended ?_ hne hfits
    rw [show t.reset.blocks.size = 0 from Std.TreeMap.size_emptyc]
    exact Nat.pos_of_ne_zero hlimit
  rw [hblock] at hregion
  obtain ⟨n, t', hrun, hdone, hlimits, hkept⟩ := translateQueue_of_pos fuel
    (seeds ++ (blockOf pc (fetchBlock ram t.reset.maxBlockLength pc)
      t.reset.cache.size).successors) Nat.one_pos hbuilding
  refine ⟨n, t', hregion.trans hrun, hdone,
    ((sameLimits_reset t).trans (sameLimits_appended _ ram pc)).trans hlimits, hkept pc ?_⟩
  rw [contains_appended, decide_eq_true rfl, Bool.true_or]

/-- A region whose first block does not fit is not translated at all. -/
theorem translateRegion_of_overflow
    (hover : t.cache.capacity < (blockBytes (fetchBlock ram t.maxBlockLength pc)).length)
    (seeds : List Word) :
    t.reset.translateRegion ram (pc :: seeds) =
      (.error (.cacheExhausted pc (blockBytes (fetchBlock ram t.maxBlockLength pc)).length 0
        t.cache.capacity), t.reset) := by
  obtain ⟨fuel, hregion⟩ := translateRegion_reset hlimit ram pc seeds
  have hnew := blocks_of_not_contains (contains_reset t pc)
  have hfetch : fetchBlock ram t.reset.maxBlockLength pc ≠ [] := hne
  have hblock := translateBlock_of_overflow (writable_reset t) hnew hfetch hover
  rw [hblock] at hregion
  exact hregion

end Region

end Translator

end ArmEmulator
