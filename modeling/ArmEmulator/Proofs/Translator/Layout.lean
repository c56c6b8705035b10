import ArmEmulator.Proofs.Translator.Discovery
import ArmEmulator.Proofs.Translator.Running

/-!
# Layout of the code cache

Whatever calls a translator has seen, the code of its blocks fills the used part of the
cache without gap or overlap, and every recorded position lies in the code of a block
with that instruction.  Blocks are appended behind the bytes in use, so those there are
stay where they are; a call that fails appends nothing; a reset drops everything.

Main results:

- Theorem {lit}`Translator.Laid.appended`: appending a block keeps the layout.
- Theorem {lit}`Translator.Reached.laid`: every reachable translator is laid out so.
- Theorem {lit}`Translator.cache_laid_out`: what that means for blocks, bytes and
  positions.
-/

namespace ArmEmulator

open Block (Fetched)
open Host (Code)

/-- A place of the cache lies in the code of a block. -/
def TranslatedBlock.Covers (block : TranslatedBlock) (place : Nat) : Prop :=
  block.entryOffset ≤ place ∧ place < block.entryOffset + block.size

namespace Translator

variable [Block.HelperTable]

/-! ## Reachable translators -/

/-- The translators that calls lead to from a new one.  A call that fails leads to
whatever it leaves; running a block leads nowhere else. -/
inductive Reached (c : Configuration) : Translator → Prop where
  | create : Reached c (ofConfiguration c)
  | translated {t t' : Translator} (h : Reached c t) {ram : Ram} {start : Word}
      {block : TranslatedBlock} (hcall : translateInPlace ram start t = .ok block t') :
      Reached c t'
  | refused {t t' : Translator} (h : Reached c t) {ram : Ram} {start : Word}
      {err : TranslateError} (hcall : translateInPlace ram start t = .error err t') :
      Reached c t'
  | region {t : Translator} (h : Reached c t) (ram : Ram) (seeds : List Word) :
      Reached c (t.translateRegion ram seeds).2
  | finalize {t : Translator} (h : Reached c t) : Reached c t.finalize
  | reset {t : Translator} (h : Reached c t) : Reached c t.reset

/-- What translating a block keeps, translating a queue of blocks keeps. -/
theorem translateQueue_keeps {P : Translator → Prop} {ram : Ram}
    (hstep : ∀ {t start block t'}, P t → t.translateBlock ram start = .ok (block, t') → P t')
    (fuel : Nat) (queue : List Word) (count : Nat) {t : Translator} (h : P t) :
    P (translateQueue ram fuel queue count t).2 := by
  induction fuel generalizing queue count t with
  | zero => cases queue <;> exact h
  | succ fuel ih =>
      cases queue with
      | nil => exact h
      | cons addr queue =>
          unfold translateQueue
          split
          · exact h
          split
          · exact ih queue count h
          split
          · rename_i block t' hok
            exact ih _ _ (hstep h hok)
          · exact ih queue count h
          · split <;> exact h
          · exact h

/-! ## The layout -/

/-- A place of the cache lies in the code of a block, and the block has an instruction at
the address. -/
structure Locates (t : Translator) (start : Word) (block : TranslatedBlock) (addr : Word)
    (place : Nat) : Prop where
  covers : block.Covers place
  fetched : ∃ ram, t.Faithful ram start block ∧
    ∃ f ∈ fetchBlock ram t.maxBlockLength start, f.addr = addr

/-- The code of the blocks fills the used part of the cache without overlap, and every
recorded position lies in the code of a block with that instruction. -/
structure Laid (t : Translator) : Prop where
  inside : t.cache.size ≤ t.cache.capacity
  faithful : ∀ (start : Word) (block : TranslatedBlock), t.blocks[start]? = some block →
    ∃ ram, t.Faithful ram start block
  covered : ∀ place < t.cache.size, ∃ (start : Word) (block : TranslatedBlock),
    t.blocks[start]? = some block ∧ block.Covers place
  apart : ∀ (start start' : Word) (block block' : TranslatedBlock) (place : Nat),
    t.blocks[start]? = some block → t.blocks[start']? = some block' →
    block.Covers place → block'.Covers place → start = start'
  recorded : ∀ (addr : Word) (place : Nat), t.hostOffset? addr = some place →
    ∃ (start : Word) (block : TranslatedBlock), t.blocks[start]? = some block ∧
      t.Locates start block addr place

section Layout

variable {t : Translator} {ram : Ram} {start : Word} {block : TranslatedBlock}

/-- A translator that holds nothing has an empty layout. -/
theorem laid_of_empty (hsize : t.cache.size = 0)
    (hblocks : ∀ start : Word, t.blocks[start]? = none)
    (hoffsets : ∀ addr : Word, t.hostOffset? addr = none) : t.Laid where
  inside := by omega
  faithful start block h := by
    rw [hblocks] at h
    cases h
  covered place h := by omega
  apart start start' block block' place h := by
    rw [hblocks] at h
    cases h
  recorded addr place h := by
    rw [hoffsets] at h
    cases h

theorem laid_ofConfiguration (c : Configuration) : (ofConfiguration c).Laid :=
  laid_of_empty rfl (fun _ => Std.TreeMap.getElem?_emptyc) fun _ => Std.TreeMap.getElem?_emptyc

theorem laid_reset (t : Translator) : t.reset.Laid :=
  laid_of_empty rfl (fun _ => Std.TreeMap.getElem?_emptyc) fun _ => Std.TreeMap.getElem?_emptyc

/-- The code of a block lies in the used part of the cache. -/
theorem Faithful.le_size (h : t.Faithful ram start block) :
    block.entryOffset + block.size ≤ t.cache.size :=
  CodeCache.le_size_of_bytes?_eq_some h.bytes_eq

theorem Faithful.size_pos (h : t.Faithful ram start block) : 0 < block.size := by
  rw [h.size_eq]
  exact blockBytes_pos _

/-- The bytes in the cache are those that the code of the block encodes to. -/
theorem Faithful.encode?_code (h : t.Faithful ram start block) :
    block.code.encode? = some (blockBytes (fetchBlock ram t.maxBlockLength start)) := by
  rw [h.code_eq]
  exact encode?_blockCode _

/-- The place of an instruction lies in the code of its block: the end of the block lies
behind it. -/
theorem covers_blockOf {instrs : List Fetched} {i : Nat} {f : Fetched} (hf : instrs[i]? = some f)
    (start : Word) (entryOffset : Nat) :
    (blockOf start instrs entryOffset).Covers
      (entryOffset + (Block.codeBefore helpers instrs i).size) := by
  obtain ⟨others, hcode⟩ := Block.exists_code_eq helpers hf (fallThrough? instrs)
  have hclosing : 0 < (Block.closing (fallThrough? instrs)).size := by
    rw [Block.closing, Code.size_append]
    have hexit : 0 < Block.faultExit.size := by decide
    omega
  have hsize := Code.length_of_encode? (encode?_blockCode instrs)
  rw [blockCode, hcode] at hsize
  simp only [Code.size_append] at hsize
  refine ⟨Nat.le_add_right _ _, ?_⟩
  show _ < entryOffset + (blockBytes instrs).length
  omega

/-! ## Steps -/

theorem Laid.finalize (h : t.Laid) : t.finalize.Laid where
  inside := h.inside
  faithful start block hblock := by
    obtain ⟨ram, hfaithful⟩ := h.faithful start block hblock
    exact ⟨ram, hfaithful.finalize⟩
  covered := h.covered
  apart := h.apart
  recorded addr place hplace := by
    obtain ⟨start, block, hblock, hcovers, ram, hfaithful, hf⟩ := h.recorded addr place hplace
    exact ⟨start, block, hblock, hcovers, ram, hfaithful.finalize, hf⟩

/-- The block that is appended covers the bytes behind those that were in use. -/
theorem covers_appended_iff {place : Nat} :
    (blockOf start (fetchBlock ram t.maxBlockLength start) t.cache.size).Covers place ↔
      t.cache.size ≤ place ∧ place < (t.appended ram start).cache.size := by
  rw [size_cache_appended]
  exact Iff.rfl

/-- A block that is held after another one was appended is that one, or it was there. -/
theorem held_appended {start' : Word}
    (hblock : (t.appended ram start).blocks[start']? = some block) :
    (start' = start ∧
        block = blockOf start (fetchBlock ram t.maxBlockLength start) t.cache.size) ∨
      t.blocks[start']? = some block := by
  rw [getElem?_blocks_appended] at hblock
  split at hblock
  · rename_i heq
    cases hblock
    exact .inl ⟨heq.symm, rfl⟩
  · exact .inr hblock

/-- A block that was there is there after another one was appended at a new address. -/
theorem held_of_held (hnew : t.blocks[start]? = none) {start' : Word}
    (hblock : t.blocks[start']? = some block) :
    (t.appended ram start).blocks[start']? = some block := by
  rw [getElem?_blocks_appended, if_neg, hblock]
  rintro rfl
  rw [hnew] at hblock
  cases hblock

/-- Appending a block keeps the layout: its code takes the bytes behind those in use. -/
theorem Laid.appended (h : t.Laid) (hnew : t.blocks[start]? = none)
    (hne : fetchBlock ram t.maxBlockLength start ≠ [])
    (hfits : (blockBytes (fetchBlock ram t.maxBlockLength start)).length ≤
      t.cache.capacity - t.cache.size) :
    (t.appended ram start).Laid := by
  have hinside := h.inside
  have hsize := size_cache_appended t ram start
  have hbefore : ∀ (start' : Word) (block : TranslatedBlock) (place : Nat),
      t.blocks[start']? = some block → block.Covers place → place < t.cache.size := by
    intro start' block place hblock hcovers
    obtain ⟨ram', hfaithful⟩ := h.faithful start' block hblock
    exact Nat.lt_of_lt_of_le hcovers.2 hfaithful.le_size
  have hself : (t.appended ram start).blocks[start]? =
      some (blockOf start (fetchBlock ram t.maxBlockLength start) t.cache.size) := by
    rw [getElem?_blocks_appended, if_pos rfl]
  refine ⟨?_, ?_, ?_, ?_, ?_⟩
  · show _ ≤ t.cache.capacity
    omega
  · intro start' block hblock
    rcases held_appended hblock with ⟨rfl, rfl⟩ | hheld
    · exact ⟨ram, faithful_appended hne⟩
    · obtain ⟨ram', hfaithful⟩ := h.faithful start' block hheld
      exact ⟨ram', hfaithful.appended ram start⟩
  · intro place hplace
    by_cases hlt : place < t.cache.size
    · obtain ⟨start', block, hheld, hcovers⟩ := h.covered place hlt
      exact ⟨start', block, held_of_held hnew hheld, hcovers⟩
    · exact ⟨start, _, hself, covers_appended_iff.2 ⟨Nat.le_of_not_lt hlt, hplace⟩⟩
  -- The places of the new block lie behind all those of the others.
  · intro start₁ start₂ block₁ block₂ place hblock₁ hblock₂ hcovers₁ hcovers₂
    rcases held_appended hblock₁ with ⟨rfl, rfl⟩ | hheld₁ <;>
      rcases held_appended hblock₂ with ⟨rfl, rfl⟩ | hheld₂
    · rfl
    · have hlt := hbefore _ _ _ hheld₂ hcovers₂
      have hle := (covers_appended_iff.1 hcovers₁).1
      omega
    · have hlt := hbefore _ _ _ hheld₁ hcovers₁
      have hle := (covers_appended_iff.1 hcovers₂).1
      omega
    · exact h.apart _ _ _ _ _ hheld₁ hheld₂ hcovers₁ hcovers₂
  -- An instruction that is recorded again is now found in the new block.
  · intro addr place hplace
    rcases mem_or_of_getElem?_recorded hplace with ⟨f, position, hmem, rfl, rfl⟩ | hthere
    · obtain ⟨i, hi⟩ := List.mem_iff_getElem?.1 hmem
      obtain ⟨hf, hposition⟩ := List.getElem?_zip_eq_some.1 hi
      rw [Block.getElem?_positions _ hf] at hposition
      obtain rfl := Option.some.inj hposition
      exact ⟨start, _, hself, covers_blockOf hf _ _, ram, faithful_appended hne, f,
        List.mem_of_getElem? hf, rfl⟩
    · obtain ⟨start', block, hheld, hcovers, ram', hfaithful, hf⟩ := h.recorded addr place hthere
      exact ⟨start', block, held_of_held hnew hheld, hcovers, ram', hfaithful.appended ram start,
        hf⟩

/-- Translating a block keeps the layout. -/
theorem Laid.translateBlock {t' : Translator} (h : t.Laid)
    (hok : t.translateBlock ram start = .ok (block, t')) : t'.Laid := by
  have hcase := translateBlock_cases t ram start
  rw [hok] at hcase
  cases hcase with
  | held => exact h
  | appended _ hnew hne hfits => exact h.appended hnew hne hfits

/-- Every reachable translator is laid out without gap or overlap. -/
theorem Reached.laid {c : Configuration} (h : Reached c t) : t.Laid := by
  induction h with
  | create => exact laid_ofConfiguration c
  | translated _ hcall ih => exact ih.translateBlock (translateInPlace_eq_ok_iff.1 hcall)
  | refused _ hcall ih =>
      rw [(translateInPlace_eq_error_iff.1 hcall).2]
      exact ih
  | region _ ram seeds ih => exact translateQueue_keeps Laid.translateBlock _ seeds 0 ih
  | finalize _ ih => exact ih.finalize
  | reset _ _ => exact laid_reset _

end Layout

/-- The code of a block is not empty and ends in the used part of the cache; the blocks do
not overlap; every byte in use is one of a block; the bytes of a block are those that its
code encodes to; and a recorded position lies in a block with that instruction. -/
theorem cache_laid_out {c : Configuration} {t : Translator} (h : Reached c t) :
    t.cache.size ≤ t.cache.capacity ∧
    (∀ (start : Word) (block : TranslatedBlock), t.blocks[start]? = some block →
      0 < block.size ∧ block.entryOffset + block.size ≤ t.cache.size) ∧
    (∀ (start start' : Word) (block block' : TranslatedBlock), t.blocks[start]? = some block →
      t.blocks[start']? = some block' → start ≠ start' →
        block.entryOffset + block.size ≤ block'.entryOffset ∨
          block'.entryOffset + block'.size ≤ block.entryOffset) ∧
    (∀ place, place < t.cache.size ↔ ∃ (start : Word) (block : TranslatedBlock),
      t.blocks[start]? = some block ∧ block.Covers place) ∧
    (∀ (start : Word) (block : TranslatedBlock), t.blocks[start]? = some block →
      ∃ ram bytes, block = blockOf start (fetchBlock ram t.maxBlockLength start) block.entryOffset ∧
        block.code.encode? = some bytes ∧ t.hostCode? start = some bytes) ∧
    ∀ (addr : Word) (place : Nat), t.hostOffset? addr = some place →
      ∃ (start : Word) (block : TranslatedBlock), t.blocks[start]? = some block ∧
        t.Locates start block addr place := by
  have hlaid := h.laid
  have hbounds : ∀ (start : Word) (block : TranslatedBlock), t.blocks[start]? = some block →
      0 < block.size ∧ block.entryOffset + block.size ≤ t.cache.size := by
    intro start block hblock
    obtain ⟨ram, hfaithful⟩ := hlaid.faithful start block hblock
    exact ⟨hfaithful.size_pos, hfaithful.le_size⟩
  refine ⟨hlaid.inside, hbounds, ?_, ?_, ?_, hlaid.recorded⟩
  · intro start start' block block' hblock hblock' hne
    refine Decidable.byContradiction fun hoverlap => ?_
    -- The later one of the two entries is a place of both.
    have hpos := (hbounds start block hblock).1
    have hpos' := (hbounds start' block' hblock').1
    refine hne (hlaid.apart start start' block block' (max block.entryOffset block'.entryOffset)
      hblock hblock' ⟨?_, ?_⟩ ⟨?_, ?_⟩) <;> omega
  · intro place
    refine ⟨hlaid.covered place, ?_⟩
    rintro ⟨start, block, hblock, hcovers⟩
    exact Nat.lt_of_lt_of_le hcovers.2 (hbounds start block hblock).2
  · intro start block hblock
    obtain ⟨ram, hfaithful⟩ := hlaid.faithful start block hblock
    refine ⟨ram, _, hfaithful.block_eq, hfaithful.encode?_code, ?_⟩
    rw [hostCode?, hblock]
    exact hfaithful.bytes_eq

end Translator

/-! ## A second block -/

namespace Translator

attribute [local instance] Block.threeTable

/-- The block of the second word fits behind the one of both. -/
theorem fits_second_twoWords :
    (blockBytes (fetchBlock twoWords (fresh.appended twoWords 0).maxBlockLength 4)).length ≤
      (fresh.appended twoWords 0).cache.capacity - (fresh.appended twoWords 0).cache.size := by
  rw [size_cache_appended, Code.length_of_encode? (encode?_blockCode _),
    Code.length_of_encode? (encode?_blockCode _)]
  decide

/-- The block of the second word is translated behind the one of both. -/
theorem translateBlock_second_twoWords :
    (fresh.appended twoWords 0).translateBlock twoWords 4 =
      .ok (blockOf 4 (fetchBlock twoWords fresh.maxBlockLength 4)
          (fresh.appended twoWords 0).cache.size,
        (fresh.appended twoWords 0).appended twoWords 4) := by
  refine translateBlock_of_fits rfl ?_ (by decide) fits_second_twoWords
  rw [getElem?_blocks_appended, if_neg (by decide)]
  exact Std.TreeMap.getElem?_emptyc

theorem cache_laid_out_twoWords :
    ∃ (t : Translator) (block block' : TranslatedBlock),
      Reached .default t ∧ t.isFinalized = true ∧
      t.blocks[(0 : Word)]? = some block ∧ t.blocks[(4 : Word)]? = some block' ∧
      (block.entryOffset + block.size ≤ block'.entryOffset ∨
        block'.entryOffset + block'.size ≤ block.entryOffset) := by
  have hreached : Reached .default ((fresh.appended twoWords 0).appended twoWords 4).finalize :=
    ((Reached.create.translated (translateInPlace_eq_ok_iff.2 translateBlock_twoWords)).translated
      (translateInPlace_eq_ok_iff.2 translateBlock_second_twoWords)).finalize
  have hheld : ((fresh.appended twoWords 0).appended twoWords 4).blocks[(0 : Word)]? =
      some (blockOf 0 (fetchBlock twoWords fresh.maxBlockLength 0) fresh.cache.size) := by
    rw [getElem?_blocks_appended, if_neg (by decide), getElem?_blocks_appended, if_pos rfl]
  have hheld' := (getElem?_blocks_appended (fresh.appended twoWords 0) twoWords 4 4).trans
    (if_pos rfl)
  exact ⟨_, _, _, hreached, rfl, hheld, hheld',
    (cache_laid_out hreached).2.2.1 0 4 _ _ hheld hheld' (by decide)⟩

end Translator

end ArmEmulator
