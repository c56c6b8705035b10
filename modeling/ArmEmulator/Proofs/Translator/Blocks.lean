import ArmEmulator.Proofs.Block.Labels
import ArmEmulator.Proofs.Block.Simulation
import ArmEmulator.Translator

/-!
# Translated blocks

A block is a function of the words it was fetched from, but for its position in
the cache.  Its code can always be encoded, so translating a new block fails only
for want of code or of room.

Main results:

- Theorem {lit}`closes_fetchBlock`: a fetched block ends with the first
  instruction that can move the program counter.
- Theorem {lit}`Translator.translateBlock_of_new`: the block translated from the
  words fetched at an address.
-/

namespace ArmEmulator

open Block (Fetched Closes)

/-! ## Fetched instructions -/

theorem Ram.word?_isSome_iff {ram : Ram} {addr : Word} :
    (ram.word? addr).isSome ↔ ram.contains addr 4 = true := by
  simp [word?, load?, contains]

/-- Words fetched one behind the other from an address. -/
def Consecutive : Word → List Fetched → Prop
  | _, [] => True
  | addr, f :: fs => f.addr = addr ∧ Consecutive (addr + 4) fs

section Consecutive

variable {instrs : List Fetched} {addr : Word} {i : Nat} {f : Fetched}

theorem Consecutive.addr_eq (h : Consecutive addr instrs) (hf : instrs[i]? = some f) :
    f.addr = addr + 4 * BitVec.ofNat 32 i := by
  induction instrs generalizing addr i with
  | nil => cases hf
  | cons g gs ih =>
      cases i with
      | zero =>
          cases hf
          exact h.1.trans (BitVec.add_zero addr).symm
      | succ i =>
          rw [ih h.2 hf, BitVec.ofNat_add]
          grind

/-- Only the last instruction of a block can move the program counter. -/
theorem writesPc_of_closes {next? : Option Word} (h : Closes instrs next?)
    (hi : i + 1 < instrs.length) (hf : instrs[i]? = some f) : f.writesPc = false := by
  induction instrs generalizing i with
  | nil => cases hf
  | cons g gs ih =>
      cases gs with
      | nil => exact absurd hi (by simp)
      | cons g' gs =>
          cases i with
          | zero =>
              cases hf
              exact h.1
          | succ i => exact ih h.2 (Nat.lt_of_succ_lt_succ hi) hf

/-- A block of more words than the address space holds has a word at each address
in step with its first, and it never moves the program counter. -/
theorem exists_fetched_of_lt_length {next? : Option Word} (hcloses : Closes instrs next?)
    (hfrom : Consecutive addr instrs) (hlong : 0x40000000 < instrs.length) (j : Word) :
    ∃ f ∈ instrs, f.addr = addr + 4 * j ∧ f.writesPc = false := by
  have hj : j.toNat % 0x40000000 < 0x40000000 := Nat.mod_lt _ (by decide)
  have hlt : j.toNat % 0x40000000 < instrs.length := Nat.lt_trans hj hlong
  have hf : instrs[j.toNat % 0x40000000]? = some instrs[j.toNat % 0x40000000] :=
    List.getElem?_eq_getElem hlt
  have hmul : 4 * BitVec.ofNat 32 (j.toNat % 0x40000000) = 4 * j := by
    apply BitVec.eq_of_toNat_eq
    rw [BitVec.toNat_mul, BitVec.toNat_mul, BitVec.toNat_ofNat, show (4 : Word).toNat = 4 from rfl]
    omega
  refine ⟨_, List.getElem_mem hlt, ?_, writesPc_of_closes hcloses (by omega) hf⟩
  rw [hfrom.addr_eq hf, hmul]

end Consecutive

section Fetch

variable {ram : Ram} {n : Nat} {addr : Word}

theorem consecutive_fetchBlock (ram : Ram) (n : Nat) (addr : Word) :
    Consecutive addr (fetchBlock ram n addr) := by
  induction n generalizing addr with
  | zero => exact trivial
  | succ n ih =>
      unfold fetchBlock
      split
      · exact trivial
      · refine ⟨rfl, ?_⟩
        split
        · exact trivial
        · exact ih (addr + 4)

/-- A fetched word is the one memory holds at its address. -/
theorem word?_of_mem_fetchBlock {f : Fetched} (h : f ∈ fetchBlock ram n addr) :
    ram.word? f.addr = some f.word := by
  induction n generalizing addr with
  | zero => cases h
  | succ n ih =>
      unfold fetchBlock at h
      split at h
      · cases h
      · rename_i word hword
        rcases List.mem_cons.1 h with rfl | h
        · exact hword
        · split at h
          · cases h
          · exact ih h

/-- A block is no longer than it may be. -/
theorem length_fetchBlock_le (ram : Ram) (n : Nat) (addr : Word) :
    (fetchBlock ram n addr).length ≤ n := by
  induction n generalizing addr with
  | zero => exact Nat.le_refl 0
  | succ n ih =>
      unfold fetchBlock
      split
      · exact Nat.zero_le _
      · split
        · exact Nat.succ_le_succ (Nat.zero_le n)
        · exact Nat.succ_le_succ (ih (addr + 4))

/-- There is a block wherever memory holds a word. -/
theorem fetchBlock_ne_nil (hn : n ≠ 0) (h : ram.contains addr 4 = true) :
    fetchBlock ram n addr ≠ [] := by
  cases n with
  | zero => exact absurd rfl hn
  | succ n =>
      obtain ⟨word, hword⟩ := Option.isSome_iff_exists.1 (Ram.word?_isSome_iff.2 h)
      rw [fetchBlock, hword]
      exact List.cons_ne_nil _ _

end Fetch

/-- Where a block goes on by itself: behind its last instruction, unless that can
move the program counter. -/
def fallThrough? (instrs : List Fetched) : Option Word :=
  instrs.getLast?.bind fun last => if last.writesPc then none else some (last.addr + 4)

/-- A fetched block ends with the first instruction that can move the program
counter. -/
theorem closes_fetchBlock {ram : Ram} {n : Nat} {addr : Word} (h : fetchBlock ram n addr ≠ []) :
    Closes (fetchBlock ram n addr) (fallThrough? (fetchBlock ram n addr)) := by
  induction n generalizing addr with
  | zero => exact absurd rfl h
  | succ n ih =>
      cases hword : ram.word? addr with
      | none =>
          rw [fetchBlock, hword] at h
          exact absurd rfl h
      | some word =>
          obtain ⟨f, hf⟩ : ∃ f : Fetched, f = ⟨addr, word⟩ := ⟨_, rfl⟩
          have hblock : fetchBlock ram (n + 1) addr =
              f :: if f.writesPc then [] else fetchBlock ram n (addr + 4) := by
            rw [fetchBlock, hword, hf]
            rfl
          rw [hblock]
          cases hw : f.writesPc with
          | true =>
              show fallThrough? [f] = _
              rfl
          | false =>
              rw [if_neg Bool.false_ne_true]
              cases hrest : fetchBlock ram n (addr + 4) with
              | nil =>
                  show fallThrough? [f] = _
                  rfl
              | cons g fs =>
                  have hne : fetchBlock ram n (addr + 4) ≠ [] := hrest ▸ List.cons_ne_nil _ _
                  have hcloses := ih hne
                  rw [hrest] at hcloses
                  refine ⟨hw, ?_⟩
                  rw [show fallThrough? (f :: g :: fs) = fallThrough? (g :: fs) by
                    rw [fallThrough?, List.getLast?_cons_cons, fallThrough?]]
                  exact hcloses

namespace Translator

/-! ## Blocks as functions of their words -/

/-- The address of a closing branch to itself. -/
def loopMark? (instrs : List Fetched) : Option Word :=
  instrs.getLast?.bind fun last => selfLoopAt? last.addr (Instruction.decode last.word)

/-- Only the unconditional branch back by two words is marked. -/
theorem selfLoopAt?_eq_some_iff {addr target : Word} {i : Instruction} :
    selfLoopAt? addr i = some target ↔
      i = ⟨.al, .branch ⟨false, .offset (-8)⟩⟩ ∧ addr = target := by
  constructor
  · intro h
    unfold selfLoopAt? at h
    split at h
    · split at h
      · rename_i hbytes
        cases h
        rw [hbytes]
        exact ⟨rfl, rfl⟩
      · cases h
    · cases h
  · rintro ⟨rfl, rfl⟩
    rfl

variable [Block.HelperTable]

/-- The code of the block of some words. -/
def blockCode (instrs : List Fetched) : Host.Code :=
  Block.code helpers instrs (fallThrough? instrs)

/-- The bytes of the block of some words. -/
def blockBytes (instrs : List Fetched) : List Byte :=
  (blockCode instrs).encode?.getD []

/-- The block of some words, with its code at a position of the cache. -/
def blockOf (start : Word) (instrs : List Fetched) (entryOffset : Nat) : TranslatedBlock where
  start
  entryOffset
  size := (blockBytes instrs).length
  instructionCount := BitVec.ofNat 32 instrs.length
  selfLoop? := loopMark? instrs
  successors :=
    instrs.getLast?.elim [] fun last => successorsAt last.addr (Instruction.decode last.word)
  code := blockCode instrs

/-- The translator that also holds the block of some words. -/
def withBlock (t : Translator) (start : Word) (instrs : List Fetched) (entryOffset : Nat)
    (cache : CodeCache) : Translator :=
  { t with
    cache
    blocks := t.blocks.insert start (blockOf start instrs entryOffset)
    offsets := (instrs.zip (Block.positions helpers instrs)).foldl
      (fun offsets (f, position) => offsets.insert f.addr (entryOffset + position)) t.offsets }

/-- The code of a block can be encoded. -/
theorem encode?_blockCode (instrs : List Fetched) :
    (blockCode instrs).encode? = some (blockBytes instrs) := by
  obtain ⟨bytes, hbytes⟩ := Option.isSome_iff_exists.1
    (Block.encode?_code_isSome helpers instrs (fallThrough? instrs))
  rw [blockBytes, blockCode, hbytes, Option.getD_some]

/-- A block has code, if only its prologue. -/
theorem blockBytes_pos (instrs : List Fetched) : 0 < (blockBytes instrs).length := by
  rw [Host.Code.length_of_encode? (encode?_blockCode instrs), blockCode, Block.code,
    Host.Code.size_append, Host.Code.size_append]
  have hprologue : 0 < Host.Code.size (Host.Code.ofInstrs Block.prologue) := by decide
  omega

/-! ## Translating one block -/

section Translate

variable {t : Translator} {ram : Ram} {start : Word} {instrs : List Fetched} {last : Fetched}

/-- Appending a block puts its bytes into the cache. -/
theorem appendBlock_eq (h : instrs.getLast? = some last) :
    t.appendBlock start instrs last =
      (t.cache.append start (blockBytes instrs)).map fun (entryOffset, cache) =>
        (blockOf start instrs entryOffset, t.withBlock start instrs entryOffset cache) := by
  have hcode : Block.code helpers instrs
      (if (Instruction.decode last.word).writesPc then none else some (last.addr + 4)) =
        blockCode instrs := by
    rw [blockCode, fallThrough?, h]
    rfl
  unfold appendBlock
  dsimp only
  rw [hcode, encode?_blockCode]
  cases happend : t.cache.append start (blockBytes instrs) with
  | error e =>
      show (t.cache.append start (blockBytes instrs) >>= _) = _
      rw [happend]
      rfl
  | ok placed =>
      show (t.cache.append start (blockBytes instrs) >>= _) = _
      rw [happend]
      show Except.ok _ = Except.ok _
      simp only [blockOf, withBlock, loopMark?, h]
      rfl

/-- A new block is translated from the words fetched at its start. -/
theorem translateBlock_of_new (hwritable : t.cache.executable = false)
    (hnew : t.blocks[start]? = none) (hinstrs : fetchBlock ram t.maxBlockLength start = instrs)
    (hne : instrs ≠ []) :
    t.translateBlock ram start =
      (t.cache.append start (blockBytes instrs)).map fun (entryOffset, cache) =>
        (blockOf start instrs entryOffset, t.withBlock start instrs entryOffset cache) := by
  obtain ⟨last, hlast⟩ : ∃ last, instrs.getLast? = some last :=
    ⟨_, List.getLast?_eq_some_getLast hne⟩
  unfold translateBlock
  rw [hwritable, if_neg Bool.false_ne_true, hnew]
  dsimp only
  rw [hinstrs, hlast]
  exact appendBlock_eq hlast

/-- There is nothing to translate where memory holds no word. -/
theorem translateBlock_of_nil (hwritable : t.cache.executable = false)
    (hnew : t.blocks[start]? = none) (hinstrs : fetchBlock ram t.maxBlockLength start = []) :
    t.translateBlock ram start = .error (.notMapped start) := by
  unfold translateBlock
  rw [hwritable, if_neg Bool.false_ne_true, hnew]
  dsimp only
  rw [hinstrs]
  rfl

end Translate

end Translator

end ArmEmulator
