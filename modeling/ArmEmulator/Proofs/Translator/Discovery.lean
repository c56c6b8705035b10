import ArmEmulator.Proofs.Translator.Regions

/-!
# Discovering blocks

A new block is the longest straight run of words that starts at its address: it ends
with the first instruction that can move the program counter, at the length limit, or
where memory ends.  Where the code of each of its instructions begins is recorded.  A
block is only recorded once its code is in the cache, so a call that fails leaves the
translator as it was, even if the translator is changed step by step.

Main results:

- Theorem {lit}`Translator.translateBlock_cases`: all that translating a block can do.
- Theorem {lit}`Translator.translateInPlace_eq`: changing the translator step by step
  comes to the same, and a failure leaves it as it was.
- Theorem {lit}`Translator.translateBlock_discovers`: the blocks that are discovered,
  and when and how the translation of a block fails.
-/

namespace ArmEmulator

open Block (Fetched)
open Host (Code)

/-! ## The words of a block -/

theorem Ram.word?_eq_none_iff {ram : Ram} {addr : Word} :
    ram.word? addr = none ↔ ram.contains addr 4 = false := by
  rw [← Option.not_isSome_iff_eq_none, word?_isSome_iff, Bool.not_eq_true]

/-- A block ends because its last instruction can move the program counter, because it
is as long as it may be, or because memory holds no next word. -/
theorem fetchBlock_stops (ram : Ram) (n : Nat) (addr : Word) :
    (∃ last, (fetchBlock ram n addr).getLast? = some last ∧ last.writesPc = true) ∨
      (fetchBlock ram n addr).length = n ∨
      ram.contains (addr + 4 * BitVec.ofNat 32 (fetchBlock ram n addr).length) 4 = false := by
  induction n generalizing addr with
  | zero => exact .inr (.inl rfl)
  | succ n ih =>
      unfold fetchBlock
      cases hword : ram.word? addr with
      | none =>
          right; right
          rw [← Ram.word?_eq_none_iff.1 hword]
          exact congrArg (ram.contains · 4) (BitVec.add_zero addr)
      | some word =>
          dsimp only
          by_cases hw : (Instruction.decode word).writesPc = true
          · rw [if_pos hw]
            exact .inl ⟨⟨addr, word⟩, rfl, hw⟩
          · rw [if_neg hw]
            rcases ih (addr + 4) with ⟨last, hlast, hwrites⟩ | hlength | hout
            · left
              refine ⟨last, ?_, hwrites⟩
              rw [List.getLast?_cons, hlast, Option.getD_some]
            · right; left
              rw [List.length_cons, hlength]
            · right; right
              rw [← hout, List.length_cons, BitVec.ofNat_add]
              congr 1
              grind

/-- There is no block exactly where memory holds no word. -/
theorem fetchBlock_eq_nil_iff {ram : Ram} {n : Nat} {addr : Word} (hn : n ≠ 0) :
    fetchBlock ram n addr = [] ↔ ram.contains addr 4 = false := by
  cases hcontains : ram.contains addr 4 with
  | true => exact iff_of_false (fetchBlock_ne_nil hn hcontains) Bool.noConfusion
  | false =>
      refine iff_of_true ?_ rfl
      cases n with
      | zero => rfl
      | succ n => rw [fetchBlock, Ram.word?_eq_none_iff.2 hcontains]

/-- The words of a block that is no longer than the address space have addresses of their
own. -/
theorem Consecutive.nodup {instrs : List Fetched} {addr : Word} (h : Consecutive addr instrs)
    (hlength : instrs.length ≤ 0x40000000) : (instrs.map Fetched.addr).Nodup := by
  refine List.nodup_iff_pairwise_ne.2 (List.pairwise_iff_getElem.2 ?_)
  intro i j hi hj hlt
  rw [List.length_map] at hi hj
  rw [List.getElem_map, List.getElem_map, h.addr_eq (List.getElem?_eq_getElem hi),
    h.addr_eq (List.getElem?_eq_getElem hj)]
  intro heq
  have hmul := congrArg BitVec.toNat (BitVec.add_right_inj addr |>.1 heq)
  rw [BitVec.toNat_mul, BitVec.toNat_mul, BitVec.toNat_ofNat, BitVec.toNat_ofNat,
    show (4 : Word).toNat = 4 from rfl] at hmul
  omega

/-! ## The code of an instruction inside a block -/

namespace Block

variable (helpers : Helpers) {instrs : List Fetched} {i : Nat} {f : Fetched}

/-- The code of a block before that of its instruction number {lit}`i`. -/
def codeBefore (instrs : List Fetched) (i : Nat) : Code :=
  Code.ofInstrs prologue ++ ((pieces helpers instrs).take i).flatten

theorem getElem?_pieces (h : instrs[i]? = some f) :
    (pieces helpers instrs)[i]? = some (lower helpers (i + 1) f) := by
  rw [pieces, List.getElem?_mapIdx, h, Option.map_some]

/-- The code of a block around that of one of its instructions. -/
theorem exists_code_eq (h : instrs[i]? = some f) (next? : Option Word) :
    ∃ others, code helpers instrs next? =
      codeBefore helpers instrs i ++ (lower helpers (i + 1) f ++ (others ++ closing next?)) := by
  obtain ⟨hi, hpiece⟩ := List.getElem?_eq_some_iff.1 (getElem?_pieces helpers h)
  refine ⟨((pieces helpers instrs).drop (i + 1)).flatten, ?_⟩
  have hflatten : (pieces helpers instrs).flatten =
      ((pieces helpers instrs).take i).flatten ++
        (lower helpers (i + 1) f ++ ((pieces helpers instrs).drop (i + 1)).flatten) := by
    rw [← hpiece, ← List.flatten_cons, List.getElem_cons_drop, ← List.flatten_append,
      List.take_append_drop]
  rw [code, codeBefore, hflatten]
  simp only [List.append_assoc]

/-- The positions of pieces laid out from a place. -/
theorem getElem?_positionsFrom (pieces : List Code) (start : Nat) (h : i < pieces.length) :
    (pieces.foldr (fun piece after pos => pos :: after (pos + Code.size piece))
      (fun pos => [pos]) start)[i]? = some (start + Code.size (pieces.take i).flatten) := by
  induction pieces generalizing i start with
  | nil => cases h
  | cons piece pieces ih =>
      cases i with
      | zero => rfl
      | succ i =>
          rw [List.foldr_cons, List.getElem?_cons_succ, ih _ (Nat.lt_of_succ_lt_succ h),
            List.take_succ_cons, List.flatten_cons, Code.size_append, Nat.add_assoc]

theorem length_positionsFrom (pieces : List Code) (start : Nat) :
    (pieces.foldr (fun piece after pos => pos :: after (pos + Code.size piece))
      (fun pos => [pos]) start).length = pieces.length + 1 := by
  induction pieces generalizing start with
  | nil => rfl
  | cons piece pieces ih => rw [List.foldr_cons, List.length_cons, ih, List.length_cons]

/-- There is a position for each instruction and one for the end of the block. -/
theorem length_positions (instrs : List Fetched) :
    (positions helpers instrs).length = instrs.length + 1 := by
  rw [positions, length_positionsFrom, length_pieces]

/-- The code of an instruction lies behind that of those before it. -/
theorem getElem?_positions (h : instrs[i]? = some f) :
    (positions helpers instrs)[i]? = some (codeBefore helpers instrs i).size := by
  have hi : i < (pieces helpers instrs).length := by
    rw [length_pieces]
    exact (List.getElem?_eq_some_iff.1 h).1
  rw [positions, getElem?_positionsFrom _ _ hi, codeBefore, Code.size_append]

end Block

namespace Translator

/-! ## Recorded positions -/

/-- The positions after those of some instructions were recorded one after another, for
a block that starts at a place of the cache. -/
def recorded (entryOffset : Nat) (offsets : Std.TreeMap Word Nat) (entries : List (Fetched × Nat)) :
    Std.TreeMap Word Nat :=
  entries.foldl (fun offsets (f, position) => offsets.insert f.addr (entryOffset + position))
    offsets

section Recorded

variable {entryOffset : Nat} {offsets : Std.TreeMap Word Nat} {entries : List (Fetched × Nat)}
  {f : Fetched} {position : Nat} {addr : Word}

theorem getElem?_recorded_cons :
    (recorded entryOffset offsets ((f, position) :: entries))[addr]? =
      (recorded entryOffset (offsets.insert f.addr (entryOffset + position)) entries)[addr]? := rfl

/-- Where no instruction is recorded the position is as before. -/
theorem getElem?_recorded_of_notMem (h : ∀ entry ∈ entries, entry.1.addr ≠ addr) :
    (recorded entryOffset offsets entries)[addr]? = offsets[addr]? := by
  induction entries generalizing offsets with
  | nil => rfl
  | cons entry entries ih =>
      rw [getElem?_recorded_cons, ih fun entry hmem => h entry (List.mem_cons_of_mem _ hmem),
        getElem?_insert_word, if_neg (h entry List.mem_cons_self)]

/-- Instructions at different addresses are found where they were recorded. -/
theorem getElem?_recorded_of_mem (hdistinct : (entries.map fun entry => entry.1.addr).Nodup)
    (h : (f, position) ∈ entries) :
    (recorded entryOffset offsets entries)[f.addr]? = some (entryOffset + position) := by
  induction entries generalizing offsets with
  | nil => cases h
  | cons entry entries ih =>
      rw [List.map_cons, List.nodup_cons] at hdistinct
      rw [getElem?_recorded_cons]
      rcases List.mem_cons.1 h with rfl | hmem
      · rw [getElem?_recorded_of_notMem, getElem?_insert_word, if_pos rfl]
        intro entry hentry heq
        exact hdistinct.1 (List.mem_map.2 ⟨entry, hentry, heq⟩)
      · exact ih hdistinct.2 hmem

/-- A position is that of a recorded instruction, or it was there before. -/
theorem mem_or_of_getElem?_recorded {place : Nat}
    (h : (recorded entryOffset offsets entries)[addr]? = some place) :
    (∃ f position, (f, position) ∈ entries ∧ f.addr = addr ∧ place = entryOffset + position) ∨
      offsets[addr]? = some place := by
  induction entries generalizing offsets with
  | nil => exact .inr h
  | cons entry entries ih =>
      obtain ⟨g, position⟩ := entry
      rw [getElem?_recorded_cons] at h
      rcases ih h with ⟨f, other, hmem, hf, hplace⟩ | hbefore
      · exact .inl ⟨f, other, List.mem_cons_of_mem _ hmem, hf, hplace⟩
      · rw [getElem?_insert_word] at hbefore
        split at hbefore
        · rename_i hg
          cases hbefore
          exact .inl ⟨g, position, List.mem_cons_self, hg, rfl⟩
        · exact .inr hbefore

end Recorded

/-! ## Outcomes -/

variable [Block.HelperTable]

/-- All that translating a block can give: a refusal because the code is executable, a
block there is, an error where memory has no word, a new block that was appended, or an
error because there is no room for it. -/
inductive Attempt (t : Translator) (ram : Ram) (start : Word) :
    Except TranslateError (TranslatedBlock × Translator) → Prop where
  | finalized (hexecutable : t.cache.executable = true) :
      Attempt t ram start (.error (.finalized start))
  | held {block : TranslatedBlock} (hwritable : t.cache.executable = false)
      (hblock : t.blocks[start]? = some block) : Attempt t ram start (.ok (block, t))
  | unmapped (hwritable : t.cache.executable = false) (hnew : t.blocks[start]? = none)
      (hnil : fetchBlock ram t.maxBlockLength start = []) :
      Attempt t ram start (.error (.notMapped start))
  | appended (hwritable : t.cache.executable = false) (hnew : t.blocks[start]? = none)
      (hne : fetchBlock ram t.maxBlockLength start ≠ [])
      (hfits : (blockBytes (fetchBlock ram t.maxBlockLength start)).length ≤
        t.cache.capacity - t.cache.size) :
      Attempt t ram start
        (.ok (blockOf start (fetchBlock ram t.maxBlockLength start) t.cache.size,
          t.appended ram start))
  | exhausted (hwritable : t.cache.executable = false) (hnew : t.blocks[start]? = none)
      (hne : fetchBlock ram t.maxBlockLength start ≠ [])
      (hover : t.cache.capacity - t.cache.size <
        (blockBytes (fetchBlock ram t.maxBlockLength start)).length) :
      Attempt t ram start
        (.error (.cacheExhausted start
          (blockBytes (fetchBlock ram t.maxBlockLength start)).length t.cache.size
          t.cache.capacity))

/-- What translating a block does. -/
theorem translateBlock_cases (t : Translator) (ram : Ram) (start : Word) :
    t.Attempt ram start (t.translateBlock ram start) := by
  cases hwritable : t.cache.executable with
  | true =>
      rw [translateBlock, hwritable, if_pos rfl]
      exact .finalized hwritable
  | false =>
      cases hnew : t.blocks[start]? with
      | some block =>
          rw [translateBlock, hwritable, if_neg Bool.false_ne_true, hnew]
          exact .held hwritable hnew
      | none =>
          by_cases hne : fetchBlock ram t.maxBlockLength start = []
          · rw [translateBlock_of_nil hwritable hnew hne]
            exact .unmapped hwritable hnew hne
          by_cases hfits : (blockBytes (fetchBlock ram t.maxBlockLength start)).length ≤
              t.cache.capacity - t.cache.size
          · rw [translateBlock_of_fits hwritable hnew hne hfits]
            exact .appended hwritable hnew hne hfits
          · rw [translateBlock_of_overflow hwritable hnew hne (Nat.lt_of_not_le hfits)]
            exact .exhausted hwritable hnew hne (Nat.lt_of_not_le hfits)

/-! ## Changing the translator in place -/

/-- A call on a translator that is changed step by step.  What was changed before a
failure stays changed. -/
abbrev InPlace (α : Type) := EStateM TranslateError Translator α

/-- Copies the code of the block at {lit}`addr` behind the bytes in use; gives the
offset it starts at. -/
def appendInPlace (addr : Word) (bytes : List Byte) : InPlace Nat := do
  let cache := (← get).cache
  if cache.executable then
    throw (.finalized addr)
  else if cache.capacity - cache.size < bytes.length then
    throw (.cacheExhausted addr bytes.length cache.size cache.capacity)
  else
    modify fun t => { t with cache := t.cache.extended bytes }
    return cache.size

/-- Records the positions of instructions, one after another. -/
def recordInPlace (entryOffset : Nat) : List (Fetched × Nat) → InPlace Unit
  | [] => pure ()
  | (f, position) :: entries => do
    modify fun t => { t with offsets := t.offsets.insert f.addr (entryOffset + position) }
    recordInPlace entryOffset entries

/-- Translates the block that starts at an address: the words are fetched and their code
is made, the code is appended to the cache, then the positions of the instructions are
recorded, and last the block. -/
def translateInPlace (ram : Ram) (start : Word) : InPlace TranslatedBlock := do
  if (← get).cache.executable then
    throw (.finalized start)
  else
    match (← get).blocks[start]? with
    | some block => return block
    | none =>
      let instrs := fetchBlock ram (← get).maxBlockLength start
      if instrs = [] then
        throw (.notMapped start)
      else
        match (blockCode instrs).encode? with
        | none => throw (.unboundLabel start)
        | some bytes =>
          let entryOffset ← appendInPlace start bytes
          recordInPlace entryOffset (instrs.zip (Block.positions helpers instrs))
          let block := blockOf start instrs entryOffset
          modify fun t => { t with blocks := t.blocks.insert start block }
          return block

section InPlace

variable {t t' : Translator}

section Parts

omit [Block.HelperTable]
variable {α β : Type} {x : InPlace α} {f : α → InPlace β}

/-- The second part runs on what the first one left. -/
theorem inPlace_bind_of_ok {a : α} (h : x t = .ok a t') : (x >>= f) t = f a t' := by
  show EStateM.bind x f t = f a t'
  rw [EStateM.bind, h]

/-- A failure of the first part is the failure of the call. -/
theorem inPlace_bind_of_error {err : TranslateError} (h : x t = .error err t') :
    (x >>= f) t = .error err t' := by
  show EStateM.bind x f t = .error err t'
  rw [EStateM.bind, h]

/-- The bytes are appended to the cache, or nothing is changed. -/
theorem appendInPlace_eq (addr : Word) (bytes : List Byte) (t : Translator) :
    appendInPlace addr bytes t =
      match t.cache.append addr bytes with
      | .ok (entryOffset, cache) => .ok entryOffset { t with cache }
      | .error err => .error err t := by
  rw [appendInPlace, inPlace_bind_of_ok (rfl : (get : InPlace Translator) t = .ok t t),
    CodeCache.append]
  by_cases hexecutable : t.cache.executable = true
  · rw [if_pos hexecutable, if_pos hexecutable]
    rfl
  · rw [if_neg hexecutable, if_neg hexecutable]
    by_cases hover : t.cache.capacity - t.cache.size < bytes.length
    · rw [if_pos hover, if_pos hover]
      rfl
    · rw [if_neg hover, if_neg hover]
      rfl

/-- Recording succeeds and changes the positions only. -/
theorem recordInPlace_eq (entryOffset : Nat) (entries : List (Fetched × Nat)) (t : Translator) :
    recordInPlace entryOffset entries t =
      .ok () { t with offsets := recorded entryOffset t.offsets entries } := by
  induction entries generalizing t with
  | nil => rfl
  | cons entry entries ih =>
      exact ih { t with offsets := t.offsets.insert entry.1.addr (entryOffset + entry.2) }

end Parts

/-- A new block is there as soon as its code is in the cache. -/
theorem translateInPlace_of_new {ram : Ram} {start : Word} (hwritable : t.cache.executable = false)
    (hnew : t.blocks[start]? = none) (hne : fetchBlock ram t.maxBlockLength start ≠ []) :
    translateInPlace ram start t =
      match t.cache.append start (blockBytes (fetchBlock ram t.maxBlockLength start)) with
      | .ok (entryOffset, cache) =>
        .ok (blockOf start (fetchBlock ram t.maxBlockLength start) entryOffset)
          (t.withBlock start (fetchBlock ram t.maxBlockLength start) entryOffset cache)
      | .error err => .error err t := by
  have hget : (get : InPlace Translator) t = .ok t t := rfl
  rw [translateInPlace, inPlace_bind_of_ok hget, hwritable, if_neg Bool.false_ne_true,
    inPlace_bind_of_ok hget, hnew]
  dsimp only
  rw [inPlace_bind_of_ok hget, if_neg hne, encode?_blockCode]
  dsimp only
  have happend := appendInPlace_eq start (blockBytes (fetchBlock ram t.maxBlockLength start)) t
  cases hresult : t.cache.append start (blockBytes (fetchBlock ram t.maxBlockLength start)) with
  | error err =>
      rw [hresult] at happend
      exact inPlace_bind_of_error happend
  | ok placed =>
      rw [hresult] at happend
      rw [inPlace_bind_of_ok happend, inPlace_bind_of_ok (recordInPlace_eq _ _ _)]
      rfl

/-- Changing the translator step by step comes to the same as translating the block, and
a failure leaves it as it was: nothing is changed before the code is in the cache. -/
theorem translateInPlace_eq (ram : Ram) (start : Word) (t : Translator) :
    translateInPlace ram start t =
      match t.translateBlock ram start with
      | .ok (block, t') => .ok block t'
      | .error err => .error err t := by
  have hget : (get : InPlace Translator) t = .ok t t := rfl
  have hcase := translateBlock_cases t ram start
  generalize t.translateBlock ram start = result at hcase ⊢
  cases hcase with
  | finalized hexecutable =>
      rw [translateInPlace, inPlace_bind_of_ok hget, if_pos hexecutable]
      rfl
  | held hwritable hblock =>
      rw [translateInPlace, inPlace_bind_of_ok hget, hwritable, if_neg Bool.false_ne_true,
        inPlace_bind_of_ok hget, hblock]
      rfl
  | unmapped hwritable hnew hnil =>
      rw [translateInPlace, inPlace_bind_of_ok hget, hwritable, if_neg Bool.false_ne_true,
        inPlace_bind_of_ok hget, hnew]
      dsimp only
      rw [inPlace_bind_of_ok hget, if_pos hnil]
      rfl
  | appended hwritable hnew hne hfits =>
      rw [translateInPlace_of_new hwritable hnew hne, CodeCache.append_of_fits hwritable hfits]
      rfl
  | exhausted hwritable hnew hne hover =>
      rw [translateInPlace_of_new hwritable hnew hne, CodeCache.append_of_overflow hwritable hover]

end InPlace

/-! ## Discovered blocks -/

/-- The code {lit}`piece` of an instruction inside a block begins at a place of the cache:
behind the code {lit}`before` it, and the bytes there are its own, with jumps to where the
block places their labels. -/
structure BeginsAt (t : Translator) (block : TranslatedBlock) (before piece : Code) (place : Nat) :
    Prop where
  place_eq : place = block.entryOffset + before.size
  code_eq : ∃ rest, block.code = before ++ (piece ++ rest)
  bytes_eq : t.cache.bytes? place piece.size = piece.encodeFrom block.code.place? before.size

/-- The block {lit}`block` of the words {lit}`instrs`, discovered at an address. -/
structure Discovered (t t' : Translator) (ram : Ram) (start : Word) (instrs : List Fetched)
    (block : TranslatedBlock) : Prop where
  held : t'.blocks[start]? = some block
  count_eq : block.instructionCount.toNat = instrs.length
  code_eq : block.code = Block.code helpers instrs (fallThrough? instrs)
  length_pos : 1 ≤ instrs.length
  length_le : instrs.length ≤ t.maxBlockLength
  fetched : ∀ i f, instrs[i]? = some f →
    f.addr = start + 4 * BitVec.ofNat 32 i ∧ ram.word? f.addr = some f.word
  straight : ∀ i f, instrs[i]? = some f → i + 1 < instrs.length → f.writesPc = false
  stopped : (∃ last, instrs.getLast? = some last ∧ last.writesPc = true) ∨
    instrs.length = t.maxBlockLength ∨
    ram.contains (start + 4 * BitVec.ofNat 32 instrs.length) 4 = false
  placed : ∀ i f, instrs[i]? = some f → ∃ place, t'.hostOffset? f.addr = some place ∧
    t'.BeginsAt block (Block.codeBefore helpers instrs i) (Block.lower helpers (i + 1) f) place

section Discovery

variable {t : Translator} {ram : Ram} {start : Word}

omit [Block.HelperTable] in
/-- The bytes of a block in the cache are those of the code of its instructions. -/
theorem beginsAt_of_bytes? {block : TranslatedBlock} {bytes : List Byte} {before piece rest : Code}
    (hbytes : block.code.encode? = some bytes)
    (hplaced : t.cache.bytes? block.entryOffset block.size = some bytes)
    (hcode : block.code = before ++ (piece ++ rest)) :
    t.BeginsAt block before piece (block.entryOffset + before.size) := by
  refine ⟨rfl, ⟨rest, hcode⟩, ?_⟩
  have hencode : Code.encodeFrom block.code.place? 0 (before ++ (piece ++ rest)) = some bytes :=
    hcode ▸ hbytes
  obtain ⟨front, others, rfl, hfront, -, hothers⟩ := Code.exists_of_encodeFrom_append hencode
  obtain ⟨middle, back, rfl, hmiddle, hpiece, -⟩ := Code.exists_of_encodeFrom_append hothers
  rw [Nat.zero_add] at hpiece
  rw [hpiece, ← hfront, ← hmiddle]
  exact CodeCache.bytes?_of_append hplaced

/-- Where the code of an instruction of a new block begins is recorded. -/
theorem hostOffset?_appended {i : Nat} {f : Fetched}
    (hlength : (fetchBlock ram t.maxBlockLength start).length ≤ 0x40000000)
    (hf : (fetchBlock ram t.maxBlockLength start)[i]? = some f) :
    (t.appended ram start).hostOffset? f.addr = some (t.cache.size +
      (Block.codeBefore helpers (fetchBlock ram t.maxBlockLength start) i).size) := by
  have hentries : ((fetchBlock ram t.maxBlockLength start).zip
      (Block.positions helpers (fetchBlock ram t.maxBlockLength start))).map Prod.fst =
        fetchBlock ram t.maxBlockLength start :=
    List.map_fst_zip (by rw [Block.length_positions]; omega)
  refine getElem?_recorded_of_mem ?_ ?_
  · have hdistinct := (consecutive_fetchBlock ram t.maxBlockLength start).nodup hlength
    rw [← hentries, List.map_map] at hdistinct
    exact hdistinct
  · exact List.mem_of_getElem? (List.getElem?_zip_eq_some.2 ⟨hf, Block.getElem?_positions _ hf⟩)

/-- A new block that fits is discovered. -/
theorem discovered_appended (hmost : t.maxBlockLength ≤ 0x40000000)
    (hne : fetchBlock ram t.maxBlockLength start ≠ []) :
    t.Discovered (t.appended ram start) ram start (fetchBlock ram t.maxBlockLength start)
      (blockOf start (fetchBlock ram t.maxBlockLength start) t.cache.size) := by
  have hconsecutive := consecutive_fetchBlock ram t.maxBlockLength start
  have hle := length_fetchBlock_le ram t.maxBlockLength start
  refine ⟨?_, ?_, rfl, List.length_pos_iff.2 hne, hle, ?_, ?_, ?_, ?_⟩
  · rw [getElem?_blocks_appended, if_pos rfl]
  · show (BitVec.ofNat 32 (fetchBlock ram t.maxBlockLength start).length).toNat = _
    rw [BitVec.toNat_ofNat]
    omega
  · intro i f hf
    exact ⟨hconsecutive.addr_eq hf, word?_of_mem_fetchBlock (List.mem_of_getElem? hf)⟩
  · intro i f hf hi
    exact writesPc_of_closes (closes_fetchBlock hne) hi hf
  · exact fetchBlock_stops ram t.maxBlockLength start
  · intro i f hf
    obtain ⟨others, hcode⟩ := Block.exists_code_eq helpers hf
      (fallThrough? (fetchBlock ram t.maxBlockLength start))
    exact ⟨_, hostOffset?_appended (Nat.le_trans hle hmost) hf,
      beginsAt_of_bytes? (encode?_blockCode _) (CodeCache.bytes?_extended_size _ _) hcode⟩

/-- Translating a block is refused as finalized exactly while the code is executable. -/
theorem translateBlock_eq_finalized_iff {addr : Word} :
    t.translateBlock ram start = .error (.finalized addr) ↔
      t.isFinalized = true ∧ addr = start := by
  have hfinalized : t.isFinalized = t.cache.executable := rfl
  have hcase := translateBlock_cases t ram start
  generalize t.translateBlock ram start = result at hcase ⊢
  cases hcase with
  | finalized hexecutable => simp [hfinalized, hexecutable, eq_comm]
  | held hwritable hblock => simp [hfinalized, hwritable]
  | unmapped hwritable hnew hnil => simp [hfinalized, hwritable]
  | appended hwritable hnew hne hfits => simp [hfinalized, hwritable]
  | exhausted hwritable hnew hne hover => simp [hfinalized, hwritable]

/-- There is nothing to translate exactly where there is neither a block nor a word. -/
theorem translateBlock_eq_notMapped_iff (hleast : 1 ≤ t.maxBlockLength) {addr : Word} :
    t.translateBlock ram start = .error (.notMapped addr) ↔
      t.isFinalized = false ∧ t.contains start = false ∧ ram.contains start 4 = false ∧
        addr = start := by
  have hfinalized : t.isFinalized = t.cache.executable := rfl
  rw [← fetchBlock_eq_nil_iff (Nat.ne_of_gt hleast), contains_eq_isSome]
  have hcase := translateBlock_cases t ram start
  generalize t.translateBlock ram start = result at hcase ⊢
  cases hcase with
  | finalized hexecutable => simp [hfinalized, hexecutable]
  | held hwritable hblock => simp [hblock]
  | unmapped hwritable hnew hnil => simp [hfinalized, hwritable, hnew, hnil, eq_comm]
  | appended hwritable hnew hne hfits => simp [hne]
  | exhausted hwritable hnew hne hover => simp [hne]

theorem translateInPlace_eq_ok_iff {block : TranslatedBlock} {left : Translator} :
    translateInPlace ram start t = .ok block left ↔
      t.translateBlock ram start = .ok (block, left) := by
  rw [translateInPlace_eq]
  cases t.translateBlock ram start <;> simp [Prod.ext_iff]

/-- A call that fails leaves the translator as it was. -/
theorem translateInPlace_eq_error_iff {err : TranslateError} {left : Translator} :
    translateInPlace ram start t = .error err left ↔
      t.translateBlock ram start = .error err ∧ left = t := by
  rw [translateInPlace_eq]
  cases t.translateBlock ram start <;> simp [eq_comm]

/-- A new block is the longest straight run of words at its start that the limits allow,
and where the code of each of its instructions begins is recorded.  Translating fails as
finalized exactly when the code is executable, and else as unmapped exactly when there is
neither a block nor a word at the start.  A failure leaves the translator as it was, also
when it is changed step by step. -/
theorem translateBlock_discovers (hleast : 1 ≤ t.maxBlockLength)
    (hmost : t.maxBlockLength ≤ 0x40000000) (ram : Ram) (start : Word) :
    (∀ block t', t.blocks[start]? = none → t.translateBlock ram start = .ok (block, t') →
      ∃ instrs, t.Discovered t' ram start instrs block) ∧
    (∀ addr, t.translateBlock ram start = .error (.finalized addr) ↔
      t.isFinalized = true ∧ addr = start) ∧
    (∀ addr, t.translateBlock ram start = .error (.notMapped addr) ↔
      t.isFinalized = false ∧ t.contains start = false ∧ ram.contains start 4 = false ∧
        addr = start) ∧
    (∀ block left, translateInPlace ram start t = .ok block left ↔
      t.translateBlock ram start = .ok (block, left)) ∧
    (∀ err left, translateInPlace ram start t = .error err left ↔
      t.translateBlock ram start = .error err ∧ left = t) := by
  refine ⟨?_, fun _ => translateBlock_eq_finalized_iff,
    fun _ => translateBlock_eq_notMapped_iff hleast, fun _ _ => translateInPlace_eq_ok_iff,
    fun _ _ => translateInPlace_eq_error_iff⟩
  intro block t' hnew hok
  have hcase := translateBlock_cases t ram start
  rw [hok] at hcase
  cases hcase with
  | held _ hblock =>
      rw [hnew] at hblock
      cases hblock
  | appended _ _ hne => exact ⟨_, discovered_appended hmost hne⟩

end Discovery

end Translator

/-! ## A block of two words -/

namespace Translator

attribute [local instance] Block.threeTable

/-- Memory of two words, the second of which branches to itself. -/
def twoWords : Ram :=
  (Ram.zeroed 0 8).putBytes 4 (Word.bytes 0xeafffffe)

/-- A writable translator with the default limits. -/
def fresh : Translator :=
  ofConfiguration .default

/-- The block of the two words fits into its empty cache. -/
theorem fits_twoWords :
    (blockBytes (fetchBlock twoWords fresh.maxBlockLength 0)).length ≤
      fresh.cache.capacity - fresh.cache.size := by
  rw [Code.length_of_encode? (encode?_blockCode _)]
  decide

/-- The block of the two words is translated. -/
theorem translateBlock_twoWords :
    fresh.translateBlock twoWords 0 =
      .ok (blockOf 0 (fetchBlock twoWords fresh.maxBlockLength 0) fresh.cache.size,
        fresh.appended twoWords 0) :=
  translateBlock_of_fits rfl Std.TreeMap.getElem?_emptyc (by decide) fits_twoWords

theorem translateBlock_discovers_twoWords :
    ∃ block t', fresh.translateBlock twoWords 0 = .ok (block, t') ∧
      block.instructionCount = 2 ∧ ∃ place, t'.hostOffset? 4 = some place ∧ 0 < place := by
  have hnew : fresh.blocks[(0 : Word)]? = none := Std.TreeMap.getElem?_emptyc
  obtain ⟨instrs, hdiscovered⟩ :=
    (translateBlock_discovers (t := fresh) (by decide) (by decide) twoWords 0).1 _ _ hnew
      translateBlock_twoWords
  have hlength : instrs.length = 2 := hdiscovered.count_eq.symm.trans (by decide)
  obtain ⟨f, hf⟩ : ∃ f, instrs[1]? = some f := ⟨_, List.getElem?_eq_getElem (by omega)⟩
  obtain ⟨place, hplace, hbegins⟩ := hdiscovered.placed 1 f hf
  have haddr : f.addr = 4 := (hdiscovered.fetched 1 f hf).1
  refine ⟨_, _, translateBlock_twoWords, by decide, place, haddr ▸ hplace, ?_⟩
  have hprologue : 0 < Code.size (Code.ofInstrs Block.prologue) := by decide
  rw [hbegins.place_eq, Block.codeBefore, Code.size_append]
  omega

end Translator

end ArmEmulator
