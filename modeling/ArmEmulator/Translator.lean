import ArmEmulator.Block.Execution
import ArmEmulator.CodeCache
import ArmEmulator.Configuration

/-!
# Translator

Translates blocks of guest code in memory to host code and runs them.  A block
is a straight run of instructions that ends with the first one that can move the
program counter, at the length limit, or where memory ends.  A region is every
block reachable from some addresses, up to a limit.  Translated code can be run
once the cache is executable; translating more then needs a reset, which drops
every block.  The addresses of the functions that blocks call are those of the
program that the translator is part of.
-/

namespace ArmEmulator

open Block (Fetched Helpers HelperTable)

/-! ## Blocks -/

/-- A translated block: where it starts, where its code lies in the cache, the
number of its instructions, the address of a closing branch to itself, the blocks
that may follow as far as they are known, and its code. -/
structure TranslatedBlock where
  start : Word
  entryOffset : Nat
  size : Nat
  instructionCount : BitVec 32
  selfLoop? : Option Word
  successors : List Word
  code : Host.Code
deriving DecidableEq

/-- The words of a block of at most the given length that starts at an address. -/
def fetchBlock (ram : Ram) : Nat → Word → List Fetched
  | 0, _ => []
  | n + 1, addr =>
    match ram.word? addr with
    | none => []
    | some word =>
      ⟨addr, word⟩ ::
        if (Instruction.decode word).writesPc then [] else fetchBlock ram n (addr + 4)

/-- The address of an instruction, if it always branches to itself. -/
def selfLoopAt? (addr : Word) (i : Instruction) : Option Word :=
  match i with
  | ⟨.al, .branch ⟨false, .offset bytes⟩⟩ => if bytes = -8 then some addr else none
  | _ => none

/-- The addresses that the last instruction of a block may lead to, as far as it
tells: the target of a branch, and the next instruction where a branch returns or
its condition may fail. -/
def successorsAt (addr : Word) (i : Instruction) : List Word :=
  let next := addr + 4
  if i.writesPc then
    let taken := match i.op with
      | .branch b => (b.targetAddress? addr).toList ++ if b.link then [next] else []
      | _ => []
    if i.cond ≠ .al ∧ next ∉ taken then taken ++ [next] else taken
  else
    [next]

/-! ## Errors -/

/-- Why a block could not be run to its end. -/
inductive ExecError where
  | notFinalized
  | fault (addr : Word) (reason : String)
deriving DecidableEq

/-- The text of an execution error. -/
def ExecError.message : ExecError → String
  | notFinalized => "code cache is still writable"
  | fault addr reason => "fault at " ++ Hex.address addr ++ ": " ++ reason

/-! ## State -/

/-- What one run of a block did. -/
structure BlockRun where
  instructions : Nat
  selfLoop? : Option Word
  unhandled : Nat
deriving DecidableEq

/-- The translated blocks by their start, the position in the cache of the latest
code for each instruction address, and the cache. -/
structure Translator where
  cache : CodeCache
  blocks : Std.TreeMap Word TranslatedBlock
  offsets : Std.TreeMap Word Nat
  maxBlockLength : Nat
  regionBlockLimit : Nat
  /-- A number without a bound, where the program counts resets in 64 bits. -/
  generation : Nat

namespace Translator

variable [HelperTable]

/-- The addresses of the functions that blocks call. -/
def helpers : Helpers :=
  HelperTable.toHelpers

/-- A translator without blocks. -/
def ofConfiguration (c : Configuration) : Translator where
  cache := .ofSize c.codeCacheSize
  blocks := ∅
  offsets := ∅
  maxBlockLength := c.maxBlockLength
  regionBlockLimit := c.regionBlockLimit
  generation := 0

/-- Whether a block starts at an address. -/
def contains (t : Translator) (addr : Word) : Bool :=
  t.blocks.contains addr

/-- The starts of the blocks, ascending. -/
def blockStarts (t : Translator) : List Word :=
  t.blocks.keys

/-- The position in the cache of the latest code for the instruction at an
address. -/
def hostOffset? (t : Translator) (addr : Word) : Option Nat :=
  t.offsets[addr]?

/-- Whether the blocks can be run. -/
def isFinalized (t : Translator) : Bool :=
  t.cache.executable

/-- The bytes of the code of a block. -/
def hostCode? (t : Translator) (addr : Word) : Option (List Byte) := do
  let block ← t.blocks[addr]?
  t.cache.bytes? block.entryOffset block.size

/-- Makes the blocks executable. -/
def finalize (t : Translator) : Translator :=
  { t with cache := t.cache.makeExecutable }

/-- Drops every block and starts a new writable generation. -/
def reset (t : Translator) : Translator :=
  { t with
    cache := t.cache.reset
    blocks := ∅
    offsets := ∅
    generation := t.generation + 1 }

/-! ## Translating -/

/-- Appends the block of the given instructions, the last of which is
{lit}`last`. -/
def appendBlock (t : Translator) (start : Word) (instrs : List Fetched) (last : Fetched) :
    Except TranslateError (TranslatedBlock × Translator) := do
  let i := Instruction.decode last.word
  let code := Block.code helpers instrs (if i.writesPc then none else some (last.addr + 4))
  let bytes ← match code.encode? with
    | some bytes => .ok bytes
    | none => .error (.unboundLabel start)
  let (entryOffset, cache) ← t.cache.append start bytes
  let block : TranslatedBlock :=
    { start
      entryOffset
      size := bytes.length
      instructionCount := BitVec.ofNat 32 instrs.length
      selfLoop? := selfLoopAt? last.addr i
      successors := successorsAt last.addr i
      code }
  let offsets := (instrs.zip (Block.positions helpers instrs)).foldl
    (fun offsets (f, position) => offsets.insert f.addr (entryOffset + position)) t.offsets
  return (block, { t with cache, offsets, blocks := t.blocks.insert start block })

/-- The block that starts at an address, translated from memory if it is new. -/
def translateBlock (t : Translator) (ram : Ram) (start : Word) :
    Except TranslateError (TranslatedBlock × Translator) :=
  if t.cache.executable then
    .error (.finalized start)
  else
    match t.blocks[start]? with
    | some block => .ok (block, t)
    | none =>
      let instrs := fetchBlock ram t.maxBlockLength start
      match instrs.getLast? with
      | none => .error (.notMapped start)
      | some last => t.appendBlock start instrs last

/-- Translates the blocks at the addresses of a queue and those that may follow
them, {lit}`count` of which were translated before.  A full cache ends the region
unless it has no block yet.  Gives the number of blocks translated and the
translator even after an error. -/
def translateQueue (ram : Ram) : Nat → List Word → Nat → Translator →
    Except TranslateError Nat × Translator
  | _, [], count, t => (.ok count, t)
  | 0, _, count, t => (.ok count, t)
  | fuel + 1, addr :: queue, count, t =>
    if t.regionBlockLimit ≤ t.blocks.size then
      (.ok count, t)
    else if t.contains addr then
      translateQueue ram fuel queue count t
    else
      match t.translateBlock ram addr with
      | .ok (block, t) => translateQueue ram fuel (queue ++ block.successors) (count + 1) t
      | .error (.notMapped _) => translateQueue ram fuel queue count t
      | .error (.cacheExhausted addr needed used capacity) =>
        if 0 < count then (.ok count, t)
        else (.error (.cacheExhausted addr needed used capacity), t)
      | .error e => (.error e, t)

/-- Translates the region of some addresses.  Every block adds at most two
addresses to the queue and there are at most as many blocks as the limit allows,
which bounds the number of turns. -/
def translateRegion (t : Translator) (ram : Ram) (seeds : List Word) :
    Except TranslateError Nat × Translator :=
  translateQueue ram (seeds.length + 2 * t.regionBlockLimit) seeds 0 t

/-! ## Running -/

variable {ω : Type}

/-- Runs the block at an address; nothing happens where there is none.  The
processor state and the bus are given back also after an error. -/
def execute (t : Translator) (addr : Word) (cpu : Cpu) (bus : Bus ω) :
    Except ExecError (Option BlockRun) × Cpu × Bus ω :=
  match t.blocks[addr]? with
  | none => (.ok none, cpu, bus)
  | some block =>
    match t.cache.entry? block.entryOffset with
    | none => (.error .notFinalized, cpu, bus)
    | some _ =>
      match Block.run? helpers block.code cpu bus with
      | none => (.error (.fault addr "block left its frame"), cpu, bus)
      | some (status, cpu, env) =>
        match env.fault? with
        | some (addr, fault) => (.error (.fault addr fault.reason), cpu, env.bus)
        | none =>
          if status = 0 then
            (.ok (some ⟨block.instructionCount.toNat, block.selfLoop?, env.unhandled⟩), cpu, env.bus)
          else
            (.error (.fault addr ("block returned status " ++ toString status.toNat)), cpu, env.bus)

end Translator

end ArmEmulator
