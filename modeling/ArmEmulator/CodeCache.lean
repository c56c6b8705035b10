import ArmEmulator.Text.Hex
import ArmEmulator.Word

/-!
# Code cache

A log of code bytes that is either writable or executable, never both.  Blocks
are appended while it is writable; making it executable ends that until a reset
empties it.

Main results:

- Theorem {lit}`CodeCache.append_eq_ok_iff`: appending succeeds exactly when the
  cache is writable and has room, and gives the previous length.
-/

namespace ArmEmulator

/-! ## Errors -/

/-- Why a block could not be translated. -/
inductive TranslateError where
  | cacheExhausted (addr : Word) (needed used capacity : Nat)
  | finalized (addr : Word)
  | notMapped (addr : Word)
  | unboundLabel (addr : Word)
deriving DecidableEq

/-- The text of a failure to translate. -/
def TranslateError.message : TranslateError → String
  | cacheExhausted addr needed used capacity =>
    "code cache exhausted translating " ++ Hex.address addr ++ ": " ++ toString needed ++
      " bytes needed, " ++ toString used ++ " of " ++ toString capacity ++ " used"
  | finalized addr =>
    "code cache is finalized, reset it before translating " ++ Hex.address addr
  | notMapped addr => "nothing to translate at " ++ Hex.address addr
  | unboundLabel addr => "block at " ++ Hex.address addr ++ " left a jump unresolved"

/-! ## The cache -/

/-- Code bytes up to a capacity, and whether they can be executed. -/
structure CodeCache where
  capacity : Nat
  code : Array Byte
  executable : Bool

namespace CodeCache

/-- The granularity of capacities. -/
def pageSize : Nat := 4096

/-- An empty writable cache with room for at least {lit}`size` bytes: whole pages,
and at least one.  The size is one that the host can map. -/
def ofSize (size : Nat) : CodeCache where
  capacity := max 1 ((size + pageSize - 1) / pageSize) * pageSize
  code := #[]
  executable := false

/-- The number of bytes in use. -/
def size (cache : CodeCache) : Nat :=
  cache.code.size

/-- Appends the code of the block at {lit}`addr`; gives the offset it starts at. -/
def append (cache : CodeCache) (addr : Word) (bytes : List Byte) :
    Except TranslateError (Nat × CodeCache) :=
  if cache.executable then
    .error (.finalized addr)
  else if cache.capacity - cache.size < bytes.length then
    .error (.cacheExhausted addr bytes.length cache.size cache.capacity)
  else
    .ok (cache.size, { cache with code := cache.code ++ bytes })

/-- Makes the code executable. -/
def makeExecutable (cache : CodeCache) : CodeCache :=
  { cache with executable := true }

/-- Drops all code and makes the cache writable. -/
def reset (cache : CodeCache) : CodeCache :=
  { cache with code := #[], executable := false }

/-- The entry point at an offset: there is one while the code is executable. -/
def entry? (cache : CodeCache) (offset : Nat) : Option Nat :=
  if cache.executable ∧ offset < cache.size then some offset else none

/-- The bytes in use from an offset. -/
def bytes? (cache : CodeCache) (offset count : Nat) : Option (List Byte) :=
  if offset + count ≤ cache.size then some (cache.code.extract offset (offset + count)).toList
  else none

theorem append_eq_ok_iff {cache cache' : CodeCache} {addr : Word} {bytes : List Byte}
    {offset : Nat} :
    cache.append addr bytes = .ok (offset, cache') ↔
      cache.executable = false ∧ bytes.length ≤ cache.capacity - cache.size ∧
        offset = cache.size ∧ cache' = { cache with code := cache.code ++ bytes } := by
  unfold append
  by_cases he : cache.executable = true
  · simp [he]
  · by_cases hb : cache.capacity - cache.size < bytes.length
    · rw [if_neg he, if_pos hb]
      constructor
      · intro h
        cases h
      · rintro ⟨-, h, -⟩
        omega
    · rw [if_neg he, if_neg hb, Except.ok.injEq, Prod.mk.injEq]
      constructor
      · rintro ⟨rfl, rfl⟩
        exact ⟨by simpa using he, by omega, rfl, rfl⟩
      · rintro ⟨-, -, rfl, rfl⟩
        exact ⟨rfl, rfl⟩

end CodeCache

end ArmEmulator
