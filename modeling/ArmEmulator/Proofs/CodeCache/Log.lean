import ArmEmulator.Proofs.CodeCache.Contents
import ArmEmulator.Proofs.Configuration
import ArmEmulator.Proofs.Host.Fixups

/-!
# The code cache as a log

A code cache is told to append code, to become executable and to be reset, in any order.
Whatever it is told, it holds the pieces of code that were appended since the last reset,
one behind the other, and all that can be asked of it follows from these pieces and from
the switch between writing and executing.

The same is true of a cache whose code lies in memory that the host maps.  There a reset
leaves the old bytes in place, sizes are numbers of 64 bits, and the host ends the process
at a write to memory that is executable or at an access outside of the mapping.  The checks
of the cache are enough that it never comes to this.

Main results:

- Theorem {lit}`CodeCache.Logged.run`: after any calls a cache holds its log.
- Theorem {lit}`CodeMapping.Holds.run?`: a mapped cache gives the same answers, and the host
  never ends the process.
- Theorem {lit}`CodeCache.run_logged`: all that can be asked of a cache, by its log.
-/

namespace ArmEmulator

namespace CodeCache

/-! ## Calls and their log -/

/-- A call that changes a cache. -/
inductive Call where
  | append (addr : Word) (bytes : List Byte)
  | makeExecutable
  | reset
deriving DecidableEq

/-- The answer to a call. -/
inductive Answer where
  /-- The code was appended and starts at this offset. -/
  | appended (offset : Nat)
  | refused (error : TranslateError)
  /-- There is nothing to tell. -/
  | done
deriving DecidableEq

/-- The answer to a call, and the cache after it.  A cache that refuses code is left as it
was. -/
def perform (cache : CodeCache) : Call → Answer × CodeCache
  | .append addr bytes =>
    match cache.append addr bytes with
    | .ok (offset, cache') => (.appended offset, cache')
    | .error e => (.refused e, cache)
  | .makeExecutable => (.done, cache.makeExecutable)
  | .reset => (.done, cache.reset)

/-- Calls one after another, each with its answer, and the cache after them. -/
def run (cache : CodeCache) : List Call → List (Call × Answer) × CodeCache
  | [] => ([], cache)
  | call :: calls =>
    let rest := run (cache.perform call).2 calls
    ((call, (cache.perform call).1) :: rest.1, rest.2)

/-- The pieces of code appended since the last reset, and whether they were made executable
since. -/
structure Log where
  pieces : List (List Byte)
  executable : Bool

namespace Log

/-- The log of a cache that was just reset. -/
def empty : Log where
  pieces := []
  executable := false

/-- The pieces one behind the other. -/
def code (log : Log) : List Byte :=
  log.pieces.flatten

/-- The log after one more answered call. -/
def note (log : Log) : Call × Answer → Log
  | (.append _ bytes, .appended _) => { log with pieces := log.pieces ++ [bytes] }
  | (.append _ _, _) => log
  | (.makeExecutable, _) => { log with executable := true }
  | (.reset, _) => empty

/-- The log of answered calls. -/
def ofHistory (history : List (Call × Answer)) : Log :=
  history.foldl note empty

end Log

section Calls

variable {cache cache' : CodeCache} {addr : Word} {bytes : List Byte}

theorem perform_append_of_ok {offset : Nat} (h : cache.append addr bytes = .ok (offset, cache')) :
    cache.perform (.append addr bytes) = (.appended offset, cache') := by
  rw [perform, h]

theorem perform_append_of_error {e : TranslateError} (h : cache.append addr bytes = .error e) :
    cache.perform (.append addr bytes) = (.refused e, cache) := by
  rw [perform, h]

/-! ## The code of a log -/

/-- A cache holds the code of a log inside its capacity, and is switched as the log says. -/
structure Logged (cache : CodeCache) (capacity : Nat) (log : Log) : Prop where
  capacity_eq : cache.capacity = capacity
  inside : cache.size ≤ capacity
  code : cache.code.toList = log.code
  executable : cache.executable = log.executable

theorem logged_ofSize (size : Nat) : (ofSize size).Logged (ofSize size).capacity .empty where
  capacity_eq := rfl
  inside := Nat.zero_le _
  code := rfl
  executable := rfl

section Logged

variable {capacity : Nat} {log : Log}

theorem Logged.size_eq (h : cache.Logged capacity log) : cache.size = log.code.length := by
  rw [← length_code, h.code]

/-- Code that fits is the last piece of the log. -/
theorem Logged.extended (h : cache.Logged capacity log)
    (hroom : bytes.length ≤ cache.capacity - cache.size) :
    (cache.extended bytes).Logged capacity { log with pieces := log.pieces ++ [bytes] } where
  capacity_eq := h.capacity_eq
  inside := by
    have hinside := h.inside
    have hcapacity := h.capacity_eq
    rw [size_extended]
    omega
  code := by
    rw [toList_code_extended, h.code, Log.code, Log.code, List.flatten_concat]
  executable := h.executable

/-- The cache after a call holds the log with this call noted. -/
theorem Logged.perform (h : cache.Logged capacity log) (call : Call) :
    (cache.perform call).2.Logged capacity (log.note (call, (cache.perform call).1)) := by
  cases call with
  | append addr bytes =>
      rcases append_cases cache addr bytes with ⟨-, he⟩ | ⟨-, -, he⟩ | ⟨-, hroom, hok⟩
      · rw [perform_append_of_error he]
        exact h
      · rw [perform_append_of_error he]
        exact h
      · rw [perform_append_of_ok hok]
        exact h.extended hroom
  | makeExecutable => exact ⟨h.capacity_eq, h.inside, h.code, rfl⟩
  | reset => exact ⟨h.capacity_eq, Nat.zero_le _, rfl, rfl⟩

/-- After any calls the cache holds the log with all of them noted. -/
theorem Logged.run (h : cache.Logged capacity log) (calls : List Call) :
    (cache.run calls).2.Logged capacity ((cache.run calls).1.foldl Log.note log) := by
  induction calls generalizing cache log with
  | nil => exact h
  | cons call calls ih => exact ih (h.perform call)

end Logged

/-- Code is taken exactly by a writable cache with room for it. -/
theorem exists_append_eq_ok_iff (hinside : cache.size ≤ cache.capacity) :
    (∃ offset cache', cache.append addr bytes = .ok (offset, cache')) ↔
      cache.executable = false ∧ cache.size + bytes.length ≤ cache.capacity := by
  constructor
  · rintro ⟨offset, cache', h⟩
    obtain ⟨hwritable, hroom, -⟩ := append_eq_ok_iff.1 h
    exact ⟨hwritable, by omega⟩
  · rintro ⟨hwritable, hroom⟩
    exact ⟨_, _, append_of_fits hwritable (by omega) addr⟩

theorem entry?_isSome_iff {offset : Nat} :
    (cache.entry? offset).isSome = true ↔ cache.executable = true ∧ offset < cache.size := by
  unfold entry?
  split
  · rename_i h
    simp [h]
  · rename_i h
    simpa using h

end Calls

end CodeCache

/-! ## Code in mapped memory -/

/-- What the host allows with mapped memory besides reading it. -/
inductive Protection where
  | writable
  | executable
deriving DecidableEq

/-- A code cache in memory that the host maps, with its sizes as numbers of 64 bits. -/
structure CodeMapping where
  memory : List Byte
  protection : Protection
  capacity : BitVec 64
  used : BitVec 64
  executable : Bool

namespace CodeMapping

open CodeCache (Call Answer)

/-- Memory as the host maps it first: zeros that may be written over. -/
def ofCapacity (capacity : BitVec 64) : CodeMapping where
  memory := List.replicate capacity.toNat 0
  protection := .writable
  capacity := capacity
  used := 0
  executable := false

/-- Writes over memory; none if the host ends the process. -/
def write? (m : CodeMapping) (pos : Nat) (bytes : List Byte) : Option CodeMapping :=
  if m.protection = .writable ∧ pos + bytes.length ≤ m.memory.length then
    some { m with memory := Host.overwrite pos m.memory bytes }
  else
    none

/-- Reads memory; none if the host ends the process. -/
def read? (m : CodeMapping) (pos count : Nat) : Option (List Byte) :=
  if pos + count ≤ m.memory.length then some ((m.memory.drop pos).take count) else none

/-- Appends code: the checks, then the copy, then the new size; none if a size overflows or
the host ends the process. -/
def append? (m : CodeMapping) (addr : Word) (bytes : List Byte) :
    Option (Answer × CodeMapping) :=
  if m.executable then
    some (.refused (.finalized addr), m)
  else do
    let room ← difference? m.capacity m.used
    if room.toNat < bytes.length then
      some (.refused (.cacheExhausted addr bytes.length m.used.toNat m.capacity.toNat), m)
    else do
      let written ← m.write? m.used.toNat bytes
      let used ← sum? m.used (.ofNat 64 bytes.length)
      some (.appended m.used.toNat, { written with used := used })

/-- Has the host protect the memory as executable, unless it is. -/
def makeExecutable (m : CodeMapping) : CodeMapping :=
  if m.executable then m else { m with protection := .executable, executable := true }

/-- Has the host make the memory writable, unless it is, and forgets the code; the bytes stay
where they are. -/
def reset (m : CodeMapping) : CodeMapping :=
  let writable :=
    if m.executable then { m with protection := .writable, executable := false } else m
  { writable with used := 0 }

/-- The answer to a call, and the mapping after it. -/
def perform? (m : CodeMapping) : Call → Option (Answer × CodeMapping)
  | .append addr bytes => m.append? addr bytes
  | .makeExecutable => some (.done, m.makeExecutable)
  | .reset => some (.done, m.reset)

/-- Calls one after another, each with its answer, and the mapping after them. -/
def run? (m : CodeMapping) : List Call → Option (List (Call × Answer) × CodeMapping)
  | [] => some ([], m)
  | call :: calls => do
    let first ← m.perform? call
    let rest ← run? first.2 calls
    some ((call, first.1) :: rest.1, rest.2)

/-- The bytes from an offset, if they are in use; none without an answer if the host ends the
process. -/
def bytes? (m : CodeMapping) (offset count : BitVec 64) : Option (Option (List Byte)) :=
  match sum? offset count with
  | some last => if m.used < last then some none else some <$> m.read? offset.toNat count.toNat
  | none => some none

/-- The entry point at an offset. -/
def entry? (m : CodeMapping) (offset : BitVec 64) : Option Nat :=
  if m.executable = false ∨ m.used ≤ offset then none else some offset.toNat

/-- A mapping holds the code of a cache in front of bytes that are not in use, and the host
protects it as the cache is switched. -/
structure Holds (m : CodeMapping) (cache : CodeCache) : Prop where
  memory : ∃ unused, m.memory = cache.code.toList ++ unused
  length : m.memory.length = cache.capacity
  capacity : m.capacity.toNat = cache.capacity
  used : m.used.toNat = cache.size
  executable : m.executable = cache.executable
  protection : m.protection = if cache.executable then .executable else .writable

section

variable {m m' : CodeMapping} {cache : CodeCache} {addr : Word} {bytes : List Byte}

theorem holds_ofCapacity {size : Nat} {capacity : BitVec 64}
    (h : capacity.toNat = (CodeCache.ofSize size).capacity) :
    (ofCapacity capacity).Holds (.ofSize size) where
  memory := ⟨_, rfl⟩
  length := List.length_replicate.trans h
  capacity := h
  used := rfl
  executable := rfl
  protection := rfl

theorem Holds.inside (h : m.Holds cache) : cache.size ≤ cache.capacity := by
  obtain ⟨unused, hmemory⟩ := h.memory
  rw [← h.length, hmemory, List.length_append, CodeCache.length_code]
  exact Nat.le_add_right _ _

/-- The room behind the code in use is computed without an overflow. -/
theorem Holds.exists_room (h : m.Holds cache) :
    ∃ room, difference? m.capacity m.used = some room ∧
      room.toNat = cache.capacity - cache.size := by
  have hinside := h.inside
  have hle : m.used.toNat ≤ m.capacity.toNat := by
    rw [h.used, h.capacity]
    exact hinside
  have hroom : (m.capacity - m.used).toNat = cache.capacity - cache.size := by
    rw [BitVec.toNat_sub_of_le hle, h.used, h.capacity]
  refine ⟨m.capacity - m.used, difference?_eq_some_iff.2 ?_, hroom⟩
  rw [hroom, h.used, h.capacity]
  omega

/-- Bytes written over those right behind the code in use. -/
theorem overwrite_behind {code bytes unused : List Byte} (h : bytes.length ≤ unused.length) :
    Host.overwrite code.length (code ++ unused) bytes =
      code ++ bytes ++ unused.drop bytes.length := by
  have hold : (unused.take bytes.length).length = bytes.length := by
    rw [List.length_take]
    omega
  have hparts : code ++ unused = code ++ unused.take bytes.length ++ unused.drop bytes.length := by
    rw [List.append_assoc, List.take_append_drop]
  rw [hparts, Host.overwrite_append _ _ hold]

/-- Code that fits is copied behind the code in use. -/
theorem Holds.exists_extended (h : m.Holds cache) (hwritable : cache.executable = false)
    (hroom : bytes.length ≤ cache.capacity - cache.size) :
    ∃ written used, m.write? m.used.toNat bytes = some written ∧
      sum? m.used (.ofNat 64 bytes.length) = some used ∧
      { written with used := used }.Holds (cache.extended bytes) := by
  have hinside := h.inside
  have hlength := h.length
  have hcapacity := h.capacity
  have hbound := m.capacity.isLt
  have hsum : (BitVec.ofNat 64 (cache.size + bytes.length)).toNat = cache.size + bytes.length := by
    rw [BitVec.toNat_ofNat]
    omega
  have hcount : (BitVec.ofNat 64 bytes.length).toNat = bytes.length := by
    rw [BitVec.toNat_ofNat]
    omega
  refine ⟨{ m with memory := Host.overwrite cache.size m.memory bytes },
    .ofNat 64 (cache.size + bytes.length), ?_, ?_, ?_⟩
  · have hprotection : m.protection = .writable := by
      rw [h.protection, hwritable]
      rfl
    rw [write?, h.used, if_pos ⟨hprotection, by omega⟩]
  · rw [sum?_eq_some_iff, hsum, hcount, h.used]
  · obtain ⟨unused, hmemory⟩ := h.memory
    have hunused : cache.size + unused.length = cache.capacity := by
      rw [← hlength, hmemory, List.length_append, CodeCache.length_code]
    refine ⟨⟨unused.drop bytes.length, ?_⟩, ?_, h.capacity, ?_, h.executable, h.protection⟩
    · rw [CodeCache.toList_code_extended, ← overwrite_behind (by omega), ← hmemory]
      rfl
    · exact (Host.length_overwrite _ _ _).trans hlength
    · rw [CodeCache.size_extended]
      exact hsum

/-- A mapping of an executable cache is protected so already. -/
theorem Holds.makeExecutable (h : m.Holds cache) : m.makeExecutable.Holds cache.makeExecutable := by
  unfold CodeMapping.makeExecutable
  split
  · rename_i hexecutable
    have hprotection := h.protection
    rw [← h.executable, hexecutable] at hprotection
    exact ⟨h.memory, h.length, h.capacity, h.used, hexecutable, hprotection⟩
  · exact ⟨h.memory, h.length, h.capacity, h.used, rfl, rfl⟩

/-- After a reset all bytes of the mapping are unused, whatever they are. -/
theorem Holds.reset (h : m.Holds cache) : m.reset.Holds cache.reset := by
  unfold CodeMapping.reset
  split
  · exact ⟨⟨m.memory, rfl⟩, h.length, h.capacity, rfl, rfl, rfl⟩
  · rename_i hexecutable
    rw [Bool.not_eq_true] at hexecutable
    have hprotection := h.protection
    rw [← h.executable, hexecutable] at hprotection
    exact ⟨⟨m.memory, rfl⟩, h.length, h.capacity, rfl, hexecutable, hprotection⟩

/-- A call on a mapping gives the answer of the cache, and the host lets it pass. -/
theorem Holds.perform? (h : m.Holds cache) (call : Call) :
    ∃ m', m.perform? call = some ((cache.perform call).1, m') ∧
      m'.Holds (cache.perform call).2 := by
  cases call with
  | append addr bytes =>
      obtain ⟨room, hdifference, hroom⟩ := h.exists_room
      rcases CodeCache.append_cases cache addr bytes with
        ⟨hexecutable, he⟩ | ⟨hwritable, hover, he⟩ | ⟨hwritable, hfits, hok⟩
      · rw [CodeCache.perform_append_of_error he]
        exact ⟨m, if_pos (h.executable.trans hexecutable), h⟩
      · rw [CodeCache.perform_append_of_error he]
        refine ⟨m, ?_, h⟩
        show m.append? addr bytes = _
        rw [append?, h.executable, hwritable, if_neg Bool.false_ne_true, hdifference,
          Option.bind_eq_bind, Option.bind_some, if_pos (by omega), h.used, h.capacity]
      · rw [CodeCache.perform_append_of_ok hok]
        obtain ⟨written, used, hwritten, hused, hholds⟩ := h.exists_extended hwritable hfits
        refine ⟨_, ?_, hholds⟩
        show m.append? addr bytes = _
        rw [append?, h.executable, hwritable, if_neg Bool.false_ne_true, hdifference,
          Option.bind_eq_bind, Option.bind_some, if_neg (by omega), hwritten, hused]
        exact congrArg (fun offset => some (Answer.appended offset, _)) h.used
  | makeExecutable => exact ⟨_, rfl, h.makeExecutable⟩
  | reset => exact ⟨_, rfl, h.reset⟩

/-- Calls on a mapping give the answers of the cache, and the host lets all of them pass. -/
theorem Holds.run? (h : m.Holds cache) (calls : List Call) :
    ∃ m', m.run? calls = some ((cache.run calls).1, m') ∧ m'.Holds (cache.run calls).2 := by
  induction calls generalizing m cache with
  | nil => exact ⟨m, rfl, h⟩
  | cons call calls ih =>
      obtain ⟨m₁, hfirst, hholds⟩ := h.perform? call
      obtain ⟨m', hrest, hholds'⟩ := ih hholds
      refine ⟨m', ?_, hholds'⟩
      rw [CodeMapping.run?, hfirst, Option.bind_eq_bind, Option.bind_some, hrest]
      rfl

/-- Code that is refused leaves the mapping as it was. -/
theorem eq_of_refused {e : TranslateError} (h : m.append? addr bytes = some (.refused e, m')) :
    m' = m := by
  unfold append? at h
  split at h
  · cases h
    rfl
  · obtain ⟨room, -, h⟩ := Option.bind_eq_some_iff.1 h
    split at h
    · cases h
      rfl
    · obtain ⟨written, -, h⟩ := Option.bind_eq_some_iff.1 h
      obtain ⟨used, -, h⟩ := Option.bind_eq_some_iff.1 h
      cases h

/-- The bytes of a mapping are those of the cache; an offset and a count whose sum overflows
reach behind the code in use. -/
theorem Holds.bytes? (h : m.Holds cache) (offset count : BitVec 64) :
    m.bytes? offset count = some (cache.bytes? offset.toNat count.toNat) := by
  have hused := h.used
  have hbound := m.used.isLt
  unfold CodeMapping.bytes?
  cases hsum : sum? offset count with
  | none =>
      have hover := sum?_eq_none_iff.1 hsum
      rw [CodeCache.bytes?_eq_none_iff.2 (by omega)]
  | some last =>
      have hlast := sum?_eq_some_iff.1 hsum
      by_cases hbehind : m.used < last
      · have hlt : m.used.toNat < last.toNat := hbehind
        rw [CodeCache.bytes?_eq_none_iff.2 (by omega)]
        exact if_pos hbehind
      · have hle : last.toNat ≤ m.used.toNat := Nat.le_of_not_lt hbehind
        have hinside := h.inside
        have hlength := h.length
        have hsize := cache.length_code
        obtain ⟨unused, hmemory⟩ := h.memory
        have hcode : cache.bytes? offset.toNat count.toNat =
            some ((m.memory.drop offset.toNat).take count.toNat) := by
          refine CodeCache.bytes?_eq_some_iff.2 ⟨by omega, ?_⟩
          rw [hmemory, List.drop_append_of_le_length (by omega),
            List.take_append_of_le_length (by rw [List.length_drop]; omega)]
        rw [hcode]
        simp only [if_neg hbehind, read?]
        rw [if_pos (by omega)]
        rfl

theorem Holds.entry? (h : m.Holds cache) (offset : BitVec 64) :
    m.entry? offset = cache.entry? offset.toNat := by
  have hused := h.used
  unfold CodeMapping.entry? CodeCache.entry?
  by_cases hpresent : cache.executable = true ∧ offset.toNat < cache.size
  · rw [if_pos hpresent, if_neg]
    rintro (hwritable | hle)
    · rw [h.executable, hpresent.1] at hwritable
      cases hwritable
    · have hle : m.used.toNat ≤ offset.toNat := hle
      omega
  · rw [if_neg hpresent, if_pos]
    by_cases hexecutable : cache.executable = true
    · have hle : ¬offset.toNat < cache.size := fun hlt => hpresent ⟨hexecutable, hlt⟩
      exact .inr (show m.used.toNat ≤ offset.toNat by omega)
    · exact .inl (h.executable.trans (by simpa using hexecutable))

/-- All that can be asked of a mapping is answered as by the cache.  The next code is taken or
refused as by the cache, and refused code leaves the mapping as it was.  Memory that can be
entered is executable and not writable. -/
structure Shows (m : CodeMapping) (cache : CodeCache) : Prop where
  used : m.used.toNat = cache.size
  capacity : m.capacity.toNat = cache.capacity
  executable : m.executable = cache.executable
  protection : m.protection = .executable ↔ cache.executable = true
  append : ∀ addr bytes, ∃ m', m.append? addr bytes =
    some ((cache.perform (.append addr bytes)).1, m')
  refused : ∀ addr bytes e m', m.append? addr bytes = some (.refused e, m') → m' = m
  bytes : ∀ offset count, m.bytes? offset count = some (cache.bytes? offset.toNat count.toNat)
  entry : ∀ offset, m.entry? offset = cache.entry? offset.toNat

theorem Holds.shows (h : m.Holds cache) : m.Shows cache where
  used := h.used
  capacity := h.capacity
  executable := h.executable
  protection := by
    rw [h.protection]
    cases cache.executable <;> decide
  append addr bytes := by
    obtain ⟨m', hm', -⟩ := h.perform? (.append addr bytes)
    exact ⟨m', hm'⟩
  refused _ _ _ _ := eq_of_refused
  bytes := h.bytes?
  entry := h.entry?

end

end CodeMapping

namespace CodeCache

/-! ## What a cache tells by its log -/

/-- After any calls on an empty cache: it is as long as the code of its log and never longer
than its capacity; it takes code exactly if it is writable and has room, and then puts it
behind the code so far; it gives the bytes that the code of the log has at a place, unless the
place reaches behind it; and there is an entry exactly at the offsets of executable code.  A
cache in mapped memory has given the same answers and shows the same. -/
theorem run_logged (size : Nat) (calls : List Call) :
    let after := (ofSize size).run calls
    let cache := after.2
    let log := Log.ofHistory after.1
    (cache.size = log.code.length ∧ cache.size ≤ cache.capacity ∧
      cache.capacity = (ofSize size).capacity ∧ cache.executable = log.executable) ∧
    (∀ addr bytes,
      ((∃ offset cache', cache.append addr bytes = .ok (offset, cache')) ↔
        cache.executable = false ∧ cache.size + bytes.length ≤ cache.capacity) ∧
      (∀ offset cache', cache.append addr bytes = .ok (offset, cache') →
        offset = cache.size ∧ cache'.code.toList = log.code ++ bytes) ∧
      ∀ e, cache.append addr bytes = .error e →
        cache.perform (.append addr bytes) = (.refused e, cache)) ∧
    (∀ offset count,
      (cache.bytes? offset count = none ↔ cache.size < offset + count) ∧
      ∀ bytes, cache.bytes? offset count = some bytes →
        bytes.length = count ∧ bytes = (log.code.drop offset).take count) ∧
    (∀ offset, (cache.entry? offset).isSome = true ↔
      cache.executable = true ∧ offset < cache.size) ∧
    ∀ capacity : BitVec 64, capacity.toNat = (ofSize size).capacity →
      ∃ m, (CodeMapping.ofCapacity capacity).run? calls = some (after.1, m) ∧ m.Shows cache := by
  intro after cache log
  have hlogged : cache.Logged (ofSize size).capacity log := (logged_ofSize size).run calls
  have hinside : cache.size ≤ cache.capacity := by
    rw [hlogged.capacity_eq]
    exact hlogged.inside
  refine ⟨⟨hlogged.size_eq, hinside, hlogged.capacity_eq, hlogged.executable⟩, ?_, ?_,
    fun _ => entry?_isSome_iff, ?_⟩
  · intro addr bytes
    refine ⟨exists_append_eq_ok_iff hinside, ?_, fun _ => perform_append_of_error⟩
    intro offset cache' hok
    obtain ⟨-, -, rfl, rfl⟩ := append_eq_ok_iff.1 hok
    exact ⟨rfl, hlogged.code ▸ toList_code_extended cache bytes⟩
  · intro offset count
    refine ⟨bytes?_eq_none_iff, ?_⟩
    intro bytes hbytes
    obtain ⟨hinside, rfl⟩ := bytes?_eq_some_iff.1 hbytes
    have hsize := cache.length_code
    refine ⟨?_, by rw [hlogged.code]⟩
    rw [List.length_take, List.length_drop]
    omega
  · intro capacity hcapacity
    obtain ⟨m, hrun, hholds⟩ := (CodeMapping.holds_ofCapacity hcapacity).run? calls
    exact ⟨m, hrun, hholds.shows⟩

/-- Two pieces that are made executable and refuse a third one, then a reset after which a
shorter piece lies over the first: the bytes behind it are not shown. -/
theorem run_logged_refilled :
    let calls : List Call :=
      [.append 0 [0x90, 0xc3], .append 4 [0xc3], .makeExecutable, .append 8 [0xcc], .reset,
        .append 8 [0xcc]]
    let after := (ofSize 100).run calls
    (0x1000#64).toNat = (ofSize 100).capacity ∧
      after.1.map (·.2) =
        [.appended 0, .appended 2, .done, .refused (.finalized 8), .done, .appended 0] ∧
      ∃ m, (CodeMapping.ofCapacity 0x1000#64).run? calls = some (after.1, m) ∧
        m.bytes? 0 1 = some (some [0xcc]) ∧ m.bytes? 0 3 = some none ∧
        m.bytes? 0xffffffffffffffff 1 = some none := by
  intro calls after
  obtain ⟨-, -, hbytes, -, hmapped⟩ := run_logged 100 calls
  obtain ⟨m, hrun, hshows⟩ := hmapped 0x1000#64 rfl
  refine ⟨rfl, rfl, m, hrun, ?_, ?_, ?_⟩
  · rw [hshows.bytes]
    exact congrArg some (bytes?_eq_some_iff.2 ⟨by decide, rfl⟩)
  · rw [hshows.bytes]
    exact congrArg some ((hbytes 0 3).1.2 (by decide))
  · rw [hshows.bytes]
    exact congrArg some ((hbytes 0xffffffffffffffff 1).1.2 (by decide))

end CodeCache

end ArmEmulator
