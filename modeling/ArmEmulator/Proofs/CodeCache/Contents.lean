import ArmEmulator.CodeCache

/-!
# Contents of the code cache

What can be read from a code cache is a part of the list of its bytes.  Bytes are only
added behind those in use, so what could be read before can be read afterwards.

Main results:

- Theorem {lit}`CodeCache.bytes?_eq_some_iff`: reading gives a part of the bytes in use.
- Theorem {lit}`CodeCache.bytes?_extended_of_eq_some`: adding bytes keeps what could be
  read.
- Theorem {lit}`CodeCache.append_cases`: all that appending can do.
-/

namespace ArmEmulator.CodeCache

variable {cache : CodeCache} {offset count : Nat} {bytes added : List Byte}

/-! ## Reading -/

theorem length_code (cache : CodeCache) : cache.code.toList.length = cache.size := rfl

/-- The bytes read are those that a list of all the bytes has there. -/
theorem bytes?_eq_some_iff :
    cache.bytes? offset count = some bytes ↔
      offset + count ≤ cache.size ∧ (cache.code.toList.drop offset).take count = bytes := by
  unfold bytes?
  split
  · rename_i hle
    simp [hle, Array.toList_extract, List.extract_eq_take_drop]
  · rename_i hle
    simp [hle]

theorem bytes?_eq_none_iff : cache.bytes? offset count = none ↔ cache.size < offset + count := by
  unfold bytes?
  split
  · simp
    omega
  · simp
    omega

/-- Bytes of a cache lie inside what is in use. -/
theorem le_size_of_bytes?_eq_some (h : cache.bytes? offset count = some bytes) :
    offset + count ≤ cache.size :=
  (bytes?_eq_some_iff.1 h).1

/-- Bytes inside others are found behind those before them. -/
theorem bytes?_of_append {front middle back : List Byte}
    (h : cache.bytes? offset count = some (front ++ (middle ++ back))) :
    cache.bytes? (offset + front.length) middle.length = some middle := by
  obtain ⟨hinside, hbytes⟩ := bytes?_eq_some_iff.1 h
  have hlength := congrArg List.length hbytes
  have hsize := cache.length_code
  simp only [List.length_take, List.length_drop, List.length_append] at hlength
  refine bytes?_eq_some_iff.2 ⟨by omega, ?_⟩
  have hdrop : (cache.code.toList.drop offset).take (front.length + middle.length) =
      front ++ middle := by
    have htake := congrArg (List.take (front.length + middle.length)) hbytes
    rw [List.take_take, ← List.append_assoc, List.take_left' List.length_append] at htake
    rw [← htake]
    congr 1
    omega
  rw [← List.drop_drop, List.take_drop, hdrop, List.drop_left]

/-! ## Appending -/

/-- The cache with more bytes behind those in use. -/
def extended (cache : CodeCache) (added : List Byte) : CodeCache :=
  { cache with code := cache.code ++ added }

@[simp]
theorem toList_code_extended (cache : CodeCache) (added : List Byte) :
    (cache.extended added).code.toList = cache.code.toList ++ added :=
  Array.toList_appendList

@[simp]
theorem size_extended (cache : CodeCache) (added : List Byte) :
    (cache.extended added).size = cache.size + added.length := by
  rw [← length_code, toList_code_extended, List.length_append, length_code]

/-- What is behind the bytes in use does not change them. -/
theorem bytes?_extended_of_eq_some (h : cache.bytes? offset count = some bytes)
    (added : List Byte) : (cache.extended added).bytes? offset count = some bytes := by
  obtain ⟨hinside, hbytes⟩ := bytes?_eq_some_iff.1 h
  have hsize := cache.length_code
  refine bytes?_eq_some_iff.2 ⟨by rw [size_extended]; omega, ?_⟩
  rw [toList_code_extended, List.drop_append_of_le_length (by omega),
    List.take_append_of_le_length (by rw [List.length_drop]; omega), hbytes]

/-- The added bytes start where those in use end. -/
theorem bytes?_extended_size (cache : CodeCache) (added : List Byte) :
    (cache.extended added).bytes? cache.size added.length = some added := by
  refine bytes?_eq_some_iff.2 ⟨by simp, ?_⟩
  rw [toList_code_extended, ← length_code, List.drop_left, List.take_length]

/-- A writable cache with room takes the bytes. -/
theorem append_of_fits (hwritable : cache.executable = false)
    (h : added.length ≤ cache.capacity - cache.size) (addr : Word) :
    cache.append addr added = .ok (cache.size, cache.extended added) :=
  append_eq_ok_iff.2 ⟨hwritable, h, rfl, rfl⟩

/-- A writable cache without room reports what was needed. -/
theorem append_of_overflow (hwritable : cache.executable = false)
    (h : cache.capacity - cache.size < added.length) (addr : Word) :
    cache.append addr added =
      .error (.cacheExhausted addr added.length cache.size cache.capacity) := by
  unfold append
  rw [hwritable, if_neg Bool.false_ne_true, if_pos h]

/-- An executable cache takes no bytes, however few. -/
theorem append_of_executable (h : cache.executable = true) (addr : Word) (added : List Byte) :
    cache.append addr added = .error (.finalized addr) :=
  if_pos h

/-- All that appending can do: an executable cache refuses every code, a writable one takes
it exactly when there is room behind the bytes in use. -/
theorem append_cases (cache : CodeCache) (addr : Word) (added : List Byte) :
    (cache.executable = true ∧ cache.append addr added = .error (.finalized addr)) ∨
      (cache.executable = false ∧ cache.capacity - cache.size < added.length ∧
        cache.append addr added =
          .error (.cacheExhausted addr added.length cache.size cache.capacity)) ∨
      (cache.executable = false ∧ added.length ≤ cache.capacity - cache.size ∧
        cache.append addr added = .ok (cache.size, cache.extended added)) := by
  cases hexecutable : cache.executable with
  | true => exact .inl ⟨rfl, append_of_executable hexecutable addr added⟩
  | false =>
      by_cases hroom : added.length ≤ cache.capacity - cache.size
      · exact .inr (.inr ⟨rfl, hroom, append_of_fits hexecutable hroom addr⟩)
      · have hover := Nat.lt_of_not_le hroom
        exact .inr (.inl ⟨rfl, hover, append_of_overflow hexecutable hover addr⟩)

end ArmEmulator.CodeCache
