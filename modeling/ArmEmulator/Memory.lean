import Std.Data.TreeMap
import ArmEmulator.Word

/-!
# Memory

A window of memory that starts at a base address.  Only bytes that were written
are stored; every other byte of the window is zero.  An access that falls, even
partly, outside the window finds nothing.

Main results:

- Theorem {lit}`Ram.byteAt_putBytes`: a write changes the bytes it covers, and
  only those.
- Theorem {lit}`Ram.bytesAt_putBytes`: reading back a write gives the bytes
  written.
- Theorem {lit}`Ram.offset?_eq_some_iff`: an access has an offset exactly when
  all its bytes lie in the window.
-/

namespace ArmEmulator

/-- A window of memory; {lit}`bytes` holds the written bytes by their offset from
the base. -/
structure Ram where
  base : Word
  size : Nat
  bytes : Std.TreeMap Nat Byte

namespace Ram

/-- A window of zeros. -/
def zeroed (base : Word) (size : Nat) : Ram where
  base
  size
  bytes := ∅

/-- One past the last address of the window, at most {lit}`2 ^ 32` past the base
of a window that ends inside the address space. -/
def endAddress (ram : Ram) : Nat :=
  ram.base.toNat + ram.size

/-- The offset of an access of {lit}`width` bytes that lies fully inside the
window. -/
def offset? (ram : Ram) (addr : Word) (width : Nat) : Option Nat :=
  if ram.base ≤ addr ∧ addr.toNat - ram.base.toNat + width ≤ ram.size then
    some (addr.toNat - ram.base.toNat)
  else
    none

/-- Whether an access of {lit}`width` bytes lies fully inside the window. -/
def contains (ram : Ram) (addr : Word) (width : Nat) : Bool :=
  (ram.offset? addr width).isSome

theorem offset?_eq_some_iff {ram : Ram} {addr : Word} {width i : Nat} :
    ram.offset? addr width = some i ↔
      addr.toNat = ram.base.toNat + i ∧ i + width ≤ ram.size := by
  unfold offset?
  split <;> rename_i h <;> rw [BitVec.le_def] at h <;> simp <;> omega

/-! ## Bytes by offset -/

/-- The byte at an offset. -/
def byteAt (ram : Ram) (i : Nat) : Byte :=
  ram.bytes.getD i 0

/-- The {lit}`n` bytes from an offset upwards. -/
def bytesAt (ram : Ram) (i : Nat) : Nat → List Byte
  | 0 => []
  | n + 1 => ram.byteAt i :: ram.bytesAt (i + 1) n

/-- Stores bytes from an offset upwards. -/
def putBytes (ram : Ram) (i : Nat) : List Byte → Ram
  | [] => ram
  | b :: bs => putBytes { ram with bytes := ram.bytes.insert i b } (i + 1) bs

@[simp]
theorem base_putBytes (ram : Ram) (i : Nat) (bs : List Byte) :
    (ram.putBytes i bs).base = ram.base := by
  induction bs generalizing ram i with
  | nil => rfl
  | cons b bs ih => rw [putBytes, ih]

@[simp]
theorem size_putBytes (ram : Ram) (i : Nat) (bs : List Byte) :
    (ram.putBytes i bs).size = ram.size := by
  induction bs generalizing ram i with
  | nil => rfl
  | cons b bs ih => rw [putBytes, ih]

theorem byteAt_putBytes (ram : Ram) (i : Nat) (bs : List Byte) (j : Nat) :
    (ram.putBytes i bs).byteAt j =
      if i ≤ j then bs.getD (j - i) (ram.byteAt j) else ram.byteAt j := by
  induction bs generalizing ram i with
  | nil => simp [putBytes]
  | cons b bs ih =>
    rw [putBytes, ih]
    have stored : byteAt { ram with bytes := ram.bytes.insert i b } j =
        if i = j then b else ram.byteAt j := by
      simp [byteAt, Std.TreeMap.getD_insert]
    rw [stored]
    rcases Nat.lt_trichotomy i j with h | rfl | h
    · rw [if_neg (Nat.ne_of_lt h), if_pos (by omega : i + 1 ≤ j), if_pos (Nat.le_of_lt h),
        show j - i = j - (i + 1) + 1 by omega, List.getD_cons_succ]
    · rw [if_neg (Nat.not_succ_le_self i)]
      simp
    · rw [if_neg (by omega), if_neg (by omega), if_neg (by omega)]

@[simp]
theorem length_bytesAt (ram : Ram) (i n : Nat) : (ram.bytesAt i n).length = n := by
  induction n generalizing i with
  | zero => rfl
  | succ n ih => simp [bytesAt, ih]

theorem bytesAt_congr {ram ram' : Ram} {i n : Nat}
    (h : ∀ j, i ≤ j → j < i + n → ram.byteAt j = ram'.byteAt j) :
    ram.bytesAt i n = ram'.bytesAt i n := by
  induction n generalizing i with
  | zero => rfl
  | succ n ih =>
    rw [bytesAt, bytesAt, h i (by omega) (by omega), ih fun j h₁ h₂ => h j (by omega) (by omega)]

theorem bytesAt_putBytes (ram : Ram) (i : Nat) (bs : List Byte) :
    (ram.putBytes i bs).bytesAt i bs.length = bs := by
  induction bs generalizing ram i with
  | nil => rfl
  | cons b bs ih =>
    rw [List.length_cons, bytesAt, byteAt_putBytes, putBytes, ih]
    simp

/-! ## Accesses by address -/

/-- The bytes of an access, if it lies inside the window. -/
def load? (ram : Ram) (addr : Word) (width : Nat) : Option (List Byte) :=
  (ram.offset? addr width).map fun i => ram.bytesAt i width

/-- Stores bytes at an address, all of them or, outside the window, none. -/
def store? (ram : Ram) (addr : Word) (bs : List Byte) : Option Ram :=
  (ram.offset? addr bs.length).map fun i => ram.putBytes i bs

/-- The word at an address. -/
def word? (ram : Ram) (addr : Word) : Option Word :=
  (ram.load? addr 4).map Word.ofBytes

/-- The byte at an address. -/
def byte? (ram : Ram) (addr : Word) : Option Byte :=
  (ram.offset? addr 1).map ram.byteAt

/-- Stores a word. -/
def storeWord? (ram : Ram) (addr value : Word) : Option Ram :=
  ram.store? addr value.bytes

/-- Stores a byte. -/
def storeByte? (ram : Ram) (addr : Word) (value : Byte) : Option Ram :=
  ram.store? addr [value]

/-- At most {lit}`count` whole words from an address to the end of the window. -/
def words (ram : Ram) (addr : Word) (count : Nat) : List Word :=
  match ram.offset? addr 0 with
  | none => []
  | some i =>
    (List.range (min count ((ram.size - i) / 4))).map fun k =>
      Word.ofBytes (ram.bytesAt (i + 4 * k) 4)

/-! ## Comparing contents -/

/-- Groups bytes at ascending offsets into runs of neighbours. -/
def runs : List (Nat × Byte) → List (Nat × List Byte)
  | [] => []
  | (i, b) :: rest =>
    match runs rest with
    | (j, bs) :: more => if j = i + 1 then (i, b :: bs) :: more else (i, [b]) :: (j, bs) :: more
    | [] => [(i, [b])]

/-- The offsets at which either window holds a written byte, ascending. -/
def writtenOffsets (before after : Ram) : List Nat :=
  (before.bytes.foldl (fun written i b => written.insertIfNew i b) after.bytes).keys

/-- The maximal runs of bytes that differ, each with its address and its new
bytes, in ascending order. -/
def changes (before after : Ram) : List (Nat × List Byte) :=
  let differing := (writtenOffsets before after).filter fun i => before.byteAt i != after.byteAt i
  runs (differing.map fun i => (after.base.toNat + i, after.byteAt i))

end Ram

end ArmEmulator
