/-!
# Machine words

Guest words are 32-bit vectors and bytes are 8-bit vectors.  Memory holds a
number with its least significant byte first; this file gives that layout as a
list of bytes and reads it back.

Main results:

- Theorem {lit}`ofLittleEndian_littleEndian`: reading back a layout of {lit}`n`
  bytes gives the number modulo {lit}`256 ^ n`.
-/

namespace ArmEmulator

/-- One byte of memory or of machine code. -/
abbrev Byte := BitVec 8

/-- One guest word; its arithmetic wraps. -/
abbrev Word := BitVec 32

/-! ## Little-endian layout -/

/-- The low {lit}`n` bytes of a number, least significant first. -/
def littleEndian : Nat → Nat → List Byte
  | 0, _ => []
  | n + 1, value => BitVec.ofNat 8 value :: littleEndian n (value / 256)

/-- The number a little-endian byte list stands for. -/
def ofLittleEndian : List Byte → Nat
  | [] => 0
  | b :: bs => b.toNat + 256 * ofLittleEndian bs

@[simp]
theorem length_littleEndian (n value : Nat) : (littleEndian n value).length = n := by
  induction n generalizing value with
  | zero => rfl
  | succ n ih => simp [littleEndian, ih]

theorem ofLittleEndian_littleEndian (n value : Nat) :
    ofLittleEndian (littleEndian n value) = value % Nat.pow 256 n := by
  induction n generalizing value with
  | zero => simp [littleEndian, ofLittleEndian, Nat.mod_one]
  | succ n ih =>
    have step : Nat.pow 256 (n + 1) = 256 * Nat.pow 256 n := Nat.mul_comm ..
    rw [littleEndian, ofLittleEndian, ih, step, Nat.mod_mul, BitVec.toNat_ofNat]

/-- The four bytes of a word as memory holds them. -/
def Word.bytes (w : Word) : List Byte :=
  littleEndian 4 w.toNat

/-- The word made of a list of bytes; bytes past the fourth are dropped. -/
def Word.ofBytes (bs : List Byte) : Word :=
  BitVec.ofNat 32 (ofLittleEndian bs)

@[simp]
theorem Word.ofBytes_bytes (w : Word) : Word.ofBytes w.bytes = w := by
  have range : w.toNat < Nat.pow 256 4 := w.isLt
  rw [Word.ofBytes, Word.bytes, ofLittleEndian_littleEndian, Nat.mod_eq_of_lt range,
    BitVec.ofNat_toNat, BitVec.setWidth_eq]

end ArmEmulator
