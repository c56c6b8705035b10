/-!
# Hexadecimal text

Numbers in messages and listings are written in lower-case hexadecimal, either
padded with zeros to a fixed number of digits or as short as possible.
-/

namespace ArmEmulator.Hex

/-- The digits of a number in base sixteen, without leading zeros. -/
def digits (n : Nat) : String :=
  String.ofList (Nat.toDigits 16 n)

/-- The digits of a number, padded with zeros to at least {lit}`width`. -/
def padded (width n : Nat) : String :=
  let ds := Nat.toDigits 16 n
  String.ofList (List.replicate (width - ds.length) '0' ++ ds)

/-- Hexadecimal text with its {lit}`0x` in front, as short as possible. -/
def short (n : Nat) : String :=
  "0x" ++ digits n

/-- A guest address: {lit}`0x` and eight digits. -/
def address (a : BitVec 32) : String :=
  "0x" ++ padded 8 a.toNat

end ArmEmulator.Hex
