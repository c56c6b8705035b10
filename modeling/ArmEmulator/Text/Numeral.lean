import ArmEmulator.Word

/-!
# Numerals

Unsigned numbers as they are read from text: the digits of a base after an optional
plus sign, with a value below a bound.  Any other text is rejected for the first
thing wrong with it from left to right.
-/

namespace ArmEmulator.Numeral

/-- Why a text is no numeral. -/
inductive Error where
  | empty
  | invalidDigit
  | tooLarge
deriving DecidableEq

/-- The text of a numeral error. -/
def Error.message : Error → String
  | empty => "cannot parse integer from empty string"
  | invalidDigit => "invalid digit found in string"
  | tooLarge => "number too large to fit in target type"

/-- The value of a digit or letter; letters of both cases follow the digits. -/
def value? (c : Char) : Option Nat :=
  if '0' ≤ c ∧ c ≤ '9' then some (c.toNat - '0'.toNat)
  else if 'a' ≤ c ∧ c ≤ 'z' then some (c.toNat - 'a'.toNat + 10)
  else if 'A' ≤ c ∧ c ≤ 'Z' then some (c.toNat - 'A'.toNat + 10)
  else none

/-- The value of a digit in a base. -/
def digit? (base : Nat) (c : Char) : Option Nat :=
  (value? c).filter (· < base)

/-- Reads digits after those whose value is {lit}`n`. -/
def readDigits (base bound : Nat) : Nat → List Char → Except Error Nat
  | n, [] => .ok n
  | n, c :: cs =>
    match digit? base c with
    | none => .error .invalidDigit
    | some d =>
      if base * n + d < bound then readDigits base bound (base * n + d) cs
      else .error .tooLarge

/-- Reads a numeral. -/
def read (base bound : Nat) : List Char → Except Error Nat
  | [] => .error .empty
  | '+' :: c :: cs => readDigits base bound 0 (c :: cs)
  | cs => readDigits base bound 0 cs

/-- Reads a decimal number of 64 bits. -/
def readCount (s : String) : Except Error Nat :=
  read 10 0x10000000000000000 s.toList

/-- Reads a word: hexadecimal after {lit}`0x` or {lit}`0X`, else decimal, with
underscores anywhere in it. -/
def readWord (s : String) : Except Error Word :=
  let digits (cs : List Char) := cs.filter (· ≠ '_')
  let n := match s.toList with
    | '0' :: 'x' :: cs => read 16 0x100000000 (digits cs)
    | '0' :: 'X' :: cs => read 16 0x100000000 (digits cs)
    | cs => read 10 0x100000000 (digits cs)
  n.map (BitVec.ofNat 32)

end ArmEmulator.Numeral
