import ArmEmulator.Memory
import ArmEmulator.Text.Hex

/-!
# Listings

The words of a program in three columns: the address, the word in hexadecimal,
and a description of the word, which a disassembler gives.
-/

namespace ArmEmulator

/-- The text of the instruction that a word is at an address, without blanks at its
end, as far as a disassembler knows it. -/
abbrev Disassembler := Word → Word → Option String

/-- The description of a word at an address.  A word that the disassembler does not
know is described as a data directive. -/
def Disassembler.describe (d : Disassembler) (word addr : Word) : String :=
  (d word addr).getD (".word " ++ Hex.address word)

/-- One line of a listing. -/
def listingLine (d : Disassembler) (addr word : Word) : String :=
  Hex.address addr ++ ":  " ++ Hex.padded 8 word.toNat ++ "  " ++ d.describe word addr

/-- At most {lit}`count` lines from an address, stopping at the end of memory. -/
def Ram.listing (ram : Ram) (d : Disassembler) (start : Word) (count : Nat) : List String :=
  (ram.words start count).mapIdx fun i word => listingLine d (start + BitVec.ofNat 32 (4 * i)) word

end ArmEmulator
