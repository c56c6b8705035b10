import ArmEmulator.Guest.Instruction

/-!
# Barrel shifter

Shifts by an amount fixed in the instruction.  An amount of zero keeps its
special meaning: no shift for a left shift, a shift by 32 for the two right
shifts, and a rotation by one through the carry for a rotation.
-/

namespace ArmEmulator

/-- The shifted value and the carry out. -/
def Shift.apply (shift : Shift) (value : Word) (amount : BitVec 5) (carry : Bool) :
    Word × Bool :=
  let n := amount.toNat
  match shift with
  | .lsl => if n = 0 then (value, carry) else (value <<< n, value.getLsbD (32 - n))
  | .lsr => if n = 0 then (0, value.msb) else (value >>> n, value.getLsbD (n - 1))
  | .asr =>
    if n = 0 then (value.sshiftRight 31, value.msb)
    else (value.sshiftRight n, value.getLsbD (n - 1))
  | .ror =>
    if n = 0 then (BitVec.ofBool carry ++ value.extractLsb' 1 31, value.getLsbD 0)
    else (value.rotateRight n, value.getLsbD (n - 1))

/-- The value and carry out of a shifted register that holds {lit}`value`. -/
def ShiftedReg.apply (r : ShiftedReg) (value : Word) (carry : Bool) : Word × Bool :=
  r.shift.apply value r.amount carry

end ArmEmulator
