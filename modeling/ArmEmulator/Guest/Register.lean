/-!
# Guest registers

The sixteen registers of the guest core.  Registers 12 to 15 carry their usual
names: scratch, stack pointer, link register and program counter.

Main results:

- Theorems {lit}`Reg.index_ofIndex` and {lit}`Reg.ofIndex_index`: registers and
  the numbers below sixteen correspond one to one.
-/

namespace ArmEmulator

/-- A guest register. -/
inductive Reg where
  | r0 | r1 | r2 | r3 | r4 | r5 | r6 | r7 | r8 | r9 | r10 | r11
  | ip | sp | lr | pc
deriving DecidableEq

namespace Reg

/-- Every register in the order of its number. -/
def all : Vector Reg 16 :=
  #v[r0, r1, r2, r3, r4, r5, r6, r7, r8, r9, r10, r11, ip, sp, lr, pc]

/-- The number an instruction names a register by. -/
def index : Reg → Fin 16
  | r0 => 0 | r1 => 1 | r2 => 2 | r3 => 3
  | r4 => 4 | r5 => 5 | r6 => 6 | r7 => 7
  | r8 => 8 | r9 => 9 | r10 => 10 | r11 => 11
  | ip => 12 | sp => 13 | lr => 14 | pc => 15

/-- The register with a given number. -/
def ofIndex (i : Fin 16) : Reg :=
  all.get i

/-- The register named by a four-bit instruction field. -/
def ofBits (b : BitVec 4) : Reg :=
  ofIndex b.toFin

@[simp]
theorem index_ofIndex (i : Fin 16) : (ofIndex i).index = i := by
  revert i; decide

@[simp]
theorem ofIndex_index (r : Reg) : ofIndex r.index = r := by
  cases r <;> rfl

theorem index_inj {r s : Reg} : r.index = s.index ↔ r = s :=
  ⟨fun h => by rw [← ofIndex_index r, h, ofIndex_index], fun h => h ▸ rfl⟩

/-- The assembly name of a register. -/
def name : Reg → String
  | r0 => "r0" | r1 => "r1" | r2 => "r2" | r3 => "r3"
  | r4 => "r4" | r5 => "r5" | r6 => "r6" | r7 => "r7"
  | r8 => "r8" | r9 => "r9" | r10 => "r10" | r11 => "r11"
  | ip => "ip" | sp => "sp" | lr => "lr" | pc => "pc"

end Reg

end ArmEmulator
