import ArmEmulator.Word

/-!
# Status flags and conditions

A program status register is a word whose top four bits are the flags N, Z, C
and V.  Every instruction carries one of sixteen conditions on those flags.

Main results:

- Theorem {lit}`Psr.flag_withFlags`: the four flags written are the flags read.
- Theorem {lit}`Cond.getLsbD_passMask`: the pass mask tabulates a condition by
  the value of the four flags.
-/

namespace ArmEmulator

/-- A condition flag of a program status register. -/
inductive Flag where
  | n | z | c | v
deriving DecidableEq

namespace Flag

/-- The bit of the status register that holds a flag. -/
def bit : Flag → Nat
  | n => 31
  | z => 30
  | c => 29
  | v => 28

/-- The lower-case letter of a flag. -/
def letter : Flag → Char
  | n => 'n'
  | z => 'z'
  | c => 'c'
  | v => 'v'

end Flag

/-! ## Flags of a status register -/

namespace Psr

/-- Whether a flag is set. -/
def flag (psr : Word) (f : Flag) : Bool :=
  psr.getLsbD f.bit

/-- Sets or clears one flag. -/
def withFlag (psr : Word) (f : Flag) (set : Bool) : Word :=
  if set then psr ||| (1#32 <<< f.bit) else psr &&& ~~~(1#32 <<< f.bit)

/-- Replaces all four flags and keeps the other 28 bits. -/
def withFlags (psr : Word) (n z c v : Bool) : Word :=
  BitVec.ofBool n ++ BitVec.ofBool z ++ BitVec.ofBool c ++ BitVec.ofBool v ++
    psr.extractLsb' 0 28

/-- The four flags as a number, N highest. -/
def nzcv (psr : Word) : BitVec 4 :=
  psr.extractLsb' 28 4

theorem getLsbD_withFlags (psr : Word) (n z c v : Bool) (i : Nat) :
    (withFlags psr n z c v).getLsbD i =
      if i < 28 then psr.getLsbD i
      else if i = 28 then v else if i = 29 then c else if i = 30 then z
      else if i = 31 then n else false := by
  simp only [withFlags, BitVec.getLsbD_append, BitVec.getLsbD_extractLsb', BitVec.getLsbD_ofBool]
  rcases (by omega : i < 28 ∨ i = 28 ∨ i = 29 ∨ i = 30 ∨ i = 31 ∨ 31 < i) with
    h | rfl | rfl | rfl | rfl | h
  · simp [h]
  · simp
  · simp
  · simp
  · simp
  · have hi : i - 28 - 1 - 1 - 1 ≠ 0 := by omega
    simp [hi, show ¬ i < 28 by omega, show ¬ i - 28 < 1 by omega, show ¬ i - 28 - 1 < 1 by omega,
      show ¬ i - 28 - 1 - 1 < 1 by omega, show i ≠ 28 by omega, show i ≠ 29 by omega,
      show i ≠ 30 by omega, show i ≠ 31 by omega]

theorem flag_withFlags (psr : Word) (n z c v : Bool) (f : Flag) :
    flag (withFlags psr n z c v) f =
      match f with
      | .n => n
      | .z => z
      | .c => c
      | .v => v := by
  cases f <;> rw [flag, getLsbD_withFlags] <;> rfl

end Psr

/-! ## Conditions -/

/-- The condition of an instruction. -/
inductive Cond where
  | eq | ne | hs | lo | mi | pl | vs | vc | hi | ls | ge | lt | gt | le | al | nv
deriving DecidableEq

namespace Cond

/-- Every condition in the order of its encoding. -/
def all : Vector Cond 16 :=
  #v[eq, ne, hs, lo, mi, pl, vs, vc, hi, ls, ge, lt, gt, le, al, nv]

/-- The condition encoded by the top four bits of an instruction. -/
def ofBits (b : BitVec 4) : Cond :=
  all.get b.toFin

/-- Whether the condition holds for the flags of a status register.  The last
condition holds for none. -/
def passes (cond : Cond) (psr : Word) : Bool :=
  let n := Psr.flag psr .n
  let z := Psr.flag psr .z
  let c := Psr.flag psr .c
  let v := Psr.flag psr .v
  match cond with
  | eq => z
  | ne => !z
  | hs => c
  | lo => !c
  | mi => n
  | pl => !n
  | vs => v
  | vc => !v
  | hi => c && !z
  | ls => !c || z
  | ge => n == v
  | lt => n != v
  | gt => !z && n == v
  | le => z || n != v
  | al => true
  | nv => false

/-- A table of the condition: bit {lit}`i` is set when the condition holds for
flags of value {lit}`i`, so that generated code evaluates it with one shift. -/
def passMask (cond : Cond) : BitVec 16 :=
  (List.range 16).foldl
    (fun mask i =>
      if cond.passes (BitVec.ofNat 32 i <<< 28) then mask ||| (1#16 <<< i) else mask) 0

/-- The upper-case name of a condition. -/
def name : Cond → String
  | eq => "EQ" | ne => "NE" | hs => "HS" | lo => "LO"
  | mi => "MI" | pl => "PL" | vs => "VS" | vc => "VC"
  | hi => "HI" | ls => "LS" | ge => "GE" | lt => "LT"
  | gt => "GT" | le => "LE" | al => "AL" | nv => "NV"

/-- The suffix a condition adds to a mnemonic; the condition that always holds
adds none. -/
def suffix : Cond → String
  | al => ""
  | cond => cond.name.toLower

theorem getLsbD_passMask (cond : Cond) (i : Fin 16) :
    cond.passMask.getLsbD i = cond.passes (BitVec.ofNat 32 i <<< 28) := by
  cases cond <;> revert i <;> decide

theorem passes_congr {cond : Cond} {psr psr' : Word} (h : Psr.nzcv psr = Psr.nzcv psr') :
    cond.passes psr = cond.passes psr' := by
  have key : ∀ i, i < 4 → psr.getLsbD (28 + i) = psr'.getLsbD (28 + i) := by
    intro i hi
    have := congrArg (fun b => b.getLsbD i) h
    simpa [Psr.nzcv, hi] using this
  simp only [passes, Psr.flag, Flag.bit, key 0 (by decide), key 1 (by decide),
    key 2 (by decide), key 3 (by decide)]

end Cond

end ArmEmulator
