import ArmEmulator.Proofs.Guest.Execution

/-!
# Arithmetic of data processing

What a data-processing instruction computes, said without the formulas that compute it.
Shifts are moves inside a longer word.  Sums and differences are those of numbers: the
result is the number modulo the range of a word, the carry and the overflow say whether
the unsigned and the signed number leave their range.  Logical operations work on each
bit by itself.

Main results:

- Theorem {lit}`ShiftedReg.apply_eq_moved`: the barrel shifter is a move inside a longer
  word, for every amount and with the special meanings of zero.
- Theorem {lit}`AluOp.exists_exact`: the results and flags are those of the numbers.
- Theorem {lit}`Instruction.execute_computes`: all that a data-processing instruction does
  to the processor.
-/

namespace ArmEmulator

/-! ## Moves inside a longer word -/

namespace Word

/-- The word moved up by {lit}`n` bits and filled up with zeros, and the last bit that left
it. -/
def shiftedLeft (value : Word) (n : Nat) : Word × Bool :=
  ((value ++ 0#32).extractLsb' (32 - n) 32, (value ++ 0#32).getLsbD (64 - n))

/-- The word moved down by {lit}`n` bits and filled up from {lit}`high`, and the last bit
that left it. -/
def shiftedRight (high value : Word) (n : Nat) : Word × Bool :=
  ((high ++ value).extractLsb' n 32, (high ++ value).getLsbD (n - 1))

/-- A word of copies of the sign. -/
def signs (value : Word) : Word :=
  if value.msb then BitVec.allOnes 32 else 0

theorem getLsbD_signs (value : Word) {i : Nat} (hi : i < 32) :
    value.signs.getLsbD i = value.msb := by
  unfold signs
  cases value.msb with
  | true => exact BitVec.getLsbD_allOnes.trans (decide_eq_true hi)
  | false => exact BitVec.getLsbD_zero

/-- Moving up, bit by bit. -/
theorem shiftedLeft_eq {value result : Word} {n : Nat} (hpos : 0 < n) (hlt : n < 32)
    (hbits : ∀ i < 32, result.getLsbD i = (decide (n ≤ i) && value.getLsbD (i - n))) :
    value.shiftedLeft n = (result, value.getLsbD (32 - n)) := by
  refine Prod.ext ?_ ?_
  · apply BitVec.eq_of_getLsbD_eq
    intro i hi
    rw [hbits i hi, shiftedLeft, BitVec.getLsbD_extractLsb', BitVec.getLsbD_append]
    by_cases h : n ≤ i
    · simp [h, hi, show ¬ 32 - n + i < 32 by omega, show 32 - n + i - 32 = i - n by omega]
    · simp [h, show 32 - n + i < 32 by omega]
  · rw [shiftedLeft, BitVec.getLsbD_append, if_neg (by omega), show 64 - n - 32 = 32 - n by omega]

/-- Moving down, bit by bit. -/
theorem shiftedRight_eq {high value result : Word} {n : Nat} (hpos : 0 < n) (hle : n ≤ 32)
    (hbits : ∀ i < 32, result.getLsbD i =
      if i + n < 32 then value.getLsbD (i + n) else high.getLsbD (i + n - 32)) :
    shiftedRight high value n = (result, value.getLsbD (n - 1)) := by
  refine Prod.ext ?_ ?_
  · apply BitVec.eq_of_getLsbD_eq
    intro i hi
    rw [hbits i hi, shiftedRight, BitVec.getLsbD_extractLsb', BitVec.getLsbD_append,
      Nat.add_comm n]
    simp [hi]
  · rw [shiftedRight, BitVec.getLsbD_append, if_pos (by omega)]

end Word

/-! ## The barrel shifter -/

/-- A word shifted by an amount fixed in the instruction.  A left shift fills up with
zeros, a logical right shift too, an arithmetic one with the sign, and a rotation with the
word itself.  An amount of zero is no left shift, a right shift by the whole word, and a
rotation by one bit that fills up with the carry. -/
def ShiftedReg.moved (r : ShiftedReg) (value : Word) (carry : Bool) : Word × Bool :=
  match r.shift, r.amount.toNat with
  | .lsl, 0 => (value, carry)
  | .lsl, n => value.shiftedLeft n
  | .lsr, 0 => Word.shiftedRight 0 value 32
  | .lsr, n => Word.shiftedRight 0 value n
  | .asr, 0 => Word.shiftedRight value.signs value 32
  | .asr, n => Word.shiftedRight value.signs value n
  | .ror, 0 => Word.shiftedRight ((BitVec.ofBool carry).setWidth 32) value 1
  | .ror, n => Word.shiftedRight value value n

section Shifter

variable (value : Word) {n : Nat}

theorem shiftLeft_eq_shiftedLeft (hpos : 0 < n) (hlt : n < 32) :
    (value <<< n, value.getLsbD (32 - n)) = value.shiftedLeft n := by
  rw [Word.shiftedLeft_eq hpos hlt]
  intro i hi
  rw [BitVec.getLsbD_shiftLeft, decide_eq_true hi, Bool.true_and, ← decide_not]
  simp only [Nat.not_lt]

theorem ushiftRight_eq_shiftedRight (hpos : 0 < n) (hle : n ≤ 32) :
    (value >>> n, value.getLsbD (n - 1)) = Word.shiftedRight 0 value n := by
  rw [Word.shiftedRight_eq hpos hle]
  intro i hi
  rw [BitVec.getLsbD_ushiftRight, Nat.add_comm n]
  split
  · rfl
  · simp [BitVec.getLsbD_of_ge value (i + n) (by omega)]

theorem sshiftRight_eq_shiftedRight (hpos : 0 < n) (hle : n ≤ 32) :
    (value.sshiftRight n, value.getLsbD (n - 1)) = Word.shiftedRight value.signs value n := by
  rw [Word.shiftedRight_eq hpos hle]
  intro i hi
  rw [BitVec.getLsbD_sshiftRight, Word.getLsbD_signs _ (by omega), Nat.add_comm n]
  simp [hi]

theorem rotateRight_eq_shiftedRight (hpos : 0 < n) (hlt : n < 32) :
    (value.rotateRight n, value.getLsbD (n - 1)) = Word.shiftedRight value value n := by
  rw [Word.shiftedRight_eq hpos (Nat.le_of_lt hlt)]
  intro i hi
  rw [BitVec.getLsbD_rotateRight, Nat.mod_eq_of_lt hlt, Nat.add_comm n]
  by_cases h : i + n < 32
  · simp [h, show i < 32 - n by omega]
  · simp [h, hi, show ¬ i < 32 - n by omega, show i - (32 - n) = i + n - 32 by omega]

theorem rotateThrough_eq_shiftedRight (carry : Bool) :
    (BitVec.ofBool carry ++ value.extractLsb' 1 31, value.getLsbD 0) =
      Word.shiftedRight ((BitVec.ofBool carry).setWidth 32) value 1 := by
  rw [Word.shiftedRight_eq (by decide) (by decide)]
  intro i hi
  rw [BitVec.getLsbD_append, BitVec.getLsbD_extractLsb', Nat.add_comm 1]
  by_cases h : i < 31
  · simp [h, Nat.not_le.2 h]
  · obtain rfl : i = 31 := by omega
    simp

/-- A word moved down by all but its sign holds nothing else. -/
theorem sshiftRight_last : value.sshiftRight 31 = value.sshiftRight 32 := by
  apply BitVec.eq_of_getLsbD_eq
  intro i hi
  simp only [BitVec.getLsbD_sshiftRight]
  by_cases h : i = 0
  · subst h
    rfl
  · simp [show ¬ 31 + i < 32 by omega, show ¬ 32 + i < 32 by omega]

/-- The barrel shifter moves a word inside a longer one. -/
theorem ShiftedReg.apply_eq_moved (r : ShiftedReg) (value : Word) (carry : Bool) :
    r.apply value carry = r.moved value carry := by
  have hlt : r.amount.toNat < 32 := r.amount.isLt
  unfold ShiftedReg.apply Shift.apply moved
  dsimp only
  rcases Nat.eq_zero_or_pos r.amount.toNat with hzero | hpos
  · rw [hzero]
    cases r.shift with
    | lsl => rfl
    | lsr =>
      show (0, value.msb) = Word.shiftedRight 0 value 32
      rw [← ushiftRight_eq_shiftedRight value (by decide) (by decide),
        BitVec.ushiftRight_eq_zero (by decide)]
      rfl
    | asr =>
      show (value.sshiftRight 31, value.msb) = Word.shiftedRight value.signs value 32
      rw [← sshiftRight_eq_shiftedRight value (by decide) (by decide), sshiftRight_last]
      rfl
    | ror => exact rotateThrough_eq_shiftedRight value carry
  · obtain ⟨n, hn⟩ : ∃ n, r.amount.toNat = n + 1 := Nat.exists_eq_succ_of_ne_zero (by omega)
    rw [hn] at hlt hpos ⊢
    cases r.shift with
    | lsl => exact shiftLeft_eq_shiftedLeft value hpos hlt
    | lsr => exact ushiftRight_eq_shiftedRight value hpos (by omega)
    | asr => exact sshiftRight_eq_shiftedRight value hpos (by omega)
    | ror => exact rotateRight_eq_shiftedRight value hpos hlt

end Shifter

/-! ## The second operand -/

namespace Operand

/-- Whether the operand is a register shifted by the amount in another. -/
def isShiftedByReg : Operand → Bool
  | regByReg _ _ _ => true
  | imm _ _ | reg _ => false

/-- The value and the carry of a second operand.  An immediate is rotated by twice its
rotation and then carries its top bit. -/
def moved? (operand : Operand) (addr : Word) (cpu : Cpu) : Option (Word × Bool) :=
  match operand with
  | imm imm8 rotate =>
    let value := imm8.setWidth 32
    let rotated := (Word.shiftedRight value value (2 * rotate.toNat)).1
    some (if rotate = 0 then (value, cpu.flag .c) else (rotated, rotated.getLsbD 31))
  | reg r => some (r.moved (cpu.readAt addr r.reg) (cpu.flag .c))
  | regByReg _ _ _ => none

theorem exists_moved {operand : Operand} (h : operand.isShiftedByReg = false) (addr : Word)
    (cpu : Cpu) : ∃ value carry, operand.moved? addr cpu = some (value, carry) := by
  cases operand with
  | imm imm8 rotate => exact ⟨_, _, rfl⟩
  | reg r => exact ⟨_, _, rfl⟩
  | regByReg reg shift amount => cases h

/-- Without a rotation the word of an immediate is its eight bits. -/
theorem immValue_zero (imm8 : BitVec 8) : immValue imm8 0 = imm8.setWidth 32 := by
  show BitVec.rotateRight (imm8.setWidth 32) 0 = _
  simp [BitVec.rotateRight_def]

/-- An operand is evaluated to its value and carry. -/
theorem eval?_eq_moved? (operand : Operand) (addr : Word) (cpu : Cpu) :
    operand.eval? addr cpu = operand.moved? addr cpu := by
  cases operand with
  | imm imm8 rotate =>
    by_cases h : rotate = 0
    · subst h
      rw [eval?, moved?]
      simp only [immValue_zero, if_true]
    · have hpos : rotate.toNat ≠ 0 := fun h0 => h (BitVec.eq_of_toNat_eq h0)
      have hlt : rotate.toNat < 16 := rotate.isLt
      have hrotated := rotateRight_eq_shiftedRight (imm8.setWidth 32) (n := 2 * rotate.toNat)
        (by omega) (by omega)
      simp only [eval?, moved?, if_neg h, ← hrotated]
      rfl
  | reg r =>
    simp only [eval?, moved?, ShiftedReg.apply_eq_moved]
  | regByReg reg shift amount => rfl

end Operand

/-! ## Results and flags -/

/-- The numbers that a word stands for as a signed number. -/
def Word.InSignedRange (x : Int) : Prop :=
  -0x80000000 ≤ x ∧ x < 0x80000000

instance (x : Int) : Decidable (Word.InSignedRange x) :=
  inferInstanceAs (Decidable (-0x80000000 ≤ x ∧ x < 0x80000000))

namespace AluResult

/-- The sum of two words: carry and overflow say that the unsigned and the signed sum leave
their range. -/
structure IsSum (a b : Word) (r : AluResult) : Prop where
  value : r.value.toNat = (a.toNat + b.toNat) % 0x100000000
  carry : r.carry = true ↔ 0x100000000 ≤ a.toNat + b.toNat
  overflow : ∃ v, r.overflow? = some v ∧ (v = true ↔ ¬ Word.InSignedRange (a.toInt + b.toInt))

/-- The difference of two words: carry says that nothing is borrowed, overflow that the
signed difference leaves its range. -/
structure IsDifference (a b : Word) (r : AluResult) : Prop where
  value : (r.value.toNat : Int) = (a.toNat - b.toNat) % 0x100000000
  carry : r.carry = true ↔ b.toNat ≤ a.toNat
  overflow : ∃ v, r.overflow? = some v ∧ (v = true ↔ ¬ Word.InSignedRange (a.toInt - b.toInt))

/-- A function of each bit of two words, with the carry of the shifter. -/
structure IsBitwise (f : Bool → Bool → Bool) (a b : Word) (carry : Bool) (r : AluResult) :
    Prop where
  value : ∀ i < 32, r.value.getLsbD i = f (a.getLsbD i) (b.getLsbD i)
  carry : r.carry = carry
  overflow : r.overflow? = none

theorem overflow_sum (a b : Word) :
    (~~~(a ^^^ b) &&& (a ^^^ (a + b))).msb = a.saddOverflow b := by
  rw [BitVec.saddOverflow_eq, BitVec.msb_and, BitVec.msb_not, BitVec.msb_xor, BitVec.msb_xor]
  cases a.msb <;> cases b.msb <;> cases (a + b).msb <;> rfl

theorem overflow_difference (a b : Word) :
    ((a ^^^ b) &&& (a ^^^ (a - b))).msb = a.ssubOverflow b := by
  rw [BitVec.ssubOverflow_eq, BitVec.msb_and, BitVec.msb_xor, BitVec.msb_xor]
  cases a.msb <;> cases b.msb <;> cases (a - b).msb <;> rfl

theorem isSum_sum (a b : Word) : (sum a b).IsSum a b where
  value := BitVec.toNat_add a b
  carry := by
    have := a.isLt
    have := b.isLt
    simp only [sum, decide_eq_true_eq, BitVec.lt_def, BitVec.toNat_add]
    omega
  overflow := by
    refine ⟨_, rfl, ?_⟩
    rw [overflow_sum, BitVec.saddOverflow]
    simp [Word.InSignedRange]
    omega

theorem isDifference_difference (a b : Word) : (difference a b).IsDifference a b where
  value := by
    have := a.isLt
    have := b.isLt
    simp only [difference, BitVec.toNat_sub]
    omega
  carry := by simp [difference, BitVec.le_def]
  overflow := by
    refine ⟨_, rfl, ?_⟩
    rw [overflow_difference, BitVec.ssubOverflow]
    simp [Word.InSignedRange]
    omega

end AluResult

namespace AluOp

/-- The operations that read the carry flag. -/
def readsCarry : AluOp → Bool
  | adc | sbc | rsc => true
  | _ => false

/-- What an operation makes of the first register and the second operand. -/
def Exact (op : AluOp) (a b : Word) (shifterCarry : Bool) (r : AluResult) : Prop :=
  match op with
  | and | tst => r.IsBitwise (fun x y => x && y) a b shifterCarry
  | eor | teq => r.IsBitwise (fun x y => x != y) a b shifterCarry
  | orr => r.IsBitwise (fun x y => x || y) a b shifterCarry
  | bic => r.IsBitwise (fun x y => x && !y) a b shifterCarry
  | mov => r.IsBitwise (fun _ y => y) a b shifterCarry
  | mvn => r.IsBitwise (fun _ y => !y) a b shifterCarry
  | add | cmn => r.IsSum a b
  | sub | cmp => r.IsDifference a b
  | rsb => r.IsDifference b a
  | adc | sbc | rsc => False

theorem exists_exact {op : AluOp} (h : op.readsCarry = false) (a b : Word) (shifterCarry : Bool) :
    ∃ r, op.compute? a b shifterCarry = some r ∧ op.Exact a b shifterCarry r := by
  have hlogical : ∀ {value : Word} {f : Bool → Bool → Bool},
      (∀ i < 32, value.getLsbD i = f (a.getLsbD i) (b.getLsbD i)) →
        (AluResult.logical value shifterCarry).IsBitwise f a b shifterCarry :=
    fun hvalue => ⟨hvalue, rfl, rfl⟩
  cases op with
  | and => exact ⟨_, rfl, hlogical (by simp)⟩
  | tst => exact ⟨_, rfl, hlogical (by simp)⟩
  | eor => exact ⟨_, rfl, hlogical (by simp)⟩
  | teq => exact ⟨_, rfl, hlogical (by simp)⟩
  | orr => exact ⟨_, rfl, hlogical (by simp)⟩
  | bic => exact ⟨_, rfl, hlogical (by simp +contextual)⟩
  | mov => exact ⟨_, rfl, hlogical (by simp)⟩
  | mvn => exact ⟨_, rfl, hlogical (by simp +contextual)⟩
  | add => exact ⟨_, rfl, AluResult.isSum_sum a b⟩
  | cmn => exact ⟨_, rfl, AluResult.isSum_sum a b⟩
  | sub => exact ⟨_, rfl, AluResult.isDifference_difference a b⟩
  | cmp => exact ⟨_, rfl, AluResult.isDifference_difference a b⟩
  | rsb => exact ⟨_, rfl, AluResult.isDifference_difference b a⟩
  | adc => cases h
  | sbc => cases h
  | rsc => cases h

end AluOp

/-! ## The status -/

/-- A status that is another one but for the flags, which describe a result.  Without an
overflow of its own the result clears that flag. -/
structure Psr.Describes (r : AluResult) (psr psr' : Word) : Prop where
  negative : flag psr' .n = true ↔ r.value.toInt < 0
  zero : flag psr' .z = true ↔ r.value.toNat = 0
  carry : flag psr' .c = r.carry
  overflow : flag psr' .v = r.overflow?.getD false
  rest : ∀ i < 28, psr'.getLsbD i = psr.getLsbD i

/-- The flags are set so that they describe the result. -/
theorem Cpu.describes_setResultFlags (cpu : Cpu) (r : AluResult) :
    Psr.Describes r cpu.cpsr (cpu.setResultFlags r).cpsr := by
  obtain ⟨overflow, hstatus⟩ : ∃ overflow, overflow = r.overflow?.getD false ∧
      (cpu.setResultFlags r).cpsr =
        Psr.withFlags cpu.cpsr r.value.msb (r.value == 0) r.carry overflow := by
    unfold setResultFlags
    cases r.overflow? with
    | none => exact ⟨_, rfl, rfl⟩
    | some overflow => exact ⟨_, rfl, rfl⟩
  rw [hstatus.2]
  refine ⟨?_, ?_, ?_, ?_, ?_⟩
  · simp [Psr.flag_withFlags, BitVec.msb_eq_toInt]
  · simp [Psr.flag_withFlags, ← BitVec.toNat_inj]
  · simp [Psr.flag_withFlags]
  · simp [Psr.flag_withFlags, hstatus.1]
  · intro i hi
    rw [Psr.getLsbD_withFlags, if_pos hi]

/-! ## The processor after an instruction -/

/-- What data processing at {lit}`addr` with a given result does to the processor. -/
structure DataProcessing.Updates (d : DataProcessing) (addr : Word) (r : AluResult)
    (cpu cpu' : Cpu) : Prop where
  written : d.op.isTest = false → d.rd ≠ .pc → cpu'.reg d.rd = r.value
  jumped : d.op.isTest = false → d.rd = .pc → cpu'.pc.toNat = r.value.toNat / 4 * 4
  advanced : d.op.isTest = true ∨ d.rd ≠ .pc → cpu'.pc = addr + 4
  kept : ∀ s, s ≠ .pc → d.op.isTest = true ∨ s ≠ d.rd → cpu'.reg s = cpu.reg s
  described : d.op.isTest = true ∨ d.setFlags = true ∧ d.rd ≠ .pc →
    Psr.Describes r cpu.cpsr cpu'.cpsr
  restored : d.op.isTest = false → d.rd = .pc → d.setFlags = true → cpu'.cpsr = cpu.spsr
  cpsr_kept : d.op.isTest = false → d.setFlags = false → cpu'.cpsr = cpu.cpsr
  spsr_kept : cpu'.spsr = cpu.spsr

/-- Clearing the lowest two bits rounds down to a multiple of four. -/
theorem Word.toNat_aligned (target : Word) : (target &&& ~~~3#32).toNat = target.toNat / 4 * 4 := by
  have hmask : ∀ i < 32, (~~~3#32).getLsbD i = decide (2 ≤ i) := by decide
  have hmoved : target &&& ~~~3#32 = target >>> 2 <<< 2 := by
    apply BitVec.eq_of_getLsbD_eq
    intro i hi
    rw [BitVec.getLsbD_and, hmask i hi, BitVec.getLsbD_shiftLeft, BitVec.getLsbD_ushiftRight]
    by_cases h : 2 ≤ i
    · simp [hi, Nat.not_lt.2 h, show 2 + (i - 2) = i by omega, h]
    · simp [h, Nat.lt_of_not_le h]
  have hlt := target.isLt
  rw [hmoved, BitVec.toNat_shiftLeft, BitVec.toNat_ushiftRight, Nat.shiftLeft_eq,
    Nat.shiftRight_eq_div_pow]
  omega

namespace Cpu

variable (cpu : Cpu)

@[simp]
theorem reg_setResultFlags (r : AluResult) (s : Reg) :
    (cpu.setResultFlags r).reg s = cpu.reg s := by
  unfold setResultFlags
  cases r.overflow? <;> rfl

@[simp]
theorem spsr_setResultFlags (r : AluResult) : (cpu.setResultFlags r).spsr = cpu.spsr := by
  unfold setResultFlags
  cases r.overflow? <;> rfl

theorem reg_setPc_of_ne {s : Reg} (hs : s ≠ .pc) (target : Word) :
    (cpu.setPc target).reg s = cpu.reg s :=
  (EqOffPc.setPc cpu target).reg s hs

@[simp]
theorem cpsr_setPc (target : Word) : (cpu.setPc target).cpsr = cpu.cpsr := rfl

@[simp]
theorem spsr_setPc (target : Word) : (cpu.setPc target).spsr = cpu.spsr := rfl

end Cpu

namespace DataProcessing

variable {d : DataProcessing} {addr : Word} {cpu : Cpu} {r : AluResult}

/-- A comparison sets the flags. -/
theorem updates_of_isTest (htest : d.op.isTest = true) :
    d.Updates addr r cpu ((cpu.setResultFlags r).advance addr) where
  written h := by simp [htest] at h
  jumped h := by simp [htest] at h
  advanced _ := Cpu.pc_advance ..
  kept s hs _ := by simp [Cpu.advance, Cpu.reg_setPc_of_ne _ hs]
  described _ := cpu.describes_setResultFlags r
  restored h := by simp [htest] at h
  cpsr_kept h := by simp [htest] at h
  spsr_kept := by simp [Cpu.advance]

/-- A result for the program counter is a jump. -/
theorem updates_of_jump (htest : d.op.isTest = false) (hrd : d.rd = .pc) :
    d.Updates addr r cpu ((if d.setFlags then cpu.restoreStatus else cpu).jump r.value) where
  written _ h := absurd hrd h
  jumped _ _ := by
    rw [Cpu.jump, Cpu.pc_setPc]
    exact Word.toNat_aligned r.value
  advanced h := by simp [htest, hrd] at h
  kept s hs _ := by
    rw [Cpu.jump, Cpu.reg_setPc_of_ne _ hs]
    split <;> rfl
  described h := by simp [htest, hrd] at h
  restored _ _ hflags := by simp [Cpu.jump, hflags, Cpu.restoreStatus]
  cpsr_kept _ hflags := by simp [Cpu.jump, hflags]
  spsr_kept := by
    rw [Cpu.jump, Cpu.spsr_setPc]
    split <;> rfl

/-- Another result is written to its register, and sets the flags if asked to. -/
theorem updates_of_write (htest : d.op.isTest = false) (hrd : d.rd ≠ .pc) :
    d.Updates addr r cpu ((if d.setFlags then (cpu.setReg d.rd r.value).setResultFlags r
      else cpu.setReg d.rd r.value).advance addr) where
  written _ _ := by
    rw [Cpu.advance, Cpu.reg_setPc_of_ne _ hrd]
    split <;> simp
  jumped _ h := absurd h hrd
  advanced _ := Cpu.pc_advance ..
  kept s hs hkept := by
    have hne : d.rd ≠ s := by
      rintro rfl
      simp [htest] at hkept
    rw [Cpu.advance, Cpu.reg_setPc_of_ne _ hs]
    split <;> simp [Cpu.reg_setReg_of_ne _ hne]
  described h := by
    have hflags : d.setFlags = true := by simpa [htest, hrd] using h
    rw [if_pos hflags]
    exact (cpu.setReg d.rd r.value).describes_setResultFlags r
  restored _ h := absurd h hrd
  cpsr_kept _ hflags := by simp [Cpu.advance, hflags]
  spsr_kept := by
    rw [Cpu.advance, Cpu.spsr_setPc]
    split <;> simp

/-- All that data processing does to the processor. -/
theorem exists_updates (hop : d.op.readsCarry = false) {b : Word} {shifterCarry : Bool}
    (hb : d.operand.moved? addr cpu = some (b, shifterCarry)) :
    ∃ r cpu', d.op.Exact (cpu.readAt addr d.rn) b shifterCarry r ∧
      d.execute? addr cpu = some cpu' ∧ d.Updates addr r cpu cpu' := by
  obtain ⟨r, hr, hexact⟩ := AluOp.exists_exact hop (cpu.readAt addr d.rn) b shifterCarry
  refine ⟨r, ?_⟩
  simp only [execute?, Operand.eval?_eq_moved?, hb, hr, Option.bind_eq_bind, Option.bind_some]
  by_cases htest : d.op.isTest = true
  · rw [if_pos htest]
    exact ⟨_, hexact, rfl, updates_of_isTest htest⟩
  · rw [if_neg htest]
    rw [Bool.not_eq_true] at htest
    by_cases hrd : d.rd = .pc
    · rw [if_pos hrd]
      exact ⟨_, hexact, rfl, updates_of_jump htest hrd⟩
    · rw [if_neg hrd]
      exact ⟨_, hexact, rfl, updates_of_write htest hrd⟩

/-- Where the condition holds, an instruction that can be computed is executed. -/
theorem execute_eq_of_some {ω : Type} {cond : Cond} {cpu' : Cpu}
    (hpasses : cond.passes cpu.cpsr = true) (h : d.execute? addr cpu = some cpu') (word : Word)
    (bus : Bus ω) :
    (⟨cond, .dataProcessing d⟩ : Instruction).execute addr word cpu bus =
      .ok (.executed, cpu') bus := by
  simp only [Instruction.execute, if_pos hpasses, h]
  rfl

end DataProcessing

/-- Where the condition holds, data processing without the carry flag computes the exact result
of the first register and the second operand, updates the processor with it, and does nothing
else. -/
theorem Instruction.execute_computes {ω : Type} {cond : Cond} {d : DataProcessing} {cpu : Cpu}
    (hpasses : cond.passes cpu.cpsr = true) (hop : d.op.readsCarry = false)
    (hoperand : d.operand.isShiftedByReg = false) (addr word : Word) (bus : Bus ω) :
    ∃ b shifterCarry r cpu', d.operand.moved? addr cpu = some (b, shifterCarry) ∧
      d.op.Exact (cpu.readAt addr d.rn) b shifterCarry r ∧
      (⟨cond, .dataProcessing d⟩ : Instruction).execute addr word cpu bus =
        .ok (.executed, cpu') bus ∧
      d.Updates addr r cpu cpu' := by
  obtain ⟨b, shifterCarry, hb⟩ := Operand.exists_moved hoperand addr cpu
  obtain ⟨r, cpu', hr, hexecute, hupdates⟩ := DataProcessing.exists_updates hop hb
  exact ⟨b, shifterCarry, r, cpu', hb, hr,
    DataProcessing.execute_eq_of_some hpasses hexecute word bus, hupdates⟩

/-- A reversed subtraction from a word that is rotated through the carry, whose signed result
leaves its range. -/
theorem Instruction.execute_computes_rsb :
    let d : DataProcessing := ⟨.rsb, true, .r0, .r1, .reg ⟨.r2, .ror, 0⟩⟩
    let cpu := { (Cpu.initial.setReg .r0 1).setReg .r2 1 with cpsr := 0x20000000 }
    let bus := Bus.ofRam (.zeroed 0 0) ()
    (Cond.passes .hs cpu.cpsr = true ∧ d.op.readsCarry = false ∧
        d.operand.isShiftedByReg = false) ∧
      ∃ cpu', (⟨.hs, .dataProcessing d⟩ : Instruction).execute 0x8000 0x20701062 cpu bus =
          .ok (.executed, cpu') bus ∧
        cpu'.reg .r1 = 0x7fffffff ∧ Psr.flag cpu'.cpsr .v = true ∧ cpu'.pc = 0x8004 := by
  intro d cpu bus
  obtain ⟨b, shifterCarry, r, cpu', hb, hr, hexecute, hupdates⟩ :=
    Instruction.execute_computes (d := d) (by decide : Cond.passes .hs cpu.cpsr = true) rfl rfl
      0x8000 0x20701062 bus
  have hrotated : d.operand.moved? 0x8000 cpu = some (0x80000000, true) := by decide
  rw [hrotated] at hb
  obtain ⟨rfl, rfl⟩ := Prod.mk.inj (Option.some.inj hb)
  have hdifference : r.IsDifference 0x80000000 1 := hr
  have hvalue : r.value.toNat = 0x7fffffff := by
    have := hdifference.value
    simp at this
    omega
  obtain ⟨v, hv, hoverflow⟩ := hdifference.overflow
  refine ⟨⟨by decide, rfl, rfl⟩, cpu', hexecute, ?_, ?_, hupdates.advanced (.inr (by decide))⟩
  · exact (hupdates.written rfl (by decide)).trans (BitVec.eq_of_toNat_eq hvalue)
  · rw [(hupdates.described (.inr ⟨rfl, by decide⟩)).overflow, hv, Option.getD_some, hoverflow]
    rintro ⟨hlow, -⟩
    exact absurd hlow (by decide)

end ArmEmulator
