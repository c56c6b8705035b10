import ArmEmulator.Guest.Assembly
import ArmEmulator.Guest.Decoding

/-!
# Assembling and decoding

Every assembled word is a disjunction of fields that do not overlap, so reading
the bits of one field gives that field.  The encoding has patterns inside
patterns: register branches and status transfers lie among the data-processing
words, multiplications among those with a register operand.  A word that is
assembled as one class is shown to fall into none of the others.

Main results:

- Theorem {lit}`Assembly.encodeImm?_isSome_iff`: a word can be assembled as an
  immediate just when eight bits rotated by an even amount give it.
- Theorem {lit}`Assembly.decode_assembled`: an assembled word decodes to the
  instruction it was assembled from.
-/

namespace ArmEmulator

/-! ## Fields of a word -/

/-- The word with one field and zeros elsewhere. -/
def Word.field {m : Nat} (f : BitVec m) (lsb : Nat) : Word :=
  f.setWidth 32 <<< lsb

namespace Word

variable {m lsb : Nat} (f : BitVec m)

theorem getLsbD_field (i : Nat) :
    (field f lsb).getLsbD i = (decide (i < 32) && decide (lsb ≤ i) && f.getLsbD (i - lsb)) := by
  by_cases h : i < 32 <;> by_cases h' : lsb ≤ i <;> simp [field, h, h']

@[simp]
theorem extractLsb'_field (fits : lsb + m ≤ 32) : (field f lsb).extractLsb' lsb m = f := by
  ext i h
  rw [BitVec.getElem_extractLsb', getLsbD_field]
  simp [h]
  omega

@[simp]
theorem extractLsb'_field_of_disjoint {n start : Nat}
    (disjoint : start + n ≤ lsb ∨ lsb + m ≤ start) :
    (field f lsb).extractLsb' start n = 0#n := by
  ext i h
  simp only [BitVec.getElem_extractLsb', getLsbD_field, BitVec.getElem_zero]
  by_cases low : lsb ≤ start + i
  · rw [BitVec.getLsbD_of_ge f (start + i - lsb) (by omega), Bool.and_false]
  · simp [low]

@[simp]
theorem getElem_field_ofBool (b : Bool) (h : lsb < 32) : (field (.ofBool b) lsb)[lsb] = b := by
  rw [← BitVec.getLsbD_eq_getElem, getLsbD_field]
  simp [h]

@[simp]
theorem getElem_field_of_disjoint {i : Nat} (h : i < 32) (disjoint : i < lsb ∨ lsb + m ≤ i) :
    (field f lsb)[i] = false := by
  rw [← BitVec.getLsbD_eq_getElem, getLsbD_field]
  by_cases low : lsb ≤ i
  · rw [BitVec.getLsbD_of_ge f (i - lsb) (by omega), Bool.and_false]
  · simp [low]

theorem and_low (w mask : Word) {m : Nat} (h : mask.toNat = Nat.pow 2 m - 1) :
    w &&& mask = field (w.setWidth m) 0 := by
  apply BitVec.eq_of_toNat_eq
  have low : w.toNat &&& mask.toNat = w.toNat % Nat.pow 2 m := by
    rw [h]
    exact Nat.and_two_pow_sub_one_eq_mod _ _
  have := Nat.mod_le w.toNat (Nat.pow 2 m)
  simp only [field, BitVec.toNat_and, low, BitVec.shiftLeft_zero, BitVec.toNat_setWidth]
  exact (Nat.mod_eq_of_lt (by have := w.isLt; omega)).symm

/-! ## Rotation -/

theorem rotateRight_rotateLeft (w : Word) {n : Nat} (h : n < 32) :
    (w.rotateLeft n).rotateRight n = w := by
  apply BitVec.eq_of_getLsbD_eq
  intro i hi
  rw [BitVec.getLsbD_rotateRight, BitVec.getLsbD_rotateLeft, BitVec.getLsbD_rotateLeft,
    Nat.mod_eq_of_lt h]
  by_cases low : i < 32 - n
  · simp [low, show ¬ n + i < n by omega, show n + i < 32 by omega]
  · simp [low, hi, show i - (32 - n) < n by omega, show 32 - n + (i - (32 - n)) = i by omega]

theorem rotateLeft_rotateRight (w : Word) {n : Nat} (h : n < 32) :
    (w.rotateRight n).rotateLeft n = w := by
  apply BitVec.eq_of_getLsbD_eq
  intro i hi
  rw [BitVec.getLsbD_rotateLeft, BitVec.getLsbD_rotateRight, BitVec.getLsbD_rotateRight,
    Nat.mod_eq_of_lt h]
  by_cases low : i < n
  · simp [low, hi, show ¬ 32 - n + i < 32 - n by omega, show 32 - n + i < 32 by omega,
      show 32 - n + i - (32 - n) = i by omega]
  · simp [low, hi, show i - n < 32 - n by omega, show n + (i - n) = i by omega]

end Word

/-! ## Numbers of registers and conditions -/

/-- The register an assembly number names. -/
def Reg.numbered (n : Word) : Reg :=
  ofBits (n.setWidth 4)

theorem Reg.index_numbered {n : Word} (h : n < 16) : (numbered n).index.val = n.toNat := by
  have : n.toNat < 16 := h
  simp [numbered, ofBits]
  omega

/-- The condition an assembly number names. -/
def Cond.numbered (n : Word) : Cond :=
  ofBits (n.setWidth 4)

/-- A number that fits in some bits is those bits. -/
theorem Word.exists_eq_setWidth {n : Word} {m : Nat} (h : n.toNat < Nat.pow 2 m) :
    ∃ f : BitVec m, n = f.setWidth 32 := by
  have small : n.toNat % Nat.pow 2 m = n.toNat := Nat.mod_eq_of_lt h
  refine ⟨n.setWidth m, BitVec.eq_of_toNat_eq ?_⟩
  rw [BitVec.toNat_setWidth, BitVec.toNat_setWidth]
  exact ((congrArg (· % _) small).trans (Nat.mod_eq_of_lt n.isLt)).symm

@[simp]
theorem Reg.numbered_setWidth (f : BitVec 4) : numbered (f.setWidth 32) = ofBits f := by
  simp [numbered]

theorem Reg.ofBits_eq_pc_iff : ∀ f : BitVec 4, ofBits f = .pc ↔ f.setWidth 32 = 15#32 := by
  decide

@[simp]
theorem Cond.numbered_setWidth (f : BitVec 4) : numbered (f.setWidth 32) = ofBits f := by
  simp [numbered]

namespace Assembly

open Word

/-! ## Condition and S bit -/

section
variable (c w : Word)

theorem withCond_eq : withCond c w = (w &&& 0x0fffffff#32) ||| (c <<< 28) := rfl

theorem getLsbD_withCond {i : Nat} (h : i < 28) : (withCond c w).getLsbD i = w.getLsbD i := by
  have mask : ∀ i : Fin 28, (0x0fffffff#32).getLsbD i = true := by decide
  rw [withCond_eq, BitVec.getLsbD_or, BitVec.getLsbD_and, mask ⟨i, h⟩]
  simp [h]

@[simp]
theorem getElem_withCond {i : Nat} (h : i < 32) (below : i < 28) :
    (withCond c w)[i] = w[i] :=
  getLsbD_withCond c w below

@[simp]
theorem extractLsb'_withCond {start n : Nat} (h : start + n ≤ 28) :
    (withCond c w).extractLsb' start n = w.extractLsb' start n := by
  ext i hi
  rw [BitVec.getElem_extractLsb', BitVec.getElem_extractLsb', getLsbD_withCond c w (by omega)]

theorem cond_withCond (f : BitVec 4) : (withCond (f.setWidth 32) w).extractLsb' 28 4 = f := by
  have mask : (0x0fffffff#32).extractLsb' 28 4 = 0#4 := by decide
  rw [withCond_eq, BitVec.extractLsb'_or, BitVec.extractLsb'_and, mask, BitVec.and_zero,
    BitVec.zero_or]
  exact Word.extractLsb'_field f (by decide)

theorem decode_withCond (f : BitVec 4) :
    Instruction.decode (withCond (f.setWidth 32) w) =
      ⟨.numbered (f.setWidth 32), Operation.decode (withCond (f.setWidth 32) w)⟩ := by
  rw [Instruction.decode, cond_withCond, Cond.numbered_setWidth]

/-- The S bit as it is requested: added to the word or not. -/
def withSIf (s : Bool) (w : Word) : Word :=
  if s then withS w else w

theorem withSIf_eq (s : Bool) : withSIf s w = w ||| field (.ofBool s) 20 := by
  cases s <;> simp [withSIf, withS, field]

end

/-! ## Immediates -/

/-- A rotation represents the words that it brings back into eight bits. -/
theorem exists_immValue_iff {value : Word} {rotate : BitVec 4} :
    (∃ imm8, Operand.immValue imm8 rotate = value) ↔
      value.rotateLeft (2 * rotate.toNat) ≤ 0xff#32 := by
  have := rotate.isLt
  constructor
  · rintro ⟨imm8, rfl⟩
    rw [Operand.immValue, rotateLeft_rotateRight _ (by omega), BitVec.le_def]
    have := imm8.isLt
    simp
    omega
  · intro fits
    have byte : ((value.rotateLeft (2 * rotate.toNat)).setWidth 8).setWidth 32 =
        value.rotateLeft (2 * rotate.toNat) := by
      have : (value.rotateLeft (2 * rotate.toNat)).toNat ≤ 255 := fits
      apply BitVec.eq_of_toNat_eq
      rw [BitVec.toNat_setWidth, BitVec.toNat_setWidth]
      omega
    refine ⟨(value.rotateLeft (2 * rotate.toNat)).setWidth 8, ?_⟩
    rw [Operand.immValue, byte, rotateRight_rotateLeft _ (by omega)]

/-- The two fields of an immediate, whose rotation is the smallest of those that represent
the word. -/
theorem encodeImm?_eq_some {value operand : Word} (found : encodeImm? value = some operand) :
    ∃ imm8 rotate, operand = field rotate 8 ||| field imm8 0 ∧
      Operand.immValue imm8 rotate = value ∧
      ∀ imm8' rotate', Operand.immValue imm8' rotate' = value → rotate ≤ rotate' := by
  obtain ⟨before, number, behind, range, here, missed⟩ := List.findSome?_eq_some_iff.1 found
  have small : number < 16 := by
    rw [← List.mem_range, range]
    simp
  obtain ⟨rotate, rfl⟩ : ∃ rotate : BitVec 4, rotate.toNat = number :=
    ⟨.ofNat 4 number, by rw [BitVec.toNat_ofNat]; omega⟩
  simp only [Option.ite_none_right_eq_some, Option.some.injEq] at here
  obtain ⟨fits, rfl⟩ := here
  obtain ⟨imm8, rfl⟩ := exists_immValue_iff.2 fits
  refine ⟨imm8, rotate, ?_, rfl, ?_⟩
  · have shifted : BitVec.ofNat 32 (rotate.toNat <<< 8) = field rotate 8 := by
      apply BitVec.eq_of_toNat_eq
      simp [field, Nat.shiftLeft_eq]
    rw [shifted, Operand.immValue, rotateLeft_rotateRight _ (by omega)]
    simp only [field, BitVec.shiftLeft_zero]
  · -- the rotations that were tried before are those that are smaller
    intro imm8' rotate' means
    refine Decidable.byContradiction fun less => ?_
    have less : rotate'.toNat < rotate.toNat := Nat.lt_of_not_le less
    have tried : rotate'.toNat ∈ before := by
      obtain ⟨count, -, rfl, rest⟩ :=
        List.range'_eq_append_iff.1 (List.range_eq_range'.symm.trans range)
      have first := (List.range'_eq_cons_iff.1 rest.symm).1
      exact List.mem_range'_1.2 ⟨by omega, by omega⟩
    have refused := missed _ tried
    simp only [ite_eq_right_iff, reduceCtorEq, imp_false] at refused
    exact refused (exists_immValue_iff.1 ⟨imm8', means⟩)

theorem encodeImm?_isSome_iff {value : Word} :
    (encodeImm? value).isSome = true ↔ ∃ imm8 rotate, Operand.immValue imm8 rotate = value := by
  constructor
  · intro found
    obtain ⟨operand, here⟩ := Option.isSome_iff_exists.1 found
    obtain ⟨imm8, rotate, -, means, -⟩ := encodeImm?_eq_some here
    exact ⟨imm8, rotate, means⟩
  · rintro ⟨imm8, rotate, means⟩
    rw [encodeImm?, List.findSome?_isSome_iff]
    refine ⟨rotate.toNat, List.mem_range.2 rotate.isLt, ?_⟩
    have fits := exists_immValue_iff.1 ⟨imm8, means⟩
    simp [fits]

/-! ## Data processing -/

theorem dataWord_eq (op : AluOp) (rd rn : BitVec 4) (operand : Word) :
    dataWord op (rd.setWidth 32) (rn.setWidth 32) operand =
      field 0xe#4 28 ||| field op.bits 21 ||| field (.ofBool op.isTest) 20 ||| field rn 16 |||
        field rd 12 ||| operand := by
  cases h : op.isTest <;> simp [dataWord, h, field, always]

theorem ofDataWord_of_fields {w : Word} {op : AluOp} {setFlags : Bool} {rn rd : BitVec 4}
    (operand : Operand) (hop : w.extractLsb' 21 4 = op.bits) (hs : w.getLsbD 20 = setFlags)
    (hrn : w.extractLsb' 16 4 = rn) (hrd : w.extractLsb' 12 4 = rd)
    (sets : op.isTest = true → setFlags = true) :
    Operation.ofDataWord w operand =
      .dataProcessing { op, setFlags, rn := .ofBits rn, rd := .ofBits rd, operand } := by
  have data : (op.isTest && !setFlags) = false := by
    cases test : op.isTest
    · rfl
    · simp [sets test]
  simp only [Operation.ofDataWord, Word.regAt, hop, hs, hrn, hrd, AluOp.ofBits_bits, data]
  rfl

section
variable (c : Word) (op : AluOp) (s : Bool) (rd rn : BitVec 4)

/-- The second operand of a data-processing word is anything outside the bits of
the operation, the S bit and the two registers. -/
theorem ofDataWord_dataWord (operand : Word) (o : Operand)
    (apart : ∀ start n, 12 ≤ start → start + n ≤ 25 → operand.extractLsb' start n = 0#n) :
    Operation.ofDataWord (withCond c (withSIf s
        (dataWord op (rd.setWidth 32) (rn.setWidth 32) operand))) o =
      .dataProcessing {
        op, setFlags := op.isTest || s, rn := .ofBits rn, rd := .ofBits rd, operand := o } := by
  have sBit : operand[20] = false := by
    have := congrArg (·[0]) (apart 20 1 (by decide) (by decide))
    simpa using this
  rw [withSIf_eq, dataWord_eq]
  apply ofDataWord_of_fields
  case sets => simp +contextual
  all_goals simp [BitVec.extractLsb'_or, apart, sBit]

theorem decode_register {w : Word} (h : w.extractLsb' 25 3 = 0#3) (bit : w[4] = false) :
    Operation.decode w = Operation.ofDataWord w (.reg w.shiftedReg) := by
  have noBranch : w &&& 0x0ffffff0#32 ≠ 0x012fff10#32 := by
    intro isBranch
    have := congrArg (·[4]) isBranch
    simp [bit] at this
  rw [Operation.decode, h]
  simp [Operation.ofRegisterWord, bit, noBranch]

/-- An immediate decodes to the fields that it was encoded with. -/
theorem decode_dpImm_fields {imm : Word} {imm8 : BitVec 8} {rotate : BitVec 4}
    (found : encodeImm? imm = some (field rotate 8 ||| field imm8 0)) :
    ∃ word, dpImm op (rd.setWidth 32) (rn.setWidth 32) imm = .ok word ∧
      Operation.decode (withCond c (withSIf s word)) =
        .dataProcessing {
          op, setFlags := op.isTest || s, rn := .ofBits rn, rd := .ofBits rd,
          operand := .imm imm8 rotate } := by
  refine ⟨_, by rw [dpImm, found], ?_⟩
  have immediate : ((1 <<< 25) ||| (field rotate 8 ||| field imm8 0) : Word) =
      field 0b001#3 25 ||| (field rotate 8 ||| field imm8 0) := rfl
  have data := ofDataWord_dataWord c op s rd rn
    (field 0b001#3 25 ||| (field rotate 8 ||| field imm8 0)) (.imm imm8 rotate)
    (by intros; simp (disch := omega) [BitVec.extractLsb'_or])
  rw [immediate, ← data, Operation.decode, withSIf_eq, dataWord_eq]
  simp [BitVec.extractLsb'_or]

theorem decode_dpImm {imm : Word}
    (encodable : ∃ imm8 rotate, Operand.immValue imm8 rotate = imm) :
    ∃ word imm8 rotate, dpImm op (rd.setWidth 32) (rn.setWidth 32) imm = .ok word ∧
      Operand.immValue imm8 rotate = imm ∧
      Operation.decode (withCond c (withSIf s word)) =
        .dataProcessing {
          op, setFlags := op.isTest || s, rn := .ofBits rn, rd := .ofBits rd,
          operand := .imm imm8 rotate } := by
  obtain ⟨operand, found⟩ := Option.isSome_iff_exists.1 (encodeImm?_isSome_iff.2 encodable)
  obtain ⟨imm8, rotate, rfl, means, -⟩ := encodeImm?_eq_some found
  obtain ⟨word, assembled, decoded⟩ := decode_dpImm_fields c op s rd rn found
  exact ⟨word, imm8, rotate, assembled, means, decoded⟩

theorem decode_dpReg (rm : BitVec 4) (shift : BitVec 2) (amount : BitVec 5) :
    Operation.decode (withCond c (withSIf s (dpReg op (rd.setWidth 32) (rn.setWidth 32)
        (rm.setWidth 32) (shift.setWidth 32) (amount.setWidth 32)))) =
      .dataProcessing {
        op, setFlags := op.isTest || s, rn := .ofBits rn, rd := .ofBits rd,
        operand := .reg ⟨.ofBits rm, .ofBits shift, amount⟩ } := by
  have amountBits : ∀ f : BitVec 5, f.setWidth 32 &&& 0x1f#32 = f.setWidth 32 := by decide
  have shiftBits : ∀ f : BitVec 2, f.setWidth 32 &&& 3#32 = f.setWidth 32 := by decide
  have operand : dpReg op (rd.setWidth 32) (rn.setWidth 32) (rm.setWidth 32) (shift.setWidth 32)
        (amount.setWidth 32) =
      dataWord op (rd.setWidth 32) (rn.setWidth 32)
        (field amount 7 ||| field shift 5 ||| field rm 0) := by
    simp [dpReg, field, amountBits, shiftBits]
  have data := ofDataWord_dataWord c op s rd rn (field amount 7 ||| field shift 5 ||| field rm 0)
    (.reg ⟨.ofBits rm, .ofBits shift, amount⟩)
    (by intros; simp (disch := omega) [BitVec.extractLsb'_or])
  rw [operand, ← data, withSIf_eq, dataWord_eq, decode_register]
  · simp [BitVec.extractLsb'_or, Word.shiftedReg, Word.regAt]
  · simp [BitVec.extractLsb'_or]
  · simp

end

/-! ## Transfers -/

section
variable (c : Word) (rd rn : BitVec 4)

theorem decode_transfer (load byte preIndex writeback : Bool) (offset : Int) :
    Operation.decode (withCond c
        (transfer load byte (rd.setWidth 32) (rn.setWidth 32) offset preIndex writeback)) =
      .transfer {
        load, byte, preIndex, add := decide (0 ≤ offset), writeback,
        rn := .ofBits rn, rd := .ofBits rd, offset := .imm (BitVec.ofNat 12 offset.natAbs) } := by
  have size : BitVec.ofNat 32 offset.natAbs &&& 0xfff#32 =
      field (BitVec.ofNat 12 offset.natAbs) 0 := by
    rw [and_low _ _ (m := 12) rfl, BitVec.setWidth_ofNat_of_le (by decide)]
  have word : transfer load byte (rd.setWidth 32) (rn.setWidth 32) offset preIndex writeback =
      field 0xe#4 28 ||| field 0b010#3 25 ||| field (.ofBool preIndex) 24 |||
        field (.ofBool (decide (0 ≤ offset))) 23 ||| field (.ofBool byte) 22 |||
        field (.ofBool writeback) 21 ||| field (.ofBool load) 20 ||| field rn 16 |||
        field rd 12 ||| field (BitVec.ofNat 12 offset.natAbs) 0 := by
    rw [transfer, ← size]; rfl
  rw [word, Operation.decode]
  simp [BitVec.extractLsb'_or, Operation.ofTransferWord, Word.regAt]

/-- The fold that collects a register list sets the bit of every listed number. -/
theorem getLsbD_foldl_regs (regs : List Word) (list : Word) {i : Nat} (h : i < 32) :
    (regs.foldl (fun list r => list ||| ((1 : Word) <<< (r.toNat % 32))) list).getLsbD i =
      (list.getLsbD i || regs.any (fun r => r.toNat % 32 == i)) := by
  induction regs generalizing list with
  | nil => simp
  | cons r regs ih =>
    have bit : ((1 : Word) <<< (r.toNat % 32)).getLsbD i = (r.toNat % 32 == i) := by
      rw [Bool.eq_iff_iff]
      simp [h]
      omega
    rw [List.foldl_cons, ih, BitVec.getLsbD_or, List.any_cons, Bool.or_assoc, bit]

/-- The register list of a multiple transfer, in the low bits of a word. -/
def regBits (regs : List Word) : Word :=
  regs.foldl (fun list r => list ||| ((1 : Word) <<< (r.toNat % 32))) 0

/-- The set of the registers named in a list. -/
def regList (regs : List Word) : RegList :=
  (regBits regs).setWidth 16

section
variable {regs : List Word} (small : ∀ r ∈ regs, r < 16)
include small

theorem getLsbD_regBits {i : Nat} (h : i < 32) :
    (regBits regs).getLsbD i = true ↔ ∃ r ∈ regs, r.toNat = i := by
  have number (r : Word) (member : r ∈ regs) : r.toNat % 32 = r.toNat := by
    have : r.toNat < 16 := small r member
    omega
  have zero : (0 : Word).getLsbD i = false := BitVec.getLsbD_zero
  rw [regBits, getLsbD_foldl_regs regs 0 h, zero, Bool.false_or, List.any_eq_true]
  exact exists_congr fun r => and_congr_right fun member => by rw [number r member, beq_iff_eq]

theorem has_regList {r : Word} (hr : r < 16) :
    (regList regs).has (.numbered r) = true ↔ r ∈ regs := by
  have below : r.toNat < 16 := hr
  rw [RegList.has, Reg.index_numbered hr, regList, BitVec.getLsbD_setWidth,
    decide_eq_true below, Bool.true_and, getLsbD_regBits small (by omega)]
  simp only [BitVec.toNat_inj, exists_eq_right]

theorem regBits_eq : regBits regs = field (regList regs) 0 := by
  apply BitVec.eq_of_getLsbD_eq
  intro i hi
  rw [getLsbD_field, regList, BitVec.getLsbD_setWidth, Nat.sub_zero]
  by_cases low : i < 16
  · simp [low, hi]
  · rw [decide_eq_false low, Bool.false_and, Bool.and_false, ← Bool.not_eq_true,
      getLsbD_regBits small hi]
    rintro ⟨r, member, rfl⟩
    exact low (small r member)

theorem decode_multiple (load preIndex add writeback : Bool) :
    Operation.decode (withCond c (multiple load preIndex add writeback (rn.setWidth 32) regs)) =
      .multiTransfer {
        load, preIndex, add, writeback, psr := false, rn := .ofBits rn,
        list := regList regs } := by
  have word : multiple load preIndex add writeback (rn.setWidth 32) regs =
      field 0xe#4 28 ||| field 0b100#3 25 ||| field (.ofBool preIndex) 24 |||
        field (.ofBool add) 23 ||| field (.ofBool writeback) 21 ||| field (.ofBool load) 20 |||
        field rn 16 ||| field (regList regs) 0 := by
    rw [← regBits_eq small]
    rfl
  rw [word, Operation.decode]
  simp [BitVec.extractLsb'_or, Word.regAt]

end

end

/-! ## Branches -/

section
variable (c : Word)

/-- A distance in the reach of a branch is the one its 24 bits stand for. -/
theorem signExtend_distance {d : Word} (aligned : d.toInt % 4 = 0) (low : -0x2000000 ≤ d.toInt)
    (high : d.toInt < 0x2000000) :
    ((d.sshiftRight 2).setWidth 24 ++ 0#2).signExtend 32 = d := by
  have quotient : (d.sshiftRight 2).toInt = d.toInt / 4 := by
    rw [BitVec.toInt_sshiftRight, Int.shiftRight_eq_div_pow]
    rfl
  have kept : ((d.sshiftRight 2).setWidth 24).toInt = d.toInt / 4 := by
    have bits : ((d.sshiftRight 2).setWidth 24).toInt =
        Int.bmod (d.sshiftRight 2).toInt 0x1000000 := by
      rw [BitVec.toInt_setWidth, BitVec.toInt_eq_toNat_bmod, Int.bmod_bmod_of_dvd (by decide)]
    rw [bits, quotient]
    exact Int.bmod_eq_of_le (by omega) (by omega)
  apply BitVec.eq_of_toInt_eq
  rw [BitVec.toInt_signExtend_of_le (by decide), BitVec.toInt_append, kept]
  change 4 * (d.toInt / 4) + 0 = d.toInt
  omega

theorem branch_eq (link : Bool) (source target : Word) :
    branch link source target =
      field 0xe#4 28 ||| field 0b101#3 25 ||| field (.ofBool link) 24 |||
        field (((target - (source + 8)).sshiftRight 2).setWidth 24) 0 := by
  rw [← and_low _ 0x00ffffff rfl]
  rfl

theorem decode_branch (link : Bool) {source target : Word}
    (aligned : (target - (source + 8)).toInt % 4 = 0)
    (low : -0x2000000 ≤ (target - (source + 8)).toInt)
    (high : (target - (source + 8)).toInt < 0x2000000) :
    Operation.decode (withCond c (branch link source target)) =
      .branch { link, target := .offset (target - (source + 8)) } := by
  rw [branch_eq, Operation.decode]
  simp [BitVec.extractLsb'_or]
  exact signExtend_distance aligned low high

theorem decode_of_registerBranch {w : Word} (pattern : w &&& 0x0ffffff0#32 = 0x012fff10#32) :
    Operation.decode w = .branch { link := false, target := .reg (w.regAt 0) } := by
  have cls : w.extractLsb' 25 3 = 0#3 := by
    have := congrArg (·.extractLsb' 25 3) pattern
    rw [BitVec.extractLsb'_and] at this
    exact (BitVec.and_allOnes ..).symm.trans this
  rw [Operation.decode, cls]
  exact if_pos pattern

theorem decode_bx (cond rm : BitVec 4) :
    Operation.decode (withCond (cond.setWidth 32) (bx (rm.setWidth 32))) =
      .branch { link := false, target := .reg (.ofBits rm) } := by
  have pattern : ∀ cond rm : BitVec 4, withCond (cond.setWidth 32) (bx (rm.setWidth 32)) &&&
      0x0ffffff0#32 = 0x012fff10#32 := by decide
  have word : bx (rm.setWidth 32) = field 0xe#4 28 ||| field 0x12fff1#24 4 ||| field rm 0 := by
    simp [bx, field, always]
  rw [decode_of_registerBranch (pattern cond rm), word]
  simp [Word.regAt, BitVec.extractLsb'_or]

end

/-! ## Every form -/

/-- Whatever is assembled, under every condition, with or without a request for the S
bit, decodes to the instruction that was asked for. -/
theorem decode_assembled {c : Word} (hc : c < 16) :
    (∀ (op : AluOp) (s : Bool) (rd rn imm : Word), rd < 16 → rn < 16 →
      (∃ imm8 rotate, Operand.immValue imm8 rotate = imm) →
      ∃ word imm8 rotate, dpImm op rd rn imm = .ok word ∧ Operand.immValue imm8 rotate = imm ∧
        Instruction.decode (withCond c (withSIf s word)) = ⟨.numbered c, .dataProcessing {
          op, setFlags := op.isTest || s, rn := .numbered rn, rd := .numbered rd,
          operand := .imm imm8 rotate }⟩) ∧
    (∀ (op : AluOp) (s : Bool) (rd rn rm shift amount : Word), rd < 16 → rn < 16 → rm < 16 →
      shift < 4 → amount < 32 →
      Instruction.decode (withCond c (withSIf s (dpReg op rd rn rm shift amount))) =
        ⟨.numbered c, .dataProcessing {
          op, setFlags := op.isTest || s, rn := .numbered rn, rd := .numbered rd,
          operand := .reg ⟨.numbered rm, .ofBits (shift.setWidth 2), amount.setWidth 5⟩ }⟩) ∧
    (∀ (load byte preIndex writeback : Bool) (rd rn : Word) (offset : Int), rd < 16 → rn < 16 →
      offset.natAbs ≤ 4095 →
      ∃ size : BitVec 12, size.toNat = offset.natAbs ∧
        Instruction.decode (withCond c (transfer load byte rd rn offset preIndex writeback)) =
          ⟨.numbered c, .transfer {
            load, byte, preIndex, add := decide (0 ≤ offset), writeback, rn := .numbered rn,
            rd := .numbered rd, offset := .imm size }⟩) ∧
    (∀ (rn : Word) (regs : List Word), rn < 16 → (∀ r ∈ regs, r < 16) →
      ∃ list : RegList, (∀ r < 16, list.has (.numbered r) = true ↔ r ∈ regs) ∧
        Instruction.decode (withCond c (ldmia rn regs)) = ⟨.numbered c, .multiTransfer {
          load := true, preIndex := false, add := true, writeback := true, psr := false,
          rn := .numbered rn, list }⟩ ∧
        Instruction.decode (withCond c (stmia rn regs)) = ⟨.numbered c, .multiTransfer {
          load := false, preIndex := false, add := true, writeback := true, psr := false,
          rn := .numbered rn, list }⟩ ∧
        Instruction.decode (withCond c (push regs)) = ⟨.numbered c, .multiTransfer {
          load := false, preIndex := true, add := false, writeback := true, psr := false,
          rn := .sp, list }⟩ ∧
        Instruction.decode (withCond c (pop regs)) = ⟨.numbered c, .multiTransfer {
          load := true, preIndex := false, add := true, writeback := true, psr := false,
          rn := .sp, list }⟩) ∧
    (∀ source target : Word, (target - (source + 8)).toInt % 4 = 0 →
      -0x2000000 ≤ (target - (source + 8)).toInt → (target - (source + 8)).toInt < 0x2000000 →
      ∀ link : Bool, ∃ branch : Branch,
        Instruction.decode (withCond c (if link then bl source target else b source target)) =
          ⟨.numbered c, .branch branch⟩ ∧
        branch.link = link ∧ branch.targetAddress? source = some target) ∧
    (∀ rm : Word, rm < 16 → Instruction.decode (withCond c (bx rm)) =
      ⟨.numbered c, .branch { link := false, target := .reg (.numbered rm) }⟩) := by
  obtain ⟨c, rfl⟩ := exists_eq_setWidth (m := 4) hc
  refine ⟨?immediate, ?register, ?single, ?list, ?branch, ?exchange⟩
  case immediate =>
    intro op s rd rn imm hrd hrn encodable
    obtain ⟨rd, rfl⟩ := exists_eq_setWidth (m := 4) hrd
    obtain ⟨rn, rfl⟩ := exists_eq_setWidth (m := 4) hrn
    obtain ⟨word, imm8, rotate, assembled, means, decoded⟩ :=
      decode_dpImm (c.setWidth 32) op s rd rn encodable
    refine ⟨word, imm8, rotate, assembled, means, ?_⟩
    rw [decode_withCond, decoded, Reg.numbered_setWidth, Reg.numbered_setWidth]
  case register =>
    intro op s rd rn rm shift amount hrd hrn hrm hshift hamount
    obtain ⟨rd, rfl⟩ := exists_eq_setWidth (m := 4) hrd
    obtain ⟨rn, rfl⟩ := exists_eq_setWidth (m := 4) hrn
    obtain ⟨rm, rfl⟩ := exists_eq_setWidth (m := 4) hrm
    obtain ⟨shift, rfl⟩ := exists_eq_setWidth (m := 2) hshift
    obtain ⟨amount, rfl⟩ := exists_eq_setWidth (m := 5) hamount
    rw [decode_withCond, decode_dpReg]
    simp
  case single =>
    intro load byte preIndex writeback rd rn offset hrd hrn fits
    obtain ⟨rd, rfl⟩ := exists_eq_setWidth (m := 4) hrd
    obtain ⟨rn, rfl⟩ := exists_eq_setWidth (m := 4) hrn
    refine ⟨BitVec.ofNat 12 offset.natAbs, ?_, ?_⟩
    · rw [BitVec.toNat_ofNat]
      omega
    · rw [decode_withCond, decode_transfer, Reg.numbered_setWidth, Reg.numbered_setWidth]
  case list =>
    intro rn regs hrn small
    obtain ⟨rn, rfl⟩ := exists_eq_setWidth (m := 4) hrn
    have stack : (13 : Word) = (13 : BitVec 4).setWidth 32 := rfl
    refine ⟨regList regs, fun r hr => has_regList small hr, ?_, ?_, ?_, ?_⟩
    · rw [decode_withCond, ldmia, decode_multiple _ _ small, Reg.numbered_setWidth]
    · rw [decode_withCond, stmia, decode_multiple _ _ small, Reg.numbered_setWidth]
    · rw [decode_withCond, push, stack, decode_multiple _ _ small]
      rfl
    · rw [decode_withCond, pop, stack, decode_multiple _ _ small]
      rfl
  case branch =>
    intro source target aligned low high link
    have word : (if link then bl source target else b source target) =
        branch link source target := by
      cases link <;> rfl
    refine ⟨{ link, target := .offset (target - (source + 8)) }, ?_, rfl, ?_⟩
    · rw [word, decode_withCond, decode_branch _ link aligned low high]
    · change some (source + 8 + (target - (source + 8))) = some target
      rw [BitVec.add_comm, BitVec.sub_add_cancel]
  case exchange =>
    intro rm hrm
    obtain ⟨rm, rfl⟩ := exists_eq_setWidth (m := 4) hrm
    rw [decode_withCond, decode_bx, Reg.numbered_setWidth]

theorem decode_assembled_ne :
    (∃ word imm8 rotate, dpImm .sub 3 3 0x3fc00 = .ok word ∧
      Operand.immValue imm8 rotate = 0x3fc00 ∧
      Instruction.decode (withCond 1 (withSIf true word)) = ⟨.ne, .dataProcessing {
        op := .sub, setFlags := true, rn := .r3, rd := .r3, operand := .imm imm8 rotate }⟩) ∧
    Instruction.decode (withCond 1 (withSIf false (dpReg .cmp 0 1 14 3 31))) =
      ⟨.ne, .dataProcessing {
        op := .cmp, setFlags := true, rn := .r1, rd := .r0, operand := .reg ⟨.lr, .ror, 31⟩ }⟩ ∧
    (∃ size : BitVec 12, size.toNat = 4095 ∧
      Instruction.decode (withCond 1 (transfer false true 2 13 (-4095) false true)) =
        ⟨.ne, .transfer {
          load := false, byte := true, preIndex := false, add := false, writeback := true,
          rn := .sp, rd := .r2, offset := .imm size }⟩) ∧
    (∃ list : RegList, (∀ r < 16, list.has (.numbered r) = true ↔ r ∈ [15, 4, 4]) ∧
      Instruction.decode (withCond 1 (pop [15, 4, 4])) = ⟨.ne, .multiTransfer {
        load := true, preIndex := false, add := true, writeback := true, psr := false,
        rn := .sp, list }⟩) ∧
    (∃ branch : Branch,
      Instruction.decode (withCond 1 (bl 0x10 0xfffffff0)) = ⟨.ne, .branch branch⟩ ∧
      branch.link = true ∧ branch.targetAddress? 0x10 = some 0xfffffff0) ∧
    Instruction.decode (withCond 1 (bx 14)) =
      ⟨.ne, .branch { link := false, target := .reg .lr }⟩ := by
  obtain ⟨immediate, register, single, list, branch, exchange⟩ :=
    decode_assembled (c := 1) (by decide)
  obtain ⟨size, isSize, stored⟩ :=
    single false true false true 2 13 (-4095) (by decide) (by decide) (by simp)
  obtain ⟨bits, members, -, -, -, popped⟩ := list 13 [15, 4, 4] (by decide) (by simp)
  exact ⟨immediate .sub true 3 3 0x3fc00 (by decide) (by decide) ⟨0xff, 11, by decide⟩,
    register .cmp false 0 1 14 3 31 (by decide) (by decide) (by decide) (by decide) (by decide),
    ⟨size, isSize, stored⟩, ⟨bits, members, popped⟩,
    branch 0x10 0xfffffff0 (by decide) (by decide) (by decide) true,
    exchange 14 (by decide)⟩

end Assembly
end ArmEmulator
