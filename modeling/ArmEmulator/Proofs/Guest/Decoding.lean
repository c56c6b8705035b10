import ArmEmulator.Guest.Decoding

/-!
# Encoding what was decoded

An instruction keeps every field of its word, and the patterns that select its
class fix the other bits.  So the word can be put together again, field by field,
and two words that decode alike are equal.  Only the coprocessor space keeps
nothing but the condition.

Main results:

- Theorem {lit}`Operation.encode_decode`: encoding a decoded operation gives the
  low 28 bits of its word.
- Theorem {lit}`Instruction.decode_eq_decode_iff`: when two words decode alike, and
  the condition of a decoded word.
-/

namespace ArmEmulator

/-! ## Fields -/

namespace Word

variable {w : Word}

/-- A field that a mask selects as a whole has the bits of the pattern. -/
theorem field_of_and_eq {mask pattern : Word} (h : w &&& mask = pattern) {start n : Nat}
    {bits : BitVec n} (selected : mask.extractLsb' start n = .allOnes n)
    (expected : pattern.extractLsb' start n = bits) : bits = w.extractLsb' start n := by
  rw [← expected, ← h, BitVec.extractLsb'_and, selected, BitVec.and_allOnes]

/-- A bit that is known is a field that is known. -/
theorem field_of_bit_eq {b : Bool} {i : Nat} (h : w.getLsbD i = b) :
    BitVec.ofBool b = w.extractLsb' i 1 := by
  rw [← h]
  ext j hj
  obtain rfl : j = 0 := by omega
  simp

/-- Neighbouring fields are one field. -/
theorem append_extractLsb' {n m low high : Nat} (next : high = low + m) :
    w.extractLsb' high n ++ w.extractLsb' low m = w.extractLsb' low (n + m) :=
  BitVec.extractLsb'_append_extractLsb'_eq_extractLsb' next

/-- The condition and the other bits are the whole word. -/
theorem cond_append_low : w.extractLsb' 28 4 ++ w.extractLsb' 0 28 = w := by
  rw [append_extractLsb']
  · exact BitVec.extractLsb'_eq_self
  · rfl

end Word

/-! ## Encoding of the parts -/

/-- The encoding of a condition. -/
def Cond.bits : Cond → BitVec 4
  | eq => 0x0 | ne => 0x1 | hs => 0x2 | lo => 0x3
  | mi => 0x4 | pl => 0x5 | vs => 0x6 | vc => 0x7
  | hi => 0x8 | ls => 0x9 | ge => 0xa | lt => 0xb
  | gt => 0xc | le => 0xd | al => 0xe | nv => 0xf

@[simp]
theorem Cond.bits_ofBits (b : BitVec 4) : (ofBits b).bits = b := by
  revert b; decide

/-- The four bits that name a register. -/
def Reg.bits (r : Reg) : BitVec 4 :=
  .ofFin r.index

@[simp]
theorem Reg.bits_ofBits (b : BitVec 4) : (ofBits b).bits = b := by
  simp [bits, ofBits]

@[simp]
theorem AluOp.bits_ofBits (b : BitVec 4) : (ofBits b).bits = b := by
  revert b; decide

/-- The encoding of a shift. -/
def Shift.bits : Shift → BitVec 2
  | lsl => 0 | lsr => 1 | asr => 2 | ror => 3

@[simp]
theorem Shift.bits_ofBits (b : BitVec 2) : (ofBits b).bits = b := by
  revert b; decide

/-- The low twelve bits of a shifted register. -/
def ShiftedReg.bits (r : ShiftedReg) : BitVec 12 :=
  r.amount ++ r.shift.bits ++ 0b0#1 ++ r.reg.bits

namespace Operand

/-- The bit that marks an immediate operand. -/
@[simp]
def immediateBit : Operand → BitVec 1
  | imm _ _ => 1
  | reg _ => 0
  | regByReg _ _ _ => 0

/-- The low twelve bits of an operand. -/
def bits : Operand → BitVec 12
  | imm imm8 rotate => rotate ++ imm8
  | reg r => r.bits
  | regByReg r shift amount => amount.bits ++ 0b0#1 ++ shift.bits ++ 0b1#1 ++ r.bits

end Operand

namespace Offset

/-- The bit that marks a register offset. -/
@[simp]
def registerBit : Offset → BitVec 1
  | imm _ => 0
  | reg _ => 1

/-- The low twelve bits of an offset. -/
def bits : Offset → BitVec 12
  | imm value => value
  | reg r => r.bits

end Offset

/-! ## Encoding of operations -/

namespace Operation

open BitVec (ofBool)

/-- The word of an operation without its condition.  A coprocessor operation has kept
nothing of its word. -/
def encode : Operation → BitVec 28
  | dataProcessing d =>
    0b00#2 ++ d.operand.immediateBit ++ d.op.bits ++ ofBool d.setFlags ++ d.rn.bits ++
      d.rd.bits ++ d.operand.bits
  | transfer t =>
    0b01#2 ++ t.offset.registerBit ++ ofBool t.preIndex ++ ofBool t.add ++ ofBool t.byte ++
      ofBool t.writeback ++ ofBool t.load ++ t.rn.bits ++ t.rd.bits ++ t.offset.bits
  | multiTransfer m =>
    0b100#3 ++ ofBool m.preIndex ++ ofBool m.add ++ ofBool m.psr ++ ofBool m.writeback ++
      ofBool m.load ++ m.rn.bits ++ m.list
  | branch ⟨link, .offset bytes⟩ => 0b101#3 ++ ofBool link ++ bytes.extractLsb' 2 24
  | branch ⟨_, .reg r⟩ => 0x12fff1#24 ++ r.bits
  | statusTransfer (.read rd spsr) => 0b00010#5 ++ ofBool spsr ++ 0b001111#6 ++ rd.bits ++ 0#12
  | statusTransfer (.write spsr fields operand) =>
    0b00#2 ++ operand.immediateBit ++ 0b10#2 ++ ofBool spsr ++ 0b1#1 ++ 0b0#1 ++ fields ++
      0xf#4 ++ operand.bits
  | coprocessor => 0
  | unknown w => w.extractLsb' 0 28

/-! ## Encoding after decoding -/

section

variable {w : Word}

theorem bits_shiftedReg (h : w.getLsbD 4 = false) : w.shiftedReg.bits = w.extractLsb' 0 12 := by
  have marker : 0b0#1 = w.extractLsb' 4 1 := Word.field_of_bit_eq h
  simp only [ShiftedReg.bits, Word.shiftedReg, Word.regAt, Shift.bits_ofBits, Reg.bits_ofBits]
  rw [marker]
  repeat rw [Word.append_extractLsb']
  all_goals rfl

section Operand

variable {operand : Operand} (hclass : w.extractLsb' 25 3 = 0b00#2 ++ operand.immediateBit)
  (hlow : operand.bits = w.extractLsb' 0 12)
include hclass hlow

/-- A status transfer is encoded as the comparison that it stands for. -/
theorem encode_ofStatusWord : (ofStatusWord w operand).encode = w.extractLsb' 0 28 := by
  unfold ofStatusWord
  dsimp only
  split
  case isTrue h =>
    have high : 0b00010#5 = w.extractLsb' 23 5 := Word.field_of_and_eq h (by decide) (by decide)
    have middle : 0b001111#6 = w.extractLsb' 16 6 := Word.field_of_and_eq h (by decide) (by decide)
    have low : 0#12 = w.extractLsb' 0 12 := Word.field_of_and_eq h (by decide) (by decide)
    simp only [encode, Word.regAt, Reg.bits_ofBits, Word.field_of_bit_eq rfl]
    rw [high, middle, low]
    repeat rw [Word.append_extractLsb']
    all_goals rfl
  case isFalse =>
  split
  case isTrue h =>
    -- The two patterns agree on everything but the bit that marks an immediate.
    have common : w &&& 0x0db0f000 = 0x0120f000 := by
      rcases h with h | h
      · simpa [BitVec.and_assoc] using congrArg (· &&& 0x0db0f000#32) h
      · simpa [BitVec.and_assoc] using congrArg (· &&& 0x0db0f000#32) h
    have op : 0b10#2 = w.extractLsb' 23 2 := Word.field_of_and_eq common (by decide) (by decide)
    have write : 0b1#1 = w.extractLsb' 21 1 := Word.field_of_and_eq common (by decide) (by decide)
    have plain : 0b0#1 = w.extractLsb' 20 1 := Word.field_of_and_eq common (by decide) (by decide)
    have ones : 0xf#4 = w.extractLsb' 12 4 := Word.field_of_and_eq common (by decide) (by decide)
    simp only [encode, Word.field_of_bit_eq rfl]
    rw [← hclass, hlow, op, write, plain, ones]
    repeat rw [Word.append_extractLsb']
    all_goals rfl
  case isFalse => simp [encode]

/-- A data-processing word is encoded as its fields. -/
theorem encode_ofDataWord : (ofDataWord w operand).encode = w.extractLsb' 0 28 := by
  unfold ofDataWord
  dsimp only
  split
  · exact encode_ofStatusWord hclass hlow
  · simp only [encode, Word.regAt, AluOp.bits_ofBits, Reg.bits_ofBits, Word.field_of_bit_eq rfl]
    rw [← hclass, hlow]
    repeat rw [Word.append_extractLsb']
    all_goals rfl

end Operand

theorem encode_ofTransferWord {offset : Offset}
    (hclass : w.extractLsb' 25 3 = 0b01#2 ++ offset.registerBit)
    (hlow : offset.bits = w.extractLsb' 0 12) :
    (ofTransferWord w offset).encode = w.extractLsb' 0 28 := by
  simp only [ofTransferWord, encode, Word.regAt, Reg.bits_ofBits, Word.field_of_bit_eq rfl]
  rw [← hclass, hlow]
  repeat rw [Word.append_extractLsb']
  all_goals rfl

/-- The classes without an immediate operand. -/
theorem encode_ofRegisterWord (hclass : w.extractLsb' 25 3 = 0b000#3) :
    (ofRegisterWord w).encode = w.extractLsb' 0 28 := by
  unfold ofRegisterWord
  split
  case isTrue h =>
    have pattern : 0x12fff1#24 = w.extractLsb' 4 24 :=
      Word.field_of_and_eq h (by decide) (by decide)
    simp only [encode, Word.regAt, Reg.bits_ofBits]
    rw [pattern]
    repeat rw [Word.append_extractLsb']
    all_goals rfl
  case isFalse =>
  split
  case isTrue => simp [encode]
  case isFalse unsupported =>
  split
  case isTrue bit4 =>
    have bit7 : w.getLsbD 7 = false := by simpa [bit4] using unsupported
    have upper : 0b0#1 = w.extractLsb' 7 1 := Word.field_of_bit_eq bit7
    have lower : 0b1#1 = w.extractLsb' 4 1 := Word.field_of_bit_eq bit4
    refine encode_ofDataWord (by simp [hclass]) ?_
    simp only [Operand.bits, Word.regAt, Reg.bits_ofBits, Shift.bits_ofBits]
    rw [upper, lower]
    repeat rw [Word.append_extractLsb']
    all_goals rfl
  case isFalse bit4 =>
    exact encode_ofDataWord (by simp [hclass]) (bits_shiftedReg (by simpa using bit4))

/-- The offset of a branch keeps its 24 bits. -/
theorem extractLsb'_branchOffset (bits : BitVec 24) :
    ((bits ++ 0#2).signExtend 32).extractLsb' 2 24 = bits := by
  ext i hi
  rw [BitVec.getElem_extractLsb', BitVec.getLsbD_signExtend, BitVec.getLsbD_append]
  simp [show 2 + i < 32 by omega, show 2 + i < 26 by omega, show ¬2 + i < 2 by omega, hi]

/-- Encoding a decoded operation gives its word back, up to the condition. -/
theorem encode_decode (h : decode w ≠ .coprocessor) :
    (decode w).encode = w.extractLsb' 0 28 := by
  revert h
  unfold decode
  split
  case h_1 hclass => exact fun _ => encode_ofRegisterWord hclass
  case h_2 hclass =>
    exact fun _ => encode_ofDataWord (by simp [hclass]) (Word.append_extractLsb' rfl)
  case h_3 hclass => exact fun _ => encode_ofTransferWord (by simp [hclass]) rfl
  case h_4 hclass =>
    split
    case isTrue => simp [encode]
    case isFalse bit4 =>
      have hlow := bits_shiftedReg (w := w) (by simpa using bit4)
      exact fun _ => encode_ofTransferWord (by simp [hclass]) hlow
  case h_5 hclass =>
    intro _
    simp only [encode, Word.regAt, Reg.bits_ofBits, Word.field_of_bit_eq rfl]
    rw [← hclass]
    repeat rw [Word.append_extractLsb']
    all_goals rfl
  case h_6 hclass =>
    intro _
    simp only [encode, Word.field_of_bit_eq rfl]
    rw [← hclass, extractLsb'_branchOffset]
    repeat rw [Word.append_extractLsb']
    all_goals rfl
  case h_7 => exact fun h => absurd rfl h
  case h_8 =>
    split
    case isTrue => simp [encode]
    case isFalse => exact fun h => absurd rfl h

end

end Operation

/-! ## Data-processing words -/

namespace Operation

/-- What a data-processing word with a given operand can decode to.  A write of a status
register keeps the operand and matches one of two patterns. -/
inductive OfData (w : Word) (operand : Operand) : Operation → Prop
  | data (d : DataProcessing) : OfData w operand (.dataProcessing d)
  | read (rd : Reg) (spsr : Bool) : OfData w operand (.statusTransfer (.read rd spsr))
  | write (spsr : Bool) (fields : BitVec 4)
      (h : w &&& 0x0fb0f000 = 0x0320f000 ∨ w &&& 0x0fb0fff0 = 0x0120f000) :
      OfData w operand (.statusTransfer (.write spsr fields operand))
  | unknown : OfData w operand (.unknown w)

theorem ofData_ofDataWord (w : Word) (operand : Operand) :
    OfData w operand (ofDataWord w operand) := by
  unfold ofDataWord ofStatusWord
  dsimp only
  split
  · split
    · exact .read _ _
    · split
      · exact .write _ _ (by assumption)
      · exact .unknown
  · exact .data _

/-- No data-processing word is a branch. -/
theorem ofDataWord_ne_branch (w : Word) (operand : Operand) (b : Branch) :
    ofDataWord w operand ≠ .branch b := by
  intro h
  have hdata := ofData_ofDataWord w operand
  rw [h] at hdata
  cases hdata

/-- Both patterns of a write are those of an immediate or of a plain register. -/
theorem bit_of_pattern {w : Word}
    (h : w &&& 0x0fb0f000 = 0x0320f000 ∨ w &&& 0x0fb0fff0 = 0x0120f000) :
    w.getLsbD 25 = true ∨ w.getLsbD 4 = false := by
  rcases h with h | h
  · left
    simpa using congrArg (·.getLsbD 25) h
  · right
    simpa using congrArg (·.getLsbD 4) h

/-- A write of a status register keeps the operand of its word, which is an immediate or a
plain register. -/
theorem operand_of_ofDataWord {w : Word} {operand operand' : Operand} {spsr : Bool}
    {fields : BitVec 4} (h : ofDataWord w operand = .statusTransfer (.write spsr fields operand')) :
    operand' = operand ∧ (w.getLsbD 25 = true ∨ w.getLsbD 4 = false) := by
  have hdata := ofData_ofDataWord w operand
  rw [h] at hdata
  cases hdata with
  | write _ _ hpattern => exact ⟨rfl, bit_of_pattern hpattern⟩

end Operation

/-! ## Instructions -/

namespace Instruction

/-- The word of an instruction. -/
def encode (i : Instruction) : Word :=
  i.cond.bits ++ i.op.encode

/-- Encoding a decoded instruction gives its word back. -/
theorem encode_decode {w : Word} (h : (decode w).op ≠ .coprocessor) : (decode w).encode = w := by
  have low : (decode w).op.encode = w.extractLsb' 0 28 := Operation.encode_decode h
  rw [encode, low, cond_decode, Cond.bits_ofBits]
  exact Word.cond_append_low

/-- Two words decode alike just when they are equal, or both decode to a coprocessor
operation under the same condition; and the condition of a decoded word is the one
that its top four bits encode. -/
theorem decode_eq_decode_iff :
    (∀ w w' : Word, decode w = decode w' ↔ w = w' ∨
      ∃ c, decode w = ⟨c, .coprocessor⟩ ∧ decode w' = ⟨c, .coprocessor⟩) ∧
    ∀ w : Word, (decode w).cond.bits = w.extractLsb' 28 4 := by
  constructor
  · intro w w'
    constructor
    · intro h
      by_cases hop : (decode w).op = .coprocessor
      · have hw : decode w = ⟨(decode w).cond, .coprocessor⟩ := by rw [← hop]
        exact .inr ⟨_, hw, h ▸ hw⟩
      · have hop' : (decode w').op ≠ .coprocessor := h ▸ hop
        exact .inl (by rw [← encode_decode hop, h, encode_decode hop'])
    · rintro (rfl | ⟨c, hw, hw'⟩)
      · rfl
      · rw [hw, hw']
  · intro w
    rw [cond_decode, Cond.bits_ofBits]

end Instruction

end ArmEmulator
