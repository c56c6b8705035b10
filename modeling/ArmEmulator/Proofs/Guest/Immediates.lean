import ArmEmulator.Proofs.Guest.Arithmetic
import ArmEmulator.Proofs.Guest.Assembly
import ArmEmulator.Proofs.Guest.Devices

/-!
# Rotations of immediates

An immediate is eight bits rotated right by an even amount, and many words can be written
in more than one way.  Which way was taken can be seen: a logical instruction carries the
top bit of an immediate that is rotated, and leaves the carry alone if it is not.  The
assembler takes the smallest rotation there is, so it never rotates a number below 256.

Main results:

- Theorem {lit}`DataProcessing.exists_carry`: the carry behind a logical instruction with
  an immediate.
- Theorem {lit}`Assembly.encodeImm?_minimal`: which words are assembled as immediates, with
  which rotation, and what becomes of the carry.
-/

namespace ArmEmulator

/-! ## The carry of an immediate -/

/-- The operations that work on each bit by itself. -/
def AluOp.isLogical : AluOp → Bool
  | and | eor | tst | teq | orr | mov | bic | mvn => true
  | sub | rsb | add | adc | sbc | rsc | cmp | cmn => false

theorem AluOp.readsCarry_of_isLogical {op : AluOp} (h : op.isLogical = true) :
    op.readsCarry = false := by
  cases op with
  | adc => cases h
  | sbc => cases h
  | rsc => cases h
  | _ => rfl

/-- A logical operation passes on the carry of its second operand. -/
theorem AluOp.Exact.carry_eq {op : AluOp} {a b : Word} {carry : Bool} {r : AluResult}
    (h : op.Exact a b carry r) (hlogical : op.isLogical = true) : r.carry = carry := by
  cases op with
  | sub => cases hlogical
  | rsb => cases hlogical
  | add => cases hlogical
  | adc => cases hlogical
  | sbc => cases hlogical
  | rsc => cases hlogical
  | cmp => cases hlogical
  | cmn => cases hlogical
  | _ => exact AluResult.IsBitwise.carry h

/-- The carry that an immediate leads to: its top bit if it is rotated, else the one before. -/
def Operand.immCarry (imm8 : BitVec 8) (rotate : BitVec 4) (carry : Bool) : Bool :=
  if rotate = 0 then carry else (immValue imm8 rotate).msb

namespace DataProcessing

variable {ω : Type} {d : DataProcessing} {imm8 : BitVec 8} {rotate : BitVec 4}

/-- A logical instruction with an immediate and the S bit leaves the carry of the immediate,
or the one before if its condition fails.  With the program counter as its destination it
sets no flags but restores the saved status. -/
theorem exists_carry (hlogical : d.op.isLogical = true) (hflags : d.setFlags = true)
    (hoperand : d.operand = .imm imm8 rotate) (cond : Cond) (addr word : Word) (cpu : Cpu)
    (bus : Bus ω) :
    ∃ outcome cpu',
      (⟨cond, .dataProcessing d⟩ : Instruction).execute addr word cpu bus =
        .ok (outcome, cpu') bus ∧
      (d.op.isTest = true ∨ d.rd ≠ .pc → cpu'.flag .c =
        if cond.passes cpu.cpsr then Operand.immCarry imm8 rotate (cpu.flag .c)
        else cpu.flag .c) ∧
      (d.op.isTest = false → d.rd = .pc → cond.passes cpu.cpsr = true →
        cpu'.cpsr = cpu.spsr) := by
  by_cases hpasses : cond.passes cpu.cpsr = true
  · have hb : d.operand.moved? addr cpu =
        some (Operand.immValue imm8 rotate, Operand.immCarry imm8 rotate (cpu.flag .c)) := by
      rw [hoperand, ← Operand.eval?_eq_moved?]
      rfl
    obtain ⟨r, cpu', hexact, hexecute, hupdates⟩ :=
      exists_updates (AluOp.readsCarry_of_isLogical hlogical) hb
    refine ⟨_, cpu', execute_eq_of_some hpasses hexecute word bus, ?_, ?_⟩
    · intro hsets
      have hdescribed := hupdates.described (hsets.imp_right fun hrd => ⟨hflags, hrd⟩)
      rw [if_pos hpasses, ← hexact.carry_eq hlogical]
      exact hdescribed.carry
    · intro htest hrd _
      exact hupdates.restored htest hrd hflags
  · refine ⟨_, _, Instruction.execute_of_fails (by simpa using hpasses) addr word bus, ?_, ?_⟩
    · intro _
      rw [if_neg hpasses]
      rfl
    · intro _ _ h
      exact absurd h hpasses

end DataProcessing

namespace Assembly

open Word

/-! ## The fields of an immediate as numbers -/

/-- The number of an immediate has its byte below the rotation. -/
theorem toNat_immediate (imm8 : BitVec 8) (rotate : BitVec 4) :
    (field rotate 8 ||| field imm8 0).toNat = 256 * rotate.toNat + imm8.toNat := by
  have := rotate.isLt
  have := imm8.isLt
  have hrotate : (field rotate 8).toNat = 256 * rotate.toNat := by
    simp [field, Nat.shiftLeft_eq]
    omega
  have himm8 : (field imm8 0).toNat = imm8.toNat := by
    simp [field]
    omega
  rw [BitVec.toNat_or, hrotate, himm8]
  exact (Nat.two_pow_add_eq_or_of_lt (i := 8) imm8.isLt rotate.toNat).symm

/-- The number of an immediate tells its two fields. -/
theorem fields_of_toNat {e : Word} {imm8 : BitVec 8} {rotate : BitVec 4}
    (h : e = field rotate 8 ||| field imm8 0) :
    e < 4096 ∧ BitVec.ofNat 8 (e.toNat % 256) = imm8 ∧ e.toNat / 256 = rotate.toNat := by
  have := rotate.isLt
  have := imm8.isLt
  have hnumber : e.toNat = 256 * rotate.toNat + imm8.toNat := by rw [h, toNat_immediate]
  refine ⟨show e.toNat < 4096 by omega, ?_, by omega⟩
  apply BitVec.eq_of_toNat_eq
  rw [BitVec.toNat_ofNat]
  omega

/-- A number of eight bits is not rotated: by nothing is the smallest rotation. -/
theorem encodeImm?_setWidth (imm8 : BitVec 8) :
    encodeImm? (imm8.setWidth 32) = some (field 0#4 8 ||| field imm8 0) := by
  have hplain := Operand.immValue_zero imm8
  obtain ⟨e, found⟩ := Option.isSome_iff_exists.1 (encodeImm?_isSome_iff.2 ⟨imm8, 0, hplain⟩)
  obtain ⟨imm8', rotate, rfl, means, least⟩ := encodeImm?_eq_some found
  have hrotate : rotate = 0 := by
    have hle : rotate.toNat ≤ 0 := least imm8 0 hplain
    exact BitVec.eq_of_toNat_eq (Nat.le_zero.1 hle)
  subst hrotate
  rw [Operand.immValue_zero] at means
  have himm8 : imm8' = imm8 := by
    have hlow := congrArg (BitVec.setWidth 8) means
    simpa using hlow
  rw [found, himm8]
  rfl

/-! ## Assembled immediates -/

/-- A logical instruction that is assembled with a number of eight bits, with the S bit, leaves
the carry alone; with the program counter as its destination it restores the saved status. -/
theorem exists_carry_dpImm {ω : Type} {op : AluOp} (hlogical : op.isLogical = true)
    (imm8 : BitVec 8) {c rd rn : Word} (hc : c < 16) (hrd : rd < 16) (hrn : rn < 16) :
    ∃ word, dpImm op rd rn (imm8.setWidth 32) = .ok word ∧
      ∀ (addr : Word) (cpu : Cpu) (bus : Bus ω), ∃ outcome cpu',
        (Instruction.decode (withCond c (withS word))).execute addr (withCond c (withS word)) cpu
            bus = .ok (outcome, cpu') bus ∧
          (op.isTest = true ∨ rd ≠ 15 → cpu'.flag .c = cpu.flag .c) ∧
          (op.isTest = false → rd = 15 → (Cond.numbered c).passes cpu.cpsr = true →
            cpu'.cpsr = cpu.spsr) := by
  obtain ⟨c, rfl⟩ := exists_eq_setWidth (m := 4) hc
  obtain ⟨rd, rfl⟩ := exists_eq_setWidth (m := 4) hrd
  obtain ⟨rn, rfl⟩ := exists_eq_setWidth (m := 4) hrn
  obtain ⟨word, assembled, decoded⟩ :=
    decode_dpImm_fields (c.setWidth 32) op true rd rn (encodeImm?_setWidth imm8)
  refine ⟨word, assembled, ?_⟩
  intro addr cpu bus
  have hinstruction : Instruction.decode (withCond (c.setWidth 32) (withS word)) =
      ⟨.numbered (c.setWidth 32), .dataProcessing {
        op, setFlags := op.isTest || true, rn := .ofBits rn, rd := .ofBits rd,
        operand := .imm imm8 0 }⟩ := by
    rw [decode_withCond]
    exact congrArg (Instruction.mk _) decoded
  rw [hinstruction]
  obtain ⟨outcome, cpu', hexecute, hcarry, hrestored⟩ :=
    DataProcessing.exists_carry
      (d := { op, setFlags := op.isTest || true, rn := .ofBits rn, rd := .ofBits rd,
              operand := .imm imm8 0 })
      hlogical (Bool.or_true _) rfl (.numbered (c.setWidth 32)) addr
      (withCond (c.setWidth 32) (withS word)) cpu bus
  refine ⟨outcome, cpu', hexecute, ?_, ?_⟩
  · intro hsets
    have hkept := hcarry (hsets.imp_right fun hne hpc => hne ((Reg.ofBits_eq_pc_iff rd).1 hpc))
    rw [hkept]
    exact ite_self _
  · intro htest hrd hpasses
    exact hrestored htest ((Reg.ofBits_eq_pc_iff rd).2 hrd) hpasses

/-- A word is assembled as an immediate exactly if eight bits rotated right by an even amount
give it.  The immediate that is assembled stands for the word, and no smaller rotation does.
So numbers below 256 are not rotated, and logical instructions that set the flags leave the
carry as it was with them; with the program counter as its destination such an instruction
sets no flags but restores the saved status. -/
theorem encodeImm?_minimal {ω : Type} (value : Word) :
    ((∃ e, encodeImm? value = some e) ↔ ∃ imm8 rotate, value = Operand.immValue imm8 rotate) ∧
    (∀ e, encodeImm? value = some e →
      e < 4096 ∧
      Operand.immValue (.ofNat 8 (e.toNat % 256)) (.ofNat 4 (e.toNat / 256)) = value ∧
      ∀ imm8 rotate, Operand.immValue imm8 rotate = value → e.toNat / 256 ≤ rotate.toNat) ∧
    (value < 256 → encodeImm? value = some value ∧
      ∀ (op : AluOp) (c rd rn : Word), op.isLogical = true → c < 16 → rd < 16 → rn < 16 →
        ∃ word, dpImm op rd rn value = .ok word ∧
          ∀ (addr : Word) (cpu : Cpu) (bus : Bus ω), ∃ outcome cpu',
            (Instruction.decode (withCond c (withS word))).execute addr (withCond c (withS word))
                cpu bus = .ok (outcome, cpu') bus ∧
              (op.isTest = true ∨ rd ≠ 15 → cpu'.flag .c = cpu.flag .c) ∧
              (op.isTest = false → rd = 15 → (Cond.numbered c).passes cpu.cpsr = true →
                cpu'.cpsr = cpu.spsr)) := by
  refine ⟨?_, ?_, ?_⟩
  · rw [← Option.isSome_iff_exists, encodeImm?_isSome_iff]
    simp only [eq_comm]
  · intro e found
    obtain ⟨imm8, rotate, hfields, means, least⟩ := encodeImm?_eq_some found
    obtain ⟨hsmall, himm8, hrotate⟩ := fields_of_toNat hfields
    rw [himm8, hrotate, BitVec.ofNat_toNat, BitVec.setWidth_eq]
    exact ⟨hsmall, means, least⟩
  · intro hsmall
    obtain ⟨imm8, rfl⟩ := exists_eq_setWidth (m := 8) hsmall
    refine ⟨?_, fun op c rd rn hlogical hc hrd hrn =>
      exists_carry_dpImm hlogical imm8 hc hrd hrn⟩
    rw [encodeImm?_setWidth]
    simp [field]

/-- A word with bits in its middle, and a number that is also a rotated one: moving it with the
S bit keeps the carry set. -/
theorem encodeImm?_minimal_four :
    let cpu := { Cpu.initial with cpsr := 0x20000000 }
    let bus := Bus.ofRam (.zeroed 0 0) ()
    (encodeImm? 0x3fc00 = some 0xbff ∧
      ∀ imm8 rotate, Operand.immValue imm8 rotate = 0x3fc00 → 11 ≤ rotate.toNat) ∧
    (Operand.immValue 1 15 = 4 ∧ encodeImm? 4 = some 4 ∧
      ∃ word, dpImm .mov 0 0 4 = .ok word ∧ ∃ outcome cpu',
        (Instruction.decode (withCond 14 (withS word))).execute 0x8000
            (withCond 14 (withS word)) cpu bus = .ok (outcome, cpu') bus ∧
          cpu'.flag .c = true) := by
  intro cpu bus
  have hmiddle : encodeImm? 0x3fc00 = some 0xbff := by decide
  obtain ⟨-, hleast, -⟩ := encodeImm?_minimal (ω := Unit) 0x3fc00
  obtain ⟨-, -, hplain⟩ := encodeImm?_minimal (ω := Unit) 4
  obtain ⟨hfour, hmoves⟩ := hplain (by decide)
  obtain ⟨word, assembled, hexecutes⟩ :=
    hmoves .mov 14 0 0 rfl (by decide) (by decide) (by decide)
  obtain ⟨outcome, cpu', hexecute, hcarry, -⟩ := hexecutes 0x8000 cpu bus
  refine ⟨⟨hmiddle, (hleast 0xbff hmiddle).2.2⟩, by decide, hfour, word, assembled, outcome,
    cpu', hexecute, ?_⟩
  rw [hcarry (.inr (by decide))]
  decide

end Assembly

end ArmEmulator
