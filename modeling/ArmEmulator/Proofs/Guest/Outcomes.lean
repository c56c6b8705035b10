import ArmEmulator.Proofs.Guest.Arithmetic
import ArmEmulator.Proofs.Guest.Decoding
import ArmEmulator.Proofs.Guest.InPlace
import ArmEmulator.Proofs.Guest.Requests

/-!
# What becomes of an instruction

Every word is executed in one of four ways, and the word and the status alone decide
whether it is skipped or found unsupported.  In both cases execution goes on behind the
instruction and nothing else has happened.

Main results:

- Theorem {lit}`Operation.isShiftedByReg_of_decode`: no word decodes to a write of a
  status register from a register shifted by a register.
- Theorem {lit}`Instruction.execute_outcome`: when an instruction is skipped, when it is
  unsupported, and what that changes.
-/

namespace ArmEmulator

variable {ω : Type}

/-! ## Unsupported operations -/

namespace Operation

/-- The operations that are not supported: unknown words, arithmetic that reads the carry
flag, and data processing with a register shifted by a register. -/
def unsupported : Operation → Bool
  | dataProcessing d => d.op.readsCarry || d.operand.isShiftedByReg
  | unknown _ => true
  | transfer _ | multiTransfer _ | branch _ | statusTransfer _ | coprocessor => false

/-- No word decodes to a write of a status register from a register shifted by a
register. -/
theorem isShiftedByReg_of_decode {w : Word} {spsr : Bool} {fields : BitVec 4} {operand : Operand}
    (h : decode w = .statusTransfer (.write spsr fields operand)) :
    operand.isShiftedByReg = false := by
  unfold decode at h
  split at h
  case h_1 hclass =>
    unfold ofRegisterWord at h
    split at h
    · cases h
    · split at h
      · cases h
      · split at h
        · rename_i hbit4
          -- shifted by a register: bit 4 is set, and the class clears bit 25
          have hbit25 : w.getLsbD 25 = false := by
            simpa using congrArg (·.getLsbD 0) hclass
          obtain ⟨-, hset | hclear⟩ := operand_of_ofDataWord h
          · cases hbit25.symm.trans hset
          · cases hbit4.symm.trans hclear
        · obtain ⟨rfl, -⟩ := operand_of_ofDataWord h
          rfl
  case h_2 =>
    obtain ⟨rfl, -⟩ := operand_of_ofDataWord h
    rfl
  case h_3 => cases h
  case h_4 => split at h <;> cases h
  case h_5 => cases h
  case h_6 => cases h
  case h_7 => cases h
  case h_8 => split at h <;> cases h

end Operation

/-! ## Outcomes -/

/-- Data processing gives no state exactly where it is unsupported. -/
theorem DataProcessing.execute?_eq_none_iff {d : DataProcessing} {addr : Word} {cpu : Cpu} :
    d.execute? addr cpu = none ↔ (Operation.dataProcessing d).unsupported = true := by
  rw [Operation.unsupported, Bool.or_eq_true]
  constructor
  · intro h
    cases hop : d.op.readsCarry with
    | true => exact .inl rfl
    | false =>
        right
        cases hoperand : d.operand.isShiftedByReg with
        | true => rfl
        | false =>
            obtain ⟨b, carry, hb⟩ := Operand.exists_moved hoperand addr cpu
            obtain ⟨r, cpu', -, hsome, -⟩ := exists_updates hop hb
            cases h.symm.trans hsome
  · obtain ⟨op, setFlags, rn, rd, operand⟩ := d
    rintro (hop | hoperand)
    · have hcompute : ∀ a b carry, op.compute? a b carry = none := by
        cases op with
        | adc | sbc | rsc => exact fun _ _ _ => rfl
        | _ => cases hop
      simp [execute?, hcompute]
    · cases operand with
      | regByReg reg shift amount => rfl
      | imm | reg => cases hoperand

/-- A status transfer gives a state, unless its operand is shifted by a register. -/
theorem StatusTransfer.exists_execute? {s : StatusTransfer}
    (hoperand : ∀ {spsr fields operand}, s = .write spsr fields operand →
      operand.isShiftedByReg = false) (addr : Word) (cpu : Cpu) :
    ∃ cpu', s.execute? addr cpu = some cpu' := by
  cases s with
  | read rd spsr => exact ⟨_, rfl⟩
  | write spsr fields operand =>
      cases operand with
      | imm imm8 rotate => exact ⟨_, rfl⟩
      | reg r => exact ⟨_, rfl⟩
      | regByReg reg shift amount => cases hoperand rfl

/-- A branch is executed, or it goes to itself. -/
theorem Branch.outcome_execute (b : Branch) (addr : Word) (cpu : Cpu) :
    (b.execute addr cpu).1 = .executed ∨ (b.execute addr cpu).1 = .selfLoop addr := by
  unfold execute
  dsimp only
  split
  · exact .inr rfl
  · exact .inl rfl

namespace Instruction

variable {i : Instruction} {addr word : Word} {cpu cpu' : Cpu} {bus bus' : Bus ω}
  {outcome : Outcome}

/-- An unsupported instruction whose condition holds only moves on. -/
theorem execute_of_unsupported (hpasses : i.cond.passes cpu.cpsr = true)
    (hop : i.op.unsupported = true) (addr word : Word) (bus : Bus ω) :
    i.execute addr word cpu bus = .ok (.unhandled addr word, cpu.advance addr) bus := by
  obtain ⟨cond, op⟩ := i
  rw [execute, if_pos hpasses]
  cases op with
  | dataProcessing d =>
      dsimp only
      rw [DataProcessing.execute?_eq_none_iff.2 hop]
      rfl
  | unknown w => rfl
  | transfer | multiTransfer | branch | statusTransfer | coprocessor => cases hop

/-- A supported instruction whose condition holds is executed, or it is a branch to
itself. -/
theorem outcome_of_supported (hpasses : i.cond.passes cpu.cpsr = true)
    (hop : i.op.unsupported = false)
    (hoperand : ∀ {spsr fields operand}, i.op = .statusTransfer (.write spsr fields operand) →
      operand.isShiftedByReg = false)
    (h : i.execute addr word cpu bus = .ok (outcome, cpu') bus') :
    outcome = .executed ∨ outcome = .selfLoop addr := by
  obtain ⟨cond, op⟩ := i
  rw [execute, if_pos hpasses] at h
  cases op with
  | dataProcessing d =>
      cases hd : d.execute? addr cpu with
      | none => cases hop.symm.trans (DataProcessing.execute?_eq_none_iff.1 hd)
      | some after =>
          obtain ⟨heq, -⟩ := Access.pure_eq_ok_iff.1 h
          rw [hd] at heq
          cases heq
          exact .inl rfl
  | transfer t =>
      obtain ⟨after, -, heq⟩ := Access.bind_pure_eq_ok_iff.1 h
      cases heq
      exact .inl rfl
  | multiTransfer m =>
      obtain ⟨after, -, heq⟩ := Access.bind_pure_eq_ok_iff.1 h
      cases heq
      exact .inl rfl
  | branch b =>
      obtain ⟨heq, -⟩ := Access.pure_eq_ok_iff.1 h
      have hbranch := b.outcome_execute addr cpu
      rw [heq] at hbranch
      exact hbranch
  | statusTransfer s =>
      obtain ⟨after, hs⟩ := StatusTransfer.exists_execute? (s := s)
        (fun heq => hoperand (congrArg Operation.statusTransfer heq)) addr cpu
      obtain ⟨heq, -⟩ := Access.pure_eq_ok_iff.1 h
      rw [hs] at heq
      cases heq
      exact .inl rfl
  | coprocessor =>
      cases h
      exact .inl rfl
  | unknown w => cases hop

/-- A decoded instruction is skipped exactly if its condition fails, and found unsupported
exactly if its condition holds and its operation is not supported.  In both cases execution
goes on behind it and everything else is as before, also if the processor is changed in
place.  Every other word is executed or branches to itself. -/
theorem execute_outcome (hquiet : ∀ fault devices, ¬ bus.mmio.Panics fault devices)
    (word addr : Word) (cpu : Cpu) :
    ∃ outcome cpu' bus', (decode word).execute addr word cpu bus = .ok (outcome, cpu') bus' ∧
      (decode word).executeInPlace addr word ⟨cpu, bus⟩ = .ok outcome ⟨cpu', bus'⟩ ∧
      (outcome = .skipped ↔ (decode word).cond.passes cpu.cpsr = false) ∧
      (outcome = .unhandled addr word ↔
        (decode word).cond.passes cpu.cpsr = true ∧ (decode word).op.unsupported = true) ∧
      (outcome = .skipped ∨ outcome = .unhandled addr word →
        cpu'.EqOffPc cpu ∧ cpu'.pc = addr + 4 ∧ bus' = bus) ∧
      (outcome = .skipped ∨ outcome = .unhandled addr word ∨ outcome = .executed ∨
        outcome = .selfLoop addr) := by
  cases hpasses : (decode word).cond.passes cpu.cpsr with
  | false =>
      have h := execute_of_fails hpasses addr word bus
      exact ⟨.skipped, cpu.advance addr, bus, h, executeInPlace_of_execute h, by simp, by simp,
        fun _ => ⟨.setPc cpu _, cpu.pc_advance addr, rfl⟩, .inl rfl⟩
  | true =>
      cases hop : (decode word).op.unsupported with
      | true =>
          have h := execute_of_unsupported hpasses hop addr word bus
          exact ⟨.unhandled addr word, cpu.advance addr, bus, h, executeInPlace_of_execute h,
            by simp, by simp, fun _ => ⟨.setPc cpu _, cpu.pc_advance addr, rfl⟩, .inr (.inl rfl)⟩
      | false =>
          obtain ⟨outcome, cpu', bus', h⟩ :=
            exists_execute_eq_ok hquiet (decode word) addr word cpu
          have houtcome := outcome_of_supported hpasses hop Operation.isShiftedByReg_of_decode h
          refine ⟨outcome, cpu', bus', h, executeInPlace_of_execute h, ?_⟩
          rcases houtcome with rfl | rfl <;> simp

/-- An addition with carry on a bus without devices. -/
theorem execute_outcome_adc :
    let bus := Bus.ofRam (.zeroed 0 0) ()
    (∀ fault devices, ¬ bus.mmio.Panics fault devices) ∧
      ∃ cpu', (decode 0xe0a11002).execute 0x8000 0xe0a11002 .initial bus =
          .ok (.unhandled 0x8000 0xe0a11002, cpu') bus ∧
        cpu'.EqOffPc .initial ∧ cpu'.pc = 0x8004 := by
  intro bus
  have hquiet : ∀ fault devices, ¬ bus.mmio.Panics fault devices := by
    rintro fault devices ⟨addr, region, before, hfind, -⟩
    cases hfind
  obtain ⟨outcome, cpu', bus', hexecute, -, -, hunhandled, hkept, -⟩ :=
    execute_outcome hquiet 0xe0a11002 0x8000 .initial
  obtain rfl := hunhandled.2 (by decide)
  obtain ⟨heq, hpc, rfl⟩ := hkept (.inr rfl)
  exact ⟨hquiet, cpu', hexecute, heq, hpc⟩

end Instruction

end ArmEmulator
