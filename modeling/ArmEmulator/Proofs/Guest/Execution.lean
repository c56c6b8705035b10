import ArmEmulator.Guest.Execution
import ArmEmulator.Proofs.Access

/-!
# Executing an instruction

An instruction takes its address from where it was fetched, never from the
program counter in the processor state, and leaves a program counter of its own
behind.  Two states that agree on everything else are therefore the same to it.
An operation that cannot move the program counter leaves it on the next word.

Main results:

- Theorem {lit}`Instruction.execute_congr`: execution does not depend on the
  program counter in the state.
- Theorem {lit}`Instruction.pc_of_execute`: an instruction that does not write
  the program counter goes on at the next word.
-/

namespace ArmEmulator

/-- Replaces the current status. -/
def Cpu.withCpsr (cpu : Cpu) (psr : Word) : Cpu :=
  { cpu with cpsr := psr }

/-- A register that is not the program counter is read as it is. -/
theorem Cpu.readAt_of_ne {r : Reg} (hr : r ≠ .pc) (cpu : Cpu) (addr : Word) :
    cpu.readAt addr r = cpu.reg r :=
  if_neg hr

/-! ## States that agree off the program counter -/

/-- Two states agree on everything but the program counter. -/
structure Cpu.EqOffPc (cpu cpu' : Cpu) : Prop where
  reg : ∀ r, r ≠ .pc → cpu.reg r = cpu'.reg r
  cpsr : cpu.cpsr = cpu'.cpsr
  spsr : cpu.spsr = cpu'.spsr

namespace Cpu.EqOffPc

variable {cpu cpu' cpu'' : Cpu}

theorem refl (cpu : Cpu) : EqOffPc cpu cpu where
  reg _ _ := rfl
  cpsr := rfl
  spsr := rfl

theorem symm (h : EqOffPc cpu cpu') : EqOffPc cpu' cpu where
  reg r hr := (h.reg r hr).symm
  cpsr := h.cpsr.symm
  spsr := h.spsr.symm

theorem trans (h : EqOffPc cpu cpu') (h' : EqOffPc cpu' cpu'') : EqOffPc cpu cpu'' where
  reg r hr := (h.reg r hr).trans (h'.reg r hr)
  cpsr := h.cpsr.trans h'.cpsr
  spsr := h.spsr.trans h'.spsr

/-- Moving the program counter is not seen. -/
theorem setPc (cpu : Cpu) (addr : Word) : EqOffPc (cpu.setPc addr) cpu where
  reg _ hr := reg_setReg_of_ne cpu hr.symm addr
  cpsr := rfl
  spsr := rfl

/-- The same write keeps the agreement. -/
theorem setReg (h : EqOffPc cpu cpu') (r : Reg) (value : Word) :
    EqOffPc (cpu.setReg r value) (cpu'.setReg r value) where
  reg s hs := by
    rw [reg_setReg, reg_setReg, h.reg s hs]
  cpsr := h.cpsr
  spsr := h.spsr

/-- Writing the program counter makes the states equal. -/
theorem setPc_eq (h : EqOffPc cpu cpu') (addr : Word) : cpu.setPc addr = cpu'.setPc addr := by
  refine ext_reg ?_ h.cpsr h.spsr
  intro r
  unfold Cpu.setPc
  rw [reg_setReg, reg_setReg]
  by_cases hr : Reg.pc = r
  · rw [if_pos hr, if_pos hr]
  · rw [if_neg hr, if_neg hr]
    exact h.reg r fun hpc => hr hpc.symm

theorem readAt (h : EqOffPc cpu cpu') (addr : Word) (r : Reg) :
    cpu.readAt addr r = cpu'.readAt addr r := by
  unfold Cpu.readAt
  split
  · rfl
  · rename_i hr
    exact h.reg r hr

theorem flag (h : EqOffPc cpu cpu') (f : Flag) : cpu.flag f = cpu'.flag f := by
  unfold Cpu.flag
  rw [h.cpsr]

theorem withCpsr (h : EqOffPc cpu cpu') (psr : Word) :
    EqOffPc (cpu.withCpsr psr) (cpu'.withCpsr psr) where
  reg := h.reg
  cpsr := rfl
  spsr := h.spsr

theorem withSpsr (h : EqOffPc cpu cpu') (psr : Word) :
    EqOffPc { cpu with spsr := psr } { cpu' with spsr := psr } where
  reg := h.reg
  cpsr := h.cpsr
  spsr := rfl

theorem setResultFlags (h : EqOffPc cpu cpu') (result : AluResult) :
    EqOffPc (cpu.setResultFlags result) (cpu'.setResultFlags result) := by
  unfold Cpu.setResultFlags setArithmeticFlags setLogicalFlags
  rw [h.cpsr]
  split <;> exact h.withCpsr _

theorem restoreStatus (h : EqOffPc cpu cpu') :
    EqOffPc cpu.restoreStatus cpu'.restoreStatus := by
  unfold Cpu.restoreStatus
  rw [h.spsr]
  exact ⟨h.reg, rfl, rfl⟩

end Cpu.EqOffPc

/-- Two states agree on everything but some registers. -/
structure Cpu.EqOutside (changed : List Reg) (cpu cpu' : Cpu) : Prop where
  reg : ∀ r, r ∉ changed → cpu.reg r = cpu'.reg r
  cpsr : cpu.cpsr = cpu'.cpsr
  spsr : cpu.spsr = cpu'.spsr

namespace Cpu.EqOutside

variable {changed : List Reg} {cpu cpu' cpu'' : Cpu}

theorem refl (changed : List Reg) (cpu : Cpu) : EqOutside changed cpu cpu :=
  ⟨fun _ _ => rfl, rfl, rfl⟩

theorem trans (h : EqOutside changed cpu cpu') (h' : EqOutside changed cpu' cpu'') :
    EqOutside changed cpu cpu'' where
  reg r hr := (h.reg r hr).trans (h'.reg r hr)
  cpsr := h.cpsr.trans h'.cpsr
  spsr := h.spsr.trans h'.spsr

/-- Fewer registers may differ than are allowed to. -/
theorem mono {changed' : List Reg} (h : EqOutside changed cpu cpu') (hsub : changed ⊆ changed') :
    EqOutside changed' cpu cpu' where
  reg r hr := h.reg r fun hmem => hr (hsub hmem)
  cpsr := h.cpsr
  spsr := h.spsr

/-- A write of one of the registers is not seen. -/
theorem setReg {r : Reg} (hr : r ∈ changed) (cpu : Cpu) (value : Word) :
    EqOutside changed (cpu.setReg r value) cpu where
  reg s hs := by
    refine reg_setReg_of_ne cpu ?_ value
    rintro rfl
    exact hs hr
  cpsr := rfl
  spsr := rfl

end Cpu.EqOutside

/-- States that agree off the program counter agree outside any list that has it. -/
theorem Cpu.EqOffPc.eqOutside {cpu cpu' : Cpu} (h : EqOffPc cpu cpu') (changed : List Reg) :
    EqOutside (.pc :: changed) cpu cpu' where
  reg r hr := h.reg r fun hpc => hr (hpc ▸ List.mem_cons_self ..)
  cpsr := h.cpsr
  spsr := h.spsr

/-! ## Registers that an instruction writes -/

/-- The registers that a single transfer writes beside the program counter. -/
def Transfer.written (t : Transfer) : List Reg :=
  (if t.load then [t.rd] else []) ++ if t.writesBack then [t.rn] else []

/-- The registers that a multiple transfer writes beside the program counter. -/
def MultiTransfer.written (m : MultiTransfer) : List Reg :=
  (if m.load then m.list.toList else []) ++ if m.writeback then [m.rn] else []

/-- The registers that an operation writes beside the program counter. -/
def Operation.written : Operation → List Reg
  | .dataProcessing d => if d.op.isTest then [] else [d.rd]
  | .transfer t => t.written
  | .multiTransfer m => m.written
  | .branch b => if b.link then [.lr] else []
  | .statusTransfer (.read rd _) => [rd]
  | .statusTransfer (.write _ _ _) | .coprocessor | .unknown _ => []

/-- A single transfer updates its base only. -/
theorem Transfer.eqOutside_writeBack (t : Transfer) (addr : Word) (cpu : Cpu) :
    (t.writeBack addr cpu).EqOutside (.pc :: t.written) cpu := by
  unfold writeBack
  split
  · rename_i hwrites
    exact .setReg (by simp [written, hwrites]) cpu _
  · exact .refl _ cpu

/-- A multiple transfer updates its base only. -/
theorem MultiTransfer.eqOutside_writeBack (m : MultiTransfer) (addr : Word) (cpu : Cpu) :
    (m.writeBack addr cpu).EqOutside (.pc :: m.written) cpu := by
  unfold writeBack
  split
  · rename_i hwrites
    exact .setReg (by simp [written, hwrites]) cpu _
  · exact .refl _ cpu

/-! ## Accesses of a single transfer -/

section Widths

variable {ω : Type}

/-- Reads a word, or a byte as a word. -/
def Bus.load (byte : Bool) (addr : Word) : Access (Bus ω) Word :=
  if byte then (·.setWidth 32) <$> Bus.read8 addr else Bus.read32 addr

/-- Writes a word, or its low byte. -/
def Bus.store (byte : Bool) (addr value : Word) : Access (Bus ω) Unit :=
  if byte then Bus.write8 addr (value.setWidth 8) else Bus.write32 addr value

theorem Transfer.execute_of_load {t : Transfer} (h : t.load = true) (addr : Word) (cpu : Cpu) :
    (t.execute addr cpu : Access (Bus ω) Cpu) =
      Bus.load t.byte (t.accessAddress addr cpu) >>= fun value =>
        pure (t.afterLoad addr cpu value) := by
  unfold Transfer.execute Bus.load
  rw [if_pos h]
  split <;> rfl

theorem Transfer.execute_of_store {t : Transfer} (h : t.load = false) (addr : Word) (cpu : Cpu) :
    (t.execute addr cpu : Access (Bus ω) Cpu) =
      Bus.store t.byte (t.accessAddress addr cpu) (cpu.readAt addr t.rd) >>= fun _ =>
        pure (t.afterStore addr cpu) := by
  unfold Transfer.execute Bus.store
  rw [if_neg (by simp [h])]
  split <;> rfl

end Widths

/-! ## Execution does not read the program counter -/

section Congruence

open Cpu (EqOffPc)

variable {cpu cpu' : Cpu} {ω : Type}

theorem Operand.eval?_congr (h : EqOffPc cpu cpu') (operand : Operand) (addr : Word) :
    operand.eval? addr cpu = operand.eval? addr cpu' := by
  unfold Operand.eval?
  cases operand with
  | imm imm8 rotate => simp only [h.flag]
  | reg r => simp only [h.flag, h.readAt]
  | regByReg reg shift amount => rfl

theorem DataProcessing.execute?_congr (h : EqOffPc cpu cpu') (d : DataProcessing) (addr : Word) :
    d.execute? addr cpu = d.execute? addr cpu' := by
  unfold DataProcessing.execute?
  rw [d.operand.eval?_congr h addr, h.readAt]
  refine Option.bind_congr fun operand _ => Option.bind_congr fun result _ => ?_
  split
  · exact congrArg some ((h.setResultFlags result).setPc_eq _)
  · split
    · refine congrArg some ?_
      by_cases hs : d.setFlags = true
      · rw [if_pos hs, if_pos hs]
        exact h.restoreStatus.setPc_eq _
      · rw [if_neg hs, if_neg hs]
        exact h.setPc_eq _
    · refine congrArg some ?_
      by_cases hs : d.setFlags = true
      · rw [if_pos hs, if_pos hs]
        exact ((h.setReg _ _).setResultFlags _).setPc_eq _
      · rw [if_neg hs, if_neg hs]
        exact (h.setReg _ _).setPc_eq _

namespace Transfer

theorem offsetValue_congr (h : EqOffPc cpu cpu') (t : Transfer) (addr : Word) :
    t.offsetValue addr cpu = t.offsetValue addr cpu' := by
  unfold offsetValue
  cases t.offset with
  | imm value => rfl
  | reg r => simp only [h.flag, h.readAt]

theorem offsetAddress_congr (h : EqOffPc cpu cpu') (t : Transfer) (addr : Word) :
    t.offsetAddress addr cpu = t.offsetAddress addr cpu' := by
  unfold offsetAddress
  rw [h.readAt, t.offsetValue_congr h]

theorem accessAddress_congr (h : EqOffPc cpu cpu') (t : Transfer) (addr : Word) :
    t.accessAddress addr cpu = t.accessAddress addr cpu' := by
  unfold accessAddress
  rw [h.readAt, t.offsetAddress_congr h]

theorem writeBack_congr (h : EqOffPc cpu cpu') (t : Transfer) (addr : Word) :
    EqOffPc (t.writeBack addr cpu) (t.writeBack addr cpu') := by
  unfold writeBack
  rw [t.offsetAddress_congr h]
  split
  · exact h.setReg _ _
  · exact h

/-- A base written back to the program counter makes the states equal. -/
theorem writeBack_eq_of_pc (h : EqOffPc cpu cpu') {t : Transfer}
    (hpc : (t.writesBack && t.rn == .pc) = true) (addr : Word) :
    t.writeBack addr cpu = t.writeBack addr cpu' := by
  simp only [Bool.and_eq_true, beq_iff_eq] at hpc
  unfold writeBack
  rw [if_pos hpc.1, if_pos hpc.1, hpc.2, t.offsetAddress_congr h]
  exact h.setPc_eq _

theorem afterLoad_congr (h : EqOffPc cpu cpu') (t : Transfer) (addr value : Word) :
    t.afterLoad addr cpu value = t.afterLoad addr cpu' value := by
  unfold afterLoad
  by_cases hrd : t.rd = .pc
  · rw [if_pos hrd, if_pos hrd]
    exact (t.writeBack_congr h addr).setPc_eq _
  · rw [if_neg hrd, if_neg hrd]
    unfold proceed
    split
    · rename_i hpc
      rw [writeBack_eq_of_pc h hpc]
    · exact ((t.writeBack_congr h addr).setReg _ _).setPc_eq _

theorem afterStore_congr (h : EqOffPc cpu cpu') (t : Transfer) (addr : Word) :
    t.afterStore addr cpu = t.afterStore addr cpu' := by
  unfold afterStore proceed
  split
  · rename_i hpc
    exact writeBack_eq_of_pc h hpc addr
  · exact (t.writeBack_congr h addr).setPc_eq _

theorem execute_congr (h : EqOffPc cpu cpu') (t : Transfer) (addr : Word) :
    (t.execute addr cpu : Access (Bus ω) Cpu) = t.execute addr cpu' := by
  unfold execute
  simp only [t.accessAddress_congr h, t.afterLoad_congr h, t.afterStore_congr h, h.readAt]

end Transfer

namespace MultiTransfer

theorem writeBack_congr (h : EqOffPc cpu cpu') (m : MultiTransfer) (addr : Word) :
    EqOffPc (m.writeBack addr cpu) (m.writeBack addr cpu') := by
  unfold writeBack
  rw [h.readAt]
  split
  · exact h.setReg _ _
  · exact h

/-- A base written back to the program counter makes the states equal. -/
theorem writeBack_eq_of_pc (h : EqOffPc cpu cpu') {m : MultiTransfer}
    (hpc : (m.writeback && m.rn == .pc) = true) (addr : Word) :
    m.writeBack addr cpu = m.writeBack addr cpu' := by
  simp only [Bool.and_eq_true, beq_iff_eq] at hpc
  unfold writeBack
  rw [if_pos hpc.1, if_pos hpc.1, hpc.2, h.readAt]
  exact h.setPc_eq _

/-- The registers of a list with their loaded values; the program counter is left out. -/
theorem loadedRegs_congr (h : EqOffPc cpu cpu') (values : List (Reg × Word)) :
    EqOffPc (values.foldl (fun cpu (r, value) => if r = .pc then cpu else cpu.setReg r value) cpu)
      (values.foldl (fun cpu (r, value) => if r = .pc then cpu else cpu.setReg r value) cpu') := by
  induction values generalizing cpu cpu' with
  | nil => exact h
  | cons loaded values ih =>
      refine ih ?_
      by_cases hr : loaded.1 = .pc
      · simp only [hr, if_true]
        exact h
      · simp only [hr, if_false]
        exact h.setReg _ _

theorem afterLoad_congr (h : EqOffPc cpu cpu') (m : MultiTransfer) (addr : Word)
    (values : List (Reg × Word)) : m.afterLoad addr cpu values = m.afterLoad addr cpu' values := by
  have hloaded := loadedRegs_congr (m.writeBack_congr h addr) values
  unfold afterLoad
  dsimp only
  split
  · by_cases hs : m.psr = true
    · rw [if_pos hs, if_pos hs]
      exact hloaded.restoreStatus.setPc_eq _
    · rw [if_neg hs, if_neg hs]
      exact hloaded.setPc_eq _
  · unfold proceed
    split
    · rename_i hpc
      rw [writeBack_eq_of_pc h hpc]
    · exact hloaded.setPc_eq _

theorem afterStore_congr (h : EqOffPc cpu cpu') (m : MultiTransfer) (addr : Word) :
    m.proceed addr (m.writeBack addr cpu) = m.proceed addr (m.writeBack addr cpu') := by
  unfold proceed
  split
  · rename_i hpc
    exact writeBack_eq_of_pc h hpc addr
  · exact (m.writeBack_congr h addr).setPc_eq _

theorem execute_congr (h : EqOffPc cpu cpu') (m : MultiTransfer) (addr : Word) :
    (m.execute addr cpu : Access (Bus ω) Cpu) = m.execute addr cpu' := by
  have hread : cpu.readAt addr = cpu'.readAt addr := funext (h.readAt addr)
  unfold execute
  simp only [hread, m.afterLoad_congr h, m.afterStore_congr h]

end MultiTransfer

theorem Branch.execute_congr (h : EqOffPc cpu cpu') (b : Branch) (addr : Word) :
    b.execute addr cpu = b.execute addr cpu' := by
  have htarget : b.destination addr cpu = b.destination addr cpu' := by
    unfold Branch.destination
    cases b.target with
    | offset bytes => rfl
    | reg r => simp only [h.readAt]
  unfold Branch.execute
  rw [htarget]
  refine Prod.ext rfl ?_
  by_cases hl : b.link = true
  · simp only [if_pos hl]
    exact (h.setReg _ _).setPc_eq _
  · simp only [if_neg hl]
    exact h.setPc_eq _

theorem StatusTransfer.execute?_congr (h : EqOffPc cpu cpu') (s : StatusTransfer) (addr : Word) :
    s.execute? addr cpu = s.execute? addr cpu' := by
  unfold StatusTransfer.execute?
  cases s with
  | read rd spsr =>
      simp only [h.cpsr, h.spsr]
      refine congrArg some ?_
      split
      · exact h.setPc_eq _
      · exact (h.setReg _ _).setPc_eq _
  | write spsr fields operand =>
      dsimp only
      rw [operand.eval?_congr h]
      refine Option.bind_congr fun value _ => congrArg some ?_
      cases spsr with
      | true =>
          rw [if_pos rfl, if_pos rfl, h.spsr]
          exact (h.withSpsr _).setPc_eq _
      | false =>
          rw [if_neg Bool.false_ne_true, if_neg Bool.false_ne_true, h.cpsr]
          exact (h.withCpsr _).setPc_eq _

namespace Instruction

theorem orUnhandled_congr (h : EqOffPc cpu cpu') (addr word : Word) (after? : Option Cpu) :
    orUnhandled addr word cpu after? = orUnhandled addr word cpu' after? := by
  cases after? with
  | some after => rfl
  | none => exact congrArg (Prod.mk _) (h.setPc_eq _)

/-- Execution does not depend on the program counter in the state. -/
theorem execute_congr (h : EqOffPc cpu cpu') (i : Instruction) (addr word : Word) :
    (i.execute addr word cpu : Access (Bus ω) (Outcome × Cpu)) = i.execute addr word cpu' := by
  have hskip : cpu.advance addr = cpu'.advance addr := h.setPc_eq _
  unfold execute
  rw [h.cpsr]
  split
  · cases i.op with
    | dataProcessing d => simp only [d.execute?_congr h, orUnhandled_congr h]
    | transfer t => simp only [t.execute_congr h]
    | multiTransfer m => simp only [m.execute_congr h]
    | branch b => simp only [b.execute_congr h]
    | statusTransfer s => simp only [s.execute?_congr h, orUnhandled_congr h]
    | coprocessor => simp only [hskip]
    | unknown w => simp only [orUnhandled_congr h]
  · simp only [hskip]

end Instruction

end Congruence

/-! ## Where execution goes on -/

section NextWord

variable {cpu cpu' : Cpu} {addr word : Word} {ω : Type}

@[simp]
theorem Cpu.pc_setPc (cpu : Cpu) (addr : Word) : (cpu.setPc addr).pc = addr :=
  reg_setReg_self cpu .pc addr

/-- Moving the program counter to where it is changes nothing. -/
theorem Cpu.setPc_pc (cpu : Cpu) : cpu.setPc cpu.pc = cpu := by
  refine ext_reg ?_ rfl rfl
  intro r
  rw [setPc, reg_setReg]
  split
  · rename_i h
    rw [← h]
    rfl
  · rfl

@[simp]
theorem Cpu.pc_advance (cpu : Cpu) (addr : Word) : (cpu.advance addr).pc = addr + 4 :=
  cpu.pc_setPc (addr + 4)

theorem DataProcessing.pc_of_execute? {d : DataProcessing}
    (hw : (Operation.dataProcessing d).writesPc = false)
    (h : d.execute? addr cpu = some cpu') : cpu'.pc = addr + 4 := by
  unfold DataProcessing.execute? at h
  obtain ⟨operand, -, h⟩ := Option.bind_eq_some_iff.1 h
  obtain ⟨result, -, h⟩ := Option.bind_eq_some_iff.1 h
  split at h
  · cases h
    exact Cpu.pc_advance _ _
  · rename_i htest
    have hrd : d.rd ≠ .pc := by
      simpa [Operation.writesPc, htest] using hw
    rw [if_neg hrd] at h
    cases h
    exact Cpu.pc_advance _ _

theorem Transfer.pc_of_execute {t : Transfer} {bus bus' : Bus ω}
    (hw : (Operation.transfer t).writesPc = false)
    (h : t.execute addr cpu bus = .ok cpu' bus') : cpu'.pc = addr + 4 := by
  simp only [Operation.writesPc, Bool.or_eq_false_iff] at hw
  have hproceed : ∀ c, (t.proceed addr c).pc = addr + 4 := by
    intro c
    rw [Transfer.proceed, if_neg (by simp [hw.2])]
    exact Cpu.pc_advance _ _
  by_cases hload : t.load = true
  · have hrd : t.rd ≠ .pc := by
      simpa [hload] using hw.1
    rw [Transfer.execute_of_load hload] at h
    obtain ⟨value, -, rfl⟩ := Access.bind_pure_eq_ok_iff.1 h
    rw [Transfer.afterLoad, if_neg hrd]
    exact hproceed _
  · rw [Transfer.execute_of_store (by simpa using hload)] at h
    obtain ⟨value, -, rfl⟩ := Access.bind_pure_eq_ok_iff.1 h
    exact hproceed _

/-- Loading a list gives one value for each of its registers, in order. -/
theorem keys_of_readList {list : List Reg} {values : List (Reg × Word)} {bus bus' : Bus ω}
    (h : readList addr list bus = .ok values bus') : values.map Prod.fst = list := by
  induction list generalizing addr values bus bus' with
  | nil =>
      obtain ⟨rfl, -⟩ := Access.pure_eq_ok_iff.1 h
      rfl
  | cons r list ih =>
      obtain ⟨value, between, -, h⟩ := Access.bind_eq_ok_iff.1 h
      obtain ⟨rest, hrest, rfl⟩ := Access.bind_pure_eq_ok_iff.1 h
      rw [List.map_cons, ih hrest]

/-- Where a register has no value none is found. -/
theorem lookup_eq_none_of_notMem {values : List (Reg × Word)} {r : Reg}
    (hr : r ∉ values.map Prod.fst) : values.lookup r = none := by
  rw [List.lookup_eq_none_iff]
  intro entry hentry
  rw [bne_iff_ne]
  rintro rfl
  exact hr (List.mem_map_of_mem hentry)

/-- Loading a list that lacks a register gives no value for it. -/
theorem lookup_of_readList {list : List Reg} {r : Reg} (hr : r ∉ list)
    {values : List (Reg × Word)} {bus bus' : Bus ω}
    (h : readList addr list bus = .ok values bus') : values.lookup r = none := by
  apply lookup_eq_none_of_notMem
  rw [keys_of_readList h]
  exact hr

theorem MultiTransfer.pc_of_execute {m : MultiTransfer} {bus bus' : Bus ω}
    (hw : (Operation.multiTransfer m).writesPc = false)
    (h : m.execute addr cpu bus = .ok cpu' bus') : cpu'.pc = addr + 4 := by
  simp only [Operation.writesPc, Bool.or_eq_false_iff] at hw
  have hproceed : ∀ c, (m.proceed addr c).pc = addr + 4 := by
    intro c
    rw [MultiTransfer.proceed, if_neg (by simp [hw.2])]
    exact Cpu.pc_advance _ _
  unfold MultiTransfer.execute at h
  split at h
  · rename_i hload
    have hlist : Reg.pc ∉ m.list.toList := by
      simpa [hload] using hw.1
    obtain ⟨values, hread, rfl⟩ := Access.bind_pure_eq_ok_iff.1 h
    rw [MultiTransfer.afterLoad, lookup_of_readList hlist hread]
    exact hproceed _
  · obtain ⟨value, -, rfl⟩ := Access.bind_pure_eq_ok_iff.1 h
    exact hproceed _

theorem StatusTransfer.pc_of_execute? {s : StatusTransfer}
    (hw : (Operation.statusTransfer s).writesPc = false)
    (h : s.execute? addr cpu = some cpu') : cpu'.pc = addr + 4 := by
  cases s with
  | read rd spsr =>
      have hrd : rd ≠ .pc := by
        simpa [Operation.writesPc] using hw
      simp only [StatusTransfer.execute?, if_neg hrd, Option.some.injEq] at h
      subst h
      exact Cpu.pc_advance _ _
  | write spsr fields operand =>
      obtain ⟨value, -, h⟩ := Option.bind_eq_some_iff.1 h
      cases h
      exact Cpu.pc_advance _ _

namespace Instruction

theorem pc_of_orUnhandled {after? : Option Cpu}
    (h : ∀ after, after? = some after → after.pc = addr + 4) :
    (orUnhandled addr word cpu after?).2.pc = addr + 4 := by
  cases after? with
  | some after => exact h after rfl
  | none => exact Cpu.pc_advance _ _

/-- An instruction that does not write the program counter goes on at the next
word, whatever its condition and outcome. -/
theorem pc_of_execute {i : Instruction} {outcome : Outcome} {bus bus' : Bus ω}
    (hw : i.writesPc = false) (h : i.execute addr word cpu bus = .ok (outcome, cpu') bus') :
    cpu'.pc = addr + 4 := by
  obtain ⟨cond, op⟩ := i
  unfold execute at h
  split at h
  · cases op with
    | dataProcessing d =>
        obtain ⟨heq, -⟩ := Access.pure_eq_ok_iff.1 h
        rw [show cpu' = (orUnhandled addr word cpu (d.execute? addr cpu)).2 by rw [heq]]
        exact pc_of_orUnhandled fun after => DataProcessing.pc_of_execute? hw
    | transfer t =>
        obtain ⟨after, ht, heq⟩ := Access.bind_pure_eq_ok_iff.1 h
        cases heq
        exact Transfer.pc_of_execute hw ht
    | multiTransfer m =>
        obtain ⟨after, hm, heq⟩ := Access.bind_pure_eq_ok_iff.1 h
        cases heq
        exact MultiTransfer.pc_of_execute hw hm
    | branch b => cases hw
    | statusTransfer s =>
        obtain ⟨heq, -⟩ := Access.pure_eq_ok_iff.1 h
        rw [show cpu' = (orUnhandled addr word cpu (s.execute? addr cpu)).2 by rw [heq]]
        exact pc_of_orUnhandled fun after => StatusTransfer.pc_of_execute? hw
    | coprocessor =>
        obtain ⟨heq, -⟩ := Access.pure_eq_ok_iff.1 h
        cases heq
        exact Cpu.pc_advance _ _
    | unknown w =>
        obtain ⟨heq, -⟩ := Access.pure_eq_ok_iff.1 h
        cases heq
        exact Cpu.pc_advance _ _
  · obtain ⟨heq, -⟩ := Access.pure_eq_ok_iff.1 h
    cases heq
    exact Cpu.pc_advance _ _

end Instruction

end NextWord

end ArmEmulator
