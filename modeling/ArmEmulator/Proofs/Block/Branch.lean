import ArmEmulator.Block.Branch
import ArmEmulator.Proofs.Block.Conditions

/-!
# Branches in a running block

A native branch always leaves the block: to its target when its condition holds,
and to the next instruction when it fails.

Main results:

- Theorem {lit}`run?_branch_of_passes`: a taken branch returns with the state
  that the branch leads to.
- Theorem {lit}`run?_branch_of_fails`: a branch that is not taken returns with
  the program counter on the next word.
-/

namespace ArmEmulator.Block

open Host (Machine Linkage Instr Code Item Label Flags runInstrs?)

variable {ε : Type} {link : Linkage ε} {saved : Host.Reg → BitVec 64} {cpu : Cpu} {env : ε}
  {m : Machine ε}

/-- Leaving to the address in a register clears its lowest bit. -/
theorem run?_exitToReg (hm : Loaded link saved cpu env m) {r : Reg} (hr : r ≠ .pc)
    (rest : Code) :
    ∃ m', Code.run? link none (exitToReg r ++ rest) m = some m' ∧
      Returned saved 0 (cpu.setPc (cpu.reg r &&& ~~~1)) env m' := by
  obtain ⟨spilled, hspill, hstored, hrax⟩ := runInstrs?_spill link hm
  have hload : spilled.load32? link (stateReg r) = some (cpu.reg r) := by
    rw [load32?_stateReg link spilled hrax, hstored.cpu_eq.reg r hr]
  obtain ⟨flags, hflags⟩ : ∃ flags, flags = (Host.Alu.and.eval (cpu.reg r) (~~~1)).2 := ⟨_, rfl⟩
  obtain ⟨masked, hmasked⟩ : ∃ masked, masked = ((spilled.put .rcx (cpu.reg r)).withFlags
    flags).put .rcx (cpu.reg r &&& ~~~1) := ⟨_, rfl⟩
  have hmask : (Instr.aluImm .and .rcx (~~~1)).step? link (spilled.put .rcx (cpu.reg r)) =
      some masked := by
    rw [Instr.step?_aluImm link _ (by decide) (by decide), Machine.low_put, if_pos rfl, hmasked,
      hflags]
    rfl
  have hmaskedRax : masked.reg .rax = link.state := by
    rw [hmasked, Machine.reg_put, if_neg (by decide), Machine.reg_withFlags, Machine.reg_put,
      if_neg (by decide), hrax]
  have hmaskedRcx : masked.low .rcx = cpu.reg r &&& ~~~1 := by
    rw [hmasked, Machine.low_put, if_pos rfl]
  obtain ⟨target, htarget⟩ : ∃ target, target = cpu.setPc (cpu.reg r &&& ~~~1) := ⟨_, rfl⟩
  have hmaskedCpu : masked.cpu.setReg .pc (cpu.reg r &&& ~~~1) = target := by
    rw [hmasked, htarget]
    exact hstored.cpu_eq.setPc_eq _
  have hstore : (Instr.store32 (stateReg .pc) .rcx).step? link masked =
      some (masked.withCpu target) := by
    rw [Instr.step?_store32 link masked (by decide), store32?_stateReg link masked hmaskedRax,
      hmaskedRcx, hmaskedCpu]
  have hrun : runInstrs? link (spill ++
      [.load32 .rcx (stateReg r), .aluImm .and .rcx (~~~1), .store32 (stateReg .pc) .rcx]) m =
        some (masked.withCpu target) := by
    rw [Host.runInstrs?_append_of_eq_some link hspill, Host.runInstrs?_cons,
      Instr.step?_load32 link _ (by decide), hload, Option.map_some, Option.bind_some,
      Host.runInstrs?_cons, hmask, Option.bind_some, Host.runInstrs?_cons, hstore]
    rfl
  have hframe : InFrame link saved (masked.withCpu target) := by
    obtain ⟨scratch, padding, hstack⟩ := hstored.inFrame
    refine ⟨scratch, padding, ?_⟩
    rw [hmasked]
    exact hstack
  have henv : (masked.withCpu target).env = env := by
    rw [hmasked]
    exact hstored.env_eq
  obtain ⟨m', hleave, hreturned⟩ := run?_epilogue hframe 0 rest
  rw [henv, Machine.cpu_withCpu, htarget] at hreturned
  refine ⟨m', ?_, hreturned⟩
  rw [exitToReg, Code.ofInstrs_append, List.append_assoc, Code.run?_ofInstrs_append link hrun]
  exact hleave

/-- A taken native branch returns with the state that the branch leads to.  A
register branch does not link. -/
theorem run?_takenBranch (hm : Loaded link saved cpu env m) {b : Branch} {addr : Word}
    (hlink : ∀ r, b.target = .reg r → b.link = false) {taken : Code}
    (h : takenBranch? addr b = some taken) (rest : Code) :
    ∃ m', Code.run? link none (taken ++ rest) m = some m' ∧
      Returned saved 0 (b.execute addr cpu).2 env m' := by
  obtain ⟨linked, target⟩ := b
  unfold takenBranch? at h
  unfold Branch.execute Branch.destination
  cases target with
  | reg r =>
      have hnone : linked = false := hlink r rfl
      have hr : r ≠ .pc := by
        rintro rfl
        cases h
      have hcode : exitToReg r = taken := by
        cases r <;> first | exact absurd rfl hr | exact Option.some.inj h
      have hread : cpu.readAt addr r = cpu.reg r := by
        rw [Cpu.readAt_of_ne hr]
      have hexit := run?_exitToReg hm hr rest
      subst hnone
      rw [hcode, ← hread] at hexit
      exact hexit
  | offset bytes =>
      cases h
      cases linked with
      | false => exact run?_exitTo hm (addr + 8 + bytes) rest
      | true =>
          have hlr : runInstrs? link [.movImm .r15 (addr + 4)] m =
              some (m.put .r15 (addr + 4)) := by
            rw [Host.runInstrs?_cons, Instr.step?_movImm link m (by decide)]
            rfl
          dsimp only
          rw [if_pos rfl, if_pos rfl, Code.ofInstrs_append, List.append_assoc,
            Code.run?_ofInstrs_append link hlr]
          exact run?_exitTo (hm.put (r := .lr) rfl (addr + 4)) (addr + 8 + bytes) rest

/-- A native branch whose condition holds returns with the state that the branch
leads to. -/
theorem run?_branch_of_passes (hm : Loaded link saved cpu env m) {b : Branch} {addr : Word}
    (hlink : ∀ r, b.target = .reg r → b.link = false) {cond : Cond}
    (hcond : cond.passes cpu.cpsr = true) {skip : Label} {code : Code}
    (h : branch? cond skip addr b = some code) (rest : Code) :
    ∃ m', Code.run? link none (code ++ rest) m = some m' ∧
      Returned saved 0 (b.execute addr cpu).2 env m' := by
  obtain ⟨taken, htaken, rfl⟩ := Option.map_eq_some_iff.1 h
  by_cases hal : cond = .al
  · rw [if_pos hal]
    exact run?_takenBranch hm hlink htaken rest
  · obtain ⟨flags, hskip⟩ := run?_skipUnless hm.inFrame.pointed cond skip
      (taken ++ (.label skip :: Code.ofInstrs (exitTo (addr + 4)) ++ rest))
    rw [hm.cpsr, hcond, if_pos rfl] at hskip
    rw [if_neg hal, List.append_assoc, List.append_assoc, hskip]
    exact run?_takenBranch (hm.withFlags flags) hlink htaken _

/-- A native branch whose condition fails returns with the program counter on the
next word. -/
theorem run?_branch_of_fails (hm : Loaded link saved cpu env m) {b : Branch} {addr : Word}
    {cond : Cond} (hcond : cond.passes cpu.cpsr = false) {skip : Label} {code : Code}
    (h : branch? cond skip addr b = some code) {rest : Code} (hrest : Item.label skip ∉ rest) :
    ∃ m', Code.run? link none (code ++ rest) m = some m' ∧
      Returned saved 0 (cpu.advance addr) env m' := by
  obtain ⟨taken, htaken, rfl⟩ := Option.map_eq_some_iff.1 h
  have hal : cond ≠ .al := by
    rintro rfl
    cases hcond
  obtain ⟨flags, hskip⟩ := run?_skipUnless hm.inFrame.pointed cond skip
    (taken ++ (.label skip :: Code.ofInstrs (exitTo (addr + 4)) ++ rest))
  have hlater : Item.label skip ∉ Code.ofInstrs (exitTo (addr + 4)) ++ rest := by
    rw [List.mem_append, not_or]
    exact ⟨Code.label_notMem_ofInstrs _ _, hrest⟩
  rw [hm.cpsr, hcond, if_neg Bool.false_ne_true, List.cons_append,
    Code.run?_skip link hlater] at hskip
  rw [if_neg hal, List.append_assoc, List.append_assoc, List.cons_append, hskip]
  exact run?_exitTo (hm.withFlags flags) (addr + 4) rest

end ArmEmulator.Block
