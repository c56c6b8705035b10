import ArmEmulator.Proofs.Emulator.Refinement

/-!
# Faults inside a block

A block that faults has done what interpreting its instructions does up to the
access that a device refused.  What the faulting instruction would have written is
the only part of the processor that may differ from before it, and none of the
instructions of the block is counted.

Main results:

- Theorem {lit}`Emulator.faultsAt_iff_steps`: a block faults where single steps over
  its words do.
- Theorem {lit}`Emulator.translated_block_faults`: what a block that faults leaves
  behind.
-/

namespace ArmEmulator

open Block (Fetched Closes executeAll)

variable {ω : Type}

/-! ## The faulting instruction -/

namespace Block

/-- Interpreting fetched instructions one after another faults: those before number
{lit}`k` succeed and leave the processor {lit}`cpu'`, then that one, {lit}`f`, faults
and leaves the bus {lit}`bus'`. -/
structure FaultsAt (instrs : List Fetched) (cpu : Cpu) (bus : Bus ω) (k : Nat) (f : Fetched)
    (cpu' : Cpu) (fault : Fault) (bus' : Bus ω) : Prop where
  fetched : instrs[k]? = some f
  faults : ∃ count between, executeAll (instrs.take k) cpu bus = .ok (count, cpu') between ∧
    f.execute cpu' between = .error fault bus'

section FaultsAt

variable {instrs : List Fetched} {cpu cpu' : Cpu} {bus bus' : Bus ω} {k : Nat} {f : Fetched}
  {fault : Fault}

/-- The instructions around one of them. -/
theorem eq_take_append {α : Type} {l : List α} {k : Nat} {a : α} (h : l[k]? = some a) :
    l = l.take k ++ a :: l.drop (k + 1) := by
  obtain ⟨hk, rfl⟩ := List.getElem?_eq_some_iff.1 h
  rw [List.getElem_cons_drop, List.take_append_drop]

/-- If instructions fault one of them does after those before it. -/
theorem exists_faultsAt_of_executeAll (h : executeAll instrs cpu bus = .error fault bus') :
    ∃ k f cpu', FaultsAt instrs cpu bus k f cpu' fault bus' := by
  obtain ⟨before, f, after, count, cpu', between, rfl, hbefore, hfault⟩ :=
    exists_fault_of_executeAll h
  refine ⟨before.length, f, cpu', by simp, count, between, ?_, hfault⟩
  rw [List.take_left]
  exact hbefore

/-- The first instruction faults if it does by itself. -/
theorem faultsAt_zero_iff {g : Fetched} :
    FaultsAt (g :: instrs) cpu bus 0 f cpu' fault bus' ↔
      g = f ∧ cpu = cpu' ∧ g.execute cpu bus = .error fault bus' := by
  constructor
  · rintro ⟨⟨⟩, count, between, hbefore, hfault⟩
    obtain ⟨⟨⟩, rfl⟩ := Access.pure_eq_ok_iff.1 hbefore
    exact ⟨rfl, rfl, hfault⟩
  · rintro ⟨rfl, rfl, hfault⟩
    exact ⟨rfl, 0, bus, rfl, hfault⟩

/-- A later instruction faults if it does after the first one succeeded. -/
theorem faultsAt_succ_iff {g : Fetched} :
    FaultsAt (g :: instrs) cpu bus (k + 1) f cpu' fault bus' ↔
      ∃ outcome mid between, g.execute cpu bus = .ok (outcome, mid) between ∧
        FaultsAt instrs mid between k f cpu' fault bus' := by
  constructor
  · rintro ⟨hf, count, last, hbefore, hfault⟩
    obtain ⟨⟨outcome, mid⟩, between, hg, h⟩ := Access.bind_eq_ok_iff.1 hbefore
    obtain ⟨⟨tail, final⟩, hrest, heq⟩ := Access.bind_pure_eq_ok_iff.1 h
    cases heq
    exact ⟨outcome, mid, between, hg, hf, tail, last, hrest, hfault⟩
  · rintro ⟨outcome, mid, between, hg, hf, count, last, hbefore, hfault⟩
    refine ⟨hf, unhandledCount outcome + count, last, ?_, hfault⟩
    exact Access.bind_eq_ok_iff.2 ⟨_, _, hg,
      Access.bind_pure_eq_ok_iff.2 ⟨(count, cpu'), hbefore, rfl⟩⟩

/-- The fault is one of a registered device. -/
theorem FaultsAt.panics (h : FaultsAt instrs cpu bus k f cpu' fault bus') :
    bus.mmio.Panics fault bus'.devices := by
  obtain ⟨count, between, hbefore, hfault⟩ := h.faults
  rw [← (keeps_executeAll Bus.settled_mmio _ cpu).of_ok hbefore]
  exact Instruction.exists_panic_of_execute hfault

end FaultsAt

end Block

open Block (FaultsAt)

/-! ## Translated blocks -/

namespace Translator

variable [Block.HelperTable] {t : Translator} {ram : Ram} {pc : Word} (hready : t.Ready ram)
  (hheld : t.contains pc = true) {cpu cpu' : Cpu} {bus bus' : Bus ω}
include hready hheld

/-- A block reports the fault of its instruction that faults and leaves what was done
up to then; only what that instruction writes may differ from before it. -/
theorem execute_of_faultsAt {k : Nat} {f : Fetched} {fault : Fault}
    (h : FaultsAt (fetchBlock ram t.maxBlockLength pc) cpu bus k f cpu' fault bus') :
    ∃ addr last, t.execute pc cpu bus = (.error (.fault addr fault.reason), last, bus') ∧
      last.EqOutside (.pc :: f.written) cpu' := by
  obtain ⟨block, hblock, hfaithful⟩ := hready.exists_faithful hheld
  obtain ⟨count, between, hbefore, hfault⟩ := h.faults
  obtain ⟨j, request, place, width, hstops, hplace⟩ := Block.Fetched.exists_stopsAt hfault
  obtain ⟨last, hrun, hkept⟩ := execute_of_fault hblock hfaithful hready.executable
    (Block.eq_take_append h.fetched) hbefore hstops hplace
  exact ⟨f.reported place, last, hrun, hkept⟩

/-- A block fails only because one of its instructions faults. -/
theorem exists_faultsAt_of_execute {err : ExecError} {last : Cpu}
    (h : t.execute pc cpu bus = (.error err, last, bus')) :
    ∃ k f cpu' fault,
      FaultsAt (fetchBlock ram t.maxBlockLength pc) cpu bus k f cpu' fault bus' := by
  obtain ⟨block, hblock, hfaithful⟩ := hready.exists_faithful hheld
  obtain ⟨fault, hall⟩ := exists_fault_of_execute hblock hfaithful hready.executable h
  obtain ⟨k, f, before, hfaults⟩ := Block.exists_faultsAt_of_executeAll hall
  exact ⟨k, f, before, fault, hfaults⟩

end Translator

namespace Emulator

variable {snapshot? : Option Ram} {e : Emulator ω}

/-! ## Steps up to the fault -/

/-- A later instruction faults if it does after a single step that succeeds. -/
theorem faultsAt_succ_iff_step {g : Fetched} {instrs : List Fetched}
    (hfetch : e.cpu.step e.bus = g.execute e.cpu e.bus) {k : Nat} {f : Fetched} {cpu : Cpu}
    {fault : Fault} {bus : Bus ω} :
    FaultsAt (g :: instrs) e.cpu e.bus (k + 1) f cpu fault bus ↔
      (∃ outcome, e.step.1 = .ok outcome) ∧
        FaultsAt instrs e.step.2.cpu e.step.2.bus k f cpu fault bus := by
  rw [Block.faultsAt_succ_iff, ← hfetch]
  constructor
  · rintro ⟨outcome, mid, between, hg, hfault⟩
    rw [step_of_ok hg]
    exact ⟨⟨outcome, rfl⟩, hfault⟩
  · rintro ⟨⟨outcome, hok⟩, hfault⟩
    exact ⟨outcome, _, _, cpu_step_of_step (Prod.ext hok rfl), hfault⟩

/-- A block faults at an instruction exactly when single steps over its words do,
provided that each word is still in memory when its turn comes. -/
theorem faultsAt_iff_steps {instrs : List Fetched} {next? : Option Word}
    (hcloses : Closes instrs next?) (hfrom : Consecutive e.cpu.pc instrs)
    (hdevice : ∀ g ∈ instrs, e.bus.mmio.find? g.addr = none) {k : Nat} {f : Fetched}
    (hk : instrs[k]? = some f)
    (hintact : ∀ j g, j ≤ k → instrs[j]? = some g →
      (e.stepN j).bus.ram.word? g.addr = some g.word)
    {cpu : Cpu} {fault : Fault} {bus : Bus ω} :
    FaultsAt instrs e.cpu e.bus k f cpu fault bus ↔
      (∀ i, i < k → ∃ outcome, (e.stepN i).step.1 = .ok outcome) ∧ (e.stepN k).cpu = cpu ∧
        (e.stepN k).step = (.error fault, { e.stepN k with bus }) := by
  induction k generalizing e instrs with
  | zero =>
      cases instrs with
      | nil => cases hk
      | cons g fs =>
          cases hk
          have hfetch := Cpu.step_of_word? hfrom.1 (hdevice f (List.mem_cons_self ..))
            (hintact 0 f (Nat.le_refl 0) rfl)
          rw [Block.faultsAt_zero_iff, ← hfetch]
          constructor
          · rintro ⟨-, rfl, hfault⟩
            exact ⟨fun i hi => absurd hi (Nat.not_lt_zero i), rfl, step_of_error hfault⟩
          · rintro ⟨-, rfl, hstep⟩
            exact ⟨rfl, rfl, step_eq_error_iff.1 hstep⟩
  | succ k ih =>
      cases instrs with
      | nil => cases hk
      | cons g fs =>
          cases fs with
          | nil => cases hk
          | cons g' fs =>
              have hfetch := Cpu.step_of_word? hfrom.1 (hdevice g (List.mem_cons_self ..))
                (hintact 0 g (Nat.zero_le _) rfl)
              rw [faultsAt_succ_iff_step hfetch, Nat.forall_lt_succ_left, and_assoc]
              refine and_congr_right fun ⟨outcome, hok⟩ => ?_
              have hstep : g.execute e.cpu e.bus = .ok (outcome, e.step.2.cpu) e.step.2.bus :=
                hfetch ▸ cpu_step_of_step (Prod.ext hok rfl)
              have hpc : e.step.2.cpu.pc = g.addr + 4 := Instruction.pc_of_execute hcloses.1 hstep
              refine ih hcloses.2 ?_ ?_ hk ?_
              · rw [hpc, hfrom.1]
                exact hfrom.2
              · intro c hc
                rw [mmio_step]
                exact hdevice c (List.mem_cons_of_mem g hc)
              · intro j c hj hc
                exact hintact (j + 1) c (Nat.succ_le_succ hj) hc

variable [Block.HelperTable]

/-! ## Translated steps -/

/-- A step whose block fails keeps everything but processor and bus. -/
theorem stepBlock_of_execute_error {t : Translator} {mode : ExecMode} {err : ExecError}
    {cpu : Cpu} {bus : Bus ω} (h : t.execute e.cpu.pc e.cpu e.bus = (.error err, cpu, bus)) :
    (e.equipped t mode).stepBlock =
      (.error (.execute e.cpu.pc e.instructions err), { e.equipped t mode with cpu, bus }) := by
  unfold stepBlock
  dsimp only [equipped]
  rw [h]

/-- The block at the program counter, translated before or just now, fails exactly
when interpreting its instructions does, whatever the processor and the bus.  It then
reports what a device gave as the reason, leaves the bus as the refused access did,
and keeps the statuses and every register but the program counter and those that the
faulting instruction writes.  A translated step that fails so counts nothing.  Where
the words of the block are still in memory single steps fault at the same instruction,
with the same processor before it and the same bus behind it. -/
theorem translated_block_faults (h : Reached snapshot? e) (hmode : e.config.mode = .translated)
    (hpc : e.bus.ram.contains e.cpu.pc 4 = true)
    (hregion : e.needsRegion = true → (e.retranslate e.cpu.pc).1 = .ok ()) :
    ∃ t mode, e.prepared = e.equipped t mode ∧
      (∀ cpu (bus bus' : Bus ω) k f cpu' fault,
        FaultsAt (e.blockAhead snapshot?) cpu bus k f cpu' fault bus' →
          bus.mmio.Panics fault bus'.devices ∧
          ∃ addr last, t.execute e.cpu.pc cpu bus = (.error (.fault addr fault.reason), last, bus') ∧
            last.EqOutside (.pc :: f.written) cpu') ∧
      (∀ cpu (bus bus' : Bus ω) err last, t.execute e.cpu.pc cpu bus = (.error err, last, bus') →
        ∃ k f cpu' fault, FaultsAt (e.blockAhead snapshot?) cpu bus k f cpu' fault bus') ∧
      (∀ err cpu bus, t.execute e.cpu.pc e.cpu e.bus = (.error err, cpu, bus) →
        e.stepTranslated = (.error (.execute e.cpu.pc e.instructions err),
          { e with translator? := some t, mode, cpu, bus })) ∧
      ∀ k f, (e.blockAhead snapshot?)[k]? = some f →
        (∀ g ∈ e.blockAhead snapshot?, e.bus.mmio.find? g.addr = none) →
        (∀ j g, j ≤ k → (e.blockAhead snapshot?)[j]? = some g →
          (e.stepN j).bus.ram.word? g.addr = some g.word) →
        ∀ cpu fault bus, FaultsAt (e.blockAhead snapshot?) e.cpu e.bus k f cpu fault bus ↔
          (∀ i, i < k → ∃ outcome, (e.stepN i).step.1 = .ok outcome) ∧ (e.stepN k).cpu = cpu ∧
            (e.stepN k).step = (.error fault, { e.stepN k with bus }) := by
  cases stepTranslated_cases h.sound with
  | outside hout hneeds heq => exact nomatch hout.symm.trans hpc
  | overflow t hneeds hover hidle hlimits hprepared hsnapshot heq =>
      obtain ⟨t', -, -, hfails⟩ := retranslate_of_overflow h.sound hpc hover
      rw [hfails] at hregion
      exact nomatch hregion hneeds
  | runs t mode ram hpc' hfits hready hlimits hheld hprepared hsnapshot heq =>
      have hahead : e.blockAhead snapshot? = fetchBlock ram t.maxBlockLength e.cpu.pc := by
        rw [blockAhead, hpc, if_pos rfl, hsnapshot hmode, ← hlimits.maxBlockLength_eq]
        rfl
      obtain ⟨block, hblock, hfaithful⟩ := hready.exists_faithful hheld
      rw [hahead]
      refine ⟨t, mode, hprepared, ?_, ?_, ?_, ?_⟩
      · intro cpu bus bus' k f cpu' fault hfaults
        exact ⟨hfaults.panics, Translator.execute_of_faultsAt hready hheld hfaults⟩
      · intro cpu bus bus' err last hrun
        exact Translator.exists_faultsAt_of_execute hready hheld hrun
      · intro err cpu bus hrun
        rw [heq, hprepared, stepBlock_of_execute_error hrun]
        rfl
      · intro k f hk hdevice hintact cpu fault bus
        exact faultsAt_iff_steps (closes_fetchBlock hfaithful.fetched)
          (consecutive_fetchBlock ram t.maxBlockLength e.cpu.pc) hdevice hk hintact

end Emulator

/-! ## A block that faults -/

namespace Emulator

attribute [local instance] Block.threeTable

/-- A program that sets a register and then loads from a device that refuses. -/
def setAndFault : Emulator Unit :=
  { loaded [0xe3a0002a, 0xe5912000] with
    cpu := (loaded []).cpu.setReg .r1 0x2000
    bus := (loaded [0xe3a0002a, 0xe5912000]).bus.register
      ⟨"gate", ⟨0x2000, 0x2003⟩, 0, ⟨fun _ => throw ⟨"closed"⟩, fun _ _ => pure ()⟩⟩ }

theorem reached_setAndFault : Reached none setAndFault :=
  (reached_loaded [0xe3a0002a, 0xe5912000]).edit setAndFault.cpu setAndFault.bus

/-- The program is a block that fits into the empty cache. -/
theorem retranslate_setAndFault : (setAndFault.retranslate setAndFault.cpu.pc).1 = .ok () := by
  have hfits : (Translator.blockBytes setAndFault.blockAtPc).length ≤ setAndFault.cacheCapacity := by
    rw [Host.Code.length_of_encode? (Translator.encode?_blockCode _)]
    decide
  obtain ⟨t, hregion, -⟩ := retranslate_of_fits reached_setAndFault.sound (by decide) hfits
  rw [hregion]

theorem translated_block_faults_setAndFault :
    ∃ addr e', setAndFault.stepTranslated =
        (.error (.execute 0 0 (.fault addr "closed")), e') ∧
      e'.cpu.reg .r0 = 42 ∧ e'.cpu.cpsr = setAndFault.cpu.cpsr ∧ e'.instructions = 0 ∧
      (setAndFault.stepN 1).step =
        (.error ⟨"closed"⟩, { setAndFault.stepN 1 with bus := e'.bus }) := by
  have hneeds : setAndFault.needsRegion = true := by decide
  have hahead : setAndFault.blockAhead none = [⟨0, 0xe3a0002a⟩, ⟨4, 0xe5912000⟩] := by
    have hsnapshot : setAndFault.snapshotAfter none = some setAndFault.bus.ram := by
      rw [snapshotAfter, retranslate_setAndFault, if_pos ⟨rfl, hneeds, rfl⟩]
    rw [blockAhead, hsnapshot]
    decide
  obtain ⟨t, mode, hprepared, hfaults, -, hstep, hsingle⟩ := translated_block_faults
    reached_setAndFault rfl (by decide) (fun _ => retranslate_setAndFault)
  have hfault : FaultsAt (setAndFault.blockAhead none) setAndFault.cpu setAndFault.bus 1
      ⟨4, 0xe5912000⟩ (setAndFault.stepN 1).cpu ⟨"closed"⟩ setAndFault.bus := by
    rw [hahead]
    exact ⟨rfl, 0, setAndFault.bus, rfl, rfl⟩
  obtain ⟨-, addr, last, hrun, hkept⟩ := hfaults _ _ _ _ _ _ _ hfault
  refine ⟨addr, _, hstep _ _ _ hrun, ?_, ?_, rfl, ?_⟩
  · exact hkept.reg .r0 (by decide)
  · exact hkept.cpsr
  · refine ((hsingle 1 ⟨4, 0xe5912000⟩ ?_ ?_ ?_ _ _ _).1 hfault).2.2
    · rw [hahead]
      rfl
    · rw [hahead]
      decide
    · rw [hahead]
      intro j g hj hg
      obtain rfl | rfl : j = 0 ∨ j = 1 := by omega
      · cases hg
        decide
      · cases hg
        decide

end Emulator

end ArmEmulator
