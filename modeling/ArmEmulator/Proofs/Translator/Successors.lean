import ArmEmulator.Proofs.Translator.Layout

/-!
# Successors of a block

The addresses that the last instruction of a block tells are all that the block can be
left to, unless that instruction computes where to go on: a branch to a register, or a
write of the program counter.  A block marked as a branch to itself is left to its last
instruction.

Main results:

- Theorem {lit}`Instruction.pc_mem_successorsAt`: where an instruction goes on.
- Theorem {lit}`Translator.execute_leaves_to_successor`: where a block that ran without a
  fault goes on.
-/

namespace ArmEmulator

open Block (Fetched executeAll)

/-! ## One instruction -/

/-- An instruction goes on at an address that it does not tell: it can move the program
counter, is no branch by a fixed distance, and its condition holds. -/
structure Instruction.Roams (i : Instruction) (psr : Word) : Prop where
  moves : i.writesPc = true
  untold : ∀ link bytes, i.op ≠ .branch ⟨link, .offset bytes⟩
  passes : i.cond.passes psr = true

section Successors

variable {i : Instruction} {addr : Word}

/-- The addresses that an operation leads to if it is done: the target of a branch by a
fixed distance, and the next instruction where it returns. -/
def takenAt (addr : Word) : Operation → List Word
  | .branch b => (b.targetAddress? addr).toList ++ if b.link then [addr + 4] else []
  | _ => []

theorem successorsAt_of_writesPc (h : i.writesPc = true) :
    successorsAt addr i =
      if i.cond ≠ .al ∧ addr + 4 ∉ takenAt addr i.op then takenAt addr i.op ++ [addr + 4]
      else takenAt addr i.op := by
  rw [successorsAt, h]
  rfl

/-- What cannot move the program counter is followed by the next instruction. -/
theorem next_mem_successorsAt_of_straight (h : i.writesPc = false) :
    addr + 4 ∈ successorsAt addr i := by
  rw [successorsAt, h]
  exact List.mem_singleton.2 rfl

/-- What may be skipped may be followed by the next instruction. -/
theorem next_mem_successorsAt_of_conditional (h : i.cond ≠ .al) :
    addr + 4 ∈ successorsAt addr i := by
  cases hw : i.writesPc with
  | false => exact next_mem_successorsAt_of_straight hw
  | true =>
      rw [successorsAt_of_writesPc hw]
      split
      · exact List.mem_append_right _ (List.mem_singleton.2 rfl)
      · rename_i htold
        exact Decidable.byContradiction fun hmem => htold ⟨h, hmem⟩

/-- What an operation leads to if it is done may follow. -/
theorem mem_successorsAt_of_taken (hw : i.writesPc = true) {target : Word}
    (h : target ∈ takenAt addr i.op) : target ∈ successorsAt addr i := by
  rw [successorsAt_of_writesPc hw]
  split
  · exact List.mem_append_left _ h
  · exact h

/-- An operation leads to two addresses only if one of them is the next instruction. -/
theorem length_takenAt_le (addr : Word) (op : Operation) :
    (takenAt addr op).length ≤ 1 ∨ (takenAt addr op).length ≤ 2 ∧ addr + 4 ∈ takenAt addr op := by
  cases op with
  | branch b =>
      have htarget : (b.targetAddress? addr).toList.length ≤ 1 := by
        cases b.targetAddress? addr <;> simp
      rw [takenAt, List.length_append]
      cases hlink : b.link with
      | true =>
          right
          rw [if_pos rfl]
          exact ⟨Nat.add_le_add_right htarget 1, List.mem_append_right _ (List.mem_singleton.2 rfl)⟩
      | false =>
          left
          rw [if_neg Bool.false_ne_true]
          exact htarget
  | _ => exact .inl (Nat.zero_le 1)

/-- An instruction tells at most two addresses. -/
theorem length_successorsAt_le (addr : Word) (i : Instruction) :
    (successorsAt addr i).length ≤ 2 := by
  cases hw : i.writesPc with
  | false =>
      rw [successorsAt, hw]
      exact Nat.le_succ 1
  | true =>
      rw [successorsAt_of_writesPc hw]
      rcases length_takenAt_le addr i.op with hone | ⟨htwo, hnext⟩
      · split
        · rw [List.length_append]
          exact Nat.add_le_add_right hone 1
        · exact Nat.le_succ_of_le hone
      · rw [if_neg fun h => h.2 hnext]
        exact htwo

/-- A branch by a fixed distance may be followed by what is there. -/
theorem target_mem_successorsAt {link : Bool} {bytes : Word}
    (h : i.op = .branch ⟨link, .offset bytes⟩) : addr + 8 + bytes ∈ successorsAt addr i := by
  apply mem_successorsAt_of_taken
  · rw [Instruction.writesPc, h]
    rfl
  · rw [h]
    exact List.mem_append_left _ (List.mem_singleton.2 rfl)

end Successors

namespace Instruction

variable {ω : Type} {i : Instruction} {addr word : Word} {cpu cpu' : Cpu} {outcome : Outcome}
  {bus bus' : Bus ω}

/-- A branch by a fixed distance whose condition holds leads that far. -/
theorem pc_of_execute_branch {link : Bool} {bytes : Word} (hpasses : i.cond.passes cpu.cpsr = true)
    (hop : i.op = .branch ⟨link, .offset bytes⟩)
    (h : i.execute addr word cpu bus = .ok (outcome, cpu') bus') : cpu'.pc = addr + 8 + bytes := by
  unfold execute at h
  rw [if_pos hpasses, hop] at h
  obtain ⟨heq, -⟩ := Access.pure_eq_ok_iff.1 h
  rw [show cpu' = ((⟨link, .offset bytes⟩ : Branch).execute addr cpu).2 by rw [heq]]
  exact Cpu.pc_setPc _ _

/-- An instruction goes on at an address that it tells, unless it roams. -/
theorem pc_mem_successorsAt (h : i.execute addr word cpu bus = .ok (outcome, cpu') bus') :
    cpu'.pc ∈ successorsAt addr i ∨ i.Roams cpu.cpsr := by
  cases hpasses : i.cond.passes cpu.cpsr with
  | false =>
      -- Only the condition that always holds cannot fail, and for any other the next
      -- instruction is told.
      left
      have hcond : i.cond ≠ .al := by
        intro hal
        rw [hal] at hpasses
        cases hpasses
      rw [Instruction.execute_of_fails hpasses] at h
      cases h
      rw [Cpu.pc_advance]
      exact next_mem_successorsAt_of_conditional hcond
  | true =>
      cases hw : i.writesPc with
      | false =>
          left
          rw [pc_of_execute hw h]
          exact next_mem_successorsAt_of_straight hw
      | true =>
          by_cases hop : ∃ link bytes, i.op = .branch ⟨link, .offset bytes⟩
          · obtain ⟨link, bytes, hop⟩ := hop
            left
            rw [pc_of_execute_branch hpasses hop h]
            exact target_mem_successorsAt hop
          · exact .inr ⟨hw, fun link bytes heq => hop ⟨link, bytes, heq⟩, hpasses⟩

end Instruction

/-! ## The instructions of a block -/

namespace Block

variable {ω : Type}

/-- Instructions that all succeed lead to what the last of them leaves. -/
theorem exists_last_of_executeAll {before : List Fetched} {last : Fetched} {cpu cpu' : Cpu}
    {bus bus' : Bus ω} {count : Nat}
    (h : executeAll (before ++ [last]) cpu bus = .ok (count, cpu') bus') :
    ∃ earlier mid between outcome, executeAll before cpu bus = .ok (earlier, mid) between ∧
      last.execute mid between = .ok (outcome, cpu') bus' := by
  induction before generalizing cpu bus count with
  | nil =>
      obtain ⟨⟨outcome, after⟩, between, hlast, h⟩ := Access.bind_eq_ok_iff.1 h
      obtain ⟨⟨tail, last⟩, hrest, heq⟩ := Access.bind_pure_eq_ok_iff.1 h
      obtain ⟨hnone, rfl⟩ := Access.pure_eq_ok_iff.1 hrest
      cases hnone
      cases heq
      exact ⟨0, cpu, bus, outcome, rfl, hlast⟩
  | cons f before ih =>
      obtain ⟨⟨outcome, after⟩, between, hf, h⟩ := Access.bind_eq_ok_iff.1 h
      obtain ⟨⟨tail, left⟩, hrest, heq⟩ := Access.bind_pure_eq_ok_iff.1 h
      cases heq
      obtain ⟨earlier, mid, reached, ended, hbefore, hlast⟩ := ih hrest
      refine ⟨unhandledCount outcome + earlier, mid, reached, ended, ?_, hlast⟩
      exact Access.bind_eq_ok_iff.2 ⟨_, _, hf,
        Access.bind_pure_eq_ok_iff.2 ⟨(earlier, mid), hbefore, rfl⟩⟩

end Block

namespace Translator

variable {ω : Type} [Block.HelperTable]

/-- A block that ran without a fault did what its instructions do. -/
theorem executeAll_of_execute {t : Translator} {ram : Ram} {start : Word} {block : TranslatedBlock}
    (hblock : t.blocks[start]? = some block) (hfaithful : t.Faithful ram start block)
    {cpu cpu' : Cpu} {bus bus' : Bus ω} {run : BlockRun}
    (hrun : t.execute start cpu bus = (.ok (some run), cpu', bus')) :
    ∃ count,
      executeAll (fetchBlock ram t.maxBlockLength start) cpu bus = .ok (count, cpu') bus' := by
  have hexecutable : t.cache.executable = true := by
    refine Decidable.byContradiction fun hwritable => ?_
    have hentry : t.cache.entry? block.entryOffset = none := by
      rw [CodeCache.entry?, if_neg fun h => hwritable h.1]
    simp only [execute, hblock, hentry] at hrun
    cases hrun
  cases hall : executeAll (fetchBlock ram t.maxBlockLength start) cpu bus with
  | ok left bus'' =>
      rw [execute_of_ok hblock hfaithful hexecutable hall] at hrun
      cases hrun
      exact ⟨left.1, rfl⟩
  | error fault bus'' =>
      obtain ⟨addr, after, hfault⟩ := execute_of_error hblock hfaithful hexecutable hall
      rw [hfault] at hrun
      cases hrun

/-- A block that ran without a fault is left to one of its successors, unless its last
instruction roams; and a block that is marked is left to its last instruction. -/
theorem execute_leaves_to_successor {c : Configuration} {t : Translator} (h : Reached c t)
    {start : Word} {block : TranslatedBlock} (hblock : t.blocks[start]? = some block)
    {cpu cpu' : Cpu} {bus bus' : Bus ω} {run : BlockRun}
    (hrun : t.execute start cpu bus = (.ok (some run), cpu', bus')) :
    ∃ ram before last count mid between outcome,
      fetchBlock ram t.maxBlockLength start = before ++ [last] ∧
      block = blockOf start (before ++ [last]) block.entryOffset ∧
      executeAll before cpu bus = .ok (count, mid) between ∧
      last.execute mid between = .ok (outcome, cpu') bus' ∧
      (cpu'.pc ∈ block.successors ∨ (Instruction.decode last.word).Roams mid.cpsr) ∧
      ∀ target, block.selfLoop? = some target → cpu'.pc = target ∧ target = last.addr := by
  obtain ⟨ram, hfaithful⟩ := h.laid.faithful start block hblock
  obtain ⟨count, hall⟩ := executeAll_of_execute hblock hfaithful hrun
  have hsplit := List.dropLast_concat_getLast hfaithful.fetched
  have hblockOf := hfaithful.block_eq
  generalize (fetchBlock ram t.maxBlockLength start).dropLast = before at hsplit
  generalize (fetchBlock ram t.maxBlockLength start).getLast hfaithful.fetched = last at hsplit
  rw [← hsplit] at hall hblockOf
  obtain ⟨earlier, mid, between, outcome, hbefore, hlast⟩ := Block.exists_last_of_executeAll hall
  refine ⟨ram, before, last, earlier, mid, between, outcome, hsplit.symm, hblockOf, hbefore, hlast,
    ?_, ?_⟩
  · have hsuccessors : block.successors =
        successorsAt last.addr (Instruction.decode last.word) := by
      rw [hblockOf]
      show (before ++ [last]).getLast?.elim [] _ = _
      rw [List.getLast?_concat]
      rfl
    rw [hsuccessors]
    exact Instruction.pc_mem_successorsAt hlast
  · intro target hmark
    have hloop : selfLoopAt? last.addr (Instruction.decode last.word) = some target := by
      rw [← hmark, hblockOf]
      show _ = (before ++ [last]).getLast?.bind _
      rw [List.getLast?_concat]
      rfl
    obtain ⟨hdecode, haddr⟩ := selfLoopAt?_eq_some_iff.1 hloop
    refine ⟨?_, haddr.symm⟩
    rw [Instruction.pc_of_execute_branch (by rw [hdecode]; rfl) (by rw [hdecode]) hlast, ← haddr,
      BitVec.add_assoc]
    exact BitVec.add_zero last.addr

end Translator

/-! ## A block of two words -/

namespace Translator

attribute [local instance] Block.threeTable

theorem execute_leaves_to_successor_twoWords :
    ∃ (t : Translator) (run : BlockRun) (cpu : Cpu) (bus : Bus Unit),
      Reached .default t ∧
      t.execute 0 (.reset 0 0) (.ofRam twoWords ()) = (.ok (some run), cpu, bus) ∧
      run.selfLoop? = some 4 ∧ cpu.pc = 4 := by
  have hreached : Reached .default (fresh.appended twoWords 0).finalize :=
    (Reached.create.translated (translateInPlace_eq_ok_iff.2 translateBlock_twoWords)).finalize
  have hblock : (fresh.appended twoWords 0).finalize.blocks[(0 : Word)]? =
      some (blockOf 0 (fetchBlock twoWords fresh.maxBlockLength 0) fresh.cache.size) :=
    (getElem?_blocks_appended fresh twoWords 0 0).trans (if_pos rfl)
  have hfaithful : (fresh.appended twoWords 0).finalize.Faithful twoWords 0
      (blockOf 0 (fetchBlock twoWords fresh.maxBlockLength 0) fresh.cache.size) :=
    (faithful_appended (by decide)).finalize
  have hall : executeAll (fetchBlock twoWords fresh.maxBlockLength 0) (.reset 0 0)
      (Bus.ofRam twoWords ()) = .ok (0, (Cpu.reset 0 0).setPc 4) (.ofRam twoWords ()) := rfl
  have hrun := execute_of_ok hblock hfaithful rfl hall
  obtain ⟨_, _, _, _, _, _, _, -, -, -, -, -, hmarked⟩ :=
    execute_leaves_to_successor hreached hblock hrun
  exact ⟨_, _, _, _, hreached, hrun, by decide, (hmarked 4 (by decide)).1⟩

end Translator

end ArmEmulator
