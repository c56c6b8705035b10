import ArmEmulator.Proofs.Guest.Execution

/-!
# Executing in place

Execution gives back the processor once everything is done.  Here the processor is
changed where it is, one register after the other, between the accesses to the bus.
A fault then leaves behind whatever was changed before it.  Both come to the same,
because every instruction makes all its accesses before its first change to the
processor.

Main results:

- Theorem {lit}`Instruction.executeInPlace_eq`: changing the processor in place is
  executing the instruction at once, and a fault leaves the processor as it was.
- Theorem {lit}`Board.step_eq`: the same with the fetch before it.
-/

namespace ArmEmulator

variable {ω α β : Type}

/-! ## Changing a processor on its bus -/

/-- A processor and the bus it works on. -/
structure Board (ω : Type) where
  cpu : Cpu
  bus : Bus ω

namespace Board

/-- The processor as it is now. -/
def look : Access (Board ω) Cpu := fun board =>
  .ok board.cpu board

/-- Changes the processor. -/
def commit (change : Cpu → Cpu) : Access (Board ω) Unit := fun board =>
  .ok () { board with cpu := change board.cpu }

/-- Changes the processor under a condition. -/
def commitIf (condition : Bool) (change : Cpu → Cpu) : Access (Board ω) Unit :=
  if condition then commit change else pure ()

/-- An access to the bus. -/
def onBus (x : Access (Bus ω) α) : Access (Board ω) α := fun board =>
  match x board.bus with
  | .ok a bus => .ok a { board with bus }
  | .error fault bus => .error fault { board with bus }

/-- Works on a copy of the processor, which takes its place at the end. -/
def atOnce (x : Cpu → Access (Bus ω) (α × Cpu)) : Access (Board ω) α := do
  let (a, cpu) ← onBus (x (← look))
  commit fun _ => cpu
  return a

/-- Goes on behind the instruction at {lit}`addr`. -/
def advance (addr : Word) : Access (Board ω) Outcome := do
  commit (·.advance addr)
  return .executed

/-- Goes on behind the instruction at {lit}`addr`, unless the program counter was written
already. -/
def advanceUnless (written : Bool) (addr : Word) : Access (Board ω) Outcome :=
  if written then return .executed else advance addr

/-- Goes on at the word that holds {lit}`target`. -/
def jump (target : Word) : Access (Board ω) Outcome := do
  commit (·.jump target)
  return .executed

section

variable {board : Board ω} {x : Access (Bus ω) α}

theorem look_bind (f : Cpu → Access (Board ω) β) (board : Board ω) :
    (look >>= f) board = f board.cpu board := rfl

theorem commit_bind (change : Cpu → Cpu) (f : Unit → Access (Board ω) β) (board : Board ω) :
    (commit change >>= f) board = f () { board with cpu := change board.cpu } := rfl

theorem commitIf_bind (condition : Bool) (change : Cpu → Cpu) (f : Unit → Access (Board ω) β)
    (board : Board ω) :
    (commitIf condition change >>= f) board =
      f () { board with cpu := if condition then change board.cpu else board.cpu } := by
  cases condition <;> rfl

theorem advanceUnless_eq (written : Bool) (addr : Word) (board : Board ω) :
    advanceUnless written addr board =
      .ok .executed { board with cpu := if written then board.cpu else board.cpu.advance addr } := by
  cases written <;> rfl

theorem onBus_of_ok {a : α} {bus : Bus ω} (h : x board.bus = .ok a bus) :
    onBus x board = .ok a { board with bus } := by
  rw [onBus, h]

theorem onBus_of_error {fault : Fault} {bus : Bus ω} (h : x board.bus = .error fault bus) :
    onBus x board = .error fault { board with bus } := by
  rw [onBus, h]

/-- A fault leaves the processor as it was. -/
theorem atOnce_eq (x : Cpu → Access (Bus ω) (α × Cpu)) (board : Board ω) :
    atOnce x board =
      match x board.cpu board.bus with
      | .ok (a, cpu) bus => .ok a ⟨cpu, bus⟩
      | .error fault bus => .error fault { board with bus } := by
  rw [atOnce, look_bind]
  cases h : x board.cpu board.bus with
  | ok result bus =>
      rw [Access.bind_of_eq_ok (onBus_of_ok h)]
      rfl
  | error fault bus => exact Access.bind_of_eq_error (onBus_of_error h)

/-- An access with the changes behind it is one step, if the changes come to the
processor that the step gives back. -/
theorem onBus_bind_eq_atOnce (finish : α → β × Cpu) {f : α → Access (Board ω) β}
    {step : Cpu → Access (Bus ω) (β × Cpu)}
    (hstep : step board.cpu = x >>= fun a => pure (finish a))
    (hf : ∀ a bus, x board.bus = .ok a bus →
      f a ⟨board.cpu, bus⟩ = .ok (finish a).1 ⟨(finish a).2, bus⟩) :
    (onBus x >>= f) board = atOnce step board := by
  rw [atOnce_eq, hstep]
  cases h : x board.bus with
  | ok a bus =>
      rw [Access.bind_of_eq_ok (onBus_of_ok h), Access.bind_of_eq_ok h]
      exact hf a bus h
  | error fault bus =>
      rw [Access.bind_of_eq_error (onBus_of_error h), Access.bind_of_eq_error h]

end

end Board

open Board (look commit commitIf onBus atOnce)

/-! ## Data processing -/

/-- A data-processing operation in place; none, before anything is changed, if it is not
supported. -/
def DataProcessing.executeInPlace (d : DataProcessing) (addr : Word) :
    Access (Board ω) (Option Outcome) := do
  let cpu ← look
  match d.operand.eval? addr cpu with
  | none => return none
  | some (b, shifterCarry) =>
    match d.op.compute? (cpu.readAt addr d.rn) b shifterCarry with
    | none => return none
    | some result =>
      if d.op.isTest then
        commit (·.setResultFlags result)
        some <$> Board.advance addr
      else if d.rd = .pc then
        commitIf d.setFlags Cpu.restoreStatus
        some <$> Board.jump result.value
      else
        commit (·.setReg d.rd result.value)
        commitIf d.setFlags (·.setResultFlags result)
        some <$> Board.advance addr

/-- What an operation comes to that changes nothing where it is not supported. -/
def Board.attempted (board : Board ω) : Option Cpu → EStateM.Result Fault (Board ω) (Option Outcome)
  | some cpu => .ok (some .executed) { board with cpu }
  | none => .ok none board

theorem DataProcessing.executeInPlace_eq (d : DataProcessing) (addr : Word) (board : Board ω) :
    d.executeInPlace addr board = board.attempted (d.execute? addr board.cpu) := by
  rw [executeInPlace, Board.look_bind, execute?]
  cases d.operand.eval? addr board.cpu with
  | none => rfl
  | some operand =>
      simp only [Option.bind_eq_bind, Option.bind_some]
      cases d.op.compute? (board.cpu.readAt addr d.rn) operand.1 operand.2 with
      | none => rfl
      | some result =>
          simp only [Option.bind_some]
          by_cases htest : d.op.isTest = true
          · rw [if_pos htest, if_pos htest]
            rfl
          · rw [if_neg htest, if_neg htest]
            by_cases hrd : d.rd = .pc
            · rw [if_pos hrd, if_pos hrd, Board.commitIf_bind]
              rfl
            · rw [if_neg hrd, if_neg hrd, Board.commit_bind, Board.commitIf_bind]
              rfl

/-! ## Single transfers -/

namespace Transfer

/-- A transfer in place: the access, then the base, then the register. -/
def executeInPlace (t : Transfer) (addr : Word) : Access (Board ω) Outcome := do
  let cpu ← look
  let target := t.accessAddress addr cpu
  let base := t.offsetAddress addr cpu
  if t.load then
    let value ← onBus (Bus.load t.byte target)
    commitIf t.writesBack (·.setReg t.rn base)
    if t.rd = .pc then
      Board.jump value
    else
      commit (·.setReg t.rd value)
      Board.advanceUnless (t.writesBack && t.rn == .pc) addr
  else
    onBus (Bus.store t.byte target (cpu.readAt addr t.rd))
    commitIf t.writesBack (·.setReg t.rn base)
    Board.advanceUnless (t.writesBack && t.rn == .pc) addr

theorem executeInPlace_eq (t : Transfer) (addr : Word) (board : Board ω) :
    t.executeInPlace addr board =
      atOnce (fun cpu => do return (.executed, ← t.execute addr cpu)) board := by
  rw [executeInPlace, Board.look_bind]
  by_cases hload : t.load = true
  · rw [if_pos hload]
    refine Board.onBus_bind_eq_atOnce
      (fun value => (.executed, t.afterLoad addr board.cpu value)) ?_ ?_
    · simp only [execute_of_load hload, bind_assoc, pure_bind]
    · intro value bus _
      rw [Board.commitIf_bind, afterLoad]
      by_cases hrd : t.rd = .pc
      · rw [if_pos hrd, if_pos hrd]
        rfl
      · rw [if_neg hrd, if_neg hrd, Board.commit_bind]
        exact Board.advanceUnless_eq ..
  · rw [if_neg hload]
    refine Board.onBus_bind_eq_atOnce
      (fun _ => (.executed, t.afterStore addr board.cpu)) ?_ ?_
    · simp only [execute_of_store (Bool.not_eq_true _ ▸ hload), bind_assoc, pure_bind]
    · intro _ bus _
      rw [Board.commitIf_bind]
      exact Board.advanceUnless_eq ..

end Transfer

/-! ## Multiple transfers -/

/-- Stores registers, each with the value it has when its turn comes. -/
def storeListInPlace (addr place : Word) : List Reg → Access (Board ω) Unit
  | [] => pure ()
  | r :: rest => do
    let cpu ← look
    onBus (Bus.write32 place (cpu.readAt addr r))
    storeListInPlace addr (place + 4) rest

/-- Sets registers to loaded values, one after the other; gives the value for the program
counter, which is not set yet. -/
def setListInPlace : Option Word → List (Reg × Word) → Access (Board ω) (Option Word)
  | target?, [] => pure target?
  | target?, (r, value) :: rest =>
    if r = .pc then
      setListInPlace (some value) rest
    else do
      commit (·.setReg r value)
      setListInPlace target? rest

theorem storeListInPlace_eq (addr place : Word) (list : List Reg) (board : Board ω) :
    storeListInPlace addr place list board =
      onBus (writeList (board.cpu.readAt addr) place list) board := by
  induction list generalizing place board with
  | nil => rfl
  | cons r list ih =>
      rw [storeListInPlace, Board.look_bind]
      cases h : Bus.write32 place (board.cpu.readAt addr r) board.bus with
      | ok _ bus =>
          rw [Access.bind_of_eq_ok (Board.onBus_of_ok h), ih, onBus, onBus, writeList,
            Access.bind_of_eq_ok h]
      | error fault bus =>
          rw [Access.bind_of_eq_error (Board.onBus_of_error h)]
          exact (Board.onBus_of_error (Access.bind_of_eq_error h)).symm

/-- The processor with loaded values in its registers, except for the program counter. -/
def Cpu.setList (cpu : Cpu) (values : List (Reg × Word)) : Cpu :=
  values.foldl (fun cpu (r, value) => if r = .pc then cpu else cpu.setReg r value) cpu

/-- Every register but the program counter is set, and a value for the program counter is
found, if no register is listed twice. -/
theorem setListInPlace_eq {values : List (Reg × Word)} (hdistinct : (values.map Prod.fst).Nodup)
    (target? : Option Word) (board : Board ω) :
    setListInPlace target? values board =
      .ok ((values.lookup .pc).or target?) { board with cpu := board.cpu.setList values } := by
  induction values generalizing target? board with
  | nil => rfl
  | cons entry values ih =>
      obtain ⟨r, value⟩ := entry
      obtain ⟨hr, hrest⟩ := List.nodup_cons.1 hdistinct
      rw [setListInPlace, Cpu.setList, List.foldl_cons]
      by_cases hpc : r = .pc
      · subst hpc
        rw [if_pos rfl, ih hrest, lookup_eq_none_of_notMem hr, List.lookup_cons_self]
        rfl
      · rw [if_neg hpc, Board.commit_bind, ih hrest, List.lookup_cons,
          beq_false_of_ne (Ne.symm hpc)]
        dsimp only
        rw [if_neg hpc]
        rfl

/-- No register is listed twice. -/
theorem RegList.nodup_toList (list : RegList) : list.toList.Nodup := by
  have hall : Reg.all.toList.Nodup := by decide
  exact hall.filter _

namespace MultiTransfer

/-- A multiple transfer in place: all accesses, then the base, then the registers. -/
def executeInPlace (m : MultiTransfer) (addr : Word) : Access (Board ω) Outcome := do
  let cpu ← look
  let start := m.startAddress (cpu.readAt addr m.rn)
  let base := m.finalBase (cpu.readAt addr m.rn)
  if m.load then
    let values ← onBus (readList start m.list.toList)
    commitIf m.writeback (·.setReg m.rn base)
    match ← setListInPlace none values with
    | some target =>
      commitIf m.psr Cpu.restoreStatus
      Board.jump target
    | none => Board.advanceUnless (m.writeback && m.rn == .pc) addr
  else
    storeListInPlace addr start m.list.toList
    commitIf m.writeback (·.setReg m.rn base)
    Board.advanceUnless (m.writeback && m.rn == .pc) addr

theorem executeInPlace_eq (m : MultiTransfer) (addr : Word) (board : Board ω) :
    m.executeInPlace addr board =
      atOnce (fun cpu => do return (.executed, ← m.execute addr cpu)) board := by
  rw [executeInPlace, Board.look_bind]
  by_cases hload : m.load = true
  · rw [if_pos hload]
    refine Board.onBus_bind_eq_atOnce
      (fun values => (.executed, m.afterLoad addr board.cpu values)) ?_ ?_
    · simp only [execute, if_pos hload, bind_assoc, pure_bind]
    · intro values bus hread
      -- one value per listed register, so the last one for the program counter is the first
      have hdistinct : (values.map Prod.fst).Nodup := by
        rw [keys_of_readList hread]
        exact m.list.nodup_toList
      rw [Board.commitIf_bind, Access.bind_of_eq_ok (setListInPlace_eq hdistinct ..),
        Option.or_none, afterLoad]
      cases values.lookup .pc with
      | some target => exact Board.commitIf_bind ..
      | none => exact Board.advanceUnless_eq ..
  · rw [if_neg hload, Access.bind_congr_left (storeListInPlace_eq ..)]
    refine Board.onBus_bind_eq_atOnce
      (fun _ => (.executed, m.proceed addr (m.writeBack addr board.cpu))) ?_ ?_
    · simp only [execute, if_neg hload, bind_assoc, pure_bind]
    · intro _ bus _
      rw [Board.commitIf_bind]
      exact Board.advanceUnless_eq ..

end MultiTransfer

/-! ## Branches and status transfers -/

/-- A branch in place: the return address, then the program counter. -/
def Branch.executeInPlace (b : Branch) (addr : Word) : Access (Board ω) Outcome := do
  let target := b.destination addr (← look)
  commitIf b.link (·.setReg .lr (addr + 4))
  commit (·.setPc target)
  if target = addr ∧ !b.link then
    return .selfLoop addr
  else
    return .executed

theorem Branch.executeInPlace_eq (b : Branch) (addr : Word) (board : Board ω) :
    b.executeInPlace addr board =
      .ok (b.execute addr board.cpu).1 { board with cpu := (b.execute addr board.cpu).2 } := by
  rw [executeInPlace, Board.look_bind, Board.commitIf_bind, Board.commit_bind, execute]
  dsimp only
  split <;> rfl

/-- A status transfer in place; none, before anything is changed, if its operand is not
supported. -/
def StatusTransfer.executeInPlace (s : StatusTransfer) (addr : Word) :
    Access (Board ω) (Option Outcome) := do
  let cpu ← look
  match s with
  | .read rd spsr =>
    let value := if spsr then cpu.spsr else cpu.cpsr
    if rd = .pc then
      some <$> Board.jump value
    else
      commit (·.setReg rd value)
      some <$> Board.advance addr
  | .write spsr fields operand =>
    match operand.eval? addr cpu with
    | none => return none
    | some (value, _) =>
      let mask := fieldMask fields
      let merge (psr : Word) : Word := (psr &&& ~~~mask) ||| (value &&& mask)
      if spsr then
        commit fun cpu => { cpu with spsr := merge cpu.spsr }
      else
        commit fun cpu => { cpu with cpsr := merge cpu.cpsr }
      some <$> Board.advance addr

theorem StatusTransfer.executeInPlace_eq (s : StatusTransfer) (addr : Word) (board : Board ω) :
    s.executeInPlace addr board = board.attempted (s.execute? addr board.cpu) := by
  rw [executeInPlace, Board.look_bind]
  cases s with
  | read rd spsr =>
      rw [execute?]
      dsimp only
      by_cases hrd : rd = .pc
      · rw [if_pos hrd, if_pos hrd]
        rfl
      · rw [if_neg hrd, if_neg hrd]
        rfl
  | write spsr fields operand =>
      rw [execute?]
      dsimp only
      cases operand.eval? addr board.cpu with
      | none => rfl
      | some value => cases spsr <;> rfl

/-! ## Instructions -/

/-- An operation that may not be supported; execution then goes on behind it. -/
def Board.orUnhandled (addr word : Word) (x : Access (Board ω) (Option Outcome)) :
    Access (Board ω) Outcome := do
  match ← x with
  | some outcome => return outcome
  | none =>
    commit (·.advance addr)
    return .unhandled addr word

theorem Board.orUnhandled_eq {addr word : Word} {x : Access (Board ω) (Option Outcome)}
    {board : Board ω} {after? : Option Cpu} (h : x board = board.attempted after?) :
    orUnhandled addr word x board =
      atOnce (fun cpu => pure (Instruction.orUnhandled addr word cpu after?)) board := by
  cases after? <;> exact Access.bind_of_eq_ok h

namespace Instruction

/-- Executes a fetched instruction as if it were at {lit}`addr`, changing the processor
in place. -/
def executeInPlace (i : Instruction) (addr word : Word) : Access (Board ω) Outcome := do
  if i.cond.passes (← look).cpsr then
    match i.op with
    | .dataProcessing d => Board.orUnhandled addr word (d.executeInPlace addr)
    | .transfer t => t.executeInPlace addr
    | .multiTransfer m => m.executeInPlace addr
    | .branch b => b.executeInPlace addr
    | .statusTransfer s => Board.orUnhandled addr word (s.executeInPlace addr)
    | .coprocessor => Board.advance addr
    | .unknown _ => Board.orUnhandled addr word (pure none)
  else
    commit (·.advance addr)
    return .skipped

/-- Changing the processor in place is executing the instruction at once. -/
theorem executeInPlace_eq (i : Instruction) (addr word : Word) (board : Board ω) :
    i.executeInPlace addr word board = atOnce (i.execute addr word) board := by
  rw [executeInPlace, Board.look_bind, Board.atOnce_eq, execute]
  by_cases hpasses : i.cond.passes board.cpu.cpsr = true
  · rw [if_pos hpasses, if_pos hpasses]
    cases i.op with
    | dataProcessing d => exact Board.orUnhandled_eq (d.executeInPlace_eq addr board)
    | transfer t => exact (t.executeInPlace_eq addr board).trans (Board.atOnce_eq ..)
    | multiTransfer m => exact (m.executeInPlace_eq addr board).trans (Board.atOnce_eq ..)
    | branch b => exact b.executeInPlace_eq addr board
    | statusTransfer s => exact Board.orUnhandled_eq (s.executeInPlace_eq addr board)
    | coprocessor => rfl
    | unknown w => rfl
  · rw [if_neg hpasses, if_neg hpasses]
    rfl

/-- What an instruction comes to, it comes to in place. -/
theorem executeInPlace_of_execute {i : Instruction} {addr word : Word} {cpu cpu' : Cpu}
    {bus bus' : Bus ω} {outcome : Outcome}
    (h : i.execute addr word cpu bus = .ok (outcome, cpu') bus') :
    i.executeInPlace addr word ⟨cpu, bus⟩ = .ok outcome ⟨cpu', bus'⟩ := by
  rw [executeInPlace_eq, Board.atOnce_eq, h]

end Instruction

/-- Fetches, decodes and executes the instruction at the program counter, changing the
processor in place. -/
def Board.step : Access (Board ω) Outcome := do
  let addr := (← look).pc
  let word ← onBus (Bus.read32 addr)
  (Instruction.decode word).executeInPlace addr word

/-- A step in place is a step at once: a fault leaves the processor as it was. -/
theorem Board.step_eq (board : Board ω) : step board = atOnce Cpu.step board := by
  rw [step, look_bind, atOnce_eq, Cpu.step]
  cases h : Bus.read32 board.cpu.pc board.bus with
  | ok word bus =>
      rw [Access.bind_of_eq_ok (onBus_of_ok h), Access.bind_of_eq_ok h,
        Instruction.executeInPlace_eq, atOnce_eq]
  | error fault bus =>
      rw [Access.bind_of_eq_error (onBus_of_error h), Access.bind_of_eq_error h]

end ArmEmulator
