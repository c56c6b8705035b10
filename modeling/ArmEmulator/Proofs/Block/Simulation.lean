import ArmEmulator.Proofs.Block.Labels
import ArmEmulator.Proofs.Block.Lowering

/-!
# A running block

A block does what interpreting its instructions one after another does.  The
proof walks over the pieces of code: between two pieces the guest is loaded, and
what lies behind a piece places none of its labels but the fault exit, so jumps
out of a piece arrive where they should.

Main results:

- Theorem {lit}`run?_code_of_ok`: a block whose instructions all succeed returns
  zero with the state and the bus the instructions leave.
- Theorem {lit}`run?_code_of_fault`: a block returns one at the first access of its
  instructions that faults, with all registers kept but those that instruction writes.
-/

namespace ArmEmulator.Block

open Host (Machine Linkage Instr Code Item Label Flags runInstrs?)

variable {ω : Type}

/-! ## Interpreting a list of instructions -/

/-- The number of unsupported instructions an outcome stands for. -/
def unhandledCount : Outcome → Nat
  | .unhandled _ _ => 1
  | _ => 0

/-- Executes a fetched instruction at the address it was fetched from. -/
def Fetched.execute (f : Fetched) (cpu : Cpu) : Access (Bus ω) (Outcome × Cpu) :=
  (Instruction.decode f.word).execute f.addr f.word cpu

/-- What a fetched instruction asks of the bus. -/
def Fetched.requests (f : Fetched) (cpu : Cpu) : List (Bus.Request ω) :=
  (Instruction.decode f.word).requests f.addr cpu

/-- A fetched instruction that faults does so in one of its accesses. -/
theorem Fetched.exists_stopsAt {f : Fetched} {cpu : Cpu} {bus bus' : Bus ω} {fault : Fault}
    (h : f.execute cpu bus = .error fault bus') :
    ∃ k request place width, Bus.StopsAt (f.requests cpu) bus k request fault bus' ∧
      request.access? = some (place, width) := by
  obtain ⟨k, request, hstops⟩ := Instruction.execute_eq_error_iff_stopsAt.1 h
  obtain ⟨place, width, hplace⟩ :=
    Instruction.exists_access?_of_mem_requests (List.mem_of_getElem? hstops.asked)
  exact ⟨k, request, place, width, hstops, hplace⟩

/-- Whether a fetched instruction can move the program counter. -/
def Fetched.writesPc (f : Fetched) : Bool :=
  (Instruction.decode f.word).writesPc

/-- The registers that a fetched instruction writes beside the program counter. -/
def Fetched.written (f : Fetched) : List Reg :=
  (Instruction.decode f.word).op.written

/-- Executes fetched instructions one after another; gives the number of
unsupported ones and the last state. -/
def executeAll : List Fetched → Cpu → Access (Bus ω) (Nat × Cpu)
  | [], cpu => pure (0, cpu)
  | f :: fs, cpu => do
    let (outcome, cpu) ← f.execute cpu
    let (count, cpu) ← executeAll fs cpu
    return (unhandledCount outcome + count, cpu)

/-- The instructions of a block and where it goes on by itself: only the last one
can move the program counter, and if it cannot the block goes on behind it. -/
def Closes : List Fetched → Option Word → Prop
  | [], _ => False
  | [f], next? => next? = if f.writesPc then none else some (f.addr + 4)
  | f :: g :: fs, next? => f.writesPc = false ∧ Closes (g :: fs) next?

/-- Before the end of a block no instruction can move the program counter. -/
theorem closes_cons_append {f g : Fetched} {before after : List Fetched} {next? : Option Word}
    (h : Closes (g :: (before ++ f :: after)) next?) :
    g.writesPc = false ∧ Closes (before ++ f :: after) next? := by
  cases before with
  | nil => exact h
  | cons _ _ => exact h

/-- A fault of some instructions is that of one of them after those before it. -/
theorem exists_fault_of_executeAll {instrs : List Fetched} {cpu : Cpu} {bus bus' : Bus ω}
    {fault : Fault} (h : executeAll instrs cpu bus = .error fault bus') :
    ∃ before f after count cpu' between, instrs = before ++ f :: after ∧
      executeAll before cpu bus = .ok (count, cpu') between ∧
      f.execute cpu' between = .error fault bus' := by
  induction instrs generalizing cpu bus with
  | nil => cases h
  | cons f fs ih =>
      rcases Access.bind_eq_error_iff.1 h with hf | ⟨⟨outcome, mid⟩, between, hf, h⟩
      · exact ⟨[], f, fs, 0, cpu, bus, rfl, rfl, hf⟩
      · obtain ⟨before, g, after, count, cpu', last, rfl, hbefore, hg⟩ :=
          ih (Access.bind_pure_eq_error_iff.1 h)
        refine ⟨f :: before, g, after, unhandledCount outcome + count, cpu', last, rfl, ?_, hg⟩
        exact Access.bind_eq_ok_iff.2 ⟨_, _, hf,
          Access.bind_pure_eq_ok_iff.2 ⟨(count, cpu'), hbefore, rfl⟩⟩

/-! ## Environments -/

/-- The environment after a number of unsupported instructions on another bus. -/
def Environment.advanced (env : Environment ω) (bus : Bus ω) (count : Nat) : Environment ω :=
  { env with bus, unhandled := env.unhandled + count }

theorem Environment.counted_withBus (env : Environment ω) (bus : Bus ω) (outcome : Outcome) :
    (env.withBus bus).counted outcome = env.advanced bus (unhandledCount outcome) := by
  cases outcome <;> rfl

theorem Environment.advanced_advanced (env : Environment ω) (bus bus' : Bus ω)
    (count count' : Nat) :
    (env.advanced bus count).advanced bus' count' = env.advanced bus' (count + count') := by
  unfold advanced
  rw [Nat.add_assoc]

/-! ## Running the pieces -/

section Pieces

variable {helpers : Helpers} {link : Linkage (Environment ω)} {saved : Host.Reg → BitVec 64}
  (hlinked : Linked helpers link)
include hlinked

/-- The pieces of a block whose instructions all succeed return zero with what the
instructions leave. -/
theorem run?_piecesFrom_of_ok {instrs : List Fetched} {next? : Option Word}
    (hcloses : Closes instrs next?) (k : Nat) {cpu cpu' : Cpu} {env : Environment ω}
    {m : Machine (Environment ω)} (hm : Loaded link saved cpu env m) {count : Nat} {bus : Bus ω}
    (h : executeAll instrs cpu env.bus = .ok (count, cpu') bus) :
    ∃ m', Code.run? link none ((piecesFrom helpers k instrs).flatten ++ closing next?) m =
        some m' ∧
      Returned saved 0 cpu' (env.advanced bus count) m' := by
  induction instrs generalizing k cpu env m count with
  | nil => cases hcloses
  | cons f fs ih =>
      obtain ⟨⟨outcome, after⟩, between, hf, h⟩ := Access.bind_eq_ok_iff.1 h
      obtain ⟨⟨tail, last⟩, hrest, heq⟩ := Access.bind_pure_eq_ok_iff.1 h
      cases heq
      have hskip := (numbered_piecesFrom helpers (k + 1) fs).label_notMem next?
      rw [piecesFrom, List.flatten_cons, List.append_assoc]
      cases hw : f.writesPc with
      | true =>
          have hfs : fs = [] := by
            cases fs with
            | nil => rfl
            | cons g fs => exact absurd hcloses.1 (by simp [hw])
          subst hfs
          obtain ⟨heq, rfl⟩ := Access.pure_eq_ok_iff.1 hrest
          cases heq
          obtain ⟨m', hrun, hreturned⟩ := run?_lower_exit hlinked hm hskip hw hf
          rw [Environment.counted_withBus] at hreturned
          exact ⟨m', hrun, hreturned⟩
      | false =>
          obtain ⟨m', hloaded, hrun⟩ := run?_lower_next hlinked hm hskip hw hf
          rw [Environment.counted_withBus] at hloaded
          rw [hrun]
          cases fs with
          | nil =>
              obtain ⟨heq, rfl⟩ := Access.pure_eq_ok_iff.1 hrest
              cases heq
              have hnext : next? = some (f.addr + 4) := by
                rw [show next? = _ from hcloses, hw]
                rfl
              have hpc : after.setPc (f.addr + 4) = after := by
                rw [← Instruction.pc_of_execute hw hf, Cpu.setPc_pc]
              obtain ⟨last, hexit, hreturned⟩ := run?_exitTo hloaded (f.addr + 4) faultExit
              rw [hpc] at hreturned
              refine ⟨last, ?_, hreturned⟩
              rw [hnext]
              exact hexit
          | cons g fs =>
              obtain ⟨last, hrunLast, hreturned⟩ := ih hcloses.2 (k + 1) hloaded hrest
              rw [Environment.advanced_advanced] at hreturned
              exact ⟨last, hrunLast, hreturned⟩

/-- The pieces of a block return one at the first access of its instructions that faults.
The registers that the faulting instruction does not write are as before it. -/
theorem run?_piecesFrom_of_fault {before after : List Fetched} {f : Fetched}
    {next? : Option Word} (hcloses : Closes (before ++ f :: after) next?) (k : Nat)
    {cpu cpu' : Cpu} {env : Environment ω} {m : Machine (Environment ω)}
    (hm : Loaded link saved cpu env m) {count : Nat} {between bus : Bus ω}
    (hbefore : executeAll before cpu env.bus = .ok (count, cpu') between) {j : Nat}
    {request : Bus.Request ω} {fault : Fault}
    (hstops : Bus.StopsAt (f.requests cpu') between j request fault bus) {place : Word}
    {width : Bus.Width} (hplace : request.access? = some (place, width)) :
    ∃ m' last,
      Code.run? link none
        ((piecesFrom helpers k (before ++ f :: after)).flatten ++ closing next?) m = some m' ∧
      Returned saved 1 last ((env.advanced between count).faulted bus (f.reported place) fault)
        m' ∧
      last.EqOutside (.pc :: f.written) cpu' := by
  induction before generalizing k cpu env m count with
  | nil =>
      obtain ⟨heq, rfl⟩ := Access.pure_eq_ok_iff.1 hbefore
      cases heq
      have hskip := (numbered_piecesFrom helpers (k + 1) after).label_notMem next?
      rw [List.nil_append, piecesFrom, List.flatten_cons, List.append_assoc]
      obtain ⟨m', hframe, hcpu, henv, hrun⟩ := run?_lower_of_error hlinked hm
        (Nat.succ_ne_zero k) hstops hplace hskip
      obtain ⟨last, hexit, hreturned⟩ := run?_faultExit hframe
        ((piecesFrom helpers (k + 1) after).flatten ++ Code.ofInstrs (next?.elim [] exitTo))
      rw [List.append_assoc] at hexit
      rw [henv] at hreturned
      exact ⟨last, m'.cpu, hrun.trans hexit, hreturned, hcpu⟩
  | cons g before ih =>
      obtain ⟨⟨outcome, mid⟩, bus', hg, h⟩ := Access.bind_eq_ok_iff.1 hbefore
      obtain ⟨⟨tail, final⟩, hrest, heq⟩ := Access.bind_pure_eq_ok_iff.1 h
      cases heq
      rw [List.cons_append] at hcloses ⊢
      obtain ⟨hw, hcloses'⟩ := closes_cons_append hcloses
      have hskip := (numbered_piecesFrom helpers (k + 1) (before ++ f :: after)).label_notMem next?
      rw [piecesFrom, List.flatten_cons, List.append_assoc]
      obtain ⟨m', hloaded, hrun⟩ := run?_lower_next hlinked hm hskip hw hg
      rw [Environment.counted_withBus] at hloaded
      obtain ⟨end', last, hrunLast, hreturned, hcpu⟩ := ih hcloses' (k + 1) hloaded hrest
      rw [Environment.advanced_advanced] at hreturned
      exact ⟨end', last, hrun.trans hrunLast, hreturned, hcpu⟩

end Pieces

/-! ## Blocks -/

/-- The code of a block behind its prologue. -/
theorem run?_code_eq (helpers : Helpers) (instrs : List Fetched) (next? : Option Word) (cpu : Cpu)
    (bus : Bus ω) :
    ∃ saved m, Loaded (linkage helpers) saved cpu (.ofBus bus) m ∧
      Block.run? helpers (code helpers instrs next?) cpu bus =
        (Code.run? (linkage helpers) none
          ((piecesFrom helpers 0 instrs).flatten ++ closing next?) m).map fun m =>
            ((m.reg .rax).setWidth 32, m.cpu, m.env) := by
  obtain ⟨link, hlink⟩ : ∃ link : Linkage (Environment ω), link = linkage helpers := ⟨_, rfl⟩
  have hstate : (entryMachine link cpu (.ofBus bus)).reg .rdi = link.state := by
    rw [entryMachine, Machine.reg_setReg, if_neg (by decide), Machine.reg_setReg, if_pos rfl]
  have henv : (entryMachine link cpu (.ofBus bus)).reg .rsi = link.environment := by
    rw [entryMachine, Machine.reg_setReg, if_pos rfl]
  obtain ⟨m, hprologue, hloaded⟩ := runInstrs?_prologue link rfl hstate henv
  refine ⟨_, m, hlink ▸ hloaded, ?_⟩
  have hrun := Code.run?_ofInstrs_append link hprologue
    ((piecesFrom helpers 0 instrs).flatten ++ closing next?)
  unfold Block.run?
  rw [code, pieces_eq, List.append_assoc, ← hlink, ← hrun]

section Blocks

variable {helpers : Helpers} (hlinked : Linked (ω := ω) helpers (linkage helpers))
  {instrs : List Fetched} {next? : Option Word} {cpu cpu' : Cpu} {bus bus' : Bus ω}
include hlinked

/-- A block whose instructions all succeed returns zero with what they leave. -/
theorem run?_code_of_ok (hcloses : Closes instrs next?) {count : Nat}
    (h : executeAll instrs cpu bus = .ok (count, cpu') bus') :
    Block.run? helpers (code helpers instrs next?) cpu bus =
      some (0, cpu', ⟨bus', none, count⟩) := by
  obtain ⟨saved, m, hm, hrun⟩ := run?_code_eq helpers instrs next? cpu bus
  obtain ⟨m', hpieces, hreturned⟩ := run?_piecesFrom_of_ok hlinked hcloses 0 hm h
  rw [hrun, hpieces, Option.map_some, hreturned.status_eq, hreturned.cpu_eq, hreturned.env_eq]
  simp [Environment.advanced, Environment.ofBus]

/-- A block returns one at the first access of its instructions that faults.  The registers
that the faulting instruction does not write are as before it. -/
theorem run?_code_of_fault {before after : List Fetched} {f : Fetched}
    (hcloses : Closes (before ++ f :: after) next?) {count : Nat} {between : Bus ω}
    (hbefore : executeAll before cpu bus = .ok (count, cpu') between) {j : Nat}
    {request : Bus.Request ω} {fault : Fault}
    (hstops : Bus.StopsAt (f.requests cpu') between j request fault bus') {place : Word}
    {width : Bus.Width} (hplace : request.access? = some (place, width)) :
    ∃ last, Block.run? helpers (code helpers (before ++ f :: after) next?) cpu bus =
        some (1, last, ⟨bus', some (f.reported place, fault), count⟩) ∧
      last.EqOutside (.pc :: f.written) cpu' := by
  obtain ⟨saved, m, hm, hrun⟩ := run?_code_eq helpers (before ++ f :: after) next? cpu bus
  obtain ⟨m', last, hpieces, hreturned, hcpu⟩ :=
    run?_piecesFrom_of_fault hlinked hcloses 0 hm hbefore hstops hplace
  refine ⟨last, ?_, hcpu⟩
  rw [hrun, hpieces, Option.map_some, hreturned.status_eq, hreturned.cpu_eq, hreturned.env_eq]
  simp [Environment.advanced, Environment.faulted, Environment.ofBus]

end Blocks

end ArmEmulator.Block
