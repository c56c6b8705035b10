import ArmEmulator.Block.DataProcessing
import ArmEmulator.Proofs.Block.Conditions
import ArmEmulator.Proofs.Guest.Arithmetic

/-!
# Data processing in a running block

The host operation on the homes of the registers computes the guest result, and
the host flags it leaves are the guest flags of that result.  Apart from the
home of the result, the host flags and the status in the processor state, the
code leaves the machine as it is.

Main results:

- Theorem {lit}`runInstrs?_operation`: the code of an operation writes the guest
  result and, if asked to, the guest flags.
- Theorem {lit}`runInstrs?_dataProcessing`: a native data-processing instruction
  takes the guest in its homes to the state that the instruction leads to.
-/

namespace ArmEmulator.Block

open Host (Machine Linkage Instr Code Item Label Flags runInstrs?)

variable {ε : Type}

/-! ## Flags of a result -/

/-- The host flags that stand for the guest flags of a result: a difference
carries when nothing is borrowed, so its host carry is inverted. -/
def resultFlags (r : AluResult) (borrow : Bool) : Flags :=
  .ofResult r.value (if borrow then !r.carry else r.carry) (r.overflow?.getD false)

theorem eval_add (a b : Word) :
    Host.Alu.add.eval a b = ((AluResult.sum a b).value, resultFlags (.sum a b) false) := by
  have hcarry : a.uaddOverflow b = decide (a + b < a) := by
    rw [BitVec.uaddOverflow, decide_eq_decide, BitVec.lt_def, BitVec.toNat_add]
    have := a.isLt
    have := b.isLt
    omega
  rw [Host.Alu.eval, hcarry, ← AluResult.overflow_sum]
  rfl

theorem eval_sub (a b : Word) :
    Host.Alu.sub.eval a b =
      ((AluResult.difference a b).value, resultFlags (.difference a b) true) := by
  have hcarry : a.usubOverflow b = !decide (b ≤ a) := by
    rw [BitVec.usubOverflow, ← decide_not, decide_eq_decide, BitVec.le_def, Nat.not_le]
  rw [Host.Alu.eval, hcarry, ← AluResult.overflow_difference]
  rfl

/-- The status after a result. -/
def statusAfter (psr : Word) (r : AluResult) : Word :=
  Psr.withFlags psr r.value.msb (r.value == 0) r.carry (r.overflow?.getD false)

theorem setResultFlags_eq (cpu : Cpu) (r : AluResult) :
    cpu.setResultFlags r = cpu.withCpsr (statusAfter cpu.cpsr r) := by
  unfold Cpu.setResultFlags statusAfter
  cases r.overflow? <;> rfl

/-! ## Operands -/

namespace Source

/-- The value of an input. -/
def value (m : Machine ε) : Source → Word
  | reg r => m.low r
  | imm value => value

/-- An input that is not the stack pointer. -/
def Readable (a : Source) : Prop :=
  a ≠ .reg .rsp

variable {link : Linkage ε} {m : Machine ε}

/-- A write of another register does not change an input. -/
theorem value_put {a : Source} {r : Host.Reg} (h : a ≠ .reg r) (v : Word) :
    a.value (m.put r v) = a.value m := by
  cases a with
  | imm _ => rfl
  | reg s =>
      have hne : r ≠ s := fun heq => h (heq ▸ rfl)
      exact (Machine.low_put ..).trans (if_neg hne)

/-- An input is copied to a register. -/
theorem runInstrs?_moveTo {a : Source} (ha : a.Readable) {dst : Host.Reg} (hd : dst ≠ .rsp)
    (hclean : m.Clean dst) :
    runInstrs? link (a.moveTo dst) m = some (m.put dst (a.value m)) := by
  cases a with
  | imm v =>
      rw [moveTo, Host.runInstrs?_cons, Instr.step?_movImm link m hd]
      rfl
  | reg r =>
      have hr : r ≠ .rsp := fun heq => ha (heq ▸ rfl)
      by_cases heq : r = dst
      · subst heq
        rw [moveTo, if_pos rfl, value, Machine.put_low hclean]
        rfl
      · rw [moveTo, if_neg heq, Host.runInstrs?_cons, Instr.step?_mov link m hd hr]
        rfl

/-- An input is combined into a register. -/
theorem runInstrs?_applyTo {a : Source} (ha : a.Readable) {op : Host.Alu} (hop : op ≠ .cmp)
    {dst : Host.Reg} (hd : dst ≠ .rsp) :
    runInstrs? link (a.applyTo op dst) m =
      some ((m.withFlags (op.eval (m.low dst) (a.value m)).2).put dst
        (op.eval (m.low dst) (a.value m)).1) := by
  cases a with
  | imm v =>
      rw [applyTo, Host.runInstrs?_cons, Instr.step?_aluImm link m hop hd]
      rfl
  | reg r =>
      have hr : r ≠ .rsp := fun heq => ha (heq ▸ rfl)
      rw [applyTo, Host.runInstrs?_cons, Instr.step?_alu link m hop hd hr]
      rfl

/-- A comparison with an input only sets the host flags. -/
theorem runInstrs?_applyTo_cmp {a : Source} (ha : a.Readable) {dst : Host.Reg} (hd : dst ≠ .rsp) :
    runInstrs? link (a.applyTo .cmp dst) m =
      some (m.withFlags (Host.Alu.cmp.eval (m.low dst) (a.value m)).2) := by
  cases a with
  | imm v =>
      rw [applyTo, Host.runInstrs?_cons, Instr.step?_aluImm_cmp link m hd]
      rfl
  | reg r =>
      have hr : r ≠ .rsp := fun heq => ha (heq ▸ rfl)
      rw [applyTo, Host.runInstrs?_cons, Instr.step?_alu_cmp link m hd hr]
      rfl

end Source

/-- The scratch register is none of the inputs. -/
theorem scratchFor_ne (a b : Source) :
    a ≠ .reg (scratchFor a b) ∧ b ≠ .reg (scratchFor a b) ∧ scratchFor a b ≠ .rsp := by
  unfold scratchFor
  cases hfind : [.rax, .rcx, .rdx].find? fun r => decide (a ≠ .reg r ∧ b ≠ .reg r) with
  | some r =>
      have hr := List.find?_some hfind
      have hmem := List.mem_of_find?_eq_some hfind
      rw [decide_eq_true_eq] at hr
      refine ⟨hr.1, hr.2, ?_⟩
      rintro rfl
      revert hmem
      decide
  | none =>
      -- two inputs cannot take all three candidates
      have hall := List.find?_eq_none.1 hfind
      have hrax := hall .rax (by decide)
      have hrcx := hall .rcx (by decide)
      have hrdx := hall .rdx (by decide)
      grind

/-! ## Operations -/

section Operations

variable {link : Linkage ε} {m : Machine ε} {a b : Source}

theorem eval_comm {op : Host.Alu} (hop : op = .add ∨ op = .or ∨ op = .and ∨ op = .xor)
    (x y : Word) : op.eval x y = op.eval y x := by
  rcases hop with rfl | rfl | rfl | rfl
  · have hcarry : x.uaddOverflow y = y.uaddOverflow x := by
      rw [BitVec.uaddOverflow, BitVec.uaddOverflow, Nat.add_comm]
    have hoverflow : x.saddOverflow y = y.saddOverflow x := by
      rw [BitVec.saddOverflow_eq, BitVec.saddOverflow_eq, BitVec.add_comm y x]
      cases x.msb <;> cases y.msb <;> rfl
    rw [Host.Alu.eval, Host.Alu.eval, hcarry, hoverflow, BitVec.add_comm]
  · rw [Host.Alu.eval, Host.Alu.eval, BitVec.or_comm]
  · rw [Host.Alu.eval, Host.Alu.eval, BitVec.and_comm]
  · rw [Host.Alu.eval, Host.Alu.eval, BitVec.xor_comm]

/-- The machine after a two-operand operation with its result in a register. -/
def combined (m : Machine ε) (op : Host.Alu) (dst : Host.Reg) (x y : Word) : Machine ε :=
  (m.withFlags (op.eval x y).2).put dst (op.eval x y).1

/-- The first input is moved to a register that the second one is not, and the
second combined into it. -/
theorem runInstrs?_moveTo_applyTo (link : Linkage ε) (ha : a.Readable) (hb : b.Readable)
    {op : Host.Alu} (hop : op ≠ .cmp) {dst : Host.Reg} (hd : dst ≠ .rsp) (hclean : m.Clean dst)
    (hne : b = .reg dst → a = .reg dst) :
    runInstrs? link (a.moveTo dst ++ b.applyTo op dst) m =
      some (combined m op dst (a.value m) (b.value m)) := by
  have hvalue : b.value (m.put dst (a.value m)) = b.value m := by
    by_cases hsame : b = .reg dst
    · rw [hne hsame, Source.value, Machine.put_low hclean]
    · exact Source.value_put hsame _
  rw [Host.runInstrs?_append_of_eq_some link (a.runInstrs?_moveTo ha hd hclean),
    b.runInstrs?_applyTo hb hop hd, Machine.low_put, if_pos rfl, hvalue, Machine.put_withFlags,
    Machine.put_put]
  rfl

theorem runInstrs?_commutative {op : Host.Alu}
    (hop : op = .add ∨ op = .or ∨ op = .and ∨ op = .xor) (ha : a.Readable) (hb : b.Readable)
    {dst : Host.Reg} (hd : dst ≠ .rsp) (hclean : m.Clean dst) :
    runInstrs? link (commutative op dst a b) m =
      some (combined m op dst (a.value m) (b.value m)) := by
  have hcmp : op ≠ .cmp := by
    rintro rfl
    simp at hop
  by_cases hsame : b = .reg dst
  · rw [commutative, if_pos hsame, a.runInstrs?_applyTo ha hcmp hd, eval_comm hop, hsame]
    rfl
  · rw [commutative, if_neg hsame,
      runInstrs?_moveTo_applyTo link ha hb hcmp hd hclean fun h => absurd h hsame]

/-- Restoring a register that was overwritten gives the machine back. -/
theorem setReg_reg_put (m : Machine ε) (s : Host.Reg) (v : Word) :
    (m.put s v).setReg s (m.reg s) = m := by
  refine Machine.ext_reg ?_ rfl rfl rfl rfl
  intro r
  rw [Machine.reg_setReg, Machine.reg_put]
  by_cases hr : s = r
  · rw [if_pos hr, hr]
  · rw [if_neg hr, if_neg hr]

/-- The host flags of an operation are set in a register that is restored. -/
theorem runInstrs?_scratchOperation (op : Host.Alu) (ha : a.Readable) (hb : b.Readable)
    (hclean : ∀ r, r ≠ .rsp → m.Clean r) :
    runInstrs? link (scratchOperation op a b) m =
      some (m.withFlags (op.eval (a.value m) (b.value m)).2) := by
  obtain ⟨s, hs⟩ : ∃ s, s = scratchFor a b := ⟨_, rfl⟩
  obtain ⟨has, hbs, hsp⟩ := scratchFor_ne a b
  rw [← hs] at has hbs hsp
  obtain ⟨stack, hstack⟩ : ∃ stack, stack = units (m.reg s) ++ m.stack := ⟨_, rfl⟩
  obtain ⟨junk, hwork⟩ : ∃ junk, runInstrs? link (a.moveTo s ++ b.applyTo op s)
      (m.withStack stack) =
        some (((m.put s junk).withFlags (op.eval (a.value m) (b.value m)).2).withStack stack) := by
    have hcleanS : (m.withStack stack).Clean s := hclean s hsp
    by_cases hop : op = .cmp
    · refine ⟨a.value m, ?_⟩
      rw [Host.runInstrs?_append_of_eq_some link (a.runInstrs?_moveTo ha hsp hcleanS), hop,
        b.runInstrs?_applyTo_cmp hb hsp, Machine.low_put, if_pos rfl, Source.value_put hbs]
      rfl
    · refine ⟨(op.eval (a.value m) (b.value m)).1, ?_⟩
      rw [runInstrs?_moveTo_applyTo link ha hb hop hsp hcleanS fun h => absurd h hbs]
      rfl
  have hcode : scratchOperation op a b =
      .push s :: ((a.moveTo s ++ b.applyTo op s) ++ [.pop s]) := by
    rw [scratchOperation, ← hs, List.cons_append, List.cons_append]
  rw [hcode, Host.runInstrs?_cons, step?_push_units link m hsp, ← hstack, Option.bind_some,
    Host.runInstrs?_append_of_eq_some link hwork, Host.runInstrs?_cons, hstack,
    step?_pop_units link _ hsp, Option.bind_some, Machine.setReg_withFlags, setReg_reg_put]
  rfl

theorem runInstrs?_subtract (ha : a.Readable) (hb : b.Readable) {dst : Host.Reg}
    (hd : dst ≠ .rsp) (hclean : ∀ r, r ≠ .rsp → m.Clean r) :
    runInstrs? link (subtract dst a b) m =
      some (combined m .sub dst (a.value m) (b.value m)) := by
  by_cases hsame : b = .reg dst ∧ a ≠ .reg dst
  · obtain ⟨s, hs⟩ : ∃ s, s = scratchFor a b := ⟨_, rfl⟩
    obtain ⟨has, hbs, hsp⟩ := scratchFor_ne a b
    rw [← hs] at has hbs hsp
    have hds : dst ≠ s := by
      rintro rfl
      exact hbs hsame.1
    obtain ⟨stack, hstack⟩ : ∃ stack, stack = units (m.reg s) ++ m.stack := ⟨_, rfl⟩
    have hcleanS : (m.withStack stack).Clean s := hclean s hsp
    have hwork := runInstrs?_moveTo_applyTo link ha hb (show Host.Alu.sub ≠ .cmp by decide) hsp
      hcleanS fun h => absurd h hbs
    have hcode : subtract dst a b =
        .push s :: ((a.moveTo s ++ b.applyTo .sub s) ++ [.mov dst s, .pop s]) := by
      rw [subtract, if_pos hsame]
      show .push (scratchFor a b) :: a.moveTo (scratchFor a b) ++
        b.applyTo .sub (scratchFor a b) ++ [.mov dst (scratchFor a b), .pop (scratchFor a b)] = _
      rw [← hs, List.cons_append, List.cons_append]
    have hmov : (Instr.mov dst s).step? link (combined (m.withStack stack) .sub s
        (a.value m) (b.value m)) = some (((combined m .sub dst (a.value m) (b.value m)).put s
          (Host.Alu.sub.eval (a.value m) (b.value m)).1).withStack stack) := by
      rw [Instr.step?_mov link _ hd hsp, combined, Machine.low_put, if_pos rfl]
      apply congrArg some
      refine Machine.ext_reg ?_ rfl rfl rfl rfl
      intro r
      simp only [combined, Machine.reg_withStack, Machine.reg_put, Machine.reg_withFlags]
      grind only
    have hreg : (combined m .sub dst (a.value m) (b.value m)).reg s = m.reg s := by
      rw [combined, Machine.reg_put, if_neg hds, Machine.reg_withFlags]
    rw [hcode, Host.runInstrs?_cons, step?_push_units link m hsp, ← hstack, Option.bind_some,
      Host.runInstrs?_append_of_eq_some link hwork, Host.runInstrs?_cons]
    show ((Instr.mov dst s).step? link (combined (m.withStack stack) .sub s (a.value m)
      (b.value m))).bind _ = _
    rw [hmov, Option.bind_some, Host.runInstrs?_cons, hstack, step?_pop_units link _ hsp,
      Option.bind_some, ← hreg, setReg_reg_put]
    rfl
  · rw [subtract, if_neg hsame]
    exact runInstrs?_moveTo_applyTo link ha hb (by decide) hd (hclean dst hd) fun h =>
      Classical.byContradiction fun hne => hsame ⟨h, hne⟩

theorem runInstrs?_compare (ha : a.Readable) (hb : b.Readable)
    (hclean : ∀ r, r ≠ .rsp → m.Clean r) :
    runInstrs? link (compare a b) m =
      some (m.withFlags (Host.Alu.cmp.eval (a.value m) (b.value m)).2) := by
  cases a with
  | imm v => exact runInstrs?_scratchOperation .cmp ha hb hclean
  | reg r =>
      have hr : r ≠ .rsp := fun heq => ha (heq ▸ rfl)
      exact b.runInstrs?_applyTo_cmp hb hr

theorem runInstrs?_testBits (ha : a.Readable) (hb : b.Readable) :
    runInstrs? link (testBits a b) m =
      some (m.withFlags (Host.Alu.and.eval (a.value m) (b.value m)).2) := by
  cases a with
  | reg x =>
      have hx : x ≠ .rsp := fun heq => ha (heq ▸ rfl)
      cases b with
      | reg y =>
          have hy : y ≠ .rsp := fun heq => hb (heq ▸ rfl)
          rw [testBits, Host.runInstrs?_cons, Instr.step?_test link m hx hy]
          rfl
      | imm w =>
          rw [testBits, Host.runInstrs?_cons, Instr.step?_testImm link m hx]
          rfl
  | imm v =>
      cases b with
      | reg y =>
          have hy : y ≠ .rsp := fun heq => hb (heq ▸ rfl)
          rw [testBits, Host.runInstrs?_cons, Instr.step?_testImm link m hy,
            eval_comm (.inr (.inr (.inl rfl)))]
          rfl
      | imm w =>
          show runInstrs? link [.push .rax, .movImm .rax v, .testImm .rax w, .pop .rax] m = _
          rw [Host.runInstrs?_cons, step?_push_units link m rax_ne_rsp, Option.bind_some,
            Host.runInstrs?_cons, Instr.step?_movImm link _ rax_ne_rsp, Option.bind_some,
            Host.runInstrs?_cons, Instr.step?_testImm link _ rax_ne_rsp, Option.bind_some,
            Machine.low_put, if_pos rfl, Machine.put_withStack, Machine.withFlags_withStack,
            Host.runInstrs?_cons, step?_pop_units link _ rax_ne_rsp, Option.bind_some,
            Machine.setReg_withFlags, setReg_reg_put]
          rfl

/-! ### The guest operation -/

/-- The machine after an operation with a guest result, apart from its host
flags. -/
def afterOperation (m : Machine ε) (op : AluOp) (setFlags : Bool) (dst? : Option Host.Reg)
    (r : AluResult) : Machine ε :=
  let written := if op.isTest then m else dst?.elim m (m.put · r.value)
  if setFlags || op.isTest then written.withCpu (m.cpu.withCpsr (statusAfter m.cpu.cpsr r))
  else written

theorem afterOperation_of_isTest {op : AluOp} (h : op.isTest = true) (setFlags : Bool)
    (dst? : Option Host.Reg) (r : AluResult) :
    afterOperation m op setFlags dst? r =
      m.withCpu (m.cpu.withCpsr (statusAfter m.cpu.cpsr r)) := by
  unfold afterOperation
  rw [h, Bool.or_true, if_pos rfl, if_pos rfl]

theorem afterOperation_of_not_isTest {op : AluOp} (h : op.isTest = false) (setFlags : Bool)
    (dst : Host.Reg) (r : AluResult) :
    afterOperation m op setFlags (some dst) r =
      if setFlags then (m.put dst r.value).withCpu (m.cpu.withCpsr (statusAfter m.cpu.cpsr r))
      else m.put dst r.value := by
  unfold afterOperation
  rw [h, Bool.or_false, if_neg Bool.false_ne_true]
  rfl

/-- The host flags, read as the captured carry and overflow tell, are the guest
flags of a result. -/
structure Shows (flags : Flags) (psr : Word) (carry : CarrySource) (overflow : Bool)
    (r : AluResult) : Prop where
  sign : flags.sign = r.value.msb
  zero : flags.zero = (r.value == 0)
  carry_eq : carry.eval flags psr = r.carry
  overflow_eq : (overflow && flags.overflow) = r.overflow?.getD false

theorem shows_add (psr x y : Word) :
    Shows (Host.Alu.add.eval x y).2 psr (.host .b) true (.sum x y) := by
  rw [eval_add]
  exact ⟨rfl, rfl, rfl, rfl⟩

theorem shows_sub (psr x y : Word) :
    Shows (Host.Alu.sub.eval x y).2 psr (.host .ae) true (.difference x y) := by
  rw [eval_sub]
  exact ⟨rfl, rfl, Bool.not_not _, rfl⟩

/-- A logical result passes on the carry that the source tells whatever the host
flags are. -/
theorem shows_logical {psr : Word} {carry : CarrySource} {c : Bool}
    (hcarry : ∀ flags, carry.eval flags psr = c) (value : Word) :
    Shows (.ofResult value false false) psr carry false (.logical value c) :=
  ⟨rfl, rfl, hcarry _, rfl⟩

/-- Host flags that show a guest result are captured as the guest status after
it. -/
theorem runInstrs?_withCapture {code : List Instr} {written : Machine ε} {flags : Flags}
    (hcode : runInstrs? link code m = some (written.withFlags flags))
    (hpointed : Pointed link written) (hcpu : written.cpu = m.cpu) {carry : CarrySource}
    {overflow : Bool} {r : AluResult} (hshows : Shows flags m.cpu.cpsr carry overflow r)
    (setFlags : Bool) :
    ∃ flags', runInstrs? link (code ++ if setFlags then captureFlags carry overflow else []) m =
      some ((if setFlags then written.withCpu (m.cpu.withCpsr (statusAfter m.cpu.cpsr r))
        else written).withFlags flags') := by
  cases setFlags with
  | false =>
      refine ⟨flags, ?_⟩
      rw [if_neg Bool.false_ne_true, if_neg Bool.false_ne_true, List.append_nil, hcode]
  | true =>
      obtain ⟨flags', hrun⟩ := runInstrs?_captureFlags (m := written.withFlags flags) hpointed carry
        overflow
      refine ⟨flags', ?_⟩
      rw [if_pos rfl, if_pos rfl, Host.runInstrs?_append_of_eq_some link hcode, hrun, captured,
        Machine.flags_withFlags, Machine.cpu_withFlags, hcpu, hshows.sign, hshows.zero,
        hshows.carry_eq, hshows.overflow_eq]
      rfl

/-- A move, tested when its flags are captured. -/
theorem runInstrs?_moveCapture {code : List Instr} {dst : Host.Reg} (hd : dst ≠ .rsp)
    {value : Word} (hcode : runInstrs? link code m = some (m.put dst value))
    (hpointed : Pointed link m) {carry : CarrySource} {c : Bool}
    (hcarry : ∀ flags, carry.eval flags m.cpu.cpsr = c) (setFlags : Bool) :
    ∃ flags, runInstrs? link
        (code ++ if setFlags then .test dst dst :: captureFlags carry false else []) m =
      some ((if setFlags then
        (m.put dst value).withCpu (m.cpu.withCpsr (statusAfter m.cpu.cpsr (.logical value c)))
        else m.put dst value).withFlags flags) := by
  cases setFlags with
  | false =>
      refine ⟨m.flags, ?_⟩
      rw [if_neg Bool.false_ne_true, if_neg Bool.false_ne_true, List.append_nil, hcode]
      rfl
  | true =>
      have htest : runInstrs? link (code ++ [.test dst dst]) m =
          some ((m.put dst value).withFlags (.ofResult value false false)) := by
        rw [Host.runInstrs?_append_of_eq_some link hcode, Host.runInstrs?_cons,
          Instr.step?_test link _ hd hd, Machine.low_put, if_pos rfl, Host.Alu.eval,
          BitVec.and_self]
        rfl
      obtain ⟨flags, hrun⟩ := runInstrs?_withCapture htest hpointed rfl
        (shows_logical hcarry value) true
      refine ⟨flags, ?_⟩
      rw [if_pos rfl, if_pos rfl] at hrun ⊢
      rw [← hrun, List.append_assoc]
      rfl

/-- Host code that performs a guest operation: it computes the guest result and puts
it and its flags where the operation does. -/
def Performs (link : Linkage ε) (m : Machine ε) (op : AluOp) (setFlags : Bool)
    (dst? : Option Host.Reg) (a b : Source) (c : Bool) (body : List Instr) : Prop :=
  ∃ r flags, op.compute? (a.value m) (b.value m) c = some r ∧
    runInstrs? link body m = some ((afterOperation m op setFlags dst? r).withFlags flags)

section Performs

variable {op : AluOp} {setFlags : Bool} {dst : Host.Reg} {code body : List Instr} {c : Bool}
  {carry : CarrySource}

/-- An operation that writes a register captures flags only if asked to. -/
theorem performs_of_put (hop : op.isTest = false) (hpointed : Pointed link m) {r : AluResult}
    (hr : op.compute? (a.value m) (b.value m) c = some r) {flags : Flags}
    (hcode : runInstrs? link code m = some ((m.put dst r.value).withFlags flags))
    {overflow : Bool} (hshows : Shows flags m.cpu.cpsr carry overflow r) :
    Performs link m op setFlags (some dst) a b c
      (code ++ if setFlags then captureFlags carry overflow else []) := by
  obtain ⟨flags', hrun⟩ := runInstrs?_withCapture hcode hpointed rfl hshows setFlags
  refine ⟨r, flags', hr, ?_⟩
  rw [hrun, afterOperation_of_not_isTest hop]

/-- A move needs a test to capture its flags. -/
theorem performs_of_move (hop : op.isTest = false) (hpointed : Pointed link m)
    (hd : dst ≠ .rsp) (hcarry : ∀ flags, carry.eval flags m.cpu.cpsr = c) {value : Word}
    (hr : op.compute? (a.value m) (b.value m) c = some (.logical value c))
    (hcode : runInstrs? link code m = some (m.put dst value)) :
    Performs link m op setFlags (some dst) a b c
      (code ++ if setFlags then .test dst dst :: captureFlags carry false else []) := by
  obtain ⟨flags, hrun⟩ := runInstrs?_moveCapture hd hcode hpointed hcarry setFlags
  refine ⟨.logical value c, flags, hr, ?_⟩
  rw [hrun, afterOperation_of_not_isTest hop]
  rfl

/-- A test always captures flags. -/
theorem performs_of_test (hop : op.isTest = true) (hpointed : Pointed link m) {r : AluResult}
    (hr : op.compute? (a.value m) (b.value m) c = some r) {flags : Flags}
    (hcode : runInstrs? link code m = some (m.withFlags flags)) {overflow : Bool}
    (hshows : Shows flags m.cpu.cpsr carry overflow r) (dst? : Option Host.Reg) :
    Performs link m op setFlags dst? a b c (code ++ captureFlags carry overflow) := by
  obtain ⟨flags', hrun⟩ := runInstrs?_withCapture hcode hpointed rfl hshows true
  refine ⟨r, flags', hr, ?_⟩
  rw [if_pos rfl, if_pos rfl] at hrun
  rw [hrun, afterOperation_of_isTest hop]

variable (hpointed : Pointed link m) (hclean : ∀ r, r ≠ .rsp → m.Clean r) (ha : a.Readable)
  (hb : b.Readable) (hcarry : ∀ flags, carry.eval flags m.cpu.cpsr = c)
include hpointed hclean ha hb hcarry

/-- The code of a comparison sets the guest flags. -/
theorem performs_of_isTest (hop : op.isTest = true) {dst? : Option Host.Reg}
    (hbody : operation? op setFlags dst? a b carry = some body) :
    Performs link m op setFlags dst? a b c body := by
  have hlogical : ∀ value, Shows (.ofResult value false false) _ _ _ _ :=
    shows_logical hcarry
  cases op with
  | tst =>
      obtain rfl := Option.some.inj hbody
      exact performs_of_test rfl hpointed rfl (runInstrs?_testBits ha hb) (hlogical _) dst?
  | teq =>
      obtain rfl := Option.some.inj hbody
      exact performs_of_test rfl hpointed rfl (runInstrs?_scratchOperation .xor ha hb hclean)
        (hlogical _) dst?
  | cmp =>
      obtain rfl := Option.some.inj hbody
      exact performs_of_test rfl hpointed rfl (runInstrs?_compare ha hb hclean) (shows_sub ..) dst?
  | cmn =>
      obtain rfl := Option.some.inj hbody
      exact performs_of_test rfl hpointed rfl (runInstrs?_scratchOperation .add ha hb hclean)
        (shows_add ..) dst?
  | and | eor | sub | rsb | add | adc | sbc | rsc | orr | mov | bic | mvn => cases hop

/-- The code of any other operation writes the guest result and, if asked to, sets
the guest flags. -/
theorem performs_of_dst (hop : op.isTest = false) (hd : dst ≠ .rsp)
    (hbody : operation? op setFlags (some dst) a b carry = some body) :
    Performs link m op setFlags (some dst) a b c body := by
  have hlogical : ∀ value, Shows (.ofResult value false false) _ _ _ _ :=
    shows_logical hcarry
  have hcommutative : ∀ {hop : Host.Alu}, (hop = .add ∨ hop = .or ∨ hop = .and ∨ hop = .xor) →
      runInstrs? link (commutative hop dst a b) m =
        some (combined m hop dst (a.value m) (b.value m)) := fun hop =>
    runInstrs?_commutative hop ha hb hd (hclean _ hd)
  have hmove : runInstrs? link (b.moveTo dst) m = some (m.put dst (b.value m)) :=
    b.runInstrs?_moveTo hb hd (hclean dst hd)
  cases op with
  | tst | teq | cmp | cmn => cases hop
  | rsb | adc | sbc | rsc | bic => cases hbody
  | and =>
      obtain rfl := Option.some.inj hbody
      exact performs_of_put rfl hpointed rfl (hcommutative (.inr (.inr (.inl rfl)))) (hlogical _)
  | eor =>
      obtain rfl := Option.some.inj hbody
      exact performs_of_put rfl hpointed rfl (hcommutative (.inr (.inr (.inr rfl)))) (hlogical _)
  | orr =>
      obtain rfl := Option.some.inj hbody
      exact performs_of_put rfl hpointed rfl (hcommutative (.inr (.inl rfl))) (hlogical _)
  | add =>
      obtain rfl := Option.some.inj hbody
      exact performs_of_put rfl hpointed rfl (hcommutative (.inl rfl)) (shows_add ..)
  | sub =>
      obtain rfl := Option.some.inj hbody
      exact performs_of_put rfl hpointed rfl (runInstrs?_subtract ha hb hd hclean) (shows_sub ..)
  | mov =>
      obtain rfl := Option.some.inj hbody
      exact performs_of_move rfl hpointed hd hcarry rfl hmove
  | mvn =>
      obtain rfl := Option.some.inj hbody
      have hnot : runInstrs? link (b.moveTo dst ++ [.not dst]) m =
          some (m.put dst (~~~b.value m)) := by
        rw [Host.runInstrs?_append_of_eq_some link hmove, Host.runInstrs?_cons,
          Instr.step?_not link _ hd, Machine.low_put, if_pos rfl, Machine.put_put]
        rfl
      rw [← List.singleton_append, ← List.append_assoc]
      exact performs_of_move rfl hpointed hd hcarry rfl hnot

end Performs

/-- Only comparisons have host code without a home for their result. -/
theorem isTest_or_exists_of_operation? {op : AluOp} {setFlags : Bool} {dst? : Option Host.Reg}
    {a b : Source} {carry : CarrySource} {body : List Instr}
    (h : operation? op setFlags dst? a b carry = some body) :
    op.isTest = true ∨ ∃ dst, dst? = some dst := by
  cases dst? with
  | some dst => exact .inr ⟨dst, rfl⟩
  | none => cases op <;> first | exact .inl rfl | cases h

/-- The code of an operation writes the guest result to the home of its register
and, if asked to, the guest flags to the status. -/
theorem runInstrs?_operation (hpointed : Pointed link m) (hclean : ∀ r, r ≠ .rsp → m.Clean r)
    (ha : a.Readable) (hb : b.Readable) {op : AluOp} {setFlags : Bool} {dst? : Option Host.Reg}
    (hd : ∀ dst, dst? = some dst → dst ≠ .rsp) {carry : CarrySource} {c : Bool}
    (hcarry : ∀ flags, carry.eval flags m.cpu.cpsr = c) {body : List Instr}
    (hbody : operation? op setFlags dst? a b carry = some body) :
    Performs link m op setFlags dst? a b c body := by
  cases hop : op.isTest with
  | true => exact performs_of_isTest hpointed hclean ha hb hcarry hop hbody
  | false =>
      rcases isTest_or_exists_of_operation? hbody with htest | ⟨dst, rfl⟩
      · exact nomatch hop.symm.trans htest
      · exact performs_of_dst hpointed hclean ha hb hcarry hop (hd dst rfl) hbody

end Operations

/-! ## Instructions -/

section Instructions

variable {cpu cpu' : Cpu} {m n : Machine ε}

/-- A guest register as an input has the value that the instruction reads. -/
theorem Source.value_ofReg (hm : InHomes cpu m) (addr : Word) (r : Reg) :
    (Source.ofReg addr r).value m = cpu.readAt addr r := by
  unfold Source.ofReg
  cases hr : home? r with
  | none =>
      rw [home?_eq_none_iff.1 hr, Cpu.readAt, if_pos rfl]
      rfl
  | some h =>
      have hpc : r ≠ .pc := by
        rintro rfl
        cases hr
      rw [Cpu.readAt_of_ne hpc]
      exact hm.low hr

theorem Source.readable_ofReg (addr : Word) (r : Reg) : (Source.ofReg addr r).Readable := by
  unfold Source.ofReg Source.Readable
  cases hr : home? r with
  | none => nofun
  | some h =>
      rintro ⟨⟩
      exact home?_ne_rsp r hr

/-- A second operand as an input has the value and the carry that the instruction
reads. -/
theorem eval?_of_operandSource? (hm : InHomes cpu m) (hcpsr : m.cpu.cpsr = cpu.cpsr) {addr : Word}
    {operand : Operand} {b : Source} {carry : CarrySource}
    (h : operandSource? addr operand = some (b, carry)) :
    ∃ c, operand.eval? addr cpu = some (b.value m, c) ∧
      ∀ flags, carry.eval flags m.cpu.cpsr = c := by
  have hcarry : Psr.flag m.cpu.cpsr .c = cpu.flag .c := by
    rw [hcpsr]
    rfl
  cases operand with
  | imm imm8 rotate =>
      cases h
      refine ⟨_, rfl, fun flags => ?_⟩
      by_cases hzero : rotate = 0
      · rw [if_pos hzero, if_pos hzero]
        exact hcarry
      · rw [if_neg hzero, if_neg hzero]
        rfl
  | reg shifted =>
      obtain ⟨r, hplain, heq⟩ := Option.map_eq_some_iff.1 h
      cases heq
      have hshifted : shifted = ⟨r, .lsl, 0⟩ := by
        unfold Operand.plainReg? at hplain
        split at hplain
        · rename_i hoperand
          cases hplain
          cases hoperand
          rfl
        · cases hplain
      subst hshifted
      refine ⟨cpu.flag .c, ?_, fun flags => hcarry⟩
      rw [Source.value_ofReg hm]
      rfl
  | regByReg reg shift amount => cases h

/-- A second operand as an input is not the stack pointer. -/
theorem readable_of_operandSource? {addr : Word} {operand : Operand} {b : Source}
    {carry : CarrySource} (h : operandSource? addr operand = some (b, carry)) : b.Readable := by
  cases operand with
  | imm imm8 rotate =>
      cases h
      exact nofun
  | reg shifted =>
      obtain ⟨r, -, heq⟩ := Option.map_eq_some_iff.1 h
      cases heq
      exact Source.readable_ofReg addr r
  | regByReg reg shift amount => cases h

/-- The code of a data-processing instruction is that of an operation on inputs and a
result that are not the stack pointer. -/
theorem exists_operation_of_dataProcessing? {addr : Word} {d : DataProcessing} {cond : Cond}
    {skip : Label} {code : Code} (h : dataProcessing? cond skip addr d = some code) :
    ∃ b carry body, operandSource? addr d.operand = some (b, carry) ∧ b.Readable ∧
      (∀ dst, (if d.op.isTest then none else home? d.rd) = some dst → dst ≠ .rsp) ∧
      operation? d.op d.setFlags (if d.op.isTest then none else home? d.rd) (.ofReg addr d.rn) b
        carry = some body ∧
      code = conditional cond skip (Code.ofInstrs body) := by
  obtain ⟨⟨b, carry⟩, hsource, h⟩ := Option.bind_eq_some_iff.1 h
  obtain ⟨body, hbody, heq⟩ := Option.bind_eq_some_iff.1 h
  refine ⟨b, carry, body, hsource, readable_of_operandSource? hsource, ?_, hbody,
    (Option.some.inj heq).symm⟩
  rintro dst hdst rfl
  split at hdst
  · cases hdst
  · exact home?_ne_rsp d.rd hdst

/-- A machine holds a guest state in the homes and in the current status, and is otherwise
like another machine but for its host flags. -/
structure Updated (m : Machine ε) (cpu : Cpu) (n : Machine ε) : Prop where
  homes : InHomes cpu n
  cpu_eq : n.cpu = m.cpu.withCpsr cpu.cpsr
  stack_eq : n.stack = m.stack
  env_eq : n.env = m.env

namespace Updated

/-- A machine that holds a guest state. -/
theorem refl (hm : InHomes cpu m) (hcpsr : m.cpu.cpsr = cpu.cpsr) : Updated m cpu m where
  homes := hm
  cpu_eq := by
    rw [← hcpsr]
    rfl
  stack_eq := rfl
  env_eq := rfl

/-- Writing a home writes the guest register. -/
theorem put (hn : Updated m cpu n) {r : Reg} {h : Host.Reg} (hr : home? r = some h)
    (value : Word) : Updated m (cpu.setReg r value) (n.put h value) where
  homes := hn.homes.put hr value
  cpu_eq := hn.cpu_eq
  stack_eq := hn.stack_eq
  env_eq := hn.env_eq

/-- Writing the status in the processor state writes the guest status. -/
theorem withCpsr (hn : Updated m cpu n) (psr : Word) :
    Updated m (cpu.withCpsr psr) (n.withCpu (m.cpu.withCpsr psr)) where
  homes := hn.homes
  cpu_eq := rfl
  stack_eq := hn.stack_eq
  env_eq := hn.env_eq

/-- The host flags do not matter. -/
theorem withFlags (hn : Updated m cpu n) (flags : Flags) : Updated m cpu (n.withFlags flags) :=
  ⟨hn.homes, hn.cpu_eq, hn.stack_eq, hn.env_eq⟩

/-- The program counter of the guest does not matter. -/
theorem congr (hn : Updated m cpu n) (h : cpu.EqOffPc cpu') : Updated m cpu' n where
  homes := hn.homes.congr h
  cpu_eq := h.cpsr ▸ hn.cpu_eq
  stack_eq := hn.stack_eq
  env_eq := hn.env_eq

/-- A loaded guest that is updated is loaded. -/
theorem loaded {link : Linkage ε} {saved : Host.Reg → BitVec 64} {env : ε} {before : Cpu}
    (hn : Updated m cpu n) (hm : Loaded link saved before env m) (hspsr : cpu.spsr = before.spsr) :
    Loaded link saved cpu env n where
  homes := hn.homes
  cpsr := by
    rw [hn.cpu_eq]
    rfl
  spsr := by
    rw [hn.cpu_eq, hspsr]
    exact hm.spsr
  inFrame := by
    obtain ⟨scratch, padding, hstack⟩ := hm.inFrame
    exact ⟨scratch, padding, hn.stack_eq.trans hstack⟩
  env_eq := hn.env_eq.trans hm.env_eq

end Updated

/-- The code of a data-processing instruction takes a guest that is held in the homes and
in the status behind the topmost slot to the state that the instruction leads to. -/
theorem runInstrs?_dataProcessing {addr : Word} {d : DataProcessing} {cond : Cond} {skip : Label}
    {code : Code} (h : dataProcessing? cond skip addr d = some code) :
    ∃ body, code = conditional cond skip (Code.ofInstrs body) ∧
      ∀ {link : Linkage ε} {cpu m}, InHomes cpu m → m.cpu.cpsr = cpu.cpsr → Pointed link m →
        ∃ after m', d.execute? addr cpu = some after ∧ after.spsr = cpu.spsr ∧
          runInstrs? link body m = some m' ∧ Updated m after m' := by
  obtain ⟨b, carry, body, hsource, hreadable, hhome, hbody, heq⟩ :=
    exists_operation_of_dataProcessing? h
  refine ⟨body, heq, fun {link cpu m} hm hcpsr hpointed => ?_⟩
  obtain ⟨c, heval, hcarry⟩ := eval?_of_operandSource? hm hcpsr hsource
  obtain ⟨r, flags, hr, hrun⟩ := runInstrs?_operation hpointed (fun _ => hm.clean)
    (Source.readable_ofReg addr d.rn) hreadable hhome hcarry hbody
  rw [Source.value_ofReg hm] at hr
  have hexecute : d.execute? addr cpu =
      if d.op.isTest then some ((cpu.setResultFlags r).advance addr)
      else if d.rd = .pc then
        some ((if d.setFlags then cpu.restoreStatus else cpu).jump r.value)
      else
        some ((if d.setFlags then (cpu.setReg d.rd r.value).setResultFlags r
          else cpu.setReg d.rd r.value).advance addr) := by
    unfold DataProcessing.execute?
    rw [heval]
    show ((d.op.compute? (cpu.readAt addr d.rn) (b.value m) c).bind _) = _
    rw [hr, Option.bind_some]
  have hupdated : Updated m cpu m := .refl hm hcpsr
  cases htest : d.op.isTest with
  | true =>
      refine ⟨(cpu.setResultFlags r).advance addr, _, ?_, ?_, hrun, ?_⟩
      · rw [hexecute, if_pos htest]
      · rw [setResultFlags_eq]
        rfl
      · rw [afterOperation_of_isTest htest, setResultFlags_eq, hcpsr]
        exact ((hupdated.withCpsr _).withFlags flags).congr (Cpu.EqOffPc.setPc _ _).symm
  | false =>
      obtain ⟨dst, hdst⟩ := (isTest_or_exists_of_operation? hbody).resolve_left (by simp [htest])
      rw [hdst] at hrun
      rw [htest, if_neg Bool.false_ne_true] at hdst
      have hpc : d.rd ≠ .pc := by
        intro hpc
        rw [hpc] at hdst
        cases hdst
      refine ⟨(if d.setFlags then (cpu.setReg d.rd r.value).setResultFlags r
        else cpu.setReg d.rd r.value).advance addr, _, ?_, ?_, hrun, ?_⟩
      · rw [hexecute, if_neg (by simp [htest]), if_neg hpc]
      · rw [setResultFlags_eq]
        cases d.setFlags <;> rfl
      · rw [afterOperation_of_not_isTest htest]
        refine Updated.congr (Updated.withFlags ?_ flags) (Cpu.EqOffPc.setPc _ _).symm
        cases d.setFlags with
        | false => exact hupdated.put hdst r.value
        | true =>
            rw [if_pos rfl, if_pos rfl, setResultFlags_eq, hcpsr]
            exact (hupdated.put hdst r.value).withCpsr _

end Instructions

end ArmEmulator.Block
