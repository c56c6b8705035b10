import ArmEmulator.Proofs.Block.Branch
import ArmEmulator.Proofs.Block.DataProcessing
import ArmEmulator.Proofs.Block.Labels
import ArmEmulator.Proofs.Block.MultiTransfer
import ArmEmulator.Proofs.Guest.Decoding

/-!
# One instruction of a running block

The code of an instruction, native or not, does what the interpreter does.  If
the instruction cannot move the program counter the block goes on with the
guest loaded; if it can the block returns; if an access faults the block jumps
to its fault exit.

Main results:

- Theorems {lit}`leads_dataProcessing`, {lit}`leads_transfer` and
  {lit}`leads_multiTransfer`: the code of a native instruction that goes on.
- Theorem {lit}`run?_lower_next`: an instruction inside a block.
- Theorem {lit}`run?_lower_exit`: an instruction that ends a block.
- Theorem {lit}`run?_lower_of_error`: an instruction that faults.
-/

namespace ArmEmulator.Block

open Host (Machine Linkage Instr Code Item Label Flags runInstrs?)

variable {ω : Type}

/-! ## Decoded branches -/

/-- A decoded register branch does not link. -/
theorem link_of_decode {w : Word} {b : Branch} (h : Operation.decode w = .branch b) (r : Reg)
    (hr : b.target = .reg r) : b.link = false := by
  unfold Operation.decode at h
  split at h
  · unfold Operation.ofRegisterWord at h
    split at h
    · cases h
      rfl
    · split at h
      · cases h
      · split at h
        · exact absurd h (Operation.ofDataWord_ne_branch _ _ _)
        · exact absurd h (Operation.ofDataWord_ne_branch _ _ _)
  · exact absurd h (Operation.ofDataWord_ne_branch _ _ _)
  · cases h
  · split at h
    · cases h
    · cases h
  · cases h
  · cases h
    cases hr
  · cases h
  · split at h
    · cases h
    · cases h

/-! ## Native instructions -/

section Native

variable {helpers : Helpers} {link : Linkage (Environment ω)} {saved : Host.Reg → BitVec 64}
  {cpu cpu' : Cpu} {env env' : Environment ω} {m : Machine (Environment ω)} {cond : Cond}
  {skip : Label} {addr word : Word} {code rest : Code} {outcome : Outcome} {bus : Bus ω}

/-- Conditional code whose body does what the instruction does and makes its accesses. -/
theorem leads_conditional (hm : Loaded link saved cpu env m) {body : Code}
    {requests : List (Bus.Request ω)} (hlabel : ∀ l, Item.label l ∉ body)
    (hpass : cond.passes cpu.cpsr = true → ∀ n, Loaded link saved cpu env n →
      ∃ m' calls, Loaded link saved cpu' env' m' ∧ Code.Leads link none body n calls none m' ∧
        calls.map (callRequest? helpers) = requests.map some)
    (hfail : cond.passes cpu.cpsr = false → cpu.EqOffPc cpu' ∧ env = env' ∧ requests = []) :
    ∃ m' calls, Loaded link saved cpu' env' m' ∧
      Code.Leads link none (conditional cond skip body) m calls none m' ∧
      calls.map (callRequest? helpers) = requests.map some := by
  cases hc : cond.passes cpu.cpsr with
  | true =>
      obtain ⟨flags, hleads⟩ := leads_conditional_of_passes hm.inFrame.pointed (hm.cpsr ▸ hc) skip
      -- the test of the condition has changed the host flags and nothing else
      obtain ⟨m', calls, hloaded, hbody, hcalls⟩ := hpass hc _ (hm.withFlags flags)
      exact ⟨m', calls, hloaded, hleads hlabel nofun hbody, hcalls⟩
  | false =>
      obtain ⟨flags, hleads⟩ := leads_conditional_of_fails hm.inFrame.pointed (hm.cpsr ▸ hc) skip
        body
      obtain ⟨hcpu, rfl, rfl⟩ := hfail hc
      exact ⟨_, [], (hm.congr hcpu).withFlags flags, hleads, rfl⟩

/-- A state that only moved on. -/
theorem eqOffPc_of_fails (hc : cond.passes cpu.cpsr = false) {op : Operation}
    (h : (⟨cond, op⟩ : Instruction).execute addr word cpu env.bus = .ok (outcome, cpu') bus) :
    cpu.EqOffPc cpu' ∧ env = env.withBus bus ∧
      ((⟨cond, op⟩ : Instruction).requests addr cpu : List (Bus.Request ω)) = [] := by
  rw [Instruction.execute_of_fails hc] at h
  cases h
  refine ⟨(Cpu.EqOffPc.setPc _ _).symm, rfl, ?_⟩
  rw [Instruction.requests, hc, if_neg Bool.false_ne_true]

/-- A transfer is supported, so it is not counted as an unsupported instruction. -/
theorem counted_of_transfer {op : Operation}
    (hop : (∃ t, op = .transfer t) ∨ ∃ t, op = .multiTransfer t)
    (h : (⟨cond, op⟩ : Instruction).execute addr word cpu env.bus = .ok (outcome, cpu') bus) :
    (env.withBus bus).counted outcome = env.withBus bus := by
  unfold Instruction.execute at h
  split at h
  · rcases hop with ⟨t, rfl⟩ | ⟨t, rfl⟩ <;>
      obtain ⟨after, -, heq⟩ := Access.bind_pure_eq_ok_iff.1 h <;> cases heq <;> rfl
  · obtain ⟨heq, -⟩ := Access.pure_eq_ok_iff.1 h
    cases heq
    rfl

/-- The code of a native single transfer. -/
theorem leads_transfer (hlinked : Linked helpers link) (hm : Loaded link saved cpu env m)
    {t : Transfer} (hnative : transfer? helpers cond skip addr t = some code)
    (h : (⟨cond, .transfer t⟩ : Instruction).execute addr word cpu env.bus =
      .ok (outcome, cpu') bus) :
    ∃ m' calls, Loaded link saved cpu' (env.withBus bus) m' ∧
      Code.Leads link none code m calls none m' ∧
      calls.map (callRequest? helpers) =
        ((⟨cond, .transfer t⟩ : Instruction).requests addr cpu :
          List (Bus.Request ω)).map some := by
  obtain ⟨hsupported, rfl⟩ := supported_of_transfer? hnative
  refine leads_conditional hm (Linear.transferBody addr t).label ?_ (eqOffPc_of_fails · h)
  intro hc n hn
  unfold Instruction.execute at h
  rw [if_pos hc] at h
  obtain ⟨after, ht, heq⟩ := Access.bind_pure_eq_ok_iff.1 h
  cases heq
  obtain ⟨m', call, hloaded, hleads, hcall⟩ := leads_transferBody_of_ok hlinked hn hsupported ht
  refine ⟨m', [call], hloaded, hleads, ?_⟩
  rw [Instruction.requests, if_pos hc, List.map_singleton, hcall]
  rfl

/-- The code of a native multiple transfer. -/
theorem leads_multiTransfer (hlinked : Linked helpers link) (hm : Loaded link saved cpu env m)
    {t : MultiTransfer} (hnative : multiTransfer? helpers cond skip t = some code)
    (h : (⟨cond, .multiTransfer t⟩ : Instruction).execute addr word cpu env.bus =
      .ok (outcome, cpu') bus) :
    ∃ m' calls, Loaded link saved cpu' (env.withBus bus) m' ∧
      Code.Leads link none code m calls none m' ∧
      calls.map (callRequest? helpers) =
        ((⟨cond, .multiTransfer t⟩ : Instruction).requests addr cpu :
          List (Bus.Request ω)).map some := by
  obtain ⟨hsupported, rfl⟩ := supported_of_multiTransfer? hnative
  refine leads_conditional hm (Linear.multiTransferBody t).label ?_ (eqOffPc_of_fails · h)
  intro hc n hn
  unfold Instruction.execute at h
  rw [if_pos hc] at h
  obtain ⟨after, ht, heq⟩ := Access.bind_pure_eq_ok_iff.1 h
  cases heq
  obtain ⟨m', calls, hloaded, hleads, hcalls⟩ := leads_multiTransferBody_of_ok hlinked hn hsupported
    ht
  refine ⟨m', calls, hloaded, hleads, ?_⟩
  rw [Instruction.requests, if_pos hc, hcalls]

/-- The code of a native data-processing instruction.  It needs no more of the frame than
the topmost slot. -/
theorem leads_dataProcessing {ε : Type} {link : Linkage ε} {m : Machine ε} {d : DataProcessing}
    (hhomes : InHomes cpu m) (hcpsr : m.cpu.cpsr = cpu.cpsr) (hpointed : Pointed link m)
    (hnative : dataProcessing? cond skip addr d = some code) (word : Word) (bus : Bus ω) :
    ∃ after m' calls,
      (⟨cond, .dataProcessing d⟩ : Instruction).execute addr word cpu bus =
        .ok (if cond.passes cpu.cpsr then .executed else .skipped, after) bus ∧
      after.spsr = cpu.spsr ∧ Updated m after m' ∧ Code.Leads link none code m calls none m' := by
  obtain ⟨body, rfl, hbody⟩ := @runInstrs?_dataProcessing ε _ _ _ _ _ hnative
  cases hc : cond.passes cpu.cpsr with
  | true =>
      obtain ⟨flags, hconditional⟩ := leads_conditional_of_passes hpointed (hcpsr ▸ hc) skip
      obtain ⟨after, m', hexecute, hspsr, hrun, hupdated⟩ := hbody (m := m.withFlags flags) hhomes
        hcpsr hpointed
      obtain ⟨calls, hleads⟩ := Code.Leads.exists_ofInstrs hrun
      refine ⟨after, m', calls, ?_, hspsr, ⟨hupdated.homes, hupdated.cpu_eq, hupdated.stack_eq,
        hupdated.env_eq⟩, hconditional (Linear.ofInstrs body).label nofun hleads⟩
      unfold Instruction.execute
      rw [if_pos hc]
      exact congrArg (fun after? => EStateM.Result.ok (Instruction.orUnhandled addr word cpu after?)
        bus) hexecute
  | false =>
      obtain ⟨flags, hleads⟩ := leads_conditional_of_fails hpointed (hcpsr ▸ hc) skip
        (Code.ofInstrs body)
      exact ⟨cpu.advance addr, _, [], Instruction.execute_of_fails hc addr word bus, rfl,
        ((Updated.refl hhomes hcpsr).withFlags flags).congr (Cpu.EqOffPc.setPc _ _).symm, hleads⟩

/-- A native instruction inside a block goes on with the state it leads to
loaded. -/
theorem run?_native_next (hlinked : Linked helpers link) (hm : Loaded link saved cpu env m)
    (hskip : Item.label skip ∉ rest) {op : Operation} (hw : op.writesPc = false)
    (hnative : native? helpers cond skip addr op = some code)
    (h : (⟨cond, op⟩ : Instruction).execute addr word cpu env.bus = .ok (outcome, cpu') bus) :
    ∃ m', Loaded link saved cpu' ((env.withBus bus).counted outcome) m' ∧
      Code.run? link none (code ++ rest) m = Code.run? link none rest m' := by
  have hplaced : ∀ l, Item.label l ∈ code → Item.label l ∉ rest := by
    intro l hl
    rw [(Local.native hnative).label l hl]
    exact hskip
  cases op with
  | dataProcessing d =>
      obtain ⟨after, m', calls, hexecute, hspsr, hupdated, hleads⟩ := leads_dataProcessing hm.homes
        hm.cpsr hm.inFrame.pointed hnative word env.bus
      cases h.symm.trans hexecute
      have hcounted : (env.withBus env.bus).counted
          (if cond.passes cpu.cpsr then .executed else .skipped) = env := by
        cases cond.passes cpu.cpsr <;> rfl
      exact ⟨m', hcounted.symm ▸ hupdated.loaded hm hspsr, hleads.run?_append hplaced⟩
  | transfer t =>
      obtain ⟨m', calls, hloaded, hleads, -⟩ := leads_transfer hlinked hm hnative h
      exact ⟨m', (counted_of_transfer (.inl ⟨t, rfl⟩) h).symm ▸ hloaded, hleads.run?_append hplaced⟩
  | multiTransfer t =>
      obtain ⟨m', calls, hloaded, hleads, -⟩ := leads_multiTransfer hlinked hm hnative h
      exact ⟨m', (counted_of_transfer (.inr ⟨t, rfl⟩) h).symm ▸ hloaded, hleads.run?_append hplaced⟩
  | branch b => cases hw
  | coprocessor =>
      cases hnative
      have hcpu : cpu.EqOffPc cpu' ∧ env = (env.withBus bus).counted outcome := by
        cases hc : cond.passes cpu.cpsr with
        | false =>
            rw [Instruction.execute_of_fails hc] at h
            cases h
            exact ⟨(Cpu.EqOffPc.setPc _ _).symm, rfl⟩
        | true =>
            unfold Instruction.execute at h
            rw [if_pos hc] at h
            obtain ⟨heq, rfl⟩ := Access.pure_eq_ok_iff.1 h
            cases heq
            exact ⟨(Cpu.EqOffPc.setPc _ _).symm, rfl⟩
      exact ⟨m, hcpu.2 ▸ hm.congr hcpu.1, rfl⟩
  | statusTransfer s => cases hnative
  | unknown w => cases hnative

/-- A native instruction that can move the program counter is a branch. -/
theorem exists_branch_of_native {op : Operation} (hw : op.writesPc = true)
    (hnative : native? helpers cond skip addr op = some code) : ∃ b, op = .branch b := by
  cases op with
  | dataProcessing d =>
      obtain ⟨⟨b, carry⟩, -, h⟩ := Option.bind_eq_some_iff.1 hnative
      obtain ⟨body, hbody, -⟩ := Option.bind_eq_some_iff.1 h
      unfold Operation.writesPc at hw
      simp only [Bool.and_eq_true, Bool.not_eq_true', beq_iff_eq] at hw
      rw [hw.1, hw.2] at hbody
      obtain ⟨dst, hdst⟩ := (isTest_or_exists_of_operation? hbody).resolve_left (by simp [hw.1])
      cases hdst
  | transfer t =>
      obtain ⟨hsupported, -⟩ := supported_of_transfer? hnative
      have hrd := rd_ne_pc_of_transferSupported hsupported
      unfold Operation.writesPc at hw
      unfold transferSupported at hsupported
      simp_all
  | multiTransfer t =>
      obtain ⟨hsupported, -⟩ := supported_of_multiTransfer? hnative
      unfold Operation.writesPc at hw
      unfold multiTransferSupported at hsupported
      simp_all
  | branch b => exact ⟨b, rfl⟩
  | coprocessor => cases hw
  | statusTransfer s => cases hnative
  | unknown w => cases hnative

/-- A native instruction that ends its block returns with the state it leads to. -/
theorem run?_native_exit (hm : Loaded link saved cpu env m) (hskip : Item.label skip ∉ rest)
    {i : Instruction} (hi : ∃ w, i = Instruction.decode w) (hw : i.writesPc = true)
    (hnative : native? helpers i.cond skip addr i.op = some code)
    (h : i.execute addr word cpu env.bus = .ok (outcome, cpu') bus) :
    ∃ m', Code.run? link none (code ++ rest) m = some m' ∧
      Returned saved 0 cpu' ((env.withBus bus).counted outcome) m' := by
  obtain ⟨b, hb⟩ := exists_branch_of_native hw hnative
  obtain ⟨w, rfl⟩ := hi
  have hlink := link_of_decode hb
  rw [hb] at hnative
  cases hc : (Instruction.decode w).cond.passes cpu.cpsr with
  | false =>
      rw [Instruction.execute_of_fails hc] at h
      cases h
      exact run?_branch_of_fails hm hc hnative hskip
  | true =>
      unfold Instruction.execute at h
      rw [if_pos hc, hb] at h
      obtain ⟨heq, rfl⟩ := Access.pure_eq_ok_iff.1 h
      have hcounted : (env.withBus env.bus).counted outcome = env := by
        rw [show outcome = (b.execute addr cpu).1 by rw [heq], Branch.execute]
        dsimp only
        split <;> rfl
      obtain ⟨m', hrun, hreturned⟩ := run?_branch_of_passes hm hlink hc hnative rest
      rw [heq] at hreturned
      exact ⟨m', hrun, hcounted.symm ▸ hreturned⟩

/-- Whether host code makes the accesses of an operation, one call of a helper for each of
them.  Other accesses are made by the interpreter. -/
def accessSupported : Operation → Bool
  | .transfer t => transferSupported t
  | .multiTransfer m => multiTransferSupported m
  | .dataProcessing _ | .branch _ | .statusTransfer _ | .coprocessor | .unknown _ => false

/-- The accesses of an operation without host code are not made by host code. -/
theorem accessSupported_of_native?_eq_none {op : Operation}
    (h : native? helpers cond skip addr op = none) : accessSupported op = false := by
  cases op with
  | transfer t =>
      rw [native?, transfer?] at h
      simpa [accessSupported] using h
  | multiTransfer m =>
      rw [native?, multiTransfer?] at h
      simpa [accessSupported] using h
  | dataProcessing | branch | statusTransfer | coprocessor | unknown => rfl

/-- A native instruction that faults jumps to the fault exit; the fault is reported at the
address of the access, and no register was written that the instruction does not write. -/
theorem run?_native_of_error (hlinked : Linked helpers link) (hm : Loaded link saved cpu env m)
    (hskip : skip ≠ faultLabel) {op : Operation}
    (hnative : native? helpers cond skip addr op = some code) {j : Nat}
    {request : Bus.Request ω} {fault : Fault}
    (h : Bus.StopsAt ((⟨cond, op⟩ : Instruction).requests addr cpu) env.bus j request fault bus)
    {place : Word} {width : Bus.Width} (hplace : request.access? = some (place, width))
    (hrest : Item.label skip ∉ rest) :
    accessSupported op = true ∧
      ∃ m', InFrame link saved m' ∧ m'.cpu.EqOutside (.pc :: op.written) cpu ∧
        m'.env = env.faulted bus place fault ∧
        Code.run? link none (code ++ rest) m = Code.run? link (some faultLabel) rest m' := by
  have hplaced : ∀ l, Item.label l ∈ code → Item.label l ∉ rest := by
    intro l hl
    rw [(Local.native hnative).label l hl]
    exact hrest
  have hc : cond.passes cpu.cpsr = true := by
    cases hc : cond.passes cpu.cpsr with
    | true => rfl
    | false =>
        rw [Instruction.requests, hc] at h
        cases h.asked
  have htarget : some faultLabel ≠ some skip := fun heq => hskip (Option.some.inj heq).symm
  obtain ⟨flags, hleads⟩ := leads_conditional_of_passes hm.inFrame.pointed (hm.cpsr ▸ hc) skip
  have hn := hm.withFlags flags
  rw [Instruction.requests, if_pos hc] at h
  cases op with
  | transfer t =>
      obtain ⟨hsupported, rfl⟩ := supported_of_transfer? hnative
      obtain ⟨-, rfl, hrefused⟩ := Bus.stopsAt_singleton_iff.1 h
      cases (t.access?_request addr cpu).symm.trans hplace
      obtain ⟨m', calls, hframe, hcpu, henv, hbody⟩ := leads_transferBody_of_error hlinked hn
        hsupported (Transfer.execute_eq_error_iff.2 hrefused)
      have hcode := hleads (Linear.transferBody addr t).label htarget hbody
      exact ⟨hsupported, m', hframe, hcpu, henv, hcode.run?_append hplaced⟩
  | multiTransfer t =>
      obtain ⟨hsupported, rfl⟩ := supported_of_multiTransfer? hnative
      obtain ⟨m', calls, hframe, hcpu, henv, hbody⟩ := leads_multiTransferBody_of_error hlinked
        hn hsupported h hplace
      have hcode := hleads (Linear.multiTransferBody t).label htarget hbody
      exact ⟨hsupported, m', hframe, hcpu, henv, hcode.run?_append hplaced⟩
  | dataProcessing | branch | statusTransfer | coprocessor | unknown => cases h.asked

end Native

/-! ## Lowered instructions -/

/-- The address that a fault of a fetched instruction is reported at, in an access to
{lit}`place`: a helper for loads and stores knows the address of its access, the interpreter
is called with that of the instruction. -/
def Fetched.reported (f : Fetched) (place : Word) : Word :=
  if accessSupported (Instruction.decode f.word).op then place else f.addr

section Lowered

variable {helpers : Helpers} {link : Linkage (Environment ω)} {saved : Host.Reg → BitVec 64}
  {cpu cpu' : Cpu} {env : Environment ω} {m : Machine (Environment ω)} {skip : Label}
  {f : Fetched} {rest : Code} {outcome : Outcome} {bus : Bus ω}
  (hlinked : Linked helpers link) (hm : Loaded link saved cpu env m)
include hlinked hm

/-- An instruction that cannot move the program counter goes on with the state it
leads to loaded. -/
theorem run?_lower_next (hskip : Item.label skip ∉ rest)
    (hw : (Instruction.decode f.word).writesPc = false)
    (h : (Instruction.decode f.word).execute f.addr f.word cpu env.bus =
      .ok (outcome, cpu') bus) :
    ∃ m', Loaded link saved cpu' ((env.withBus bus).counted outcome) m' ∧
      Code.run? link none (lower helpers skip f ++ rest) m = Code.run? link none rest m' := by
  unfold lower
  dsimp only
  cases hnative : native? helpers (Instruction.decode f.word).cond skip f.addr
      (Instruction.decode f.word).op with
  | none =>
      rw [Option.getD_none, hw]
      exact run?_interpret_next_of_ok hlinked hm h rest
  | some code => exact run?_native_next hlinked hm hskip hw hnative h

/-- An instruction that can move the program counter returns with the state it
leads to. -/
theorem run?_lower_exit (hskip : Item.label skip ∉ rest)
    (hw : (Instruction.decode f.word).writesPc = true)
    (h : (Instruction.decode f.word).execute f.addr f.word cpu env.bus =
      .ok (outcome, cpu') bus) :
    ∃ m', Code.run? link none (lower helpers skip f ++ rest) m = some m' ∧
      Returned saved 0 cpu' ((env.withBus bus).counted outcome) m' := by
  unfold lower
  dsimp only
  cases hnative : native? helpers (Instruction.decode f.word).cond skip f.addr
      (Instruction.decode f.word).op with
  | none =>
      rw [Option.getD_none, hw]
      exact run?_interpret_exit_of_ok hlinked hm h rest
  | some code => exact run?_native_exit hm hskip ⟨f.word, rfl⟩ hw hnative h

/-- An instruction that faults jumps to the fault exit.  The fault is reported at the address
of the access if host code makes it, and else at the instruction; no register was written
that the instruction does not write. -/
theorem run?_lower_of_error (hskip : skip ≠ faultLabel) {j : Nat} {request : Bus.Request ω}
    {fault : Fault}
    (h : Bus.StopsAt ((Instruction.decode f.word).requests f.addr cpu) env.bus j request fault bus)
    {place : Word} {width : Bus.Width} (hplace : request.access? = some (place, width))
    (hrest : Item.label skip ∉ rest) :
    ∃ m', InFrame link saved m' ∧
      m'.cpu.EqOutside (.pc :: (Instruction.decode f.word).op.written) cpu ∧
      m'.env = env.faulted bus (f.reported place) fault ∧
      Code.run? link none (lower helpers skip f ++ rest) m =
        Code.run? link (some faultLabel) rest m' := by
  unfold lower Fetched.reported
  dsimp only
  cases hnative : native? helpers (Instruction.decode f.word).cond skip f.addr
      (Instruction.decode f.word).op with
  | none =>
      rw [Option.getD_none, accessSupported_of_native?_eq_none hnative]
      obtain ⟨m', hframe, hcpu, henv, hrun⟩ := run?_interpret_of_error hlinked hm
        (Instruction.execute_eq_error_iff_stopsAt.2 ⟨j, request, h⟩)
        (Instruction.decode f.word).writesPc rest
      exact ⟨m', hframe, hcpu.eqOutside _, henv, hrun⟩
  | some code =>
      obtain ⟨hsupported, hleads⟩ := run?_native_of_error hlinked hm hskip hnative h hplace hrest
      rw [hsupported]
      exact hleads

end Lowered

end ArmEmulator.Block
