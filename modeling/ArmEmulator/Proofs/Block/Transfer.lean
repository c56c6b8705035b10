import ArmEmulator.Proofs.Block.Calls
import ArmEmulator.Proofs.Block.Conditions

/-!
# Single transfers in a running block

The address computed by host code on the spilled guest is the address the
instruction accesses, so the helper makes the same access and faults where the
instruction does.

Main results:

- Theorems {lit}`leads_transferBody_of_ok` and {lit}`leads_transferBody_of_error`:
  a native single transfer does what the instruction does.
-/

namespace ArmEmulator.Block

open Host (Machine Linkage Instr Code Item Label Flags runInstrs?)

/-! ## Work on registers -/

section Registers

variable {ε : Type} {link : Linkage ε} {saved : Host.Reg → BitVec 64} {cpu : Cpu} {env : ε}
  {m m' m'' : Machine ε}

/-- Two machines differ at most in registers and host flags. -/
structure Agree (m m' : Machine ε) : Prop where
  stack : m'.stack = m.stack
  cpu : m'.cpu = m.cpu
  env : m'.env = m.env

theorem Agree.refl (m : Machine ε) : Agree m m := ⟨rfl, rfl, rfl⟩

theorem Agree.trans (h : Agree m m') (h' : Agree m' m'') : Agree m m'' :=
  ⟨h'.stack.trans h.stack, h'.cpu.trans h.cpu, h'.env.trans h.env⟩

/-- The guest stays stored while registers change. -/
theorem Stored.of_agree (hm : Stored link saved cpu env m) (h : Agree m m') :
    Stored link saved cpu env m' where
  cpu_eq := h.cpu ▸ hm.cpu_eq
  inFrame := by
    obtain ⟨scratch, padding, hstack⟩ := hm.inFrame
    exact ⟨scratch, padding, h.stack.trans hstack⟩
  env_eq := h.env.trans hm.env_eq

/-- A stored register is the one the instruction reads. -/
theorem Stored.load32?_stateReg (hm : Stored link saved cpu env m)
    (hrax : m.reg .rax = link.state) {r : Reg} (hr : r ≠ .pc) :
    m.load32? link (stateReg r) = some (cpu.reg r) := by
  rw [Block.load32?_stateReg link m hrax, hm.cpu_eq.reg r hr]

/-- Storing a register writes the guest register. -/
theorem Stored.withCpu_setReg (hm : Stored link saved cpu env m) (r : Reg) (value : Word) :
    Stored link saved (cpu.setReg r value) env (m.withCpu (m.cpu.setReg r value)) where
  cpu_eq := hm.cpu_eq.setReg r value
  inFrame := hm.inFrame
  env_eq := hm.env_eq

end Registers

/-! ## Addresses -/

section Addresses

variable {ε : Type} {link : Linkage ε} {saved : Host.Reg → BitVec 64} {cpu : Cpu} {env : ε}
  {m : Machine ε}

/-- The host operation that applies an offset. -/
theorem offsetOp_eval (add : Bool) (a b : Word) :
    ((if add then Host.Alu.add else Host.Alu.sub).eval a b).1 = if add then a + b else a - b := by
  cases add <;> rfl

theorem offsetOp_ne_cmp (add : Bool) : (if add then Host.Alu.add else Host.Alu.sub) ≠ .cmp := by
  cases add <;> decide

/-- The base is put into a register. -/
theorem step?_base (hm : Stored link saved cpu env m) (hrax : m.reg .rax = link.state)
    (addr : Word) (r : Reg) :
    (if r = .pc then Instr.movImm .rdx (addr + 8) else .load32 .rdx (stateReg r)).step? link m =
      some (m.put .rdx (cpu.readAt addr r)) := by
  by_cases hr : r = .pc
  · rw [if_pos hr, Instr.step?_movImm link m (by decide), Cpu.readAt, if_pos hr]
  · rw [if_neg hr, Instr.step?_load32 link m (by decide), hm.load32?_stateReg hrax hr, Cpu.readAt,
      if_neg hr]
    rfl

theorem apply_lsl_fst (value : Word) (amount : BitVec 5) (carry : Bool) :
    (Shift.lsl.apply value amount carry).1 = value <<< amount.toNat := by
  unfold Shift.apply
  by_cases h : amount.toNat = 0
  · rw [h]
    exact (BitVec.shiftLeft_zero value).symm
  · dsimp only
    rw [if_neg h]

/-- The offset register is shifted by its fixed amount. -/
theorem runInstrs?_shiftOffset (link : Linkage ε) (m : Machine ε) (value : Word)
    (amount : BitVec 5) :
    ∃ flags, runInstrs? link (if amount = 0 then [] else [.shlImm .rcx (amount.setWidth 8)])
        (m.put .rcx value) =
      some ((m.put .rcx (value <<< amount.toNat)).withFlags flags) := by
  by_cases h : amount = 0
  · refine ⟨m.flags, ?_⟩
    rw [if_pos h, h]
    show some (m.put .rcx value) = some (m.put .rcx (value <<< 0))
    rw [BitVec.shiftLeft_zero]
  · have hcount : Host.shiftCount (amount.setWidth 8) = amount.toNat := by
      have hlt := amount.isLt
      rw [Host.shiftCount, BitVec.toNat_setWidth]
      omega
    obtain ⟨flags, hflags⟩ : ∃ flags, flags =
      (Host.shiftLeft value amount.toNat (m.put .rcx value).flags).2 := ⟨_, rfl⟩
    refine ⟨flags, ?_⟩
    rw [if_neg h, Host.runInstrs?_cons, Instr.step?_shlImm link _ (by decide), Machine.low_put,
      if_pos rfl, hcount, ← hflags, Machine.put_withFlags, Machine.put_put]
    rfl

/-- The code that applies an offset to the base in {lit}`esi`. -/
def offsetCode (op : Host.Alu) : Offset → List Instr
  | .imm value => [.aluImm op .rsi (value.setWidth 32)]
  | .reg r =>
    .load32 .rcx (stateReg r.reg) ::
      (if r.amount = 0 then [] else [.shlImm .rcx (r.amount.setWidth 8)]) ++
      [.alu op .rsi .rcx]

theorem transferAddress_eq (addr : Word) (t : Transfer) :
    transferAddress addr t =
      (if t.rn = .pc then Instr.movImm .rdx (addr + 8) else .load32 .rdx (stateReg t.rn)) ::
        .mov .rsi .rdx :: offsetCode (if t.add then .add else .sub) t.offset := by
  unfold transferAddress
  cases t.offset <;> rfl

/-- Whether the offset of a native transfer is read from the spilled state. -/
theorem offset_of_transferSupported {t : Transfer} (h : transferSupported t = true)
    {r : ShiftedReg} (hr : t.offset = .reg r) : r.reg ≠ .pc ∧ r.shift = .lsl := by
  unfold transferSupported at h
  simpa [hr] using (Bool.and_eq_true_iff.1 h).2

/-- The offset is applied to the base in {lit}`esi`. -/
theorem runInstrs?_offsetCode (hm : Stored link saved cpu env m) (hrax : m.reg .rax = link.state)
    {op : Host.Alu} (hop : op ≠ .cmp) {t : Transfer} (hsupported : transferSupported t = true)
    (addr : Word) :
    ∃ m', runInstrs? link (offsetCode op t.offset) m = some m' ∧ Agree m m' ∧
      m'.reg .rax = link.state ∧ m'.low .rdx = m.low .rdx ∧
      m'.low .rsi = (op.eval (m.low .rsi) (t.offsetValue addr cpu)).1 := by
  unfold Transfer.offsetValue
  cases hoffset : t.offset with
  | imm value =>
      refine ⟨(m.withFlags (op.eval (m.low .rsi) (value.setWidth 32)).2).put .rsi
        (op.eval (m.low .rsi) (value.setWidth 32)).1, ?_, ⟨rfl, rfl, rfl⟩, ?_, ?_, ?_⟩
      · rw [offsetCode, Host.runInstrs?_cons, Instr.step?_aluImm link _ hop (by decide)]
        rfl
      · rw [Machine.reg_put, if_neg (by decide), Machine.reg_withFlags, hrax]
      · rw [Machine.low_put, if_neg (by decide), Machine.low_withFlags]
      · rw [Machine.low_put, if_pos rfl]
  | reg r =>
      obtain ⟨hpc, hshift⟩ := offset_of_transferSupported hsupported hoffset
      have hvalue : (r.apply (cpu.readAt addr r.reg) (cpu.flag .c)).1 =
          cpu.reg r.reg <<< r.amount.toNat := by
        rw [ShiftedReg.apply, hshift, apply_lsl_fst, Cpu.readAt_of_ne hpc]
      have hload : (Instr.load32 .rcx (stateReg r.reg)).step? link m =
          some (m.put .rcx (cpu.reg r.reg)) := by
        rw [Instr.step?_load32 link _ (by decide), hm.load32?_stateReg hrax hpc]
        rfl
      obtain ⟨flags, hshifted⟩ := runInstrs?_shiftOffset link m (cpu.reg r.reg)
        r.amount
      rw [offsetCode]
      dsimp only
      rw [hvalue]
      obtain ⟨value, hvalueEq⟩ : ∃ value, value = cpu.reg r.reg <<< r.amount.toNat := ⟨_, rfl⟩
      rw [← hvalueEq] at hshifted ⊢
      refine ⟨((m.put .rcx value).withFlags (op.eval (m.low .rsi) value).2).put .rsi
        (op.eval (m.low .rsi) value).1, ?_, ⟨rfl, rfl, rfl⟩, ?_, ?_, ?_⟩
      · rw [List.cons_append, Host.runInstrs?_cons, hload, Option.bind_some,
          Host.runInstrs?_append_of_eq_some link hshifted, Host.runInstrs?_cons,
          Instr.step?_alu link _ hop (by decide) (by decide), Machine.low_withFlags,
          Machine.low_withFlags, Machine.low_put, if_neg (by decide), Machine.low_put, if_pos rfl]
        rfl
      · rw [Machine.reg_put, if_neg (by decide), Machine.reg_withFlags, Machine.reg_put,
          if_neg (by decide), hrax]
      · rw [Machine.low_put, if_neg (by decide), Machine.low_withFlags, Machine.low_put,
          if_neg (by decide)]
      · rw [Machine.low_put, if_pos rfl]

/-- The code of an address leaves the base in {lit}`edx` and the base with the
offset applied in {lit}`esi`. -/
theorem runInstrs?_transferAddress (hm : Stored link saved cpu env m)
    (hrax : m.reg .rax = link.state) {t : Transfer} (hsupported : transferSupported t = true)
    (addr : Word) :
    ∃ m', runInstrs? link (transferAddress addr t) m = some m' ∧ Agree m m' ∧
      m'.reg .rax = link.state ∧ m'.low .rdx = cpu.readAt addr t.rn ∧
      m'.low .rsi = t.offsetAddress addr cpu := by
  obtain ⟨base, hbase⟩ : ∃ base, base = cpu.readAt addr t.rn := ⟨_, rfl⟩
  have hstart := step?_base hm hrax addr t.rn
  rw [← hbase] at hstart
  have hcopy : (Instr.mov .rsi .rdx).step? link (m.put .rdx base) =
      some ((m.put .rdx base).put .rsi base) := by
    rw [Instr.step?_mov link _ (by decide) (by decide), Machine.low_put, if_pos rfl]
  obtain ⟨start, hstartEq⟩ : ∃ start, start = (m.put .rdx base).put .rsi base := ⟨_, rfl⟩
  rw [← hstartEq] at hcopy
  have hagree : Agree m start := by
    rw [hstartEq]
    exact ⟨rfl, rfl, rfl⟩
  have hstartRax : start.reg .rax = link.state := by
    rw [hstartEq, Machine.reg_put, if_neg (by decide), Machine.reg_put, if_neg (by decide), hrax]
  have hrdx : start.low .rdx = base := by
    rw [hstartEq, Machine.low_put, if_neg (by decide), Machine.low_put, if_pos rfl]
  have hrsi : start.low .rsi = base := by
    rw [hstartEq, Machine.low_put, if_pos rfl]
  obtain ⟨m', hrun, hagree', hrax', hrdx', hrsi'⟩ := runInstrs?_offsetCode (hm.of_agree hagree)
    hstartRax (offsetOp_ne_cmp t.add) hsupported addr
  rw [hrdx] at hrdx'
  rw [hrsi, offsetOp_eval] at hrsi'
  refine ⟨m', ?_, hagree.trans hagree', hrax', hrdx'.trans hbase, ?_⟩
  · rw [transferAddress_eq, Host.runInstrs?_cons, hstart, Option.bind_some, Host.runInstrs?_cons,
      hcopy, Option.bind_some, hrun]
  · rw [hrsi', hbase]
    rfl

end Addresses

/-! ## Single transfers -/

section Single

variable {ω : Type} {helpers : Helpers} {link : Linkage (Environment ω)}
  {saved : Host.Reg → BitVec 64} {cpu cpu' : Cpu} {env : Environment ω}
  {m : Machine (Environment ω)} {t : Transfer} {bus : Bus ω}

/-- The code of a single transfer up to its helper call. -/
def accessCode (addr : Word) (t : Transfer) : List Instr :=
  spill ++ transferAddress addr t ++
    (if t.writesBack then [.store32 (stateReg t.rn) .rsi] else []) ++
    (if t.preIndex then [.mov .rdx .rsi] else []) ++
    [.movImm .rcx (accessWord t.rd t.byte)]

/-- The base is updated and the two words are ready before the helper is called. -/
theorem runInstrs?_accessCode (hm : Loaded link saved cpu env m)
    (hsupported : transferSupported t = true) (addr : Word) :
    ∃ ready, runInstrs? link (accessCode addr t) m = some ready ∧
      Stored link saved (t.writeBack addr cpu) env ready ∧
      ready.low .rdx = t.accessAddress addr cpu ∧ ready.low .rcx = accessWord t.rd t.byte := by
  obtain ⟨spilled, hspill, hstored, hrax⟩ := runInstrs?_spill link hm
  obtain ⟨address, haddress, hagree, hrax', hrdx, hrsi⟩ :=
    runInstrs?_transferAddress hstored hrax hsupported addr
  have hstored' := hstored.of_agree hagree
  obtain ⟨updated, hupdate, hupdated, hrdx', hrsi'⟩ : ∃ updated,
      runInstrs? link (if t.writesBack then [.store32 (stateReg t.rn) .rsi] else []) address =
        some updated ∧
      Stored link saved (t.writeBack addr cpu) env updated ∧
      updated.low .rdx = cpu.readAt addr t.rn ∧ updated.low .rsi = t.offsetAddress addr cpu := by
    unfold Transfer.writeBack
    cases t.writesBack with
    | false => exact ⟨address, rfl, hstored', hrdx, hrsi⟩
    | true =>
        refine ⟨address.withCpu (address.cpu.setReg t.rn (t.offsetAddress addr cpu)), ?_,
          hstored'.withCpu_setReg t.rn _, hrdx, hrsi⟩
        rw [if_pos rfl, Host.runInstrs?_cons, Instr.step?_store32 link _ (by decide),
          store32?_stateReg link address hrax', hrsi]
        rfl
  obtain ⟨chosen, hchoose, hchosen, hrdx''⟩ : ∃ chosen,
      runInstrs? link (if t.preIndex then [.mov .rdx .rsi] else []) updated = some chosen ∧
      Agree updated chosen ∧ chosen.low .rdx = t.accessAddress addr cpu := by
    unfold Transfer.accessAddress
    cases t.preIndex with
    | false => exact ⟨updated, rfl, .refl updated, hrdx'⟩
    | true =>
        refine ⟨updated.put .rdx (t.offsetAddress addr cpu), ?_, ⟨rfl, rfl, rfl⟩, ?_⟩
        · rw [if_pos rfl, Host.runInstrs?_cons, Instr.step?_mov link _ (by decide) (by decide),
            hrsi']
          rfl
        · rw [Machine.low_put, if_pos rfl, if_pos rfl]
  refine ⟨chosen.put .rcx (accessWord t.rd t.byte), ?_,
    (hupdated.of_agree hchosen).of_agree ⟨rfl, rfl, rfl⟩, ?_, ?_⟩
  · rw [accessCode, List.append_assoc, List.append_assoc, List.append_assoc,
      Host.runInstrs?_append_of_eq_some link hspill,
      Host.runInstrs?_append_of_eq_some link haddress,
      Host.runInstrs?_append_of_eq_some link hupdate,
      Host.runInstrs?_append_of_eq_some link hchoose, Host.runInstrs?_cons,
      Instr.step?_movImm link _ (by decide)]
    rfl
  · rw [Machine.low_put, if_neg (by decide), hrdx'']
  · rw [Machine.low_put, if_pos rfl]

theorem transferBody_eq (addr : Word) (t : Transfer) :
    transferBody helpers addr t =
      Code.ofInstrs (accessCode addr t) ++
        (callHelper (if t.load then helpers.load else helpers.store) ++ Code.ofInstrs reload) := by
  rw [transferBody, List.append_assoc]
  rfl

theorem isCall_accessCode (addr : Word) (t : Transfer) :
    ∀ i ∈ accessCode addr t, i.isCall = false := by
  have hspill : ∀ i ∈ spill, i.isCall = false := by decide
  have haddress : ∀ i ∈ transferAddress addr t, i.isCall = false := by
    rw [transferAddress_eq, offsetCode.eq_def]
    cases t.offset <;> simp only [List.mem_cons, List.mem_append, List.mem_ite_nil_left] <;>
      grind [Instr.isCall]
  intro i hi
  simp only [accessCode, List.mem_append, List.mem_ite_nil_right, List.mem_singleton] at hi
  rcases hi with (((hi | hi) | ⟨-, rfl⟩) | ⟨-, rfl⟩) | rfl
  · exact hspill i hi
  · exact haddress i hi
  · rfl
  · rfl
  · rfl

/-- A native transfer never has the program counter as its register. -/
theorem rd_ne_pc_of_transferSupported (h : transferSupported t = true) : t.rd ≠ .pc := by
  unfold transferSupported at h
  rintro hrd
  simp [hrd] at h

/-- A native store never updates the register it stores. -/
theorem reg_rd_writeBack (h : transferSupported t = true) (hload : t.load = false) (addr : Word)
    (cpu : Cpu) : (t.writeBack addr cpu).reg t.rd = cpu.readAt addr t.rd := by
  have hne : t.writesBack = true → t.rn ≠ t.rd := by
    rintro hwrites hrn
    unfold transferSupported at h
    simp [hload, hwrites, hrn] at h
  rw [Cpu.readAt_of_ne (rd_ne_pc_of_transferSupported h), Transfer.writeBack]
  split
  · rename_i hwrites
    exact Cpu.reg_setReg_of_ne _ (hne hwrites) _
  · rfl

/-- What the helper of a native transfer makes of the stored guest: the state
after the transfer up to the program counter. -/
theorem transferCall_of_stored {ready : Machine (Environment ω)}
    (hlinked : Linked helpers link) (hsupported : transferSupported t = true) {addr : Word}
    (hready : Stored link saved (t.writeBack addr cpu) env ready)
    (hrdx : ready.low .rdx = t.accessAddress addr cpu)
    (hrcx : ready.low .rcx = accessWord t.rd t.byte) :
    ∃ (α : Type) (function : BitVec 32 → BitVec 32 → Cpu → Environment ω →
        Host.Returned (Environment ω)) (access : Access (Bus ω) α)
      (finish : α → Environment ω → Cpu × Environment ω) (after : α → Cpu),
      link.function? (if t.load then helpers.load else helpers.store) = some function ∧
      function (ready.low .rdx) (ready.low .rcx) ready.cpu ready.env =
        guarded (t.accessAddress addr cpu) ready.cpu ready.env access finish ∧
      (∀ a env, (finish a env).1.EqOffPc (after a) ∧ (finish a env).2 = env) ∧
      (t.execute addr cpu : Access (Bus ω) Cpu) = access >>= fun a => pure (after a) := by
  have hrd := rd_ne_pc_of_transferSupported hsupported
  have hproceed : ∀ c : Cpu, c.EqOffPc (t.proceed addr c) := by
    intro c
    unfold Transfer.proceed
    split
    · exact .refl c
    · exact (Cpu.EqOffPc.setPc _ _).symm
  cases hload : t.load with
  | true =>
      refine ⟨Word, loadFunction, Bus.load t.byte (t.accessAddress addr cpu),
        fun value env => (ready.cpu.setReg t.rd value, env), t.afterLoad addr cpu,
        hlinked.load, ?_, fun value env => ⟨?_, rfl⟩, Transfer.execute_of_load hload addr cpu⟩
      · rw [hrdx, hrcx, loadFunction_accessWord]
      · rw [Transfer.afterLoad, if_neg hrd]
        exact (hready.cpu_eq.setReg t.rd value).trans (hproceed _)
  | false =>
      refine ⟨Unit, storeFunction,
        Bus.store t.byte (t.accessAddress addr cpu) (cpu.readAt addr t.rd),
        fun _ env => (ready.cpu, env), fun _ => t.afterStore addr cpu, hlinked.store, ?_,
        fun _ env => ⟨hready.cpu_eq.trans (hproceed _), rfl⟩,
        Transfer.execute_of_store hload addr cpu⟩
      rw [hrdx, hrcx, storeFunction_accessWord, hready.cpu_eq.reg _ hrd,
        reg_rd_writeBack hsupported hload]

/-- The access that the helper of a native transfer is called for is that of the
instruction. -/
theorem callRequest?_of_stored {ready : Machine (Environment ω)} (hlinked : Linked helpers link)
    (hsupported : transferSupported t = true) {addr : Word}
    (hready : Stored link saved (t.writeBack addr cpu) env ready)
    (hrdx : ready.low .rdx = t.accessAddress addr cpu)
    (hrcx : ready.low .rcx = accessWord t.rd t.byte) :
    callRequest? helpers ⟨if t.load then helpers.load else helpers.store, ready.low .rdx,
      ready.low .rcx, ready.cpu⟩ = some (t.request addr cpu : Bus.Request ω) := by
  unfold Transfer.request
  rw [hrdx, hrcx]
  cases hload : t.load with
  | true => exact callRequest?_load helpers _ t.rd t.byte ready.cpu
  | false =>
      rw [← reg_rd_writeBack hsupported hload,
        ← hready.cpu_eq.reg _ (rd_ne_pc_of_transferSupported hsupported)]
      exact callRequest?_store (hlinked.load_ne_store env.bus.devices) _ t.rd t.byte ready.cpu

section Bodies

variable (hlinked : Linked helpers link) (hm : Loaded link saved cpu env m)
  (hsupported : transferSupported t = true)
include hlinked hm hsupported

/-- The code of a native single transfer calls its helper for the access of the
instruction, and leads to the state after it. -/
theorem leads_transferBody_of_ok {addr : Word} (h : t.execute addr cpu env.bus = .ok cpu' bus) :
    ∃ m' call, Loaded link saved cpu' (env.withBus bus) m' ∧
      Code.Leads link none (transferBody helpers addr t) m [call] none m' ∧
      callRequest? helpers call = some (t.request addr cpu : Bus.Request ω) := by
  obtain ⟨ready, hrun, hready, hrdx, hrcx⟩ := runInstrs?_accessCode hm hsupported addr
  obtain ⟨α, function, access, finish, after, hfunction, hcall, hfinish, hexecute⟩ :=
    transferCall_of_stored hlinked hsupported hready hrdx hrcx
  rw [hexecute] at h
  obtain ⟨a, haccess, rfl⟩ := Access.bind_pure_eq_ok_iff.1 h
  rw [← hready.env_eq] at haccess
  obtain ⟨m', hstack, hfinished, hreturn⟩ := leads_callGuarded_of_ok hready.inFrame hfunction hcall
    haccess
  obtain ⟨scratch, padding, hframe⟩ := hready.inFrame
  obtain ⟨hcpu, henv⟩ := hfinish a (ready.env.withBus bus)
  rw [← hfinished] at hcpu henv
  have hstored : Stored link saved (after a) (env.withBus bus) m' :=
    ⟨hcpu, ⟨scratch, padding, hstack.trans hframe⟩, henv.trans (by rw [hready.env_eq])⟩
  obtain ⟨last, hreload, hloaded⟩ := runInstrs?_reload link hstored
  have hleads := (Code.Leads.ofInstrs hrun (isCall_accessCode addr t)).append
    (hreturn.append (.ofInstrs hreload (by decide)) (Linear.callHelper _).apart)
    (Linear.ofInstrs _).apart
  rw [← transferBody_eq] at hleads
  exact ⟨last, _, hloaded, hleads, callRequest?_of_stored hlinked hsupported hready hrdx hrcx⟩

/-- A native single transfer that faults jumps to the fault exit with at most its
base updated; the fault is reported at the address accessed. -/
theorem leads_transferBody_of_error {addr : Word} {fault : Fault}
    (h : t.execute addr cpu env.bus = .error fault bus) :
    ∃ m' calls, InFrame link saved m' ∧ m'.cpu.EqOutside (.pc :: t.written) cpu ∧
      m'.env = env.faulted bus (t.accessAddress addr cpu) fault ∧
      Code.Leads link none (transferBody helpers addr t) m calls (some faultLabel) m' := by
  obtain ⟨ready, hrun, hready, hrdx, hrcx⟩ := runInstrs?_accessCode hm hsupported addr
  obtain ⟨α, function, access, finish, after, hfunction, hcall, hfinish, hexecute⟩ :=
    transferCall_of_stored hlinked hsupported hready hrdx hrcx
  rw [hexecute] at h
  have haccess := Access.bind_pure_eq_error_iff.1 h
  rw [← hready.env_eq] at haccess
  obtain ⟨m', hstack, hcpu, henv, hreturn⟩ := leads_callGuarded_of_error hready.inFrame hfunction
    hcall haccess
  obtain ⟨scratch, padding, hframe⟩ := hready.inFrame
  have hwritten : ready.cpu.EqOutside (.pc :: t.written) cpu :=
    (hready.cpu_eq.eqOutside t.written).trans (t.eqOutside_writeBack addr cpu)
  have hleads := (Code.Leads.ofInstrs hrun (isCall_accessCode addr t)).append
    (hreturn.append (.passed (Code.label_notMem_ofInstrs _ reload) m') (Linear.callHelper _).apart)
    (Linear.ofInstrs _).apart
  rw [← transferBody_eq] at hleads
  exact ⟨m', _, ⟨scratch, padding, hstack.trans hframe⟩, hcpu ▸ hwritten,
    henv.trans (by rw [hready.env_eq]), hleads⟩

end Bodies

end Single

end ArmEmulator.Block
