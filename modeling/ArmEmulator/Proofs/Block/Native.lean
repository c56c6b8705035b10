import ArmEmulator.Device.Bench
import ArmEmulator.Proofs.Block.Convention
import ArmEmulator.Proofs.Bus.Registration

/-!
# Native code against the interpreter

What the code of one native instruction does, on its own, is what the interpreter does
with the instruction: it ends with the same guest, and it asks the same of the bus in
the same order.  Only a branch returns; the other instructions lead on to whatever code
lies behind.

Main results:

- Theorem {lit}`nativeDataProcessing_refines`: data processing works on the homes of the
  registers and on the current status alone.
- Theorems {lit}`nativeTransfer_refines` and {lit}`nativeMultiTransfer_refines`: transfers
  make the accesses of the interpreter.
- Theorem {lit}`nativeBranch_refines`: branches return with the guest where the
  interpreter puts it, but for the register branch that links, which no word encodes.
-/

namespace ArmEmulator.Block

open Host (Machine Linkage Code Item Label)

variable {ω : Type} {ε : Type}

/-! ## A machine that holds a guest -/

/-- The machine inside a block that holds a guest state, with zeros in the registers that
the block has saved. -/
def holding (link : Linkage ε) (cpu : Cpu) (env : ε) : Machine ε :=
  homes.foldl (fun m p => m.put p.2 (cpu.reg p.1))
    { regs := Vector.replicate 16 0
      flags := ⟨false, false, false, false⟩
      stack := frame link (fun _ => 0) none none
      cpu
      env }

theorem loaded_holding (link : Linkage ε) (cpu : Cpu) (env : ε) :
    Loaded link (fun _ => 0) cpu env (holding link cpu env) := by
  unfold holding
  obtain ⟨start, hstart⟩ : ∃ start : Machine ε, start =
    ⟨Vector.replicate 16 0, ⟨false, false, false, false⟩, frame link (fun _ => 0) none none, cpu,
      env⟩ := ⟨_, rfl⟩
  rw [← hstart]
  -- No two registers share a home, so each home keeps what is written to it.
  have hhome : ∀ p ∈ homes, home? p.1 = some p.2 := by decide
  obtain ⟨regs, hregs⟩ := foldl_put_eq homes cpu.reg start
  have hhomes : InHomes cpu (homes.foldl (fun m p => m.put p.2 (cpu.reg p.1)) start) := by
    intro r h hr
    refine reg_foldl_put (fun p hp hh => ?_) start (.inl ?_)
    · rw [home?_injective (hhome p hp) (hh ▸ hr)]
    · cases r <;> cases hr <;> decide
  refine ⟨hhomes, ?_, ?_, ⟨none, none, ?_⟩, ?_⟩ <;> rw [hregs, hstart]

/-- The three helpers have different addresses. -/
theorem linked_threeHelpers :
    Linked threeHelpers (linkage threeHelpers : Linkage (Environment ω)) :=
  linked_linkage (by decide) (by decide) (by decide)

/-- A bus with a window of memory and a probe behind it. -/
def probedBus : Bus Bench :=
  (Bus.ofRam (.zeroed 0 0x100) .empty).register ⟨"uart", ⟨0x100, 0x1ff⟩, 0, .probe "uart" 0⟩

theorem not_panics_probedBus (fault : Fault) (devices : Bench) :
    ¬ probedBus.mmio.Panics fault devices := by
  refine Dispatcher.not_panics_of_succeeds (fun addr region hfind => ?_) fault devices
  have hmem := ((Dispatcher.registers_empty.register _).chosen hfind).mem
  rw [List.nil_append, List.mem_singleton] at hmem
  subst hmem
  exact Handler.probe_succeeds "uart" 0

/-! ## Data processing -/

/-- Native data processing, on any machine that has the registers in their homes and the
pointer to the processor state on top of its stack: the code runs to its end, the homes and
the current status become what the interpreter makes of them, and nothing else changes but
the host flags.  An instruction without native code is a call of the interpreter and nothing
else. -/
theorem nativeDataProcessing_refines (helpers : Helpers) {link : Linkage ε} {cpu : Cpu}
    {m : Machine ε} (hhomes : InHomes cpu m) (hcpsr : m.cpu.cpsr = cpu.cpsr)
    (hpointed : Pointed link m) (cond : Cond) (skip : Label) (addr word : Word)
    (d : DataProcessing) (bus : Bus ω) :
    (∀ code, dataProcessing? cond skip addr d = some code →
      ∃ after m', (⟨cond, .dataProcessing d⟩ : Instruction).execute addr word cpu bus =
          .ok (if cond.passes cpu.cpsr then .executed else .skipped, after) bus ∧
        after.spsr = cpu.spsr ∧ code.through? link none m = some (none, m') ∧
        m'.stack = m.stack ∧ m'.env = m.env ∧ InHomes after m' ∧
        m'.cpu = m.cpu.withCpsr after.cpsr) ∧
      ∀ f : Fetched, Instruction.decode f.word = ⟨cond, .dataProcessing d⟩ →
        dataProcessing? cond skip f.addr d = none →
        lower helpers skip f =
          interpret helpers f.addr f.word (Instruction.decode f.word).writesPc := by
  constructor
  · intro code hnative
    obtain ⟨after, m', calls, hexecute, hspsr, hupdated, hleads⟩ := leads_dataProcessing hhomes
      hcpsr hpointed hnative word bus
    exact ⟨after, m', hexecute, hspsr, hleads.through, hupdated.stack_eq, hupdated.env_eq,
      hupdated.homes, hupdated.cpu_eq⟩
  · intro f hdecode hnone
    have hnative : native? helpers cond skip f.addr (.dataProcessing d) = none := hnone
    unfold lower
    dsimp only
    rw [hdecode, hnative]
    rfl

/-- A subtraction from another register of the one that takes the difference, and an addition
of a shifted register, which has no native code. -/
theorem nativeDataProcessing_refines_sub :
    let d : DataProcessing := ⟨.sub, true, .r0, .r1, .reg ⟨.r1, .lsl, 0⟩⟩
    let shifted : DataProcessing := ⟨.add, false, .r0, .r1, .reg ⟨.r2, .lsl, 2⟩⟩
    let cpu := (Cpu.initial.setReg .r0 5).setReg .r1 7
    let m := holding failingLoads cpu ()
    let bus := Bus.ofRam (.zeroed 0 0) ()
    (InHomes cpu m ∧ m.cpu.cpsr = cpu.cpsr ∧ Pointed failingLoads m) ∧
      (∃ code after m', dataProcessing? .ne 1 0x8000 d = some code ∧
        (⟨.ne, .dataProcessing d⟩ : Instruction).execute 0x8000 0x10501001 cpu bus =
          .ok (.executed, after) bus ∧
        after.spsr = cpu.spsr ∧ code.through? failingLoads none m = some (none, m') ∧
        m'.stack = m.stack ∧ m'.env = m.env ∧ InHomes after m' ∧
        m'.cpu = m.cpu.withCpsr after.cpsr) ∧
      dataProcessing? .al 1 0x8000 shifted = none ∧
        lower threeHelpers 1 ⟨0x8000, 0xe0801102⟩ =
          interpret threeHelpers 0x8000 0xe0801102 false := by
  intro d shifted cpu m bus
  have hm := loaded_holding failingLoads cpu ()
  obtain ⟨code, hcode⟩ : ∃ code, dataProcessing? .ne 1 0x8000 d = some code :=
    Option.isSome_iff_exists.1 (by decide)
  obtain ⟨after, m', hexecute, hends⟩ := (nativeDataProcessing_refines threeHelpers hm.homes hm.cpsr
    hm.inFrame.pointed .ne 1 0x8000 0x10501001 d bus).1 code hcode
  have hpasses : Cond.passes .ne cpu.cpsr = true := by decide
  rw [if_pos hpasses] at hexecute
  have hnone : dataProcessing? .al 1 0x8000 shifted = none := by decide
  have hdecode : Instruction.decode 0xe0801102 = ⟨.al, .dataProcessing shifted⟩ := by decide
  have hlower := (nativeDataProcessing_refines threeHelpers hm.homes hm.cpsr hm.inFrame.pointed .al
    1 0x8000 0xe0801102 shifted bus).2 ⟨0x8000, 0xe0801102⟩ hdecode hnone
  rw [hdecode] at hlower
  exact ⟨⟨hm.homes, hm.cpsr, hm.inFrame.pointed⟩, ⟨code, after, m', hcode, hexecute, hends⟩,
    hnone, hlower⟩

/-! ## Transfers -/

section Transfers

variable {helpers : Helpers} {link : Linkage (Environment ω)} {saved : Host.Reg → BitVec 64}
  {cpu : Cpu} {env : Environment ω} {m : Machine (Environment ω)} {skip : Label}
  {cond : Cond} {addr : Word} {code : Code}

/-- Code follows an instruction from a machine that holds a guest: the interpreter makes the
given accesses and no others, the code makes the same by its calls, and they end with the same
guest and the same bus. -/
structure Follows (helpers : Helpers) (link : Linkage (Environment ω))
    (saved : Host.Reg → BitVec 64) (i : Instruction) (addr word : Word) (cpu : Cpu)
    (env : Environment ω) (code : Code) (m : Machine (Environment ω))
    (requests : List (Bus.Request ω)) : Prop where
  interpreted : ∃ finish : List Word → Outcome × Cpu,
    i.execute addr word cpu =
      requests.mapM Bus.Request.perform >>= fun answers => pure (finish answers)
  called : (code.calls link none m).map (callRequest? helpers) = requests.map some
  served : ∀ c ∈ code.calls link none m, ∃ request,
    callRequest? helpers c = some request ∧ Serving link c request
  ends : ∃ outcome after bus m', i.execute addr word cpu env.bus = .ok (outcome, after) bus ∧
    code.through? link none m = some (none, m') ∧ Loaded link saved after (env.withBus bus) m'

theorem follows_of_leads (hlinked : Linked helpers link) {i : Instruction} {word : Word}
    {outcome : Outcome} {after : Cpu} {bus : Bus ω}
    (hexecute : i.execute addr word cpu env.bus = .ok (outcome, after) bus)
    {m' : Machine (Environment ω)} {calls : List Host.Call}
    (hloaded : Loaded link saved after (env.withBus bus) m')
    (hleads : Code.Leads link none code m calls none m')
    (hcalls : calls.map (callRequest? helpers) =
      (i.requests addr cpu : List (Bus.Request ω)).map some) :
    Follows helpers link saved i addr word cpu env code m (i.requests addr cpu) where
  interpreted := i.exists_execute_eq_mapM addr word cpu
  called := by rw [hleads.calls_eq, hcalls]
  served c hc := by
    rw [hleads.calls_eq] at hc
    have hmem : (callRequest? helpers c : Option (Bus.Request ω)) ∈
        calls.map (callRequest? helpers) := List.mem_map_of_mem hc
    rw [hcalls, List.mem_map] at hmem
    obtain ⟨request, -, hrequest⟩ := hmem
    exact ⟨request, hrequest.symm, hlinked.serving hrequest.symm⟩
  ends := ⟨outcome, after, bus, m', hexecute, hleads.through, hloaded⟩

/-- A native single transfer makes the one access of the interpreter, or none if its condition
fails, and ends with the same guest, memory and devices. -/
theorem nativeTransfer_refines (hlinked : Linked helpers link) (hm : Loaded link saved cpu env m)
    (hquiet : ∀ fault devices, ¬ env.bus.mmio.Panics fault devices) {t : Transfer}
    (hnative : transfer? helpers cond skip addr t = some code) (word : Word) :
    Follows helpers link saved ⟨cond, .transfer t⟩ addr word cpu env code m
      (if cond.passes cpu.cpsr then [t.request addr cpu] else []) := by
  obtain ⟨outcome, after, bus, hexecute⟩ := Instruction.exists_execute_eq_ok hquiet
    ⟨cond, .transfer t⟩ addr word cpu
  obtain ⟨m', calls, hloaded, hleads, hcalls⟩ := leads_transfer hlinked hm hnative hexecute
  exact follows_of_leads hlinked hexecute hloaded hleads hcalls

/-- A load into the register that is its updated base, from a device. -/
theorem nativeTransfer_refines_ldr :
    let t : Transfer := ⟨true, false, true, true, true, .r1, .r1, .reg ⟨.r2, .lsl, 2⟩⟩
    let cpu := (Cpu.initial.setReg .r1 0x100).setReg .r2 1
    let link := linkage threeHelpers
    let m := holding link cpu (.ofBus probedBus)
    (Linked threeHelpers link ∧ Loaded link (fun _ => 0) cpu (.ofBus probedBus) m ∧
      ∀ fault devices, ¬ probedBus.mmio.Panics fault devices) ∧
      ∃ code, transfer? threeHelpers .al 1 0x8000 t = some code ∧
        Follows threeHelpers link (fun _ => 0) ⟨.al, .transfer t⟩ 0x8000 0xe7b11102 cpu
          (.ofBus probedBus) code m [.read .word 0x104] := by
  intro t cpu link m
  have hm := loaded_holding link cpu (.ofBus probedBus)
  obtain ⟨code, hcode⟩ : ∃ code, transfer? threeHelpers .al 1 0x8000 t = some code :=
    Option.isSome_iff_exists.1 (by decide)
  refine ⟨⟨linked_threeHelpers, hm, not_panics_probedBus⟩, code, hcode, ?_⟩
  exact nativeTransfer_refines linked_threeHelpers hm not_panics_probedBus hcode 0xe7b11102

/-- A native multiple transfer makes the accesses of the interpreter in their order, or none if
its condition fails, and ends with the same guest, memory and devices. -/
theorem nativeMultiTransfer_refines (hlinked : Linked helpers link)
    (hm : Loaded link saved cpu env m)
    (hquiet : ∀ fault devices, ¬ env.bus.mmio.Panics fault devices) {t : MultiTransfer}
    (hnative : multiTransfer? helpers cond skip t = some code) (addr word : Word) :
    Follows helpers link saved ⟨cond, .multiTransfer t⟩ addr word cpu env code m
      (if cond.passes cpu.cpsr then t.requests addr cpu else []) := by
  obtain ⟨outcome, after, bus, hexecute⟩ := Instruction.exists_execute_eq_ok hquiet
    ⟨cond, .multiTransfer t⟩ addr word cpu
  obtain ⟨m', calls, hloaded, hleads, hcalls⟩ := leads_multiTransfer hlinked hm hnative hexecute
  exact follows_of_leads hlinked hexecute hloaded hleads hcalls

/-- A load of two registers, one of them the updated base, from the last word of the address
space and the first one. -/
theorem nativeMultiTransfer_refines_ldm :
    let t : MultiTransfer := ⟨true, false, true, true, false, .r0, 0b11⟩
    let cpu := Cpu.initial.setReg .r0 0xfffffffc
    let link := linkage threeHelpers
    let m := holding link cpu (.ofBus probedBus)
    (Linked threeHelpers link ∧ Loaded link (fun _ => 0) cpu (.ofBus probedBus) m ∧
      ∀ fault devices, ¬ probedBus.mmio.Panics fault devices) ∧
      ∃ code, multiTransfer? threeHelpers .al 1 t = some code ∧
        Follows threeHelpers link (fun _ => 0) ⟨.al, .multiTransfer t⟩ 0x8000 0xe8b00003 cpu
          (.ofBus probedBus) code m [.read .word 0xfffffffc, .read .word 0] := by
  intro t cpu link m
  have hm := loaded_holding link cpu (.ofBus probedBus)
  obtain ⟨code, hcode⟩ : ∃ code, multiTransfer? threeHelpers .al 1 t = some code :=
    Option.isSome_iff_exists.1 (by decide)
  have hrequests : (t.requests 0x8000 cpu : List (Bus.Request Bench)) =
      [.read .word 0xfffffffc, .read .word 0] := by
    have hlist : t.list.toList = [.r0, .r1] := by decide
    have hstart : t.startAddress (cpu.readAt 0x8000 t.rn) = 0xfffffffc := by decide
    unfold MultiTransfer.requests
    rw [hlist, hstart]
    rfl
  refine ⟨⟨linked_threeHelpers, hm, not_panics_probedBus⟩, code, hcode, ?_⟩
  rw [← hrequests]
  exact nativeMultiTransfer_refines linked_threeHelpers hm not_panics_probedBus hcode 0x8000
    0xe8b00003

end Transfers

/-! ## Branches -/

/-- A native branch returns 0 with the guest where the interpreter puts it: at the destination,
with the link register written if the branch links, or on the next word with nothing else
changed if its condition fails.  Left out is a register branch that links, which no word
encodes, see {lit}`link_of_decode`. -/
theorem nativeBranch_refines {link : Linkage ε} {saved : Host.Reg → BitVec 64} {cpu : Cpu}
    {env : ε} {m : Machine ε} (hm : Loaded link saved cpu env m) {cond : Cond} {skip : Label}
    {addr : Word} {b : Branch} (hlink : ∀ r, b.target = .reg r → b.link = false) {code : Code}
    (hnative : branch? cond skip addr b = some code) {rest : Code}
    (hrest : Item.label skip ∉ rest) (word : Word) (bus : Bus ω) :
    ∃ outcome after m',
      (⟨cond, .branch b⟩ : Instruction).execute addr word cpu bus = .ok (outcome, after) bus ∧
      after = (if cond.passes cpu.cpsr then
        (if b.link then cpu.setReg .lr (addr + 4) else cpu).setPc (b.destination addr cpu)
        else cpu.setPc (addr + 4)) ∧
      Code.run? link none (code ++ rest) m = some m' ∧ Returned saved 0 after env m' := by
  cases hc : cond.passes cpu.cpsr with
  | true =>
      obtain ⟨m', hrun, hreturned⟩ := run?_branch_of_passes hm hlink hc hnative rest
      refine ⟨(b.execute addr cpu).1, (b.execute addr cpu).2, m', ?_, rfl, hrun, hreturned⟩
      unfold Instruction.execute
      rw [if_pos hc]
      rfl
  | false =>
      obtain ⟨m', hrun, hreturned⟩ := run?_branch_of_fails hm hc hnative hrest
      exact ⟨.skipped, cpu.advance addr, m', Instruction.execute_of_fails hc addr word bus, rfl, hrun,
        hreturned⟩

/-- A linking branch on the last word of the address space, in front of the exit after a
failed helper. -/
theorem nativeBranch_refines_bl :
    let b : Branch := ⟨true, .offset 8⟩
    let cpu := Cpu.initial
    let m := holding failingLoads cpu ()
    let bus := Bus.ofRam (.zeroed 0 0) ()
    (Loaded failingLoads (fun _ => 0) cpu () m ∧ (∀ r, b.target = .reg r → b.link = false) ∧
      Item.label 1 ∉ faultExit) ∧
      ∃ code outcome after m', branch? .ne 1 0xfffffffc b = some code ∧
        (⟨.ne, .branch b⟩ : Instruction).execute 0xfffffffc 0x1b000002 cpu bus =
          .ok (outcome, after) bus ∧
        after = (cpu.setReg .lr 0).setPc 0xc ∧
        Code.run? failingLoads none (code ++ faultExit) m = some m' ∧
        Returned (fun _ => 0) 0 after () m' := by
  intro b cpu m bus
  have hm := loaded_holding failingLoads cpu ()
  have hlink : ∀ r, b.target = .reg r → b.link = false := nofun
  have hrest : Item.label 1 ∉ faultExit := by decide
  obtain ⟨code, hcode⟩ : ∃ code, branch? .ne 1 0xfffffffc b = some code := ⟨_, rfl⟩
  obtain ⟨outcome, after, m', hexecute, hafter, hends⟩ := nativeBranch_refines hm hlink hcode hrest
    0x1b000002 bus
  have hpasses : Cond.passes .ne cpu.cpsr = true := by decide
  rw [if_pos hpasses] at hafter
  exact ⟨⟨hm, hlink, hrest⟩, code, outcome, after, m', hcode, hexecute, hafter, hends⟩

/-- Native code does not link a register branch. -/
theorem branch?_reg (cond : Cond) (skip : Label) (addr : Word) (linked : Bool) (r : Reg) :
    branch? cond skip addr ⟨linked, .reg r⟩ = branch? cond skip addr ⟨false, .reg r⟩ := by
  cases r <;> rfl

/-- A taken register branch returns with nothing but the program counter changed, even if it
links. -/
theorem run?_branch_of_reg {link : Linkage ε} {saved : Host.Reg → BitVec 64} {cpu : Cpu}
    {env : ε} {m : Machine ε} (hm : Loaded link saved cpu env m) {cond : Cond}
    (hcond : cond.passes cpu.cpsr = true) {skip : Label} {addr : Word} {linked : Bool} {r : Reg}
    {code : Code} (hnative : branch? cond skip addr ⟨linked, .reg r⟩ = some code) (rest : Code) :
    ∃ m', Code.run? link none (code ++ rest) m = some m' ∧
      Returned saved 0 (cpu.setPc (Branch.destination ⟨linked, .reg r⟩ addr cpu)) env m' := by
  rw [branch?_reg] at hnative
  exact run?_branch_of_passes hm (fun _ _ => rfl) hcond hnative rest

/-- A register branch that links has native code, which leaves the link register as it is, where
the interpreter writes it. -/
theorem nativeBranch_leaves_link :
    let b : Branch := ⟨true, .reg .r0⟩
    let cpu := Cpu.initial.setReg .r0 0x40
    let m := holding failingLoads cpu ()
    let bus := Bus.ofRam (.zeroed 0 0) ()
    Loaded failingLoads (fun _ => 0) cpu () m ∧
      ∃ code after m', branch? .al 1 0x8000 b = some code ∧
        (⟨.al, .branch b⟩ : Instruction).execute 0x8000 0xe12fff30 cpu bus =
          .ok (.executed, after) bus ∧
        after = (cpu.setReg .lr 0x8004).setPc 0x40 ∧
        Code.run? failingLoads none code m = some m' ∧
        Returned (fun _ => 0) 0 (cpu.setPc 0x40) () m' ∧ m'.cpu ≠ after := by
  intro b cpu m bus
  have hm := loaded_holding failingLoads cpu ()
  have hpasses : Cond.passes .al cpu.cpsr = true := by decide
  have htarget : b.destination 0x8000 cpu = 0x40 := by decide
  obtain ⟨code, hcode⟩ : ∃ code, branch? .al 1 0x8000 b = some code := ⟨_, rfl⟩
  obtain ⟨m', hrun, hreturned⟩ := run?_branch_of_reg hm hpasses hcode []
  rw [List.append_nil] at hrun
  rw [htarget] at hreturned
  have hlinked : b.execute 0x8000 cpu = (.executed, (cpu.setReg .lr 0x8004).setPc 0x40) := by
    unfold Branch.execute
    rw [htarget]
    rfl
  have hexecute : (⟨.al, .branch b⟩ : Instruction).execute 0x8000 0xe12fff30 cpu bus =
      .ok (b.execute 0x8000 cpu) bus := by
    unfold Instruction.execute
    rw [if_pos hpasses]
    rfl
  refine ⟨hm, code, _, m', hcode, hlinked ▸ hexecute, rfl, hrun, hreturned, ?_⟩
  rw [hreturned.cpu_eq]
  decide

end ArmEmulator.Block
