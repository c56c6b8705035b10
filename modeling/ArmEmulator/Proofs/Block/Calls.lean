import ArmEmulator.Block.Execution
import ArmEmulator.Proofs.Block.Frame
import ArmEmulator.Proofs.Block.Labels
import ArmEmulator.Proofs.Guest.Requests

/-!
# Helper calls of a running block

A helper runs an access on the bus of the environment.  If the access succeeds
the block goes on with what the helper made of it; if it faults the environment
keeps the fault and the block jumps to its fault exit.

Main results:

- Theorems {lit}`leads_callGuarded_of_ok` and {lit}`leads_callGuarded_of_error`:
  the outcome of a helper call is that of its access.
- Theorems {lit}`run?_interpret_next_of_ok` and {lit}`run?_interpret_of_error`:
  code that goes through the interpreter does what the interpreter does.
-/

namespace ArmEmulator.Block

open Host (Machine Linkage Instr Code Item Label Flags runInstrs?)

variable {ω : Type}

/-! ## Functions at the helper addresses -/

/-- The three helpers are found at their addresses. -/
structure Linked (helpers : Helpers) (link : Linkage (Environment ω)) : Prop where
  interpret : link.function? helpers.interpret = some interpretFunction
  load : link.function? helpers.load = some loadFunction
  store : link.function? helpers.store = some storeFunction

/-- Helpers at different addresses are found. -/
theorem linked_linkage {helpers : Helpers} (hload : helpers.load ≠ helpers.interpret)
    (hstore : helpers.store ≠ helpers.interpret) (hne : helpers.store ≠ helpers.load) :
    Linked (ω := ω) helpers (linkage helpers) where
  interpret := if_pos rfl
  load := (if_neg hload).trans (if_pos rfl)
  store := (if_neg hstore).trans ((if_neg hne).trans (if_pos rfl))

/-- The addresses of three functions. -/
def threeHelpers : Helpers where
  interpret := 0x100
  load := 0x200
  store := 0x300

/-- A program with these three, in which blocks are made for fixed inputs. -/
@[reducible]
def threeTable : HelperTable where
  toHelpers := threeHelpers
  load_ne_interpret := by decide
  store_ne_interpret := by decide
  store_ne_load := by decide

@[simp]
theorem accessReg_accessWord (r : Reg) (byte : Bool) : accessReg (accessWord r byte) = r := by
  cases r <;> cases byte <;> rfl

@[simp]
theorem accessByte_accessWord (r : Reg) (byte : Bool) : accessByte (accessWord r byte) = byte := by
  cases r <;> cases byte <;> rfl

theorem loadFunction_accessWord (addr : Word) (r : Reg) (byte : Bool) (cpu : Cpu)
    (env : Environment ω) :
    loadFunction addr (accessWord r byte) cpu env =
      guarded addr cpu env (Bus.load byte addr) fun value env => (cpu.setReg r value, env) := by
  unfold loadFunction Bus.load
  rw [accessReg_accessWord, accessByte_accessWord]

theorem storeFunction_accessWord (addr : Word) (r : Reg) (byte : Bool) (cpu : Cpu)
    (env : Environment ω) :
    storeFunction addr (accessWord r byte) cpu env =
      guarded addr cpu env (Bus.store byte addr (cpu.reg r)) fun _ env => (cpu, env) := by
  unfold storeFunction Bus.store
  rw [accessReg_accessWord, accessByte_accessWord]

/-- The functions at the addresses of the loads and stores differ, so the addresses do. -/
theorem Linked.load_ne_store {helpers : Helpers} {link : Linkage (Environment ω)}
    (h : Linked helpers link) (devices : ω) : helpers.load ≠ helpers.store := by
  intro heq
  have hfunction : some (loadFunction (ω := ω)) = some storeFunction := by
    rw [← h.load, ← h.store, heq]
  -- a load of an address that nothing answers clears the register, a store keeps it
  have hreg := congrArg
    (fun function => (function 0 0 (Cpu.initial.setReg .r0 1)
      (.ofBus (.ofRam (.zeroed 0 0) devices))).cpu.reg .r0) (Option.some.inj hfunction)
  exact absurd hreg (show (0#32 : Word) ≠ 1#32 by decide)

/-- The access that a call of a helper stands for; none for other calls. -/
def callRequest? (helpers : Helpers) (c : Host.Call) : Option (Bus.Request ω) :=
  let width : Bus.Width := if accessByte c.second then .byte else .word
  if c.target = helpers.load then some (.read width c.first)
  else if c.target = helpers.store then
    some (.write width c.first (c.cpu.reg (accessReg c.second)))
  else none

theorem callRequest?_load (helpers : Helpers) (place : Word) (r : Reg) (byte : Bool) (cpu : Cpu) :
    callRequest? helpers ⟨helpers.load, place, accessWord r byte, cpu⟩ =
      some (.read (if byte then .byte else .word) place : Bus.Request ω) := by
  unfold callRequest?
  dsimp only
  rw [if_pos rfl, accessByte_accessWord]

theorem callRequest?_store {helpers : Helpers} (h : helpers.load ≠ helpers.store) (place : Word)
    (r : Reg) (byte : Bool) (cpu : Cpu) :
    callRequest? helpers ⟨helpers.store, place, accessWord r byte, cpu⟩ =
      some (.write (if byte then .byte else .word) place (cpu.reg r) : Bus.Request ω) := by
  unfold callRequest?
  dsimp only
  rw [if_neg h.symm, if_pos rfl, accessByte_accessWord, accessReg_accessWord]

/-- The function that a call finds serves a request on the bus, works the answer into the
processor state, and leaves the rest of the environment alone. -/
def Serving (link : Linkage (Environment ω)) (c : Host.Call) (request : Bus.Request ω) : Prop :=
  ∃ (function : _) (finish : Word → Cpu), link.function? c.target = some function ∧
    ∀ env, function c.first c.second c.cpu env =
      guarded c.first c.cpu env request.perform fun answer env => (finish answer, env)

/-- A guarded access whose answer is not looked at may have any answer. -/
theorem guarded_bind_pure {α β : Type} (addr : Word) (cpu : Cpu) (env : Environment ω)
    (access : Access (Bus ω) α) (b : β) (finish : Environment ω → Cpu × Environment ω) :
    guarded addr cpu env (access >>= fun _ => pure b) (fun _ => finish) =
      guarded addr cpu env access fun _ => finish := by
  unfold guarded
  cases h : access env.bus with
  | ok a bus =>
      rw [Access.bind_of_eq_ok h]
      rfl
  | error fault bus => rw [Access.bind_of_eq_error h]

/-- A call of a helper serves the access it stands for. -/
theorem Linked.serving {helpers : Helpers} {link : Linkage (Environment ω)}
    (h : Linked helpers link) {c : Host.Call} {request : Bus.Request ω}
    (hc : callRequest? helpers c = some request) : Serving link c request := by
  unfold callRequest? at hc
  dsimp only at hc
  split at hc
  · rename_i htarget
    cases hc
    refine ⟨loadFunction, c.cpu.setReg (accessReg c.second), htarget ▸ h.load, fun env => ?_⟩
    unfold loadFunction
    cases accessByte c.second with
    | false => rfl
    | true => rfl
  · split at hc
    · rename_i htarget
      cases hc
      refine ⟨storeFunction, fun _ => c.cpu, htarget ▸ h.store, fun env => ?_⟩
      unfold storeFunction
      dsimp only
      cases accessByte c.second with
      | false =>
          rw [if_neg Bool.false_ne_true, if_neg Bool.false_ne_true]
          exact (guarded_bind_pure ..).symm
      | true =>
          rw [if_pos rfl, if_pos rfl]
          exact (guarded_bind_pure ..).symm
    · cases hc

/-! ## Calls -/

/-- Replaces the bus. -/
def Environment.withBus (env : Environment ω) (bus : Bus ω) : Environment ω :=
  { env with bus }

/-- The environment after a fault that is reported at an address. -/
def Environment.faulted (env : Environment ω) (bus : Bus ω) (addr : Word) (fault : Fault) :
    Environment ω :=
  { env with bus, fault? := some (addr, fault) }

section Calls

variable {link : Linkage (Environment ω)} {saved : Host.Reg → BitVec 64}
  {m : Machine (Environment ω)} {scratch padding : Option (BitVec 32)} {target : BitVec 64}
  {function : BitVec 32 → BitVec 32 → Cpu → Environment ω → Host.Returned (Environment ω)}
  {α : Type} {access : Access (Bus ω) α} {finish : α → Environment ω → Cpu × Environment ω}
  {addr : Word} {bus : Bus ω}

/-- The block goes on after a helper whose access succeeded. -/
theorem leads_callGuarded_of_ok (hm : InFrame link saved m)
    (hfunction : link.function? target = some function)
    (hcall : function (m.low .rdx) (m.low .rcx) m.cpu m.env =
      guarded addr m.cpu m.env access finish)
    {a : α} (haccess : access m.env.bus = .ok a bus) :
    ∃ m', m'.stack = m.stack ∧ (m'.cpu, m'.env) = finish a (m.env.withBus bus) ∧
      Code.Leads link none (callHelper target) m [⟨target, m.low .rdx, m.low .rcx, m.cpu⟩]
        none m' := by
  obtain ⟨scratch, padding, hstack⟩ := hm
  obtain ⟨m', hstack', hcpu, henv, hleads⟩ := leads_callHelper hstack hfunction
  have hguarded : guarded addr m.cpu m.env access finish =
      returned false (finish a (m.env.withBus bus)).1 (finish a (m.env.withBus bus)).2 := by
    unfold guarded
    rw [haccess]
    rfl
  rw [hcall, hguarded] at hcpu henv hleads
  refine ⟨m', hstack', ?_, hleads⟩
  rw [hcpu, henv]
  rfl

/-- The block jumps to its fault exit after a helper whose access faulted. -/
theorem leads_callGuarded_of_error (hm : InFrame link saved m)
    (hfunction : link.function? target = some function)
    (hcall : function (m.low .rdx) (m.low .rcx) m.cpu m.env =
      guarded addr m.cpu m.env access finish)
    {fault : Fault} (haccess : access m.env.bus = .error fault bus) :
    ∃ m', m'.stack = m.stack ∧ m'.cpu = m.cpu ∧ m'.env = m.env.faulted bus addr fault ∧
      Code.Leads link none (callHelper target) m [⟨target, m.low .rdx, m.low .rcx, m.cpu⟩]
        (some faultLabel) m' := by
  obtain ⟨scratch, padding, hstack⟩ := hm
  obtain ⟨m', hstack', hcpu, henv, hleads⟩ := leads_callHelper hstack hfunction
  have hguarded : guarded addr m.cpu m.env access finish =
      returned true m.cpu (m.env.faulted bus addr fault) := by
    unfold guarded
    rw [haccess]
    rfl
  rw [hcall, hguarded] at hcpu henv hleads
  exact ⟨m', hstack', hcpu, henv, hleads⟩

end Calls

/-! ## Interpreted instructions -/

/-- Counts an unsupported instruction. -/
def Environment.counted (env : Environment ω) : Outcome → Environment ω
  | .unhandled _ _ => { env with unhandled := env.unhandled + 1 }
  | _ => env

theorem interpretFunction_eq (addr word : Word) (cpu : Cpu) (env : Environment ω) :
    interpretFunction addr word cpu env =
      guarded addr cpu env ((Instruction.decode word).execute addr word cpu)
        fun p env => (p.2, env.counted p.1) := by
  unfold interpretFunction
  congr
  funext ⟨outcome, after⟩ env
  cases outcome <;> rfl

section Interpreted

variable {helpers : Helpers} {link : Linkage (Environment ω)} {saved : Host.Reg → BitVec 64}
  {cpu cpu' : Cpu} {env : Environment ω} {m : Machine (Environment ω)} {addr word : Word}
  {outcome : Outcome} {bus : Bus ω}

/-- The guest is stored and the two words are ready before the interpreter is
called. -/
theorem runInstrs?_beforeInterpret (hm : Loaded link saved cpu env m) (addr word : Word) :
    ∃ ready, runInstrs? link (spill ++ [.movImm .rdx addr, .movImm .rcx word]) m = some ready ∧
      Stored link saved cpu env ready ∧ ready.low .rdx = addr ∧ ready.low .rcx = word := by
  obtain ⟨spilled, hspill, hstored, -⟩ := runInstrs?_spill link hm
  refine ⟨(spilled.put .rdx addr).put .rcx word, ?_, ⟨hstored.cpu_eq, hstored.inFrame,
    hstored.env_eq⟩, ?_, ?_⟩
  · rw [Host.runInstrs?_append_of_eq_some link hspill, Host.runInstrs?_cons,
      Instr.step?_movImm link _ (by decide), Option.bind_some, Host.runInstrs?_cons,
      Instr.step?_movImm link _ (by decide)]
    rfl
  · rw [Machine.low_put, if_neg (by decide), Machine.low_put, if_pos rfl]
  · rw [Machine.low_put, if_pos rfl]

/-- The access of the interpreter helper is the execution of the instruction. -/
theorem interpretFunction_of_stored {ready : Machine (Environment ω)}
    (hready : Stored link saved cpu env ready) (hrdx : ready.low .rdx = addr)
    (hrcx : ready.low .rcx = word) :
    interpretFunction (ready.low .rdx) (ready.low .rcx) ready.cpu ready.env =
      guarded addr ready.cpu ready.env ((Instruction.decode word).execute addr word cpu)
        fun p env => (p.2, env.counted p.1) := by
  rw [interpretFunction_eq, hrdx, hrcx, Instruction.execute_congr hready.cpu_eq]

variable (hlinked : Linked helpers link) (hm : Loaded link saved cpu env m)
include hlinked hm

/-- Code up to the return of the interpreter. -/
theorem run?_interpreted_of_ok
    (h : (Instruction.decode word).execute addr word cpu env.bus = .ok (outcome, cpu') bus)
    (rest : Code) :
    ∃ m', InFrame link saved m' ∧ m'.cpu = cpu' ∧
      m'.env = (env.withBus bus).counted outcome ∧
      Code.run? link none
          (Code.ofInstrs (spill ++ [.movImm .rdx addr, .movImm .rcx word]) ++
            (callHelper helpers.interpret ++ rest)) m =
        Code.run? link none rest m' := by
  obtain ⟨ready, hrun, hready, hrdx, hrcx⟩ := runInstrs?_beforeInterpret hm addr word
  rw [← hready.env_eq] at h
  obtain ⟨m', hstack, hfinish, hcall⟩ := leads_callGuarded_of_ok hready.inFrame hlinked.interpret
    (interpretFunction_of_stored hready hrdx hrcx) h
  obtain ⟨scratch, padding, hframe⟩ := hready.inFrame
  refine ⟨m', ⟨scratch, padding, hstack.trans hframe⟩, congrArg Prod.fst hfinish, ?_, ?_⟩
  · rw [← hready.env_eq]
    exact congrArg Prod.snd hfinish
  · rw [Code.run?_ofInstrs_append link hrun, hcall.run?_append (Linear.callHelper _).apart]

/-- An interpreted instruction that ends the block returns with the state it
leads to. -/
theorem run?_interpret_exit_of_ok
    (h : (Instruction.decode word).execute addr word cpu env.bus = .ok (outcome, cpu') bus)
    (rest : Code) :
    ∃ m', Code.run? link none (interpret helpers addr word true ++ rest) m = some m' ∧
      Returned saved 0 cpu' ((env.withBus bus).counted outcome) m' := by
  obtain ⟨m', hframe, hcpu, henv, hrun⟩ := run?_interpreted_of_ok hlinked hm h
    (Code.ofInstrs leave ++ rest)
  obtain ⟨last, hleave, hreturned⟩ := run?_epilogue hframe 0 rest
  rw [hcpu, henv] at hreturned
  refine ⟨last, ?_, hreturned⟩
  rw [interpret, List.append_assoc, List.append_assoc]
  exact hrun.trans hleave

/-- An interpreted instruction inside the block goes on with the state it leads
to loaded. -/
theorem run?_interpret_next_of_ok
    (h : (Instruction.decode word).execute addr word cpu env.bus = .ok (outcome, cpu') bus)
    (rest : Code) :
    ∃ m', Loaded link saved cpu' ((env.withBus bus).counted outcome) m' ∧
      Code.run? link none (interpret helpers addr word false ++ rest) m =
        Code.run? link none rest m' := by
  obtain ⟨m', hframe, hcpu, henv, hrun⟩ := run?_interpreted_of_ok hlinked hm h
    (Code.ofInstrs reload ++ rest)
  have hstored : Stored link saved cpu' ((env.withBus bus).counted outcome) m' :=
    ⟨hcpu ▸ Cpu.EqOffPc.refl cpu', hframe, henv⟩
  obtain ⟨last, hreload, hloaded⟩ := runInstrs?_reload link hstored
  refine ⟨last, hloaded, ?_⟩
  rw [interpret, List.append_assoc, List.append_assoc]
  exact hrun.trans (Code.run?_ofInstrs_append link hreload rest)

/-- An interpreted instruction that faults jumps to the fault exit. -/
theorem run?_interpret_of_error {fault : Fault}
    (h : (Instruction.decode word).execute addr word cpu env.bus = .error fault bus)
    (exits : Bool) (rest : Code) :
    ∃ m', InFrame link saved m' ∧ m'.cpu.EqOffPc cpu ∧ m'.env = env.faulted bus addr fault ∧
      Code.run? link none (interpret helpers addr word exits ++ rest) m =
        Code.run? link (some faultLabel) rest m' := by
  obtain ⟨ready, hrun, hready, hrdx, hrcx⟩ := runInstrs?_beforeInterpret hm addr word
  rw [← hready.env_eq] at h
  obtain ⟨m', hstack, hcpu, henv, hcall⟩ := leads_callGuarded_of_error hready.inFrame
    hlinked.interpret (interpretFunction_of_stored hready hrdx hrcx) h
  obtain ⟨scratch, padding, hframe⟩ := hready.inFrame
  refine ⟨m', ⟨scratch, padding, hstack.trans hframe⟩, hcpu ▸ hready.cpu_eq, ?_, ?_⟩
  · rw [henv, hready.env_eq]
  · rw [interpret, List.append_assoc, List.append_assoc, Code.run?_ofInstrs_append link hrun,
      hcall.run?_append (Linear.callHelper _).apart,
      Code.run?_some_append link (Code.label_notMem_ofInstrs _ _)]

end Interpreted

end ArmEmulator.Block
