import ArmEmulator.Proofs.Block.Labels
import ArmEmulator.Proofs.Block.Transfer

/-!
# Multiple transfers in a running block

The address of the first word waits in the scratch slot while the helper is
called for one register after another, so the accesses are those of the
instruction in the same order, up to the first that faults.

Main results:

- Theorems {lit}`leads_transferEach_load_of_ok` and
  {lit}`leads_transferEach_store_of_ok`: the calls for a list of registers make
  the accesses of the list.
- Theorems {lit}`leads_multiTransferBody_of_ok` and
  {lit}`leads_multiTransferBody_of_error`: a native multiple transfer does what
  the instruction does.
-/

namespace ArmEmulator.Block

open Host (Machine Linkage Instr Code Item Label Flags runInstrs?)

/-! ## One register -/

section Word

variable {ε : Type} {link : Linkage ε} {saved : Host.Reg → BitVec 64}
  {m : Machine ε} {start : Word} {padding : Option (BitVec 32)}

/-- The code in front of the call for the {lit}`k`-th register. -/
def eachCode (k : Nat) (r : Reg) : List Instr :=
  .load32 .rdx (scratchSlot 0) ::
    (if k = 0 then [] else [.aluImm .add .rdx (BitVec.ofNat 32 (4 * k))]) ++
    [.movImm .rcx (accessWord r false)]

theorem isCall_eachCode (k : Nat) (r : Reg) : ∀ i ∈ eachCode k r, i.isCall = false := by
  intro i hi
  simp only [eachCode, List.cons_append, List.mem_cons, List.mem_append, List.mem_ite_nil_left,
    List.not_mem_nil, or_false] at hi
  rcases hi with rfl | ⟨-, rfl⟩ | rfl <;> rfl

/-- The code for one register places no label. -/
theorem linear_each (k : Nat) (r : Reg) (helper : BitVec 64) :
    Linear (Code.ofInstrs (eachCode k r) ++ callHelper helper) :=
  (Linear.ofInstrs _).append (Linear.callHelper helper)

theorem load32?_scratchSlot (hstack : m.stack = frame link saved (some start) padding) :
    m.load32? link (scratchSlot 0) = some start := by
  have hbelow : m.stack = [] ++ frameWith link saved link.state (some start) padding := hstack
  exact load32?_third hbelow rfl (by decide)

theorem runInstrs?_eachCode (hstack : m.stack = frame link saved (some start) padding) (k : Nat)
    (r : Reg) :
    ∃ ready, runInstrs? link (eachCode k r) m = some ready ∧ Agree m ready ∧
      ready.low .rdx = start + BitVec.ofNat 32 (4 * k) ∧ ready.low .rcx = accessWord r false := by
  obtain ⟨shifted, hshift, hagree, hrdx⟩ : ∃ shifted,
      runInstrs? link (if k = 0 then [] else [.aluImm .add .rdx (BitVec.ofNat 32 (4 * k))])
        (m.put .rdx start) = some shifted ∧
      Agree m shifted ∧ shifted.low .rdx = start + BitVec.ofNat 32 (4 * k) := by
    by_cases hk : k = 0
    · refine ⟨m.put .rdx start, ?_, ⟨rfl, rfl, rfl⟩, ?_⟩
      · rw [if_pos hk]
        rfl
      · rw [Machine.low_put, if_pos rfl, hk]
        exact (BitVec.add_zero start).symm
    · refine ⟨((m.put .rdx start).withFlags
        (Host.Alu.add.eval start (BitVec.ofNat 32 (4 * k))).2).put .rdx
          (start + BitVec.ofNat 32 (4 * k)), ?_, ⟨rfl, rfl, rfl⟩, ?_⟩
      · rw [if_neg hk, Host.runInstrs?_cons, Instr.step?_aluImm link _ (by decide) (by decide),
          Machine.low_put, if_pos rfl]
        rfl
      · rw [Machine.low_put, if_pos rfl]
  refine ⟨shifted.put .rcx (accessWord r false), ?_, hagree.trans ⟨rfl, rfl, rfl⟩, ?_, ?_⟩
  · rw [eachCode, List.cons_append, Host.runInstrs?_cons, Instr.step?_load32 link m (by decide),
      load32?_scratchSlot hstack, Option.map_some, Option.bind_some,
      Host.runInstrs?_append_of_eq_some link hshift, Host.runInstrs?_cons,
      Instr.step?_movImm link _ (by decide)]
    rfl
  · rw [Machine.low_put, if_neg (by decide), hrdx]
  · rw [Machine.low_put, if_pos rfl]

/-- The next word lies four bytes further. -/
theorem start_add_succ (start : Word) (k : Nat) :
    start + BitVec.ofNat 32 (4 * (k + 1)) = start + BitVec.ofNat 32 (4 * k) + 4 := by
  rw [Nat.mul_succ, BitVec.ofNat_add, BitVec.add_assoc]
  rfl

end Word

/-! ## Lists of registers -/

section Lists

variable {ω : Type} {helpers : Helpers} {link : Linkage (Environment ω)}
  {saved : Host.Reg → BitVec 64} {start : Word} {padding : Option (BitVec 32)}
  {bus : Bus ω}

/-- Writes loaded values to their registers, but not to the program counter. -/
def writeLoaded (cpu : Cpu) (values : List (Reg × Word)) : Cpu :=
  values.foldl (fun cpu (r, value) => if r = .pc then cpu else cpu.setReg r value) cpu

theorem writeLoaded_cons {r : Reg} (hr : r ≠ .pc) (cpu : Cpu) (value : Word)
    (values : List (Reg × Word)) :
    writeLoaded cpu ((r, value) :: values) = writeLoaded (cpu.setReg r value) values := by
  show writeLoaded (if r = .pc then cpu else cpu.setReg r value) values = _
  rw [if_neg hr]

section OneCall

variable {m : Machine (Environment ω)} {target : BitVec 64} {α : Type}
  {function : BitVec 32 → BitVec 32 → Cpu → Environment ω → Host.Returned (Environment ω)}
  {access : Access (Bus ω) α} {finish : α → Environment ω → Cpu × Environment ω} {k : Nat} {r : Reg}
  (hstack : m.stack = frame link saved (some start) padding)
  (hcall : ∀ env, function (start + BitVec.ofNat 32 (4 * k)) (accessWord r false) m.cpu env =
    guarded (start + BitVec.ofNat 32 (4 * k)) m.cpu env access finish)
include hstack hcall

/-- The function is called for the access. -/
theorem runInstrs?_beforeEach :
    ∃ ready, runInstrs? link (eachCode k r) m = some ready ∧ Agree m ready ∧
      ready.low .rdx = start + BitVec.ofNat 32 (4 * k) ∧ ready.low .rcx = accessWord r false ∧
      function (ready.low .rdx) (ready.low .rcx) ready.cpu ready.env =
        guarded (start + BitVec.ofNat 32 (4 * k)) ready.cpu ready.env access finish := by
  obtain ⟨ready, hrun, hagree, hrdx, hrcx⟩ := runInstrs?_eachCode hstack k r
  refine ⟨ready, hrun, hagree, hrdx, hrcx, ?_⟩
  rw [hrdx, hrcx, hagree.cpu]
  exact hcall ready.env

variable (hfunction : link.function? target = some function)
include hfunction

/-- The call for one register whose access succeeds. -/
theorem leads_eachCall_of_ok {a : α} (h : access m.env.bus = .ok a bus) :
    ∃ m', m'.stack = m.stack ∧ (m'.cpu, m'.env) = finish a (m.env.withBus bus) ∧
      Code.Leads link none (Code.ofInstrs (eachCode k r) ++ callHelper target) m
        [⟨target, start + BitVec.ofNat 32 (4 * k), accessWord r false, m.cpu⟩] none m' := by
  obtain ⟨ready, hrun, hagree, hrdx, hrcx, hready⟩ := runInstrs?_beforeEach hstack hcall
  rw [← hagree.env] at h
  obtain ⟨m', hstack', hfinish, hleads⟩ := leads_callGuarded_of_ok
    ⟨_, _, hagree.stack.trans hstack⟩ hfunction hready h
  rw [hrdx, hrcx, hagree.cpu] at hleads
  rw [hagree.env] at hfinish
  exact ⟨m', hstack'.trans hagree.stack, hfinish,
    (Code.Leads.ofInstrs hrun (isCall_eachCode k r)).append hleads (Linear.ofInstrs _).apart⟩

/-- The call for one register whose access faults. -/
theorem leads_eachCall_of_error {fault : Fault} (h : access m.env.bus = .error fault bus) :
    ∃ m' calls, m'.stack = m.stack ∧ m'.cpu = m.cpu ∧
      m'.env = m.env.faulted bus (start + BitVec.ofNat 32 (4 * k)) fault ∧
      Code.Leads link none (Code.ofInstrs (eachCode k r) ++ callHelper target) m calls
        (some faultLabel) m' := by
  obtain ⟨ready, hrun, hagree, hrdx, hrcx, hready⟩ := runInstrs?_beforeEach hstack hcall
  rw [← hagree.env] at h
  obtain ⟨m', hstack', hcpu, henv, hleads⟩ := leads_callGuarded_of_error
    ⟨_, _, hagree.stack.trans hstack⟩ hfunction hready h
  rw [hagree.env] at henv
  exact ⟨m', _, hstack'.trans hagree.stack, hcpu.trans hagree.cpu, henv,
    (Code.Leads.ofInstrs hrun (isCall_eachCode k r)).append hleads (Linear.ofInstrs _).apart⟩

end OneCall

variable (hlinked : Linked helpers link)
include hlinked

/-- The calls for a list of registers load the words of the list. -/
theorem leads_transferEach_load_of_ok {list : List Reg} (hlist : Reg.pc ∉ list) (k : Nat)
    {m : Machine (Environment ω)} {cpu : Cpu} {env : Environment ω}
    (hstack : m.stack = frame link saved (some start) padding) (hcpu : m.cpu.EqOffPc cpu)
    (henv : m.env = env) {values : List (Reg × Word)}
    (h : readList (start + BitVec.ofNat 32 (4 * k)) list env.bus = .ok values bus) :
    ∃ m' calls, m'.stack = m.stack ∧ m'.cpu.EqOffPc (writeLoaded cpu values) ∧
      m'.env = env.withBus bus ∧
      Code.Leads link none (transferEach helpers.load k list) m calls none m' ∧
      calls.map (callRequest? helpers) =
        (loadRequests (start + BitVec.ofNat 32 (4 * k)) list : List (Bus.Request ω)).map some := by
  -- Each call hands on a machine with one register more written, while the interpreter writes
  -- none before it has read all; so the state is general, up to the program counter.
  induction list generalizing k m cpu env values with
  | nil =>
      obtain ⟨rfl, rfl⟩ := Access.pure_eq_ok_iff.1 h
      exact ⟨m, [], rfl, hcpu, henv, .nil none m, rfl⟩
  | cons r list ih =>
      obtain ⟨hr, htail⟩ := not_or.1 fun hmem => hlist (List.mem_cons.2 hmem)
      obtain ⟨value, between, hvalue, h⟩ := Access.bind_eq_ok_iff.1 h
      obtain ⟨tail, hrest, rfl⟩ := Access.bind_pure_eq_ok_iff.1 h
      rw [← henv] at hvalue
      obtain ⟨next, hstack', hfinish, hleads⟩ := leads_eachCall_of_ok hstack
        (loadFunction_accessWord _ r false m.cpu) hlinked.load hvalue
      obtain ⟨hcpu', henv'⟩ := Prod.mk.inj hfinish
      rw [henv] at henv'
      rw [← start_add_succ] at hrest
      obtain ⟨last, calls, hstackLast, hcpuLast, henvLast, hleadsLast, hcalls⟩ := ih htail (k + 1)
        (hstack'.trans hstack) (hcpu' ▸ hcpu.setReg r value) henv' hrest
      refine ⟨last, _, hstackLast.trans hstack', ?_, henvLast,
        hleads.append hleadsLast (linear_each k r _).apart, ?_⟩
      · rw [writeLoaded_cons (Ne.symm hr)]
        exact hcpuLast
      · rw [List.map_append, hcalls, List.map_singleton, callRequest?_load, start_add_succ]
        rfl

/-- The calls for a list of registers stop at the word that faults, which is reported; only
registers of the list were written. -/
theorem leads_transferEach_load_of_error {list : List Reg} (k : Nat)
    {m : Machine (Environment ω)} {env : Environment ω}
    (hstack : m.stack = frame link saved (some start) padding) (henv : m.env = env)
    {j : Nat} {request : Bus.Request ω} {fault : Fault}
    (h : Bus.StopsAt (loadRequests (start + BitVec.ofNat 32 (4 * k)) list) env.bus j request fault
      bus) {place : Word} {width : Bus.Width} (hplace : request.access? = some (place, width)) :
    ∃ m' calls, m'.stack = m.stack ∧ m'.cpu.EqOutside list m.cpu ∧
      m'.env = env.faulted bus place fault ∧
      Code.Leads link none (transferEach helpers.load k list) m calls (some faultLabel) m' := by
  induction list generalizing k j m env with
  | nil => cases h.asked
  | cons r list ih =>
      cases j with
      | zero =>
          obtain ⟨rfl, hvalue⟩ := Bus.stopsAt_zero_iff.1 h
          cases hplace
          rw [← henv] at hvalue
          obtain ⟨m', calls, hstack', hcpu', henv', hleads⟩ := leads_eachCall_of_error hstack
            (loadFunction_accessWord _ r false m.cpu) hlinked.load hvalue
          rw [henv] at henv'
          exact ⟨m', _, hstack', hcpu' ▸ .refl _ _, henv', hleads.append
            (.passed ((Linear.transferEach _ (k + 1) list).label _) m') (linear_each k r _).apart⟩
      | succ j =>
          obtain ⟨value, between, hvalue, hrest⟩ := Bus.stopsAt_succ_iff.1 h
          rw [← henv] at hvalue
          obtain ⟨next, hstack', hfinish, hleads⟩ := leads_eachCall_of_ok hstack
            (loadFunction_accessWord _ r false m.cpu) hlinked.load hvalue
          obtain ⟨hcpu', henv'⟩ := Prod.mk.inj hfinish
          rw [henv] at henv'
          rw [← start_add_succ] at hrest
          obtain ⟨last, calls, hstackLast, hcpuLast, henvLast, hleadsLast⟩ := ih (k + 1)
            (hstack'.trans hstack) henv' hrest
          refine ⟨last, _, hstackLast.trans hstack', ?_, henvLast,
            hleads.append hleadsLast (linear_each k r _).apart⟩
          rw [hcpu'] at hcpuLast
          exact (hcpuLast.mono (List.subset_cons_self r list)).trans
            (.setReg (List.mem_cons_self ..) m.cpu value)

/-- The calls for a list of registers store the words of the list. -/
theorem leads_transferEach_store_of_ok {list : List Reg} {value : Reg → Word} (k : Nat)
    {m : Machine (Environment ω)} {env : Environment ω}
    (hstack : m.stack = frame link saved (some start) padding)
    (hvalue : ∀ r ∈ list, m.cpu.reg r = value r) (henv : m.env = env)
    (h : writeList value (start + BitVec.ofNat 32 (4 * k)) list env.bus = .ok () bus) :
    ∃ m' calls, m'.stack = m.stack ∧ m'.cpu = m.cpu ∧ m'.env = env.withBus bus ∧
      Code.Leads link none (transferEach helpers.store k list) m calls none m' ∧
      calls.map (callRequest? helpers) =
        (storeRequests value (start + BitVec.ofNat 32 (4 * k)) list :
          List (Bus.Request ω)).map some := by
  -- The stored values are those before the first call; no store changes a register.
  induction list generalizing k m env with
  | nil =>
      obtain ⟨-, rfl⟩ := Access.pure_eq_ok_iff.1 h
      exact ⟨m, [], rfl, rfl, henv, .nil none m, rfl⟩
  | cons r list ih =>
      have hhead := hvalue r (List.mem_cons_self ..)
      obtain ⟨⟨⟩, between, hword, hrest⟩ := Access.bind_eq_ok_iff.1 h
      rw [← henv, ← hhead] at hword
      obtain ⟨next, hstack', hfinish, hleads⟩ := leads_eachCall_of_ok hstack
        (storeFunction_accessWord _ r false m.cpu) hlinked.store hword
      obtain ⟨hcpu', henv'⟩ := Prod.mk.inj hfinish
      rw [henv] at henv'
      rw [← start_add_succ] at hrest
      obtain ⟨last, calls, hstackLast, hcpuLast, henvLast, hleadsLast, hcalls⟩ := ih (k + 1)
        (hstack'.trans hstack)
        (fun s hs => hcpu' ▸ hvalue s (List.mem_cons_of_mem r hs)) henv' hrest
      refine ⟨last, _, hstackLast.trans hstack', hcpuLast.trans hcpu', henvLast,
        hleads.append hleadsLast (linear_each k r _).apart, ?_⟩
      rw [List.map_append, hcalls, List.map_singleton,
        callRequest?_store (hlinked.load_ne_store env.bus.devices), hhead, start_add_succ]
      rfl

/-- The calls for a list of registers stop at the word that faults, which is reported. -/
theorem leads_transferEach_store_of_error {list : List Reg} {value : Reg → Word} (k : Nat)
    {m : Machine (Environment ω)} {env : Environment ω}
    (hstack : m.stack = frame link saved (some start) padding)
    (hvalue : ∀ r ∈ list, m.cpu.reg r = value r) (henv : m.env = env)
    {j : Nat} {request : Bus.Request ω} {fault : Fault}
    (h : Bus.StopsAt (storeRequests value (start + BitVec.ofNat 32 (4 * k)) list) env.bus j request
      fault bus) {place : Word} {width : Bus.Width}
    (hplace : request.access? = some (place, width)) :
    ∃ m' calls, m'.stack = m.stack ∧ m'.cpu = m.cpu ∧ m'.env = env.faulted bus place fault ∧
      Code.Leads link none (transferEach helpers.store k list) m calls (some faultLabel) m' := by
  induction list generalizing k j m env with
  | nil => cases h.asked
  | cons r list ih =>
      cases j with
      | zero =>
          obtain ⟨rfl, hfault⟩ := Bus.stopsAt_zero_iff.1 h
          cases hplace
          have hword := Access.bind_pure_eq_error_iff.1 hfault
          rw [← henv, ← hvalue r (List.mem_cons_self ..)] at hword
          obtain ⟨m', calls, hstack', hcpu', henv', hleads⟩ := leads_eachCall_of_error hstack
            (storeFunction_accessWord _ r false m.cpu) hlinked.store hword
          rw [henv] at henv'
          exact ⟨m', _, hstack', hcpu', henv', hleads.append
            (.passed ((Linear.transferEach _ (k + 1) list).label _) m') (linear_each k r _).apart⟩
      | succ j =>
          obtain ⟨answer, between, hserved, hrest⟩ := Bus.stopsAt_succ_iff.1 h
          obtain ⟨⟨⟩, hword, -⟩ := Access.bind_pure_eq_ok_iff.1 hserved
          rw [← henv, ← hvalue r (List.mem_cons_self ..)] at hword
          obtain ⟨next, hstack', hfinish, hleads⟩ := leads_eachCall_of_ok hstack
            (storeFunction_accessWord _ r false m.cpu) hlinked.store hword
          obtain ⟨hcpu', henv'⟩ := Prod.mk.inj hfinish
          rw [henv] at henv'
          rw [← start_add_succ] at hrest
          obtain ⟨last, calls, hstackLast, hcpuLast, henvLast, hleadsLast⟩ := ih (k + 1)
            (hstack'.trans hstack)
            (fun s hs => hcpu' ▸ hvalue s (List.mem_cons_of_mem r hs)) henv' hrest
          exact ⟨last, _, hstackLast.trans hstack', hcpuLast.trans hcpu', henvLast,
            hleads.append hleadsLast (linear_each k r _).apart⟩

end Lists

/-! ## Addresses -/

theorem startAddress_eq_add (m : MultiTransfer) (base : Word) :
    m.startAddress base = base + m.startAddress 0 := by
  unfold MultiTransfer.startAddress
  cases m.preIndex <;> cases m.add <;>
    simp [BitVec.sub_eq_add_neg, BitVec.add_assoc]

theorem finalBase_eq_add (m : MultiTransfer) (base : Word) :
    m.finalBase base = base + m.finalBase 0 := by
  unfold MultiTransfer.finalBase
  cases m.add <;> simp [BitVec.sub_eq_add_neg]

section Start

variable {ε : Type} {link : Linkage ε} {saved : Host.Reg → BitVec 64} {cpu : Cpu} {env : ε}
  {m : Machine ε} {t : MultiTransfer} {scratch padding : Option (BitVec 32)}

/-- A base register in the spilled state is moved by a constant. -/
theorem runInstrs?_updateBase (hstack : m.stack = frame link saved scratch padding) (rn : Reg)
    (delta : Word) :
    ∃ m', runInstrs? link (updateBase rn delta) m = some m' ∧ m'.stack = m.stack ∧
      m'.cpu = m.cpu.setReg rn (m.cpu.reg rn + delta) ∧ m'.env = m.env := by
  have hpointer : m.load64? (stateSlot 0) = some link.state :=
    load64?_stateSlot [] hstack rfl (by decide)
  have hrax : (m.setReg .rax link.state).reg .rax = link.state := by
    rw [Machine.reg_setReg, if_pos rfl]
  have hload := load32?_stateReg link (m.setReg .rax link.state) hrax rn
  obtain ⟨added, hadded⟩ : ∃ added, added = (((m.setReg .rax link.state).put .rcx
    (m.cpu.reg rn)).withFlags (Host.Alu.add.eval (m.cpu.reg rn) delta).2).put .rcx
      (m.cpu.reg rn + delta) := ⟨_, rfl⟩
  have hadd : (Instr.aluImm .add .rcx delta).step? link
      ((m.setReg .rax link.state).put .rcx (m.cpu.reg rn)) = some added := by
    rw [Instr.step?_aluImm link _ (by decide) (by decide), Machine.low_put, if_pos rfl, hadded]
    rfl
  have haddedRax : added.reg .rax = link.state := by
    rw [hadded, Machine.reg_put, if_neg (by decide), Machine.reg_withFlags, Machine.reg_put,
      if_neg (by decide), hrax]
  have haddedRcx : added.low .rcx = m.cpu.reg rn + delta := by
    rw [hadded, Machine.low_put, if_pos rfl]
  refine ⟨added.withCpu (m.cpu.setReg rn (m.cpu.reg rn + delta)), ?_, ?_, rfl, ?_⟩
  · rw [updateBase, Host.runInstrs?_cons, Instr.step?_load64 link m rax_ne_rsp, hpointer,
      Option.map_some, Option.bind_some, Host.runInstrs?_cons,
      Instr.step?_load32 link _ (by decide), hload, Option.map_some, Option.bind_some,
      Machine.cpu_setReg, Host.runInstrs?_cons, hadd, Option.bind_some, Host.runInstrs?_cons,
      Instr.step?_store32 link added (by decide), store32?_stateReg link added haddedRax,
      haddedRcx, hadded]
    rfl
  · rw [hadded]
    rfl
  · rw [hadded]
    rfl

/-- The address of the first word is put into the scratch slot. -/
theorem runInstrs?_startSlot (hm : Stored link saved cpu env m) (hrax : m.reg .rax = link.state)
    (hrn : t.rn ≠ .pc) :
    ∃ m' padding, runInstrs? link
        ([.load32 .rdx (stateReg t.rn)] ++
          (if t.startAddress 0 = 0 then [] else [.aluImm .add .rdx (t.startAddress 0)]) ++
          [.store32 (scratchSlot 0) .rdx]) m = some m' ∧
      m'.stack = frame link saved (some (t.startAddress (cpu.reg t.rn))) padding ∧
      m'.cpu = m.cpu ∧ m'.env = m.env := by
  obtain ⟨scratch, padding, hstack⟩ := hm.inFrame
  obtain ⟨moved, hmove, hagree, hrdx⟩ : ∃ moved,
      runInstrs? link (if t.startAddress 0 = 0 then [] else [.aluImm .add .rdx (t.startAddress 0)])
        (m.put .rdx (cpu.reg t.rn)) = some moved ∧
      Agree m moved ∧ moved.low .rdx = t.startAddress (cpu.reg t.rn) := by
    rw [startAddress_eq_add t (cpu.reg t.rn)]
    by_cases hzero : t.startAddress 0 = 0
    · refine ⟨m.put .rdx (cpu.reg t.rn), ?_, ⟨rfl, rfl, rfl⟩, ?_⟩
      · rw [if_pos hzero]
        rfl
      · rw [Machine.low_put, if_pos rfl, hzero]
        exact (BitVec.add_zero _).symm
    · refine ⟨((m.put .rdx (cpu.reg t.rn)).withFlags
        (Host.Alu.add.eval (cpu.reg t.rn) (t.startAddress 0)).2).put .rdx
          (cpu.reg t.rn + t.startAddress 0), ?_, ⟨rfl, rfl, rfl⟩, ?_⟩
      · rw [if_neg hzero, Host.runInstrs?_cons, Instr.step?_aluImm link _ (by decide) (by decide),
          Machine.low_put, if_pos rfl]
        rfl
      · rw [Machine.low_put, if_pos rfl]
  have hmoved : moved.stack = frame link saved scratch padding := hagree.stack.trans hstack
  have hstore : moved.store32? link (scratchSlot 0) (t.startAddress (cpu.reg t.rn)) =
      some (moved.withStack (frame link saved (some (t.startAddress (cpu.reg t.rn))) padding)) := by
    rw [scratchSlot, store32?_slot link moved (by decide), Machine.setUnit?,
      if_pos (by rw [hmoved, length_frame]; decide), hmoved]
    rfl
  refine ⟨moved.withStack (frame link saved (some (t.startAddress (cpu.reg t.rn))) padding),
    padding, ?_, rfl, hagree.cpu, hagree.env⟩
  rw [List.append_assoc, List.singleton_append, Host.runInstrs?_cons,
    Instr.step?_load32 link m (by decide), hm.load32?_stateReg hrax hrn, Option.map_some,
    Option.bind_some, Host.runInstrs?_append_of_eq_some link hmove, Host.runInstrs?_cons,
    Instr.step?_store32 link _ (by decide), hrdx, hstore]
  rfl

end Start

/-! ## Instructions -/

section Multi

variable {ω : Type} {helpers : Helpers} {link : Linkage (Environment ω)}
  {saved : Host.Reg → BitVec 64} {cpu cpu' : Cpu} {env : Environment ω}
  {m : Machine (Environment ω)} {t : MultiTransfer} {bus : Bus ω}

/-- The code of a multiple transfer up to its first helper call. -/
def startCode (t : MultiTransfer) : List Instr :=
  spill ++ [.load32 .rdx (stateReg t.rn)] ++
    (if t.startAddress 0 = 0 then [] else [.aluImm .add .rdx (t.startAddress 0)]) ++
    [.store32 (scratchSlot 0) .rdx] ++
    (if t.writeback && t.load then updateBase t.rn (t.finalBase 0) else [])

theorem multiTransferBody_eq (t : MultiTransfer) :
    multiTransferBody helpers t =
      Code.ofInstrs (startCode t) ++
        (transferEach (if t.load then helpers.load else helpers.store) 0 t.list.toList ++
          Code.ofInstrs ((if t.writeback && !t.load then updateBase t.rn (t.finalBase 0) else []) ++
            reload)) := by
  rw [multiTransferBody, List.append_assoc]
  rfl

theorem isCall_updateBase (rn : Reg) (delta : Word) :
    ∀ i ∈ updateBase rn delta, i.isCall = false := by
  simp [updateBase, Instr.isCall]

theorem isCall_startCode (t : MultiTransfer) : ∀ i ∈ startCode t, i.isCall = false := by
  have hspill : ∀ i ∈ spill, i.isCall = false := by decide
  intro i hi
  simp only [startCode, List.mem_append, List.mem_ite_nil_left, List.mem_ite_nil_right,
    List.mem_singleton] at hi
  rcases hi with (((hi | rfl) | ⟨-, rfl⟩) | rfl) | ⟨-, hi⟩
  · exact hspill i hi
  · rfl
  · rfl
  · rfl
  · exact isCall_updateBase t.rn _ i hi

/-- What a native multiple transfer leaves out. -/
theorem ne_pc_of_multiTransferSupported (h : multiTransferSupported t = true) :
    t.rn ≠ .pc ∧ Reg.pc ∉ t.list.toList := by
  unfold multiTransferSupported at h
  simp only [Bool.and_eq_true, bne_iff_ne, ne_eq, Bool.not_eq_true'] at h
  refine ⟨h.1.2, ?_⟩
  rw [RegList.mem_toList, h.2]
  exact Bool.false_ne_true

/-- The first address is ready and the base of a load updated before the first
call. -/
theorem runInstrs?_startCode (hm : Loaded link saved cpu env m)
    (hsupported : multiTransferSupported t = true) (addr : Word) :
    ∃ ready padding, runInstrs? link (startCode t) m = some ready ∧
      ready.stack = frame link saved (some (t.startAddress (cpu.readAt addr t.rn))) padding ∧
      ready.cpu.EqOffPc (if t.load then t.writeBack addr cpu else cpu) ∧ ready.env = env := by
  obtain ⟨hrn, -⟩ := ne_pc_of_multiTransferSupported hsupported
  have hread : cpu.readAt addr t.rn = cpu.reg t.rn := by
    rw [Cpu.readAt_of_ne hrn]
  obtain ⟨spilled, hspill, hstored, hrax⟩ := runInstrs?_spill link hm
  obtain ⟨started, padding, hstart, hstack, hcpu, henv⟩ := runInstrs?_startSlot hstored hrax hrn
  have hcode : startCode t =
      spill ++ (([.load32 .rdx (stateReg t.rn)] ++
        (if t.startAddress 0 = 0 then [] else [.aluImm .add .rdx (t.startAddress 0)]) ++
        [.store32 (scratchSlot 0) .rdx]) ++
        (if t.writeback && t.load then updateBase t.rn (t.finalBase 0) else [])) := by
    rw [startCode, List.append_assoc, List.append_assoc, List.append_assoc, List.append_assoc,
      List.append_assoc]
  have hstartedCpu : started.cpu.EqOffPc cpu := hcpu ▸ hstored.cpu_eq
  have hstartedEnv : started.env = env := henv.trans hstored.env_eq
  unfold MultiTransfer.writeBack
  rw [hcode, Host.runInstrs?_append_of_eq_some link hspill,
    Host.runInstrs?_append_of_eq_some link hstart, hread]
  cases t.load with
  | false => exact ⟨started, padding, by rw [Bool.and_false]; rfl, hstack, hstartedCpu, hstartedEnv⟩
  | true =>
      cases t.writeback with
      | false => exact ⟨started, padding, rfl, hstack, hstartedCpu, hstartedEnv⟩
      | true =>
          obtain ⟨updated, hupdate, hstack', hcpu', henv'⟩ := runInstrs?_updateBase hstack t.rn
            (t.finalBase 0)
          refine ⟨updated, padding, hupdate, hstack'.trans hstack, ?_, henv'.trans hstartedEnv⟩
          rw [hcpu', hstartedCpu.reg _ hrn, ← finalBase_eq_add]
          exact hstartedCpu.setReg _ _

theorem eqOffPc_proceed (t : MultiTransfer) (addr : Word) (cpu : Cpu) :
    cpu.EqOffPc (t.proceed addr cpu) := by
  unfold MultiTransfer.proceed
  split
  · exact .refl cpu
  · exact (Cpu.EqOffPc.setPc _ _).symm

/-- Listed registers have the values that the instruction reads. -/
theorem reg_eq_readAt {list : List Reg} (hlist : Reg.pc ∉ list) {cpu' : Cpu}
    (h : cpu'.EqOffPc cpu) (addr : Word) : ∀ r ∈ list, cpu'.reg r = cpu.readAt addr r := by
  intro r hr
  have hpc : r ≠ .pc := by
    rintro rfl
    exact hlist hr
  rw [h.reg r hpc, Cpu.readAt_of_ne hpc]

/-- The requests of a multiple load, the first one no words behind its start. -/
theorem requests_of_load (hload : t.load = true) (addr : Word) :
    (t.requests addr cpu : List (Bus.Request ω)) =
      loadRequests (t.startAddress (cpu.readAt addr t.rn) + BitVec.ofNat 32 (4 * 0))
        t.list.toList := by
  rw [MultiTransfer.requests, hload, Nat.mul_zero, BitVec.add_zero]
  rfl

/-- The requests of a multiple store, the first one no words behind its start. -/
theorem requests_of_store (hload : t.load = false) (addr : Word) :
    (t.requests addr cpu : List (Bus.Request ω)) =
      storeRequests (cpu.readAt addr)
        (t.startAddress (cpu.readAt addr t.rn) + BitVec.ofNat 32 (4 * 0)) t.list.toList := by
  rw [MultiTransfer.requests, hload, Nat.mul_zero, BitVec.add_zero]
  rfl

section Bodies

variable (hlinked : Linked helpers link) (hm : Loaded link saved cpu env m)
  (hsupported : multiTransferSupported t = true)
include hlinked hm hsupported

/-- The code of a native multiple load. -/
theorem leads_multiLoad_of_ok {addr : Word} (hload : t.load = true)
    (h : t.execute addr cpu env.bus = .ok cpu' bus) :
    ∃ m' calls, Loaded link saved cpu' (env.withBus bus) m' ∧
      Code.Leads link none (multiTransferBody helpers t) m calls none m' ∧
      calls.map (callRequest? helpers) =
        (t.requests addr cpu : List (Bus.Request ω)).map some := by
  obtain ⟨-, hlist⟩ := ne_pc_of_multiTransferSupported hsupported
  obtain ⟨ready, padding, hrun, hstack, hcpu, henv⟩ := runInstrs?_startCode hm hsupported addr
  rw [hload, if_pos rfl] at hcpu
  unfold MultiTransfer.execute at h
  rw [if_pos hload] at h
  obtain ⟨values, hread, rfl⟩ := Access.bind_pure_eq_ok_iff.1 h
  rw [← BitVec.add_zero (t.startAddress (cpu.readAt addr t.rn))] at hread
  obtain ⟨loaded, calls, hstack', hcpu', henv', hleads, hcalls⟩ := leads_transferEach_load_of_ok
    hlinked hlist 0 hstack hcpu henv hread
  have hstored : Stored link saved (t.afterLoad addr cpu values) (env.withBus bus) loaded := by
    refine ⟨?_, ⟨_, padding, hstack'.trans hstack⟩, henv'⟩
    rw [MultiTransfer.afterLoad, lookup_of_readList hlist hread]
    exact hcpu'.trans (eqOffPc_proceed t addr _)
  obtain ⟨last, hreload, hloaded⟩ := runInstrs?_reload link hstored
  have hcode := (Code.Leads.ofInstrs hrun (isCall_startCode t)).append
    (hleads.append (.ofInstrs hreload (by decide)) (Linear.transferEach _ _ _).apart)
    (Linear.ofInstrs _).apart
  rw [List.nil_append, List.append_nil] at hcode
  refine ⟨last, calls, hloaded, ?_, ?_⟩
  · rw [multiTransferBody_eq, hload, if_pos rfl, Bool.not_true, Bool.and_false,
      if_neg Bool.false_ne_true, List.nil_append]
    exact hcode
  · rw [hcalls, requests_of_load hload]

/-- The code of a native multiple store. -/
theorem leads_multiStore_of_ok {addr : Word} (hload : t.load = false)
    (h : t.execute addr cpu env.bus = .ok cpu' bus) :
    ∃ m' calls, Loaded link saved cpu' (env.withBus bus) m' ∧
      Code.Leads link none (multiTransferBody helpers t) m calls none m' ∧
      calls.map (callRequest? helpers) =
        (t.requests addr cpu : List (Bus.Request ω)).map some := by
  obtain ⟨hrn, hlist⟩ := ne_pc_of_multiTransferSupported hsupported
  obtain ⟨ready, padding, hrun, hstack, hcpu, henv⟩ := runInstrs?_startCode hm hsupported addr
  rw [hload, if_neg Bool.false_ne_true] at hcpu
  unfold MultiTransfer.execute at h
  rw [if_neg (by simp [hload])] at h
  obtain ⟨⟨⟩, hwrite, rfl⟩ := Access.bind_pure_eq_ok_iff.1 h
  rw [← BitVec.add_zero (t.startAddress (cpu.readAt addr t.rn))] at hwrite
  obtain ⟨stored, calls, hstack', hcpu', henv', hleads, hcalls⟩ := leads_transferEach_store_of_ok
    hlinked 0 hstack (reg_eq_readAt hlist hcpu addr) henv hwrite
  have hread : cpu.readAt addr t.rn = cpu.reg t.rn := by
    rw [Cpu.readAt_of_ne hrn]
  obtain ⟨updated, hupdate, hstack'', hcpu'', henv''⟩ : ∃ updated,
      runInstrs? link (if t.writeback then updateBase t.rn (t.finalBase 0) else []) stored =
        some updated ∧
      updated.stack = stored.stack ∧ updated.cpu.EqOffPc (t.writeBack addr cpu) ∧
      updated.env = stored.env := by
    unfold MultiTransfer.writeBack
    rw [hread]
    cases t.writeback with
    | false => exact ⟨stored, rfl, rfl, hcpu'.symm ▸ hcpu, rfl⟩
    | true =>
        obtain ⟨updated, hupdate, hstackU, hcpuU, henvU⟩ := runInstrs?_updateBase
          (hstack'.trans hstack) t.rn (t.finalBase 0)
        refine ⟨updated, hupdate, hstackU, ?_, henvU⟩
        rw [hcpuU, hcpu', hcpu.reg _ hrn, ← finalBase_eq_add]
        exact hcpu.setReg _ _
  have hstored : Stored link saved (t.proceed addr (t.writeBack addr cpu)) (env.withBus bus)
      updated :=
    ⟨hcpu''.trans (eqOffPc_proceed t addr _),
      ⟨_, padding, hstack''.trans (hstack'.trans hstack)⟩, henv''.trans henv'⟩
  obtain ⟨last, hreload, hloaded⟩ := runInstrs?_reload link hstored
  have hend : runInstrs? link ((if t.writeback then updateBase t.rn (t.finalBase 0) else []) ++
      reload) stored = some last := by
    rw [Host.runInstrs?_append_of_eq_some link hupdate, hreload]
  have hendCalls : ∀ i ∈ (if t.writeback then updateBase t.rn (t.finalBase 0) else []) ++ reload,
      i.isCall = false := by
    intro i hi
    rcases List.mem_append.1 hi with hi | hi
    · exact isCall_updateBase t.rn _ i (List.mem_ite_nil_right.1 hi).2
    · exact (by decide : ∀ i ∈ reload, i.isCall = false) i hi
  have hcode := (Code.Leads.ofInstrs hrun (isCall_startCode t)).append
    (hleads.append (.ofInstrs hend hendCalls) (Linear.transferEach _ _ _).apart)
    (Linear.ofInstrs _).apart
  rw [List.nil_append, List.append_nil] at hcode
  refine ⟨last, calls, hloaded, ?_, ?_⟩
  · rw [multiTransferBody_eq, hload, Bool.not_false, Bool.and_true, if_neg Bool.false_ne_true]
    exact hcode
  · rw [hcalls, requests_of_store hload]

/-- The code of a native multiple transfer calls its helper for one access of the
instruction after another, and leads to the state after it. -/
theorem leads_multiTransferBody_of_ok {addr : Word}
    (h : t.execute addr cpu env.bus = .ok cpu' bus) :
    ∃ m' calls, Loaded link saved cpu' (env.withBus bus) m' ∧
      Code.Leads link none (multiTransferBody helpers t) m calls none m' ∧
      calls.map (callRequest? helpers) =
        (t.requests addr cpu : List (Bus.Request ω)).map some := by
  cases hload : t.load with
  | true => exact leads_multiLoad_of_ok hlinked hm hsupported hload h
  | false => exact leads_multiStore_of_ok hlinked hm hsupported hload h

/-- A native multiple transfer that faults jumps to the fault exit; the fault is reported at
the address of the access, and no register was written that the transfer does not write. -/
theorem leads_multiTransferBody_of_error {addr : Word} {j : Nat} {request : Bus.Request ω}
    {fault : Fault} (h : Bus.StopsAt (t.requests addr cpu) env.bus j request fault bus)
    {place : Word} {width : Bus.Width} (hplace : request.access? = some (place, width)) :
    ∃ m' calls, InFrame link saved m' ∧ m'.cpu.EqOutside (.pc :: t.written) cpu ∧
      m'.env = env.faulted bus place fault ∧
      Code.Leads link none (multiTransferBody helpers t) m calls (some faultLabel) m' := by
  obtain ⟨hrn, hlist⟩ := ne_pc_of_multiTransferSupported hsupported
  obtain ⟨ready, padding, hrun, hstack, hcpu, henv⟩ := runInstrs?_startCode hm hsupported addr
  have hready : ready.cpu.EqOutside (.pc :: t.written) cpu := by
    refine (hcpu.eqOutside t.written).trans ?_
    split
    · exact t.eqOutside_writeBack addr cpu
    · exact .refl _ cpu
  obtain ⟨m', calls, hstack', hcpu', henv', hleads⟩ : ∃ m' calls,
      m'.stack = ready.stack ∧ m'.cpu.EqOutside (.pc :: t.written) ready.cpu ∧
      m'.env = env.faulted bus place fault ∧
      Code.Leads link none (transferEach (if t.load then helpers.load else helpers.store) 0
        t.list.toList) ready calls (some faultLabel) m' := by
    cases hload : t.load with
    | true =>
        rw [requests_of_load hload addr] at h
        obtain ⟨m', calls, hstack', hcpu', henv', hleads⟩ := leads_transferEach_load_of_error
          hlinked 0 hstack henv h hplace
        have hsub : t.list.toList ⊆ .pc :: t.written := by
          intro r hr
          simp [MultiTransfer.written, hload, hr]
        exact ⟨m', calls, hstack', hcpu'.mono hsub, henv', hleads⟩
    | false =>
        rw [hload, if_neg Bool.false_ne_true] at hcpu
        rw [requests_of_store hload addr] at h
        obtain ⟨m', calls, hstack', hcpu', henv', hleads⟩ := leads_transferEach_store_of_error
          hlinked 0 hstack (reg_eq_readAt hlist hcpu addr) henv h hplace
        exact ⟨m', calls, hstack', hcpu' ▸ .refl _ _, henv', hleads⟩
  have hcode := (Code.Leads.ofInstrs hrun (isCall_startCode t)).append
    (hleads.append (.passed (Code.label_notMem_ofInstrs _
      ((if t.writeback && !t.load then updateBase t.rn (t.finalBase 0) else []) ++ reload)) m')
      (Linear.transferEach _ _ _).apart)
    (Linear.ofInstrs _).apart
  rw [← multiTransferBody_eq] at hcode
  exact ⟨m', _, ⟨_, padding, hstack'.trans hstack⟩, hcpu'.trans hready, henv', hcode⟩

end Bodies

end Multi

end ArmEmulator.Block
