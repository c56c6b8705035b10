import ArmEmulator.Proofs.Guest.Outcomes

/-!
# What an instruction leaves alone

An instruction changes the registers that it names, the bits of a status register that it
is for, and the bytes of memory at the addresses of its stores.  This file states what
each operation may change, one definition for each part of the machine, and shows that
execution changes nothing else, also where the program counter is the base, a listed or a
written register, and where a list is empty.

Main results:

- Theorem {lit}`Bus.footprint_of_mapM`: requests change memory at the addresses of their
  writes only.
- Theorem {lit}`Instruction.changes_of_execute`: what an operation changes in the
  processor.
- Theorem {lit}`Instruction.execute_footprint`: what a decoded instruction changes in the
  processor and in memory.
-/

namespace ArmEmulator

variable {ω : Type}

/-! ## Memory -/

namespace Word

/-- Whether an address is one of the {lit}`n` that start at a word. -/
def Spans (start : Word) (n place : Nat) : Prop :=
  start.toNat ≤ place ∧ place < start.toNat + n

end Word

namespace Bus

/-- Whether a request writes the byte at an address. -/
def Request.Covers (request : Request ω) (place : Nat) : Prop :=
  match request with
  | write width addr _ => addr.Spans width.count place
  | read .. | register _ | watch _ => False

/-- Only a write that covers a byte of memory stores something there. -/
theorem Request.covers_of_stored? {bus : Bus ω} {request : Request ω} {j : Nat} {b : Byte}
    (h : request.stored? (bus.placeOf? request) j = some b) :
    request.Covers (bus.ram.base.toNat + j) := by
  cases request with
  | write width addr value =>
      change stored? (write width addr value) (some (bus.place addr width)) j = some b at h
      cases hplace : bus.place addr width with
      | device region => simp [stored?, hplace] at h
      | nowhere => simp [stored?, hplace] at h
      | memory i =>
          obtain ⟨-, hoffset⟩ := place_eq_memory_iff.1 hplace
          obtain ⟨haddr, -⟩ := Ram.offset?_eq_some_iff.1 hoffset
          rw [hplace] at h
          obtain ⟨hj, -⟩ := Option.ite_none_right_eq_some.1 h
          rw [Covers, Word.Spans, haddr]
          omega
  | read | register | watch => simp [stored?] at h

/-- A request changes memory at the addresses it writes. -/
theorem footprint_of_perform {bus after : Bus ω} {request : Request ω} {answer : Word}
    (h : request.perform bus = .ok answer after) :
    after.ram.window = bus.ram.window ∧
      ∀ j, ¬ request.Covers (bus.ram.base.toNat + j) → after.ram.byteAt j = bus.ram.byteAt j := by
  have heffect := effect_of_perform h
  obtain ⟨hbase, hsize⟩ := heffect.window_eq
  refine ⟨by simp only [Ram.window, hbase, hsize], fun j hj => ?_⟩
  rw [heffect.byteAt_eq]
  cases hstored : request.stored? (bus.placeOf? request) j with
  | none => rfl
  | some b => exact absurd (Request.covers_of_stored? hstored) hj

/-- Requests change memory at the addresses that one of them writes. -/
theorem footprint_of_mapM {bus after : Bus ω} {requests : List (Request ω)} {answers : List Word}
    (h : requests.mapM Request.perform bus = .ok answers after) :
    after.ram.window = bus.ram.window ∧
      ∀ j, (∀ request ∈ requests, ¬ request.Covers (bus.ram.base.toNat + j)) →
        after.ram.byteAt j = bus.ram.byteAt j := by
  induction requests generalizing bus answers with
  | nil =>
      obtain ⟨-, rfl⟩ := Access.pure_eq_ok_iff.1 h
      exact ⟨rfl, fun _ _ => rfl⟩
  | cons request requests ih =>
      rw [List.mapM_cons] at h
      obtain ⟨answer, between, hfirst, h⟩ := Access.bind_eq_ok_iff.1 h
      obtain ⟨tail, hrest, -⟩ := Access.bind_pure_eq_ok_iff.1 h
      obtain ⟨hwindow, hbytes⟩ := footprint_of_perform hfirst
      obtain ⟨hwindow', hbytes'⟩ := ih hrest
      have hbase : between.ram.base = bus.ram.base := congrArg Prod.fst hwindow
      refine ⟨hwindow'.trans hwindow, fun j hj => ?_⟩
      rw [List.forall_mem_cons] at hj
      rw [hbytes' j (hbase ▸ hj.2), hbytes j hj.1]

end Bus

/-! ## What an operation may change -/

namespace Operation

/-- Whether an operation restores the saved status: data processing other than a
comparison, and a multiple load, into the program counter with the S bit. -/
def restores : Operation → Bool
  | dataProcessing d => !d.op.isTest && d.setFlags && d.rd == .pc
  | multiTransfer m => m.load && m.psr && m.list.has .pc
  | transfer _ | branch _ | statusTransfer _ | coprocessor | unknown _ => false

/-- Whether an operation that does not restore the saved status may change a bit of the
current one: data processing with the S bit may change the four flags, and a write of the
status the bytes that its fields select. -/
def setsStatus (op : Operation) (k : Nat) : Bool :=
  match op with
  | dataProcessing d => d.setFlags && decide (28 ≤ k)
  | statusTransfer (.write false fields _) => fields.getLsbD (k / 8)
  | _ => false

/-- Whether an operation may change a bit of the saved status. -/
def setsSaved (op : Operation) (k : Nat) : Bool :=
  match op with
  | statusTransfer (.write true fields _) => fields.getLsbD (k / 8)
  | _ => false

/-- Whether an operation stores to an address. -/
def StoresAt (op : Operation) (addr : Word) (cpu : Cpu) (place : Nat) : Prop :=
  match op with
  | transfer t => t.load = false ∧ (t.accessAddress addr cpu).Spans t.width.count place
  | multiTransfer m => m.load = false ∧
    ∃ k < m.list.count, ((m.startAddress (cpu.readAt addr m.rn)).next k).Spans 4 place
  | dataProcessing _ | branch _ | statusTransfer _ | coprocessor | unknown _ => False

/-- Whether an operation makes accesses. -/
def accesses : Operation → Bool
  | transfer _ | multiTransfer _ => true
  | dataProcessing _ | branch _ | statusTransfer _ | coprocessor | unknown _ => false

/-- What an operation does to the processor: beside the program counter it changes only the
registers that it writes, and only the bits of a status register that it sets or
restores. -/
structure Changes (op : Operation) (cpu cpu' : Cpu) : Prop where
  reg : ∀ r, r ≠ .pc → r ∉ op.written → cpu'.reg r = cpu.reg r
  restored : op.restores = true → cpu'.cpsr = cpu.spsr
  cpsr : op.restores = false →
    ∀ k < 32, op.setsStatus k = false → cpu'.cpsr.getLsbD k = cpu.cpsr.getLsbD k
  spsr : ∀ k < 32, op.setsSaved k = false → cpu'.spsr.getLsbD k = cpu.spsr.getLsbD k

/-- An operation that changes registers only. -/
theorem Changes.of_eqOutside {op : Operation} {cpu cpu' : Cpu} (hrestores : op.restores = false)
    (h : cpu'.EqOutside (.pc :: op.written) cpu) : op.Changes cpu cpu' where
  reg r hpc hr := h.reg r (by simp [hpc, hr])
  restored hrestored := by simp [hrestores] at hrestored
  cpsr _ k _ _ := by rw [h.cpsr]
  spsr k _ _ := by rw [h.spsr]

/-- An operation that restores the saved status and moves the program counter. -/
theorem Changes.of_restoreStatus {op : Operation} {cpu cpu' : Cpu} (hrestores : op.restores = true)
    (h : cpu'.EqOutside (.pc :: op.written) cpu) (target : Word) :
    op.Changes cpu (cpu'.restoreStatus.jump target) where
  reg r hpc hr := (Cpu.reg_setPc_of_ne _ hpc _).trans (h.reg r (by simp [hpc, hr]))
  restored _ := h.spsr
  cpsr hkept := by simp [hrestores] at hkept
  spsr k _ _ := congrArg (·.getLsbD k) h.spsr

end Operation

/-! ## The operations -/

/-- A value is found for the registers that have one. -/
theorem isSome_lookup_iff {values : List (Reg × Word)} {r : Reg} :
    (values.lookup r).isSome ↔ r ∈ values.map Prod.fst := by
  constructor
  · intro hsome
    refine Decidable.byContradiction fun hr => ?_
    simp [lookup_eq_none_of_notMem hr] at hsome
  · intro hr
    obtain ⟨entry, hentry, rfl⟩ := List.mem_map.1 hr
    rw [← Bool.not_eq_false, Option.isSome_eq_false_iff, Option.isNone_iff_eq_none]
    intro hnone
    simpa using List.lookup_eq_none_iff.1 hnone entry hentry

/-- The mask of fields selects whole bytes. -/
theorem StatusTransfer.getLsbD_fieldMask (fields : BitVec 4) {k : Nat} (hk : k < 32) :
    (fieldMask fields).getLsbD k = fields.getLsbD (k / 8) := by
  have hall : ∀ (fields : BitVec 4) (i : Fin 32),
      (fieldMask fields).getLsbD i = fields.getLsbD (i / 8) := by decide
  exact hall fields ⟨k, hk⟩

/-- A write of a status register keeps the bytes that its fields do not select. -/
theorem StatusTransfer.getLsbD_merge {fields : BitVec 4} {psr value : Word} {k : Nat} (hk : k < 32)
    (hfield : fields.getLsbD (k / 8) = false) :
    (psr &&& ~~~fieldMask fields ||| value &&& fieldMask fields).getLsbD k = psr.getLsbD k := by
  rw [BitVec.getLsbD_or, BitVec.getLsbD_and, BitVec.getLsbD_and, BitVec.getLsbD_not,
    getLsbD_fieldMask fields hk, hfield]
  simp [hk]

/-- A further write of one of the registers is not seen. -/
theorem Cpu.EqOutside.setReg_of {changed : List Reg} {cpu cpu' : Cpu} {r : Reg}
    (h : cpu'.EqOutside changed cpu) (hr : r ∈ changed) (value : Word) :
    (cpu'.setReg r value).EqOutside changed cpu :=
  (Cpu.EqOutside.setReg hr cpu' value).trans h

/-- Going on at the next word, or not, is not seen where the program counter may change. -/
theorem Cpu.EqOutside.proceed {changed : List Reg} {cpu cpu' : Cpu}
    (h : cpu'.EqOutside (.pc :: changed) cpu) (stays : Bool) (addr : Word) :
    (if stays then cpu' else cpu'.advance addr).EqOutside (.pc :: changed) cpu := by
  split
  · exact h
  · exact h.setReg_of (List.mem_cons_self ..) _

section Operations

variable {addr : Word} {cpu cpu' : Cpu}

/-- A supported data-processing operation; comparisons must set the flags. -/
theorem DataProcessing.changes {d : DataProcessing} (htest : d.op.isTest = true → d.setFlags = true)
    (h : d.execute? addr cpu = some cpu') :
    (Operation.dataProcessing d).Changes cpu cpu' := by
  have hop : (Operation.dataProcessing d).unsupported = false := by
    rw [← Bool.not_eq_true]
    intro hunsupported
    cases h.symm.trans (execute?_eq_none_iff.2 hunsupported)
  obtain ⟨hcarry, hoperand⟩ := Bool.or_eq_false_iff.1 hop
  obtain ⟨b, carry, hb⟩ := Operand.exists_moved hoperand addr cpu
  obtain ⟨r, after, -, hexecute, hupdates⟩ := exists_updates hcarry hb
  cases h.symm.trans hexecute
  refine ⟨?_, ?_, ?_, ?_⟩
  · intro s hpc hs
    refine hupdates.kept s hpc ?_
    by_cases hd : d.op.isTest = true
    · exact .inl hd
    · exact .inr (by simpa [Operation.written, hd] using hs)
  · intro hrestores
    simp only [Operation.restores, Bool.and_eq_true, Bool.not_eq_true', beq_iff_eq] at hrestores
    exact hupdates.restored hrestores.1.1 hrestores.2 hrestores.1.2
  · intro hrestores k hk hsets
    cases hflags : d.setFlags with
    | false =>
        rw [hupdates.cpsr_kept (by simpa [hflags] using htest) hflags]
    | true =>
        have hlow : k < 28 := by simpa [Operation.setsStatus, hflags] using hsets
        refine (hupdates.described ?_).rest k hlow
        simp only [Operation.restores, hflags, Bool.and_true, Bool.and_eq_false_iff,
          Bool.not_eq_false', beq_eq_false_iff_ne] at hrestores
        simpa [hflags] using hrestores
  · intro k _ _
    rw [hupdates.spsr_kept]

/-- A single transfer writes its register and its base. -/
theorem Transfer.changes {t : Transfer} {bus bus' : Bus ω}
    (h : t.execute addr cpu bus = .ok cpu' bus') : (Operation.transfer t).Changes cpu cpu' := by
  refine .of_eqOutside rfl ?_
  have hbase := t.eqOutside_writeBack addr cpu
  cases hload : t.load with
  | false =>
      rw [execute_of_store hload] at h
      obtain ⟨-, -, rfl⟩ := Access.bind_pure_eq_ok_iff.1 h
      exact hbase.proceed _ addr
  | true =>
      rw [execute_of_load hload] at h
      obtain ⟨value, -, rfl⟩ := Access.bind_pure_eq_ok_iff.1 h
      have hrd : t.rd ∈ Reg.pc :: t.written := by simp [written, hload]
      unfold afterLoad
      dsimp only
      split
      · exact hbase.setReg_of (List.mem_cons_self ..) _
      · exact (hbase.setReg_of hrd _).proceed _ addr

/-- Setting listed registers is not seen. -/
theorem Cpu.EqOutside.setList {changed : List Reg} {values : List (Reg × Word)}
    (h : cpu'.EqOutside changed cpu) (hvalues : ∀ r ∈ values.map Prod.fst, r ∈ changed) :
    (cpu'.setList values).EqOutside changed cpu := by
  induction values generalizing cpu' with
  | nil => exact h
  | cons entry values ih =>
      rw [List.map_cons, List.forall_mem_cons] at hvalues
      refine ih ?_ hvalues.2
      dsimp only
      split
      · exact h
      · exact h.setReg_of hvalues.1 _

/-- A multiple transfer writes the registers it loads and its base. -/
theorem MultiTransfer.changes {m : MultiTransfer} {bus bus' : Bus ω}
    (h : m.execute addr cpu bus = .ok cpu' bus') :
    (Operation.multiTransfer m).Changes cpu cpu' := by
  have hbase := m.eqOutside_writeBack addr cpu
  unfold execute at h
  cases hload : m.load with
  | false =>
      rw [hload] at h
      obtain ⟨-, -, rfl⟩ := Access.bind_pure_eq_ok_iff.1 h
      exact .of_eqOutside (by simp [Operation.restores, hload]) (hbase.proceed _ addr)
  | true =>
      rw [hload] at h
      obtain ⟨values, hread, rfl⟩ := Access.bind_pure_eq_ok_iff.1 h
      have hkeys := keys_of_readList hread
      have hloaded : ((m.writeBack addr cpu).setList values).EqOutside
          (.pc :: (Operation.multiTransfer m).written) cpu := by
        refine hbase.setList fun r hr => ?_
        rw [hkeys] at hr
        simp [written, hload, RegList.mem_toList.1 hr]
      have hlisted : (values.lookup .pc).isSome = m.list.has .pc := by
        rw [Bool.eq_iff_iff, ← RegList.mem_toList, ← hkeys]
        exact isSome_lookup_iff
      rw [afterLoad]
      cases hlookup : values.lookup .pc with
      | none =>
          rw [hlookup] at hlisted
          exact .of_eqOutside (by simp [Operation.restores, ← hlisted]) (hloaded.proceed _ addr)
      | some target =>
          rw [hlookup] at hlisted
          cases hpsr : m.psr with
          | false =>
              exact .of_eqOutside (by simp [Operation.restores, hpsr])
                (hloaded.setReg_of (List.mem_cons_self ..) _)
          | true =>
              exact .of_restoreStatus (by simp [Operation.restores, hload, hpsr, ← hlisted])
                hloaded _

/-- A branch writes the link register if it links. -/
theorem Branch.changes (b : Branch) (addr : Word) (cpu : Cpu) :
    (Operation.branch b).Changes cpu (b.execute addr cpu).2 := by
  refine .of_eqOutside rfl ?_
  have hpc : Reg.pc ∈ Reg.pc :: (Operation.branch b).written := List.mem_cons_self ..
  unfold execute
  dsimp only
  split
  · rename_i hlink
    have hlr : Reg.lr ∈ Reg.pc :: (Operation.branch b).written := by
      simp [Operation.written, hlink]
    exact (Cpu.EqOutside.setReg hlr cpu _).setReg_of hpc _
  · exact (Cpu.EqOutside.refl _ cpu).setReg_of hpc _

/-- A status transfer writes its register, or the selected bytes of a status register. -/
theorem StatusTransfer.changes {s : StatusTransfer} (h : s.execute? addr cpu = some cpu') :
    (Operation.statusTransfer s).Changes cpu cpu' := by
  cases s with
  | read rd spsr =>
      have hpc : Reg.pc ∈ Reg.pc :: (Operation.statusTransfer (.read rd spsr)).written :=
        List.mem_cons_self ..
      have hrd : rd ∈ Reg.pc :: (Operation.statusTransfer (.read rd spsr)).written := by
        simp [Operation.written]
      refine .of_eqOutside rfl ?_
      obtain rfl := Option.some.inj h
      split
      · exact Cpu.EqOutside.setReg hpc cpu _
      · exact (Cpu.EqOutside.setReg hrd cpu _).setReg_of hpc _
  | write spsr fields operand =>
      obtain ⟨⟨value, carry⟩, -, h⟩ := Option.bind_eq_some_iff.1 h
      obtain rfl := Option.some.inj h
      refine ⟨fun r hr _ => ?_, nofun, fun _ k hk hsets => ?_, fun k hk hsets => ?_⟩
      · rw [Cpu.advance, Cpu.reg_setPc_of_ne _ hr]
        split <;> rfl
      · cases spsr with
        | true => rfl
        | false => exact getLsbD_merge hk hsets
      · cases spsr with
        | true => exact getLsbD_merge hk hsets
        | false => rfl

end Operations

/-! ## Decoded comparisons -/

namespace Operation

/-- A comparison among data-processing words sets the flags; without the S bit the word is a
status transfer. -/
theorem setFlags_of_ofDataWord {w : Word} {operand : Operand} {d : DataProcessing}
    (h : ofDataWord w operand = .dataProcessing d) (htest : d.op.isTest = true) :
    d.setFlags = true := by
  unfold ofDataWord at h
  dsimp only at h
  split at h
  · unfold ofStatusWord at h
    dsimp only at h
    split at h
    · cases h
    · split at h <;> cases h
  · rename_i hcompare
    cases h
    simpa [htest] using hcompare

/-- A decoded comparison sets the flags. -/
theorem setFlags_of_decode {w : Word} {d : DataProcessing} (h : decode w = .dataProcessing d)
    (htest : d.op.isTest = true) : d.setFlags = true := by
  unfold decode at h
  split at h
  case h_1 =>
    unfold ofRegisterWord at h
    split at h
    · cases h
    · split at h
      · cases h
      · split at h
        · exact setFlags_of_ofDataWord h htest
        · exact setFlags_of_ofDataWord h htest
  case h_2 => exact setFlags_of_ofDataWord h htest
  case h_3 => cases h
  case h_4 => split at h <;> cases h
  case h_5 => cases h
  case h_6 => cases h
  case h_7 => cases h
  case h_8 => split at h <;> cases h

end Operation

/-! ## Instructions -/

namespace Instruction

variable {i : Instruction} {addr word : Word} {cpu cpu' : Cpu} {bus bus' : Bus ω}
  {outcome : Outcome}

/-- What an instruction changes, from the processor and the bus before it to those behind it. -/
structure Footprint (i : Instruction) (addr : Word) (cpu : Cpu) (bus : Bus ω) (cpu' : Cpu)
    (bus' : Bus ω) : Prop where
  /-- Where the condition fails or the operation is not supported nothing changes. -/
  idle : i.cond.passes cpu.cpsr = false ∨ i.op.unsupported = true →
    cpu'.EqOffPc cpu ∧ bus' = bus
  /-- Elsewhere the processor changes as the operation tells. -/
  changes : i.cond.passes cpu.cpsr = true → i.op.unsupported = false → i.op.Changes cpu cpu'
  /-- Only transfers change anything beside the processor. -/
  bus_eq : i.op.accesses = false → bus' = bus
  window : bus'.ram.window = bus.ram.window
  /-- Memory changes at the addresses of stores. -/
  ram : ∀ j, ¬ i.op.StoresAt addr cpu (bus.ram.base.toNat + j) →
    bus'.ram.byteAt j = bus.ram.byteAt j

/-- A supported instruction whose condition holds does what its operation does. -/
theorem changes_of_execute (hpasses : i.cond.passes cpu.cpsr = true)
    (hop : i.op.unsupported = false)
    (htest : ∀ {d}, i.op = .dataProcessing d → d.op.isTest = true → d.setFlags = true)
    (hoperand : ∀ {spsr fields operand}, i.op = .statusTransfer (.write spsr fields operand) →
      operand.isShiftedByReg = false)
    (h : i.execute addr word cpu bus = .ok (outcome, cpu') bus') : i.op.Changes cpu cpu' := by
  obtain ⟨cond, op⟩ := i
  rw [execute, if_pos hpasses] at h
  cases op with
  | dataProcessing d =>
      cases hd : d.execute? addr cpu with
      | none => cases hop.symm.trans (DataProcessing.execute?_eq_none_iff.1 hd)
      | some after =>
          obtain ⟨heq, -⟩ := Access.pure_eq_ok_iff.1 h
          rw [hd] at heq
          cases heq
          exact DataProcessing.changes (htest rfl) hd
  | transfer t =>
      obtain ⟨after, ht, heq⟩ := Access.bind_pure_eq_ok_iff.1 h
      cases heq
      exact Transfer.changes ht
  | multiTransfer m =>
      obtain ⟨after, hm, heq⟩ := Access.bind_pure_eq_ok_iff.1 h
      cases heq
      exact MultiTransfer.changes hm
  | branch b =>
      obtain ⟨heq, -⟩ := Access.pure_eq_ok_iff.1 h
      have hbranch := b.changes addr cpu
      rw [heq] at hbranch
      exact hbranch
  | statusTransfer s =>
      obtain ⟨after, hs⟩ := StatusTransfer.exists_execute? (s := s)
        (fun heq => hoperand (congrArg Operation.statusTransfer heq)) addr cpu
      obtain ⟨heq, -⟩ := Access.pure_eq_ok_iff.1 h
      rw [hs] at heq
      cases heq
      exact StatusTransfer.changes hs
  | coprocessor =>
      obtain ⟨heq, -⟩ := Access.pure_eq_ok_iff.1 h
      cases heq
      exact .of_eqOutside rfl ((Cpu.EqOffPc.setPc cpu _).eqOutside _)
  | unknown w => cases hop

/-- The writes of an instruction are its stores. -/
theorem storesAt_of_covers {request : Bus.Request ω} {place : Nat}
    (hrequest : request ∈ i.requests addr cpu) (hcovers : request.Covers place) :
    i.op.StoresAt addr cpu place := by
  obtain ⟨cond, op⟩ := i
  unfold requests at hrequest
  split at hrequest
  · cases op with
    | transfer t =>
        obtain rfl := List.mem_singleton.1 hrequest
        unfold Transfer.request at hcovers
        cases hload : t.load with
        | true => simp [hload, Bus.Request.Covers] at hcovers
        | false =>
            rw [hload] at hcovers
            exact ⟨hload, hcovers⟩
    | multiTransfer m =>
        unfold MultiTransfer.requests at hrequest
        dsimp only at hrequest
        cases hload : m.load with
        | true =>
            rw [hload] at hrequest
            obtain ⟨k, -, r, -, rfl⟩ := exists_of_mem_wordRequests hrequest
            exact hcovers.elim
        | false =>
            rw [hload] at hrequest
            obtain ⟨k, hk, r, -, rfl⟩ := exists_of_mem_wordRequests hrequest
            exact ⟨hload, k, hk, hcovers⟩
    | dataProcessing | branch | statusTransfer | coprocessor | unknown => cases hrequest
  · cases hrequest

/-- An instruction changes memory at the addresses of its stores, and without accesses nothing
beside the processor. -/
theorem bus_of_execute (h : i.execute addr word cpu bus = .ok (outcome, cpu') bus') :
    bus'.ram.window = bus.ram.window ∧
      (∀ j, ¬ i.op.StoresAt addr cpu (bus.ram.base.toNat + j) →
        bus'.ram.byteAt j = bus.ram.byteAt j) ∧
      (i.op.accesses = false → bus' = bus) := by
  obtain ⟨finish, hexecute⟩ := i.exists_execute_eq_mapM (ω := ω) addr word cpu
  rw [hexecute] at h
  obtain ⟨answers, hserved, -⟩ := Access.bind_pure_eq_ok_iff.1 h
  obtain ⟨hwindow, hbytes⟩ := Bus.footprint_of_mapM hserved
  refine ⟨hwindow, fun j hj => ?_, fun haccesses => ?_⟩
  · exact hbytes j fun request hrequest hcovers => hj (storesAt_of_covers hrequest hcovers)
  · have hnone : (i.requests addr cpu : List (Bus.Request ω)) = [] := by
      obtain ⟨cond, op⟩ := i
      unfold requests
      split
      · cases op <;> first | rfl | cases haccesses
      · rfl
    rw [hnone] at hserved
    exact (Access.pure_eq_ok_iff.1 hserved).2.symm

/-- Executing a decoded instruction changes what its operation is for and nothing else: beside
the program counter the registers that it writes, the bits of the status registers that it
sets or restores, and the bytes at the addresses of its stores. -/
theorem execute_footprint (hquiet : ∀ fault devices, ¬ bus.mmio.Panics fault devices)
    (word addr : Word) (cpu : Cpu) :
    ∃ outcome cpu' bus', (decode word).execute addr word cpu bus = .ok (outcome, cpu') bus' ∧
      (decode word).Footprint addr cpu bus cpu' bus' := by
  obtain ⟨outcome, cpu', bus', h⟩ := exists_execute_eq_ok hquiet (decode word) addr word cpu
  obtain ⟨hwindow, hbytes, hbus⟩ := bus_of_execute h
  refine ⟨outcome, cpu', bus', h, ?_, ?_, hbus, hwindow, hbytes⟩
  · intro hidle
    by_cases hpasses : (decode word).cond.passes cpu.cpsr = true
    · have hop := hidle.resolve_left (by simp [hpasses])
      cases h.symm.trans (execute_of_unsupported hpasses hop addr word bus)
      exact ⟨.setPc cpu _, rfl⟩
    · cases h.symm.trans (execute_of_fails (by simpa using hpasses) addr word bus)
      exact ⟨.setPc cpu _, rfl⟩
  · intro hpasses hop
    exact changes_of_execute hpasses hop Operation.setFlags_of_decode
      Operation.isShiftedByReg_of_decode h

/-- A return from an exception that loads its own base. -/
theorem execute_footprint_ldm :
    let bus := Bus.ofRam (.zeroed 0 0x100) ()
    let cpu := { (Cpu.initial.setReg .r1 5) with spsr := 0x10 }
    (∀ fault devices, ¬ bus.mmio.Panics fault devices) ∧
      ∃ outcome cpu' bus', (decode 0xe8f08001).execute 0x8000 0xe8f08001 cpu bus =
          .ok (outcome, cpu') bus' ∧
        cpu'.cpsr = 0x10 ∧ cpu'.reg .r1 = 5 ∧ ∀ j, bus'.ram.byteAt j = bus.ram.byteAt j := by
  intro bus cpu
  have hquiet : ∀ fault devices, ¬ bus.mmio.Panics fault devices := by
    rintro fault devices ⟨addr, region, before, hfind, -⟩
    cases hfind
  obtain ⟨outcome, cpu', bus', hexecute, hfootprint⟩ :=
    execute_footprint hquiet 0xe8f08001 0x8000 cpu
  have hchanges := hfootprint.changes (by decide) (by decide)
  refine ⟨hquiet, outcome, cpu', bus', hexecute, hchanges.restored (by decide),
    hchanges.reg .r1 (by decide) (by decide), fun j => hfootprint.ram j ?_⟩
  rintro ⟨hstore, -⟩
  cases hstore

end Instruction

end ArmEmulator
