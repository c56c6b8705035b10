import ArmEmulator.Proofs.Bus.Routing
import ArmEmulator.Proofs.Guest.Devices

/-!
# Accesses of an instruction

The processor state alone tells what an instruction asks of the bus: which addresses,
in which order, of which width, and which values it stores.  Executing it is serving
these requests one after another and working the answers into the state.  Without a
device that panics all of them are served.

Main results:

- Theorem {lit}`Instruction.exists_execute_eq_mapM`: execution serves the requests of the
  instruction, and does nothing else to the bus.
- Theorem {lit}`Instruction.execute_eq_error_iff_stopsAt`: execution faults where one of the
  requests does.
- Theorem {lit}`Instruction.exists_execute_eq_ok`: an instruction is executed if no device
  panics.
-/

namespace ArmEmulator

open Bus (Request)

variable {ω : Type}

/-! ## Requests -/

namespace Transfer

/-- The width of the access of a single transfer. -/
def width (t : Transfer) : Bus.Width :=
  if t.byte then .byte else .word

/-- What a single transfer asks of the bus. -/
def request (t : Transfer) (addr : Word) (cpu : Cpu) : Request ω :=
  if t.load then .read t.width (t.accessAddress addr cpu)
  else .write t.width (t.accessAddress addr cpu) (cpu.readAt addr t.rd)

end Transfer

namespace Word

/-- The address a number of words behind another one. -/
def next (start : Word) (k : Nat) : Word :=
  start + BitVec.ofNat 32 (4 * k)

variable (start : Word)

@[simp]
theorem next_zero : start.next 0 = start := by
  simp [next]

theorem next_succ (k : Nat) : start.next (k + 1) = (start + 4).next k := by
  rw [next, next, BitVec.add_assoc, Nat.mul_add, Nat.add_comm (4 * k), BitVec.ofNat_add]
  rfl

end Word

/-- One request for each register of a list, at consecutive words. -/
def wordRequests (request : Word → Reg → Request ω) (start : Word) : List Reg → List (Request ω)
  | [] => []
  | r :: rest => request start r :: wordRequests request (start + 4) rest

/-- The requests that load the registers of a list. -/
def loadRequests : Word → List Reg → List (Request ω) :=
  wordRequests fun place _ => .read .word place

/-- The requests that store values for the registers of a list. -/
def storeRequests (value : Reg → Word) : Word → List Reg → List (Request ω) :=
  wordRequests fun place r => .write .word place (value r)

/-- What a multiple transfer asks of the bus. -/
def MultiTransfer.requests (m : MultiTransfer) (addr : Word) (cpu : Cpu) : List (Request ω) :=
  let start := m.startAddress (cpu.readAt addr m.rn)
  if m.load then loadRequests start m.list.toList
  else storeRequests (cpu.readAt addr) start m.list.toList

/-- What an instruction asks of the bus. -/
def Instruction.requests (i : Instruction) (addr : Word) (cpu : Cpu) : List (Request ω) :=
  if i.cond.passes cpu.cpsr then
    match i.op with
    | .transfer t => [t.request addr cpu]
    | .multiTransfer m => m.requests addr cpu
    | .dataProcessing _ | .branch _ | .statusTransfer _ | .coprocessor | .unknown _ => []
  else []

/-- A single transfer makes one access at its address. -/
theorem Transfer.access?_request (t : Transfer) (addr : Word) (cpu : Cpu) :
    (t.request addr cpu : Request ω).access? = some (t.accessAddress addr cpu, t.width) := by
  unfold request
  split <;> rfl

/-- Requests for a list are made at consecutive words. -/
theorem exists_of_mem_wordRequests {make : Word → Reg → Request ω} {start : Word}
    {list : List Reg} {request : Request ω} (h : request ∈ wordRequests make start list) :
    ∃ k < list.length, ∃ r ∈ list, request = make (start.next k) r := by
  induction list generalizing start with
  | nil => cases h
  | cons r list ih =>
      rcases List.mem_cons.1 h with rfl | h
      · exact ⟨0, by simp, r, by simp, by simp⟩
      · obtain ⟨k, hk, s, hs, rfl⟩ := ih h
        exact ⟨k + 1, by simpa using hk, s, List.mem_cons_of_mem r hs, by rw [start.next_succ]⟩

/-- Every request of an instruction is an access. -/
theorem Instruction.exists_access?_of_mem_requests {i : Instruction} {addr : Word} {cpu : Cpu}
    {request : Request ω} (h : request ∈ i.requests addr cpu) :
    ∃ place width, request.access? = some (place, width) := by
  obtain ⟨cond, op⟩ := i
  unfold requests at h
  split at h
  · cases op with
    | transfer t =>
        rw [List.mem_singleton.1 h]
        exact ⟨_, _, t.access?_request addr cpu⟩
    | multiTransfer m =>
        dsimp only [MultiTransfer.requests] at h
        split at h
        · obtain ⟨k, -, r, -, rfl⟩ := exists_of_mem_wordRequests h
          exact ⟨_, _, rfl⟩
        · obtain ⟨k, -, r, -, rfl⟩ := exists_of_mem_wordRequests h
          exact ⟨_, _, rfl⟩
    | dataProcessing | branch | statusTransfer | coprocessor | unknown => cases h
  · cases h

/-! ## Requests that fault -/

namespace Bus

/-- Requests are served one after another up to number {lit}`k`, {lit}`request`, which faults
and leaves the bus {lit}`bus'`. -/
structure StopsAt (requests : List (Request ω)) (bus : Bus ω) (k : Nat) (request : Request ω)
    (fault : Fault) (bus' : Bus ω) : Prop where
  asked : requests[k]? = some request
  refused : ∃ answers between, (requests.take k).mapM Request.perform bus = .ok answers between ∧
    request.perform between = .error fault bus'

section StopsAt

variable {first request : Request ω} {requests : List (Request ω)} {bus bus' : Bus ω} {k : Nat}
  {fault : Fault}

/-- Serving requests faults exactly when one of them does after those before it. -/
theorem mapM_eq_error_iff_stopsAt :
    requests.mapM Request.perform bus = .error fault bus' ↔
      ∃ k request, StopsAt requests bus k request fault bus' := by
  rw [Access.mapM_eq_error_iff]
  constructor
  · rintro ⟨k, request, answers, between, hasked, hserved, hfault⟩
    exact ⟨k, request, hasked, answers, between, hserved, hfault⟩
  · rintro ⟨k, request, hasked, answers, between, hserved, hfault⟩
    exact ⟨k, request, answers, between, hasked, hserved, hfault⟩

/-- The first request faults if it does by itself. -/
theorem stopsAt_zero_iff :
    StopsAt (first :: requests) bus 0 request fault bus' ↔
      first = request ∧ first.perform bus = .error fault bus' := by
  constructor
  · rintro ⟨⟨⟩, answers, between, hserved, hfault⟩
    obtain ⟨-, rfl⟩ := Access.pure_eq_ok_iff.1 hserved
    exact ⟨rfl, hfault⟩
  · rintro ⟨rfl, hfault⟩
    exact ⟨rfl, [], bus, rfl, hfault⟩

/-- A later request faults if it does after the first one was served. -/
theorem stopsAt_succ_iff :
    StopsAt (first :: requests) bus (k + 1) request fault bus' ↔
      ∃ answer between, first.perform bus = .ok answer between ∧
        StopsAt requests between k request fault bus' := by
  constructor
  · rintro ⟨hasked, answers, last, hserved, hfault⟩
    rw [List.take_succ_cons] at hserved
    obtain ⟨answer, between, tail, hfirst, hrest, -⟩ := Access.mapM_cons_eq_ok_iff.1 hserved
    exact ⟨answer, between, hfirst, hasked, tail, last, hrest, hfault⟩
  · rintro ⟨answer, between, hfirst, hasked, answers, last, hserved, hfault⟩
    refine ⟨hasked, answer :: answers, last, ?_, hfault⟩
    rw [List.take_succ_cons]
    exact Access.mapM_cons_eq_ok_iff.2 ⟨answer, between, answers, hfirst, hserved, rfl⟩

/-- A single request faults if it does by itself. -/
theorem stopsAt_singleton_iff :
    StopsAt [first] bus k request fault bus' ↔
      k = 0 ∧ first = request ∧ first.perform bus = .error fault bus' := by
  cases k with
  | zero => simp [stopsAt_zero_iff]
  | succ k =>
      refine iff_of_false ?_ (by simp)
      rintro ⟨hasked, -⟩
      cases hasked

end StopsAt

end Bus

/-! ## Serving the requests -/

theorem Transfer.load_eq_perform (t : Transfer) (addr : Word) :
    (Bus.load t.byte addr : Access (Bus ω) Word) = (Request.read t.width addr).perform := by
  unfold Bus.load Transfer.width
  cases t.byte <;> rfl

theorem Transfer.store_eq_perform (t : Transfer) (addr value : Word) :
    (Bus.store t.byte addr value : Access (Bus ω) Unit) =
      (Request.write t.width addr value).perform >>= fun _ => pure () := by
  unfold Bus.store Transfer.width
  cases t.byte <;> simp [Request.perform]

/-- A list of registers is loaded by its requests. -/
theorem readList_eq_mapM (start : Word) (list : List Reg) :
    (readList start list : Access (Bus ω) (List (Reg × Word))) =
      (loadRequests start list).mapM Request.perform >>= fun values => pure (list.zip values) := by
  induction list generalizing start with
  | nil => rfl
  | cons r list ih =>
      have hrequests : (loadRequests start (r :: list) : List (Request ω)) =
          .read .word start :: loadRequests (start + 4) list := rfl
      rw [hrequests, List.mapM_cons, readList, ih]
      simp only [bind_assoc, pure_bind]
      rfl

/-- A list of registers is stored by its requests. -/
theorem writeList_eq_mapM (value : Reg → Word) (start : Word) (list : List Reg) :
    (writeList value start list : Access (Bus ω) Unit) =
      (storeRequests value start list).mapM Request.perform >>= fun _ => pure () := by
  induction list generalizing start with
  | nil => rfl
  | cons r list ih =>
      have hrequests : (storeRequests value start (r :: list) : List (Request ω)) =
          .write .word start (value r) :: storeRequests value (start + 4) list := rfl
      rw [hrequests, List.mapM_cons, writeList, ih]
      simp only [bind_assoc, pure_bind, Request.perform]

theorem Transfer.exists_execute_eq_perform (t : Transfer) (addr : Word) (cpu : Cpu) :
    ∃ finish : Word → Cpu, (t.execute addr cpu : Access (Bus ω) Cpu) =
      (t.request addr cpu).perform >>= fun answer => pure (finish answer) := by
  unfold request
  cases hload : t.load with
  | true =>
      refine ⟨t.afterLoad addr cpu, ?_⟩
      rw [execute_of_load hload, load_eq_perform]
      rfl
  | false =>
      refine ⟨fun _ => t.afterStore addr cpu, ?_⟩
      rw [execute_of_store hload, store_eq_perform, bind_assoc]
      rfl

/-- A single transfer faults exactly when its access does. -/
theorem Transfer.execute_eq_error_iff {t : Transfer} {addr : Word} {cpu : Cpu} {bus bus' : Bus ω}
    {fault : Fault} :
    t.execute addr cpu bus = .error fault bus' ↔
      (t.request addr cpu).perform bus = .error fault bus' := by
  obtain ⟨finish, hexecute⟩ := t.exists_execute_eq_perform (ω := ω) addr cpu
  rw [hexecute, Access.bind_pure_eq_error_iff]

theorem MultiTransfer.exists_execute_eq_mapM (m : MultiTransfer) (addr : Word) (cpu : Cpu) :
    ∃ finish : List Word → Cpu, (m.execute addr cpu : Access (Bus ω) Cpu) =
      (m.requests addr cpu).mapM Request.perform >>= fun answers => pure (finish answers) := by
  unfold requests execute
  cases m.load with
  | true =>
      refine ⟨fun answers => m.afterLoad addr cpu (m.list.toList.zip answers), ?_⟩
      dsimp only
      rw [if_pos rfl, if_pos rfl, readList_eq_mapM, bind_assoc]
      simp only [pure_bind]
  | false =>
      refine ⟨fun _ => m.proceed addr (m.writeBack addr cpu), ?_⟩
      dsimp only
      rw [if_neg Bool.false_ne_true, if_neg Bool.false_ne_true, writeList_eq_mapM, bind_assoc]
      simp only [pure_bind]

namespace Instruction

/-- Execution serves the requests of the instruction in order, works the answers into the
state, and does nothing else to the bus. -/
theorem exists_execute_eq_mapM (i : Instruction) (addr word : Word) (cpu : Cpu) :
    ∃ finish : List Word → Outcome × Cpu,
      (i.execute addr word cpu : Access (Bus ω) (Outcome × Cpu)) =
        (i.requests addr cpu).mapM Request.perform >>= fun answers => pure (finish answers) := by
  have hnone : ∀ {x : Access (Bus ω) (Outcome × Cpu)} {a}, x = pure a →
      ∃ finish : List Word → Outcome × Cpu,
        x = ([] : List (Request ω)).mapM Request.perform >>= fun answers => pure (finish answers) :=
    fun {x a} h => ⟨fun _ => a, h⟩
  unfold execute requests
  split
  · cases i.op with
    | transfer t =>
        obtain ⟨finish, h⟩ := t.exists_execute_eq_perform (ω := ω) addr cpu
        refine ⟨fun answers => (.executed, finish (answers.headD 0)), ?_⟩
        dsimp only
        rw [h, List.mapM_cons, List.mapM_nil]
        simp only [bind_assoc, pure_bind]
        rfl
    | multiTransfer m =>
        obtain ⟨finish, h⟩ := m.exists_execute_eq_mapM (ω := ω) addr cpu
        refine ⟨fun answers => (.executed, finish answers), ?_⟩
        dsimp only
        rw [h, bind_assoc]
        simp only [pure_bind]
    | dataProcessing d => exact hnone rfl
    | branch b => exact hnone rfl
    | statusTransfer s => exact hnone rfl
    | coprocessor => exact hnone rfl
    | unknown w => exact hnone rfl
  · exact hnone rfl

/-- Execution faults exactly when one of the requests of the instruction does after those
before it were served. -/
theorem execute_eq_error_iff_stopsAt {i : Instruction} {addr word : Word} {cpu : Cpu}
    {bus bus' : Bus ω} {fault : Fault} :
    i.execute addr word cpu bus = .error fault bus' ↔
      ∃ k request, Bus.StopsAt (i.requests addr cpu) bus k request fault bus' := by
  obtain ⟨finish, hexecute⟩ := i.exists_execute_eq_mapM (ω := ω) addr word cpu
  rw [hexecute, Access.bind_pure_eq_error_iff, Bus.mapM_eq_error_iff_stopsAt]

/-- An instruction is executed if no device panics. -/
theorem exists_execute_eq_ok {bus : Bus ω}
    (hquiet : ∀ fault devices, ¬ bus.mmio.Panics fault devices) (i : Instruction)
    (addr word : Word) (cpu : Cpu) :
    ∃ outcome cpu' bus', i.execute addr word cpu bus = .ok (outcome, cpu') bus' := by
  cases h : i.execute addr word cpu bus with
  | ok result bus' => exact ⟨result.1, result.2, bus', rfl⟩
  | error fault bus' => exact absurd (exists_panic_of_execute h) (hquiet fault bus'.devices)

end Instruction

/-- Devices whose every access succeeds do not panic. -/
theorem Dispatcher.not_panics_of_succeeds {mmio : Dispatcher ω}
    (hmmio : ∀ addr region, mmio.find? addr = some region → region.handler.Succeeds)
    (fault : Fault) (devices : ω) : ¬ mmio.Panics fault devices := by
  rintro ⟨addr, region, before, hfind, hread | ⟨value, hwrite⟩⟩
  · obtain ⟨value, after, hok⟩ := (hmmio addr region hfind).read addr before
    exact nomatch hok.symm.trans hread
  · obtain ⟨after, hok⟩ := (hmmio addr region hfind).write addr value before
    exact nomatch hok.symm.trans hwrite

end ArmEmulator
