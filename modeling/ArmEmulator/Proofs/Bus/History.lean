import ArmEmulator.Proofs.Bus.Registration
import ArmEmulator.Proofs.Bus.Routing

/-!
# Histories of a bus

What a bus answers follows from the requests it has served, without its state: the
registrations decide where each access goes, and a byte of memory is the one that the
last write to memory put there.

Main results:

- Theorem {lit}`Bus.Recorded.step`: one request is served as the requests before it
  say, and becomes part of them.
- Theorem {lit}`Bus.history_routed`: so is every request of a history.
-/

namespace ArmEmulator

/-- An address lies in the window. -/
def Ram.Holds (ram : Ram) (a : Nat) : Prop :=
  ram.base.toNat ≤ a ∧ a < ram.endAddress

/-- An access has an offset exactly when each of its bytes lies in the window. -/
theorem Ram.offset?_eq_some_iff_holds {ram : Ram} {addr : Word} {width i : Nat}
    (hwidth : 0 < width) :
    ram.offset? addr width = some i ↔
      ram.base.toNat + i = addr.toNat ∧ ∀ k < width, ram.Holds (addr.toNat + k) := by
  rw [offset?_eq_some_iff]
  constructor
  · rintro ⟨haddr, hfits⟩
    refine ⟨haddr.symm, fun k hk => ⟨?_, ?_⟩⟩ <;> unfold endAddress at * <;> omega
  · rintro ⟨haddr, hbytes⟩
    have hlast := (hbytes (width - 1) (by omega)).2
    unfold endAddress at hlast
    omega

/-- An access has no offset exactly when some byte of it lies outside the window. -/
theorem Ram.offset?_eq_none_iff_not_holds {ram : Ram} {addr : Word} {width : Nat}
    (hwidth : 0 < width) :
    ram.offset? addr width = none ↔ ∃ k < width, ¬ram.Holds (addr.toNat + k) := by
  constructor
  · intro hnone
    by_cases hbase : ram.base.toNat ≤ addr.toNat
    · refine ⟨width - 1, by omega, fun hlast => ?_⟩
      have hsome : ram.offset? addr width = some (addr.toNat - ram.base.toNat) := by
        rw [offset?_eq_some_iff]
        have := hlast.2
        unfold endAddress at this
        omega
      rw [hnone] at hsome
      cases hsome
    · exact ⟨0, hwidth, fun hfirst => hbase hfirst.1⟩
  · rintro ⟨k, hk, houtside⟩
    cases hoffset : ram.offset? addr width with
    | none => rfl
    | some i => exact absurd (((offset?_eq_some_iff_holds hwidth).1 hoffset).2 k hk) houtside

namespace Bus

variable {ω : Type}

/-! ## Where an access has to go -/

section

variable (registered : List (Region ω)) (ram : Ram)

/-- No registered region contains an address. -/
def Unclaimed (addr : Word) : Prop :=
  ∀ region ∈ registered, region.range.contains addr = false

/-- Where an access has to go: to the region that has to answer its address, else to its
offset in the window if the window holds all its bytes, else nowhere. -/
def Leads (addr : Word) (width : Width) : Place ω → Prop
  | .device region => Dispatcher.Chosen registered addr region
  | .memory i =>
    Unclaimed registered addr ∧
      ram.base.toNat + i = addr.toNat ∧ ∀ k < width.count, ram.Holds (addr.toNat + k)
  | .nowhere =>
    Unclaimed registered addr ∧ ∃ k < width.count, ¬ram.Holds (addr.toNat + k)

end

/-- An access goes where it has to go, and to no other place. -/
theorem leads_iff {bus : Bus ω} {registered : List (Region ω)} {ram : Ram}
    (hregisters : bus.mmio.Registers registered) (hbase : bus.ram.base = ram.base)
    (hsize : bus.ram.size = ram.size) (addr : Word) (width : Width) (place : Place ω) :
    Leads registered ram addr width place ↔ bus.place addr width = place := by
  have hoffset : bus.ram.offset? addr width.count = ram.offset? addr width.count := by
    rw [Ram.offset?, Ram.offset?, hbase, hsize]
  have hwidth : 0 < width.count := by cases width <;> decide
  cases place with
  | device region => rw [place_eq_device_iff, hregisters.find?_eq_some_iff, Leads]
  | memory i =>
    rw [place_eq_memory_iff, hregisters.find?_eq_none_iff, hoffset,
      Ram.offset?_eq_some_iff_holds hwidth, Leads, Unclaimed]
  | nowhere =>
    rw [place_eq_nowhere_iff, hregisters.find?_eq_none_iff, hoffset, Leads, Unclaimed,
      Ram.offset?_eq_none_iff_not_holds hwidth]

/-! ## Histories -/

/-- A request that was served, with the bus before it, its answer and the bus behind
it. -/
structure Event (ω : Type) where
  before : Bus ω
  request : Request ω
  answer : Word
  after : Bus ω

namespace Event

/-- Where the request went, if it is an access. -/
def place? (event : Event ω) : Option (Place ω) :=
  event.before.placeOf? event.request

/-- Whether the request is an access that went nowhere. -/
def isLost (event : Event ω) : Bool :=
  event.place?.any Place.isNowhere

/-- The byte that the request left at an offset in memory, if it wrote there. -/
def stored? (event : Event ω) (j : Nat) : Option Byte :=
  event.request.stored? event.place? j

end Event

/-- Serves requests one after another; gives what happened, oldest first. -/
def history : List (Request ω) → Access (Bus ω) (List (Event ω))
  | [] => pure []
  | request :: rest => do
    let before ← get
    let answer ← request.perform
    let after ← get
    let events ← history rest
    return ⟨before, request, answer, after⟩ :: events

/-- The devices that were registered, in their order. -/
def registered (past : List (Event ω)) : List (Region ω) :=
  past.filterMap (·.request.region?)

/-- The byte that the last write to an offset in memory left there, or the one it had
at first. -/
def latest (ram : Ram) (past : List (Event ω)) (j : Nat) : Byte :=
  (past.reverse.findSome? (·.stored? j)).getD (ram.byteAt j)

/-- A request was served as the requests before it say, with {lit}`ram` the memory at
first. -/
structure Event.Routed (ram : Ram) (past : List (Event ω)) (event : Event ω) : Prop where
  place : ∀ {addr width}, event.request.access? = some (addr, width) →
    ∃ place, event.place? = some place ∧
      ∀ place', Leads (registered past) ram addr width place' ↔ place' = place
  effect : Effect event.before event.request event.place? event.answer event.after
  memory : ∀ j, event.after.ram.byteAt j = (event.stored? j).getD (event.before.ram.byteAt j)
  read : ∀ {width addr i}, event.request = .read width addr → event.place? = some (.memory i) →
    ∀ k < width.count, event.answer.byte k = latest ram past (i + k)
  unmapped : event.after.unmapped = (past ++ [event]).countP Event.isLost

section

variable {ram : Ram} {past : List (Event ω)} {event : Event ω}

theorem registered_append :
    registered (past ++ [event]) = registered past ++ event.request.region?.toList := by
  unfold registered
  cases h : event.request.region? <;> simp [h]

theorem latest_append (j : Nat) :
    latest ram (past ++ [event]) j = (event.stored? j).getD (latest ram past j) := by
  unfold latest
  cases h : event.stored? j <;> simp [h]

end

/-- The state of a bus that has served the requests of a history, with {lit}`ram` the
memory at first. -/
structure Recorded (ram : Ram) (past : List (Event ω)) (bus : Bus ω) : Prop where
  registers : bus.mmio.Registers (registered past)
  succeeds : ∀ region ∈ registered past, region.handler.Succeeds
  base : bus.ram.base = ram.base
  size : bus.ram.size = ram.size
  bytes : ∀ j, bus.ram.byteAt j = latest ram past j
  unmapped : bus.unmapped = past.countP Event.isLost

theorem recorded_ofRam (ram : Ram) (devices : ω) : (ofRam ram devices).Recorded ram [] where
  registers := Dispatcher.registers_empty
  succeeds _ h := by cases h
  base := rfl
  size := rfl
  bytes _ := rfl
  unmapped := rfl

namespace Recorded

variable {ram : Ram} {past : List (Event ω)} {bus : Bus ω}

theorem succeeds_of_find? (h : bus.Recorded ram past) {addr : Word} {region : Region ω}
    (hfind : bus.mmio.find? addr = some region) : region.handler.Succeeds :=
  h.succeeds region (h.registers.chosen hfind).mem

section

variable {request : Request ω} {answer : Word} {after : Bus ω}

theorem unmapped_append (h : bus.Recorded ram past)
    (heffect : Effect bus request (bus.placeOf? request) answer after) :
    after.unmapped = List.countP Event.isLost (past ++ [⟨bus, request, answer, after⟩]) := by
  rw [heffect.unmapped_eq, h.unmapped, List.countP_append, List.countP_singleton, Event.isLost,
    Event.place?]
  cases (bus.placeOf? request).any Place.isNowhere <;> rfl

/-- A request with the effect it has at its place is served as the requests before it
say. -/
theorem routed (h : bus.Recorded ram past)
    (heffect : Effect bus request (bus.placeOf? request) answer after) :
    Event.Routed ram past ⟨bus, request, answer, after⟩ where
  place {addr width} haccess := by
    refine ⟨bus.place addr width, ?_, fun place' => ?_⟩
    · rw [Event.place?, placeOf?, haccess]
      rfl
    · rw [leads_iff h.registers h.base h.size, eq_comm]
  effect := heffect
  memory := heffect.byteAt_eq
  read {width addr i} hrequest hplace k hk := by
    dsimp only at hrequest
    subst hrequest
    change bus.placeOf? _ = _ at hplace
    rw [hplace] at heffect
    cases heffect with
    | readMemory hbytes => rw [← h.bytes, hbytes k hk]
  unmapped := h.unmapped_append heffect

/-- A request with the effect it has at its place becomes part of the history. -/
theorem append (h : bus.Recorded ram past)
    (hsucceeds : ∀ region, request = .register region → region.handler.Succeeds)
    (heffect : Effect bus request (bus.placeOf? request) answer after) :
    after.Recorded ram (past ++ [⟨bus, request, answer, after⟩]) where
  registers := by
    rw [heffect.mmio_eq, registered_append]
    cases hregion : request.region? with
    | none => simpa using h.registers
    | some region => exact h.registers.register region
  succeeds region hregion := by
    rw [registered_append] at hregion
    rcases List.mem_append.1 hregion with hpast | hnew
    · exact h.succeeds region hpast
    · cases request with
      | register new =>
        rw [List.mem_singleton.1 hnew]
        exact hsucceeds new rfl
      | _ => cases hnew
  base := heffect.window_eq.1.trans h.base
  size := heffect.window_eq.2.trans h.size
  bytes j := by
    rw [latest_append, heffect.byteAt_eq, h.bytes]
    rfl
  unmapped := h.unmapped_append heffect

end

/-- One request is served as the requests before it say, and becomes part of them. -/
theorem step (h : bus.Recorded ram past) (request : Request ω)
    (hsucceeds : ∀ region, request = .register region → region.handler.Succeeds) :
    ∃ answer after, request.perform bus = .ok answer after ∧
      Event.Routed ram past ⟨bus, request, answer, after⟩ ∧
      after.Recorded ram (past ++ [⟨bus, request, answer, after⟩]) := by
  obtain ⟨answer, after, hperform, heffect⟩ := exists_effect h.succeeds_of_find? request
  exact ⟨answer, after, hperform, h.routed heffect, h.append hsucceeds heffect⟩

end Recorded

theorem history_cons {request : Request ω} {rest : List (Request ω)} {bus after last : Bus ω}
    {answer : Word} {events : List (Event ω)} (hperform : request.perform bus = .ok answer after)
    (hrest : history rest after = .ok events last) :
    history (request :: rest) bus = .ok (⟨bus, request, answer, after⟩ :: events) last := by
  show (request.perform >>= _) bus = _
  rw [Access.bind_of_eq_ok hperform]
  show (history rest >>= _) after = _
  rw [Access.bind_of_eq_ok hrest]
  rfl

/-- Requests behind others are served as all requests before each of them say. -/
theorem Recorded.run {ram : Ram} {past : List (Event ω)} {bus : Bus ω} (h : bus.Recorded ram past)
    {requests : List (Request ω)}
    (hsucceeds : ∀ region, .register region ∈ requests → region.handler.Succeeds) :
    ∃ events last, history requests bus = .ok events last ∧
      events.map (·.request) = requests ∧
      (∀ earlier event later, events = earlier ++ event :: later →
        event.Routed ram (past ++ earlier)) ∧
      last.Recorded ram (past ++ events) := by
  induction requests generalizing past bus with
  | nil =>
    refine ⟨[], bus, rfl, rfl, ?_, by simpa using h⟩
    intro earlier event later heq
    simp at heq
  | cons request rest ih =>
    obtain ⟨answer, after, hperform, hrouted, hafter⟩ :=
      h.step request fun region heq => hsucceeds region (by simp [heq])
    obtain ⟨events, last, hrest, hrequests, hevents, hlast⟩ :=
      ih hafter fun region hmem => hsucceeds region (List.mem_cons_of_mem _ hmem)
    refine ⟨_, last, history_cons hperform hrest, by simp [hrequests], ?_, by simpa using hlast⟩
    intro earlier event later heq
    -- The first event stands behind the past, all others behind the first one too.
    cases earlier with
    | nil =>
      obtain ⟨rfl, -⟩ := List.cons.inj heq
      simpa using hrouted
    | cons first earlier =>
      obtain ⟨rfl, hbehind⟩ := List.cons.inj heq
      simpa using hevents earlier event later hbehind

/-- A bus serves every history of requests, if the devices that they register do not
fault: each request as the requests before it say, and at the end the accesses that went
nowhere are counted. -/
theorem history_routed (ram : Ram) (devices : ω) {requests : List (Request ω)}
    (hsucceeds : ∀ region, .register region ∈ requests → region.handler.Succeeds) :
    ∃ events last, history requests (ofRam ram devices) = .ok events last ∧
      events.map (·.request) = requests ∧
      (∀ past event future, events = past ++ event :: future → event.Routed ram past) ∧
      last.unmapped = events.countP Event.isLost := by
  obtain ⟨events, last, hhistory, hrequests, hrouted, hlast⟩ :=
    (recorded_ofRam ram devices).run hsucceeds
  exact ⟨events, last, hhistory, hrequests, hrouted, hlast.unmapped⟩

/-- A window that ends with the address space, and a device that is registered over its
last two bytes after a word was written there. -/
theorem history_routed_probe :
    let ram := Ram.zeroed 0xffffff00 0x100
    let device : Region Bench := ⟨"uart", ⟨0xfffffffe, 0xffffffff⟩, 0, .probe "uart" 0⟩
    let requests := [.write .word 0xfffffffc 0x11223344, .register device,
      .read .byte 0xfffffffe, .read .word 0xfffffffc, .read .word 0xfffffffd]
    (∀ region, .register region ∈ requests → region.handler.Succeeds) ∧
      ∃ events last, history requests (ofRam ram .empty) = .ok events last ∧
        events.map (·.request) = requests ∧
        (∀ past event future, events = past ++ event :: future → event.Routed ram past) ∧
        last.unmapped = events.countP Event.isLost := by
  intro ram device requests
  have hsucceeds : ∀ region, .register region ∈ requests → region.handler.Succeeds := by
    intro region hregion
    simp only [requests, List.mem_cons, Request.register.injEq, reduceCtorEq, List.not_mem_nil,
      false_or, or_false] at hregion
    subst hregion
    exact Handler.probe_succeeds "uart" 0
  exact ⟨hsucceeds, history_routed ram .empty hsucceeds⟩

end Bus

end ArmEmulator
