import ArmEmulator.Proofs.Bus.Channels
import ArmEmulator.Proofs.Bus.Routing

/-!
# Watching a bus

Watchers subscribe to the stores in a range, take the events that were queued for them,
and may drop their watch at any time, while others go on using the bus.  An action of
either kind does one thing to the watches and one to the rest of the bus, and neither
depends on the other: so a watcher sees the stores in its range whoever else watches, and
the others see nothing of the watchers.

Main results:

- Theorem {lit}`Bus.Action.perform_eq_ok_iff`: an action falls into what it does to the
  rest of the bus and what it does to the watches.
- Theorem {lit}`Hub.Mirrors.run`: a bus that keeps the sending ends only, and removes
  those it finds closed while it sends, has the same answers.
- Theorem {lit}`Bus.run_watch`: what a watcher takes and what still waits for it are the
  stores into its range, and the others read and leave what they would without watchers.
-/

namespace ArmEmulator

namespace Bus

variable {ω : Type}

/-! ## What watchers and others do -/

/-- What is done to a bus: accesses, the registration of a device, and what watchers
do, who begin to watch, drop a watch, and take its events. -/
inductive Action (ω : Type) where
  | read (width : Width) (addr : Word)
  | store (width : Width) (addr value : Word)
  | register (region : Region ω)
  | watch (range : AddressRange)
  | drop (number : Nat)
  | take (number : Nat)

/-- What an action answers. -/
inductive Answer where
  | word (w : Word)
  | done
  | watched (number : Nat)
  | taken (number : Nat) (events? : Option (Array StoreEvent))
deriving DecidableEq

namespace Action

/-- Does an action. -/
def perform : Action ω → Access (Bus ω) Answer
  | read width addr => do
    return .word (← (Request.read width addr).perform)
  | store width addr value => do
    let _ ← (Request.write width addr value).perform
    return .done
  | register region => do
    modify (·.register region)
    return .done
  | watch range => do
    let (number, bus) := (← get).watch range
    set bus
    return .watched number
  | drop number => do
    modify (·.unwatch number)
    return .done
  | take number => do
    let (events?, bus) := (← get).takeEvents number
    set bus
    return .taken number events?

/-- Whether an action is none of the watchers'. -/
def isOthers : Action ω → Bool
  | read .. | store .. | register _ => true
  | watch _ | drop _ | take _ => false

/-- The event of an action for a watch of a range: a store there, with the value it
stores, extended by zeros. -/
def eventIn? (range : AddressRange) : Action ω → Option StoreEvent
  | store width addr value =>
    if range.contains addr then some ⟨addr, width.low value⟩ else none
  | _ => none

end Action

namespace Answer

/-- The word that was read. -/
def word? : Answer → Option Word
  | word w => some w
  | _ => none

/-- The events that were taken from a watch. -/
def takenFrom (number : Nat) : Answer → List StoreEvent
  | taken n (some events) => if n = number then events.toList else []
  | _ => []

end Answer

/-! ## A bus apart from its watches -/

/-- A bus apart from its watches. -/
def bare (bus : Bus ω) : Bus ω :=
  { bus with watches := #[] }

namespace Action

/-- What an action does to a bus apart from its watches; gives the word that it
reads. -/
def act : Action ω → Access (Bus ω) Word
  | read width addr => (Request.read width addr).perform
  | store width addr value => do
    put width addr value
    return 0
  | register region => do
    modify (·.register region)
    return 0
  | watch _ | drop _ | take _ => pure 0

/-- What an action leaves of the watches of a bus. -/
def tell (watches : Array Watch) : Action ω → Array Watch
  | store width addr value => watches.map (·.notify ⟨addr, width.low value⟩)
  | watch range => watches.push ⟨range, true, #[]⟩
  | drop number => watches.modify number fun w => { w with isOpen := false, pending := #[] }
  | take number => watches.modify number Watch.emptied
  | read .. | register _ => watches

/-- The answer to an action, with the watches there were and the word that was read. -/
def answer (watches : Array Watch) (w : Word) : Action ω → Answer
  | read .. => .word w
  | watch _ => .watched watches.size
  | take number => .taken number (watches[number]?.bind Watch.channel)
  | store .. | register _ | drop _ => .done

end Action

section

variable {bus after : Bus ω} {width : Width} {addr : Word}

theorem onDevices_watches {α : Type} {access : Access ω α} {a : α}
    (h : onDevices access bus = .ok a after) (watches : Array Watch) :
    after.watches = bus.watches ∧
      onDevices access { bus with watches } = .ok a { after with watches } := by
  obtain ⟨devices, haccess, rfl⟩ := exists_of_onDevices h
  exact ⟨rfl, onDevices_of_eq_ok haccess⟩

/-- A read does not depend on the watches. -/
theorem perform_read_watches {w : Word}
    (h : (Request.read width addr).perform bus = .ok w after) (watches : Array Watch) :
    after.watches = bus.watches ∧
      (Request.read width addr).perform { bus with watches } = .ok w { after with watches } := by
  have hsame : place { bus with watches } addr width = bus.place addr width := rfl
  rw [perform_read_eq] at h ⊢
  rw [hsame]
  cases hplace : bus.place addr width with
  | device region =>
    rw [hplace] at h
    exact onDevices_watches h watches
  | memory i | nowhere =>
    rw [hplace] at h
    cases h
    exact ⟨rfl, rfl⟩

/-- What a store does to devices and memory does not depend on the watches. -/
theorem put_watches {value : Word} (h : put width addr value bus = .ok () after)
    (watches : Array Watch) :
    after.watches = bus.watches ∧
      put width addr value { bus with watches } = .ok () { after with watches } := by
  have hsame : place { bus with watches } addr width = bus.place addr width := rfl
  rw [put_eq] at h ⊢
  rw [hsame]
  cases hplace : bus.place addr width with
  | device region =>
    rw [hplace] at h
    exact onDevices_watches h watches
  | memory i | nowhere =>
    rw [hplace] at h
    cases h
    exact ⟨rfl, rfl⟩

end

namespace Action

section

variable {action : Action ω} {bus after : Bus ω} {w : Word}

/-- What an action does to the rest of a bus does not depend on the watches. -/
theorem act_watches (h : action.act bus = .ok w after) (watches : Array Watch) :
    after.watches = bus.watches ∧
      action.act { bus with watches } = .ok w { after with watches } := by
  cases action with
  | read width addr => exact perform_read_watches h watches
  | store width addr value =>
    obtain ⟨_, between, hput, h⟩ := Access.bind_eq_ok_iff.1 h
    cases h
    obtain ⟨heq, hput⟩ := put_watches hput watches
    exact ⟨heq, Access.bind_of_eq_ok hput⟩
  | register region | watch range | drop number | take number =>
    cases h
    exact ⟨rfl, rfl⟩

/-- An action does what it does to the rest of the bus, and then tells the watches. -/
theorem perform_eq_ok_iff_act {answer : Answer} :
    action.perform bus = .ok answer after ↔
      ∃ w between, action.act bus = .ok w between ∧ answer = action.answer bus.watches w ∧
        after = { between with watches := action.tell bus.watches } := by
  have hkept {w : Word} {between : Bus ω} (h : action.act bus = .ok w between) :
      between.watches = bus.watches := (act_watches h #[]).1
  cases action with
  | read width addr =>
    constructor
    · intro h
      obtain ⟨w, hread, rfl⟩ := Access.bind_pure_eq_ok_iff.1 h
      refine ⟨w, after, hread, rfl, ?_⟩
      rw [tell, ← hkept hread]
    · rintro ⟨w, between, hread, rfl, rfl⟩
      rw [tell, ← hkept hread]
      exact Access.bind_of_eq_ok hread
  | store width addr value =>
    constructor
    · intro h
      obtain ⟨_, hwrite, rfl⟩ := Access.bind_pure_eq_ok_iff.1 h
      obtain ⟨between, hput, -, rfl⟩ := exists_put_of_perform_write hwrite
      have hact : (store width addr value).act bus = .ok 0 between := Access.bind_of_eq_ok hput
      refine ⟨0, between, hact, rfl, ?_⟩
      rw [tell, ← hkept hact]
      rfl
    · rintro ⟨w, between, hact, rfl, rfl⟩
      obtain ⟨_, _, hput, h⟩ := Access.bind_eq_ok_iff.1 hact
      cases h
      rw [tell, ← hkept hact]
      exact Access.bind_of_eq_ok (perform_write_of_put hput)
  | register region | watch range | drop number =>
    constructor
    · intro h
      cases h
      exact ⟨0, _, rfl, rfl, rfl⟩
    · rintro ⟨w, between, hact, rfl, rfl⟩
      cases hact
      rfl
  | take number =>
    have htake : (take number).perform bus =
        .ok (.taken number (bus.takeEvents number).1) (bus.takeEvents number).2 := rfl
    rw [htake, takeEvents_eq]
    constructor
    · intro h
      cases h
      exact ⟨0, _, rfl, rfl, rfl⟩
    · rintro ⟨w, between, hact, rfl, rfl⟩
      cases hact
      rfl

/-- An action does its part to the rest of the bus, and its part to the watches. -/
theorem perform_eq_ok_iff {answer : Answer} :
    action.perform bus = .ok answer after ↔
      ∃ w, action.act bus.bare = .ok w after.bare ∧ answer = action.answer bus.watches w ∧
        after.watches = action.tell bus.watches := by
  rw [perform_eq_ok_iff_act]
  constructor
  · rintro ⟨w, between, h, hanswer, rfl⟩
    exact ⟨w, (act_watches h #[]).2, hanswer, rfl⟩
  · rintro ⟨w, h, hanswer, hwatches⟩
    refine ⟨w, _, (act_watches h bus.watches).2, hanswer, ?_⟩
    rw [← hwatches]
    rfl

end

end Action

/-! ## What one watcher sees -/

/-- An open watch stays open unless it is dropped itself.  What is taken from it and what
is left behind an action is what it had, and the event of the action. -/
theorem Action.tell_of_open {watches : Array Watch} {number : Nat} {range : AddressRange}
    {pending : Array StoreEvent} (hw : watches[number]? = some ⟨range, true, pending⟩)
    {action : Action ω} (hdrop : action ≠ .drop number) (w : Word) :
    ∃ pending', (action.tell watches)[number]? = some ⟨range, true, pending'⟩ ∧
      (action.answer watches w).takenFrom number ++ pending'.toList =
        pending.toList ++ (action.eventIn? range).toList := by
  cases action with
  | read | register => exact ⟨pending, hw, by simp [answer, Answer.takenFrom, eventIn?]⟩
  | store width addr value =>
    rw [tell, Array.getElem?_map, hw]
    by_cases hrange : range.contains addr
    · refine ⟨pending.push ⟨addr, width.low value⟩, by simp [Watch.notify, hrange], ?_⟩
      simp [answer, Answer.takenFrom, eventIn?, hrange]
    · refine ⟨pending, by simp [Watch.notify, hrange], ?_⟩
      simp [answer, Answer.takenFrom, eventIn?, hrange]
  | watch range' =>
    have hsize : number ≠ watches.size := fun heq => by simp [heq] at hw
    refine ⟨pending, ?_, by simp [answer, Answer.takenFrom, eventIn?]⟩
    rw [tell, Array.getElem?_push, if_neg hsize, hw]
  | drop other =>
    have hother : other ≠ number := fun heq => hdrop (heq ▸ rfl)
    refine ⟨pending, ?_, by simp [answer, Answer.takenFrom, eventIn?]⟩
    rw [tell, Array.getElem?_modify, if_neg hother, hw]
  | take other =>
    rw [tell, Array.getElem?_modify, hw]
    by_cases hother : other = number
    · subst hother
      refine ⟨#[], by simp [Watch.emptied], ?_⟩
      simp [answer, hw, Watch.channel, Answer.takenFrom, eventIn?]
    · refine ⟨pending, by rw [if_neg hother], ?_⟩
      cases hanswer : watches[other]?.bind Watch.channel <;>
        simp [answer, hanswer, Answer.takenFrom, hother, eventIn?]

/-- Over any actions that do not drop it, an open watch takes and keeps what it had and
the events of the actions, in their order. -/
theorem run_of_open {bus last : Bus ω} {number : Nat} {range : AddressRange}
    {pending : Array StoreEvent} (hw : bus.watches[number]? = some ⟨range, true, pending⟩)
    {actions : List (Action ω)} (hlive : .drop number ∉ actions) {answers : List Answer}
    (h : actions.mapM Action.perform bus = .ok answers last) :
    ∃ pending', last.watches[number]? = some ⟨range, true, pending'⟩ ∧
      answers.flatMap (·.takenFrom number) ++ pending'.toList =
        pending.toList ++ actions.filterMap (·.eventIn? range) := by
  induction actions generalizing bus pending answers with
  | nil =>
    cases h
    exact ⟨pending, hw, by simp⟩
  | cons action rest ih =>
    obtain ⟨answer, between, tail, hfirst, hrest, rfl⟩ := Access.mapM_cons_eq_ok_iff.1 h
    obtain ⟨w, -, rfl, hwatches⟩ := Action.perform_eq_ok_iff.1 hfirst
    obtain ⟨middle, hmiddle, hstep⟩ :=
      Action.tell_of_open hw (fun heq => hlive (heq ▸ List.mem_cons_self ..)) w
    rw [← hwatches] at hmiddle
    obtain ⟨pending', hlast, htail⟩ :=
      ih hmiddle (fun hmem => hlive (List.mem_cons_of_mem _ hmem)) hrest
    refine ⟨pending', hlast, ?_⟩
    have hevents : (action :: rest).filterMap (·.eventIn? range) =
        (action.eventIn? range).toList ++ rest.filterMap (·.eventIn? range) := by
      cases hevent : action.eventIn? range <;> simp [hevent]
    rw [List.flatMap_cons, List.append_assoc, htail, ← List.append_assoc, hstep, hevents,
      List.append_assoc]

/-! ## What watchers leave alone -/

/-- What a watcher does leaves the rest of the bus as it is. -/
theorem Action.act_of_watcher {action : Action ω} (h : action.isOthers = false) (bus : Bus ω) :
    action.act bus = .ok 0 bus := by
  cases action with
  | read | store | register => cases h
  | watch | drop | take => rfl

/-- The word that is read does not depend on the watches. -/
theorem Action.word?_answer (action : Action ω) (watches watches' : Array Watch) (w : Word) :
    (action.answer watches w).word? = (action.answer watches' w).word? := by
  cases action <;> rfl

theorem Action.word?_answer_of_watcher {action : Action ω} (h : action.isOthers = false)
    (watches : Array Watch) (w : Word) : (action.answer watches w).word? = none := by
  cases action with
  | read | store | register => cases h
  | watch | drop | take => rfl

/-- Without what the watchers do, and whatever watches there are, the others read the same
words and leave the same bus. -/
theorem run_others {bus bus' last : Bus ω} (hsame : bus'.bare = bus.bare)
    {actions : List (Action ω)} {answers : List Answer}
    (h : actions.mapM Action.perform bus = .ok answers last) :
    ∃ answers' last',
      (actions.filter Action.isOthers).mapM Action.perform bus' = .ok answers' last' ∧
        answers'.filterMap Answer.word? = answers.filterMap Answer.word? ∧
        last'.bare = last.bare := by
  induction actions generalizing bus bus' answers with
  | nil =>
    cases h
    exact ⟨[], bus', rfl, rfl, hsame⟩
  | cons action rest ih =>
    obtain ⟨answer, between, tail, hfirst, hrest, rfl⟩ := Access.mapM_cons_eq_ok_iff.1 h
    obtain ⟨w, hact, rfl, -⟩ := Action.perform_eq_ok_iff.1 hfirst
    cases hothers : action.isOthers with
    | false =>
      have hbetween : bus.bare = between.bare := by
        rw [Action.act_of_watcher hothers] at hact
        exact (EStateM.Result.ok.inj hact).2
      obtain ⟨answers', last', hrun, hwords, hlast⟩ := ih (hsame.trans hbetween) hrest
      refine ⟨answers', last', ?_, ?_, hlast⟩
      · rw [List.filter_cons_of_neg (by simp [hothers]), hrun]
      · rw [List.filterMap_cons_none (Action.word?_answer_of_watcher hothers _ w), hwords]
    | true =>
      let middle : Bus ω := { between with watches := action.tell bus'.watches }
      have hmiddle : action.perform bus' = .ok (action.answer bus'.watches w) middle :=
        Action.perform_eq_ok_iff.2 ⟨w, hsame ▸ hact, rfl, rfl⟩
      have hbare : middle.bare = between.bare := rfl
      obtain ⟨answers', last', hrun, hwords, hlast⟩ := ih hbare hrest
      refine ⟨action.answer bus'.watches w :: answers', last', ?_, ?_, hlast⟩
      · rw [List.filter_cons_of_pos hothers]
        exact Access.mapM_cons_eq_ok_iff.2 ⟨_, middle, answers', hmiddle, hrun, rfl⟩
      · rw [List.filterMap_cons, List.filterMap_cons, hwords,
          action.word?_answer bus'.watches bus.watches w]

end Bus

/-! ## A bus that keeps the sending ends -/

/-- A bus that keeps of its watches the sending ends only, with all channels it
opened. -/
structure Hub (ω : Type) where
  bus : Bus ω
  exchange : Exchange

namespace Hub

open Bus

variable {ω : Type}

/-- Runs an access on the bus. -/
def onBus {α : Type} (access : Access (Bus ω) α) : Access (Hub ω) α := fun hub =>
  match access hub.bus with
  | .ok a bus => .ok a { hub with bus }
  | .error fault bus => .error fault { hub with bus }

/-- Does an action. -/
def perform : Action ω → Access (Hub ω) Answer
  | .read width addr => do
    return .word (← onBus (Request.read width addr).perform)
  | .store width addr value => do
    onBus (put width addr value)
    modify fun hub => { hub with exchange := hub.exchange.notify ⟨addr, width.low value⟩ }
    return .done
  | .register region => do
    onBus (modify (·.register region))
    return .done
  | .watch range => do
    let (number, exchange) := (← get).exchange.watch range
    modify ({ · with exchange })
    return .watched number
  | .drop number => do
    modify fun hub => { hub with exchange := hub.exchange.drop number }
    return .done
  | .take number => do
    let (events?, exchange) := (← get).exchange.take number
    modify ({ · with exchange })
    return .taken number events?

/-- A hub is the same as a bus to all who use it. -/
structure Mirrors (hub : Hub ω) (bus : Bus ω) : Prop where
  bare : hub.bus = bus.bare
  exchange : hub.exchange.Mirrors bus.watches

theorem mirrors_ofRam (ram : Ram) (devices : ω) :
    Mirrors ⟨.ofRam ram devices, .empty⟩ (.ofRam ram devices) where
  bare := rfl
  exchange := Exchange.mirrors_empty

theorem onBus_of_eq_ok {α : Type} {access : Access (Bus ω) α} {hub : Hub ω} {a : α} {bus : Bus ω}
    (h : access hub.bus = .ok a bus) : onBus access hub = .ok a { hub with bus } := by
  rw [onBus, h]

namespace Mirrors

variable {hub : Hub ω} {bus : Bus ω} (hmirrors : hub.Mirrors bus)
include hmirrors

/-- An action has the same answer on a hub as on the bus it mirrors, and the hub mirrors
the bus behind it. -/
theorem step {action : Action ω} {answer : Answer} {after : Bus ω}
    (h : action.perform bus = .ok answer after) :
    ∃ hub', perform action hub = .ok answer hub' ∧ hub'.Mirrors after := by
  obtain ⟨w, hact, rfl, hwatches⟩ := Action.perform_eq_ok_iff.1 h
  rw [← hmirrors.bare] at hact
  have hexchange := hmirrors.exchange
  cases action with
  | read width addr =>
    refine ⟨{ hub with bus := after.bare }, ?_, rfl, hwatches ▸ hexchange⟩
    exact Access.bind_of_eq_ok (onBus_of_eq_ok hact)
  | store width addr value =>
    obtain ⟨_, between, hput, h⟩ := Access.bind_eq_ok_iff.1 hact
    cases h
    refine ⟨⟨after.bare, hub.exchange.notify ⟨addr, width.low value⟩⟩, ?_, rfl,
      hwatches ▸ hexchange.notify _⟩
    exact Access.bind_of_eq_ok (onBus_of_eq_ok hput)
  | register region =>
    have hbus : hub.bus.register region = after.bare := (EStateM.Result.ok.inj hact).2
    exact ⟨{ hub with bus := hub.bus.register region }, rfl, hbus, hwatches ▸ hexchange⟩
  | watch range =>
    have hbus : hub.bus = after.bare := (EStateM.Result.ok.inj hact).2
    refine ⟨⟨hub.bus, (hub.exchange.watch range).2⟩, ?_, hbus, hwatches ▸ hexchange.watch range⟩
    rw [Action.answer, ← hexchange.size_channels]
    rfl
  | drop number =>
    have hbus : hub.bus = after.bare := (EStateM.Result.ok.inj hact).2
    exact ⟨⟨hub.bus, hub.exchange.drop number⟩, rfl, hbus, hwatches ▸ hexchange.drop number⟩
  | take number =>
    have hbus : hub.bus = after.bare := (EStateM.Result.ok.inj hact).2
    obtain ⟨htaken, hleft⟩ := hexchange.take number
    refine ⟨⟨hub.bus, (hub.exchange.take number).2⟩, ?_, hbus, hwatches ▸ hleft⟩
    rw [Action.answer, ← htaken]
    rfl

/-- Actions have the same answers on a hub as on the bus it mirrors. -/
theorem run {actions : List (Action ω)} {answers : List Answer} {last : Bus ω}
    (h : actions.mapM Action.perform bus = .ok answers last) :
    ∃ hub', actions.mapM perform hub = .ok answers hub' ∧ hub'.Mirrors last := by
  induction actions generalizing bus hub answers with
  | nil =>
    cases h
    exact ⟨hub, rfl, hmirrors⟩
  | cons action rest ih =>
    obtain ⟨answer, between, tail, hfirst, hrest, rfl⟩ := Access.mapM_cons_eq_ok_iff.1 h
    obtain ⟨middle, hmiddle, hbetween⟩ := hmirrors.step hfirst
    obtain ⟨hub', hhub', hlast⟩ := ih hbetween hrest
    exact ⟨hub', Access.mapM_cons_eq_ok_iff.2 ⟨answer, middle, tail, hmiddle, hhub', rfl⟩, hlast⟩

end Mirrors

end Hub

/-! ## What a watcher sees and what it leaves alone -/

namespace Bus

variable {ω : Type}

/-- Whatever is done behind the begin of a watch, and whatever watches there were before:
as long as the watch is not dropped, what was taken from it and what still waits are the
stores into its range, in their order, with the values stored.  Without the watchers the
others would have read the same words and left the same memory, devices and count.  A bus
that keeps only the sending ends, and removes those that it finds closed while it sends,
answers the same. -/
theorem run_watch {bus last : Bus ω} {range : AddressRange} {number : Nat}
    {actions : List (Action ω)} {answers : List Answer}
    (hrun : (Action.watch range :: actions).mapM Action.perform bus =
      .ok (.watched number :: answers) last)
    (hlive : Action.drop number ∉ actions) :
    (∃ pending, (last.takeEvents number).1 = some pending ∧
      answers.flatMap (·.takenFrom number) ++ pending.toList =
        actions.filterMap (·.eventIn? range)) ∧
    (∃ answers' last',
      (actions.filter Action.isOthers).mapM Action.perform bus = .ok answers' last' ∧
        answers'.filterMap Answer.word? = answers.filterMap Answer.word? ∧
        last'.bare = last.bare) ∧
    ∀ hub : Hub ω, hub.Mirrors bus →
      ∃ hub', (Action.watch range :: actions).mapM Hub.perform hub =
          .ok (.watched number :: answers) hub' ∧ hub'.Mirrors last := by
  refine ⟨?_, ?_, fun hub hmirrors => hmirrors.run hrun⟩
  · obtain ⟨_, watched, _, hwatch, hactions, heq⟩ := Access.mapM_cons_eq_ok_iff.1 hrun
    cases heq
    cases hwatch
    have hw : (bus.watch range).2.watches[bus.watches.size]? = some ⟨range, true, #[]⟩ :=
      Array.getElem?_push_size
    obtain ⟨pending, hlast, hevents⟩ := run_of_open hw hlive hactions
    refine ⟨pending, ?_, hevents⟩
    rw [takeEvents_eq, hlast]
    rfl
  · obtain ⟨answers', last', hothers, hwords, hlast⟩ := run_others rfl hrun
    exact ⟨answers', last', hothers, hwords, hlast⟩

/-- A watch over memory, a device and the gap between them, while an older watch of the
same range is dropped. -/
theorem run_watch_overlapping :
    let device : Region Bench := ⟨"uart", ⟨0x1020, 0x1023⟩, 0, .probe "uart" 0⟩
    let range : AddressRange := ⟨0x1000, 0x10ff⟩
    let bus := (((ofRam (.zeroed 0x1000 0x10) .empty).register device).watch range).2
    let actions := [.store .word 0x1008 1, .drop 0, .store .byte 0x1020 0x2ff,
      .store .word 0x2000 3, .store .word 0x1010 4, .take 1]
    ∃ answers last pending,
      (Action.watch range :: actions).mapM Action.perform bus =
        .ok (.watched 1 :: answers) last ∧
      (last.takeEvents 1).1 = some pending ∧
      answers.flatMap (·.takenFrom 1) ++ pending.toList =
        [⟨0x1008, 1⟩, ⟨0x1020, 0xff⟩, ⟨0x1010, 4⟩] ∧
      ∃ hub', (Action.watch range :: actions).mapM Hub.perform
          ⟨bus.bare, (Exchange.empty.watch range).2⟩ = .ok (.watched 1 :: answers) hub' := by
  intro device range bus actions
  obtain ⟨answers, last, hrun⟩ : ∃ answers last,
      (Action.watch range :: actions).mapM Action.perform bus =
        .ok (.watched 1 :: answers) last :=
    ⟨_, _, rfl⟩
  obtain ⟨⟨pending, htaken, hevents⟩, -, hhub⟩ := run_watch hrun (by simp [actions])
  have hmirrors : Hub.Mirrors ⟨bus.bare, (Exchange.empty.watch range).2⟩ bus :=
    ⟨rfl, Exchange.mirrors_empty.watch range⟩
  obtain ⟨hub', hhub', -⟩ := hhub _ hmirrors
  exact ⟨answers, last, pending, hrun, htaken, hevents, hub', hhub'⟩

end Bus

end ArmEmulator
