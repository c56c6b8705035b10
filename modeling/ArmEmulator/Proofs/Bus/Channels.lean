import ArmEmulator.Bus

/-!
# Channels of watches

A bus need keep of a watch only the sending end of a channel.  It is not told when the
receiving end is dropped, but finds out by the next event it sends there, and removes
the watch from the list it is just going through.  Here are the watches of a bus kept
that way; whoever holds the receiving ends sees the same.

Main results:

- Theorems {lit}`Exchange.senders_deliver` and {lit}`Exchange.getElem?_deliver`: which
  senders are left behind one delivery, and what it has sent on each channel.
- Theorem {lit}`Exchange.Mirrors.notify`: a delivery that removes closed watches mirrors
  one that leaves them in place.
-/

namespace ArmEmulator

/-- The sending end of a watch. -/
structure Sender where
  range : AddressRange
  channel : Nat
deriving DecidableEq

/-- The events sent on a channel and not received yet, oldest first; none when its
receiving end is gone. -/
abbrev Channel := Option (Array StoreEvent)

/-- The sending ends that a bus keeps, and all channels it ever opened. -/
structure Exchange where
  senders : List Sender
  channels : Array Channel
deriving DecidableEq

namespace Exchange

/-- No channel was opened yet. -/
def empty : Exchange where
  senders := []
  channels := #[]

/-- Opens a channel for the stores in a range; gives its number. -/
def watch (ex : Exchange) (range : AddressRange) : Nat × Exchange :=
  (ex.channels.size,
    { senders := ex.senders ++ [⟨range, ex.channels.size⟩]
      channels := ex.channels.push (some #[]) })

/-- Drops the receiving end of a channel, and what was sent on it. -/
def drop (ex : Exchange) (number : Nat) : Exchange :=
  { ex with channels := ex.channels.modify number fun _ => none }

/-- Receives what was sent on a channel. -/
def take (ex : Exchange) (number : Nat) : Option (Array StoreEvent) × Exchange :=
  (ex.channels[number]?.join,
    { ex with channels := ex.channels.modify number (·.map fun _ => #[]) })

/-- Whether the receiving end of a channel is there. -/
def isOpen (channels : Array Channel) (number : Nat) : Bool :=
  channels[number]?.join.isSome

/-- Sends an event on a channel; fails when its receiving end is gone. -/
def send (channels : Array Channel) (number : Nat) (event : StoreEvent) : Bool × Array Channel :=
  (isOpen channels number, channels.modify number (·.map (·.push event)))

/-- Goes through the senders and sends an event to those whose range contains its
address.  Keeps the senders that are not concerned and those for which it succeeds. -/
def deliver (event : StoreEvent) : List Sender → Array Channel → List Sender × Array Channel
  | [], channels => ([], channels)
  | sender :: rest, channels =>
    if sender.range.contains event.addr then
      let (sent, channels) := send channels sender.channel event
      let (kept, channels) := deliver event rest channels
      (if sent then sender :: kept else kept, channels)
    else
      let (kept, channels) := deliver event rest channels
      (sender :: kept, channels)

/-- Tells the watches about a store. -/
def notify (ex : Exchange) (event : StoreEvent) : Exchange :=
  if ex.senders.isEmpty then ex
  else
    let (senders, channels) := deliver event ex.senders ex.channels
    { senders, channels }

/-! ## One delivery -/

/-- Without senders there is nothing to deliver. -/
theorem notify_eq (ex : Exchange) (event : StoreEvent) :
    ex.notify event =
      ⟨(deliver event ex.senders ex.channels).1, (deliver event ex.senders ex.channels).2⟩ := by
  unfold notify
  split
  · rename_i hempty
    have hnil : ex.senders = [] := List.isEmpty_iff.1 hempty
    rw [hnil, deliver, ← hnil]
  · rfl

/-- Sending neither opens nor closes a channel. -/
theorem isOpen_send (channels : Array Channel) (n m : Nat) (event : StoreEvent) :
    isOpen (send channels n event).2 m = isOpen channels m := by
  rw [isOpen, isOpen, send, Array.getElem?_modify]
  by_cases h : n = m
  · rw [if_pos h]
    rcases channels[m]? with _ | _ | queued <;> rfl
  · rw [if_neg h]

/-- The senders that are left are those that are not concerned or whose channel is open,
in their order. -/
theorem senders_deliver (event : StoreEvent) (senders : List Sender) (channels : Array Channel) :
    (deliver event senders channels).1 =
      senders.filter fun s => !s.range.contains event.addr || isOpen channels s.channel := by
  induction senders generalizing channels with
  | nil => rfl
  | cons sender rest ih =>
    rw [deliver, List.filter_cons]
    by_cases hrange : sender.range.contains event.addr
    · rw [if_pos hrange]
      have hopen : ∀ m, isOpen (send channels sender.channel event).2 m = isOpen channels m :=
        fun m => isOpen_send channels sender.channel m event
      simp only [ih, hopen, hrange, Bool.not_true, Bool.false_or]
      rfl
    · rw [if_neg hrange]
      simp [ih, hrange]

/-- Whether a delivery sends on a channel. -/
def Sends (senders : List Sender) (event : StoreEvent) (number : Nat) : Prop :=
  ∃ s ∈ senders, s.channel = number ∧ s.range.contains event.addr

instance (senders : List Sender) (event : StoreEvent) (number : Nat) :
    Decidable (Sends senders event number) :=
  inferInstanceAs (Decidable (∃ s ∈ senders, _))

theorem sends_cons {sender : Sender} {rest : List Sender} {event : StoreEvent} {i : Nat} :
    Sends (sender :: rest) event i ↔
      (sender.channel = i ∧ sender.range.contains event.addr) ∨ Sends rest event i := by
  simp [Sends]

/-- An event is sent once on the channel of each concerned sender, if the senders have
different channels. -/
theorem getElem?_deliver (event : StoreEvent) {senders : List Sender}
    (hnodup : (senders.map Sender.channel).Nodup) (channels : Array Channel) (i : Nat) :
    (deliver event senders channels).2[i]? =
      if Sends senders event i then channels[i]?.map (·.map (·.push event)) else channels[i]? := by
  induction senders generalizing channels with
  | nil =>
    rw [if_neg (by simp [Sends])]
    rfl
  | cons sender rest ih =>
    obtain ⟨hfresh, hnodup⟩ := List.nodup_cons.1 hnodup
    rw [deliver]
    by_cases hrange : sender.range.contains event.addr
    · rw [if_pos hrange]
      show (deliver event rest (send channels sender.channel event).2).2[i]? = _
      rw [ih hnodup, send, Array.getElem?_modify]
      by_cases hi : sender.channel = i
      · -- no later sender has the channel on which this one has just sent
        have hrest : ¬Sends rest event i := fun ⟨s, hs, hchannel, _⟩ =>
          hfresh (List.mem_map.2 ⟨s, hs, hchannel.trans hi.symm⟩)
        rw [if_neg hrest, if_pos hi, if_pos (sends_cons.2 (.inl ⟨hi, hrange⟩))]
      · simp only [hi, if_false, sends_cons, false_and, false_or]
    · rw [if_neg hrange]
      show (deliver event rest channels).2[i]? = _
      rw [ih hnodup]
      simp only [sends_cons, hrange, and_false, false_or, Bool.false_eq_true]

end Exchange

/-! ## The watches of a bus -/

/-- The channel of a watch. -/
def Watch.channel (w : Watch) : Channel :=
  if w.isOpen then some w.pending else none

@[simp]
theorem Watch.range_notify (w : Watch) (event : StoreEvent) : (w.notify event).range = w.range := by
  unfold notify
  split <;> rfl

@[simp]
theorem Watch.isOpen_notify (w : Watch) (event : StoreEvent) :
    (w.notify event).isOpen = w.isOpen := by
  unfold notify
  split <;> rfl

/-- What is left of a watch when its events are taken. -/
def Watch.emptied (w : Watch) : Watch :=
  if w.isOpen then { w with pending := #[] } else w

/-- Two changes of an array are the same if they agree on the element they are made to. -/
theorem modify_congr {α : Type} {xs : Array α} {i : Nat} {f g : α → α}
    (h : ∀ a, xs[i]? = some a → f a = g a) : xs.modify i f = xs.modify i g := by
  refine Array.ext_getElem? fun j => ?_
  rw [Array.getElem?_modify, Array.getElem?_modify]
  split
  · rename_i hi
    exact hi ▸ Option.map_congr h
  · rfl

/-- What a watch answers when its events are taken, and what that leaves. -/
theorem Bus.takeEvents_eq {ω : Type} (bus : Bus ω) (number : Nat) :
    bus.takeEvents number =
      (bus.watches[number]?.bind Watch.channel,
        { bus with watches := bus.watches.modify number Watch.emptied }) := by
  -- a watch that is closed, or that there is not, is left as it is
  have hclosed (h : ∀ w, bus.watches[number]? = some w → w.isOpen = false) :
      bus.watches.modify number Watch.emptied = bus.watches := by
    refine (modify_congr (g := id) fun w hw => ?_).trans (by simp [← Array.toList_inj])
    rw [Watch.emptied, h w hw, if_neg Bool.false_ne_true, id]
  unfold takeEvents
  cases hw : bus.watches[number]? with
  | none => rw [hclosed (by simp [hw])]; rfl
  | some w =>
    cases hopen : w.isOpen with
    | false =>
      rw [hclosed (by simp [hw, hopen])]
      simp [Watch.channel, hopen]
    | true =>
      rw [modify_congr (f := Watch.emptied) (g := fun w => { w with pending := #[] })
        (by simp [hw, hopen, Watch.emptied])]
      simp [Watch.channel, hopen]

namespace Exchange

/-- An exchange and the watches of a bus are the same to whoever holds the receiving
ends: what is left to take agrees, and each open watch has one sender with its range.
There may be senders of closed watches. -/
structure Mirrors (ex : Exchange) (watches : Array Watch) : Prop where
  channels : ex.channels = watches.map Watch.channel
  nodup : (ex.senders.map Sender.channel).Nodup
  range : ∀ s ∈ ex.senders, (watches[s.channel]?).map Watch.range = some s.range
  sender : ∀ i w, watches[i]? = some w → w.isOpen → ⟨w.range, i⟩ ∈ ex.senders

theorem mirrors_empty : empty.Mirrors #[] where
  channels := by simp [empty]
  nodup := .nil
  range := by simp [empty]
  sender := by simp

namespace Mirrors

variable {ex : Exchange} {watches : Array Watch} (h : ex.Mirrors watches)
include h

theorem getElem?_channels (i : Nat) : ex.channels[i]? = watches[i]?.map Watch.channel := by
  rw [h.channels, Array.getElem?_map]

theorem size_channels : ex.channels.size = watches.size := by
  rw [h.channels, Array.size_map]

/-- A change that leaves the senders and the ranges alone and opens no watch. -/
theorem of_modify {channels : Array Channel} {number : Nat} {f : Watch → Watch}
    (hchannels : channels = (watches.modify number f).map Watch.channel)
    (hrange : ∀ w, (f w).range = w.range) (hopen : ∀ w, (f w).isOpen → w.isOpen) :
    Mirrors { ex with channels } (watches.modify number f) where
  channels := hchannels
  nodup := h.nodup
  range s hs := by
    rw [Array.getElem?_modify, ← h.range s hs]
    split
    · simp [Option.map_map, Function.comp_def, hrange]
    · rfl
  sender i w hw hisOpen := by
    rw [Array.getElem?_modify] at hw
    split at hw
    · obtain ⟨v, hv, rfl⟩ := Option.map_eq_some_iff.1 hw
      rw [hrange]
      exact h.sender i v hv (hopen v hisOpen)
    · exact h.sender i w hw hisOpen

/-- The channels change with the watches. -/
theorem modify_channels {number : Nat} {f : Channel → Channel} {g : Watch → Watch}
    (hchannel : ∀ w, (g w).channel = f w.channel) :
    ex.channels.modify number f = (watches.modify number g).map Watch.channel := by
  refine Array.ext_getElem? fun i => ?_
  rw [Array.getElem?_modify, Array.getElem?_map, Array.getElem?_modify, h.getElem?_channels]
  split <;> simp [Option.map_map, Function.comp_def, hchannel]

theorem watch (range : AddressRange) :
    (ex.watch range).2.Mirrors (watches.push ⟨range, true, #[]⟩) where
  channels := by simp [Exchange.watch, h.channels, Watch.channel]
  nodup := by
    have hfresh : ∀ s ∈ ex.senders, s.channel ≠ ex.channels.size := by
      intro s hs heq
      have hrange := h.range s hs
      rw [heq, h.size_channels, Array.getElem?_size] at hrange
      cases hrange
    simp only [Exchange.watch, List.map_append, List.map_cons, List.map_nil]
    refine List.nodup_append.2 ⟨h.nodup, by simp, ?_⟩
    intro c hc d hd
    obtain ⟨s, hs, rfl⟩ := List.mem_map.1 hc
    exact List.mem_singleton.1 hd ▸ hfresh s hs
  range s hs := by
    rcases List.mem_append.1 hs with hs | hs
    · have hrange := h.range s hs
      rw [Array.getElem?_push]
      split
      · rename_i heq
        rw [heq, Array.getElem?_size] at hrange
        cases hrange
      · exact hrange
    · cases List.mem_singleton.1 hs
      rw [h.size_channels, Array.getElem?_push_size]
      rfl
  sender i w hw hisOpen := by
    rw [Array.getElem?_push] at hw
    split at hw
    · rename_i heq
      cases hw
      exact List.mem_append_right _ (by simp [heq, h.size_channels])
    · exact List.mem_append_left _ (h.sender i w hw hisOpen)

theorem drop (number : Nat) :
    (ex.drop number).Mirrors
      (watches.modify number fun w => { w with isOpen := false, pending := #[] }) :=
  h.of_modify (h.modify_channels fun _ => rfl) (fun _ => rfl) (by simp)

/-- What can be taken is the same, and stays so when it is taken. -/
theorem take (number : Nat) :
    (ex.take number).1 = watches[number]?.bind Watch.channel ∧
      (ex.take number).2.Mirrors (watches.modify number Watch.emptied) := by
  rw [Exchange.take, h.getElem?_channels]
  refine ⟨?_, h.of_modify (h.modify_channels fun w => ?_) (fun w => ?_) (fun w => ?_)⟩
  · cases watches[number]? <;> rfl
  · unfold Watch.channel Watch.emptied
    cases hopen : w.isOpen <;> simp [hopen]
  · unfold Watch.emptied
    split <;> rfl
  · unfold Watch.emptied
    split <;> exact id

/-- The watches that are told of a store. -/
theorem sends_iff {event : StoreEvent} {i : Nat} {w : Watch} (hw : watches[i]? = some w)
    (hisOpen : w.isOpen) : Sends ex.senders event i ↔ w.range.contains event.addr := by
  constructor
  · rintro ⟨s, hs, rfl, hrange⟩
    have heq : w.range = s.range := by simpa [hw] using h.range s hs
    rw [heq]
    exact hrange
  · intro hrange
    exact ⟨_, h.sender i w hw hisOpen, rfl, hrange⟩

/-- A delivery that removes the closed watches it comes upon is one that tells every
watch. -/
theorem deliver (event : StoreEvent) :
    Mirrors ⟨(deliver event ex.senders ex.channels).1, (deliver event ex.senders ex.channels).2⟩
      (watches.map (·.notify event)) where
  channels := by
    refine Array.ext_getElem? fun i => ?_
    rw [getElem?_deliver event h.nodup, h.getElem?_channels, Array.getElem?_map,
      Array.getElem?_map]
    cases hw : watches[i]? with
    | none => simp
    | some w =>
      cases hopen : w.isOpen with
      | false => simp [Watch.channel, Watch.notify, hopen]
      | true =>
        by_cases hrange : w.range.contains event.addr
        · rw [if_pos ((h.sends_iff hw hopen).2 hrange)]
          simp [Watch.channel, Watch.notify, hopen, hrange]
        · rw [if_neg fun hsends => hrange ((h.sends_iff hw hopen).1 hsends)]
          simp [Watch.channel, Watch.notify, hopen, hrange]
  nodup := by
    rw [senders_deliver]
    exact h.nodup.sublist (List.filter_sublist.map _)
  range s hs := by
    rw [senders_deliver] at hs
    rw [← h.range s (List.mem_filter.1 hs).1, Array.getElem?_map, Option.map_map]
    simp [Function.comp_def]
  sender i w hw hisOpen := by
    obtain ⟨v, hv, rfl⟩ := Option.map_eq_some_iff.1 (Array.getElem?_map ▸ hw)
    have hopen : v.isOpen := v.isOpen_notify event ▸ hisOpen
    have hchannel : isOpen ex.channels i := by
      simp [isOpen, h.getElem?_channels, hv, Watch.channel, hopen]
    rw [Watch.range_notify, senders_deliver]
    exact List.mem_filter.2 ⟨h.sender i v hv hopen, by simp [hchannel]⟩

theorem notify (event : StoreEvent) :
    (ex.notify event).Mirrors (watches.map (·.notify event)) := by
  rw [notify_eq]
  exact h.deliver event

end Mirrors

end Exchange

end ArmEmulator
