import ArmEmulator.Device

/-!
# Which device answers

Devices are kept by descending priority, and a new one goes behind all that have at
least its priority.  So the first device whose range contains an address is the one
of the greatest priority among all that were ever registered for the address, and
among equals the one that was registered first.

Main results:

- Theorem {lit}`Dispatcher.Registers.register`: what one registration does to the
  answers.
- Theorems {lit}`Dispatcher.Registers.find?_eq_some_iff` and
  {lit}`Dispatcher.Registers.find?_eq_none_iff`: the device that answers, by the
  registrations in their order.
-/

namespace ArmEmulator

namespace Dispatcher

variable {ω : Type}

/-! ## The device that has to answer -/

/-- Of the regions registered so far, in this order, the one that has to answer an
address: no region before it that contains the address has as great a priority, and
none behind it a greater one. -/
def Chosen (registered : List (Region ω)) (addr : Word) (region : Region ω) : Prop :=
  ∃ earlier later, registered = earlier ++ region :: later ∧
    region.range.contains addr = true ∧
    (∀ r ∈ earlier, r.range.contains addr = true → r.priority < region.priority) ∧
    ∀ r ∈ later, r.range.contains addr = true → r.priority ≤ region.priority

namespace Chosen

variable {registered : List (Region ω)} {addr : Word} {region region' : Region ω}

theorem mem (h : Chosen registered addr region) : region ∈ registered := by
  obtain ⟨earlier, later, rfl, -⟩ := h
  simp

theorem contains (h : Chosen registered addr region) : region.range.contains addr = true := by
  obtain ⟨-, -, -, hcontains, -⟩ := h
  exact hcontains

/-- No region that contains the address has a greater priority. -/
theorem priority_le (h : Chosen registered addr region) {r : Region ω} (hr : r ∈ registered)
    (hcontains : r.range.contains addr = true) : r.priority ≤ region.priority := by
  obtain ⟨earlier, later, rfl, -, hearlier, hlater⟩ := h
  rcases List.mem_append.1 hr with hr | hr
  · exact Int.le_of_lt (hearlier r hr hcontains)
  · rcases List.mem_cons.1 hr with rfl | hr
    · exact Int.le_refl _
    · exact hlater r hr hcontains

/-- Only one region has to answer. -/
theorem unique (h : Chosen registered addr region) (h' : Chosen registered addr region') :
    region = region' := by
  have hle := h.priority_le h'.mem h'.contains
  have hle' := h'.priority_le h.mem h.contains
  obtain ⟨earlier, later, heq, hcontains, hearlier, -⟩ := h
  obtain ⟨earlier', later', heq', hcontains', hearlier', -⟩ := h'
  -- Whichever of the two stands first would be of smaller priority than the other.
  rcases List.append_eq_append_iff.1 (heq.symm.trans heq') with
    ⟨between, rfl, hrest⟩ | ⟨between, rfl, hrest⟩
  · cases between with
    | nil => simpa using congrArg List.head? hrest
    | cons r between =>
      obtain ⟨rfl, -⟩ := List.cons.inj hrest
      have := hearlier' region (by simp) hcontains
      omega
  · cases between with
    | nil => simpa using (congrArg List.head? hrest).symm
    | cons r between =>
      obtain ⟨rfl, -⟩ := List.cons.inj hrest
      have := hearlier region' (by simp) hcontains'
      omega

/-- A region that was chosen stays so if the next one does not contain the address or
has no greater priority. -/
theorem append (h : Chosen registered addr region) {next : Region ω}
    (hnext : next.range.contains addr = true → next.priority ≤ region.priority) :
    Chosen (registered ++ [next]) addr region := by
  obtain ⟨earlier, later, rfl, hcontains, hearlier, hlater⟩ := h
  refine ⟨earlier, later ++ [next], by simp, hcontains, hearlier, ?_⟩
  intro r hr
  rcases List.mem_append.1 hr with hr | hr
  · exact hlater r hr
  · rw [List.mem_singleton.1 hr]
    exact hnext

/-- The last region is chosen if all others that contain the address have a smaller
priority. -/
theorem last {next : Region ω} (hcontains : next.range.contains addr = true)
    (hsmaller : ∀ r ∈ registered, r.range.contains addr = true → r.priority < next.priority) :
    Chosen (registered ++ [next]) addr next :=
  ⟨registered, [], rfl, hcontains, hsmaller, by simp⟩

end Chosen

/-! ## One registration -/

section Insertion

variable (region : Region ω) (regions : List (Region ω))

/-- The regions that a new one goes behind. -/
def ahead : List (Region ω) :=
  regions.takeWhile fun r => decide (region.priority ≤ r.priority)

/-- The regions that a new one goes before. -/
def behind : List (Region ω) :=
  regions.dropWhile fun r => decide (region.priority ≤ r.priority)

theorem ahead_append_behind : ahead region regions ++ behind region regions = regions :=
  List.takeWhile_append_dropWhile

theorem insertRegion_eq :
    insertRegion region regions = ahead region regions ++ region :: behind region regions := by
  induction regions with
  | nil => rfl
  | cons r rest ih =>
    unfold ahead behind at ih ⊢
    by_cases h : r.priority < region.priority
    · simp [insertRegion, h, Int.not_le.2 h]
    · simp [insertRegion, h, Int.not_lt.1 h, ih]

theorem priority_le_of_mem_ahead {r : Region ω} (h : r ∈ ahead region regions) :
    region.priority ≤ r.priority := by
  have := List.all_takeWhile (p := fun r => decide (region.priority ≤ r.priority)) (l := regions)
  simpa using List.all_eq_true.1 this r h

variable {regions}

/-- Regions by descending priority, from the first smaller one on. -/
theorem priority_lt_of_mem_behind
    (hsorted : regions.Pairwise fun r s => s.priority ≤ r.priority) {r : Region ω}
    (h : r ∈ behind region regions) : r.priority < region.priority := by
  induction regions with
  | nil => cases h
  | cons s rest ih =>
    rw [List.pairwise_cons] at hsorted
    by_cases hs : region.priority ≤ s.priority
    · simp only [behind, List.dropWhile_cons, hs, decide_true, if_true] at h
      exact ih hsorted.2 h
    · simp only [behind, List.dropWhile_cons, hs, decide_false, Bool.false_eq_true, if_false] at h
      rcases List.mem_cons.1 h with rfl | h
      · exact Int.not_le.1 hs
      · exact Int.lt_of_le_of_lt (hsorted.1 r h) (Int.not_le.1 hs)

theorem pairwise_insertRegion (hsorted : regions.Pairwise fun r s => s.priority ≤ r.priority) :
    (insertRegion region regions).Pairwise fun r s => s.priority ≤ r.priority := by
  have hparts := hsorted
  rw [← ahead_append_behind region regions, List.pairwise_append] at hparts
  rw [insertRegion_eq, List.pairwise_append, List.pairwise_cons]
  refine ⟨hparts.1, ⟨?_, hparts.2.1⟩, ?_⟩
  · intro s hs
    exact Int.le_of_lt (priority_lt_of_mem_behind region hsorted hs)
  · intro r hr s hs
    rcases List.mem_cons.1 hs with rfl | hs
    · exact priority_le_of_mem_ahead s regions hr
    · exact hparts.2.2 r hr s hs

/-- A new region answers for its range unless one that it goes behind does. -/
theorem find?_register_of_contains (d : Dispatcher ω) {region : Region ω} {addr : Word}
    (hcontains : region.range.contains addr = true) :
    (d.register region).find? addr =
      ((ahead region d.regions).find? (·.range.contains addr)).or (some region) := by
  simp [find?, register, insertRegion_eq, List.find?_append, hcontains]

theorem find?_eq_or (d : Dispatcher ω) (region : Region ω) (addr : Word) :
    d.find? addr = ((ahead region d.regions).find? (·.range.contains addr)).or
      ((behind region d.regions).find? (·.range.contains addr)) := by
  rw [← List.find?_append, ahead_append_behind]
  rfl

end Insertion

/-! ## All registrations -/

/-- The answers of a dispatcher are those of the regions that were registered in the
given order. -/
structure Registers (d : Dispatcher ω) (registered : List (Region ω)) : Prop where
  sorted : d.regions.Pairwise fun r s => s.priority ≤ r.priority
  chosen : ∀ {addr region}, d.find? addr = some region → Chosen registered addr region
  unclaimed : ∀ {addr}, d.find? addr = none → ∀ r ∈ registered, r.range.contains addr = false

theorem registers_empty : (empty : Dispatcher ω).Registers [] where
  sorted := .nil
  chosen h := by cases h
  unclaimed _ r hr := by cases hr

namespace Registers

variable {d : Dispatcher ω} {registered : List (Region ω)}

/-- Where no region ahead of a new one contains an address, those that contain it have
a smaller priority. -/
theorem priority_lt (h : d.Registers registered) {region : Region ω} {addr : Word}
    (hahead : (ahead region d.regions).find? (·.range.contains addr) = none) {r : Region ω}
    (hr : r ∈ registered) (hcontains : r.range.contains addr = true) :
    r.priority < region.priority := by
  have hparts := d.find?_eq_or region addr
  rw [hahead, Option.none_or] at hparts
  cases hfind : d.find? addr with
  | none =>
    rw [h.unclaimed hfind r hr] at hcontains
    cases hcontains
  | some first =>
    have hbehind : first ∈ behind region d.regions :=
      List.mem_of_find?_eq_some (hparts.symm.trans hfind)
    exact Int.lt_of_le_of_lt ((h.chosen hfind).priority_le hr hcontains)
      (priority_lt_of_mem_behind region h.sorted hbehind)

/-- A registration adds one region, behind all others. -/
theorem register (h : d.Registers registered) (region : Region ω) :
    (d.register region).Registers (registered ++ [region]) where
  sorted := pairwise_insertRegion region h.sorted
  chosen {addr answer} hfind := by
    by_cases hcontains : region.range.contains addr = true
    · rw [find?_register_of_contains d hcontains] at hfind
      cases hahead : (ahead region d.regions).find? (·.range.contains addr) with
      | none =>
        rw [hahead, Option.none_or] at hfind
        cases hfind
        exact .last hcontains fun r => h.priority_lt hahead
      | some first =>
        rw [hahead, Option.some_or] at hfind
        cases hfind
        have hbefore : d.find? addr = some answer := by
          rw [d.find?_eq_or region addr, hahead, Option.some_or]
        exact (h.chosen hbefore).append fun _ =>
          priority_le_of_mem_ahead region d.regions (List.mem_of_find?_eq_some hahead)
    · rw [find?_register_of_not_contains d (by simpa using hcontains)] at hfind
      exact (h.chosen hfind).append fun h => absurd h hcontains
  unclaimed {addr} hfind := by
    have hcontains : region.range.contains addr = false := by
      rw [Bool.eq_false_iff]
      intro hcontains
      rw [find?_register_of_contains d hcontains] at hfind
      simp at hfind
    rw [find?_register_of_not_contains d hcontains] at hfind
    intro r hr
    rcases List.mem_append.1 hr with hr | hr
    · exact h.unclaimed hfind r hr
    · rw [List.mem_singleton.1 hr, hcontains]

section

variable (h : d.Registers registered) {addr : Word} {region : Region ω}
include h

theorem find?_eq_some_iff : d.find? addr = some region ↔ Chosen registered addr region := by
  constructor
  · exact h.chosen
  · intro hchosen
    cases hfind : d.find? addr with
    | none =>
      have := h.unclaimed hfind region hchosen.mem
      rw [hchosen.contains] at this
      cases this
    | some answer => rw [(h.chosen hfind).unique hchosen]

theorem find?_eq_none_iff :
    d.find? addr = none ↔ ∀ r ∈ registered, r.range.contains addr = false := by
  constructor
  · exact h.unclaimed
  · intro hnone
    cases hfind : d.find? addr with
    | none => rfl
    | some answer =>
      have := hnone answer (h.chosen hfind).mem
      rw [(h.chosen hfind).contains] at this
      cases this

end

end Registers

end Dispatcher

end ArmEmulator
