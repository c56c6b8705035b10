import ArmEmulator.Device.Bench
import ArmEmulator.Proofs.Bus.Registration

/-!
# Resolving an address

Four functions tell about the device at an address: whether there is one, its name, what
it reads as, and whether it took a write.  All four mean the same device.  After any
registrations it is the one of the greatest priority among those registered for the
address, and among equals the one registered first; all registrations are kept, each
once, by descending priority and in their order where the priorities are equal.

Main results:

- Theorem {lit}`Dispatcher.answers_find?`: the four functions mean one device.
- Theorems {lit}`Dispatcher.perm_registerAll` and
  {lit}`Dispatcher.filter_priority_registerAll`: what is kept of the registrations.
- Theorem {lit}`Dispatcher.registerAll_resolves`: which device answers an address after
  any registrations.
-/

namespace ArmEmulator

namespace Dispatcher

variable {ω : Type}

/-! ## The four functions -/

/-- What the four functions tell about an address is what one region answers, or that
there is none. -/
structure Answers (d : Dispatcher ω) (addr : Word) (answer? : Option (Region ω)) : Prop where
  claims : d.claims addr = answer?.isSome
  owner : d.owner? addr = answer?.map (·.name)
  read : d.tryRead addr =
    answer?.elim (pure none) fun region => some <$> region.handler.read addr
  write : ∀ value, d.tryWrite addr value =
    answer?.elim (pure false) fun region => do
      region.handler.write addr value
      return true

/-- The four functions mean one device. -/
theorem answers_find? (d : Dispatcher ω) (addr : Word) : d.Answers addr (d.find? addr) where
  claims := by
    rw [claims, find?, Bool.eq_iff_iff, List.find?_isSome, List.any_eq_true]
  owner := rfl
  read := by
    rw [tryRead]
    cases d.find? addr <;> rfl
  write value := by
    rw [tryWrite]
    cases d.find? addr <;> rfl

/-! ## One registration after another -/

/-- Registers devices one after another. -/
def registerAll (d : Dispatcher ω) (regions : List (Region ω)) : Dispatcher ω :=
  regions.foldl register d

/-- A registration is added to those before it, and none of them is lost. -/
theorem perm_register (d : Dispatcher ω) (region : Region ω) :
    (d.register region).regions.Perm (d.regions ++ [region]) := by
  have hfront : (d.register region).regions.Perm
      (region :: (ahead region d.regions ++ behind region d.regions)) := by
    rw [register, insertRegion_eq]
    exact List.perm_middle
  rw [ahead_append_behind] at hfront
  exact hfront.trans (List.perm_append_singleton region _).symm

theorem perm_registerAll (d : Dispatcher ω) (regions : List (Region ω)) :
    (d.registerAll regions).regions.Perm (d.regions ++ regions) := by
  induction regions generalizing d with
  | nil => simp [registerAll]
  | cons region rest ih =>
      have hrest := (ih (d.register region)).trans ((perm_register d region).append_right rest)
      rwa [List.append_assoc] at hrest

/-- A registration goes behind all those of its priority. -/
theorem filter_priority_register {d : Dispatcher ω}
    (hsorted : d.regions.Pairwise fun r s => s.priority ≤ r.priority) (region : Region ω)
    (p : Int) :
    (d.register region).regions.filter (·.priority == p) =
      (d.regions ++ [region]).filter (·.priority == p) := by
  have hparts := congrArg (List.filter (·.priority == p)) (ahead_append_behind region d.regions)
  rw [List.filter_append] at hparts
  rw [register, insertRegion_eq, List.filter_append, List.filter_append, ← hparts,
    List.append_assoc]
  refine (List.append_right_inj _).2 ?_
  by_cases hp : region.priority = p
  · -- all regions that it goes before have a smaller priority
    have hbehind : (behind region d.regions).filter (·.priority == p) = [] := by
      rw [List.filter_eq_nil_iff]
      intro r hr
      have := priority_lt_of_mem_behind region hsorted hr
      rw [beq_iff_eq]
      omega
    simp [hp, hbehind]
  · simp [hp]

theorem pairwise_registerAll {d : Dispatcher ω}
    (hsorted : d.regions.Pairwise fun r s => s.priority ≤ r.priority)
    (regions : List (Region ω)) :
    (d.registerAll regions).regions.Pairwise fun r s => s.priority ≤ r.priority := by
  induction regions generalizing d with
  | nil => exact hsorted
  | cons region rest ih => exact ih (pairwise_insertRegion region hsorted)

/-- Registrations of one priority are kept in their order. -/
theorem filter_priority_registerAll {d : Dispatcher ω}
    (hsorted : d.regions.Pairwise fun r s => s.priority ≤ r.priority)
    (regions : List (Region ω)) (p : Int) :
    (d.registerAll regions).regions.filter (·.priority == p) =
      (d.regions ++ regions).filter (·.priority == p) := by
  induction regions generalizing d with
  | nil => simp [registerAll]
  | cons region rest ih =>
      have hrest := ih (d := d.register region) (pairwise_insertRegion region hsorted)
      rw [List.filter_append, filter_priority_register hsorted, ← List.filter_append,
        List.append_assoc] at hrest
      exact hrest

/-- The answers are those of all regions that were registered, in their order. -/
theorem Registers.registerAll {d : Dispatcher ω} {registered : List (Region ω)}
    (h : d.Registers registered) (regions : List (Region ω)) :
    (d.registerAll regions).Registers (registered ++ regions) := by
  induction regions generalizing d registered with
  | nil => rwa [List.append_nil]
  | cons region rest ih =>
      have hrest := ih (h.register region)
      rwa [List.append_assoc] at hrest

/-! ## Which device answers -/

/-- After any registrations the four functions mean one region: the one of the greatest
priority among those that contain the address, and among equals the first.  Another
registration outside the address changes none of the four answers.  The regions that are
kept are those that were registered, by descending priority, and those of one priority are
in their order. -/
theorem registerAll_resolves (registered : List (Region ω)) :
    let d := (empty : Dispatcher ω).registerAll registered
    (∀ addr, ∃ answer? : Option (Region ω), d.Answers addr answer? ∧
      (∀ region, answer? = some region ↔ Chosen registered addr region) ∧
      (answer? = none ↔ ∀ region ∈ registered, region.range.contains addr = false) ∧
      ∀ next : Region ω, next.range.contains addr = false →
        (d.register next).Answers addr answer?) ∧
      d.regions.Perm registered ∧
      (d.regions.Pairwise fun r s => s.priority ≤ r.priority) ∧
      ∀ p, d.regions.filter (·.priority == p) = registered.filter (·.priority == p) := by
  intro d
  have hregisters : d.Registers registered := registers_empty.registerAll registered
  refine ⟨fun addr => ⟨d.find? addr, d.answers_find? addr, ?_, ?_, ?_⟩, ?_, ?_, ?_⟩
  · intro region
    exact hregisters.find?_eq_some_iff
  · exact hregisters.find?_eq_none_iff
  · intro next hnext
    rw [← find?_register_of_not_contains d hnext]
    exact answers_find? _ addr
  · exact perm_registerAll empty registered
  · exact pairwise_registerAll .nil registered
  · exact filter_priority_registerAll .nil registered

/-- A wide device, a narrow one of greater priority inside it, and a third one over the same
addresses that the second one shadows. -/
theorem registerAll_resolves_shadowed :
    let device (name : String) (first last : Word) (priority : Int) : Region Bench :=
      ⟨name, ⟨first, last⟩, priority, .probe name 0⟩
    let wide := device "wide" 0x1000 0x1fff 0
    let narrow := device "narrow" 0x1100 0x11ff 10
    let d := empty.registerAll [wide, narrow, device "shadowed" 0x1100 0x11ff 10]
    (d.Answers 0x1104 (some narrow) ∧ d.Answers 0x1204 (some wide) ∧ d.Answers 0x2000 none) ∧
      ∀ next : Region Bench, next.range.contains 0x1104 = false →
        (d.register next).Answers 0x1104 (some narrow) := by
  intro device wide narrow d
  have hresolves := (registerAll_resolves [wide, narrow, device "shadowed" 0x1100 0x11ff 10]).1
  obtain ⟨first?, hfirst, hfirstSome, -, hfirstKept⟩ := hresolves 0x1104
  obtain ⟨second?, hsecond, hsecondSome, -, -⟩ := hresolves 0x1204
  obtain ⟨third?, hthird, -, hthirdNone, -⟩ := hresolves 0x2000
  have hnarrow : first? = some narrow :=
    (hfirstSome narrow).2 ⟨[wide], [device "shadowed" 0x1100 0x11ff 10], rfl, by decide,
      by simp [wide, narrow, device], by simp [narrow, device]⟩
  have hwide : second? = some wide :=
    (hsecondSome wide).2 ⟨[], [narrow, device "shadowed" 0x1100 0x11ff 10], rfl, by decide,
      by simp, by simp [narrow, device, AddressRange.contains]⟩
  have hnone : third? = none := hthirdNone.2 (by simp [wide, narrow, device, AddressRange.contains])
  subst hnarrow hwide hnone
  exact ⟨⟨hfirst, hsecond, hthird⟩, hfirstKept⟩

end Dispatcher

end ArmEmulator
