import ArmEmulator.CommandLine

/-!
# Sums of addresses and sizes

Settings are validated with sums and differences of 64 bits, and one that overflows ends
the program.  Here they are judged over the integers: exactly the settings that make sense
are accepted, and the initial stack pointer of accepted settings is exact.  The only
operation that can overflow is the sum of base and size, which ends validation for memory
that ends at {lit}`2 ^ 64` or above.

Main results:

- Theorem {lit}`Configuration.validate_eq_ok_iff`: what is accepted.
- Theorem {lit}`Configuration.validate_eq_overflow_iff`: when validation ends the program.
- Theorem {lit}`Configuration.validate_exact`: both, with the end of memory and the place
  where the stack starts.
-/

namespace ArmEmulator

/-! ## Operations that tell when they overflow -/

section

variable {a b c : BitVec 64}

theorem sum?_eq_some_iff : sum? a b = some c ↔ a.toNat + b.toNat = c.toNat := by
  unfold sum? BitVec.uaddOverflow
  split
  · rename_i h
    have := c.isLt
    simp at h
    simp
    omega
  · rename_i h
    simp at h
    rw [Option.some.injEq, ← BitVec.toNat_inj, BitVec.toNat_add, Nat.mod_eq_of_lt h]

theorem sum?_eq_none_iff : sum? a b = none ↔ 0x10000000000000000 ≤ a.toNat + b.toNat := by
  simp [sum?, BitVec.uaddOverflow]

/-- What is no greater can be taken away. -/
theorem difference?_of_le (h : b.toNat ≤ a.toNat) : difference? a b = some (a - b) := by
  simp [difference?, BitVec.usubOverflow, h]

theorem difference?_eq_some_iff : difference? a b = some c ↔ a.toNat = b.toNat + c.toNat := by
  unfold difference? BitVec.usubOverflow
  split
  · rename_i h
    simp at h
    simp
    omega
  · rename_i h
    simp at h
    rw [Option.some.injEq, ← BitVec.toNat_inj, BitVec.toNat_sub_of_le h]
    omega

end

namespace Configuration

/-! ## Settings over the integers -/

/-- One past the last byte of memory, as a sum that does not overflow. -/
def exactEnd (c : Configuration) : Nat :=
  c.ramBase.toNat + c.ramSize.toNat

/-- The limits on the translation of code. -/
structure Bounded (c : Configuration) : Prop where
  codeCache : 4096 ≤ c.codeCacheSize
  block : 0 < c.maxBlockLength
  region : 0 < c.regionBlockLimit

/-- Settings that make sense over the integers: memory lies inside the address space,
and a word can point at the stack that starts below the guard. -/
structure Valid (c : Configuration) : Prop extends Bounded c where
  ram : 0 < c.ramSize.toNat
  space : c.exactEnd ≤ 0x100000000
  guard : c.stackGuard.toNat < c.ramSize.toNat
  stack : (c.exactEnd : Int) - c.stackGuard.toNat < 0x100000000

/-! ## Steps of validation -/

variable {c : Configuration}

/-- What passes a check goes on to the rest. -/
theorem check_eq_ok_iff {p : Prop} [Decidable p] {failure : Failure}
    {rest : Except Failure Unit} :
    (if p then .error failure else rest) = .ok () ↔ ¬p ∧ rest = .ok () := by
  by_cases h : p <;> simp [h]

/-- A check by itself does not overflow. -/
theorem check_eq_overflow_iff {p : Prop} [Decidable p] {error : Error} {operation : Overflow}
    {rest : Except Failure Unit} :
    (if p then .error (.invalid error) else rest) = .error (.overflow operation) ↔
      ¬p ∧ rest = .error (.overflow operation) := by
  by_cases h : p <;> simp [h]

theorem unlessOverflow_bind_eq_ok_iff {operation : Overflow} {result? : Option (BitVec 64)}
    {rest : BitVec 64 → Except Failure Unit} :
    (unlessOverflow operation result? >>= rest) = .ok () ↔
      ∃ result, result? = some result ∧ rest result = .ok () := by
  cases result? with
  | none => simp [unlessOverflow, bind, Except.bind]
  | some result => simp [unlessOverflow, bind, Except.bind]

theorem unlessOverflow_bind_eq_overflow_iff {operation operation' : Overflow}
    {result? : Option (BitVec 64)} {rest : BitVec 64 → Except Failure Unit} :
    (unlessOverflow operation result? >>= rest) = .error (.overflow operation') ↔
      (result? = none ∧ operation = operation') ∨
        ∃ result, result? = some result ∧ rest result = .error (.overflow operation') := by
  cases result? with
  | none => simp [unlessOverflow, bind, Except.bind]
  | some result => simp [unlessOverflow, bind, Except.bind]

theorem validateLimits_eq_ok_iff : c.validateLimits = .ok () ↔ c.Bounded := by
  simp only [validateLimits, check_eq_ok_iff, Nat.not_lt, ← Nat.pos_iff_ne_zero, and_true]
  exact ⟨fun ⟨hcache, hblock, hregion⟩ => ⟨hcache, hblock, hregion⟩,
    fun h => ⟨h.codeCache, h.block, h.region⟩⟩

theorem validateLimits_ne_overflow {operation : Overflow} :
    c.validateLimits ≠ .error (.overflow operation) := by
  simp [validateLimits, check_eq_overflow_iff]

/-! ## Operands -/

theorem toNat_guard (c : Configuration) :
    (c.stackGuard.setWidth 64).toNat = c.stackGuard.toNat :=
  BitVec.toNat_setWidth_of_le (by decide)

theorem toNat_base (c : Configuration) : (c.ramBase.setWidth 64).toNat = c.ramBase.toNat :=
  BitVec.toNat_setWidth_of_le (by decide)

/-- The end of memory is exact as far as it is known. -/
theorem ramEnd?_eq_some_iff {e : BitVec 64} : c.ramEnd? = some e ↔ c.exactEnd = e.toNat := by
  rw [ramEnd?, sum?_eq_some_iff, toNat_base, exactEnd]

theorem ramEnd?_eq_none_iff : c.ramEnd? = none ↔ 0x10000000000000000 ≤ c.exactEnd := by
  rw [ramEnd?, sum?_eq_none_iff, toNat_base, exactEnd]

theorem ramSize_eq_zero_iff : c.ramSize = 0 ↔ c.ramSize.toNat = 0 :=
  BitVec.toNat_inj.symm

theorem ramSize_le_guard_iff :
    c.ramSize ≤ c.stackGuard.setWidth 64 ↔ c.ramSize.toNat ≤ c.stackGuard.toNat := by
  rw [BitVec.le_def, toNat_guard]

/-- Nothing overflows on the way to the stack of valid settings. -/
theorem Valid.exists_top (h : c.Valid) :
    ∃ e top, c.ramEnd? = some e ∧ difference? e (c.stackGuard.setWidth 64) = some top ∧
      e.toNat = c.exactEnd ∧ top.toNat + c.stackGuard.toNat = c.exactEnd := by
  have hspace := h.space
  have hguard := h.guard
  have hsize : c.ramSize.toNat ≤ c.exactEnd := Nat.le_add_left ..
  obtain ⟨e, hend⟩ := Option.ne_none_iff_exists'.1
    (show c.ramEnd? ≠ none from fun hnone => by rw [ramEnd?_eq_none_iff] at hnone; omega)
  have hexact := ramEnd?_eq_some_iff.1 hend
  have htop := difference?_of_le (show (c.stackGuard.setWidth 64).toNat ≤ e.toNat by
    rw [toNat_guard]
    omega)
  have hbelow := difference?_eq_some_iff.1 htop
  rw [toNat_guard] at hbelow
  exact ⟨e, _, hend, htop, hexact.symm, by omega⟩

/-! ## What is accepted -/

/-- Exactly the settings that make sense are accepted. -/
theorem validate_eq_ok_iff : c.validate = .ok () ↔ c.Valid := by
  simp only [validate, check_eq_ok_iff, unlessOverflow_bind_eq_ok_iff, validateLimits_eq_ok_iff,
    ramSize_eq_zero_iff, ramSize_le_guard_iff, BitVec.lt_def, BitVec.reduceToNat]
  constructor
  · rintro ⟨hram, e, hend, hspace, hguard, top, htop, hword, hbounded⟩
    have hexact := ramEnd?_eq_some_iff.1 hend
    have hbelow := difference?_eq_some_iff.1 htop
    rw [toNat_guard] at hbelow
    exact ⟨hbounded, by omega, by omega, by omega, by omega⟩
  · intro h
    obtain ⟨e, top, hend, htop, hexact, hbelow⟩ := h.exists_top
    have hram := h.ram
    have hspace := h.space
    have hguard := h.guard
    have hstack := h.stack
    exact ⟨by omega, e, hend, by omega, by omega, top, htop, by omega, h.toBounded⟩

theorem limits_of_validate (h : c.validate = .ok ()) :
    c.maxBlockLength ≠ 0 ∧ c.regionBlockLimit ≠ 0 := by
  have hvalid := validate_eq_ok_iff.1 h
  exact ⟨Nat.ne_of_gt hvalid.block, Nat.ne_of_gt hvalid.region⟩

/-- Validation ends the program exactly where the sum of base and size overflows. -/
theorem validate_eq_overflow_iff {operation : Overflow} :
    c.validate = .error (.overflow operation) ↔
      operation = .sum ∧ 0x10000000000000000 ≤ c.exactEnd := by
  have hbase := c.ramBase.isLt
  have hexact : c.exactEnd = c.ramBase.toNat + c.ramSize.toNat := rfl
  simp only [validate, check_eq_overflow_iff, unlessOverflow_bind_eq_overflow_iff,
    ramEnd?_eq_none_iff, ramEnd?_eq_some_iff, ramSize_eq_zero_iff, ramSize_le_guard_iff,
    validateLimits_ne_overflow, and_false, exists_false, or_false]
  constructor
  · rintro ⟨-, ⟨hoverflow, rfl⟩ | ⟨e, hend, -, hguard, hborrow, rfl⟩⟩
    · exact ⟨rfl, hoverflow⟩
    · -- memory is larger than the guard, so nothing is borrowed
      have hroom : (c.stackGuard.setWidth 64).toNat ≤ e.toNat := by
        rw [toNat_guard]
        omega
      rw [difference?_of_le hroom] at hborrow
      cases hborrow
  · rintro ⟨rfl, hoverflow⟩
    exact ⟨by omega, .inl ⟨hoverflow, rfl⟩⟩

/-- A command line gives memory a size of 32 bits, so its settings do not overflow. -/
theorem validate_options_ne_overflow (o : CommandLine.Options) (operation : Overflow) :
    o.configuration.validate ≠ .error (.overflow operation) := by
  intro h
  obtain ⟨-, hoverflow⟩ := validate_eq_overflow_iff.1 h
  have hbase := o.ramBase.isLt
  have hsize := o.ramSize.isLt
  have hwide : (o.ramSize.setWidth 64).toNat = o.ramSize.toNat :=
    BitVec.toNat_setWidth_of_le (by decide)
  have hexact : o.configuration.exactEnd = o.ramBase.toNat + (o.ramSize.setWidth 64).toNat := rfl
  omega

/-! ## The initial stack pointer -/

/-- The initial stack pointer of valid settings is exact, and lies inside memory or right
behind it. -/
theorem stackTop_of_valid (h : c.Valid) :
    c.stackTop? = some c.stackTop ∧
      (c.stackTop.toNat : Int) = c.exactEnd - c.stackGuard.toNat ∧
      c.ramBase.toNat < c.stackTop.toNat ∧ c.stackTop.toNat ≤ c.exactEnd := by
  obtain ⟨e, top, hend, htop, -, hbelow⟩ := h.exists_top
  have hguard := h.guard
  have hstack := h.stack
  have hexact : c.exactEnd = c.ramBase.toNat + c.ramSize.toNat := rfl
  have hknown : c.stackTop? = some (top.setWidth 32) := by
    simp [stackTop?, hend, htop]
  have hvalue : c.stackTop.toNat = top.toNat := by
    rw [stackTop, hknown, Option.getD_some, BitVec.toNat_setWidth, Nat.mod_eq_of_lt (by omega)]
  refine ⟨?_, by omega, by omega, by omega⟩
  rw [stackTop, hknown]
  rfl

/-- Validation accepts exactly the valid settings, and ends the program exactly where the sum
of base and size is {lit}`2 ^ 64` or more; no other sum or difference overflows.  The end of
memory is exact as far as it is known.  The initial stack pointer of accepted settings is
known and exact, above the base and at most the end of memory. -/
theorem validate_exact (c : Configuration) :
    (c.validate = .ok () ↔ c.Valid) ∧
    (∀ operation, c.validate = .error (.overflow operation) ↔
      operation = .sum ∧ 0x10000000000000000 ≤ c.exactEnd) ∧
    (∀ e, c.ramEnd? = some e ↔ c.exactEnd = e.toNat) ∧
    (c.ramEnd? = none ↔ 0x10000000000000000 ≤ c.exactEnd) ∧
    (c.validate = .ok () →
      c.stackTop? = some c.stackTop ∧
      (c.stackTop.toNat : Int) = c.exactEnd - c.stackGuard.toNat ∧
      c.ramBase.toNat < c.stackTop.toNat ∧ c.stackTop.toNat ≤ c.exactEnd) :=
  ⟨validate_eq_ok_iff, fun _ => validate_eq_overflow_iff, fun _ => ramEnd?_eq_some_iff,
    ramEnd?_eq_none_iff, fun h => stackTop_of_valid (validate_eq_ok_iff.1 h)⟩

/-- Memory that ends with the address space, with the smallest guard. -/
theorem validate_exact_highest :
    let c := { default with ramBase := 0xc0000000, ramSize := 0x40000000, stackGuard := 1 }
    c.validate = .ok () ∧ c.stackTop.toNat = 0xffffffff ∧ c.stackTop? = some c.stackTop := by
  intro c
  have hok : c.validate = .ok () :=
    validate_eq_ok_iff.2 ⟨⟨by decide, by decide, by decide⟩, by decide, by decide, by decide, by decide⟩
  obtain ⟨-, -, -, -, haccepted⟩ := validate_exact c
  obtain ⟨hknown, -, -, -⟩ := haccepted hok
  exact ⟨hok, by decide, hknown⟩

/-- Memory of nearly {lit}`2 ^ 64` bytes that starts at 1 is not reported to run past the
address space: the sum of base and size overflows, which ends the program. -/
theorem validate_overflows :
    let c := { default with ramBase := 1, ramSize := 0xffffffffffffffff, stackGuard := 0 }
    ¬c.Valid ∧ c.ramEnd? = none ∧ c.validate = .error (.overflow .sum) ∧
      Overflow.sum.message = "attempt to add with overflow" := by
  intro c
  have hlarge : 0x10000000000000000 ≤ c.exactEnd := by decide
  exact ⟨fun h => absurd h.space (by decide), ramEnd?_eq_none_iff.2 hlarge,
    validate_eq_overflow_iff.2 ⟨rfl, hlarge⟩, rfl⟩

end Configuration

end ArmEmulator
