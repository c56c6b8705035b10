import ArmEmulator.Proofs.Guest.Arithmetic

/-!
# Comparing words

A comparison of two words followed by a condition decides the relation that the condition
is named for: equality, order as unsigned or as signed numbers, and what their difference
looks like.  The signed order is right also where the difference leaves the range of a
signed word, since then the sign of the result and the overflow are both wrong.

Main results:

- Theorem {lit}`Cond.passes_iff_decides`: flags that describe a difference decide every
  condition.
- Theorem {lit}`Instruction.compare_decides`: so do the flags after a comparison.
-/

namespace ArmEmulator

/-! ## Relations of two words -/

/-- The relation of two words that a condition decides after they were compared. -/
def Cond.Decides (cond : Cond) (a b : Word) : Prop :=
  match cond with
  | eq => a = b
  | ne => a ≠ b
  | hs => b.toNat ≤ a.toNat
  | lo => a.toNat < b.toNat
  | mi => (a - b).getLsbD 31 = true
  | pl => (a - b).getLsbD 31 = false
  | vs => ¬ Word.InSignedRange (a.toInt - b.toInt)
  | vc => Word.InSignedRange (a.toInt - b.toInt)
  | hi => b.toNat < a.toNat
  | ls => a.toNat ≤ b.toNat
  | ge => b.toInt ≤ a.toInt
  | lt => a.toInt < b.toInt
  | gt => b.toInt < a.toInt
  | le => a.toInt ≤ b.toInt
  | al => True
  | nv => False

instance (cond : Cond) (a b : Word) : Decidable (cond.Decides a b) :=
  match cond with
  | .eq => inferInstanceAs (Decidable (a = b))
  | .ne => inferInstanceAs (Decidable (a ≠ b))
  | .hs => inferInstanceAs (Decidable (b.toNat ≤ a.toNat))
  | .lo => inferInstanceAs (Decidable (a.toNat < b.toNat))
  | .mi => inferInstanceAs (Decidable ((a - b).getLsbD 31 = true))
  | .pl => inferInstanceAs (Decidable ((a - b).getLsbD 31 = false))
  | .vs => inferInstanceAs (Decidable (¬ Word.InSignedRange (a.toInt - b.toInt)))
  | .vc => inferInstanceAs (Decidable (Word.InSignedRange (a.toInt - b.toInt)))
  | .hi => inferInstanceAs (Decidable (b.toNat < a.toNat))
  | .ls => inferInstanceAs (Decidable (a.toNat ≤ b.toNat))
  | .ge => inferInstanceAs (Decidable (b.toInt ≤ a.toInt))
  | .lt => inferInstanceAs (Decidable (a.toInt < b.toInt))
  | .gt => inferInstanceAs (Decidable (b.toInt < a.toInt))
  | .le => inferInstanceAs (Decidable (a.toInt ≤ b.toInt))
  | .al => inferInstanceAs (Decidable True)
  | .nv => inferInstanceAs (Decidable False)

/-! ## Flags of a difference -/

namespace Psr.Describes

variable {a b : Word} {r : AluResult} {psr psr' : Word} (hr : r.IsDifference a b)
  (h : Psr.Describes r psr psr')
include hr h

/-- The difference is zero exactly between equal words. -/
theorem zero_iff_eq : flag psr' .z = true ↔ a = b := by
  rw [h.zero, ← BitVec.toNat_inj]
  have := hr.value
  have := a.isLt
  have := b.isLt
  omega

/-- Nothing is borrowed from a word that is not below the other. -/
theorem carry_iff_le : flag psr' .c = true ↔ b.toNat ≤ a.toNat := by
  rw [h.carry, hr.carry]

theorem overflow_iff : flag psr' .v = true ↔ ¬ Word.InSignedRange (a.toInt - b.toInt) := by
  obtain ⟨v, hv, hoverflow⟩ := hr.overflow
  rw [h.overflow, hv, Option.getD_some, hoverflow]

/-- The result is the difference of the words. -/
theorem negative_iff : flag psr' .n = true ↔ (a - b).getLsbD 31 = true := by
  have hdifference : r.value = a - b := by
    have := hr.value
    have := a.isLt
    have := b.isLt
    apply BitVec.eq_of_toNat_eq
    rw [BitVec.toNat_sub]
    omega
  have hsign : (a - b).getLsbD 31 = (a - b).msb := rfl
  rw [h.negative, hdifference, hsign, BitVec.msb_eq_toInt, decide_eq_true_iff]

/-- Where the difference overflows its sign is wrong; so sign and overflow agree exactly if
the first word is not below the other as a signed number. -/
theorem negative_eq_overflow_iff :
    flag psr' .n = flag psr' .v ↔ b.toInt ≤ a.toInt := by
  rw [Bool.eq_iff_iff, h.negative, h.overflow_iff hr]
  have hvalue := hr.value
  have hrange (w : Word) : w.toInt =
      if 2 * w.toNat < 0x100000000 then (w.toNat : Int) else w.toNat - 0x100000000 :=
    BitVec.toInt_eq_toNat_cond w
  have := a.isLt
  have := b.isLt
  have := r.value.isLt
  unfold Word.InSignedRange
  rw [hrange a, hrange b, hrange r.value]
  split <;> split <;> split <;> omega

end Psr.Describes

/-- Flags that describe a difference decide every condition. -/
theorem Cond.passes_iff_decides {a b : Word} {r : AluResult} {psr psr' : Word}
    (hr : r.IsDifference a b) (h : Psr.Describes r psr psr') (cond : Cond) :
    cond.passes psr' = true ↔ cond.Decides a b := by
  have hzero := h.zero_iff_eq hr
  have hcarry := h.carry_iff_le hr
  have hnegative := h.negative_iff hr
  have hoverflow := h.overflow_iff hr
  have hsigned := h.negative_eq_overflow_iff hr
  cases cond with
  | eq => exact hzero
  | ne => simp [passes, Decides, ← hzero]
  | hs => exact hcarry
  | lo => simp [passes, Decides, ← Nat.not_le, ← hcarry]
  | mi => exact hnegative
  | pl =>
    rw [passes, Decides, Bool.not_eq_true', ← Bool.not_eq_true, hnegative, Bool.not_eq_true]
  | vs => exact hoverflow
  | vc =>
    rw [passes, Decides, Bool.not_eq_true', ← Bool.not_eq_true, hoverflow, Classical.not_not]
  | hi =>
    simp only [passes, Decides, Bool.and_eq_true, Bool.not_eq_true', ← Bool.not_eq_true, hcarry,
      hzero, ← BitVec.toNat_inj]
    omega
  | ls =>
    simp only [passes, Decides, Bool.or_eq_true, Bool.not_eq_true', ← Bool.not_eq_true, hcarry,
      hzero, ← BitVec.toNat_inj]
    omega
  | ge => simp [passes, Decides, hsigned]
  | lt => simp [passes, Decides, hsigned]
  | gt =>
    simp only [passes, Decides, Bool.and_eq_true, Bool.not_eq_true', ← Bool.not_eq_true, hzero,
      beq_iff_eq, hsigned, ← BitVec.toInt_inj]
    omega
  | le =>
    simp only [passes, Decides, Bool.or_eq_true, bne_iff_ne, ne_eq, hzero, hsigned,
      ← BitVec.toInt_inj]
    omega
  | al => simp [passes, Decides]
  | nv => simp [passes, Decides]

/-- After a comparison of the words {lit}`a` and {lit}`b`, whatever the status before, each
condition holds exactly if the relation that it is named for does. -/
theorem Instruction.compare_decides {ω : Type} {cond : Cond} {d : DataProcessing} {cpu : Cpu}
    {addr a b : Word} {shifterCarry : Bool} (hpasses : cond.passes cpu.cpsr = true)
    (hop : d.op = .cmp) (ha : cpu.readAt addr d.rn = a)
    (hb : d.operand.moved? addr cpu = some (b, shifterCarry)) (word : Word) (bus : Bus ω) :
    ∃ cpu', (⟨cond, .dataProcessing d⟩ : Instruction).execute addr word cpu bus =
        .ok (.executed, cpu') bus ∧
      ∀ c : Cond, c.passes cpu'.cpsr = true ↔ c.Decides a b := by
  have hcarry : d.op.readsCarry = false := by
    rw [hop]
    rfl
  have htest : d.op.isTest = true := by
    rw [hop]
    rfl
  obtain ⟨r, cpu', hr, hexecute, hupdates⟩ := DataProcessing.exists_updates hcarry hb
  rw [hop, ha] at hr
  exact ⟨cpu', DataProcessing.execute_eq_of_some hpasses hexecute word bus,
    Cond.passes_iff_decides hr (hupdates.described (.inl htest))⟩

/-- The least signed word is less than one, although their difference looks positive. -/
theorem Instruction.compare_decides_overflow :
    let d : DataProcessing := ⟨.cmp, true, .r0, .r0, .imm 1 0⟩
    let cpu := Cpu.initial.setReg .r0 0x80000000
    let bus := Bus.ofRam (.zeroed 0 0) ()
    (Cond.passes .al cpu.cpsr = true ∧ d.op = .cmp ∧ cpu.readAt 0 d.rn = 0x80000000 ∧
        d.operand.moved? 0 cpu = some (1, false)) ∧
      ∃ cpu', (⟨.al, .dataProcessing d⟩ : Instruction).execute 0 0xe3500001 cpu bus =
          .ok (.executed, cpu') bus ∧
        Cond.passes .lt cpu'.cpsr = true ∧ Cond.passes .hi cpu'.cpsr = true ∧
        Cond.passes .mi cpu'.cpsr = false := by
  intro d cpu bus
  have hpasses : Cond.passes .al cpu.cpsr = true := by decide
  have ha : cpu.readAt 0 d.rn = 0x80000000 := by decide
  have hb : d.operand.moved? 0 cpu = some (1, false) := by decide
  obtain ⟨cpu', hexecute, hdecides⟩ :=
    Instruction.compare_decides hpasses rfl ha hb 0xe3500001 bus
  refine ⟨⟨hpasses, rfl, ha, hb⟩, cpu', hexecute, ?_, ?_, ?_⟩
  · exact (hdecides .lt).2 (by decide)
  · exact (hdecides .hi).2 (by decide)
  · rw [← Bool.not_eq_true, hdecides]
    decide

end ArmEmulator
