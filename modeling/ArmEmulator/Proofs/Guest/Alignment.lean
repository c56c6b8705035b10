import ArmEmulator.Proofs.Guest.Footprint

/-!
# Instructions and word boundaries

The program counter is written in many ways: by going on to the next word, by jumps to
computed or loaded values, by branches, and by writing a base register back.  All but two of
them lead to the address of a word if the instruction is at one: a branch to a register
drops the lowest bit only, and a single transfer writes its base back as it is.

Main results:

- Theorem {lit}`Operation.aligned_of_decode_branch`: a branch by a fixed distance goes a
  whole number of words.
- Theorem {lit}`Instruction.aligned_pc_iff`: when a decoded instruction at the address of a
  word goes on at the address of a word.
-/

namespace ArmEmulator

variable {ω : Type}

/-! ## Addresses of words -/

namespace Word

/-- Whether an address is that of a word. -/
def Aligned (addr : Word) : Prop :=
  addr.toNat % 4 = 0

instance (addr : Word) : Decidable addr.Aligned :=
  inferInstanceAs (Decidable (_ = _))

/-- The address of a word has its two lowest bits clear. -/
theorem aligned_iff {addr : Word} :
    addr.Aligned ↔ addr.getLsbD 0 = false ∧ addr.getLsbD 1 = false := by
  unfold Aligned
  simp only [BitVec.getLsbD, Nat.testBit_eq_decide_div_mod_eq, decide_eq_false_iff_not]
  omega

theorem Aligned.add {a b : Word} (ha : a.Aligned) (hb : b.Aligned) : (a + b).Aligned := by
  unfold Aligned at *
  rw [BitVec.toNat_add]
  omega

theorem Aligned.sub {a b : Word} (ha : a.Aligned) (hb : b.Aligned) : (a - b).Aligned := by
  unfold Aligned at *
  rw [BitVec.toNat_sub]
  omega

theorem aligned_ofNat_mul (k : Nat) : Aligned (BitVec.ofNat 32 (4 * k)) := by
  unfold Aligned
  rw [BitVec.toNat_ofNat]
  omega

/-- A number of words behind the address of a word there is one. -/
theorem Aligned.next {a : Word} (h : a.Aligned) (k : Nat) : (a.next k).Aligned :=
  h.add (aligned_ofNat_mul k)

/-- Masking out the two lowest bits gives the address of a word. -/
theorem aligned_and_not_three (a : Word) : (a &&& ~~~3).Aligned := by
  rw [aligned_iff]
  simp

/-- Masking out the lowest bit gives the address of a word if the next bit is clear. -/
theorem aligned_and_not_one {a : Word} : (a &&& ~~~1).Aligned ↔ a.getLsbD 1 = false := by
  rw [aligned_iff]
  simp

/-- A signed number of words is a number of bytes that is divided by four. -/
theorem aligned_signExtend (words : BitVec 24) : Aligned ((words ++ 0#2).signExtend 32) := by
  rw [aligned_iff]
  simp only [BitVec.getLsbD_signExtend, BitVec.getLsbD_append]
  exact ⟨rfl, rfl⟩

end Word

/-! ## Ways to go on -/

variable {addr : Word} {cpu cpu' : Cpu} {bus bus' : Bus ω}

/-- A jump leads to the address of a word. -/
theorem Cpu.aligned_jump (cpu : Cpu) (target : Word) : (cpu.jump target).pc.Aligned := by
  rw [jump, pc_setPc]
  exact Word.aligned_and_not_three target

/-- What lies behind a word starts with a word. -/
theorem Cpu.aligned_advance (h : addr.Aligned) (cpu : Cpu) : (cpu.advance addr).pc.Aligned := by
  rw [pc_advance]
  exact h.add rfl

/-- The instruction at the address of a word sees the address of a word in the program
counter. -/
theorem Cpu.aligned_readAt_pc (h : addr.Aligned) (cpu : Cpu) : (cpu.readAt addr .pc).Aligned :=
  h.add rfl

theorem DataProcessing.aligned_of_execute? {d : DataProcessing} (haddr : addr.Aligned)
    (h : d.execute? addr cpu = some cpu') : cpu'.pc.Aligned := by
  unfold DataProcessing.execute? at h
  obtain ⟨operand, -, h⟩ := Option.bind_eq_some_iff.1 h
  obtain ⟨result, -, h⟩ := Option.bind_eq_some_iff.1 h
  split at h
  · cases h
    exact Cpu.aligned_advance haddr _
  split at h
  · cases h
    exact Cpu.aligned_jump _ _
  · cases h
    exact Cpu.aligned_advance haddr _

theorem StatusTransfer.aligned_of_execute? {s : StatusTransfer} (haddr : addr.Aligned)
    (h : s.execute? addr cpu = some cpu') : cpu'.pc.Aligned := by
  cases s with
  | read rd spsr =>
      simp only [StatusTransfer.execute?, Option.some.injEq] at h
      rw [← h]
      split
      · exact Cpu.aligned_jump _ _
      · exact Cpu.aligned_advance haddr _
  | write spsr fields operand =>
      obtain ⟨value, -, h⟩ := Option.bind_eq_some_iff.1 h
      cases h
      exact Cpu.aligned_advance haddr _

/-! ## Single transfers -/

namespace Transfer

/-- Whether a transfer writes its base back to the program counter. -/
def basePc (t : Transfer) : Bool :=
  t.writesBack && t.rn == .pc

/-- Whether a transfer loads the program counter. -/
def loadsPc (t : Transfer) : Bool :=
  t.load && t.rd == .pc

theorem pc_writeBack {t : Transfer} (hback : t.basePc = true) (addr : Word) (cpu : Cpu) :
    (t.writeBack addr cpu).pc = t.offsetAddress addr cpu := by
  have hboth : t.writesBack = true ∧ t.rn = .pc := by simpa [basePc] using hback
  rw [writeBack, if_pos hboth.1, hboth.2]
  exact Cpu.reg_setReg_self ..

/-- Behind a transfer that does not load the program counter execution goes on at the base
written back to it, if there is one, else at the address of a word. -/
theorem pc_proceed (t : Transfer) (haddr : addr.Aligned)
    (hpc : t.basePc = true → cpu'.pc = t.offsetAddress addr cpu) :
    ¬t.basePc = true ∧ (t.proceed addr cpu').pc.Aligned ∨
      t.basePc = true ∧ (t.proceed addr cpu').pc = t.offsetAddress addr cpu := by
  have hproceed : t.proceed addr cpu' = if t.basePc then cpu' else cpu'.advance addr := rfl
  cases hback : t.basePc with
  | false =>
      rw [hproceed, hback, if_neg Bool.false_ne_true]
      exact .inl ⟨Bool.false_ne_true, Cpu.aligned_advance haddr cpu'⟩
  | true =>
      rw [hproceed, hback, if_pos rfl]
      exact .inr ⟨rfl, hpc hback⟩

/-- A transfer goes on at the address of a word, unless it writes its base back to the
program counter and does not load it: then it goes on at that base. -/
theorem pc_of_execute_ok {t : Transfer} (haddr : addr.Aligned)
    (h : t.execute addr cpu bus = .ok cpu' bus') :
    ¬(t.basePc = true ∧ t.loadsPc = false) ∧ cpu'.pc.Aligned ∨
      (t.basePc = true ∧ t.loadsPc = false) ∧ cpu'.pc = t.offsetAddress addr cpu := by
  cases hload : t.load with
  | true =>
      rw [execute_of_load hload] at h
      obtain ⟨value, -, rfl⟩ := Access.bind_pure_eq_ok_iff.1 h
      by_cases hrd : t.rd = .pc
      · rw [afterLoad, if_pos hrd]
        exact .inl ⟨by simp [loadsPc, hload, hrd], Cpu.aligned_jump _ _⟩
      · have hloads : t.loadsPc = false := by simp [loadsPc, hrd]
        rw [afterLoad, if_neg hrd]
        simp only [hloads, and_true]
        apply pc_proceed t haddr
        intro hback
        rw [Cpu.pc, Cpu.reg_setReg, if_neg hrd]
        exact pc_writeBack hback addr cpu
  | false =>
      have hloads : t.loadsPc = false := by simp [loadsPc, hload]
      rw [execute_of_store hload] at h
      obtain ⟨value, -, rfl⟩ := Access.bind_pure_eq_ok_iff.1 h
      simp only [hloads, and_true]
      exact pc_proceed t haddr fun hback => pc_writeBack hback addr cpu

end Transfer

/-! ## Multiple transfers -/

namespace MultiTransfer

/-- A base at the address of a word stays at one. -/
theorem aligned_finalBase (m : MultiTransfer) {base : Word} (h : base.Aligned) :
    (m.finalBase base).Aligned := by
  have hcount : m.byteCount.Aligned := Word.aligned_ofNat_mul m.list.count
  unfold finalBase
  split
  · exact h.add hcount
  · exact h.sub hcount

/-- Behind a multiple transfer that does not load the program counter execution goes on at
the address of a word, also where the base was written back to it. -/
theorem aligned_proceed (m : MultiTransfer) (haddr : addr.Aligned)
    (hpc : cpu'.pc = (m.writeBack addr cpu).pc) : (m.proceed addr cpu').pc.Aligned := by
  unfold proceed
  split
  · rename_i hback
    have hboth : m.writeback = true ∧ m.rn = .pc := by simpa using hback
    rw [hpc, writeBack, if_pos hboth.1, hboth.2, Cpu.pc, Cpu.reg_setReg_self]
    exact m.aligned_finalBase (Cpu.aligned_readAt_pc haddr cpu)
  · exact Cpu.aligned_advance haddr cpu'

/-- A multiple transfer goes on at the address of a word. -/
theorem aligned_of_execute {m : MultiTransfer} (haddr : addr.Aligned)
    (h : m.execute addr cpu bus = .ok cpu' bus') : cpu'.pc.Aligned := by
  unfold execute at h
  split at h
  · obtain ⟨values, -, rfl⟩ := Access.bind_pure_eq_ok_iff.1 h
    unfold afterLoad
    cases hlookup : values.lookup .pc with
    | some target => exact Cpu.aligned_jump _ target
    | none =>
        have hlisted : .pc ∉ values.map Prod.fst := by
          rw [← isSome_lookup_iff, hlookup]
          exact Bool.false_ne_true
        have hloaded : ((m.writeBack addr cpu).setList values).EqOutside (values.map Prod.fst)
            (m.writeBack addr cpu) := (Cpu.EqOutside.refl _ _).setList fun _ hr => hr
        exact m.aligned_proceed haddr (hloaded.reg .pc hlisted)
  · obtain ⟨written, -, rfl⟩ := Access.bind_pure_eq_ok_iff.1 h
    exact m.aligned_proceed haddr rfl

end MultiTransfer

/-! ## Branches -/

/-- A branch by a fixed distance goes a whole number of words. -/
theorem Operation.aligned_of_decode_branch {word bytes : Word} {link : Bool}
    (h : decode word = .branch ⟨link, .offset bytes⟩) : bytes.Aligned := by
  unfold decode ofTransferWord at h
  split at h
  · unfold ofRegisterWord at h
    split at h
    · cases h
    split at h
    · cases h
    split at h
    · exact absurd h (ofDataWord_ne_branch word _ _)
    · exact absurd h (ofDataWord_ne_branch word _ _)
  · exact absurd h (ofDataWord_ne_branch word _ _)
  · cases h
  · split at h <;> cases h
  · cases h
  · cases h
    exact Word.aligned_signExtend _
  · cases h
  · split at h <;> cases h

namespace Branch

variable {link : Bool}

theorem pc_execute (b : Branch) (addr : Word) (cpu : Cpu) :
    (b.execute addr cpu).2.pc = b.destination addr cpu :=
  Cpu.pc_setPc ..

/-- A branch by a whole number of words leads from a word to a word. -/
theorem aligned_destination {bytes : Word} (haddr : addr.Aligned) (hbytes : bytes.Aligned)
    (cpu : Cpu) : (destination ⟨link, .offset bytes⟩ addr cpu).Aligned :=
  Word.Aligned.add (haddr.add (b := 8) rfl) hbytes

/-- A branch to a register leads to a word if the second lowest bit of the register is
clear. -/
theorem aligned_destination_iff {r : Reg} :
    (destination ⟨link, .reg r⟩ addr cpu).Aligned ↔ (cpu.readAt addr r).getLsbD 1 = false :=
  Word.aligned_and_not_one

end Branch

/-! ## Instructions -/

namespace Instruction

/-- The two forms that may lead off the addresses of words: a branch to a register with its
second lowest bit set, and a single transfer that writes its base back to the program
counter and does not load it. -/
def Strays (i : Instruction) (addr : Word) (cpu : Cpu) : Prop :=
  i.cond.passes cpu.cpsr = true ∧
    ((∃ link r, i.op = .branch ⟨link, .reg r⟩ ∧ (cpu.readAt addr r).getLsbD 1 = true) ∨
      ∃ t, i.op = .transfer t ∧ t.basePc = true ∧ t.loadsPc = false)

theorem not_strays {i : Instruction} (hbranch : ∀ link r, i.op ≠ .branch ⟨link, .reg r⟩)
    (htransfer : ∀ t, i.op ≠ .transfer t) : ¬i.Strays addr cpu := by
  rintro ⟨-, ⟨link, r, hop, -⟩ | ⟨t, hop, -⟩⟩
  · exact hbranch link r hop
  · exact htransfer t hop

theorem strays_branch_iff {i : Instruction} {link : Bool} {r : Reg}
    (hop : i.op = .branch ⟨link, .reg r⟩) (hpasses : i.cond.passes cpu.cpsr = true) :
    i.Strays addr cpu ↔ (cpu.readAt addr r).getLsbD 1 = true := by
  constructor
  · rintro ⟨-, ⟨link', r', hop', hbit⟩ | ⟨t, hop', -⟩⟩
    · cases hop.symm.trans hop'
      exact hbit
    · cases hop.symm.trans hop'
  · intro hbit
    exact ⟨hpasses, .inl ⟨link, r, hop, hbit⟩⟩

theorem strays_transfer_iff {i : Instruction} {t : Transfer} (hop : i.op = .transfer t)
    (hpasses : i.cond.passes cpu.cpsr = true) :
    i.Strays addr cpu ↔ t.basePc = true ∧ t.loadsPc = false := by
  constructor
  · rintro ⟨-, ⟨link, r, hop', -⟩ | ⟨t', hop', hform⟩⟩
    · cases hop.symm.trans hop'
    · cases hop.symm.trans hop'
      exact hform
  · intro hform
    exact ⟨hpasses, .inr ⟨t, hop, hform⟩⟩

theorem aligned_of_orUnhandled {after? : Option Cpu} {word : Word} {outcome : Outcome}
    (haddr : addr.Aligned) (hafter : ∀ after, after? = some after → after.pc.Aligned)
    (h : orUnhandled addr word cpu after? = (outcome, cpu')) : cpu'.pc.Aligned := by
  cases after? with
  | some after =>
      cases h
      exact hafter cpu' rfl
  | none =>
      cases h
      exact Cpu.aligned_advance haddr cpu

/-- An operation that is neither a branch nor a single transfer goes on at the address of a
word. -/
theorem aligned_of_execute {i : Instruction} {word : Word} {outcome : Outcome}
    (haddr : addr.Aligned) (hbranch : ∀ b, i.op ≠ .branch b) (htransfer : ∀ t, i.op ≠ .transfer t)
    (h : i.execute addr word cpu bus = .ok (outcome, cpu') bus') : cpu'.pc.Aligned := by
  unfold execute at h
  split at h
  · cases hop : i.op with
    | dataProcessing d =>
        simp only [hop] at h
        obtain ⟨heq, -⟩ := Access.pure_eq_ok_iff.1 h
        exact aligned_of_orUnhandled haddr (fun _ => DataProcessing.aligned_of_execute? haddr) heq
    | transfer t => exact absurd hop (htransfer t)
    | multiTransfer m =>
        simp only [hop] at h
        obtain ⟨after, hm, heq⟩ := Access.bind_pure_eq_ok_iff.1 h
        cases heq
        exact MultiTransfer.aligned_of_execute haddr hm
    | branch b => exact absurd hop (hbranch b)
    | statusTransfer s =>
        simp only [hop] at h
        obtain ⟨heq, -⟩ := Access.pure_eq_ok_iff.1 h
        exact aligned_of_orUnhandled haddr (fun _ => StatusTransfer.aligned_of_execute? haddr) heq
    | coprocessor =>
        simp only [hop] at h
        cases h
        exact Cpu.aligned_advance haddr cpu
    | unknown w =>
        simp only [hop] at h
        cases h
        exact Cpu.aligned_advance haddr cpu
  · cases h
    exact Cpu.aligned_advance haddr cpu

/-- A decoded instruction at the address of a word that is done without a fault goes on at
the address of a word, unless it is of one of the two forms that may lead elsewhere.  Of
these a branch to a register does lead elsewhere, and a transfer does if the base that it
writes back is not the address of a word. -/
theorem aligned_pc_iff {word : Word} {outcome : Outcome} (haddr : addr.Aligned)
    (h : (decode word).execute addr word cpu bus = .ok (outcome, cpu') bus') :
    cpu'.pc.Aligned ↔ ((decode word).Strays addr cpu →
      ∃ t, (decode word).op = .transfer t ∧ (t.offsetAddress addr cpu).Aligned) := by
  cases hpasses : (decode word).cond.passes cpu.cpsr with
  | false =>
      rw [execute_of_fails hpasses] at h
      cases h
      refine iff_of_true (Cpu.aligned_advance haddr cpu) fun hstrays => ?_
      exact absurd (hpasses.symm.trans hstrays.1) Bool.false_ne_true
  | true =>
      cases hop : (decode word).op with
      | branch b =>
          obtain ⟨link, target⟩ := b
          have hpc : cpu'.pc = (⟨link, target⟩ : Branch).destination addr cpu := by
            rw [execute, if_pos hpasses] at h
            simp only [hop] at h
            cases h
            exact Branch.pc_execute _ addr cpu
          rw [hpc]
          cases target with
          | offset bytes =>
              have hbytes : bytes.Aligned := Operation.aligned_of_decode_branch hop
              refine iff_of_true (Branch.aligned_destination haddr hbytes cpu) fun hstrays => ?_
              exact absurd hstrays (not_strays (by simp [hop]) (by simp [hop]))
          | reg r =>
              rw [Branch.aligned_destination_iff, strays_branch_iff hop hpasses]
              simp
      | transfer t =>
          rw [execute, if_pos hpasses] at h
          simp only [hop] at h
          obtain ⟨after, ht, heq⟩ := Access.bind_pure_eq_ok_iff.1 h
          cases heq
          rw [strays_transfer_iff hop hpasses]
          rcases Transfer.pc_of_execute_ok haddr ht with ⟨hform, haligned⟩ | ⟨hform, hpc⟩
          · exact iff_of_true haligned fun h => absurd h hform
          · rw [hpc]
            simp [hform]
      | _ =>
          have haligned := aligned_of_execute haddr (by simp [hop]) (by simp [hop]) h
          exact iff_of_true haligned fun hstrays =>
            absurd hstrays (not_strays (by simp [hop]) (by simp [hop]))

end Instruction

end ArmEmulator
