import ArmEmulator.Proofs.Block.Lowering
import ArmEmulator.Proofs.Block.Returning

/-!
# Calling convention of blocks

A block is a host function like any other.  Whatever instructions it was made from,
whatever state it is entered with and whatever the functions do that it calls, it
comes to its return with the stack and the saved registers of its caller as they
were, and its result tells whether a function that it called reported failure.  On
the way every instruction keeps the rules of the frame.

Main results:

- Theorem {lit}`honours_translate_next`: the code of an instruction that does not write
  the program counter goes on behind itself.
- Theorem {lit}`honours_translate_exit`: the code of any other leaves the block.
- Theorem {lit}`requestCode_keeps_convention`: blocks keep the calling convention and
  the frame.
-/

namespace ArmEmulator.Block

open Host (Machine Linkage Instr Code Item Label)

open FrameState (loaded)

variable {ε : Type}

/-! ## Facts along the code of instructions -/

namespace FrameState

/-- What is known while the guest registers lie in the processor state and {lit}`rax`
points to it. -/
def spilled (scratch : Bool) : FrameState where
  temporaries := 0
  pointer := true
  parked := false
  scratch

variable {s : Bool} {is js : List Instr} {a a' : FrameState}

theorem steps?_append_of_eq_some (h : a.steps? is = some a') (js : List Instr) :
    a.steps? (is ++ js) = a'.steps? js := by
  rw [steps?_append, h, Option.bind_some]

theorem steps?_cons_of_eq_some {i : Instr} (h : a.step? i = some a') (is : List Instr) :
    a.steps? (i :: is) = a'.steps? is := by
  rw [steps?, h, Option.bind_some]

theorem steps?_spill : (loaded 0).steps? spill = some (spilled false) := rfl

theorem steps?_reload (p : Bool) : steps? ⟨0, p, false, s⟩ reload = some ⟨0, false, false, s⟩ := by
  cases p <;> cases s <;> rfl

/-- Loading a guest register from the processor state. -/
theorem step?_load32_stateReg {dst : Host.Reg} (hrsp : dst ≠ .rsp) (hrax : dst ≠ .rax) (r : Reg) :
    (spilled s).step? (.load32 dst (stateReg r)) = some (spilled s) := by
  have hwrite : (spilled s).write? dst = some (spilled s) := by
    rw [write?, if_neg hrsp, bne_iff_ne.2 hrax]
    rfl
  cases r <;> exact hwrite

/-- Storing a guest register into the processor state. -/
theorem step?_store32_stateReg {src : Host.Reg} (hsrc : src ≠ .rsp) (r : Reg) :
    (spilled s).step? (.store32 (stateReg r) src) = some (spilled s) := by
  rw [step?, if_neg hsrc]
  cases r <;> rfl

theorem steps?_testCondition (cond : Cond) :
    (loaded 0).steps? (testCondition cond) = some (loaded 0) := rfl

theorem steps?_captureFlags (carry : CarrySource) (overflow : Bool) :
    (loaded 0).steps? (captureFlags carry overflow) = some (loaded 0) := by
  cases carry <;> cases overflow <;> rfl

/-! ### Transfers -/

theorem steps?_transferAddress (addr : Word) (t : Transfer) :
    (spilled s).steps? (transferAddress addr t) = some (spilled s) := by
  have hbase : (spilled s).step? (if t.rn = .pc then .movImm .rdx (addr + 8)
      else .load32 .rdx (stateReg t.rn)) = some (spilled s) := by
    split
    · rfl
    · exact step?_load32_stateReg (by decide) (by decide) t.rn
  unfold transferAddress
  dsimp only
  rw [steps?_cons_of_eq_some hbase]
  have hmove : (spilled s).step? (.mov .rsi .rdx) = some (spilled s) := rfl
  rw [steps?_cons_of_eq_some hmove]
  cases t.offset with
  | imm value => rfl
  | reg r =>
      dsimp only
      have hread : (spilled s).step? (.load32 .rcx (stateReg r.reg)) = some (spilled s) :=
        step?_load32_stateReg (by decide) (by decide) r.reg
      rw [List.cons_append, steps?_cons_of_eq_some hread]
      split <;> rfl

theorem steps?_updateBase (rn : Reg) (delta : Word) (p : Bool) :
    steps? ⟨0, p, false, s⟩ (updateBase rn delta) = some (spilled s) := by
  have hpointer : step? ⟨0, p, false, s⟩ (.load64 .rax (stateSlot 0)) = some (spilled s) := by
    cases p <;> rfl
  have hread : (spilled s).step? (.load32 .rcx (stateReg rn)) = some (spilled s) :=
    step?_load32_stateReg (by decide) (by decide) rn
  have hadd : (spilled s).step? (.aluImm .add .rcx delta) = some (spilled s) := rfl
  have hwrite : (spilled s).step? (.store32 (stateReg rn) .rcx) = some (spilled s) :=
    step?_store32_stateReg (by decide) rn
  rw [updateBase, steps?_cons_of_eq_some hpointer, steps?_cons_of_eq_some hread,
    steps?_cons_of_eq_some hadd, steps?_cons_of_eq_some hwrite]
  rfl

/-! ### Data processing -/

variable {n : Nat} {x y : Source} {dst : Host.Reg}

/-- A register may be written while the guest is loaded. -/
theorem write?_loaded (hdst : dst ≠ .rsp) : (loaded n).write? dst = some (loaded n) := by
  rw [write?, if_neg hdst]
  rfl

theorem steps?_moveTo (hx : x.Readable) (hdst : dst ≠ .rsp) :
    (loaded n).steps? (x.moveTo dst) = some (loaded n) := by
  cases x with
  | imm value =>
      refine steps?_cons_of_eq_some ?_ []
      exact write?_loaded hdst
  | reg r =>
      have hr : r ≠ .rsp := fun heq => hx (heq ▸ rfl)
      unfold Source.moveTo
      dsimp only
      split
      · rfl
      · refine steps?_cons_of_eq_some ?_ []
        rw [step?, if_neg hr, write?_loaded hdst]

theorem steps?_applyTo (hx : x.Readable) (op : Host.Alu) (hdst : dst ≠ .rsp) :
    (loaded n).steps? (x.applyTo op dst) = some (loaded n) := by
  cases x with
  | imm value =>
      refine steps?_cons_of_eq_some ?_ []
      exact write?_loaded hdst
  | reg r =>
      have hr : r ≠ .rsp := fun heq => hx (heq ▸ rfl)
      refine steps?_cons_of_eq_some ?_ []
      rw [step?, if_neg hr, write?_loaded hdst]

theorem step?_push (hdst : dst ≠ .rsp) :
    (loaded n).step? (.push dst) = some (loaded (n + 1)) := by
  rw [step?, if_neg hdst]
  rfl

theorem step?_pop (hdst : dst ≠ .rsp) : (loaded (n + 1)).step? (.pop dst) = some (loaded n) :=
  write?_loaded hdst

theorem steps?_commutative (hx : x.Readable) (hy : y.Readable) (op : Host.Alu)
    (hdst : dst ≠ .rsp) :
    (loaded 0).steps? (commutative op dst x y) = some (loaded 0) := by
  unfold commutative
  split
  · exact steps?_applyTo hx op hdst
  · rw [steps?_append_of_eq_some (steps?_moveTo hx hdst), steps?_applyTo hy op hdst]

theorem steps?_subtract (hx : x.Readable) (hy : y.Readable) (hdst : dst ≠ .rsp) :
    (loaded 0).steps? (subtract dst x y) = some (loaded 0) := by
  obtain ⟨-, -, hscratch⟩ := scratchFor_ne x y
  unfold subtract
  split
  · have hmove : (loaded 1).step? (.mov dst (scratchFor x y)) = some (loaded 1) := by
      rw [step?, if_neg hscratch, write?_loaded hdst]
    dsimp only
    rw [List.cons_append, List.cons_append, steps?_cons_of_eq_some (step?_push hscratch),
      List.append_assoc, steps?_append_of_eq_some (steps?_moveTo hx hscratch),
      steps?_append_of_eq_some (steps?_applyTo hy .sub hscratch), steps?_cons_of_eq_some hmove,
      steps?_cons_of_eq_some (step?_pop hscratch)]
    rfl
  · rw [steps?_append_of_eq_some (steps?_moveTo hx hdst), steps?_applyTo hy .sub hdst]

theorem steps?_scratchOperation (hx : x.Readable) (hy : y.Readable) (op : Host.Alu) :
    (loaded 0).steps? (scratchOperation op x y) = some (loaded 0) := by
  obtain ⟨-, -, hscratch⟩ := scratchFor_ne x y
  unfold scratchOperation
  dsimp only
  rw [List.cons_append, List.cons_append, steps?_cons_of_eq_some (step?_push hscratch),
    List.append_assoc, steps?_append_of_eq_some (steps?_moveTo hx hscratch),
    steps?_append_of_eq_some (steps?_applyTo hy op hscratch),
    steps?_cons_of_eq_some (step?_pop hscratch)]
  rfl

theorem steps?_compare (hx : x.Readable) (hy : y.Readable) :
    (loaded 0).steps? (compare x y) = some (loaded 0) := by
  cases x with
  | reg r => exact steps?_applyTo hy .cmp fun heq => hx (heq ▸ rfl)
  | imm value => exact steps?_scratchOperation hx hy .cmp

theorem steps?_testBits (hx : x.Readable) (hy : y.Readable) :
    (loaded 0).steps? (testBits x y) = some (loaded 0) := by
  cases x with
  | reg r =>
      have hr : r ≠ .rsp := fun heq => hx (heq ▸ rfl)
      cases y with
      | reg q =>
          have hq : q ≠ .rsp := fun heq => hy (heq ▸ rfl)
          refine steps?_cons_of_eq_some ?_ []
          rw [step?, if_neg (not_or.2 ⟨hr, hq⟩)]
      | imm value =>
          refine steps?_cons_of_eq_some ?_ []
          rw [step?, if_neg hr]
  | imm value =>
      cases y with
      | reg q =>
          have hq : q ≠ .rsp := fun heq => hy (heq ▸ rfl)
          refine steps?_cons_of_eq_some ?_ []
          rw [step?, if_neg hq]
      | imm value' => rfl

/-- The flags of a result are captured. -/
theorem steps?_append_captureFlags (h : (loaded 0).steps? is = some (loaded 0))
    (carry : CarrySource) (overflow : Bool) :
    (loaded 0).steps? (is ++ captureFlags carry overflow) = some (loaded 0) := by
  rw [steps?_append_of_eq_some h, steps?_captureFlags]

/-- The flags of a result are captured if they are to be set. -/
theorem steps?_append_flags (h : (loaded 0).steps? is = some (loaded 0)) (setFlags : Bool)
    (carry : CarrySource) (overflow : Bool) :
    (loaded 0).steps? (is ++ if setFlags then captureFlags carry overflow else []) =
      some (loaded 0) := by
  cases setFlags with
  | false => exact (steps?_append_of_eq_some h []).trans rfl
  | true => exact steps?_append_captureFlags h carry overflow

/-- The flags of a moved value are those of a test of it. -/
theorem steps?_append_test (h : (loaded 0).steps? is = some (loaded 0)) (hdst : dst ≠ .rsp)
    (setFlags : Bool) (carry : CarrySource) :
    (loaded 0).steps? (is ++
      if setFlags then .test dst dst :: captureFlags carry false else []) = some (loaded 0) := by
  have htest : (loaded 0).step? (.test dst dst) = some (loaded 0) := by
    rw [step?, if_neg (not_or.2 ⟨hdst, hdst⟩)]
  rw [steps?_append_of_eq_some h]
  cases setFlags with
  | false => rfl
  | true => exact (steps?_cons_of_eq_some htest _).trans (steps?_captureFlags carry false)

/-- The code of an operation leaves the frame as it was. -/
theorem steps?_operation {op : AluOp} {setFlags : Bool} {dst? : Option Host.Reg}
    {carry : CarrySource} {body : List Instr} (hx : x.Readable) (hy : y.Readable)
    (hdst : ∀ dst, dst? = some dst → dst ≠ .rsp)
    (h : operation? op setFlags dst? x y carry = some body) :
    (loaded 0).steps? body = some (loaded 0) := by
  unfold operation? at h
  dsimp only at h
  split at h
  · rename_i dst
    cases h
    exact steps?_append_test (steps?_moveTo hy (hdst dst rfl)) (hdst dst rfl) setFlags carry
  · rename_i dst
    cases h
    have hnot : (loaded 0).steps? (y.moveTo dst ++ [.not dst]) = some (loaded 0) := by
      rw [steps?_append_of_eq_some (steps?_moveTo hy (hdst dst rfl))]
      refine steps?_cons_of_eq_some ?_ []
      exact write?_loaded (hdst dst rfl)
    have hall := steps?_append_test hnot (hdst dst rfl) setFlags carry
    rw [List.append_assoc] at hall
    exact hall
  · rename_i dst
    cases h
    exact steps?_append_flags (steps?_commutative hx hy .and (hdst dst rfl)) setFlags carry false
  · rename_i dst
    cases h
    exact steps?_append_flags (steps?_commutative hx hy .xor (hdst dst rfl)) setFlags carry false
  · rename_i dst
    cases h
    exact steps?_append_flags (steps?_commutative hx hy .or (hdst dst rfl)) setFlags carry false
  · rename_i dst
    cases h
    exact steps?_append_flags (steps?_commutative hx hy .add (hdst dst rfl)) setFlags (.host .b)
      true
  · rename_i dst
    cases h
    exact steps?_append_flags (steps?_subtract hx hy (hdst dst rfl)) setFlags (.host .ae) true
  · cases h
    exact steps?_append_captureFlags (steps?_compare hx hy) (.host .ae) true
  · cases h
    exact steps?_append_captureFlags (steps?_scratchOperation hx hy .add) (.host .b) true
  · cases h
    exact steps?_append_captureFlags (steps?_scratchOperation hx hy .xor) carry false
  · cases h
    exact steps?_append_captureFlags (steps?_testBits hx hy) carry false
  · cases h

end FrameState

/-! ## Code of instructions -/

/-- The three helpers are functions, whatever they do. -/
structure Serves (helpers : Helpers) (link : Linkage ε) : Prop where
  interpret : (link.function? helpers.interpret).isSome
  load : (link.function? helpers.load).isSome
  store : (link.function? helpers.store).isSome

/-- The addresses of the three helpers. -/
def Helpers.all (helpers : Helpers) : List (BitVec 64) :=
  [helpers.interpret, helpers.load, helpers.store]

theorem Serves.of_mem {helpers : Helpers} {link : Linkage ε} (h : Serves helpers link)
    {target : BitVec 64} (htarget : target ∈ helpers.all) : (link.function? target).isSome := by
  simp only [Helpers.all, List.mem_cons, List.not_mem_nil, or_false] at htarget
  rcases htarget with rfl | rfl | rfl
  · exact h.interpret
  · exact h.load
  · exact h.store

/-- A transfer is done by one of two helpers. -/
theorem Helpers.access_mem_all (helpers : Helpers) (load : Bool) :
    (if load then helpers.load else helpers.store) ∈ helpers.all := by
  split <;> simp [Helpers.all]

/-- Code put together of straight-line code that the facts about the frame admit and of
helper calls, with what is known before it and behind it. -/
inductive Admitted (helpers : Helpers) : FrameState → Code → FrameState → Prop
  | ofInstrs {a a' : FrameState} {is : List Instr} :
    a.steps? is = some a' → Admitted helpers a (Code.ofInstrs is) a'
  | callHelper {a : FrameState} {target : BitVec 64} : target ∈ helpers.all →
    a.temporaries = 0 → a.parked = false → Admitted helpers a (callHelper target) a.forgetPointer
  | append {a a' a'' : FrameState} {code code' : Code} : Admitted helpers a code a' →
    Admitted helpers a' code' a'' → Admitted helpers a (code ++ code') a''
  | forgetPointer {a a' : FrameState} {code : Code} : Admitted helpers a code a' →
    Admitted helpers a code a'.forgetPointer
  | weaken {a a' : FrameState} {code : Code} : Admitted helpers a code a' →
    a'.temporaries = 0 → a'.parked = false → Admitted helpers a code (loaded 0)

/-- Admitted code goes on behind itself or jumps to the fault exit. -/
theorem Admitted.passes {helpers : Helpers} {link : Linkage ε} (hserves : Serves helpers link)
    (saved : Host.Reg → BitVec 64) {a a' : FrameState} {code : Code}
    (h : Admitted helpers a code a') : Passes link saved a code a' := by
  induction h with
  | ofInstrs h => exact .ofInstrs h
  | callHelper htarget htemporaries hparked =>
      exact .callHelper htemporaries hparked (hserves.of_mem htarget)
  | append _ _ ih ih' => exact ih.append ih'
  | forgetPointer _ ih => exact ih.forgetPointer
  | weaken _ htemporaries hparked ih => exact ih.weaken htemporaries hparked

section Instructions

open FrameState (spilled)

variable {helpers : Helpers} {link : Linkage ε} {saved : Host.Reg → BitVec 64} {addr word : Word}
  {m : Machine ε} {rest : Code} {cond : Cond} {skip : Label} {code body : Code}

/-- Code that stores the guest and leaves. -/
theorem honours_leave {is : List Instr} (his : (loaded 0).steps? is = some (spilled false))
    (hm : Fits link saved (loaded 0) m) :
    Honours link saved false none (Code.ofInstrs (is ++ leave) ++ rest) m := by
  rw [Code.ofInstrs_append, List.append_assoc]
  refine .ofInstrs his hm ?_
  intro m' hm'
  exact .leave (hm'.inFrame rfl rfl)

theorem honours_exitTo (hm : Fits link saved (loaded 0) m) (pc : Word) :
    Honours link saved false none (Code.ofInstrs (exitTo pc) ++ rest) m := by
  have hstore : (loaded 0).steps? (spill ++ [.store32Imm (stateReg .pc) pc]) =
      some (spilled false) := rfl
  have hsplit : exitTo pc = (spill ++ [.store32Imm (stateReg .pc) pc]) ++ leave := by
    rw [exitTo, List.append_assoc]
    rfl
  rw [hsplit]
  exact honours_leave hstore hm

/-! ### The interpreter -/

/-- The code up to the call of the interpreter, and the call. -/
theorem admitted_interpretCall (addr word : Word) :
    Admitted helpers (loaded 0)
      (Code.ofInstrs (spill ++ [.movImm .rdx addr, .movImm .rcx word]) ++
        callHelper helpers.interpret) (loaded 0) := by
  have hwords : (loaded 0).steps? (spill ++ [.movImm .rdx addr, .movImm .rcx word]) =
      some (spilled false) := rfl
  exact (Admitted.ofInstrs hwords).append (.callHelper (List.mem_cons_self ..) rfl rfl)

theorem admitted_interpret (addr word : Word) :
    Admitted helpers (loaded 0) (interpret helpers addr word false) (loaded 0) :=
  (admitted_interpretCall addr word).append (.ofInstrs (FrameState.steps?_reload false))

theorem honours_interpret (hserves : Serves helpers link) (hm : Fits link saved (loaded 0) m)
    (hfault : ∀ m', Fits link saved (loaded 0) m' →
      Honours link saved true (some faultLabel) rest m') :
    Honours link saved false none (interpret helpers addr word true ++ rest) m := by
  rw [interpret, List.append_assoc]
  refine ((admitted_interpretCall addr word).passes hserves saved).honours m _ hm ?_ ?_
  · intro m' hm'
    exact .leave (hm'.inFrame rfl rfl)
  · intro m' hm'
    exact .some_append (Code.label_notMem_ofInstrs faultLabel _) (hfault m' hm')

/-! ### Transfers -/

theorem admitted_transferBody (addr : Word) (t : Transfer) :
    Admitted helpers (loaded 0) (transferBody helpers addr t) (loaded 0) := by
  have hbase : (spilled false).steps?
      (if t.writesBack then [.store32 (stateReg t.rn) .rsi] else []) = some (spilled false) := by
    split
    · exact FrameState.steps?_cons_of_eq_some
        (FrameState.step?_store32_stateReg (by decide) t.rn) []
    · rfl
  have hindex : (spilled false).steps? (if t.preIndex then [.mov .rdx .rsi] else []) =
      some (spilled false) := by
    split <;> rfl
  have hwords : (loaded 0).steps? (spill ++ transferAddress addr t ++
      (if t.writesBack then [.store32 (stateReg t.rn) .rsi] else []) ++
      (if t.preIndex then [.mov .rdx .rsi] else []) ++
      [.movImm .rcx (accessWord t.rd t.byte)]) = some (spilled false) := by
    rw [List.append_assoc, List.append_assoc, List.append_assoc,
      FrameState.steps?_append_of_eq_some FrameState.steps?_spill,
      FrameState.steps?_append_of_eq_some (FrameState.steps?_transferAddress addr t),
      FrameState.steps?_append_of_eq_some hbase, FrameState.steps?_append_of_eq_some hindex]
    rfl
  exact ((Admitted.ofInstrs hwords).append
    (.callHelper (helpers.access_mem_all t.load) rfl rfl)).append
      (.ofInstrs (FrameState.steps?_reload false))

/-- One call for each register; the scratch word is kept. -/
theorem admitted_transferEach {helper : BitVec 64} (hhelper : helper ∈ helpers.all) (k : Nat)
    (list : List Reg) :
    Admitted helpers (spilled true).forgetPointer (transferEach helper k list)
      (spilled true).forgetPointer := by
  induction list generalizing k with
  | nil =>
      have hnone : (spilled true).forgetPointer.steps? [] = some (spilled true).forgetPointer := rfl
      exact .ofInstrs hnone
  | cons r list ih =>
      have hwords : (spilled true).forgetPointer.steps? (.load32 .rdx (scratchSlot 0) ::
          (if k = 0 then [] else [.aluImm .add .rdx (BitVec.ofNat 32 (4 * k))]) ++
          [.movImm .rcx (accessWord r false)]) = some (spilled true).forgetPointer := by
        split <;> rfl
      exact ((Admitted.ofInstrs hwords).append (.callHelper hhelper rfl rfl)).append (ih (k + 1))

theorem admitted_multiTransferBody (t : MultiTransfer) :
    Admitted helpers (loaded 0) (multiTransferBody helpers t) (loaded 0) := by
  have hdelta : (spilled false).steps?
      (if t.startAddress 0 = 0 then [] else [.aluImm .add .rdx (t.startAddress 0)]) =
        some (spilled false) := by
    split <;> rfl
  have hupdate : ∀ (b p : Bool), FrameState.steps? ⟨0, p, false, true⟩
      (if b then updateBase t.rn (t.finalBase 0) else []) =
        some ⟨0, b || p, false, true⟩ := by
    intro b p
    cases b with
    | false => rfl
    | true => exact FrameState.steps?_updateBase t.rn (t.finalBase 0) p
  have hstart : (loaded 0).steps? (spill ++ [.load32 .rdx (stateReg t.rn)] ++
      (if t.startAddress 0 = 0 then [] else [.aluImm .add .rdx (t.startAddress 0)]) ++
      [.store32 (scratchSlot 0) .rdx] ++
      (if t.writeback && t.load then updateBase t.rn (t.finalBase 0) else [])) =
        some (spilled true) := by
    have hread : (spilled false).steps? [.load32 .rdx (stateReg t.rn)] = some (spilled false) :=
      FrameState.steps?_cons_of_eq_some
        (FrameState.step?_load32_stateReg (by decide) (by decide) t.rn) []
    have hstore : (spilled false).steps? [.store32 (scratchSlot 0) .rdx] =
        some (spilled true) := rfl
    rw [List.append_assoc, List.append_assoc, List.append_assoc,
      FrameState.steps?_append_of_eq_some FrameState.steps?_spill,
      FrameState.steps?_append_of_eq_some hread, FrameState.steps?_append_of_eq_some hdelta,
      FrameState.steps?_append_of_eq_some hstore]
    exact (hupdate (t.writeback && t.load) true).trans (by rw [Bool.or_true]; rfl)
  have hend : (spilled true).forgetPointer.steps?
      ((if t.writeback && !t.load then updateBase t.rn (t.finalBase 0) else []) ++ reload) =
        some (spilled true).forgetPointer := by
    have hbase := hupdate (t.writeback && !t.load) false
    exact (FrameState.steps?_append_of_eq_some hbase reload).trans (FrameState.steps?_reload _)
  exact (((Admitted.ofInstrs hstart).forgetPointer.append
    (admitted_transferEach (helpers.access_mem_all t.load) 0 t.list.toList)).append
      (.ofInstrs hend)).weaken rfl rfl

/-! ### Conditions -/

/-- A condition that is tested lets the code behind it run or jumps over it. -/
theorem honours_skipUnless (hm : Fits link saved (loaded 0) m)
    (hpass : ∀ m', Fits link saved (loaded 0) m' → Honours link saved false none rest m')
    (hfail : ∀ m', Fits link saved (loaded 0) m' → Honours link saved false (some skip) rest m') :
    Honours link saved false none (skipUnless cond skip ++ rest) m := by
  rw [skipUnless, List.append_assoc]
  refine .ofInstrs (FrameState.steps?_testCondition cond) hm ?_
  intro m' hm'
  refine .jump ?_
  split
  · exact hfail m' hm'
  · exact hpass m' hm'

theorem honours_conditional (hbody : Passes link saved (loaded 0) body (loaded 0))
    (hskip : skip ≠ faultLabel) (hrest : Item.label skip ∉ rest)
    (hm : Fits link saved (loaded 0) m)
    (hnext : ∀ m', Fits link saved (loaded 0) m' → Honours link saved false none rest m')
    (hfault : ∀ m', Fits link saved (loaded 0) m' →
      Honours link saved true (some faultLabel) rest m') :
    Honours link saved false none (conditional cond skip body ++ rest) m := by
  unfold conditional
  split
  · exact hbody.honours m rest hm hnext hfault
  · rw [List.append_assoc, List.append_assoc]
    refine honours_skipUnless hm ?_ ?_
    · intro m' hm'
      refine hbody.honours m' _ hm' ?_ ?_
      · intro m'' hm''
        exact .label (hnext m'' hm'')
      · intro m'' hm''
        exact .some_append (by simp [Ne.symm hskip]) (hfault m'' hm'')
    · intro m' hm'
      exact .skip hrest (hnext m' hm')

/-! ### Branches -/

theorem honours_takenBranch {b : Branch} {taken : Code} (htaken : takenBranch? addr b = some taken)
    (hm : Fits link saved (loaded 0) m) :
    Honours link saved false none (taken ++ rest) m := by
  unfold takenBranch? at htaken
  split at htaken
  · cases htaken
  · rename_i r _ _
    cases htaken
    have hread : (spilled false).step? (.load32 .rcx (stateReg r)) = some (spilled false) :=
      FrameState.step?_load32_stateReg (by decide) (by decide) r
    have hstored : (loaded 0).steps? (spill ++ [.load32 .rcx (stateReg r),
        .aluImm .and .rcx (~~~1), .store32 (stateReg .pc) .rcx]) = some (spilled false) := by
      rw [FrameState.steps?_append_of_eq_some FrameState.steps?_spill,
        FrameState.steps?_cons_of_eq_some hread]
      rfl
    exact honours_leave hstored hm
  · rename_i bytes _
    cases htaken
    rw [Code.ofInstrs_append, List.append_assoc]
    have hlink : (loaded 0).steps? (if b.link then [.movImm .r15 (addr + 4)] else []) =
        some (loaded 0) := by
      split <;> rfl
    refine .ofInstrs hlink hm ?_
    intro m' hm'
    exact honours_exitTo hm' (addr + 8 + bytes)

/-- Taken or not a branch leaves the block. -/
theorem honours_branch {b : Branch} (h : branch? cond skip addr b = some code)
    (hrest : Item.label skip ∉ rest) (hm : Fits link saved (loaded 0) m) :
    Honours link saved false none (code ++ rest) m := by
  obtain ⟨taken, htaken, rfl⟩ := Option.map_eq_some_iff.1 h
  split
  · exact honours_takenBranch htaken hm
  · rw [List.append_assoc, List.append_assoc]
    refine honours_skipUnless hm ?_ ?_
    · intro m' hm'
      exact honours_takenBranch htaken hm'
    · intro m' hm'
      have hbehind : Item.label skip ∉ Code.ofInstrs (exitTo (addr + 4)) ++ rest := by
        rw [List.mem_append, not_or]
        exact ⟨Code.label_notMem_ofInstrs skip _, hrest⟩
      exact .skip hbehind (honours_exitTo hm' (addr + 4))

/-! ### All instructions -/

theorem admitted_dataProcessing {d : DataProcessing}
    (h : dataProcessing? cond skip addr d = some code) :
    ∃ body, code = conditional cond skip body ∧ Admitted helpers (loaded 0) body (loaded 0) := by
  obtain ⟨b, carry, body, -, hreadable, hhome, hbody, rfl⟩ :=
    exists_operation_of_dataProcessing? h
  exact ⟨_, rfl, .ofInstrs (FrameState.steps?_operation (Source.readable_ofReg addr d.rn) hreadable
    hhome hbody)⟩

/-- The forms that the code of an instruction takes, by whether the instruction can write
the program counter. -/
inductive Form (helpers : Helpers) (skip : Label) (addr : Word) : Bool → Code → Prop
  | always {code : Code} :
    Admitted helpers (loaded 0) code (loaded 0) → Form helpers skip addr false code
  | conditional (cond : Cond) {body : Code} : Admitted helpers (loaded 0) body (loaded 0) →
    Form helpers skip addr false (conditional cond skip body)
  | interpret (word : Word) : Form helpers skip addr true (interpret helpers addr word true)
  | branch {cond : Cond} {b : Branch} {code : Code} : branch? cond skip addr b = some code →
    Form helpers skip addr true code

theorem form_translate (helpers : Helpers) (skip : Label) (i : Instruction) (addr word : Word) :
    Form helpers skip addr i.writesPc (translate helpers skip i addr word) := by
  unfold translate
  cases hnative : native? helpers i.cond skip addr i.op with
  | none =>
      rw [Option.getD_none]
      cases i.writesPc with
      | false => exact .always (admitted_interpret addr word)
      | true => exact .interpret word
  | some code =>
      rw [Option.getD_some]
      cases hwrites : i.writesPc with
      | true =>
          obtain ⟨cond, op⟩ := i
          obtain ⟨b, rfl⟩ := exists_branch_of_native hwrites hnative
          exact .branch hnative
      | false =>
          obtain ⟨cond, op⟩ := i
          cases op with
          | dataProcessing d =>
              obtain ⟨body, rfl, hbody⟩ := admitted_dataProcessing hnative
              exact .conditional cond hbody
          | transfer t =>
              obtain ⟨-, rfl⟩ := supported_of_transfer? hnative
              exact .conditional cond (admitted_transferBody addr t)
          | multiTransfer t =>
              obtain ⟨-, rfl⟩ := supported_of_multiTransfer? hnative
              exact .conditional cond (admitted_multiTransferBody t)
          | branch b => cases hwrites
          | coprocessor =>
              cases hnative
              have hnone : (loaded 0).steps? [] = some (loaded 0) := rfl
              exact .always (.ofInstrs hnone)
          | statusTransfer t => cases hnative
          | unknown w => cases hnative

/-- The code of an instruction that does not write the program counter goes on behind
itself. -/
theorem honours_translate_next (hserves : Serves helpers link) {i : Instruction}
    (hwrites : i.writesPc = false) (hskip : skip ≠ faultLabel) (hrest : Item.label skip ∉ rest)
    (hm : Fits link saved (loaded 0) m)
    (hnext : ∀ m', Fits link saved (loaded 0) m' → Honours link saved false none rest m')
    (hfault : ∀ m', Fits link saved (loaded 0) m' →
      Honours link saved true (some faultLabel) rest m') :
    Honours link saved false none (translate helpers skip i addr word ++ rest) m := by
  have hform := form_translate helpers skip i addr word
  rw [hwrites] at hform
  generalize translate helpers skip i addr word = code at hform ⊢
  cases hform with
  | always hcode => exact (hcode.passes hserves saved).honours m rest hm hnext hfault
  | conditional cond hbody =>
      exact honours_conditional (hbody.passes hserves saved) hskip hrest hm hnext hfault

/-- The code of an instruction that can write the program counter leaves the block. -/
theorem honours_translate_exit (hserves : Serves helpers link) {i : Instruction}
    (hwrites : i.writesPc = true) (hrest : Item.label skip ∉ rest)
    (hm : Fits link saved (loaded 0) m)
    (hfault : ∀ m', Fits link saved (loaded 0) m' →
      Honours link saved true (some faultLabel) rest m') :
    Honours link saved false none (translate helpers skip i addr word ++ rest) m := by
  have hform := form_translate helpers skip i addr word
  rw [hwrites] at hform
  generalize translate helpers skip i addr word = code at hform ⊢
  cases hform with
  | interpret => exact honours_interpret hserves hm hfault
  | branch hbranch => exact honours_branch hbranch hrest hm

end Instructions

/-! ## Blocks -/

/-- An instruction that is to be translated, with its address and its encoding. -/
structure Request where
  instr : Instruction
  addr : Word
  word : Word

/-- The code of each instruction where the first one uses the label {lit}`k + 1`. -/
def requestPieces (helpers : Helpers) (k : Nat) : List Request → List Code
  | [] => []
  | r :: rs => translate helpers (k + 1) r.instr r.addr r.word :: requestPieces helpers (k + 1) rs

/-- The code of a block of any instructions. -/
def requestCode (helpers : Helpers) (requests : List Request) (next? : Option Word) : Code :=
  Code.ofInstrs prologue ++ (requestPieces helpers 0 requests).flatten ++ closing next?

/-- The instructions of a block and where it goes on by itself: an instruction that can
move the program counter is the last one, and the block goes on by itself exactly if
there is none. -/
inductive Ends : List Request → Option Word → Prop
  | goesOn (next : Word) : Ends [] (some next)
  | leaves (r : Request) : r.instr.writesPc = true → Ends [r] none
  | cons (r : Request) {rs : List Request} {next? : Option Word} :
      r.instr.writesPc = false → Ends rs next? → Ends (r :: rs) next?

/-- The request for a fetched word. -/
def Fetched.request (f : Fetched) : Request where
  instr := Instruction.decode f.word
  addr := f.addr
  word := f.word

theorem piecesFrom_eq_requestPieces (helpers : Helpers) (k : Nat) (instrs : List Fetched) :
    piecesFrom helpers k instrs = requestPieces helpers k (instrs.map Fetched.request) := by
  induction instrs generalizing k with
  | nil => rfl
  | cons f fs ih =>
      rw [piecesFrom, ih, List.map_cons]
      rfl

/-- Fetched words are translated as the instructions that they encode. -/
theorem code_eq_requestCode (helpers : Helpers) (instrs : List Fetched) (next? : Option Word) :
    Block.code helpers instrs next? =
      requestCode helpers (instrs.map Fetched.request) next? := by
  rw [Block.code, pieces_eq, piecesFrom_eq_requestPieces]
  rfl

theorem numbered_requestPieces (helpers : Helpers) (k : Nat) (requests : List Request) :
    Numbered k (requestPieces helpers k requests) := by
  induction requests generalizing k with
  | nil => trivial
  | cons r rs ih => exact ⟨.translate (k + 1) _ _ _, ih (k + 1)⟩

section Blocks

variable {helpers : Helpers} {link : Linkage ε} {saved : Host.Reg → BitVec 64} {m : Machine ε}
  {requests : List Request} {next? : Option Word} {rest : Code}

/-- The three slots are made and filled, and the guest is loaded. -/
theorem honours_prologue (hstack : m.stack = []) (hstate : m.reg .rdi = link.state)
    (henv : m.reg .rsi = link.environment)
    (h : ∀ m', Fits link m.reg (loaded 0) m' → Honours link m.reg false none rest m') :
    Honours link m.reg false none (Code.ofInstrs prologue ++ rest) m := by
  obtain ⟨room, half, hroom, hroomLength, hfirst, hhalfLength, hsecond⟩ :=
    exists_steps_enter hstack hstate henv
  have hsplit : Code.ofInstrs prologue ++ rest =
      Code.ofInstrs (calleeSaved.map .push ++ [.subRsp frameBytes]) ++
        (.instr (.store64 (stateSlot 0) .rdi) :: .instr (.store64 (environmentSlot 0) .rsi) ::
          (Code.ofInstrs reload ++ rest)) := rfl
  rw [hsplit]
  refine .plain ?_ hroom (.instr ?_ hfirst (.instr ?_ hsecond ?_))
  · intro i hi
    rcases List.mem_append.1 hi with hi | hi
    · obtain ⟨r, -, rfl⟩ := List.mem_map.1 hi
      rfl
    · cases List.mem_singleton.1 hi
      rfl
  · exact .of_slot hroomLength rfl rfl
  · exact .of_slot hhalfLength rfl rfl
  · refine .ofInstrs (FrameState.steps?_reload false) ?_ h
    exact ⟨⟨[], link.state, none, none, rfl, rfl, fun _ => rfl, (absurd · Bool.false_ne_true)⟩,
      (absurd · Bool.false_ne_true)⟩

/-- The end of a block takes the jumps of all failed calls. -/
theorem honours_faultExit (hm : Fits link saved (loaded 0) m) (passed : Code) :
    Honours link saved true (some faultLabel) (passed ++ faultExit) m := by
  refine .skip (Code.label_notMem_ofInstrs faultLabel _) ?_
  have hleave : Honours link saved true none
      (Code.ofInstrs (.movImm .rax 1 :: epilogue) ++ []) m := .leave (hm.inFrame rfl rfl)
  rwa [List.append_nil] at hleave

/-- The code of the instructions and the end of the block, entered with the guest
loaded. -/
theorem honours_requestPieces (hserves : Serves helpers link) (hends : Ends requests next?)
    (k : Nat) (hm : Fits link saved (loaded 0) m) :
    Honours link saved false none
      ((requestPieces helpers k requests).flatten ++ closing next?) m := by
  induction hends generalizing k m with
  | goesOn next => exact honours_exitTo hm next
  | leaves r hwrites =>
      have hskip := (numbered_requestPieces helpers (k + 1) []).label_notMem none
      rw [requestPieces, List.flatten_cons, List.append_assoc]
      refine honours_translate_exit hserves hwrites hskip hm ?_
      intro m' hm'
      exact honours_faultExit hm' []
  | @cons r rs next? hwrites hends ih =>
      have hskip := (numbered_requestPieces helpers (k + 1) rs).label_notMem next?
      rw [requestPieces, List.flatten_cons, List.append_assoc]
      refine honours_translate_next hserves hwrites (Nat.succ_ne_zero k) hskip hm ?_ ?_
      · intro m' hm'
        exact ih (k + 1) hm'
      · intro m' hm'
        rw [closing, ← List.append_assoc]
        exact honours_faultExit hm' _

/-- The code of a block can be encoded, and from any state it returns to its caller with
the stack and the saved registers as they were.  The result is one exactly if a function
that was called reported failure, and every executed instruction keeps the rules of the
frame: accesses to the stack hit the slots they are meant for, and functions are called
on an aligned stack with the two pointers. -/
theorem requestCode_keeps_convention (hserves : Serves helpers link)
    (hends : Ends requests next?) (hstack : m.stack = []) (hstate : m.reg .rdi = link.state)
    (henv : m.reg .rsi = link.environment) :
    ((requestCode helpers requests next?).encode?).isSome ∧
      ∃ m', (requestCode helpers requests next?).run? link none m = some m' ∧
        m'.stack = [] ∧ (∀ r ∈ calleeSaved, m'.reg r = m.reg r) ∧
        (m'.reg .rax).setWidth 32 =
          (if ((requestCode helpers requests next?).visited link none m).any
            (fun x => x.1.reports link x.2) then 1 else 0) ∧
        ∀ x ∈ (requestCode helpers requests next?).visited link none m,
          Disciplined link x.2 x.1 := by
  have hencode := (numbered_requestPieces helpers 0 requests).encode?_isSome next?
  have hhonours : Honours link m.reg false none (requestCode helpers requests next?) m := by
    rw [requestCode, List.append_assoc]
    refine honours_prologue hstack hstate henv ?_
    intro m' hm'
    exact honours_requestPieces hserves hends 0 hm'
  obtain ⟨m', hrun, hstack', hregs, hall, hresult⟩ := hhonours
  rw [Bool.false_or] at hresult
  exact ⟨hencode, m', hrun, hstack', hregs, hresult, hall⟩

/-- The three functions: each overwrites what it may, and the one that loads reports
failure. -/
def failingLoads : Linkage Unit where
  state := 0x1000
  environment := 0x2000
  function? target := some fun _ _ cpu env =>
    { result := if target = threeHelpers.load then 1 else 0
      clobbered := fun _ => 0xdead
      flags := ⟨true, true, true, true⟩
      cpu
      env }

/-- The machine on which a block is entered, with values in all other registers. -/
def failingLoadsEntry : Machine Unit where
  regs := ((Vector.replicate 16 0xbeef).set Host.Reg.rdi.index 0x1000).set
    Host.Reg.rsi.index 0x2000
  flags := ⟨false, false, false, false⟩
  stack := []
  cpu := Cpu.initial
  env := ()

/-- A conditional {lit}`addeq r2, r2, #1` and a failing {lit}`ldr r0, [r1]`. -/
def failingLoadsRequests : List Request :=
  [Fetched.request ⟨0, 0x02822001⟩, Fetched.request ⟨4, 0xe5910000⟩]

theorem requestCode_keeps_convention_failingLoads :
    ∃ m', (requestCode threeHelpers failingLoadsRequests (some 8)).run? failingLoads none
        failingLoadsEntry = some m' ∧
      m'.stack = [] ∧ (∀ r ∈ calleeSaved, m'.reg r = 0xbeef) ∧
      (m'.reg .rax).setWidth 32 = 1 := by
  have hserves : Serves threeHelpers failingLoads := ⟨rfl, rfl, rfl⟩
  have hends : Ends failingLoadsRequests (some 8) := .cons _ rfl (.cons _ rfl (.goesOn 8))
  obtain ⟨-, m', hrun, hstack, hregs, hresult, -⟩ :=
    requestCode_keeps_convention hserves hends (m := failingLoadsEntry) rfl rfl rfl
  have hreports : ((requestCode threeHelpers failingLoadsRequests (some 8)).visited failingLoads
      none failingLoadsEntry).any (fun x => x.1.reports failingLoads x.2) = true := by
    decide +kernel
  refine ⟨m', hrun, hstack, ?_, ?_⟩
  · intro r hr
    rw [hregs r hr]
    revert r
    decide
  · rw [hresult, if_pos hreports]

end Blocks

end ArmEmulator.Block
