import ArmEmulator.Proofs.Block.Discipline
import ArmEmulator.Proofs.Block.Labels

/-!
# Runs that keep the calling convention

A run of code keeps the calling convention if it comes to a return with the stack and
the saved registers of its caller as they were, with a result that tells whether a
function that it called reported failure, and if on the way every instruction keeps
the rules of the frame.

Every piece of code is told by what has to hold of the code behind it: the next
instruction finds the facts about the frame that the piece leads to, and so does the
fault exit after a failed call.

Main results:

- Theorem {lit}`Honours.leave`: the end of a block returns with everything restored.
- Theorem {lit}`honours_callHelper`: a helper call goes on or jumps to the fault exit.
- Theorem {lit}`Passes.append`: pieces may be put one behind the other.
-/

namespace ArmEmulator.Block

open Host (Machine Linkage Instr Code Item Label)

variable {ε : Type}

/-! ## Runs that keep the convention -/

/-- A run returns with the stack and the registers of the caller restored, every
instruction on the way keeps the rules, and the result is one exactly if a function
that was called reported failure, in the run or, as {lit}`failed` tells, before it. -/
def Honours (link : Linkage ε) (saved : Host.Reg → BitVec 64) (failed : Bool) (skip : Option Label)
    (code : Code) (m : Machine ε) : Prop :=
  ∃ m', code.run? link skip m = some m' ∧ m'.stack = [] ∧
    (∀ r ∈ calleeSaved, m'.reg r = saved r) ∧
    (∀ x ∈ code.visited link skip m, Disciplined link x.2 x.1) ∧
    (m'.reg .rax).setWidth 32 =
      if failed || (code.visited link skip m).any (fun x => x.1.reports link x.2) then 1#32
      else 0#32

namespace Honours

variable {link : Linkage ε} {saved : Host.Reg → BitVec 64} {failed : Bool} {rest passed : Code}
  {m m' : Machine ε} {i : Instr}

/-- An instruction that keeps the rules. -/
theorem instr (hrules : Disciplined link m i) (hstep : i.step? link m = some m')
    (h : Honours link saved (failed || i.reports link m) none rest m') :
    Honours link saved failed none (.instr i :: rest) m := by
  obtain ⟨last, hrun, hstack, hregs, hall, hresult⟩ := h
  refine ⟨last, (Code.run?_instr link hstep rest).trans hrun, hstack, hregs, ?_, ?_⟩
  · rw [Code.visited_instr link hstep]
    intro x hx
    rcases List.mem_cons.1 hx with rfl | hx
    · exact hrules
    · exact hall x hx
  · rw [hresult, Code.visited_instr link hstep, List.any_cons, Bool.or_assoc]

/-- A return with everything restored. -/
theorem ret (hstack : m.stack = []) (hregs : ∀ r ∈ calleeSaved, m.reg r = saved r)
    (hresult : (m.reg .rax).setWidth 32 = if failed then 1#32 else 0#32) :
    Honours link saved failed none (.instr .ret :: rest) m := by
  refine ⟨m, ?_, hstack, hregs, ?_, ?_⟩
  · rw [Code.run?, if_pos hstack]
  · intro x hx
    cases List.mem_singleton.1 hx
    exact .of_isPlain rfl
  · rw [hresult]
    show _ = if failed || (false || false) then 1#32 else 0#32
    rw [Bool.or_false, Bool.or_false]

/-- A jump. -/
theorem jump {cc : Host.Cc} {l : Label}
    (h : Honours link saved failed (if cc.holds m.flags then some l else none) rest m) :
    Honours link saved failed none (.jump cc l :: rest) m := h

/-- A label that is run over. -/
theorem label {l : Label} (h : Honours link saved failed none rest m) :
    Honours link saved failed none (.label l :: rest) m := h

/-- Code that does not place the label of a taken jump is passed over. -/
theorem some_append {l : Label} (hl : Item.label l ∉ passed)
    (h : Honours link saved failed (some l) rest m) :
    Honours link saved failed (some l) (passed ++ rest) m := by
  obtain ⟨last, hrun, hstack, hregs, hall, hresult⟩ := h
  refine ⟨last, (Code.run?_some_append link hl rest m).trans hrun, hstack, hregs, ?_, ?_⟩
  · rw [Code.visited_some_append link hl]
    exact hall
  · rw [Code.visited_some_append link hl]
    exact hresult

/-- A taken jump moves to the code behind the last cell of its label. -/
theorem skip {l : Label} (hl : Item.label l ∉ rest)
    (h : Honours link saved failed none rest m) :
    Honours link saved failed (some l) (passed ++ .label l :: rest) m := by
  obtain ⟨last, hrun, hstack, hregs, hall, hresult⟩ := h
  refine ⟨last, (Code.run?_skip link hl passed m).trans hrun, hstack, hregs, ?_, ?_⟩
  · rw [Code.visited_skip link hl]
    exact hall
  · rw [Code.visited_skip link hl]
    exact hresult

/-- Instructions that neither access memory nor call. -/
theorem plain {is : List Instr} (his : ∀ i ∈ is, isPlain i = true)
    (hrun : Host.runInstrs? link is m = some m') (h : Honours link saved failed none rest m') :
    Honours link saved failed none (Code.ofInstrs is ++ rest) m := by
  induction is generalizing m with
  | nil =>
      cases hrun
      exact h
  | cons i is ih =>
      have hplain := his i (List.mem_cons_self ..)
      obtain ⟨next, hstep, hrest⟩ := Option.bind_eq_some_iff.1 hrun
      refine instr (.of_isPlain hplain) hstep ?_
      rw [Instr.reports, callResult?_of_isPlain hplain, Option.any_none, Bool.or_false]
      exact ih (fun j hj => his j (List.mem_cons_of_mem i hj)) hrest

/-- Straight-line code that the facts about the frame admit. -/
theorem ofInstrs {a a' : FrameState} {is : List Instr} (hsteps : a.steps? is = some a')
    (hm : Fits link saved a m)
    (h : ∀ m', Fits link saved a' m' → Honours link saved failed none rest m') :
    Honours link saved failed none (Code.ofInstrs is ++ rest) m := by
  induction is generalizing a m with
  | nil =>
      cases hsteps
      exact h m hm
  | cons i is ih =>
      obtain ⟨mid, hstep, hrest⟩ := Option.bind_eq_some_iff.1 hsteps
      obtain ⟨hrules, hresult, m', hrun, hfits⟩ := FrameState.step?_sound hm hstep
      refine instr hrules hrun ?_
      rw [Instr.reports, hresult, Option.any_none, Bool.or_false]
      exact ih hrest hfits

/-- The end of a block, with the result that is due. -/
theorem leave (hm : InFrame link saved m) :
    Honours link saved failed none
      (Code.ofInstrs (.movImm .rax (if failed then 1#32 else 0#32) :: epilogue) ++ rest) m := by
  obtain ⟨m', hrun, hstack, hreturned⟩ := runInstrs?_leave hm (if failed then 1#32 else 0#32)
  rw [ofInstrs_epilogue]
  refine plain ?_ hrun (ret hstack hreturned.restored hreturned.status_eq)
  intro i hi
  rw [List.mem_cons, List.mem_cons] at hi
  rcases hi with rfl | rfl | hi
  · rfl
  · rfl
  · obtain ⟨r, -, rfl⟩ := List.mem_map.1 hi
    rfl

end Honours

/-! ## Facts between instructions -/

namespace FrameState

/-- What is known while the guest registers are loaded, with a number of
temporaries. -/
def loaded (temporaries : Nat) : FrameState where
  temporaries
  pointer := false
  parked := false
  scratch := false

end FrameState

open FrameState (loaded)

section Facts

variable {link : Linkage ε} {saved : Host.Reg → BitVec 64} {a : FrameState} {m m' : Machine ε}

/-- Facts may be forgotten. -/
theorem Fits.forget (h : Fits link saved a m) (htemporaries : a.temporaries = 0)
    (hparked : a.parked = false) : Fits link saved (loaded 0) m := by
  obtain ⟨pushed, top, scratch, padding, hm, hlen, htop, -⟩ := h.stack
  exact ⟨⟨pushed, top, scratch, padding, hm, hlen.trans htemporaries, fun _ => htop hparked,
    (absurd · Bool.false_ne_true)⟩, (absurd · Bool.false_ne_true)⟩

/-- Without temporaries the stack is the frame. -/
theorem Fits.inFrame (h : Fits link saved a m) (htemporaries : a.temporaries = 0)
    (hparked : a.parked = false) : InFrame link saved m := by
  obtain ⟨pushed, top, scratch, padding, hm, hlen, htop, -⟩ := h.stack
  rw [htemporaries, List.length_eq_zero_iff] at hlen
  subst hlen
  refine ⟨scratch, padding, ?_⟩
  rw [hm, htop hparked]
  rfl

end Facts

/-! ## Calls -/

section Calls

variable {link : Linkage ε} {saved : Host.Reg → BitVec 64} {rest : Code} {m : Machine ε}
  {a : FrameState}
  {function : BitVec 32 → BitVec 32 → Cpu → ε → Host.Returned ε} {target : BitVec 64}

/-- Facts about the stack only, as they hold behind a call. -/
def FrameState.forgetPointer (a : FrameState) : FrameState :=
  { a with pointer := false }

theorem Fits.forgetPointer {m' : Machine ε} (h : Fits link saved a m)
    (hstack : m'.stack = m.stack) : Fits link saved a.forgetPointer m' :=
  ⟨hstack ▸ h.stack, (absurd · Bool.false_ne_true)⟩

/-- A call with both pointers in place, and the test of its result. -/
theorem honours_call (hm : Fits link saved a m) (htemporaries : a.temporaries = 0)
    (hfunction : link.function? target = some function) (hrax : m.reg .rax = target)
    (hrdi : m.reg .rdi = link.state) (hrsi : m.reg .rsi = link.environment)
    (hnext : ∀ m', Fits link saved a.forgetPointer m' → Honours link saved false none rest m')
    (hfault : ∀ m', Fits link saved a.forgetPointer m' →
      Honours link saved true (some faultLabel) rest m') :
    Honours link saved false none
      (.instr (.call .rax) :: .instr (.test .rax .rax) :: .jump .ne faultLabel :: rest) m := by
  obtain ⟨r, hr⟩ : ∃ r, r = function (m.low .rdx) (m.low .rcx) m.cpu m.env := ⟨_, rfl⟩
  have haligned : m.aligned = true := by
    rw [Machine.aligned, hm.length_stack, htemporaries]
    rfl
  have hcall := step?_call_rax haligned hrdi hrsi hrax hfunction
  rw [← hr] at hcall
  have hrules : Disciplined link m (.call .rax) := .of_call haligned hrdi hrsi
  have hrulesTest : Disciplined link (m.afterCall r) (.test .rax .rax) := .of_isPlain rfl
  have hreports : (Instr.call .rax).reports link m = (r.result.setWidth 32 != 0#32) := by
    rw [Instr.reports, Instr.callResult?, hrax, hfunction, hr]
    rfl
  have hcalled : Fits link saved a.forgetPointer (m.afterCall r) := hm.forgetPointer rfl
  refine .instr hrules hcall (.instr hrulesTest
    (Instr.step?_test link _ rax_ne_rsp rax_ne_rsp) (.jump ?_))
  have htested : Fits link saved a.forgetPointer ((m.afterCall r).withFlags
      (Host.Alu.and.eval (r.result.setWidth 32) (r.result.setWidth 32)).2) := hcalled.congr rfl rfl
  rw [low_rax_afterCall, Machine.flags_withFlags, holds_ne_and_self, hreports, Bool.false_or]
  cases r.result.setWidth 32 != 0#32 with
  | false => exact hnext _ htested
  | true => exact hfault _ htested

/-- A helper call goes on or jumps to the fault exit. -/
theorem honours_callHelper (hm : Fits link saved a m) (htemporaries : a.temporaries = 0)
    (hparked : a.parked = false) (hfunction : link.function? target = some function)
    (hnext : ∀ m', Fits link saved a.forgetPointer m' → Honours link saved false none rest m')
    (hfault : ∀ m', Fits link saved a.forgetPointer m' →
      Honours link saved true (some faultLabel) rest m') :
    Honours link saved false none (callHelper target ++ rest) m := by
  obtain ⟨scratch, padding, hstack⟩ := hm.inFrame htemporaries hparked
  obtain ⟨temporaries, pointer, parked, written⟩ := a
  cases htemporaries
  cases hparked
  have hstate : (Instr.load64 .rdi (stateSlot 0)).step? link m =
      some (m.setReg .rdi link.state) := by
    rw [Instr.step?_load64 link m (by decide), load64?_stateSlot [] hstack rfl (by decide)]
    rfl
  obtain ⟨first, hfirst⟩ : ∃ first, first = m.setReg .rdi link.state := ⟨_, rfl⟩
  rw [← hfirst] at hstate
  have hfirstStack : first.stack = frame link saved scratch padding := by
    rw [hfirst, Machine.stack_setReg, hstack]
  have hfits : Fits link saved ⟨0, pointer, false, written⟩ first := by
    refine hm.congr ?_ ?_
    · rw [hfirst, Machine.stack_setReg]
    · rw [hfirst]
      exact (Machine.reg_setReg ..).trans (if_neg (by decide))
  have henv : (Instr.load64 .rsi (environmentSlot 0)).step? link first =
      some (first.setReg .rsi link.environment) := by
    rw [Instr.step?_load64 link first (by decide),
      load64?_environmentSlot [] hfirstStack rfl (by decide)]
    rfl
  have hready : Fits link saved (FrameState.forgetPointer ⟨0, pointer, false, written⟩)
      ((first.setReg .rsi link.environment).setReg .rax target) := hfits.forgetPointer rfl
  have hrulesState := (FrameState.step?_sound hm (i := .load64 .rdi (stateSlot 0)) rfl).disciplined
  have hrulesEnv :=
    (FrameState.step?_sound hfits (i := .load64 .rsi (environmentSlot 0)) rfl).disciplined
  refine .instr hrulesState hstate (.instr hrulesEnv henv (.instr
    (.of_isPlain rfl) (Instr.step?_mov64Imm link _ rax_ne_rsp target)
    (honours_call hready rfl hfunction ?_ ?_ ?_ hnext hfault)))
  · exact (Machine.reg_setReg ..).trans (if_pos rfl)
  · simp [hfirst, Machine.reg_setReg]
  · simp [Machine.reg_setReg]

end Calls

/-! ## Pieces of code -/

/-- Code without labels that, entered with some facts about the frame, goes on behind
itself with others, or after a failed call jumps to the fault exit. -/
structure Passes (link : Linkage ε) (saved : Host.Reg → BitVec 64) (a : FrameState) (code : Code)
    (a' : FrameState) : Prop where
  label : ∀ l, Item.label l ∉ code
  honours : ∀ m rest, Fits link saved a m →
    (∀ m', Fits link saved a' m' → Honours link saved false none rest m') →
    (∀ m', Fits link saved (loaded 0) m' → Honours link saved true (some faultLabel) rest m') →
    Honours link saved false none (code ++ rest) m

section Pieces

variable {helpers : Helpers} {link : Linkage ε} {saved : Host.Reg → BitVec 64}
  {a a' a'' : FrameState} {code code' : Code} {addr word : Word} {m : Machine ε}
  {target : BitVec 64}

namespace Passes

theorem ofInstrs {is : List Instr} (h : a.steps? is = some a') :
    Passes link saved a (Code.ofInstrs is) a' where
  label l := Code.label_notMem_ofInstrs l is
  honours _ _ hm hnext _ := .ofInstrs h hm hnext

/-- Two pieces one behind the other. -/
theorem append (h : Passes link saved a code a') (h' : Passes link saved a' code' a'') :
    Passes link saved a (code ++ code') a'' where
  label l hmem := by
    rcases List.mem_append.1 hmem with hmem | hmem
    · exact h.label l hmem
    · exact h'.label l hmem
  honours m rest hm hnext hfault := by
    rw [List.append_assoc]
    refine h.honours m (code' ++ rest) hm ?_ ?_
    · intro m' hm'
      exact h'.honours m' rest hm' hnext hfault
    · intro m' hm'
      exact .some_append (h'.label faultLabel) (hfault m' hm')

/-- A helper call. -/
theorem callHelper (htemporaries : a.temporaries = 0) (hparked : a.parked = false)
    (hfunction : (link.function? target).isSome) :
    Passes link saved a (callHelper target) a.forgetPointer where
  label := (Linear.callHelper target).label
  honours m rest hm hnext hfault := by
    obtain ⟨function, hfunction⟩ := Option.isSome_iff_exists.1 hfunction
    refine honours_callHelper hm htemporaries hparked hfunction hnext ?_
    intro m' hm'
    exact hfault m' (hm'.forget htemporaries hparked)

end Passes

/-- What was known about {lit}`rax` may be forgotten. -/
theorem Passes.forgetPointer (h : Passes link saved a code a') :
    Passes link saved a code a'.forgetPointer where
  label := h.label
  honours m rest hm hnext hfault := by
    refine h.honours m rest hm ?_ hfault
    intro m' hm'
    exact hnext m' (hm'.forgetPointer rfl)

/-- What was known about the scratch slot may be forgotten. -/
theorem Passes.weaken (h : Passes link saved a code a') (htemporaries : a'.temporaries = 0)
    (hparked : a'.parked = false) : Passes link saved a code (loaded 0) where
  label := h.label
  honours m rest hm hnext hfault := by
    refine h.honours m rest hm ?_ hfault
    intro m' hm'
    exact hnext m' (hm'.forget htemporaries hparked)

end Pieces

end ArmEmulator.Block
