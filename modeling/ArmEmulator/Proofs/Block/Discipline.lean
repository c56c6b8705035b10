import ArmEmulator.Block.Flags
import ArmEmulator.Proofs.Block.Frame
import ArmEmulator.Proofs.Host.Visits

/-!
# Frame discipline of straight-line code

What every instruction of a block has to respect: an access to the stack hits the
slot that it is meant for, whatever temporaries lie on top, an access elsewhere is
one to the processor state, and functions are called on an aligned stack with the
two pointers.

Whether straight-line code does so can be told from the code.  A few facts about the
frame are followed from instruction to instruction: how many temporaries there are,
whether {lit}`rax` points to the processor state, whether the slot of that pointer
holds a parked register, and whether the scratch slot has been written.

Main results:

- Theorem {lit}`FrameState.step?_sound`: an instruction that the facts admit runs, keeps
  the rules, and leads to the facts told.
-/

namespace ArmEmulator.Block

open Host (Machine Linkage Instr Code Item Label Mem)

variable {ε : Type}

/-! ## Rules -/

/-- The memory operand of an instruction. -/
def memory? : Instr → Option Mem
  | .load32 _ place | .store32 place _ | .store32Imm place _ | .load64 _ place
  | .store64 place _ | .xchg64 _ place | .and32Imm place _ | .or32 place _ => some place
  | _ => none

/-- The slot that an instruction with an operand on the stack is meant for: the
environment pointer is always moved through {lit}`rsi`, the scratch word through
{lit}`edx`. -/
def meantSlot : Instr → Nat
  | .load64 .rsi _ | .store64 _ .rsi => 1
  | .load32 .rdx _ | .store32 _ .rdx => 2
  | _ => 0

/-- The operand of an instruction that loads a pointer. -/
def pointerPlace? : Instr → Option Mem
  | .load64 _ place | .xchg64 _ place => some place
  | _ => none

theorem memory?_of_pointerPlace? {i : Instr} {place : Mem} (h : pointerPlace? i = some place) :
    memory? i = some place := by
  unfold pointerPlace? at h
  split at h
  · exact h
  · exact h
  · cases h

/-- The rules that an instruction of a block keeps on a machine. -/
structure Disciplined (link : Linkage ε) (m : Machine ε) (i : Instr) : Prop where
  /-- An access to the stack hits the slot it is meant for below all temporaries. -/
  slot_eq : ∀ place, memory? i = some place → place.base = .rsp →
    ∃ temporaries, place = slot (meantSlot i) temporaries ∧
      m.stack.length = 18 + 2 * temporaries
  /-- Any other access is one to the processor state. -/
  inState : ∀ place, memory? i = some place → place.base ≠ .rsp →
    m.reg place.base = link.state ∧ (Machine.field? place.disp).isSome
  /-- A pointer that is loaded is one of those that the block was entered with. -/
  pointer_eq : ∀ place, pointerPlace? i = some place →
    m.load64? place = some (if meantSlot i = 1 then link.environment else link.state)
  /-- A call finds the stack aligned and the two pointers in place. -/
  call : ∀ target, i = .call target →
    m.aligned = true ∧ m.reg .rdi = link.state ∧ m.reg .rsi = link.environment

/-- Whether an instruction neither accesses memory nor calls. -/
def isPlain (i : Instr) : Bool :=
  match i with
  | .call _ => false
  | i => (memory? i).isNone

theorem memory?_eq_none_of_isPlain {i : Instr} (h : isPlain i = true) : memory? i = none := by
  unfold isPlain at h
  split at h
  · cases h
  · exact Option.isNone_iff_eq_none.1 h

theorem ne_call_of_isPlain {i : Instr} (h : isPlain i = true) (target : Host.Reg) :
    i ≠ .call target := by
  intro hcall
  rw [hcall] at h
  cases h

theorem callResult?_of_isPlain {i : Instr} (h : isPlain i = true) (link : Linkage ε)
    (m : Machine ε) : i.callResult? link m = none := by
  unfold Instr.callResult?
  split
  · cases h
  · rfl

/-- An instruction with a memory operand is no call. -/
theorem ne_call_of_memory? {i : Instr} {place : Mem} (h : memory? i = some place)
    (target : Host.Reg) : i ≠ .call target := by
  intro hcall
  rw [hcall] at h
  cases h

/-- An instruction that neither accesses memory nor calls keeps the rules. -/
theorem Disciplined.of_isPlain {link : Linkage ε} {m : Machine ε} {i : Instr}
    (h : isPlain i = true) : Disciplined link m i where
  slot_eq place hplace := by
    cases (memory?_eq_none_of_isPlain h).symm.trans hplace
  inState place hplace := by
    cases (memory?_eq_none_of_isPlain h).symm.trans hplace
  pointer_eq place hplace := by
    cases (memory?_eq_none_of_isPlain h).symm.trans (memory?_of_pointerPlace? hplace)
  call target htarget := absurd htarget (ne_call_of_isPlain h target)

/-- A call keeps the rules if the stack is aligned and the pointers are in place. -/
theorem Disciplined.of_call {link : Linkage ε} {m : Machine ε} {target : Host.Reg}
    (haligned : m.aligned = true) (hrdi : m.reg .rdi = link.state)
    (hrsi : m.reg .rsi = link.environment) : Disciplined link m (.call target) where
  slot_eq place hplace := by cases hplace
  inState place hplace := by cases hplace
  pointer_eq place hplace := by cases hplace
  call _ _ := ⟨haligned, hrdi, hrsi⟩

/-! ## Facts about the frame -/

/-- What is known about the frame of a running block. -/
structure FrameState where
  /-- The number of temporaries above the slots. -/
  temporaries : Nat
  /-- Whether {lit}`rax` points to the processor state. -/
  pointer : Bool
  /-- Whether the slot of that pointer holds a parked register instead. -/
  parked : Bool
  /-- Whether the scratch slot holds a word. -/
  scratch : Bool
deriving DecidableEq

namespace FrameState

/-- The facts after a register was written. -/
def write? (a : FrameState) (r : Host.Reg) : Option FrameState :=
  if r = .rsp then none else some { a with pointer := a.pointer && r != .rax }

/-- Whether an operand is a slot below the temporaries. -/
def atSlot (a : FrameState) (number : Nat) (place : Mem) : Bool :=
  decide (place = slot number a.temporaries ∧ a.temporaries < 0x10000000)

/-- Whether an operand lies in the processor state. -/
def atState (a : FrameState) (place : Mem) : Bool :=
  a.pointer && place.base == .rax && (Machine.field? place.disp).isSome

/-- The facts after an instruction; none if they do not tell that it runs and keeps
the rules. -/
def step? (a : FrameState) : Instr → Option FrameState
  | .mov dst src => if src = .rsp then none else a.write? dst
  | .movImm dst _ => a.write? dst
  | .mov64Imm dst _ => a.write? dst
  | .alu _ dst src => if src = .rsp then none else a.write? dst
  | .aluImm _ dst _ => a.write? dst
  | .test x y => if x = .rsp ∨ y = .rsp then none else some a
  | .testImm x _ => if x = .rsp then none else some a
  | .not r => a.write? r
  | .shlImm r _ => a.write? r
  | .shrImm r _ => a.write? r
  | .shrCl r => a.write? r
  | .load32 dst src =>
    if a.atState src ∨ (dst = .rdx ∧ a.scratch ∧ a.atSlot 2 src) ∨
        (dst ≠ .rdx ∧ a.atSlot 0 src) then
      a.write? dst
    else
      none
  | .store32 dst src =>
    if src = .rsp then none
    else if a.atState dst then some a
    else if src = .rdx ∧ a.atSlot 2 dst then some { a with scratch := true }
    else none
  | .store32Imm dst _ => if a.atState dst then some a else none
  | .load64 dst src =>
    if dst = .rsi ∧ a.atSlot 1 src then some a
    else if (dst = .rax ∨ dst = .rdi) ∧ a.parked = false ∧ a.atSlot 0 src then
      some { a with pointer := a.pointer || dst == .rax }
    else none
  | .store64 dst src =>
    if src = .rax ∧ a.pointer ∧ a.atSlot 0 dst then some { a with parked := false } else none
  | .xchg64 r place =>
    if r = .rax ∧ a.parked = false ∧ a.atSlot 0 place then
      some { a with pointer := true, parked := true }
    else none
  | .and32Imm dst _ => if a.atState dst then some a else none
  | .or32 dst src => if src ≠ .rsp ∧ a.atState dst then some a else none
  | .setcc _ dst => a.write? (Machine.whole dst)
  | .movByteImm dst _ => a.write? (Machine.whole dst)
  | .orByte dst _ => a.write? (Machine.whole dst)
  | .movzx dst _ => if dst.index.val < 8 then a.write? dst else none
  | .push r => if r = .rsp then none else some { a with temporaries := a.temporaries + 1 }
  | .pop r =>
    match a.temporaries with
    | 0 => none
    | n + 1 => { a with temporaries := n }.write? r
  | .subRsp _ | .addRsp _ | .call _ | .ret => none

/-- The facts after straight-line code. -/
def steps? (a : FrameState) : List Instr → Option FrameState
  | [] => some a
  | i :: is => (a.step? i).bind (steps? · is)

theorem steps?_append (a : FrameState) (is js : List Instr) :
    a.steps? (is ++ js) = (a.steps? is).bind (steps? · js) := by
  induction is generalizing a with
  | nil => rfl
  | cons i is ih =>
      rw [List.cons_append, steps?, steps?, Option.bind_assoc]
      exact Option.bind_congr fun a' _ => ih a'

end FrameState

/-! ## Machines that the facts are about -/

theorem length_flatMap_units (pushed : List (BitVec 64)) :
    (pushed.flatMap units).length = 2 * pushed.length := by
  induction pushed with
  | nil => rfl
  | cons v pushed ih =>
      rw [List.flatMap_cons, List.length_append, ih, units, List.length_cons, List.length_cons,
        List.length_cons, List.length_nil]
      omega

/-- A machine that the facts are true of. -/
structure Fits (link : Linkage ε) (saved : Host.Reg → BitVec 64) (a : FrameState)
    (m : Machine ε) : Prop where
  stack : ∃ (pushed : List (BitVec 64)) (top : BitVec 64) (scratch padding : Option (BitVec 32)),
    m.stack = pushed.flatMap units ++ frameWith link saved top scratch padding ∧
      pushed.length = a.temporaries ∧ (a.parked = false → top = link.state) ∧
      (a.scratch = true → scratch.isSome = true)
  pointer : a.pointer = true → m.reg .rax = link.state

namespace Fits

variable {link : Linkage ε} {saved : Host.Reg → BitVec 64} {a a' : FrameState} {m m' : Machine ε}

/-- The stack tells the number of temporaries. -/
theorem length_stack (h : Fits link saved a m) : m.stack.length = 18 + 2 * a.temporaries := by
  obtain ⟨pushed, top, scratch, padding, hstack, hlen, -⟩ := h.stack
  rw [hstack, List.length_append, length_flatMap_units, hlen]
  exact Nat.add_comm _ 18

/-- The facts are about the stack and {lit}`rax`. -/
theorem congr (h : Fits link saved a m) (hstack : m'.stack = m.stack)
    (hrax : m'.reg .rax = m.reg .rax) : Fits link saved a m' :=
  ⟨hstack ▸ h.stack, fun hp => hrax.trans (h.pointer hp)⟩

/-- Another register is written. -/
theorem write {r : Host.Reg} (h : Fits link saved a m) (m' : Machine ε)
    (hwrite : a.write? r = some a') (hstack : m'.stack = m.stack)
    (hreg : ∀ s, s ≠ r → m'.reg s = m.reg s) :
    r ≠ .rsp ∧ Fits link saved a' m' := by
  unfold FrameState.write? at hwrite
  split at hwrite
  · cases hwrite
  · rename_i hr
    cases hwrite
    refine ⟨hr, hstack ▸ h.stack, fun hp => ?_⟩
    rw [Bool.and_eq_true, bne_iff_ne] at hp
    rw [hreg .rax hp.2.symm]
    exact h.pointer hp.1

/-- An operand in the processor state. -/
theorem state_of_atState {place : Mem} (h : Fits link saved a m) (hat : a.atState place = true) :
    place.base = .rax ∧ m.reg .rax = link.state ∧ ∃ f, Machine.field? place.disp = some f := by
  unfold FrameState.atState at hat
  simp only [Bool.and_eq_true, beq_iff_eq] at hat
  exact ⟨hat.1.2, h.pointer hat.1.1, Option.isSome_iff_exists.1 hat.2⟩

end Fits

/-! ## Single instructions -/

section Single

variable {link : Linkage ε} {saved : Host.Reg → BitVec 64} {a a' : FrameState} {m m' : Machine ε}
  {i : Instr}

/-- An instruction runs, keeps the rules, calls no function, and leads to a machine
with the given facts. -/
structure Proceeds (link : Linkage ε) (saved : Host.Reg → BitVec 64) (a' : FrameState)
    (m : Machine ε) (i : Instr) : Prop where
  disciplined : Disciplined link m i
  callResult?_eq : i.callResult? link m = none
  runs : ∃ m', i.step? link m = some m' ∧ Fits link saved a' m'

/-- An instruction that only writes a register. -/
theorem proceeds_of_write {r : Host.Reg} (h : Fits link saved a m) (hwrite : a.write? r = some a')
    (hplain : isPlain i = true) (hstep : r ≠ .rsp → i.step? link m = some m')
    (hstack : m'.stack = m.stack) (hreg : ∀ s, s ≠ r → m'.reg s = m.reg s) :
    Proceeds link saved a' m i := by
  obtain ⟨hr, hfits⟩ := h.write m' hwrite hstack hreg
  exact ⟨.of_isPlain hplain, callResult?_of_isPlain hplain link m, m', hstep hr, hfits⟩

theorem reg_put_of_ne (m : Machine ε) {r s : Host.Reg} (h : s ≠ r) (value : BitVec 32) :
    (m.put r value).reg s = m.reg s :=
  (Machine.reg_put ..).trans (if_neg h.symm)

/-- An instruction that accesses the processor state. -/
theorem Disciplined.of_atState {place : Mem} (h : Fits link saved a m)
    (hat : a.atState place = true) (hmemory : memory? i = some place)
    (hpointer : pointerPlace? i = none) : Disciplined link m i := by
  obtain ⟨hbase, hrax, f, hf⟩ := h.state_of_atState hat
  refine ⟨?_, ?_, ?_, fun target hi => absurd hi (ne_call_of_memory? hmemory target)⟩
  · intro place' hplace' hrsp
    cases hmemory.symm.trans hplace'
    rw [hbase] at hrsp
    cases hrsp
  · intro place' hplace' _
    cases hmemory.symm.trans hplace'
    exact ⟨hbase ▸ hrax, hf ▸ rfl⟩
  · intro place' hplace'
    cases hpointer.symm.trans hplace'

/-- An instruction that accesses the slot it is meant for, and loads the pointer there
if it loads one. -/
theorem Disciplined.of_pointerSlot {temporaries : Nat}
    (hlength : m.stack.length = 18 + 2 * temporaries)
    (hmemory : memory? i = some (slot (meantSlot i) temporaries))
    (hpointer : ∀ place, pointerPlace? i = some place →
      m.load64? (slot (meantSlot i) temporaries) =
        some (if meantSlot i = 1 then link.environment else link.state)) :
    Disciplined link m i := by
  refine ⟨?_, ?_, ?_, fun target hi => absurd hi (ne_call_of_memory? hmemory target)⟩
  · intro place hplace _
    cases hmemory.symm.trans hplace
    exact ⟨temporaries, rfl, hlength⟩
  · intro place hplace hrsp
    cases hmemory.symm.trans hplace
    exact absurd rfl hrsp
  · intro place hplace
    cases hmemory.symm.trans (memory?_of_pointerPlace? hplace)
    exact hpointer _ hplace

/-- An instruction that accesses the slot it is meant for and loads no pointer. -/
theorem Disciplined.of_slot {temporaries : Nat} (hlength : m.stack.length = 18 + 2 * temporaries)
    (hmemory : memory? i = some (slot (meantSlot i) temporaries))
    (hpointer : pointerPlace? i = none) : Disciplined link m i := by
  refine .of_pointerSlot hlength hmemory ?_
  intro place hplace
  cases hpointer.symm.trans hplace

/-- A word is loaded from the processor state. -/
theorem Fits.load32? {place : Mem} (h : Fits link saved a m) (hat : a.atState place = true) :
    ∃ value, m.load32? link place = some value := by
  obtain ⟨hbase, hrax, f, hf⟩ := h.state_of_atState hat
  exact ⟨_, load32?_of_field link m (by rw [hbase]; exact rax_ne_rsp) (hbase ▸ hrax) hf⟩

/-- A word is stored into the processor state. -/
theorem Fits.store32? {place : Mem} (h : Fits link saved a m) (hat : a.atState place = true)
    (value : BitVec 32) :
    ∃ m', m.store32? link place value = some m' ∧ Fits link saved a m' := by
  obtain ⟨hbase, hrax, f, hf⟩ := h.state_of_atState hat
  exact ⟨_, store32?_of_field link m (by rw [hbase]; exact rax_ne_rsp) (hbase ▸ hrax) hf value,
    h.congr rfl rfl⟩

/-- An instruction that reads, combines and writes a word of the processor state. -/
theorem proceeds_of_combine {place : Mem} (combine : BitVec 32 → BitVec 32 × Host.Flags)
    (h : Fits link saved a m) (hat : a.atState place = true) (hmemory : memory? i = some place)
    (hpointer : pointerPlace? i = none) (hresult : i.callResult? link m = none)
    (hstep : i.step? link m = (m.load32? link place).bind fun value =>
      (m.withFlags (combine value).2).store32? link place (combine value).1) :
    Proceeds link saved a m i := by
  obtain ⟨value, hvalue⟩ := h.load32? hat
  have hflags : Fits link saved a (m.withFlags (combine value).2) := h.congr rfl rfl
  obtain ⟨m', hstore, hfits⟩ := hflags.store32? hat (combine value).1
  refine ⟨.of_atState h hat hmemory hpointer, hresult, m', ?_, hfits⟩
  rw [hstep, hvalue, Option.bind_some, hstore]

theorem proceeds_load32 {dst : Host.Reg} {src : Mem} (h : Fits link saved a m)
    (hstep : a.step? (.load32 dst src) = some a') : Proceeds link saved a' m (.load32 dst src) := by
  obtain ⟨hplace, hwrite⟩ := Option.ite_none_right_eq_some.1 hstep
  obtain ⟨pushed, top, scratch, padding, hstack, hlen, -, hscratch⟩ := h.stack
  have hunits : (pushed.flatMap units).length = 2 * a.temporaries := by
    rw [length_flatMap_units, hlen]
  obtain ⟨hdisciplined, value, hvalue⟩ : Disciplined link m (.load32 dst src) ∧
      ∃ value, m.load32? link src = some value := by
    rcases hplace with hat | ⟨rfl, hwritten, hat⟩ | ⟨hdst, hat⟩
    · exact ⟨.of_atState h hat rfl rfl, h.load32? hat⟩
    · obtain ⟨rfl, hsmall⟩ := of_decide_eq_true hat
      refine ⟨.of_slot h.length_stack rfl rfl, ?_⟩
      rw [load32?_third hstack hunits hsmall]
      exact Option.isSome_iff_exists.1 (hscratch hwritten)
    · obtain ⟨rfl, hsmall⟩ := of_decide_eq_true hat
      have hmeant : meantSlot (.load32 dst (slot 0 a.temporaries)) = 0 := by
        cases dst <;> first | rfl | exact absurd rfl hdst
      exact ⟨.of_slot h.length_stack (by rw [hmeant]; rfl) rfl, _,
        load32?_first hstack hunits hsmall⟩
  obtain ⟨hdst, hfits⟩ := h.write (m.put dst value) hwrite rfl
    fun s hs => reg_put_of_ne m hs value
  refine ⟨hdisciplined, rfl, _, ?_, hfits⟩
  rw [Instr.step?_load32 link m hdst, hvalue]
  rfl

theorem proceeds_store32 {dst : Mem} {src : Host.Reg} (h : Fits link saved a m)
    (hstep : a.step? (.store32 dst src) = some a') :
    Proceeds link saved a' m (.store32 dst src) := by
  obtain ⟨hsrc, hstep⟩ := Option.ite_none_left_eq_some.1 hstep
  split at hstep
  · rename_i hat
    cases hstep
    obtain ⟨m', hstore, hfits⟩ := h.store32? hat (m.low src)
    exact ⟨.of_atState h hat rfl rfl, rfl, m',
      (Instr.step?_store32 link m hsrc dst).trans hstore, hfits⟩
  · obtain ⟨⟨rfl, hat⟩, heq⟩ := Option.ite_none_right_eq_some.1 hstep
    obtain ⟨rfl, hsmall⟩ := of_decide_eq_true hat
    cases heq
    obtain ⟨pushed, top, scratch, padding, hstack, hlen, htop, -⟩ := h.stack
    have hunits : (pushed.flatMap units).length = 2 * a.temporaries := by
      rw [length_flatMap_units, hlen]
    refine ⟨.of_slot h.length_stack rfl rfl, rfl, _,
      (Instr.step?_store32 link m hsrc _).trans (store32?_third hstack hunits hsmall _),
      ⟨pushed, top, _, padding, rfl, hlen, htop, fun _ => rfl⟩, h.pointer⟩

theorem proceeds_load64 {dst : Host.Reg} {src : Mem} (h : Fits link saved a m)
    (hstep : a.step? (.load64 dst src) = some a') : Proceeds link saved a' m (.load64 dst src) := by
  obtain ⟨pushed, top, scratch, padding, hstack, hlen, htop, -⟩ := h.stack
  have hunits : (pushed.flatMap units).length = 2 * a.temporaries := by
    rw [length_flatMap_units, hlen]
  rw [FrameState.step?] at hstep
  split at hstep
  · rename_i hat
    obtain ⟨rfl, hat⟩ := hat
    obtain ⟨rfl, hsmall⟩ := of_decide_eq_true hat
    cases hstep
    have hload := load64?_second hstack hunits hsmall
    refine ⟨.of_pointerSlot h.length_stack rfl ?_, rfl, m.setReg .rsi link.environment, ?_,
      h.congr rfl ?_⟩
    · intro _ _
      exact hload
    · rw [Instr.step?_load64 link m (by decide), hload]
      rfl
    · exact (Machine.reg_setReg ..).trans (if_neg (by decide))
  · obtain ⟨⟨hdst, hparked, hat⟩, heq⟩ := Option.ite_none_right_eq_some.1 hstep
    obtain ⟨rfl, hsmall⟩ := of_decide_eq_true hat
    cases heq
    have hload : m.load64? (slot 0 a.temporaries) = some link.state := by
      rw [load64?_first hstack hunits hsmall, htop hparked]
    have hrsp : dst ≠ .rsp := by
      rcases hdst with rfl | rfl <;> decide
    have hmeant : meantSlot (.load64 dst (slot 0 a.temporaries)) = 0 := by
      rcases hdst with rfl | rfl <;> rfl
    refine ⟨.of_pointerSlot h.length_stack (by rw [hmeant]; rfl) ?_, rfl,
      m.setReg dst link.state, ?_, h.stack, ?_⟩
    · intro _ _
      rw [hmeant]
      exact hload
    · rw [Instr.step?_load64 link m hrsp, hload]
      rfl
    · intro hp
      rw [Machine.reg_setReg]
      split
      · rfl
      · rename_i hne
        rw [Bool.or_eq_true, beq_iff_eq] at hp
        exact h.pointer (hp.resolve_right hne)

theorem proceeds_store64 {dst : Mem} {src : Host.Reg} (h : Fits link saved a m)
    (hstep : a.step? (.store64 dst src) = some a') :
    Proceeds link saved a' m (.store64 dst src) := by
  obtain ⟨⟨rfl, hpointer, hat⟩, heq⟩ := Option.ite_none_right_eq_some.1 hstep
  obtain ⟨rfl, hsmall⟩ := of_decide_eq_true hat
  cases heq
  obtain ⟨pushed, top, scratch, padding, hstack, hlen, -, hscratch⟩ := h.stack
  have hunits : (pushed.flatMap units).length = 2 * a.temporaries := by
    rw [length_flatMap_units, hlen]
  exact ⟨.of_slot h.length_stack rfl rfl, rfl, _,
    (Instr.step?_store64 link m rax_ne_rsp _).trans (store64?_first hstack hunits hsmall _),
    ⟨pushed, _, scratch, padding, rfl, hlen, fun _ => h.pointer hpointer, hscratch⟩, h.pointer⟩

theorem proceeds_xchg64 {r : Host.Reg} {place : Mem} (h : Fits link saved a m)
    (hstep : a.step? (.xchg64 r place) = some a') :
    Proceeds link saved a' m (.xchg64 r place) := by
  obtain ⟨⟨rfl, hparked, hat⟩, heq⟩ := Option.ite_none_right_eq_some.1 hstep
  obtain ⟨rfl, hsmall⟩ := of_decide_eq_true hat
  cases heq
  obtain ⟨pushed, top, scratch, padding, hstack, hlen, htop, hscratch⟩ := h.stack
  have hunits : (pushed.flatMap units).length = 2 * a.temporaries := by
    rw [length_flatMap_units, hlen]
  have hload : m.load64? (slot 0 a.temporaries) = some link.state := by
    rw [load64?_first hstack hunits hsmall, htop hparked]
  have hstore := store64?_first hstack hunits hsmall (m.reg .rax)
  refine ⟨.of_pointerSlot h.length_stack rfl fun _ _ => hload, rfl,
    (m.withStack (pushed.flatMap units ++
      frameWith link saved (m.reg .rax) scratch padding)).setReg .rax link.state, ?_,
    ⟨pushed, m.reg .rax, scratch, padding, rfl, hlen, ?_, hscratch⟩, ?_⟩
  · rw [Instr.step?_xchg64 link m rax_ne_rsp, hload, Option.bind_some, hstore]
    rfl
  · intro h
    cases h
  · intro _
    exact (Machine.reg_setReg ..).trans (if_pos rfl)

theorem proceeds_push {r : Host.Reg} (h : Fits link saved a m)
    (hstep : a.step? (.push r) = some a') : Proceeds link saved a' m (.push r) := by
  obtain ⟨hr, heq⟩ := Option.ite_none_left_eq_some.1 hstep
  cases heq
  obtain ⟨pushed, top, scratch, padding, hstack, hlen, htop, hscratch⟩ := h.stack
  refine ⟨.of_isPlain rfl, rfl, _, step?_push_units link m hr,
    ⟨m.reg r :: pushed, top, scratch, padding, ?_, by rw [List.length_cons, hlen], htop, hscratch⟩,
    h.pointer⟩
  rw [Machine.stack_withStack, hstack, List.flatMap_cons, List.append_assoc]

theorem proceeds_pop {r : Host.Reg} (h : Fits link saved a m)
    (hstep : a.step? (.pop r) = some a') : Proceeds link saved a' m (.pop r) := by
  rw [FrameState.step?] at hstep
  split at hstep
  · cases hstep
  · rename_i n hn
    obtain ⟨pushed, top, scratch, padding, hstack, hlen, htop, hscratch⟩ := h.stack
    cases pushed with
    | nil =>
        rw [hn] at hlen
        cases hlen
    | cons value pushed =>
        rw [hn, List.length_cons, Nat.succ_inj] at hlen
        rw [List.flatMap_cons, List.append_assoc] at hstack
        obtain ⟨rest, hrest⟩ : ∃ rest, rest = m.withStack
          (pushed.flatMap units ++ frameWith link saved top scratch padding) := ⟨_, rfl⟩
        have hfits : Fits link saved { a with temporaries := n } rest := by
          rw [hrest]
          exact ⟨⟨pushed, top, scratch, padding, rfl, hlen, htop, hscratch⟩, h.pointer⟩
        obtain ⟨hr, hfits'⟩ := hfits.write (rest.setReg r value) hstep rfl
          fun s hs => (Machine.reg_setReg ..).trans (if_neg hs.symm)
        refine ⟨.of_isPlain rfl, rfl, _, ?_, hfits'⟩
        have hpop := step?_pop_units link m hr value
          (pushed.flatMap units ++ frameWith link saved top scratch padding)
        rw [← hstack, Machine.withStack_self] at hpop
        rw [hpop, hrest]
        rfl

/-- An instruction that the facts admit runs, keeps the rules, and leads to the facts
told. -/
theorem FrameState.step?_sound (h : Fits link saved a m) (hstep : a.step? i = some a') :
    Proceeds link saved a' m i := by
  cases i with
  | mov dst src =>
      obtain ⟨hsrc, hwrite⟩ := Option.ite_none_left_eq_some.1 hstep
      exact proceeds_of_write h hwrite rfl (Instr.step?_mov link m · hsrc) rfl
        fun s hs => reg_put_of_ne m hs _
  | movImm dst imm =>
      exact proceeds_of_write h hstep rfl (Instr.step?_movImm link m · imm) rfl
        fun s hs => reg_put_of_ne m hs _
  | mov64Imm dst imm =>
      exact proceeds_of_write h hstep rfl (Instr.step?_mov64Imm link m · imm) rfl
        fun s hs => (Machine.reg_setReg ..).trans (if_neg hs.symm)
  | alu op dst src =>
      obtain ⟨hsrc, hwrite⟩ := Option.ite_none_left_eq_some.1 hstep
      by_cases hop : op = .cmp
      · subst hop
        exact proceeds_of_write h hwrite rfl (Instr.step?_alu_cmp link m · hsrc) rfl
          fun s hs => rfl
      · exact proceeds_of_write h hwrite rfl (Instr.step?_alu link m hop · hsrc) rfl
          fun s hs => reg_put_of_ne _ hs _
  | aluImm op dst imm =>
      by_cases hop : op = .cmp
      · subst hop
        exact proceeds_of_write h hstep rfl (Instr.step?_aluImm_cmp link m · imm) rfl
          fun s hs => rfl
      · exact proceeds_of_write h hstep rfl (Instr.step?_aluImm link m hop · imm) rfl
          fun s hs => reg_put_of_ne _ hs _
  | test x y =>
      obtain ⟨hne, heq⟩ := Option.ite_none_left_eq_some.1 hstep
      rw [not_or] at hne
      cases heq
      exact ⟨.of_isPlain rfl, rfl, _, Instr.step?_test link m hne.1 hne.2,
        h.congr rfl rfl⟩
  | testImm x imm =>
      obtain ⟨hne, heq⟩ := Option.ite_none_left_eq_some.1 hstep
      cases heq
      exact ⟨.of_isPlain rfl, rfl, _, Instr.step?_testImm link m hne imm,
        h.congr rfl rfl⟩
  | not r =>
      exact proceeds_of_write h hstep rfl (Instr.step?_not link m ·) rfl
        fun s hs => reg_put_of_ne _ hs _
  | shlImm r n =>
      exact proceeds_of_write h hstep rfl (Instr.step?_shlImm link m · n) rfl
        fun s hs => reg_put_of_ne _ hs _
  | shrImm r n =>
      exact proceeds_of_write h hstep rfl (Instr.step?_shrImm link m · n) rfl
        fun s hs => reg_put_of_ne _ hs _
  | shrCl r =>
      exact proceeds_of_write h hstep rfl (Instr.step?_shrCl link m ·) rfl
        fun s hs => reg_put_of_ne _ hs _
  | load32 dst src => exact proceeds_load32 h hstep
  | store32 dst src => exact proceeds_store32 h hstep
  | store32Imm dst imm =>
      obtain ⟨hat, heq⟩ := Option.ite_none_right_eq_some.1 hstep
      cases heq
      obtain ⟨m', hstore, hfits⟩ := h.store32? hat imm
      exact ⟨.of_atState h hat rfl rfl, rfl, m', hstore, hfits⟩
  | load64 dst src => exact proceeds_load64 h hstep
  | store64 dst src => exact proceeds_store64 h hstep
  | xchg64 r place => exact proceeds_xchg64 h hstep
  | and32Imm dst imm =>
      obtain ⟨hat, heq⟩ := Option.ite_none_right_eq_some.1 hstep
      cases heq
      exact proceeds_of_combine (Host.Alu.and.eval · imm) h hat rfl rfl rfl
        (Instr.step?_and32Imm link m dst imm)
  | or32 dst src =>
      obtain ⟨⟨hsrc, hat⟩, heq⟩ := Option.ite_none_right_eq_some.1 hstep
      cases heq
      exact proceeds_of_combine (Host.Alu.or.eval · (m.low src)) h hat rfl rfl
        rfl (Instr.step?_or32 link m hsrc dst)
  | setcc cc dst =>
      exact proceeds_of_write h hstep rfl (fun _ => Instr.step?_setcc link m cc dst)
        (Machine.stack_setByte ..) fun s hs => Machine.reg_setByte_of_ne m hs.symm _
  | movByteImm dst imm =>
      exact proceeds_of_write h hstep rfl (fun _ => rfl)
        (Machine.stack_setByte m dst imm) fun s hs => Machine.reg_setByte_of_ne m hs.symm _
  | orByte dst src =>
      exact proceeds_of_write h hstep rfl (fun _ => Instr.step?_orByte link m dst src)
        (Machine.stack_setByte ..) fun s hs => Machine.reg_setByte_of_ne _ hs.symm _
  | movzx dst src =>
      obtain ⟨hlow, hwrite⟩ := Option.ite_none_right_eq_some.1 hstep
      exact proceeds_of_write h hwrite rfl (Instr.step?_movzx link m · hlow src) rfl
        fun s hs => reg_put_of_ne _ hs _
  | push r => exact proceeds_push h hstep
  | pop r => exact proceeds_pop h hstep
  | subRsp n => cases hstep
  | addRsp n => cases hstep
  | call target => cases hstep
  | ret => cases hstep

end Single

end ArmEmulator.Block
