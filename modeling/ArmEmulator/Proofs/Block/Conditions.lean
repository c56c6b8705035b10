import ArmEmulator.Block.Flags
import ArmEmulator.Proofs.Block.Frame

/-!
# Conditions and flags of a running block

The code in front of a conditional instruction and the code behind a flag-setting
one work on temporaries only, so apart from the host flags and the status in the
processor state they leave the machine as it is.

Main results:

- Theorem {lit}`runInstrs?_testCondition`: the host zero flag tells whether the
  condition failed.
- Theorem {lit}`runInstrs?_captureFlags`: the four flags of the status become
  those of the last operation.
-/

namespace ArmEmulator.Block

open Host (Machine Linkage Instr Code Item Label Flags runInstrs?)

variable {ε : Type}

/-! ## Conditions -/

section Conditions

/-- The number of places the pass mask is shifted by is the value of the flags. -/
theorem shiftCount_nzcv (psr : Word) :
    Host.shiftCount ((psr >>> 28).setWidth 8) = (Psr.nzcv psr).toNat := by
  have hlt := psr.isLt
  rw [Host.shiftCount, BitVec.toNat_setWidth, BitVec.toNat_ushiftRight, Psr.nzcv,
    BitVec.extractLsb'_toNat]
  omega

/-- The shifted pass mask tells by its lowest bit whether the condition holds. -/
theorem passMask_test (cond : Cond) (psr : Word) :
    ((cond.passMask.setWidth 32 >>> (Psr.nzcv psr).toNat) &&& 1#32 == 0#32) =
      !cond.passes psr := by
  obtain ⟨i, hi⟩ : ∃ i : Fin 16, i.val = (Psr.nzcv psr).toNat := ⟨(Psr.nzcv psr).toFin, rfl⟩
  have hbit : (cond.passMask.setWidth 32 >>> i.val).getLsbD 0 = cond.passes psr := by
    rw [BitVec.getLsbD_ushiftRight, BitVec.getLsbD_setWidth, Nat.add_zero,
      decide_eq_true (by omega), Bool.true_and, Cond.getLsbD_passMask]
    refine Cond.passes_congr (BitVec.eq_of_toNat_eq ?_)
    rw [← hi, Psr.nzcv, BitVec.extractLsb'_toNat, BitVec.toNat_shiftLeft, BitVec.toNat_ofNat]
    omega
  rw [← hi, BitVec.and_one_eq_setWidth_ofBool_getLsbD, hbit]
  cases cond.passes psr <;> decide

variable {link : Linkage ε} {m : Machine ε}

/-- The test changes nothing but the host flags, and the zero flag tells whether
the condition failed. -/
theorem runInstrs?_testCondition (hm : Pointed link m) (cond : Cond) :
    ∃ flags, runInstrs? link (testCondition cond) m = some (m.withFlags flags) ∧
      flags.zero = !cond.passes m.cpu.cpsr := by
  obtain ⟨below, hstack⟩ := hm
  obtain ⟨stack, hpushed⟩ : ∃ stack, stack =
    units (m.reg .rcx) ++ (units (m.reg .rax) ++ m.stack) := ⟨_, rfl⟩
  have hpush : runInstrs? link [.push .rax, .push .rcx] m = some (m.withStack stack) := by
    rw [hpushed]
    rfl
  have hpointer : (m.withStack stack).load64? (stateSlot 2) = some link.state :=
    load64?_stateSlot (units (m.reg .rcx) ++ units (m.reg .rax))
      (by rw [hpushed, hstack]; rfl) rfl (by decide)
  have hstatus : ((m.setReg .rax link.state).withStack stack).load32? link stateStatus =
      some m.cpu.cpsr :=
    load32?_stateStatus link _ (by rw [Machine.reg_withStack, Machine.reg_setReg, if_pos rfl])
  have hplaces : Host.shiftCount 28#8 = 28 := rfl
  obtain ⟨result, hresult⟩ : ∃ result, result =
    Host.Alu.and.eval (cond.passMask.setWidth 32 >>> (Psr.nzcv m.cpu.cpsr).toNat) 1#32 := ⟨_, rfl⟩
  have htest : runInstrs? link
      [.load64 .rax (stateSlot 2), .load32 .rcx stateStatus, .shrImm .rcx 28,
        .movImm .rax (cond.passMask.setWidth 32), .shrCl .rax, .aluImm .and .rax 1]
      (m.withStack stack) =
        some (((((((m.setReg .rax link.state).put .rcx m.cpu.cpsr).put .rcx
          (m.cpu.cpsr >>> 28)).put .rax (cond.passMask.setWidth 32)).put .rax
          (cond.passMask.setWidth 32 >>> (Psr.nzcv m.cpu.cpsr).toNat)).put .rax
          result.1).withFlags result.2 |>.withStack stack) := by
    simp [hpointer, hstatus, Machine.getByte_cl, hplaces, shiftCount_nzcv, hresult]
  obtain ⟨tested, htested⟩ : ∃ tested, tested =
    ((((((m.setReg .rax link.state).put .rcx m.cpu.cpsr).put .rcx (m.cpu.cpsr >>> 28)).put .rax
      (cond.passMask.setWidth 32)).put .rax
      (cond.passMask.setWidth 32 >>> (Psr.nzcv m.cpu.cpsr).toNat)).put .rax
      result.1).withFlags result.2 := ⟨_, rfl⟩
  have hpop : runInstrs? link [.pop .rcx, .pop .rax] (tested.withStack stack) =
      some (((tested.setReg .rcx (m.reg .rcx)).setReg .rax (m.reg .rax)).withStack m.stack) := by
    rw [hpushed, Host.runInstrs?_cons, step?_pop_units link tested (by decide), Option.bind_some,
      Host.runInstrs?_cons, step?_pop_units link _ rax_ne_rsp]
    rfl
  refine ⟨result.2, ?_, ?_⟩
  · rw [show testCondition cond = [.push .rax, .push .rcx] ++
        ([.load64 .rax (stateSlot 2), .load32 .rcx stateStatus, .shrImm .rcx 28,
          .movImm .rax (cond.passMask.setWidth 32), .shrCl .rax, .aluImm .and .rax 1] ++
          [.pop .rcx, .pop .rax]) from rfl,
      Host.runInstrs?_append_of_eq_some link hpush, Host.runInstrs?_append_of_eq_some link htest,
      ← htested, hpop, htested]
    apply congrArg some
    refine Machine.ext_reg ?_ rfl rfl rfl rfl
    intro r
    simp only [Machine.reg_withStack, Machine.reg_withFlags, Machine.reg_setReg, Machine.reg_put]
    grind only
  · rw [hresult]
    exact passMask_test cond m.cpu.cpsr

/-- A conditional instruction goes on or jumps to its label by its condition. -/
theorem leads_skipUnless (hm : Pointed link m) (cond : Cond) (skip : Label) :
    ∃ flags, Code.Leads link none (skipUnless cond skip) m []
      (if cond.passes m.cpu.cpsr then none else some skip) (m.withFlags flags) := by
  obtain ⟨flags, htest, hzero⟩ := runInstrs?_testCondition hm cond
  have hleads := (Code.Leads.ofInstrs htest (by simp [testCondition, Instr.isCall])).append
    (.jump .e skip (m.withFlags flags)) fun l hl => absurd hl (Code.label_notMem_ofInstrs l _)
  refine ⟨flags, ?_⟩
  rw [Machine.flags_withFlags, Host.Cc.holds, hzero] at hleads
  cases hc : cond.passes m.cpu.cpsr <;> rw [hc] at hleads <;> exact hleads

theorem label_notMem_skipUnless (cond : Cond) (skip l : Label) :
    Item.label l ∉ skipUnless cond skip := by
  rw [skipUnless, List.mem_append, not_or]
  exact ⟨Code.label_notMem_ofInstrs l _, by simp⟩

/-- A run of conditional code goes on or skips to its label. -/
theorem run?_skipUnless (hm : Pointed link m) (cond : Cond) (skip : Label) (rest : Code) :
    ∃ flags, Code.run? link none (skipUnless cond skip ++ rest) m =
      Code.run? link (if cond.passes m.cpu.cpsr then none else some skip) rest
        (m.withFlags flags) := by
  obtain ⟨flags, hleads⟩ := leads_skipUnless hm cond skip
  exact ⟨flags, hleads.run?_append fun l hl => absurd hl (label_notMem_skipUnless cond skip l)⟩

/-- Conditional code does what its body does if the condition holds; the label behind the
body does not stop a jump to another one. -/
theorem leads_conditional_of_passes (hm : Pointed link m) {cond : Cond}
    (h : cond.passes m.cpu.cpsr = true) (skip : Label) :
    ∃ flags, ∀ {body calls target m'}, (∀ l, Item.label l ∉ body) → target ≠ some skip →
      Code.Leads link none body (m.withFlags flags) calls target m' →
      Code.Leads link none (conditional cond skip body) m calls target m' := by
  by_cases hal : cond = .al
  · refine ⟨m.flags, fun _ _ hbody => ?_⟩
    rw [conditional, if_pos hal]
    exact hbody
  · obtain ⟨flags, htest⟩ := leads_skipUnless hm cond skip
    rw [h, if_pos rfl] at htest
    refine ⟨flags, fun {body calls target m'} hlabel htarget hbody => ?_⟩
    have hend : Code.Leads link target [.label skip] m' [] target m' := by
      cases target with
      | none => exact .label skip m'
      | some l =>
          refine .passed ?_ m'
          rw [List.mem_singleton]
          rintro ⟨⟩
          exact htarget rfl
    have hcode := htest.append (hbody.append hend fun l hl => absurd hl (hlabel l))
      fun l hl => absurd hl (label_notMem_skipUnless cond skip l)
    rw [List.nil_append, List.append_nil] at hcode
    rw [conditional, if_neg hal, List.append_assoc]
    exact hcode

/-- Conditional code is passed over if the condition fails. -/
theorem leads_conditional_of_fails (hm : Pointed link m) {cond : Cond}
    (h : cond.passes m.cpu.cpsr = false) (skip : Label) (body : Code) :
    ∃ flags, Code.Leads link none (conditional cond skip body) m [] none (m.withFlags flags) := by
  have hal : cond ≠ .al := by
    rintro rfl
    cases h
  obtain ⟨flags, htest⟩ := leads_skipUnless hm cond skip
  rw [h, if_neg Bool.false_ne_true] at htest
  have hcode := htest.append (.skipped skip body _)
    fun l hl => absurd hl (label_notMem_skipUnless cond skip l)
  refine ⟨flags, ?_⟩
  rw [conditional, if_neg hal, List.append_assoc]
  exact hcode

end Conditions

/-! ## Flags -/

namespace CarrySource

/-- The byte that stands for the carry before it is put into place. -/
def bit (flags : Flags) : CarrySource → Bool
  | host cc => cc.holds flags
  | const carry => carry
  | keep => false

/-- The carry flag that a source tells, given the host flags and the status. -/
def eval (flags : Flags) (psr : Word) : CarrySource → Bool
  | keep => Psr.flag psr .c
  | source => source.bit flags

end CarrySource

/-- A truth value as a word. -/
def truth (b : Bool) : Word :=
  ((BitVec.ofBool b).setWidth 8).setWidth 32

/-- Four truth values as the flags of a status word. -/
def flagWord (sign zero carry overflow : Bool) : Word :=
  ((((truth sign <<< 1 ||| truth zero) <<< 1 ||| truth carry) <<< 1) ||| truth overflow) <<< 28

theorem getLsbD_flagWord : ∀ sign zero carry overflow : Bool, ∀ i < 32,
    (flagWord sign zero carry overflow).getLsbD i =
      if i < 28 then false
      else if i = 28 then overflow else if i = 29 then carry else if i = 30 then zero
      else sign := by
  decide

/-- Clearing the flags of a status word and combining others into it replaces
them. -/
theorem and_or_flagWord (psr : Word) (carry : CarrySource) (flags : Flags)
    (sign zero overflow : Bool) :
    psr &&& (if carry = .keep then 0x2fffffff else 0x0fffffff) |||
        flagWord sign zero (carry.bit flags) overflow =
      Psr.withFlags psr sign zero (carry.eval flags psr) overflow := by
  apply BitVec.eq_of_getLsbD_eq
  intro i hi
  have hall : ∀ i < 32, (0x0fffffff : Word).getLsbD i = decide (i < 28) := by decide
  have hkept : ∀ i < 32, (0x2fffffff : Word).getLsbD i = decide (i < 28 ∨ i = 29) := by decide
  rw [BitVec.getLsbD_or, BitVec.getLsbD_and, Psr.getLsbD_withFlags,
    getLsbD_flagWord _ _ _ _ i hi]
  by_cases hc : carry = .keep
  · subst hc
    rw [if_pos rfl, hkept i hi]
    simp only [CarrySource.bit, CarrySource.eval, Psr.flag, Flag.bit]
    grind
  · have heval : carry.eval flags psr = carry.bit flags := by
      cases carry <;> first | rfl | exact absurd rfl hc
    rw [if_neg hc, hall i hi, heval]
    grind

/-- Copies the host flags into bytes of the first and third register, one each. -/
def flagBytes (carry : CarrySource) (overflow : Bool) : List Instr :=
  [.setcc .s .al, .setcc .e .ah,
    match carry with
    | .host cc => .setcc cc .dl
    | .const c => .movByteImm .dl ((BitVec.ofBool c).setWidth 8)
    | .keep => .movByteImm .dl 0,
    if overflow then .setcc .o .dh else .movByteImm .dh 0]

/-- Puts the four bytes together as the flags of a status word. -/
def gatherFlags : List Instr :=
  [.movzx .rcx .al, .shlImm .rcx 1, .orByte .cl .ah, .shlImm .rcx 1, .orByte .cl .dl,
    .shlImm .rcx 1, .orByte .cl .dh, .shlImm .rcx 28]

/-- Masks the status in the processor state and combines the flags into it. -/
def mergeStatus (kept : Word) : List Instr :=
  [.load64 .rax (stateSlot 3), .and32Imm stateStatus kept, .or32 stateStatus .rcx]

theorem captureFlags_eq (carry : CarrySource) (overflow : Bool) :
    captureFlags carry overflow =
      [.push .rax, .push .rcx, .push .rdx] ++ (flagBytes carry overflow ++ (gatherFlags ++
        (mergeStatus (if carry = .keep then 0x2fffffff else 0x0fffffff) ++
          [.pop .rdx, .pop .rcx, .pop .rax]))) := rfl

section Capture

variable {link : Linkage ε} {m : Machine ε} {flags : Flags}

/-- The byte form of a truth value. -/
def truthByte (b : Bool) : BitVec 8 :=
  (BitVec.ofBool b).setWidth 8

theorem runInstrs?_flagBytes (link : Linkage ε) (m : Machine ε) (carry : CarrySource)
    (overflow : Bool) :
    runInstrs? link (flagBytes carry overflow) m =
      some ((((m.setByte .al (truthByte m.flags.sign)).setByte .ah (truthByte m.flags.zero)).setByte
        .dl (truthByte (carry.bit m.flags))).setByte .dh
          (truthByte (overflow && m.flags.overflow))) := by
  have hcarry : ∀ n : Machine ε, n.flags = m.flags →
      Instr.step? link n
          (match carry with
            | .host cc => .setcc cc .dl
            | .const c => .movByteImm .dl ((BitVec.ofBool c).setWidth 8)
            | .keep => .movByteImm .dl 0) =
        some (n.setByte .dl (truthByte (carry.bit m.flags))) := by
    intro n hn
    cases carry <;> rw [← hn] <;> rfl
  have hoverflow : ∀ n : Machine ε, n.flags = m.flags →
      Instr.step? link n (if overflow then .setcc .o .dh else .movByteImm .dh 0) =
        some (n.setByte .dh (truthByte (overflow && m.flags.overflow))) := by
    intro n hn
    cases overflow <;> rw [← hn] <;> rfl
  unfold flagBytes
  rw [Host.runInstrs?_cons, Instr.step?_setcc, Option.bind_some, Host.runInstrs?_cons,
    Instr.step?_setcc, Option.bind_some, Host.runInstrs?_cons,
    hcarry _ (by simp only [Machine.flags_setByte]), Option.bind_some, Host.runInstrs?_cons,
    hoverflow _ (by simp only [Machine.flags_setByte]), Machine.flags_setByte]
  rfl

/-- One more truth value is put behind those gathered so far. -/
theorem runInstrs?_gather (link : Linkage ε) {b : Host.ByteReg} {value : Bool}
    (hb : Host.Reg.rcx ≠ Machine.whole b) (hvalue : m.getByte b = truthByte value) (word : Word)
    (flags : Flags) :
    ∃ flags', runInstrs? link [.shlImm .rcx 1, .orByte .cl b] ((m.put .rcx word).withFlags flags) =
      some ((m.put .rcx (word <<< 1 ||| truth value)).withFlags flags') := by
  obtain ⟨shifted, hshift⟩ : ∃ shifted,
      (Instr.shlImm .rcx 1).step? link ((m.put .rcx word).withFlags flags) =
        some ((m.put .rcx (word <<< 1)).withFlags shifted) := by
    refine ⟨(Host.shiftLeft word 1 flags).2, ?_⟩
    rw [Instr.step?_shlImm link _ (by decide), Machine.low_withFlags, Machine.low_put, if_pos rfl,
      Machine.put_withFlags, Machine.put_withFlags, Machine.put_put]
    rfl
  have hbyte : ((m.put .rcx (word <<< 1)).withFlags shifted).getByte b = truthByte value :=
    (Machine.getByte_put_of_ne m hb (word <<< 1)).trans hvalue
  obtain ⟨combined, hcombined⟩ : ∃ combined, combined = Flags.ofResult
    (((m.put .rcx (word <<< 1)).withFlags shifted).getByte .cl ||| truthByte value) false false :=
    ⟨_, rfl⟩
  refine ⟨combined, ?_⟩
  rw [Host.runInstrs?_cons, hshift, Option.bind_some, Host.runInstrs?_cons, Instr.step?_orByte,
    hbyte, ← hcombined]
  exact congrArg (fun n => some (n.withFlags combined))
    (Machine.setByte_cl_or m (word <<< 1) (truthByte value))

theorem runInstrs?_gatherFlags (link : Linkage ε) {sign zero carry overflow : Bool}
    (hsign : m.getByte .al = truthByte sign) (hzero : m.getByte .ah = truthByte zero)
    (hcarry : m.getByte .dl = truthByte carry) (hoverflow : m.getByte .dh = truthByte overflow) :
    ∃ flags, runInstrs? link gatherFlags m =
      some ((m.put .rcx (flagWord sign zero carry overflow)).withFlags flags) := by
  have hfirst : (Instr.movzx .rcx .al).step? link m =
      some ((m.put .rcx (truth sign)).withFlags m.flags) := by
    rw [Instr.step?_movzx link m (by decide) (by decide), hsign]
    rfl
  obtain ⟨flags, hz⟩ := runInstrs?_gather link (by decide) hzero (truth sign) m.flags
  obtain ⟨flags', hc⟩ := runInstrs?_gather link (by decide) hcarry
    (truth sign <<< 1 ||| truth zero) flags
  obtain ⟨flags'', hv⟩ := runInstrs?_gather link (by decide) hoverflow
    ((truth sign <<< 1 ||| truth zero) <<< 1 ||| truth carry) flags'
  rw [show gatherFlags =
      .movzx .rcx .al :: ([.shlImm .rcx 1, .orByte .cl .ah] ++ ([.shlImm .rcx 1, .orByte .cl .dl] ++
        ([.shlImm .rcx 1, .orByte .cl .dh] ++ [.shlImm .rcx 28]))) from rfl,
    Host.runInstrs?_cons, hfirst, Option.bind_some, Host.runInstrs?_append_of_eq_some link hz,
    Host.runInstrs?_append_of_eq_some link hc, Host.runInstrs?_append_of_eq_some link hv,
    Host.runInstrs?_cons, Instr.step?_shlImm link _ (by decide), Machine.low_withFlags,
    Machine.low_put, if_pos rfl, Machine.put_withFlags, Machine.put_withFlags, Machine.put_put]
  exact ⟨_, rfl⟩

/-- The host flags are put together as the flags of a status word; apart from the
host flags only the three scratch registers change. -/
theorem runInstrs?_flagWord (link : Linkage ε) (m : Machine ε) (carry : CarrySource)
    (overflow : Bool) :
    ∃ n, runInstrs? link (flagBytes carry overflow ++ gatherFlags) m = some n ∧
      n.low .rcx = flagWord m.flags.sign m.flags.zero (carry.bit m.flags)
        (overflow && m.flags.overflow) ∧
      n.stack = m.stack ∧ n.cpu = m.cpu ∧ n.env = m.env ∧
      ∀ r, r ≠ .rax → r ≠ .rcx → r ≠ .rdx → n.reg r = m.reg r := by
  have hrun := runInstrs?_flagBytes link m carry overflow
  obtain ⟨bytes, hbytes⟩ : ∃ bytes, bytes =
    (((m.setByte .al (truthByte m.flags.sign)).setByte .ah (truthByte m.flags.zero)).setByte .dl
      (truthByte (carry.bit m.flags))).setByte .dh (truthByte (overflow && m.flags.overflow)) :=
    ⟨_, rfl⟩
  rw [← hbytes] at hrun
  have hsign : bytes.getByte .al = truthByte m.flags.sign := by simp [hbytes]
  have hzero : bytes.getByte .ah = truthByte m.flags.zero := by simp [hbytes]
  have hcarry : bytes.getByte .dl = truthByte (carry.bit m.flags) := by simp [hbytes]
  have hoverflow : bytes.getByte .dh = truthByte (overflow && m.flags.overflow) := by
    simp [hbytes]
  obtain ⟨flags, hgather⟩ := runInstrs?_gatherFlags link hsign hzero hcarry hoverflow
  refine ⟨_, (Host.runInstrs?_append_of_eq_some link hrun _).trans hgather, ?_, ?_, ?_, ?_, ?_⟩
  · rw [Machine.low_withFlags, Machine.low_put, if_pos rfl]
  · simp [hbytes]
  · simp [hbytes]
  · simp [hbytes]
  · intro r hrax hrcx hrdx
    rw [Machine.reg_withFlags, Machine.reg_put, if_neg (Ne.symm hrcx), hbytes,
      Machine.reg_setByte_of_ne _ (Ne.symm hrdx), Machine.reg_setByte_of_ne _ (Ne.symm hrdx),
      Machine.reg_setByte_of_ne _ (Ne.symm hrax), Machine.reg_setByte_of_ne _ (Ne.symm hrax)]

theorem runInstrs?_mergeStatus (hm : m.load64? (stateSlot 3) = some link.state) (kept : Word) :
    ∃ flags, runInstrs? link (mergeStatus kept) m =
      some (((m.setReg .rax link.state).withCpu
        (m.cpu.withCpsr (m.cpu.cpsr &&& kept ||| m.low .rcx))).withFlags flags) := by
  obtain ⟨first, hfirst⟩ : ∃ first, first = (Host.Alu.and.eval m.cpu.cpsr kept).2 := ⟨_, rfl⟩
  have hrax : ((m.setReg .rax link.state).withFlags first).reg .rax = link.state := by
    rw [Machine.reg_withFlags, Machine.reg_setReg, if_pos rfl]
  have hload : (m.setReg .rax link.state).load32? link stateStatus = some m.cpu.cpsr :=
    load32?_stateStatus link _ hrax
  have hstore := store32?_stateStatus link _ hrax (m.cpu.cpsr &&& kept)
  obtain ⟨masked, hmasked⟩ : ∃ masked, masked = ((m.setReg .rax link.state).withFlags
    first).withCpu (m.cpu.withCpsr (m.cpu.cpsr &&& kept)) := ⟨_, rfl⟩
  rw [Machine.cpu_withFlags, Machine.cpu_setReg, ← hmasked] at hstore
  have hload' : masked.load32? link stateStatus = some (m.cpu.cpsr &&& kept) := by
    rw [hmasked]
    exact load32?_stateStatus link _ hrax
  have hrcx : masked.low .rcx = m.low .rcx := by
    rw [hmasked, Machine.low_withCpu, Machine.low_withFlags, Machine.low_setReg,
      if_neg (by decide)]
  obtain ⟨flags, hflags⟩ : ∃ flags, flags =
    (Host.Alu.or.eval (m.cpu.cpsr &&& kept) (m.low .rcx)).2 := ⟨_, rfl⟩
  have hrax' : (masked.withFlags flags).reg .rax = link.state := by
    rw [hmasked]
    exact hrax
  refine ⟨flags, ?_⟩
  rw [mergeStatus, Host.runInstrs?_cons, Instr.step?_load64 link m rax_ne_rsp, hm, Option.map_some,
    Option.bind_some, Host.runInstrs?_cons, Instr.step?_and32Imm, hload, Option.bind_some,
    ← hfirst, hstore, Option.bind_some, Host.runInstrs?_cons,
    Instr.step?_or32 link masked (by decide), hload', Option.bind_some, hrcx, ← hflags,
    store32?_stateStatus link _ hrax', hmasked]
  rfl

/-- Three registers are restored from the top of the stack. -/
theorem runInstrs?_pops (link : Linkage ε) {a b c : BitVec 64} {rest : List (Option (BitVec 32))}
    (hstack : m.stack = units a ++ (units b ++ (units c ++ rest))) :
    runInstrs? link [.pop .rdx, .pop .rcx, .pop .rax] m =
      some ((((m.setReg .rdx a).setReg .rcx b).setReg .rax c).withStack rest) := by
  have hm : m = m.withStack (units a ++ (units b ++ (units c ++ rest))) := by
    rw [← hstack, Machine.withStack_self]
  rw [hm, Host.runInstrs?_cons, step?_pop_units link m (by decide), Option.bind_some,
    Host.runInstrs?_cons, step?_pop_units link _ (by decide), Option.bind_some,
    Host.runInstrs?_cons, step?_pop_units link _ rax_ne_rsp]
  rfl

/-- The machine after the flags of its last operation were copied to the status,
apart from its host flags. -/
def captured (m : Machine ε) (carry : CarrySource) (overflow : Bool) : Machine ε :=
  m.withCpu (m.cpu.withCpsr (Psr.withFlags m.cpu.cpsr m.flags.sign m.flags.zero
    (carry.eval m.flags m.cpu.cpsr) (overflow && m.flags.overflow)))

/-- The flags of the status become those of the last operation; all other parts
of the machine but the host flags are kept. -/
theorem runInstrs?_captureFlags (hm : Pointed link m) (carry : CarrySource)
    (overflow : Bool) :
    ∃ flags, runInstrs? link (captureFlags carry overflow) m =
      some ((captured m carry overflow).withFlags flags) := by
  obtain ⟨below, hstack⟩ := hm
  obtain ⟨stack, hpushed⟩ : ∃ stack, stack =
    units (m.reg .rdx) ++ (units (m.reg .rcx) ++ (units (m.reg .rax) ++ m.stack)) := ⟨_, rfl⟩
  have hpush : runInstrs? link [.push .rax, .push .rcx, .push .rdx] m =
      some (m.withStack stack) := by
    rw [hpushed]
    rfl
  obtain ⟨word, hword, hwordLow, hwordStack, hwordCpu, hwordEnv, hwordReg⟩ :=
    runInstrs?_flagWord link (m.withStack stack) carry overflow
  rw [Machine.flags_withStack] at hwordLow
  rw [Machine.stack_withStack] at hwordStack
  have hpointer : word.load64? (stateSlot 3) = some link.state := by
    have hframe : word.stack = (units (m.reg .rdx) ++ units (m.reg .rcx) ++ units (m.reg .rax)) ++
        (units link.state ++ below) := by
      rw [hwordStack, hpushed, hstack]
      rfl
    exact load64?_stateSlot _ hframe rfl (by decide)
  obtain ⟨flags, hmerge⟩ := runInstrs?_mergeStatus hpointer
    (if carry = .keep then 0x2fffffff else 0x0fffffff)
  rw [hwordCpu, Machine.cpu_withStack, hwordLow, and_or_flagWord] at hmerge
  obtain ⟨psr, hpsr⟩ : ∃ psr, psr = Psr.withFlags m.cpu.cpsr m.flags.sign m.flags.zero
    (carry.eval m.flags m.cpu.cpsr) (overflow && m.flags.overflow) := ⟨_, rfl⟩
  rw [← hpsr] at hmerge
  obtain ⟨merged, hmerged⟩ : ∃ merged, merged =
    ((word.setReg .rax link.state).withCpu (m.cpu.withCpsr psr)).withFlags flags := ⟨_, rfl⟩
  have hmergedStack : merged.stack =
      units (m.reg .rdx) ++ (units (m.reg .rcx) ++ (units (m.reg .rax) ++ m.stack)) := by
    rw [hmerged]
    exact hwordStack.trans hpushed
  have hpop := runInstrs?_pops link hmergedStack
  rw [hmerged] at hpop
  refine ⟨flags, ?_⟩
  rw [captureFlags_eq, Host.runInstrs?_append_of_eq_some link hpush, ← List.append_assoc,
    Host.runInstrs?_append_of_eq_some link hword, Host.runInstrs?_append_of_eq_some link hmerge,
    hpop, captured, ← hpsr]
  apply congrArg some
  refine Machine.ext_reg ?_ rfl rfl rfl hwordEnv
  intro r
  simp only [Machine.reg_withStack, Machine.reg_withFlags, Machine.reg_setReg, Machine.reg_withCpu]
  have hkept := hwordReg r
  rw [Machine.reg_withStack] at hkept
  grind only

end Capture

end ArmEmulator.Block
