import ArmEmulator.Host.Machine

/-!
# Straight-line host code

Runs of instructions that neither jump nor return, as a fold of single steps.
Registers other than the stack pointer are read and written as 32-bit values
with a clear upper half, which is how translated code uses them; the equations
of single instructions are stated in that form and tagged for {lit}`simp`, so
that a closed run of instructions evaluates by rewriting.

Main results:

- Theorem {lit}`Code.run?_ofInstrs_append`: a straight run inside code moves to
  the code behind it.
- Theorem {lit}`Code.run?_skip`: a taken jump moves to the code behind the last
  cell of its label.
- Theorem {lit}`Machine.getByte_setByte`: a byte register write is seen by reads
  of that byte only.
-/

namespace ArmEmulator.Host

variable {ε : Type}

/-! ## Registers -/

namespace Machine

/-- The lower half of a register. -/
def low (m : Machine ε) (r : Reg) : BitVec 32 :=
  (m.reg r).setWidth 32

/-- Writes a 32-bit value, which clears the upper half of the register. -/
def put (m : Machine ε) (r : Reg) (value : BitVec 32) : Machine ε :=
  m.setReg r (value.setWidth 64)

/-- Replaces the host flags. -/
def withFlags (m : Machine ε) (flags : Flags) : Machine ε :=
  { m with flags }

/-- Replaces the processor state. -/
def withCpu (m : Machine ε) (cpu : Cpu) : Machine ε :=
  { m with cpu }

/-- Replaces the stack. -/
def withStack (m : Machine ε) (stack : List (Option (BitVec 32))) : Machine ε :=
  { m with stack }

/-- A register whose upper half is clear is determined by its lower half. -/
def Clean (m : Machine ε) (r : Reg) : Prop :=
  m.reg r = (m.low r).setWidth 64

@[simp]
theorem reg_put (m : Machine ε) (r s : Reg) (value : BitVec 32) :
    (m.put r value).reg s = if r = s then value.setWidth 64 else m.reg s :=
  reg_setReg m r s _

@[simp]
theorem low_setReg (m : Machine ε) (r s : Reg) (value : BitVec 64) :
    (m.setReg r value).low s = if r = s then value.setWidth 32 else m.low s := by
  unfold low
  rw [reg_setReg]
  split <;> rfl

@[simp]
theorem low_put (m : Machine ε) (r s : Reg) (value : BitVec 32) :
    (m.put r value).low s = if r = s then value else m.low s := by
  rw [put, low_setReg]
  split
  · exact BitVec.setWidth_setWidth_of_le value (by decide)
  · rfl

/-- Writing back what a clean register holds changes nothing. -/
theorem put_low {m : Machine ε} {r : Reg} (h : m.Clean r) : m.put r (m.low r) = m := by
  rw [put, ← h]
  unfold setReg reg
  simp

/-- The last write of a register counts. -/
@[simp]
theorem put_put (m : Machine ε) (r : Reg) (value value' : BitVec 32) :
    (m.put r value).put r value' = m.put r value' := by
  unfold put setReg
  simp

/-! ### What a write leaves alone -/

section Frames

variable (m : Machine ε) (r : Reg) (value : BitVec 64) (half : BitVec 32) (flags : Flags)
  (cpu : Cpu) (stack : List (Option (BitVec 32)))

@[simp] theorem stack_setReg : (m.setReg r value).stack = m.stack := rfl
@[simp] theorem cpu_setReg : (m.setReg r value).cpu = m.cpu := rfl

@[simp] theorem stack_put : (m.put r half).stack = m.stack := rfl
@[simp] theorem cpu_put : (m.put r half).cpu = m.cpu := rfl
@[simp] theorem env_put : (m.put r half).env = m.env := rfl

@[simp] theorem reg_withFlags : (m.withFlags flags).reg r = m.reg r := rfl
@[simp] theorem low_withFlags : (m.withFlags flags).low r = m.low r := rfl
@[simp] theorem flags_withFlags : (m.withFlags flags).flags = flags := rfl
@[simp] theorem stack_withFlags : (m.withFlags flags).stack = m.stack := rfl
@[simp] theorem cpu_withFlags : (m.withFlags flags).cpu = m.cpu := rfl
@[simp] theorem env_withFlags : (m.withFlags flags).env = m.env := rfl

@[simp] theorem reg_withCpu : (m.withCpu cpu).reg r = m.reg r := rfl
@[simp] theorem low_withCpu : (m.withCpu cpu).low r = m.low r := rfl
@[simp] theorem cpu_withCpu : (m.withCpu cpu).cpu = cpu := rfl

@[simp] theorem reg_withStack : (m.withStack stack).reg r = m.reg r := rfl
@[simp] theorem low_withStack : (m.withStack stack).low r = m.low r := rfl
@[simp] theorem flags_withStack : (m.withStack stack).flags = m.flags := rfl
@[simp] theorem stack_withStack : (m.withStack stack).stack = stack := rfl
@[simp] theorem cpu_withStack : (m.withStack stack).cpu = m.cpu := rfl

end Frames

/-- Machines that agree on every part are equal. -/
theorem ext_reg {m m' : Machine ε} (hreg : ∀ r, m.reg r = m'.reg r) (hflags : m.flags = m'.flags)
    (hstack : m.stack = m'.stack) (hcpu : m.cpu = m'.cpu) (henv : m.env = m'.env) : m = m' := by
  obtain ⟨regs, flags, stack, cpu, env⟩ := m
  obtain ⟨regs', flags', stack', cpu', env'⟩ := m'
  have hregs : regs = regs' := by
    apply Vector.ext
    intro i hi
    have hindex : ∀ c : Fin 16, (Reg.ofCode ⟨c⟩).index = c := by decide
    have h := hreg (Reg.ofCode ⟨⟨i, hi⟩⟩)
    simpa only [reg, Fin.getElem_fin, hindex] using h
  simp_all

/-! ### Byte registers -/

/-- The register a byte register is part of. -/
def whole : ByteReg → Reg
  | .al | .ah => .rax
  | .cl => .rcx
  | .dl | .dh => .rdx

/-- A byte register write is seen by reads of that byte only. -/
@[simp]
theorem getByte_setByte (m : Machine ε) (r s : ByteReg) (value : BitVec 8) :
    (m.setByte r value).getByte s = if r = s then value else m.getByte s := by
  have hlow : ∀ v : BitVec 64, (v.extractLsb' 8 56 ++ value).extractLsb' 0 8 = value :=
    fun v => BitVec.extractLsb'_append_eq_right
  have hkeep : ∀ v : BitVec 64,
      (v.extractLsb' 8 56 ++ value).extractLsb' 8 8 = v.extractLsb' 8 8 := by
    intro v
    refine (BitVec.extractLsb'_append_eq_of_le (Nat.le_refl 8)).trans ?_
    exact BitVec.eq_of_getLsbD_eq fun i hi => by simp [hi]; omega
  have hsecond : ∀ v : BitVec 64, (v.extractLsb' 16 48 ++ value ++ v.extractLsb' 0 8).extractLsb'
      8 8 = value :=
    fun v => (BitVec.extractLsb'_append_eq_of_le (Nat.le_refl 8)).trans
      BitVec.extractLsb'_append_eq_right
  have hfirst : ∀ v : BitVec 64, (v.extractLsb' 16 48 ++ value ++ v.extractLsb' 0 8).extractLsb'
      0 8 = v.extractLsb' 0 8 :=
    fun v => BitVec.extractLsb'_append_eq_right
  cases r <;> cases s <;>
    simp [getByte, setByte, setLowByte, setSecondByte, reg_setReg, hlow, hkeep, hsecond, hfirst]

/-- The low byte of a register is that of its lower half. -/
theorem getByte_cl (m : Machine ε) : m.getByte .cl = (m.low .rcx).setWidth 8 := by
  rw [getByte, low, BitVec.setWidth_setWidth_of_le _ (by decide),
    BitVec.setWidth_eq_extractLsb' (by decide)]

/-- A register write is not seen by the bytes of other registers. -/
theorem getByte_put_of_ne (m : Machine ε) {r : Reg} {b : ByteReg} (h : r ≠ whole b)
    (value : BitVec 32) : (m.put r value).getByte b = m.getByte b := by
  cases b <;> simp only [getByte, reg_put, whole] at h ⊢ <;> rw [if_neg h]

/-- Combining a byte into the lowest one of a clean register combines it into the
register. -/
theorem setByte_cl_or (m : Machine ε) (value : BitVec 32) (b : BitVec 8) :
    (m.put .rcx value).setByte .cl ((m.put .rcx value).getByte .cl ||| b) =
      m.put .rcx (value ||| b.setWidth 32) := by
  have hbits : (value.setWidth 64).extractLsb' 8 56 ++ (value.setWidth 8 ||| b) =
      ((value ||| b.setWidth 32).setWidth 64 : BitVec 64) := by
    apply BitVec.eq_of_getLsbD_eq
    intro i hi
    simp only [BitVec.getLsbD_append, BitVec.getLsbD_extractLsb', BitVec.getLsbD_or,
      BitVec.getLsbD_setWidth]
    grind
  rw [getByte_cl, low_put, if_pos rfl]
  show (m.put .rcx value).setReg .rcx _ = _
  rw [reg_put, if_pos rfl, hbits]
  refine ext_reg ?_ rfl rfl rfl rfl
  intro r
  rw [reg_setReg, reg_put, reg_put]
  split <;> rfl

/-- A byte register write leaves the other registers alone. -/
theorem reg_setByte_of_ne (m : Machine ε) {r : ByteReg} {s : Reg} (h : whole r ≠ s)
    (value : BitVec 8) : (m.setByte r value).reg s = m.reg s := by
  cases r <;> exact (reg_setReg ..).trans (if_neg h)

@[simp]
theorem flags_setByte (m : Machine ε) (r : ByteReg) (value : BitVec 8) :
    (m.setByte r value).flags = m.flags := by
  cases r <;> rfl

@[simp]
theorem stack_setByte (m : Machine ε) (r : ByteReg) (value : BitVec 8) :
    (m.setByte r value).stack = m.stack := by
  cases r <;> rfl

@[simp]
theorem cpu_setByte (m : Machine ε) (r : ByteReg) (value : BitVec 8) :
    (m.setByte r value).cpu = m.cpu := by
  cases r <;> rfl

@[simp]
theorem env_setByte (m : Machine ε) (r : ByteReg) (value : BitVec 8) :
    (m.setByte r value).env = m.env := by
  cases r <;> rfl

end Machine

/-! ## Single instructions -/

namespace Instr

open Machine

variable (link : Linkage ε) (m : Machine ε)

attribute [local simp] step? get32? get64? set32? set64? low

@[simp]
theorem step?_mov {dst src : Reg} (hd : dst ≠ .rsp) (hs : src ≠ .rsp) :
    (mov dst src).step? link m = some (m.put dst (m.low src)) := by
  simp [hd, hs, put]

@[simp]
theorem step?_movImm {dst : Reg} (hd : dst ≠ .rsp) (imm : BitVec 32) :
    (movImm dst imm).step? link m = some (m.put dst imm) := by
  simp [hd, put]

@[simp]
theorem step?_mov64Imm {dst : Reg} (hd : dst ≠ .rsp) (imm : BitVec 64) :
    (mov64Imm dst imm).step? link m = some (m.setReg dst imm) := by
  simp [hd]

@[simp]
theorem step?_alu {op : Alu} {dst src : Reg} (hop : op ≠ .cmp) (hd : dst ≠ .rsp)
    (hs : src ≠ .rsp) :
    (alu op dst src).step? link m =
      some ((m.withFlags (op.eval (m.low dst) (m.low src)).2).put dst
        (op.eval (m.low dst) (m.low src)).1) := by
  simp [hop, hd, hs, put, withFlags]

@[simp]
theorem step?_alu_cmp {dst src : Reg} (hd : dst ≠ .rsp) (hs : src ≠ .rsp) :
    (alu .cmp dst src).step? link m =
      some (m.withFlags (Alu.cmp.eval (m.low dst) (m.low src)).2) := by
  simp [hd, hs, withFlags]

@[simp]
theorem step?_aluImm {op : Alu} {dst : Reg} (hop : op ≠ .cmp) (hd : dst ≠ .rsp)
    (imm : BitVec 32) :
    (aluImm op dst imm).step? link m =
      some ((m.withFlags (op.eval (m.low dst) imm).2).put dst (op.eval (m.low dst) imm).1) := by
  simp [hop, hd, put, withFlags]

@[simp]
theorem step?_aluImm_cmp {dst : Reg} (hd : dst ≠ .rsp) (imm : BitVec 32) :
    (aluImm .cmp dst imm).step? link m =
      some (m.withFlags (Alu.cmp.eval (m.low dst) imm).2) := by
  simp [hd, withFlags]

@[simp]
theorem step?_test {a b : Reg} (ha : a ≠ .rsp) (hb : b ≠ .rsp) :
    (test a b).step? link m = some (m.withFlags (Alu.and.eval (m.low a) (m.low b)).2) := by
  simp [ha, hb, withFlags]

@[simp]
theorem step?_testImm {a : Reg} (ha : a ≠ .rsp) (imm : BitVec 32) :
    (testImm a imm).step? link m = some (m.withFlags (Alu.and.eval (m.low a) imm).2) := by
  simp [ha, withFlags]

@[simp]
theorem step?_not {r : Reg} (hr : r ≠ .rsp) :
    (not r).step? link m = some (m.put r (~~~m.low r)) := by
  simp [hr, put]

@[simp]
theorem step?_shlImm {r : Reg} (hr : r ≠ .rsp) (n : BitVec 8) :
    (shlImm r n).step? link m =
      some ((m.withFlags (shiftLeft (m.low r) (shiftCount n) m.flags).2).put r
        (m.low r <<< shiftCount n)) := by
  simp [hr, put, withFlags, shiftLeft]

@[simp]
theorem step?_shrImm {r : Reg} (hr : r ≠ .rsp) (n : BitVec 8) :
    (shrImm r n).step? link m =
      some ((m.withFlags (shiftRight (m.low r) (shiftCount n) m.flags).2).put r
        (m.low r >>> shiftCount n)) := by
  simp [hr, put, withFlags, shiftRight]

@[simp]
theorem step?_shrCl {r : Reg} (hr : r ≠ .rsp) :
    (shrCl r).step? link m =
      some ((m.withFlags (shiftRight (m.low r) (shiftCount (m.getByte .cl)) m.flags).2).put r
        (m.low r >>> shiftCount (m.getByte .cl))) := by
  simp [hr, put, withFlags, shiftRight]

@[simp]
theorem step?_setcc (cc : Cc) (dst : ByteReg) :
    (setcc cc dst).step? link m =
      some (m.setByte dst ((BitVec.ofBool (cc.holds m.flags)).setWidth 8)) := rfl

@[simp]
theorem step?_orByte (dst src : ByteReg) :
    (orByte dst src).step? link m =
      some ((m.withFlags (.ofResult (m.getByte dst ||| m.getByte src) false false)).setByte dst
        (m.getByte dst ||| m.getByte src)) := rfl

@[simp]
theorem step?_movzx {dst : Reg} (hd : dst ≠ .rsp) (h : dst.index.val < 8) (src : ByteReg) :
    (movzx dst src).step? link m = some (m.put dst ((m.getByte src).setWidth 32)) := by
  simp [h, hd, put]

@[simp]
theorem step?_push {r : Reg} (hr : r ≠ .rsp) :
    (push r).step? link m =
      some (m.withStack
        (some ((m.reg r).extractLsb' 0 32) :: some ((m.reg r).extractLsb' 32 32) :: m.stack)) := by
  simp [hr, Machine.push, withStack]

@[simp]
theorem step?_pop {r : Reg} (hr : r ≠ .rsp) :
    (pop r).step? link m = m.pop?.map fun popped => popped.2.setReg r popped.1 := by
  cases h : m.pop? <;> simp [hr, h]

@[simp]
theorem step?_load32 {dst : Reg} (hd : dst ≠ .rsp) (src : Mem) :
    (load32 dst src).step? link m = (m.load32? link src).map (m.put dst) := by
  cases h : m.load32? link src <;> simp [hd, h, put]

@[simp]
theorem step?_store32 {src : Reg} (hs : src ≠ .rsp) (dst : Mem) :
    (store32 dst src).step? link m = m.store32? link dst (m.low src) := by
  simp [hs]

@[simp]
theorem step?_store32Imm (dst : Mem) (imm : BitVec 32) :
    (store32Imm dst imm).step? link m = m.store32? link dst imm := rfl

@[simp]
theorem step?_load64 {dst : Reg} (hd : dst ≠ .rsp) (src : Mem) :
    (load64 dst src).step? link m = (m.load64? src).map (m.setReg dst) := by
  cases h : m.load64? src <;> simp [hd, h]

@[simp]
theorem step?_store64 {src : Reg} (hs : src ≠ .rsp) (dst : Mem) :
    (store64 dst src).step? link m = m.store64? dst (m.reg src) := by
  simp [hs]

@[simp]
theorem step?_xchg64 {r : Reg} (hr : r ≠ .rsp) (place : Mem) :
    (xchg64 r place).step? link m =
      (m.load64? place).bind fun v => (m.store64? place (m.reg r)).map (·.setReg r v) := by
  cases h : m.load64? place <;> cases h' : m.store64? place (m.reg r) <;>
    simp [hr, h, h']

@[simp]
theorem step?_and32Imm (dst : Mem) (imm : BitVec 32) :
    (and32Imm dst imm).step? link m =
      (m.load32? link dst).bind fun v =>
        (m.withFlags (Alu.and.eval v imm).2).store32? link dst (v &&& imm) := rfl

@[simp]
theorem step?_or32 {src : Reg} (hs : src ≠ .rsp) (dst : Mem) :
    (or32 dst src).step? link m =
      (m.load32? link dst).bind fun v =>
        (m.withFlags (Alu.or.eval v (m.low src)).2).store32? link dst (v ||| m.low src) := by
  cases h : m.load32? link dst <;> simp [hs, h, withFlags, Alu.eval]

@[simp]
theorem step?_call {target : Reg} (ht : target ≠ .rsp) :
    (call target).step? link m = m.call? link (m.reg target) := by
  simp [ht]

end Instr

/-! ## Normal form

A machine after a straight run is written as register writes, then flags, then
the stack, each part replaced at most once. -/

namespace Machine

section NormalForm

variable (m : Machine ε) (r : Reg) (value : BitVec 64) (half : BitVec 32) (flags flags' : Flags)
  (stack stack' : List (Option (BitVec 32)))

@[simp] theorem setReg_withFlags :
    (m.withFlags flags).setReg r value = (m.setReg r value).withFlags flags := rfl
@[simp] theorem setReg_withStack :
    (m.withStack stack).setReg r value = (m.setReg r value).withStack stack := rfl

@[simp] theorem put_withFlags :
    (m.withFlags flags).put r half = (m.put r half).withFlags flags := rfl
@[simp] theorem put_withStack :
    (m.withStack stack).put r half = (m.put r half).withStack stack := rfl

@[simp] theorem withFlags_withFlags :
    (m.withFlags flags).withFlags flags' = m.withFlags flags' := rfl
@[simp] theorem withFlags_withStack :
    (m.withStack stack).withFlags flags = (m.withFlags flags).withStack stack := rfl

@[simp] theorem withStack_withStack :
    (m.withStack stack).withStack stack' = m.withStack stack' := rfl

@[simp] theorem withStack_self : m.withStack m.stack = m := rfl

end NormalForm

/-- Popping takes the two topmost units. -/
@[simp]
theorem pop?_withStack (m : Machine ε) (low high : BitVec 32)
    (rest : List (Option (BitVec 32))) :
    (m.withStack (some low :: some high :: rest)).pop? =
      some (high ++ low, m.withStack rest) := rfl

/-- A 64-bit value is put together from its halves. -/
@[simp]
theorem halves_append (v : BitVec 64) :
    (v.extractLsb' 32 32 ++ v.extractLsb' 0 32 : BitVec 64) = v := by
  have h : v.extractLsb' 32 32 ++ v.extractLsb' 0 32 = v.extractLsb' 0 (32 + 32) :=
    BitVec.extractLsb'_append_extractLsb'_eq_extractLsb' rfl
  exact h.trans BitVec.extractLsb'_eq_self

end Machine

/-! ## Runs -/

/-- Runs instructions one after another; none if the machine gets stuck. -/
def runInstrs? (link : Linkage ε) : List Instr → Machine ε → Option (Machine ε)
  | [], m => some m
  | i :: is, m => (i.step? link m).bind (runInstrs? link is)

section Runs

variable (link : Linkage ε)

@[simp]
theorem runInstrs?_nil (m : Machine ε) : runInstrs? link [] m = some m := rfl

@[simp]
theorem runInstrs?_cons (i : Instr) (is : List Instr) (m : Machine ε) :
    runInstrs? link (i :: is) m = (i.step? link m).bind (runInstrs? link is) := rfl

theorem runInstrs?_append (is js : List Instr) (m : Machine ε) :
    runInstrs? link (is ++ js) m = (runInstrs? link is m).bind (runInstrs? link js) := by
  induction is generalizing m with
  | nil => rfl
  | cons i is ih =>
      rw [List.cons_append, runInstrs?_cons, runInstrs?_cons, Option.bind_assoc]
      exact Option.bind_congr fun m' _ => ih m'

/-- A straight run that succeeds continues with another one. -/
theorem runInstrs?_append_of_eq_some {is : List Instr} {m m' : Machine ε}
    (h : runInstrs? link is m = some m') (js : List Instr) :
    runInstrs? link (is ++ js) m = runInstrs? link js m' := by
  rw [runInstrs?_append, h, Option.bind_some]

namespace Code

@[simp]
theorem ofInstrs_append (is js : List Instr) : ofInstrs (is ++ js) = ofInstrs is ++ ofInstrs js :=
  List.map_append

/-- A straight run inside code moves to the code behind it. -/
theorem run?_ofInstrs_append {is : List Instr} {m m' : Machine ε}
    (h : runInstrs? link is m = some m') (rest : Code) :
    run? link none (ofInstrs is ++ rest) m = run? link none rest m' := by
  induction is generalizing m with
  | nil =>
      cases h
      rfl
  | cons i is ih =>
      obtain ⟨next, hstep, hrun⟩ := Option.bind_eq_some_iff.1 h
      have hret : i ≠ .ret := by
        rintro rfl
        cases hstep
      calc
        run? link none (ofInstrs (i :: is) ++ rest) m =
            (i.step? link m).bind (run? link none (ofInstrs is ++ rest)) := by
          cases i <;> first | rfl | exact absurd rfl hret
        _ = run? link none (ofInstrs is ++ rest) next := by rw [hstep, Option.bind_some]
        _ = run? link none rest m' := ih hrun

/-- Instructions place no label. -/
theorem label_notMem_ofInstrs (l : Label) (is : List Instr) : Item.label l ∉ ofInstrs is := by
  simp [ofInstrs]

/-- Code that does not place the label of a taken jump is passed over. -/
theorem run?_some_append {l : Label} {passed : Code} (hl : Item.label l ∉ passed) (rest : Code)
    (m : Machine ε) : run? link (some l) (passed ++ rest) m = run? link (some l) rest m := by
  induction passed with
  | nil => rfl
  | cons item passed ih =>
      rw [List.mem_cons, not_or] at hl
      rw [List.cons_append, run?, if_neg fun h => hl.1 h.1.symm]
      exact ih hl.2

/-- A taken jump moves to the code behind the last cell of its label. -/
theorem run?_skip {l : Label} {rest : Code} (hl : Item.label l ∉ rest) (passed : Code)
    (m : Machine ε) :
    run? link (some l) (passed ++ .label l :: rest) m = run? link none rest m := by
  induction passed with
  | nil => rw [List.nil_append, run?, if_pos ⟨rfl, hl⟩]
  | cons item passed ih =>
      have hlater : Item.label l ∈ passed ++ .label l :: rest :=
        List.mem_append_right _ (List.mem_cons_self ..)
      rw [List.cons_append, run?, if_neg fun h => h.2 hlater]
      exact ih

end Code

end Runs

end ArmEmulator.Host
