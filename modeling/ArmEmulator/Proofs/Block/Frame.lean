import ArmEmulator.Block.Frame
import ArmEmulator.Proofs.Guest.Execution
import ArmEmulator.Proofs.Host.Fragments

/-!
# The frame of a running block

Between two guest instructions the host registers hold the guest registers, the
processor state in memory holds the status registers, and the stack holds the
two pointers, the scratch word and the registers to restore.  Around a helper
call the whole processor state lies in memory instead.  The two views are
connected by spilling and reloading.

Main results:

- Theorems {lit}`runInstrs?_spill` and {lit}`runInstrs?_reload`: the guest
  registers move to the processor state and back.
- Theorem {lit}`runInstrs?_prologue`: a block starts with the guest registers
  loaded.
- Theorem {lit}`run?_epilogue`: a block returns its status with the saved registers
  restored.
-/

namespace ArmEmulator.Block

open Host (Machine Linkage Instr Code Item Label Flags runInstrs?)

variable {ε : Type}

/-! ## Stack of a block -/

/-- The two stack units of a 64-bit value, the lower half first. -/
def units (value : BitVec 64) : List (Option (BitVec 32)) :=
  [some (value.extractLsb' 0 32), some (value.extractLsb' 32 32)]

/-- The saved registers as the prologue leaves them on the stack. -/
def savedUnits (saved : Host.Reg → BitVec 64) : List (Option (BitVec 32)) :=
  calleeSaved.reverse.flatMap fun r => units (saved r)

/-- The stack of a block without temporaries: the two pointers, the slot of the
scratch word, and the saved registers. -/
def frame (link : Linkage ε) (saved : Host.Reg → BitVec 64)
    (scratch padding : Option (BitVec 32)) : List (Option (BitVec 32)) :=
  some (link.state.extractLsb' 0 32) :: some (link.state.extractLsb' 32 32) ::
    some (link.environment.extractLsb' 0 32) :: some (link.environment.extractLsb' 32 32) ::
      scratch :: padding :: savedUnits saved

/-- The same with any value in the slot of the pointer to the processor state. -/
def frameWith (link : Linkage ε) (saved : Host.Reg → BitVec 64) (top : BitVec 64)
    (scratch padding : Option (BitVec 32)) : List (Option (BitVec 32)) :=
  units top ++ (units link.environment ++ (scratch :: padding :: savedUnits saved))

@[simp]
theorem length_frame (link : Linkage ε) (saved : Host.Reg → BitVec 64)
    (scratch padding : Option (BitVec 32)) : (frame link saved scratch padding).length = 18 := rfl

/-- A push puts the two units of a register on top. -/
theorem step?_push_units (link : Linkage ε) (m : Machine ε) {r : Host.Reg} (hr : r ≠ .rsp) :
    (Instr.push r).step? link m = some (m.withStack (units (m.reg r) ++ m.stack)) :=
  Instr.step?_push link m hr

/-- A pop takes the two topmost units. -/
theorem step?_pop_units (link : Linkage ε) (m : Machine ε) {r : Host.Reg} (hr : r ≠ .rsp)
    (value : BitVec 64) (rest : List (Option (BitVec 32))) :
    (Instr.pop r).step? link (m.withStack (units value ++ rest)) =
      some ((m.setReg r value).withStack rest) := by
  rw [Instr.step?_pop link _ hr, units, List.cons_append, List.singleton_append,
    Machine.pop?_withStack, Option.map_some, Machine.halves_append]
  rfl

/-! ## Memory operands -/

theorem unit?_slot {number temporaries : Nat} (h : 8 * number + 8 * temporaries < 0x100000000) :
    Machine.unit? (slot number temporaries).disp = some (2 * number + 2 * temporaries) := by
  unfold Machine.unit? slot
  rw [BitVec.toNat_ofNat, Nat.mod_eq_of_lt h, if_pos (by omega)]
  congr 1
  omega

theorem rax_ne_rsp : Host.Reg.rax ≠ .rsp := by
  decide

theorem field?_stateReg (r : Reg) : Machine.field? (stateReg r).disp = some (.reg r) := by
  cases r <;> rfl

theorem field?_stateStatus : Machine.field? stateStatus.disp = some .cpsr := rfl

theorem base_slot (number temporaries : Nat) : (slot number temporaries).base = .rsp := rfl

section Operands

variable (link : Linkage ε) (m : Machine ε)

theorem load32?_of_field {src : Host.Mem} {f : Machine.Field} (hb : src.base ≠ .rsp)
    (hs : m.reg src.base = link.state) (hf : Machine.field? src.disp = some f) :
    m.load32? link src = some (Machine.getField m.cpu f) := by
  rw [Machine.load32?, if_neg hb, if_pos hs, hf, Option.map_some]

theorem store32?_of_field {dst : Host.Mem} {f : Machine.Field} (hb : dst.base ≠ .rsp)
    (hs : m.reg dst.base = link.state) (hf : Machine.field? dst.disp = some f) (value : Word) :
    m.store32? link dst value = some (m.withCpu (Machine.setField m.cpu value f)) := by
  rw [Machine.store32?, if_neg hb, if_pos hs, hf, Option.map_some, Machine.withCpu]

variable (h : m.reg .rax = link.state)
include h

theorem load32?_stateReg (r : Reg) : m.load32? link (stateReg r) = some (m.cpu.reg r) :=
  load32?_of_field link m rax_ne_rsp h (field?_stateReg r)

theorem store32?_stateReg (r : Reg) (value : Word) :
    m.store32? link (stateReg r) value = some (m.withCpu (m.cpu.setReg r value)) :=
  store32?_of_field link m rax_ne_rsp h (field?_stateReg r) value

theorem load32?_stateStatus : m.load32? link stateStatus = some m.cpu.cpsr :=
  load32?_of_field link m rax_ne_rsp h field?_stateStatus

theorem store32?_stateStatus (value : Word) :
    m.store32? link stateStatus value = some (m.withCpu (m.cpu.withCpsr value)) :=
  store32?_of_field link m rax_ne_rsp h field?_stateStatus value

end Operands

section Slots

variable (link : Linkage ε) (m : Machine ε) {number temporaries : Nat}
  (h : 8 * number + 8 * temporaries < 0x100000000)
include h

theorem load32?_slot :
    m.load32? link (slot number temporaries) = m.getUnit? (2 * number + 2 * temporaries) := by
  rw [Machine.load32?, if_pos (base_slot ..), unit?_slot h]
  rfl

theorem store32?_slot (value : Word) :
    m.store32? link (slot number temporaries) value =
      m.setUnit? (2 * number + 2 * temporaries) value := by
  rw [Machine.store32?, if_pos (base_slot ..), unit?_slot h]
  rfl

theorem load64?_slot {low high : BitVec 32}
    (hlow : m.getUnit? (2 * number + 2 * temporaries) = some low)
    (hhigh : m.getUnit? (2 * number + 2 * temporaries + 1) = some high) :
    m.load64? (slot number temporaries) = some (high ++ low) := by
  rw [Machine.load64?, if_pos (base_slot ..), unit?_slot h, Option.bind_eq_bind, Option.bind_some,
    hlow, Option.bind_eq_bind, Option.bind_some, hhigh]
  rfl

end Slots

section Temporaries

variable {m : Machine ε} {temporaries stack : List (Option (BitVec 32))} {count j k : Nat}
  (hstack : m.stack = temporaries ++ stack) (hlen : temporaries.length = 2 * count)
  (hk : k = j + 2 * count)
include hstack hlen hk

/-- A unit of the frame lies behind all temporaries. -/
theorem getUnit?_append : m.getUnit? k = stack[j]?.join := by
  rw [Machine.getUnit?, hstack, List.getElem?_append_right (by omega), hk, hlen,
    Nat.add_sub_cancel]

/-- It is written there. -/
theorem setUnit?_append (hj : j < stack.length) (value : BitVec 32) :
    m.setUnit? k value = some (m.withStack (temporaries ++ stack.set j (some value))) := by
  have hinside : k < m.stack.length := by
    rw [hstack, List.length_append]
    omega
  have hbehind : temporaries.length ≤ k := by omega
  rw [Machine.setUnit?, if_pos hinside, hstack, List.set_append_right _ _ hbehind, hk, hlen,
    Nat.add_sub_cancel]
  rfl

end Temporaries

/-! ### The slots below temporaries -/

/-- The slot behind the temporaries is read whatever lies behind it. -/
theorem load64?_first {m : Machine ε} {temporaries rest : List (Option (BitVec 32))} {count : Nat}
    {top : BitVec 64} (hstack : m.stack = temporaries ++ (units top ++ rest))
    (hlen : temporaries.length = 2 * count) (hcount : count < 0x10000000) :
    m.load64? (slot 0 count) = some top := by
  have hlow : m.getUnit? (2 * 0 + 2 * count) = some (top.extractLsb' 0 32) :=
    getUnit?_append (j := 0) hstack hlen rfl
  have hhigh : m.getUnit? (2 * 0 + 2 * count + 1) = some (top.extractLsb' 32 32) :=
    getUnit?_append (j := 1) hstack hlen (by omega)
  rw [load64?_slot m (by omega) hlow hhigh, Machine.halves_append]

section Below

variable {link : Linkage ε} {saved : Host.Reg → BitVec 64} {m : Machine ε}
  {temporaries : List (Option (BitVec 32))} {count : Nat} {top : BitVec 64}
  {scratch padding : Option (BitVec 32)}
  (hstack : m.stack = temporaries ++ frameWith link saved top scratch padding)
  (hlen : temporaries.length = 2 * count) (hcount : count < 0x10000000)
include hstack hlen hcount

theorem load64?_second : m.load64? (slot 1 count) = some link.environment := by
  have hlow : m.getUnit? (2 * 1 + 2 * count) = some (link.environment.extractLsb' 0 32) :=
    getUnit?_append (j := 2) hstack hlen rfl
  have hhigh : m.getUnit? (2 * 1 + 2 * count + 1) = some (link.environment.extractLsb' 32 32) :=
    getUnit?_append (j := 3) hstack hlen (by omega)
  rw [load64?_slot m (by omega) hlow hhigh, Machine.halves_append]

theorem load32?_first : m.load32? link (slot 0 count) = some (top.extractLsb' 0 32) := by
  rw [load32?_slot link m (by omega)]
  exact getUnit?_append (j := 0) hstack hlen rfl

theorem load32?_third : m.load32? link (slot 2 count) = scratch := by
  rw [load32?_slot link m (by omega), getUnit?_append (j := 4) hstack hlen rfl]
  rfl

theorem store64?_first (value : BitVec 64) :
    m.store64? (slot 0 count) value =
      some (m.withStack (temporaries ++ frameWith link saved value scratch padding)) := by
  have hlow := setUnit?_append hstack hlen (j := 0) (k := 2 * 0 + 2 * count) rfl
    (Nat.zero_lt_succ _) (value.extractLsb' 0 32)
  obtain ⟨half, hhalf⟩ : ∃ half, half = m.withStack (temporaries ++
    (frameWith link saved top scratch padding).set 0 (some (value.extractLsb' 0 32))) := ⟨_, rfl⟩
  have hhalfStack : half.stack = temporaries ++
      (frameWith link saved top scratch padding).set 0 (some (value.extractLsb' 0 32)) := by
    rw [hhalf]
    rfl
  have hhigh := setUnit?_append hhalfStack hlen (j := 1) (k := 2 * 0 + 2 * count + 1) (by omega)
    (by simp [frameWith, units]) (value.extractLsb' 32 32)
  rw [Machine.store64?, if_pos (base_slot ..), unit?_slot (by omega), Option.bind_eq_bind,
    Option.bind_some, hlow, Option.bind_eq_bind, Option.bind_some, ← hhalf, hhigh, hhalf]
  rfl

theorem store32?_third (value : BitVec 32) :
    m.store32? link (slot 2 count) value =
      some (m.withStack (temporaries ++ frameWith link saved top (some value) padding)) := by
  rw [store32?_slot link m (by omega), setUnit?_append hstack hlen (j := 4) rfl (by
    simp [frameWith, units])]
  rfl

end Below

section Pointers

variable {link : Linkage ε} {saved : Host.Reg → BitVec 64} {m : Machine ε}
  (temporaries : List (Option (BitVec 32))) {count : Nat}

/-- The pointer to the processor state is found whatever temporaries there are, and
whatever else is in the frame. -/
theorem load64?_stateSlot {rest : List (Option (BitVec 32))}
    (hstack : m.stack = temporaries ++ (units link.state ++ rest))
    (hlen : temporaries.length = 2 * count) (hcount : count < 0x10000000) :
    m.load64? (stateSlot count) = some link.state :=
  load64?_first hstack hlen hcount

variable {scratch padding : Option (BitVec 32)}
  (hstack : m.stack = temporaries ++ frame link saved scratch padding)
  (hlen : temporaries.length = 2 * count) (hcount : count < 0x10000000)
include hstack hlen hcount

theorem load64?_environmentSlot : m.load64? (environmentSlot count) = some link.environment :=
  load64?_second hstack hlen hcount

end Pointers

/-! ### The topmost slot -/

section Top

variable (m : Machine ε) {low high : Option (BitVec 32)} {rest : List (Option (BitVec 32))}

theorem store64?_top (hstack : m.stack = low :: high :: rest) (value : BitVec 64) :
    m.store64? (stateSlot 0) value = some (m.withStack (units value ++ rest)) := by
  rw [stateSlot, Machine.store64?, if_pos (base_slot ..), unit?_slot (by decide),
    Option.bind_eq_bind, Option.bind_some, Machine.setUnit?, if_pos (by simp [hstack]),
    Option.bind_eq_bind, Option.bind_some, Machine.setUnit?, if_pos (by simp [hstack]), hstack]
  rfl

theorem store64?_environmentSlot {first second : Option (BitVec 32)}
    (hstack : m.stack = first :: second :: low :: high :: rest) (value : BitVec 64) :
    m.store64? (environmentSlot 0) value =
      some (m.withStack (first :: second :: (units value ++ rest))) := by
  rw [environmentSlot, Machine.store64?, if_pos (base_slot ..), unit?_slot (by decide),
    Option.bind_eq_bind, Option.bind_some, Machine.setUnit?, if_pos (by simp [hstack]),
    Option.bind_eq_bind, Option.bind_some, Machine.setUnit?, if_pos (by simp [hstack]), hstack]
  rfl

theorem load32?_top (link : Linkage ε) (hstack : m.stack = low :: rest) :
    m.load32? link (stateSlot 0) = low := by
  rw [stateSlot, load32?_slot link m (by decide), Machine.getUnit?, hstack]
  rfl

end Top

/-! ## The two views of the guest -/

/-- The topmost slot holds the pointer to the processor state. -/
def Pointed (link : Linkage ε) (m : Machine ε) : Prop :=
  ∃ rest, m.stack = units link.state ++ rest

/-- A machine inside a block without temporaries. -/
def InFrame (link : Linkage ε) (saved : Host.Reg → BitVec 64) (m : Machine ε) : Prop :=
  ∃ scratch padding, m.stack = frame link saved scratch padding

theorem InFrame.pointed {link : Linkage ε} {saved : Host.Reg → BitVec 64} {m : Machine ε}
    (hm : InFrame link saved m) : Pointed link m := by
  obtain ⟨scratch, padding, hstack⟩ := hm
  exact ⟨_, hstack⟩

/-- Every host register but the stack pointer is a home. -/
theorem exists_home {h : Host.Reg} (hne : h ≠ .rsp) : ∃ r, home? r = some h := by
  cases h with
  | rsp => exact absurd rfl hne
  | rax => exact ⟨.r0, rfl⟩
  | rcx => exact ⟨.r1, rfl⟩
  | rdx => exact ⟨.r2, rfl⟩
  | rbx => exact ⟨.r3, rfl⟩
  | rbp => exact ⟨.r4, rfl⟩
  | rsi => exact ⟨.r5, rfl⟩
  | rdi => exact ⟨.r6, rfl⟩
  | r8 => exact ⟨.r7, rfl⟩
  | r9 => exact ⟨.r8, rfl⟩
  | r10 => exact ⟨.r9, rfl⟩
  | r11 => exact ⟨.r10, rfl⟩
  | r12 => exact ⟨.r11, rfl⟩
  | r13 => exact ⟨.ip, rfl⟩
  | r14 => exact ⟨.sp, rfl⟩
  | r15 => exact ⟨.lr, rfl⟩

/-- Registers 0 to 14 are in their homes. -/
def InHomes (cpu : Cpu) (m : Machine ε) : Prop :=
  ∀ r h, home? r = some h → m.reg h = (cpu.reg r).setWidth 64

namespace InHomes

variable {cpu cpu' : Cpu} {m : Machine ε} {r : Reg} {h : Host.Reg}

/-- The home of a register holds its value. -/
theorem low (hm : InHomes cpu m) (hr : home? r = some h) : m.low h = cpu.reg r := by
  rw [Machine.low, hm r h hr]
  exact BitVec.setWidth_setWidth_of_le _ (by decide)

/-- Homes have clear upper halves. -/
theorem clean (hm : InHomes cpu m) (hne : h ≠ .rsp) : m.Clean h := by
  obtain ⟨s, hs⟩ := exists_home hne
  rw [Machine.Clean, hm.low hs, hm s h hs]

/-- The program counter of the guest does not matter. -/
theorem congr (hm : InHomes cpu m) (hcpu : cpu.EqOffPc cpu') : InHomes cpu' m := by
  intro r host hr
  have hpc : r ≠ .pc := by
    rintro rfl
    cases hr
  rw [hm r host hr, hcpu.reg r hpc]

/-- Writing a home writes the guest register. -/
theorem put (hm : InHomes cpu m) (hr : home? r = some h) (value : Word) :
    InHomes (cpu.setReg r value) (m.put h value) := by
  intro s host hs
  rw [Machine.reg_put, Cpu.reg_setReg]
  by_cases heq : h = host
  · subst heq
    rw [if_pos rfl, if_pos (home?_injective hr hs)]
  · have hne : r ≠ s := by
      rintro rfl
      exact heq (Option.some.inj (hr.symm.trans hs))
    rw [if_neg heq, if_neg hne]
    exact hm s host hs

end InHomes

/-- The guest registers are in their homes and the status registers in the
processor state. -/
structure Loaded (link : Linkage ε) (saved : Host.Reg → BitVec 64) (cpu : Cpu) (env : ε)
    (m : Machine ε) : Prop where
  homes : ∀ r h, home? r = some h → m.reg h = (cpu.reg r).setWidth 64
  cpsr : m.cpu.cpsr = cpu.cpsr
  spsr : m.cpu.spsr = cpu.spsr
  inFrame : InFrame link saved m
  env_eq : m.env = env

/-- The whole guest but its program counter is in the processor state. -/
structure Stored (link : Linkage ε) (saved : Host.Reg → BitVec 64) (cpu : Cpu) (env : ε)
    (m : Machine ε) : Prop where
  cpu_eq : m.cpu.EqOffPc cpu
  inFrame : InFrame link saved m
  env_eq : m.env = env

section Views

variable {link : Linkage ε} {saved : Host.Reg → BitVec 64} {cpu cpu' : Cpu} {env : ε}
  {m : Machine ε}

namespace Loaded

/-- The home of a register holds its value. -/
theorem low (hm : Loaded link saved cpu env m) {r : Reg} {h : Host.Reg} (hr : home? r = some h) :
    m.low h = cpu.reg r :=
  InHomes.low hm.homes hr

/-- The host flags do not matter. -/
theorem withFlags (hm : Loaded link saved cpu env m) (flags : Flags) :
    Loaded link saved cpu env (m.withFlags flags) :=
  ⟨hm.homes, hm.cpsr, hm.spsr, hm.inFrame, hm.env_eq⟩

/-- The program counter of the guest does not matter. -/
theorem congr (hm : Loaded link saved cpu env m) (h : cpu.EqOffPc cpu') :
    Loaded link saved cpu' env m where
  homes := InHomes.congr hm.homes h
  cpsr := hm.cpsr.trans h.cpsr
  spsr := hm.spsr.trans h.spsr
  inFrame := hm.inFrame
  env_eq := hm.env_eq

/-- Writing a home writes the guest register. -/
theorem put (hm : Loaded link saved cpu env m) {r : Reg} {h : Host.Reg} (hr : home? r = some h)
    (value : Word) : Loaded link saved (cpu.setReg r value) env (m.put h value) where
  homes := InHomes.put hm.homes hr value
  cpsr := hm.cpsr
  spsr := hm.spsr
  inFrame := hm.inFrame
  env_eq := hm.env_eq

end Loaded

/-! ## Spilling and reloading -/

section Moves

variable (link)

theorem runInstrs?_stores (pairs : List (Reg × Host.Reg)) (hrsp : ∀ p ∈ pairs, p.2 ≠ .rsp)
    (m : Machine ε) (hm : m.reg .rax = link.state) :
    runInstrs? link (pairs.map fun (r, h) => .store32 (stateReg r) h) m =
      some (m.withCpu (pairs.foldl (fun cpu p => cpu.setReg p.1 (m.low p.2)) m.cpu)) := by
  induction pairs generalizing m with
  | nil => rfl
  | cons p pairs ih =>
      have hp : p.2 ≠ .rsp := hrsp p (List.mem_cons_self ..)
      have hstep := store32?_stateReg link m hm p.1 (m.low p.2)
      have hrest := ih (fun q hq => hrsp q (List.mem_cons_of_mem _ hq))
        (m.withCpu (m.cpu.setReg p.1 (m.low p.2))) hm
      rw [List.map_cons, Host.runInstrs?_cons, Host.Instr.step?_store32 link m hp, hstep,
        Option.bind_some, hrest]
      rfl

theorem runInstrs?_loads (pairs : List (Reg × Host.Reg))
    (hne : ∀ p ∈ pairs, p.2 ≠ .rsp ∧ p.2 ≠ .rax) (m : Machine ε) (hm : m.reg .rax = link.state) :
    runInstrs? link (pairs.map fun (r, h) => .load32 h (stateReg r)) m =
      some (pairs.foldl (fun n p => n.put p.2 (m.cpu.reg p.1)) m) := by
  induction pairs generalizing m with
  | nil => rfl
  | cons p pairs ih =>
      obtain ⟨hrsp, hrax⟩ := hne p (List.mem_cons_self ..)
      have hkeep : (m.put p.2 (m.cpu.reg p.1)).reg .rax = link.state := by
        rw [Machine.reg_put, if_neg hrax, hm]
      rw [List.map_cons, Host.runInstrs?_cons, Host.Instr.step?_load32 link m hrsp,
        load32?_stateReg link m hm, Option.map_some, Option.bind_some,
        ih (fun q hq => hne q (List.mem_cons_of_mem _ hq)) _ hkeep]
      rfl

/-- Registers written one after another end up as in a state that has all their
values. -/
theorem reg_foldl_setReg {pairs : List (Reg × Host.Reg)} {value : Host.Reg → Word} {goal : Cpu}
    (hvalue : ∀ p ∈ pairs, value p.2 = goal.reg p.1) (start : Cpu) {r : Reg}
    (hr : r ∈ pairs.map Prod.fst ∨ start.reg r = goal.reg r) :
    (pairs.foldl (fun cpu p => cpu.setReg p.1 (value p.2)) start).reg r = goal.reg r := by
  induction pairs generalizing start with
  | nil => exact hr.resolve_left (List.not_mem_nil)
  | cons p pairs ih =>
      refine ih (fun q hq => hvalue q (List.mem_cons_of_mem _ hq)) _ ?_
      by_cases hp : p.1 = r
      · right
        rw [Cpu.reg_setReg, if_pos hp, hvalue p (List.mem_cons_self ..), hp]
      · rcases hr with hmem | hstart
        · left
          rw [List.map_cons, List.mem_cons] at hmem
          exact hmem.resolve_left fun h => hp h.symm
        · right
          rw [Cpu.reg_setReg, if_neg hp, hstart]

theorem cpsr_foldl_setReg (pairs : List (Reg × Host.Reg)) (value : Host.Reg → Word)
    (start : Cpu) :
    (pairs.foldl (fun cpu p => cpu.setReg p.1 (value p.2)) start).cpsr = start.cpsr := by
  induction pairs generalizing start with
  | nil => rfl
  | cons p pairs ih => exact ih (start.setReg p.1 (value p.2))

theorem spsr_foldl_setReg (pairs : List (Reg × Host.Reg)) (value : Host.Reg → Word)
    (start : Cpu) :
    (pairs.foldl (fun cpu p => cpu.setReg p.1 (value p.2)) start).spsr = start.spsr := by
  induction pairs generalizing start with
  | nil => rfl
  | cons p pairs ih => exact ih (start.setReg p.1 (value p.2))

/-- Every register but the first and the program counter is spilled from its home. -/
theorem mem_homes_tail {r : Reg} (h0 : r ≠ .r0) (hpc : r ≠ .pc) :
    r ∈ homes.tail.map Prod.fst := by
  cases r <;> first | exact absurd rfl h0 | exact absurd rfl hpc | decide

theorem homes_tail_ne {p : Reg × Host.Reg} (hp : p ∈ homes.tail) :
    home? p.1 = some p.2 ∧ p.2 ≠ .rsp ∧ p.2 ≠ .rax := by
  revert p
  decide

/-- The first register trades places with the pointer in the topmost slot. -/
theorem step?_park {rest : List (Option (BitVec 32))} (m : Machine ε)
    (hstack : m.stack = units link.state ++ rest) :
    (Instr.xchg64 .rax (stateSlot 0)).step? link m =
      some ((m.setReg .rax link.state).withStack (units (m.reg .rax) ++ rest)) := by
  have hload : m.load64? (stateSlot 0) = some link.state :=
    (load64?_slot m (by decide) (by rw [Machine.getUnit?, hstack]; rfl)
      (by rw [Machine.getUnit?, hstack]; rfl)).trans
      (congrArg some (Machine.halves_append link.state))
  rw [Host.Instr.step?_xchg64 link m rax_ne_rsp, hload, Option.bind_some,
    store64?_top m hstack, Option.map_some]
  rfl

/-- The first register is stored from the topmost slot, which gets the pointer
back. -/
theorem runInstrs?_unpark {first : BitVec 64} {rest : List (Option (BitVec 32))} (m : Machine ε)
    (hm : m.reg .rax = link.state) (hstack : m.stack = units first ++ rest) :
    runInstrs? link
        [.load32 .rcx (stateSlot 0), .store32 (stateReg .r0) .rcx, .store64 (stateSlot 0) .rax] m =
      some (((m.put .rcx (first.extractLsb' 0 32)).withCpu
        (m.cpu.setReg .r0 (first.extractLsb' 0 32))).withStack (units link.state ++ rest)) := by
  have hload : m.load32? link (stateSlot 0) = some (first.extractLsb' 0 32) :=
    load32?_top m link hstack
  have hkeep : (m.put .rcx (first.extractLsb' 0 32)).reg .rax = link.state := by
    rw [Machine.reg_put, if_neg (by decide), hm]
  have hstored : ((m.put .rcx (first.extractLsb' 0 32)).withCpu
      ((m.put .rcx (first.extractLsb' 0 32)).cpu.setReg .r0 (first.extractLsb' 0 32))).stack =
        units first ++ rest := hstack
  rw [Host.runInstrs?_cons, Host.Instr.step?_load32 link m (by decide), hload, Option.map_some,
    Option.bind_some, Host.runInstrs?_cons, Host.Instr.step?_store32 link _ (by decide),
    store32?_stateReg link _ hkeep, Option.bind_some, Host.runInstrs?_cons,
    Host.Instr.step?_store64 link _ rax_ne_rsp, Machine.low_put, if_pos rfl,
    Machine.reg_withCpu, hkeep, store64?_top _ hstored]
  rfl

/-- Spilling moves the guest registers to the processor state and leaves the
pointer to it in the first host register. -/
theorem runInstrs?_spill (hm : Loaded link saved cpu env m) :
    ∃ m', runInstrs? link spill m = some m' ∧ Stored link saved cpu env m' ∧
      m'.reg .rax = link.state := by
  obtain ⟨scratch, padding, hstack⟩ := hm.inFrame
  obtain ⟨rest, hrest⟩ : ∃ rest, frame link saved scratch padding = units link.state ++ rest :=
    ⟨_, rfl⟩
  obtain ⟨parked, hparked⟩ : ∃ parked, parked =
    (m.setReg .rax link.state).withStack (units (m.reg .rax) ++ rest) := ⟨_, rfl⟩
  have hrax : parked.reg .rax = link.state := by
    rw [hparked, Machine.reg_withStack, Machine.reg_setReg, if_pos rfl]
  have hlow : ∀ p ∈ homes.tail, parked.low p.2 = cpu.reg p.1 := by
    intro p hp
    obtain ⟨hhome, -, hne⟩ := homes_tail_ne hp
    rw [← hm.low hhome, hparked, Machine.low_withStack, Machine.low_setReg, if_neg hne.symm]
  obtain ⟨stored, hstored⟩ : ∃ stored, stored =
    homes.tail.foldl (fun cpu p => cpu.setReg p.1 (parked.low p.2)) parked.cpu := ⟨_, rfl⟩
  have hfirst : (m.reg .rax).extractLsb' 0 32 = cpu.reg .r0 := by
    rw [← hm.low (r := .r0) rfl, Machine.low, BitVec.setWidth_eq_extractLsb' (by decide)]
  have hcpu : parked.cpu = m.cpu := by
    rw [hparked]
    rfl
  refine ⟨((parked.put .rcx (cpu.reg .r0)).withCpu (stored.setReg .r0 (cpu.reg .r0))).withStack
    (units link.state ++ rest), ?_, ⟨⟨?_, ?_, ?_⟩, ⟨scratch, padding, hrest.symm⟩, ?_⟩, ?_⟩
  · rw [spill, List.cons_append, Host.runInstrs?_cons, step?_park link m (hstack.trans hrest),
      ← hparked, Option.bind_some,
      Host.runInstrs?_append_of_eq_some link (runInstrs?_stores link homes.tail
        (fun p hp => (homes_tail_ne hp).2.1) parked hrax),
      ← hstored, runInstrs?_unpark link (parked.withCpu stored) hrax
        (by rw [hparked]; rfl), hfirst]
    rfl
  · intro r hr
    show (stored.setReg .r0 (cpu.reg .r0)).reg r = cpu.reg r
    by_cases h0 : r = .r0
    · rw [h0, Cpu.reg_setReg_self]
    · rw [Cpu.reg_setReg_of_ne _ (Ne.symm h0), hstored]
      exact reg_foldl_setReg hlow parked.cpu (.inl (mem_homes_tail h0 hr))
  · show stored.cpsr = cpu.cpsr
    rw [hstored, cpsr_foldl_setReg, hcpu, hm.cpsr]
  · show stored.spsr = cpu.spsr
    rw [hstored, spsr_foldl_setReg, hcpu, hm.spsr]
  · show parked.env = env
    rw [hparked]
    exact hm.env_eq
  · show (parked.put .rcx (cpu.reg .r0)).reg .rax = link.state
    rw [Machine.reg_put, if_neg (by decide), hrax]

/-- Writing a list of homes touches nothing but registers. -/
theorem foldl_put_eq (pairs : List (Reg × Host.Reg)) (value : Reg → Word) (m : Machine ε) :
    ∃ regs, pairs.foldl (fun n p => n.put p.2 (value p.1)) m = { m with regs } := by
  induction pairs generalizing m with
  | nil => exact ⟨m.regs, rfl⟩
  | cons p pairs ih =>
      obtain ⟨regs, hregs⟩ := ih (m.put p.2 (value p.1))
      exact ⟨regs, hregs⟩

/-- A register ends up with a value if it is written with nothing else and is
either written or had that value before. -/
theorem reg_foldl_put {pairs : List (Reg × Host.Reg)} {value : Reg → Word} {h : Host.Reg}
    {v : BitVec 64} (hvalue : ∀ p ∈ pairs, p.2 = h → (value p.1).setWidth 64 = v) (m : Machine ε)
    (hh : h ∈ pairs.map Prod.snd ∨ m.reg h = v) :
    (pairs.foldl (fun n p => n.put p.2 (value p.1)) m).reg h = v := by
  induction pairs generalizing m with
  | nil => exact hh.resolve_left List.not_mem_nil
  | cons p pairs ih =>
      refine ih (fun q hq => hvalue q (List.mem_cons_of_mem _ hq)) _ ?_
      by_cases hp : p.2 = h
      · right
        rw [Machine.reg_put, if_pos hp, hvalue p (List.mem_cons_self ..) hp]
      · rcases hh with hmem | hstart
        · left
          rw [List.map_cons, List.mem_cons] at hmem
          exact hmem.resolve_left fun h => hp h.symm
        · right
          rw [Machine.reg_put, if_neg hp, hstart]

/-- Every home but the first is in the list that is reloaded from the state. -/
theorem mem_homes_tail_of_home? {r : Reg} {h : Host.Reg} (hr : home? r = some h)
    (hne : h ≠ .rax) : h ∈ homes.tail.map Prod.snd := by
  cases r <;> cases hr <;> first | exact absurd rfl hne | decide

/-- Reloading moves the guest registers from the processor state to their homes. -/
theorem runInstrs?_reload (hm : Stored link saved cpu env m) :
    ∃ m', runInstrs? link reload m = some m' ∧ Loaded link saved cpu env m' := by
  obtain ⟨scratch, padding, hstack⟩ := hm.inFrame
  have hpointer : m.load64? (stateSlot 0) = some link.state :=
    load64?_stateSlot [] hstack rfl (by decide)
  have hrax : (m.setReg .rax link.state).reg .rax = link.state := by
    rw [Machine.reg_setReg, if_pos rfl]
  have hloads := runInstrs?_loads link homes.tail (fun p hp => (homes_tail_ne hp).2)
    (m.setReg .rax link.state) hrax
  obtain ⟨loaded, hloaded⟩ : ∃ loaded, loaded = homes.tail.foldl
    (fun n p => n.put p.2 (m.cpu.reg p.1)) (m.setReg .rax link.state) := ⟨_, rfl⟩
  rw [Machine.cpu_setReg, ← hloaded] at hloads
  obtain ⟨regs, hregs⟩ := foldl_put_eq homes.tail m.cpu.reg (m.setReg .rax link.state)
  rw [← hloaded] at hregs
  have hkeep : loaded.reg .rax = link.state := by
    rw [hloaded]
    exact reg_foldl_put (fun p hp hrax => absurd hrax (homes_tail_ne hp).2.2) _ (.inr hrax)
  have hcpu : loaded.cpu = m.cpu := by
    rw [hregs]
    rfl
  refine ⟨loaded.put .rax (m.cpu.reg .r0), ?_, fun r h hr => ?_, ?_, ?_, ?_, ?_⟩
  · rw [reload, List.cons_append, Host.runInstrs?_cons,
      Host.Instr.step?_load64 link m rax_ne_rsp, hpointer, Option.map_some, Option.bind_some,
      Host.runInstrs?_append_of_eq_some link hloads, Host.runInstrs?_cons,
      Host.Instr.step?_load32 link _ rax_ne_rsp, load32?_stateReg link _ hkeep, hcpu]
    rfl
  · have hpc : r ≠ .pc := by
      rintro rfl
      cases hr
    rw [← hm.cpu_eq.reg r hpc, Machine.reg_put]
    by_cases hh : h = .rax
    · subst hh
      rw [if_pos rfl, home?_injective hr (s := .r0) rfl]
    · rw [if_neg (Ne.symm hh), hloaded]
      refine reg_foldl_put (fun p hp heq => ?_) _ (.inl (mem_homes_tail_of_home? hr hh))
      have hp1 : p.1 = r := home?_injective (heq ▸ (homes_tail_ne hp).1) hr
      rw [hp1]
  · rw [Machine.cpu_put, hcpu, hm.cpu_eq.cpsr]
  · rw [Machine.cpu_put, hcpu, hm.cpu_eq.spsr]
  · refine ⟨scratch, padding, ?_⟩
    rw [Machine.stack_put, hregs]
    exact hstack
  · rw [Machine.env_put, hregs]
    exact hm.env_eq

end Moves

end Views

/-! ## Entering and leaving -/

section Ends

variable {link : Linkage ε} {saved : Host.Reg → BitVec 64} {cpu : Cpu} {env : ε}
  {m : Machine ε} {scratch padding : Option (BitVec 32)}

/-- The registers of the caller are pushed, and room is made for the slots. -/
theorem runInstrs?_makeRoom (link : Linkage ε) (hstack : m.stack = []) :
    runInstrs? link (calleeSaved.map .push ++ [.subRsp frameBytes]) m =
      some (m.withStack
        (none :: none :: none :: none :: none :: none :: savedUnits m.reg)) := by
  have hpush : runInstrs? link (calleeSaved.map .push) m =
      some (m.withStack (savedUnits m.reg)) := by
    simp [calleeSaved, hstack, savedUnits, units]
  rw [Host.runInstrs?_append_of_eq_some link hpush]
  rfl

section Pointers

variable {first second low high : Option (BitVec 32)} {rest : List (Option (BitVec 32))}

/-- The pointer to the processor state is stored into its slot. -/
theorem step?_storeState (hstack : m.stack = low :: high :: rest)
    (hstate : m.reg .rdi = link.state) :
    (Instr.store64 (stateSlot 0) .rdi).step? link m =
      some (m.withStack (units link.state ++ rest)) := by
  rw [Instr.step?_store64 link _ (by decide), hstate, store64?_top m hstack]

/-- The pointer to the environment is stored into its slot. -/
theorem step?_storeEnvironment (hstack : m.stack = first :: second :: low :: high :: rest)
    (henv : m.reg .rsi = link.environment) :
    (Instr.store64 (environmentSlot 0) .rsi).step? link m =
      some (m.withStack (first :: second :: (units link.environment ++ rest))) := by
  rw [Instr.step?_store64 link _ (by decide), henv, store64?_environmentSlot m hstack]

end Pointers

/-- Room is made below the saved registers, and the two pointers are stored into their
slots. -/
theorem exists_steps_enter (hstack : m.stack = []) (hstate : m.reg .rdi = link.state)
    (henv : m.reg .rsi = link.environment) :
    ∃ room half, runInstrs? link (calleeSaved.map .push ++ [.subRsp frameBytes]) m = some room ∧
      room.stack.length = 18 ∧
      (Instr.store64 (stateSlot 0) .rdi).step? link room = some half ∧ half.stack.length = 18 ∧
      (Instr.store64 (environmentSlot 0) .rsi).step? link half =
        some (m.withStack (frame link m.reg none none)) := by
  obtain ⟨room, hroom⟩ : ∃ room, room =
    m.withStack (none :: none :: none :: none :: none :: none :: savedUnits m.reg) := ⟨_, rfl⟩
  have hroomStack : room.stack =
      none :: none :: none :: none :: none :: none :: savedUnits m.reg := by
    rw [hroom]
    rfl
  have hroomState : room.reg .rdi = link.state := by
    rw [hroom]
    exact hstate
  obtain ⟨half, hhalf⟩ : ∃ half, half = room.withStack
    (units link.state ++ (none :: none :: none :: none :: savedUnits m.reg)) := ⟨_, rfl⟩
  have hhalfStack : half.stack =
      units link.state ++ (none :: none :: none :: none :: savedUnits m.reg) := by
    rw [hhalf]
    rfl
  have hhalfEnv : half.reg .rsi = link.environment := by
    rw [hhalf, hroom]
    exact henv
  refine ⟨room, half, ?_, congrArg List.length hroomStack, ?_, congrArg List.length hhalfStack, ?_⟩
  · rw [runInstrs?_makeRoom link hstack, hroom]
  · rw [step?_storeState hroomStack hroomState, hhalf]
  · rw [step?_storeEnvironment hhalfStack hhalfEnv, hhalf, hroom]
    rfl

/-- The three slots are made below the saved registers. -/
theorem runInstrs?_enter (hstack : m.stack = []) (hstate : m.reg .rdi = link.state)
    (henv : m.reg .rsi = link.environment) :
    runInstrs? link (calleeSaved.map .push ++ [.subRsp frameBytes] ++
        [.store64 (stateSlot 0) .rdi, .store64 (environmentSlot 0) .rsi]) m =
      some (m.withStack (frame link m.reg none none)) := by
  obtain ⟨room, half, hroom, -, hfirst, -, hsecond⟩ := exists_steps_enter hstack hstate henv
  rw [Host.runInstrs?_append_of_eq_some link hroom, Host.runInstrs?_cons, hfirst,
    Option.bind_some, Host.runInstrs?_cons, hsecond]
  rfl

/-- A block starts with the guest registers loaded and the registers of its
caller saved. -/
theorem runInstrs?_prologue (link : Linkage ε) (hstack : m.stack = [])
    (hstate : m.reg .rdi = link.state) (henv : m.reg .rsi = link.environment) :
    ∃ m', runInstrs? link prologue m = some m' ∧ Loaded link m.reg m.cpu m.env m' := by
  have hsplit : prologue = calleeSaved.map .push ++ [.subRsp frameBytes] ++
      [.store64 (stateSlot 0) .rdi, .store64 (environmentSlot 0) .rsi] ++ reload := rfl
  rw [hsplit, Host.runInstrs?_append_of_eq_some link (runInstrs?_enter hstack hstate henv)]
  exact runInstrs?_reload link ⟨.refl m.cpu, ⟨none, none, rfl⟩, rfl⟩

/-- A machine on return from a block: the status is the result, and the registers
of the caller are as they were. -/
structure Returned (saved : Host.Reg → BitVec 64) (status : BitVec 32) (cpu : Cpu) (env : ε)
    (m : Machine ε) : Prop where
  status_eq : (m.reg .rax).setWidth 32 = status
  cpu_eq : m.cpu = cpu
  env_eq : m.env = env
  restored : ∀ r ∈ calleeSaved, m.reg r = saved r

/-- Giving back the slots and popping the saved registers empties the stack. -/
theorem runInstrs?_restore (hm : InFrame link saved m) :
    runInstrs? link (.addRsp frameBytes :: calleeSaved.reverse.map .pop) m =
      some ((calleeSaved.reverse.foldl (fun n r => n.setReg r (saved r)) m).withStack []) := by
  obtain ⟨scratch, padding, hstack⟩ := hm
  have hrelease : (Instr.addRsp frameBytes).step? link m =
      some (m.withStack (savedUnits saved)) := by
    show m.release? frameBytes = _
    rw [Machine.release?, if_pos (by rw [hstack, length_frame]; decide), hstack]
    rfl
  rw [Host.runInstrs?_cons, hrelease, Option.bind_some]
  simp [calleeSaved, savedUnits, units]

/-- The code up to the return leaves the status in the result and restores everything
else. -/
theorem runInstrs?_leave (hm : InFrame link saved m) (status : BitVec 32) :
    ∃ m', runInstrs? link
        (.movImm .rax status :: .addRsp frameBytes :: calleeSaved.reverse.map .pop) m = some m' ∧
      m'.stack = [] ∧ Returned saved status m.cpu m.env m' := by
  obtain ⟨m', hm'⟩ : ∃ m', m' = (calleeSaved.reverse.foldl (fun n r => n.setReg r (saved r))
    (m.put .rax status)).withStack [] := ⟨_, rfl⟩
  have hput : InFrame link saved (m.put .rax status) := hm
  have hrestore := runInstrs?_restore hput
  refine ⟨m', ?_, ?_, ?_, ?_, ?_, ?_⟩
  · rw [Host.runInstrs?_cons, Instr.step?_movImm link m rax_ne_rsp, Option.bind_some, hrestore, hm']
  · rw [hm']
    rfl
  · rw [hm']
    simp [calleeSaved, Machine.reg_setReg, Machine.put]
  · rw [hm']
    rfl
  · rw [hm']
    rfl
  · rw [hm']
    simp [calleeSaved, Machine.reg_setReg]

/-- The end of a block is its last instructions and a return. -/
theorem ofInstrs_epilogue (status : BitVec 32) (rest : Code) :
    Code.ofInstrs (.movImm .rax status :: epilogue) ++ rest =
      Code.ofInstrs (.movImm .rax status :: .addRsp frameBytes :: calleeSaved.reverse.map .pop) ++
        (.instr .ret :: rest) := by
  rw [epilogue, ← List.cons_append, Host.Code.ofInstrs_append, List.append_assoc]
  rfl

/-- A block leaves with its status in the result and everything else restored. -/
theorem run?_epilogue (hm : InFrame link saved m) (status : BitVec 32) (rest : Code) :
    ∃ m', Code.run? link none (Code.ofInstrs (.movImm .rax status :: epilogue) ++ rest) m =
      some m' ∧ Returned saved status m.cpu m.env m' := by
  obtain ⟨m', hrun, hstack, hreturned⟩ := runInstrs?_leave hm status
  refine ⟨m', ?_, hreturned⟩
  rw [ofInstrs_epilogue, Code.run?_ofInstrs_append link hrun, Code.run?, if_pos hstack]

/-- An exit stores the guest with its next program counter and returns zero. -/
theorem run?_exitTo (hm : Loaded link saved cpu env m) (pc : Word) (rest : Code) :
    ∃ m', Code.run? link none (Code.ofInstrs (exitTo pc) ++ rest) m = some m' ∧
      Returned saved 0 (cpu.setPc pc) env m' := by
  obtain ⟨spilled, hspill, hstored, hrax⟩ := runInstrs?_spill link hm
  have hpc : (Instr.store32Imm (stateReg .pc) pc).step? link spilled =
      some (spilled.withCpu (cpu.setPc pc)) := by
    rw [Instr.step?_store32Imm, store32?_stateReg link spilled hrax]
    exact congrArg (fun c => some (spilled.withCpu c)) (hstored.cpu_eq.setPc_eq pc)
  have hrun : runInstrs? link (spill ++ [.store32Imm (stateReg .pc) pc]) m =
      some (spilled.withCpu (cpu.setPc pc)) := by
    rw [Host.runInstrs?_append_of_eq_some link hspill, Host.runInstrs?_cons, hpc]
    rfl
  have hcode : Code.ofInstrs (exitTo pc) ++ rest =
      Code.ofInstrs (spill ++ [.store32Imm (stateReg .pc) pc]) ++
        (Code.ofInstrs leave ++ rest) := by
    rw [exitTo, ← List.append_assoc, ← Host.Code.ofInstrs_append, List.append_assoc]
    rfl
  have hframe : InFrame link saved (spilled.withCpu (cpu.setPc pc)) := hstored.inFrame
  obtain ⟨m', hleave, hreturned⟩ := run?_epilogue hframe 0 rest
  have henv : (spilled.withCpu (cpu.setPc pc)).env = env := hstored.env_eq
  rw [henv] at hreturned
  refine ⟨m', ?_, hreturned⟩
  rw [hcode, Code.run?_ofInstrs_append link hrun]
  exact hleave

/-- The exit after a failed helper returns one. -/
theorem run?_faultExit (hm : InFrame link saved m) (passed : Code) :
    ∃ m', Code.run? link (some faultLabel) (passed ++ faultExit) m = some m' ∧
      Returned saved 1 m.cpu m.env m' := by
  have hlabel : Item.label faultLabel ∉ Code.ofInstrs (.movImm .rax 1 :: epilogue) := by
    decide
  obtain ⟨m', hrun, hreturned⟩ := run?_epilogue hm 1 []
  rw [List.append_nil] at hrun
  exact ⟨m', by rw [faultExit, Code.run?_skip link hlabel, hrun], hreturned⟩

end Ends

/-! ## Helper calls -/

section Calls

variable {link : Linkage ε} {saved : Host.Reg → BitVec 64} {m : Machine ε}
  {scratch padding : Option (BitVec 32)}
  {function : BitVec 32 → BitVec 32 → Cpu → ε → Host.Returned ε} {target : BitVec 64}

theorem low_rax_afterCall (m : Machine ε) (r : Host.Returned ε) :
    (m.afterCall r).low .rax = r.result.setWidth 32 := by
  rw [Machine.afterCall, Machine.low_setReg, if_pos rfl]

/-- A value tested against itself is compared with zero. -/
theorem holds_ne_and_self (x : BitVec 32) :
    Host.Cc.holds .ne (Host.Alu.and.eval x x).2 = (x != 0#32) := by
  show (!(x &&& x == 0#32)) = _
  rw [BitVec.and_self]
  rfl

/-- A call through {lit}`rax` on an aligned stack with both pointers in place. -/
theorem step?_call_rax (haligned : m.aligned = true) (hrdi : m.reg .rdi = link.state)
    (hrsi : m.reg .rsi = link.environment) (hrax : m.reg .rax = target)
    (hfunction : link.function? target = some function) :
    (Instr.call .rax).step? link m =
      some (m.afterCall (function (m.low .rdx) (m.low .rcx) m.cpu m.env)) := by
  rw [Instr.step?_call link m rax_ne_rsp, Machine.call?, if_pos ⟨haligned, hrdi, hrsi⟩, hrax,
    hfunction]
  rfl

/-- The two pointers and the address are put into place before a call, which finds the
two words where they were. -/
theorem runInstrs?_beforeCall (hstack : m.stack = frame link saved scratch padding)
    (target : BitVec 64) :
    ∃ ready, runInstrs? link
        [.load64 .rdi (stateSlot 0), .load64 .rsi (environmentSlot 0), .mov64Imm .rax target] m =
          some ready ∧
      ready.aligned = true ∧ ready.reg .rdi = link.state ∧ ready.reg .rsi = link.environment ∧
      ready.reg .rax = target ∧ ready.low .rdx = m.low .rdx ∧ ready.low .rcx = m.low .rcx ∧
      ready.stack = m.stack ∧ ready.cpu = m.cpu ∧ ready.env = m.env := by
  have hstate : m.load64? (stateSlot 0) = some link.state :=
    load64?_stateSlot [] hstack rfl (by decide)
  have henv : (m.setReg .rdi link.state).load64? (environmentSlot 0) = some link.environment :=
    load64?_environmentSlot [] hstack rfl (by decide)
  refine ⟨((m.setReg .rdi link.state).setReg .rsi link.environment).setReg .rax target, ?_, ?_, ?_,
    ?_, ?_, ?_, ?_, rfl, rfl, rfl⟩
  · rw [Host.runInstrs?_cons, Instr.step?_load64 link m (by decide), hstate, Option.map_some,
      Option.bind_some, Host.runInstrs?_cons, Instr.step?_load64 link _ (by decide), henv,
      Option.map_some, Option.bind_some, Host.runInstrs?_cons,
      Instr.step?_mov64Imm link _ rax_ne_rsp]
    rfl
  · rw [Machine.aligned]
    simp [hstack]
  · simp [Machine.reg_setReg]
  · simp [Machine.reg_setReg]
  · rw [Machine.reg_setReg, if_pos rfl]
  · simp [Machine.reg_setReg, Machine.low]
  · simp [Machine.reg_setReg, Machine.low]

/-- A helper gets the two words and the two pointers; the block goes on behind the call
or jumps to its fault exit by the result. -/
theorem leads_callHelper (hstack : m.stack = frame link saved scratch padding)
    (hfunction : link.function? target = some function) :
    ∃ m', m'.stack = m.stack ∧
      m'.cpu = (function (m.low .rdx) (m.low .rcx) m.cpu m.env).cpu ∧
      m'.env = (function (m.low .rdx) (m.low .rcx) m.cpu m.env).env ∧
      Code.Leads link none (callHelper target) m [⟨target, m.low .rdx, m.low .rcx, m.cpu⟩]
        (if (function (m.low .rdx) (m.low .rcx) m.cpu m.env).result.setWidth 32 = 0#32
          then none else some faultLabel) m' := by
  obtain ⟨ready, hbefore, haligned, hrdi, hrsi, hrax, hrdx, hrcx, hstack', hcpu, henv⟩ :=
    runInstrs?_beforeCall hstack target
  have hcall := step?_call_rax haligned hrdi hrsi hrax hfunction
  rw [hrdx, hrcx, hcpu, henv] at hcall
  obtain ⟨r, hr⟩ : ∃ r, r = function (m.low .rdx) (m.low .rcx) m.cpu m.env := ⟨_, rfl⟩
  rw [← hr] at hcall ⊢
  obtain ⟨tested, htested⟩ : ∃ tested, tested = (ready.afterCall r).withFlags
    (Host.Alu.and.eval (r.result.setWidth 32) (r.result.setWidth 32)).2 := ⟨_, rfl⟩
  have htest : runInstrs? link [.test .rax .rax] (ready.afterCall r) = some tested := by
    rw [Host.runInstrs?_cons, Instr.step?_test link _ rax_ne_rsp rax_ne_rsp, low_rax_afterCall,
      htested]
    rfl
  have hleads : Code.Leads link none (Code.ofInstrs [.load64 .rdi (stateSlot 0),
      .load64 .rsi (environmentSlot 0), .mov64Imm .rax target] ++
        ([.instr (.call .rax)] ++ (Code.ofInstrs [.test .rax .rax] ++ [.jump .ne faultLabel]))) m
      ([] ++ ([⟨ready.reg .rax, ready.low .rdx, ready.low .rcx, ready.cpu⟩] ++ ([] ++ [])))
      (if Host.Cc.holds .ne tested.flags then some faultLabel else none) tested :=
    (Code.Leads.ofInstrs hbefore (by simp [Instr.isCall])).append
      ((Code.Leads.instr hcall).append
        ((Code.Leads.ofInstrs htest (by simp [Instr.isCall])).append (.jump .ne faultLabel tested)
          (by simp))
        (by simp [Code.ofInstrs]))
      (by simp [Code.ofInstrs])
  have hzero : Host.Cc.holds .ne tested.flags = !decide (r.result.setWidth 32 = 0#32) := by
    rw [htested, Machine.flags_withFlags, holds_ne_and_self]
    rfl
  rw [hrax, hrdx, hrcx, hcpu, hzero] at hleads
  refine ⟨tested, ?_, ?_, ?_, ?_⟩
  · rw [← hstack', htested]
    rfl
  · rw [htested]
    rfl
  · rw [htested]
    rfl
  · by_cases h : r.result.setWidth 32 = 0#32
    · rw [if_pos h]
      rw [h] at hleads
      exact hleads
    · rw [if_neg h]
      rw [decide_eq_false h] at hleads
      exact hleads

end Calls

end ArmEmulator.Block
