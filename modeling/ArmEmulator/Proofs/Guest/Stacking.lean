import ArmEmulator.Proofs.Guest.Footprint

/-!
# Storing registers and loading them back

A multiple store leaves its registers in memory, lowest first, in the words below or above
its base, and the multiple load that goes the other way finds them there and takes the base
back.  So the two restore what was changed between them, for each of the four ways to move
the base.

Only the program counter as a base is different: it reads as an address ahead of the
instruction, and the two instructions stand at different addresses.

Main results:

- Theorem {lit}`Bus.exists_writeList`: a list of registers is written to consecutive words.
- Theorem {lit}`MultiTransfer.next_startAddress`: where the words of a transfer lie.
- Theorem {lit}`Instruction.store_load_restores`: a store and the load that goes the other
  way.
-/

namespace ArmEmulator

variable {ω : Type}

/-! ## Words in memory -/

namespace Word

variable (start : Word)

theorem toNat_next (k : Nat) : (start.next k).toNat = (start.toNat + 4 * k) % 0x100000000 := by
  simp [next]

/-- A word has no byte of those behind it, as long as they do not come around to it. -/
theorem not_spans_next {place k : Nat} (hspans : start.Spans 4 place) (hk : k < 16) :
    ¬ (start.next (k + 1)).Spans 4 place := by
  rw [Spans] at hspans
  rw [Spans, toNat_next]
  have := start.isLt
  omega

end Word

namespace Ram

/-- A word of memory is what its bytes are. -/
theorem word?_congr {ram ram' : Ram} {addr : Word} (hwindow : ram'.window = ram.window)
    (hbytes : ∀ j, addr.Spans 4 (ram.base.toNat + j) → ram'.byteAt j = ram.byteAt j) :
    ram'.word? addr = ram.word? addr := by
  rw [word?, word?, load?, load?, offset?_congr hwindow]
  cases hi : ram.offset? addr 4 with
  | none => rfl
  | some i =>
      obtain ⟨haddr, -⟩ := offset?_eq_some_iff.1 hi
      have heq : ram'.bytesAt i 4 = ram.bytesAt i 4 := by
        refine bytesAt_congr fun j hle hlt => hbytes j ?_
        rw [Word.Spans, haddr]
        omega
      simp only [Option.map_some, heq]

/-- A stored word is the word read back. -/
theorem word?_putBytes {ram : Ram} {addr : Word} {i : Nat} (hi : ram.offset? addr 4 = some i)
    (value : Word) : (ram.putBytes i value.bytes).word? addr = some value := by
  have hoffset : (ram.putBytes i value.bytes).offset? addr 4 = some i := by
    rw [offset?_eq_some_iff] at hi ⊢
    simpa using hi
  have hbytes := ram.bytesAt_putBytes i value.bytes
  rw [Word.length_bytes] at hbytes
  rw [word?, load?, hoffset, Option.map_some, hbytes, Option.map_some, Word.ofBytes_bytes]

end Ram

/-- No device is found at an address that none claims. -/
theorem Dispatcher.find?_of_claims {mmio : Dispatcher ω} {addr : Word}
    (h : mmio.claims addr = false) : mmio.find? addr = none := by
  rw [claims] at h
  rw [find?, List.find?_eq_none]
  simpa using h

namespace Bus

/-- Whether the words from an address on lie in memory, none of them taken by a device. -/
structure HasWords (bus : Bus ω) (start : Word) (n : Nat) : Prop where
  contains : ∀ k < n, bus.ram.contains (start.next k) 4 = true
  claims : ∀ k < n, bus.mmio.claims (start.next k) = false

theorem HasWords.tail {bus : Bus ω} {start : Word} {n : Nat} (h : bus.HasWords start (n + 1)) :
    bus.HasWords (start + 4) n where
  contains k hk := start.next_succ k ▸ h.contains (k + 1) (by omega)
  claims k hk := start.next_succ k ▸ h.claims (k + 1) (by omega)

theorem HasWords.congr {bus bus' : Bus ω} {start : Word} {n : Nat} (h : bus.HasWords start n)
    (hwindow : bus'.ram.window = bus.ram.window) (hmmio : bus'.mmio = bus.mmio) :
    bus'.HasWords start n where
  contains k hk := (Ram.contains_congr hwindow _ _).trans (h.contains k hk)
  claims k hk := hmmio ▸ h.claims k hk

/-- Writing a word that lies in memory. -/
theorem exists_write32 {bus : Bus ω} {addr : Word} (h : bus.HasWords addr 1) (value : Word) :
    ∃ bus', write32 addr value bus = .ok () bus' ∧ bus'.mmio = bus.mmio ∧
      bus'.ram.window = bus.ram.window ∧ bus'.ram.word? addr = some value ∧
      ∀ j, ¬ addr.Spans 4 (bus.ram.base.toNat + j) → bus'.ram.byteAt j = bus.ram.byteAt j := by
  have hfind : bus.mmio.find? addr = none :=
    Dispatcher.find?_of_claims (by simpa using h.claims 0)
  obtain ⟨i, hi⟩ : ∃ i, bus.ram.offset? addr 4 = some i :=
    Option.isSome_iff_exists.1 (by simpa [Ram.contains] using h.contains 0)
  have hput : putWord addr value bus =
      .ok () { bus with ram := bus.ram.putBytes i value.bytes } := by
    rw [putWord_eq, hfind, Ram.storeWord?, Ram.store?, Word.length_bytes, hi]
    rfl
  have hwrite : write32 addr value bus = .ok ()
      (notify { bus with ram := bus.ram.putBytes i value.bytes } addr value) := by
    rw [write32, Access.bind_of_eq_ok hput]
    rfl
  have hperform : (Request.write .word addr value).perform bus = .ok 0
      (notify { bus with ram := bus.ram.putBytes i value.bytes } addr value) := by
    rw [Request.perform, Access.bind_of_eq_ok hwrite]
    rfl
  obtain ⟨hwindow, hbytes⟩ := footprint_of_perform hperform
  exact ⟨_, hwrite, rfl, hwindow, Ram.word?_putBytes hi value, hbytes⟩

/-- The values of a list of registers are written to consecutive words, and nothing else. -/
theorem exists_writeList {bus : Bus ω} {start : Word} {list : List Reg} (hlength : list.length ≤ 16)
    (h : bus.HasWords start list.length) (value : Reg → Word) :
    ∃ bus', writeList value start list bus = .ok () bus' ∧ bus'.mmio = bus.mmio ∧
      bus'.ram.window = bus.ram.window ∧
      (∀ k (hk : k < list.length), bus'.ram.word? (start.next k) = some (value list[k])) ∧
      ∀ j, (∀ k < list.length, ¬ (start.next k).Spans 4 (bus.ram.base.toNat + j)) →
        bus'.ram.byteAt j = bus.ram.byteAt j := by
  induction list generalizing start bus with
  | nil => exact ⟨bus, rfl, rfl, rfl, by simp, fun _ _ => rfl⟩
  | cons r list ih =>
      rw [List.length_cons] at h hlength
      have hhead : bus.HasWords start 1 :=
        ⟨fun k hk => h.contains k (by omega), fun k hk => h.claims k (by omega)⟩
      obtain ⟨between, hwrite, hmmio, hwindow, hword, hbytes⟩ := exists_write32 hhead (value r)
      obtain ⟨last, hrest, hmmio', hwindow', hwords, hbytes'⟩ :=
        ih (by omega) (h.tail.congr hwindow hmmio)
      have hbase : between.ram.base = bus.ram.base := congrArg Prod.fst hwindow
      rw [hbase] at hbytes'
      simp only [← Word.next_succ] at hwords hbytes'
      refine ⟨last, ?_, hmmio'.trans hmmio, hwindow'.trans hwindow, ?_, ?_⟩
      · rw [writeList, Access.bind_of_eq_ok hwrite, hrest]
      · intro k hk
        cases k with
        | zero =>
            -- the words behind leave the first one alone
            rw [Word.next_zero, Ram.word?_congr hwindow', hword]
            · rfl
            · intro j hj
              rw [hbase] at hj
              exact hbytes' j fun k hk => start.not_spans_next hj (by omega)
        | succ k => exact hwords k (by simpa using hk)
      · intro j hj
        rw [hbytes' j fun k hk => hj (k + 1) (by simpa using hk)]
        exact hbytes j (by simpa using hj 0 (by simp))

/-- A list of registers is read from the words that hold its values. -/
theorem readList_of_words {bus : Bus ω} {start : Word} {list : List Reg} {value : Reg → Word}
    (h : bus.HasWords start list.length)
    (hwords : ∀ k (hk : k < list.length), bus.ram.word? (start.next k) = some (value list[k])) :
    readList start list bus = .ok (list.map fun r => (r, value r)) bus := by
  induction list generalizing start with
  | nil => rfl
  | cons r list ih =>
      have hfind : bus.mmio.find? start = none :=
        Dispatcher.find?_of_claims (by simpa using h.claims 0 (by simp))
      have hword := hwords 0 (by simp)
      rw [Word.next_zero] at hword
      have hread : read32 start bus = .ok (value r) bus := read32_of_word? hfind hword
      have hrest : readList (start + 4) list bus = .ok (list.map fun r => (r, value r)) bus := by
        refine ih h.tail fun k hk => ?_
        rw [← Word.next_succ]
        exact hwords (k + 1) (by simpa using hk)
      rw [readList, Access.bind_of_eq_ok hread, Access.bind_of_eq_ok hrest]
      rfl

end Bus

/-! ## Registers -/

/-- The listed registers stand in ascending order. -/
theorem RegList.pairwise_toList (list : RegList) :
    list.toList.Pairwise fun r s => r.index < s.index := by
  have hall : Reg.all.toList.Pairwise fun r s => r.index < s.index := by decide
  exact hall.filter _

/-- No more registers are listed than there are. -/
theorem RegList.count_le (list : RegList) : list.count ≤ 16 :=
  List.length_filter_le ..

/-- Setting registers to values of their own is not seen elsewhere. -/
theorem Cpu.eqOutside_setList (list : List Reg) (value : Reg → Word) (cpu : Cpu) :
    (cpu.setList (list.map fun r => (r, value r))).EqOutside list cpu :=
  (EqOutside.refl list cpu).setList (by simp)

/-- A register that is set to a value of its own reads as that value. -/
theorem Cpu.reg_setList {list : List Reg} (hpc : .pc ∉ list) (value : Reg → Word) {r : Reg}
    (hr : r ∈ list) (cpu : Cpu) :
    (cpu.setList (list.map fun r => (r, value r))).reg r = value r := by
  induction list generalizing cpu with
  | nil => cases hr
  | cons s list ih =>
      obtain ⟨hs, hlist⟩ := List.ne_and_not_mem_of_not_mem_cons hpc
      rw [List.map_cons, setList, List.foldl_cons]
      dsimp only
      rw [if_neg (Ne.symm hs)]
      by_cases hmem : r ∈ list
      · exact ih hlist hmem _
      · obtain rfl := (List.mem_cons.1 hr).resolve_right hmem
        exact ((eqOutside_setList list value _).reg r hmem).trans (reg_setReg_self ..)

/-! ## Addresses of a multiple transfer -/

namespace MultiTransfer

/-- The transfer that goes the other way: a load for a store, downward for upward, and the
base moved on the other side of each word. -/
def inverse (m : MultiTransfer) : MultiTransfer :=
  { m with load := !m.load, preIndex := !m.preIndex, add := !m.add }

@[simp]
theorem inverse_load (m : MultiTransfer) : m.inverse.load = !m.load := rfl

@[simp]
theorem inverse_writeback (m : MultiTransfer) : m.inverse.writeback = m.writeback := rfl

@[simp]
theorem inverse_rn (m : MultiTransfer) : m.inverse.rn = m.rn := rfl

@[simp]
theorem inverse_list (m : MultiTransfer) : m.inverse.list = m.list := rfl

@[simp]
theorem inverse_byteCount (m : MultiTransfer) : m.inverse.byteCount = m.byteCount := rfl

/-- The address of a listed register, counted from the lowest, for a given base.  The word
nearest to the base is that of the lowest register upward and of the highest downward; it
lies at the base, or one word away if the base moves first. -/
def wordAddress (m : MultiTransfer) (base : Word) (k : Nat) : Word :=
  let gap := if m.preIndex then 1 else 0
  if m.add then base + BitVec.ofNat 32 (4 * (gap + k))
  else base - BitVec.ofNat 32 (4 * (gap + (m.list.count - 1 - k)))

variable (m : MultiTransfer) (base : Word)

/-- The words of a transfer are consecutive, on the side of the base where they belong. -/
theorem next_startAddress {k : Nat} (hk : k < m.list.count) :
    (m.startAddress base).next k = m.wordAddress base k := by
  have hcount := m.list.count_le
  rw [Word.next, startAddress, wordAddress, byteCount]
  cases m.preIndex <;> cases m.add <;> simp only [Bool.false_eq_true, if_true, if_false] <;>
    bv_omega

@[simp]
theorem startAddress_inverse : m.inverse.startAddress (m.finalBase base) = m.startAddress base := by
  rw [startAddress, startAddress, finalBase, inverse_byteCount, inverse]
  cases m.preIndex <;> cases m.add <;>
    simp only [Bool.not_true, Bool.not_false, Bool.false_eq_true, if_true, if_false,
      BitVec.add_sub_cancel]

@[simp]
theorem finalBase_inverse : m.inverse.finalBase (m.finalBase base) = base := by
  rw [finalBase, finalBase, inverse_byteCount, inverse]
  cases m.add
  · exact BitVec.sub_add_cancel ..
  · exact BitVec.add_sub_cancel ..

/-! ## The store and the load -/

/-- What a multiple store leaves behind: its base behind the words, and each listed register
in its word, with the rest of the processor and of memory as it was. -/
structure Stored (m : MultiTransfer) (cpu : Cpu) (bus : Bus ω) (cpu' : Cpu) (bus' : Bus ω) :
    Prop where
  base : cpu'.reg m.rn = m.finalBase (cpu.reg m.rn)
  kept : cpu'.EqOutside [.pc, m.rn] cpu
  words : ∀ k r, m.list.toList[k]? = some r →
    bus'.ram.word? (m.wordAddress (cpu.reg m.rn) k) = some (cpu.reg r)
  window : bus'.ram.window = bus.ram.window
  mmio : bus'.mmio = bus.mmio
  bytes : ∀ j,
    (∀ k < m.list.count,
      ¬ (m.wordAddress (cpu.reg m.rn) k).Spans 4 (bus.ram.base.toNat + j)) →
    bus'.ram.byteAt j = bus.ram.byteAt j

section

variable {m : MultiTransfer} {cpu cpu₁ cpu₂ : Cpu} {bus bus₁ : Bus ω}

/-- The new base, if it is not the program counter. -/
theorem writeBack_of_ne (hwriteback : m.writeback = true) (hbase : m.rn ≠ .pc) (addr : Word)
    (cpu : Cpu) : m.writeBack addr cpu = cpu.setReg m.rn (m.finalBase (cpu.reg m.rn)) := by
  rw [writeBack, if_pos hwriteback, Cpu.readAt_of_ne hbase]

/-- With another base than the program counter a transfer goes on behind itself. -/
theorem proceed_of_ne (hbase : m.rn ≠ .pc) (addr : Word) (cpu : Cpu) :
    m.proceed addr cpu = cpu.advance addr :=
  if_neg (by simp [hbase])

/-- A load that leaves the program counter alone updates the base and sets the listed
registers. -/
theorem afterLoad_of_ne {values : List (Reg × Word)} (hbase : m.rn ≠ .pc)
    (hpc : .pc ∉ values.map Prod.fst) (addr : Word) (cpu : Cpu) :
    m.afterLoad addr cpu values = ((m.writeBack addr cpu).setList values).advance addr := by
  rw [afterLoad, lookup_eq_none_of_notMem hpc]
  exact proceed_of_ne hbase addr _

/-- A multiple store succeeds if its words lie in memory. -/
theorem exists_stored (hstore : m.load = false) (hwriteback : m.writeback = true)
    (hpc : m.list.has .pc = false) (hbase : m.rn ≠ .pc)
    (hwords : bus.HasWords (m.startAddress (cpu.reg m.rn)) m.list.count) (addr : Word) :
    ∃ cpu' bus', m.execute addr cpu bus = .ok cpu' bus' ∧ m.Stored cpu bus cpu' bus' := by
  have hread : cpu.readAt addr m.rn = cpu.reg m.rn := cpu.readAt_of_ne hbase addr
  obtain ⟨bus', hwrite, hmmio, hwindow, hvalues, hbytes⟩ :=
    Bus.exists_writeList m.list.count_le hwords (cpu.readAt addr)
  refine ⟨(cpu.setReg m.rn (m.finalBase (cpu.reg m.rn))).advance addr, bus', ?_, ?_, ?_, ?_,
    hwindow, hmmio, ?_⟩
  · rw [execute, hstore, hread, if_neg Bool.false_ne_true, Access.bind_of_eq_ok hwrite,
      proceed_of_ne hbase, writeBack_of_ne hwriteback hbase]
    rfl
  · exact (Cpu.reg_setPc_of_ne _ hbase _).trans (Cpu.reg_setReg_self ..)
  · exact (Cpu.EqOutside.setReg (by simp) cpu _).setReg_of (by simp) _
  · intro k r hr
    obtain ⟨hk, rfl⟩ := List.getElem?_eq_some_iff.1 hr
    have hne : m.list.toList[k] ≠ .pc := by
      intro heq
      have hmem := RegList.mem_toList.1 (List.getElem_mem hk)
      simp [heq, hpc] at hmem
    rw [← m.next_startAddress _ hk, hvalues k hk, Cpu.readAt_of_ne hne]
  · intro j hj
    exact hbytes j fun k hk => m.next_startAddress _ hk ▸ hj k hk

/-- The load that goes the other way takes everything back. -/
theorem exists_restored (hstore : m.load = false) (hwriteback : m.writeback = true)
    (hpc : m.list.has .pc = false) (hrn : m.list.has m.rn = false) (hbase : m.rn ≠ .pc)
    (hwords : bus.HasWords (m.startAddress (cpu.reg m.rn)) m.list.count)
    (hstored : m.Stored cpu bus cpu₁ bus₁)
    (hchanged : cpu₂.EqOutside (.pc :: m.list.toList) cpu₁) (addr : Word) :
    ∃ cpu₃, m.inverse.execute addr cpu₂ bus₁ = .ok cpu₃ bus₁ ∧ cpu₃.EqOffPc cpu := by
  have hpc' : .pc ∉ m.list.toList := by simp [hpc]
  have hmoved : cpu₂.reg m.rn = m.finalBase (cpu.reg m.rn) := by
    rw [hchanged.reg _ (by simp [hbase, hrn]), hstored.base]
  have hread : cpu₂.readAt addr m.rn = m.finalBase (cpu.reg m.rn) := by
    rw [Cpu.readAt_of_ne hbase, hmoved]
  -- the load starts where the store did, and gives back the base that it started from
  have hvalues : readList (m.startAddress (cpu.reg m.rn)) m.list.toList bus₁ =
      .ok (m.list.toList.map fun r => (r, cpu.reg r)) bus₁ :=
    Bus.readList_of_words (hwords.congr hstored.window hstored.mmio) fun k hk => by
      rw [next_startAddress m _ hk, hstored.words k _ (List.getElem?_eq_getElem hk)]
  have hback : m.inverse.writeBack addr cpu₂ = cpu₂.setReg m.rn (cpu.reg m.rn) := by
    rw [writeBack_of_ne (by simpa using hwriteback) (by simpa using hbase), inverse_rn, hmoved,
      finalBase_inverse]
  refine ⟨((cpu₂.setReg m.rn (cpu.reg m.rn)).setList
    (m.list.toList.map fun r => (r, cpu.reg r))).advance addr, ?_, ?_⟩
  · rw [execute, inverse_load, hstore, inverse_rn, inverse_list, hread, startAddress_inverse,
      Bool.not_false, if_pos rfl, Access.bind_of_eq_ok hvalues,
      afterLoad_of_ne (by simpa using hbase) (by simpa [Function.comp_def] using hpc), hback]
    rfl
  · have hset := Cpu.eqOutside_setList m.list.toList cpu.reg (cpu₂.setReg m.rn (cpu.reg m.rn))
    refine (Cpu.EqOffPc.setPc _ _).trans ⟨fun r hr => ?_, ?_, ?_⟩
    · by_cases hmem : r ∈ m.list.toList
      · exact Cpu.reg_setList hpc' cpu.reg hmem _
      · rw [hset.reg r hmem, Cpu.reg_setReg]
        by_cases heq : m.rn = r
        · rw [if_pos heq, heq]
        · rw [if_neg heq, hchanged.reg r (by simpa [hr] using hmem),
            hstored.kept.reg r (by simpa [hr] using Ne.symm heq)]
    · exact hset.cpsr.trans (hchanged.cpsr.trans hstored.kept.cpsr)
    · exact hset.spsr.trans (hchanged.spsr.trans hstored.kept.spsr)

end

end MultiTransfer

namespace Instruction

/-- An instruction that transfers a list of registers. -/
theorem execute_multiTransfer {cond : Cond} {cpu : Cpu} (hpasses : cond.passes cpu.cpsr = true)
    {m : MultiTransfer} {addr : Word} {bus bus' : Bus ω} {cpu' : Cpu}
    (h : m.execute addr cpu bus = .ok cpu' bus') (word : Word) :
    (⟨cond, .multiTransfer m⟩ : Instruction).execute addr word cpu bus =
      .ok (.executed, cpu') bus' := by
  rw [execute, if_pos hpasses]
  exact Access.bind_of_eq_ok h

/-- A multiple store with write-back puts the listed registers in ascending order into the
words on its side of the base, and nothing else into memory.  However the registers change
after that, the load that goes the other way gives them and the base their values back. -/
theorem store_load_restores {m : MultiTransfer} (hstore : m.load = false)
    (hwriteback : m.writeback = true) (hpc : m.list.has .pc = false)
    (hrn : m.list.has m.rn = false) (hbase : m.rn ≠ .pc) {cond cond' : Cond} {cpu : Cpu}
    (hpasses : cond.passes cpu.cpsr = true) (hpasses' : cond'.passes cpu.cpsr = true)
    {bus : Bus ω}
    (hram : ∀ k < m.list.count, bus.ram.contains (m.wordAddress (cpu.reg m.rn) k) 4 = true)
    (hclaims : ∀ k < m.list.count, bus.mmio.claims (m.wordAddress (cpu.reg m.rn) k) = false)
    (addr word : Word) :
    m.list.toList.Pairwise (fun r s => r.index < s.index) ∧
      ∃ cpu₁ bus₁, (⟨cond, .multiTransfer m⟩ : Instruction).execute addr word cpu bus =
          .ok (.executed, cpu₁) bus₁ ∧
        m.Stored cpu bus cpu₁ bus₁ ∧
        ∀ cpu₂, cpu₂.EqOutside (.pc :: m.list.toList) cpu₁ → ∀ addr' word',
          ∃ cpu₃, (⟨cond', .multiTransfer m.inverse⟩ : Instruction).execute addr' word' cpu₂ bus₁ =
              .ok (.executed, cpu₃) bus₁ ∧
            cpu₃.EqOffPc cpu := by
  have hwords : bus.HasWords (m.startAddress (cpu.reg m.rn)) m.list.count :=
    ⟨fun k hk => m.next_startAddress _ hk ▸ hram k hk,
      fun k hk => m.next_startAddress _ hk ▸ hclaims k hk⟩
  obtain ⟨cpu₁, bus₁, hexecute, hstored⟩ :=
    MultiTransfer.exists_stored hstore hwriteback hpc hbase hwords addr
  refine ⟨m.list.pairwise_toList, cpu₁, bus₁, execute_multiTransfer hpasses hexecute word, hstored,
    fun cpu₂ hchanged addr' word' => ?_⟩
  obtain ⟨cpu₃, hexecute', hrestored⟩ :=
    MultiTransfer.exists_restored hstore hwriteback hpc hrn hbase hwords hstored hchanged addr'
  have hcpsr : cpu₂.cpsr = cpu.cpsr := hchanged.cpsr.trans hstored.kept.cpsr
  exact ⟨cpu₃, execute_multiTransfer (hcpsr ▸ hpasses') hexecute' word', hrestored⟩

/-- Two registers are pushed at the end of memory, cleared and popped. -/
theorem store_load_restores_stack :
    let m : MultiTransfer := ⟨false, true, false, true, false, .sp, 0x4002⟩
    let cpu := ((Cpu.initial.setReg .r1 5).setReg .lr 7).setReg .sp 0x20
    let bus := Bus.ofRam (.zeroed 0 0x20) ()
    decode 0xe92d4002 = ⟨.al, .multiTransfer m⟩ ∧
      decode 0xe8bd4002 = ⟨.al, .multiTransfer m.inverse⟩ ∧
      ∃ cpu₁ bus₁ cpu₃,
        (decode 0xe92d4002).execute 0x8000 0xe92d4002 cpu bus = .ok (.executed, cpu₁) bus₁ ∧
        bus₁.ram.word? 0x18 = some 5 ∧ bus₁.ram.word? 0x1c = some 7 ∧ cpu₁.reg .sp = 0x18 ∧
        (decode 0xe8bd4002).execute 0x8004 0xe8bd4002 ((cpu₁.setReg .r1 0).setReg .lr 0) bus₁ =
          .ok (.executed, cpu₃) bus₁ ∧
        cpu₃.reg .r1 = 5 ∧ cpu₃.reg .lr = 7 ∧ cpu₃.reg .sp = 0x20 := by
  intro m cpu bus
  have hstore : decode 0xe92d4002 = ⟨.al, .multiTransfer m⟩ := by decide
  have hload : decode 0xe8bd4002 = ⟨.al, .multiTransfer m.inverse⟩ := by decide
  have hpasses : Cond.al.passes cpu.cpsr = true := by decide
  have hram : ∀ k < m.list.count,
      bus.ram.contains (m.wordAddress (cpu.reg m.rn) k) 4 = true := by decide
  obtain ⟨-, cpu₁, bus₁, hexecute, hstored, hrestores⟩ := store_load_restores (m := m)
    rfl rfl (by decide) (by decide) (by decide) hpasses hpasses hram (by decide) 0x8000 0xe92d4002
  obtain ⟨cpu₃, hexecute', hrestored⟩ := hrestores ((cpu₁.setReg .r1 0).setReg .lr 0)
    ((Cpu.EqOutside.setReg (by decide) _ _).trans (.setReg (by decide) _ _)) 0x8004 0xe8bd4002
  have hlow : m.wordAddress (cpu.reg m.rn) 0 = 0x18 := by decide
  have hhigh : m.wordAddress (cpu.reg m.rn) 1 = 0x1c := by decide
  have hmoved : m.finalBase (cpu.reg m.rn) = 0x18 := by decide
  exact ⟨hstore, hload, cpu₁, bus₁, cpu₃, hstore ▸ hexecute, hlow ▸ hstored.words 0 .r1 (by decide),
    hhigh ▸ hstored.words 1 .lr (by decide), hmoved ▸ hstored.base, hload ▸ hexecute',
    hrestored.reg .r1 (by decide), hrestored.reg .lr (by decide), hrestored.reg .sp (by decide)⟩

/-- With the program counter as the base the load starts elsewhere: both instructions read it
as an address ahead of their own. -/
theorem store_load_pc :
    let m : MultiTransfer := ⟨false, false, true, true, false, .pc, 0x0003⟩
    let cpu := ((Cpu.initial.setReg .r0 0x11111111).setReg .r1 0x22222222).setPc 0x100
    let bus := Bus.ofRam (.zeroed 0 0x200) ()
    (∀ k < m.list.count, bus.ram.contains (m.wordAddress (cpu.readAt cpu.pc .pc) k) 4 = true ∧
        bus.mmio.claims (m.wordAddress (cpu.readAt cpu.pc .pc) k) = false) ∧
      decode 0xe8af0003 = ⟨.al, .multiTransfer m⟩ ∧
      decode 0xe93f0003 = ⟨.al, .multiTransfer m.inverse⟩ ∧
      ∃ cpu₁ bus₁ cpu₃ bus₃,
        (decode 0xe8af0003).execute cpu.pc 0xe8af0003 cpu bus = .ok (.executed, cpu₁) bus₁ ∧
        (decode 0xe93f0003).execute cpu₁.pc 0xe93f0003 cpu₁ bus₁ = .ok (.executed, cpu₃) bus₃ ∧
        cpu₃.reg .r0 ≠ cpu.reg .r0 ∧ cpu₃.pc ≠ cpu.pc :=
  ⟨by decide, by decide, by decide, _, _, _, _, rfl, rfl, by decide, by decide⟩

end Instruction

end ArmEmulator
