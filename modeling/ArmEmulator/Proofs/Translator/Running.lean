import ArmEmulator.Proofs.Translator.Regions

/-!
# Running translated blocks

A faithful block in an executable cache does what interpreting its instructions
one after another does, and reports their number and its closing branch to
itself.

Main results:

- Theorem {lit}`Translator.execute_of_ok`: a block whose instructions all succeed.
- Theorem {lit}`Translator.execute_of_fault`: a block one of whose accesses faults, and the
  address that is reported.
-/

namespace ArmEmulator

open Block (Fetched Linked executeAll)

namespace Translator

variable {ω : Type} [Block.HelperTable]

/-- The helpers of the translator are found where blocks call them. -/
theorem linked_helpers : Linked (ω := ω) helpers (Block.linkage helpers) :=
  Block.linked_linkage Block.HelperTable.load_ne_interpret Block.HelperTable.store_ne_interpret
    Block.HelperTable.store_ne_load

section Faithful

variable {t : Translator} {ram : Ram} {start : Word} {block : TranslatedBlock}
  (h : t.Faithful ram start block)
include h

theorem Faithful.code_eq : block.code = blockCode (fetchBlock ram t.maxBlockLength start) := by
  rw [h.block_eq]
  rfl

theorem Faithful.selfLoop?_eq :
    block.selfLoop? = loopMark? (fetchBlock ram t.maxBlockLength start) := by
  rw [h.block_eq]
  rfl

theorem Faithful.size_eq :
    block.size = (blockBytes (fetchBlock ram t.maxBlockLength start)).length := by
  rw [h.block_eq]
  rfl

/-- A block has as many instructions as words were fetched for it, as long as its
counter holds that number. -/
theorem Faithful.instructionCount_of_length_lt
    (hlength : (fetchBlock ram t.maxBlockLength start).length < 0x100000000) :
    block.instructionCount.toNat = (fetchBlock ram t.maxBlockLength start).length := by
  rw [h.block_eq]
  show (BitVec.ofNat 32 (fetchBlock ram t.maxBlockLength start).length).toNat = _
  rw [BitVec.toNat_ofNat, Nat.mod_eq_of_lt hlength]

theorem Faithful.instructionCount_eq (hlength : t.maxBlockLength < 0x100000000) :
    block.instructionCount.toNat = (fetchBlock ram t.maxBlockLength start).length :=
  h.instructionCount_of_length_lt
    (Nat.lt_of_le_of_lt (length_fetchBlock_le ram t.maxBlockLength start) hlength)

/-- The code of a faithful block has an entry point once it is executable. -/
theorem Faithful.entry? (hexecutable : t.cache.executable = true) :
    t.cache.entry? block.entryOffset = some block.entryOffset := by
  have hinside := CodeCache.le_size_of_bytes?_eq_some h.bytes_eq
  have hsize := h.size_eq
  have hpos := blockBytes_pos (fetchBlock ram t.maxBlockLength start)
  unfold CodeCache.entry?
  rw [if_pos ⟨hexecutable, by omega⟩]

end Faithful

/-- A block that is held fits into the empty cache. -/
theorem Ready.length_blockBytes_le {t : Translator} {ram : Ram} {start : Word}
    {block : TranslatedBlock} (h : t.Ready ram) (hblock : t.blocks[start]? = some block) :
    (blockBytes (fetchBlock ram t.maxBlockLength start)).length ≤ t.cache.capacity := by
  have hfaithful := h.faithful start block hblock
  have hsize := hfaithful.size_eq
  have hplaced := CodeCache.le_size_of_bytes?_eq_some hfaithful.bytes_eq
  have hinside := h.inside
  omega

section Execute

variable {t : Translator} {ram : Ram} {pc : Word} {block : TranslatedBlock}
  (hblock : t.blocks[pc]? = some block) (hfaithful : t.Faithful ram pc block)
  (hexecutable : t.cache.executable = true) {cpu : Cpu} {bus bus' : Bus ω}
include hblock hfaithful hexecutable

/-- A block whose instructions all succeed leaves what they leave. -/
theorem execute_of_ok {count : Nat} {cpu' : Cpu}
    (h : executeAll (fetchBlock ram t.maxBlockLength pc) cpu bus = .ok (count, cpu') bus') :
    t.execute pc cpu bus =
      (.ok (some ⟨block.instructionCount.toNat, block.selfLoop?, count⟩), cpu', bus') := by
  have hrun := Block.run?_code_of_ok linked_helpers (closes_fetchBlock hfaithful.fetched) h
  rw [← blockCode, ← hfaithful.code_eq] at hrun
  simp only [execute, hblock, hfaithful.entry? hexecutable, hrun]
  rfl

/-- A block reports the first access of its instructions that faults.  The registers that
the faulting instruction does not write are as before it. -/
theorem execute_of_fault {before after : List Fetched} {f : Fetched}
    (hinstrs : fetchBlock ram t.maxBlockLength pc = before ++ f :: after) {count : Nat}
    {cpu' : Cpu} {between : Bus ω} (hbefore : executeAll before cpu bus = .ok (count, cpu') between)
    {j : Nat} {request : Bus.Request ω} {fault : Fault}
    (hstops : Bus.StopsAt (f.requests cpu') between j request fault bus') {place : Word}
    {width : Bus.Width} (hplace : request.access? = some (place, width)) :
    ∃ last, t.execute pc cpu bus =
        (.error (.fault (f.reported place) fault.reason), last, bus') ∧
      last.EqOutside (.pc :: f.written) cpu' := by
  have hcloses := closes_fetchBlock hfaithful.fetched
  have hcode := hfaithful.code_eq
  rw [blockCode] at hcode
  rw [hinstrs] at hcloses hcode
  obtain ⟨last, hrun, hkept⟩ :=
    Block.run?_code_of_fault linked_helpers hcloses hbefore hstops hplace
  rw [← hcode] at hrun
  refine ⟨last, ?_, hkept⟩
  simp only [execute, hblock, hfaithful.entry? hexecutable, hrun]

/-- A block one of whose instructions faults reports some fault. -/
theorem execute_of_error {fault : Fault}
    (h : executeAll (fetchBlock ram t.maxBlockLength pc) cpu bus = .error fault bus') :
    ∃ addr cpu', t.execute pc cpu bus = (.error (.fault addr fault.reason), cpu', bus') := by
  obtain ⟨before, f, after, count, cpu', between, hinstrs, hbefore, hfault⟩ :=
    Block.exists_fault_of_executeAll h
  obtain ⟨k, request, place, width, hstops, hplace⟩ := Block.Fetched.exists_stopsAt hfault
  obtain ⟨last, hrun, -⟩ := execute_of_fault hblock hfaithful hexecutable hinstrs hbefore hstops
    hplace
  exact ⟨f.reported place, last, hrun⟩

/-- A block fails only because one of its instructions faults. -/
theorem exists_fault_of_execute {err : ExecError} {last : Cpu}
    (h : t.execute pc cpu bus = (.error err, last, bus')) :
    ∃ fault, executeAll (fetchBlock ram t.maxBlockLength pc) cpu bus = .error fault bus' := by
  cases hall : executeAll (fetchBlock ram t.maxBlockLength pc) cpu bus with
  | ok result after =>
      rw [execute_of_ok hblock hfaithful hexecutable hall] at h
      cases h
  | error fault after =>
      obtain ⟨addr, cpu', hrun⟩ := execute_of_error hblock hfaithful hexecutable hall
      rw [hrun] at h
      cases h
      exact ⟨fault, rfl⟩

end Execute

end Translator

end ArmEmulator
