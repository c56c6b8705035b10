import ArmEmulator.Proofs.Emulator.Atomicity
import ArmEmulator.Proofs.Emulator.Faults
import ArmEmulator.Proofs.Translator.Layout

/-!
# Addresses of reported faults

A block stops at the first of its accesses that a device refuses, and reports the reason the
device gave together with an address.  Which address depends on who makes the access: the
helpers for loads and stores report where the access goes, while the interpreter, which a
block calls for transfers without host code, reports where the instruction is.

Main results:

- Theorem {lit}`Block.exists_refusedAt_of_executeAll`: instructions fault in an access that
  a device refuses.
- Theorem {lit}`Translator.execute_reports`: the address that a block reports, for each of
  its accesses that may be refused.
-/

namespace ArmEmulator

open Block (Fetched executeAll)

variable {ω : Type}

/-! ## Refused accesses -/

namespace Block

/-- Interpreting fetched instructions one after another comes to an access that is refused.
The instructions before {lit}`f` succeed, the requests of {lit}`f` before {lit}`request` are
served, and the device at the address of that one panics. -/
inductive RefusedAt (instrs : List Fetched) (cpu : Cpu) (bus : Bus ω) (f : Fetched)
    (request : Bus.Request ω) (fault : Fault) : Bus ω → Prop
  | intro {k j count : Nat} {cpu' : Cpu} {before between : Bus ω} {answers : List Word}
      {devices : ω} (hinstr : instrs[k]? = some f)
      (hbefore : executeAll (instrs.take k) cpu bus = .ok (count, cpu') before)
      (hrequest : (f.requests cpu')[j]? = some request)
      (hserved : ((f.requests cpu').take j).mapM Bus.Request.perform before =
        .ok answers between)
      (hrefuses : between.Refuses fault devices request) :
      RefusedAt instrs cpu bus f request fault { between with devices }

section RefusedAt

variable {instrs : List Fetched} {cpu : Cpu} {bus bus' : Bus ω} {f : Fetched}
  {request : Bus.Request ω} {fault : Fault}

/-- An access is refused where the requests of its instruction stop. -/
theorem refusedAt_iff_stopsAt :
    RefusedAt instrs cpu bus f request fault bus' ↔
      ∃ k j count cpu' before, instrs[k]? = some f ∧
        executeAll (instrs.take k) cpu bus = .ok (count, cpu') before ∧
        Bus.StopsAt (f.requests cpu') before j request fault bus' := by
  constructor
  · rintro ⟨hinstr, hbefore, hrequest, hserved, hrefuses⟩
    exact ⟨_, _, _, _, _, hinstr, hbefore,
      Bus.stopsAt_iff_refuses.2 ⟨hrequest, _, _, _, hserved, hrefuses, rfl⟩⟩
  · rintro ⟨k, j, count, cpu', before, hinstr, hbefore, hstops⟩
    obtain ⟨hrequest, answers, between, devices, hserved, hrefuses, rfl⟩ :=
      Bus.stopsAt_iff_refuses.1 hstops
    exact .intro hinstr hbefore hrequest hserved hrefuses

/-- Instructions that fault do so in an access that a device refuses. -/
theorem exists_refusedAt_of_executeAll (h : executeAll instrs cpu bus = .error fault bus') :
    ∃ f request place width, RefusedAt instrs cpu bus f request fault bus' ∧
      request.access? = some (place, width) := by
  obtain ⟨k, f, cpu', hinstr, count, before, hbefore, hfault⟩ := exists_faultsAt_of_executeAll h
  obtain ⟨j, request, place, width, hstops, hplace⟩ := Fetched.exists_stopsAt hfault
  exact ⟨f, request, place, width,
    refusedAt_iff_stopsAt.2 ⟨k, j, count, cpu', before, hinstr, hbefore, hstops⟩, hplace⟩

end RefusedAt

/-- The address of an access is reported if host code makes the access, or else if the
instruction accesses itself. -/
theorem Fetched.reported_eq_iff (f : Fetched) (place : Word) :
    f.reported place = place ↔
      accessSupported (Instruction.decode f.word).op = true ∨ f.addr = place := by
  unfold reported
  by_cases h : accessSupported (Instruction.decode f.word).op = true
  · simp [h]
  · simp [h]

end Block

open Block (RefusedAt accessSupported)

/-! ## Running a block -/

namespace Translator

variable [Block.HelperTable]

section Execute

variable {t : Translator} {ram : Ram} {start : Word} {block : TranslatedBlock}
  (hblock : t.blocks[start]? = some block) (hfaithful : t.Faithful ram start block)
  (hexecutable : t.cache.executable = true) {cpu : Cpu} {bus bus' : Bus ω}
include hblock hfaithful hexecutable

/-- A block reports the access that is refused. -/
theorem execute_of_refusedAt {f : Fetched} {request : Bus.Request ω} {fault : Fault}
    (h : RefusedAt (fetchBlock ram t.maxBlockLength start) cpu bus f request fault bus')
    {place : Word} {width : Bus.Width} (hplace : request.access? = some (place, width)) :
    ∃ last, t.execute start cpu bus =
      (.error (.fault (f.reported place) fault.reason), last, bus') := by
  obtain ⟨k, j, count, cpu', before, hinstr, hbefore, hstops⟩ :=
    Block.refusedAt_iff_stopsAt.1 h
  obtain ⟨last, hrun, -⟩ := execute_of_fault hblock hfaithful hexecutable
    (Block.eq_take_append hinstr) hbefore hstops hplace
  exact ⟨last, hrun⟩

/-- A block fails in an access that is refused only. -/
theorem exists_refusedAt_of_execute {err : ExecError} {last : Cpu}
    (h : t.execute start cpu bus = (.error err, last, bus')) :
    ∃ f request fault place width,
      RefusedAt (fetchBlock ram t.maxBlockLength start) cpu bus f request fault bus' ∧
      request.access? = some (place, width) ∧
      err = .fault (f.reported place) fault.reason := by
  obtain ⟨fault, hall⟩ := exists_fault_of_execute hblock hfaithful hexecutable h
  obtain ⟨f, request, place, width, hrefused, hplace⟩ := Block.exists_refusedAt_of_executeAll hall
  obtain ⟨last', hrun⟩ := execute_of_refusedAt hblock hfaithful hexecutable hrefused hplace
  cases h.symm.trans hrun
  exact ⟨f, request, fault, place, width, hrefused, hplace, rfl⟩

end Execute

/-- Whatever calls a translator has seen, a block that it holds can only fail in an access
that a device refuses.  It then reports the reason of the device, at the address of the
access if host code makes it, and else at the address of the instruction.  So the address is
that of the access exactly for the transfers with host code, and for those that access
themselves. -/
theorem execute_reports {c : Configuration} {t : Translator} (h : Reached c t)
    (hexecutable : t.cache.executable = true) {start : Word} {block : TranslatedBlock}
    (hblock : t.blocks[start]? = some block) :
    (∃ ram, t.Faithful ram start block) ∧
      ∀ ram, t.Faithful ram start block → ∀ cpu (bus bus' : Bus ω),
        (∀ f request fault place width,
          RefusedAt (fetchBlock ram t.maxBlockLength start) cpu bus f request fault bus' →
          request.access? = some (place, width) →
            (∃ last, t.execute start cpu bus =
              (.error (.fault (f.reported place) fault.reason), last, bus')) ∧
            (f.reported place = place ↔
              accessSupported (Instruction.decode f.word).op = true ∨ f.addr = place)) ∧
        ∀ err last, t.execute start cpu bus = (.error err, last, bus') →
          ∃ f request fault place width,
            RefusedAt (fetchBlock ram t.maxBlockLength start) cpu bus f request fault bus' ∧
            request.access? = some (place, width) ∧
            err = .fault (f.reported place) fault.reason := by
  refine ⟨h.laid.faithful start block hblock, fun ram hfaithful cpu bus bus' => ⟨?_, ?_⟩⟩
  · intro f request fault place width hrefused hplace
    exact ⟨execute_of_refusedAt hblock hfaithful hexecutable hrefused hplace,
      f.reported_eq_iff place⟩
  · intro err last hrun
    exact exists_refusedAt_of_execute hblock hfaithful hexecutable hrun

end Translator

/-! ## Two loads from a device -/

namespace Translator

attribute [local instance] Block.threeTable

/-- Memory of two loads: one into a register, and behind it one into the program counter. -/
def twoLoads : Ram :=
  ((Ram.zeroed 0 8).putBytes 0 (Word.bytes 0xe5920000)).putBytes 4 (Word.bytes 0xe591f000)

/-- The two loads translated. -/
def loading : Translator :=
  (fresh.appended twoLoads 0).finalize

/-- The block of the two loads. -/
def loadingBlock : TranslatedBlock :=
  blockOf 0 (fetchBlock twoLoads fresh.maxBlockLength 0) fresh.cache.size

/-- A bus with a device that panics over every load from a word. -/
def burning : Bus Unit :=
  (Bus.ofRam twoLoads ()).register
    ⟨"exploding", ⟨0x2000, 0x2003⟩, 0, ⟨fun _ => throw ⟨"device on fire"⟩, fun _ _ => pure ()⟩⟩

theorem reached_loading : Reached .default loading := by
  have hfits : (blockBytes (fetchBlock twoLoads fresh.maxBlockLength 0)).length ≤
      fresh.cache.capacity - fresh.cache.size := by
    rw [Host.Code.length_of_encode? (encode?_blockCode _)]
    decide
  have hcall : fresh.translateBlock twoLoads 0 = .ok (loadingBlock, fresh.appended twoLoads 0) :=
    translateBlock_of_fits rfl Std.TreeMap.getElem?_emptyc (by decide) hfits
  exact (Reached.create.translated (translateInPlace_eq_ok_iff.2 hcall)).finalize

theorem blocks_loading : loading.blocks[(0 : Word)]? = some loadingBlock :=
  (getElem?_blocks_appended fresh twoLoads 0 0).trans (if_pos rfl)

theorem faithful_loading : loading.Faithful twoLoads 0 loadingBlock :=
  (faithful_appended (by decide)).finalize

/-- With the address of the device in its base, each of the loads is refused: the first one
at once, the second one after the first one has read memory. -/
theorem refusedAt_loading :
    RefusedAt (fetchBlock twoLoads loading.maxBlockLength 0) ((Cpu.reset 0 0).setReg .r2 0x2000)
        burning ⟨0, 0xe5920000⟩ (.read .word 0x2000) ⟨"device on fire"⟩ burning ∧
      RefusedAt (fetchBlock twoLoads loading.maxBlockLength 0) ((Cpu.reset 0 0).setReg .r1 0x2000)
        burning ⟨4, 0xe591f000⟩ (.read .word 0x2000) ⟨"device on fire"⟩ burning := by
  constructor
  · exact Block.refusedAt_iff_stopsAt.2 ⟨0, 0, 0, _, burning, rfl, rfl, rfl, [], burning, rfl, rfl⟩
  · exact Block.refusedAt_iff_stopsAt.2 ⟨1, 0, 0, _, burning, rfl, rfl, rfl, [], burning, rfl, rfl⟩

/-- A load into a register from a device that panics is reported at the device. -/
theorem execute_reports_loadRegister :
    ∃ last, loading.execute 0 ((Cpu.reset 0 0).setReg .r2 0x2000) burning =
      (.error (.fault 0x2000 "device on fire"), last, burning) := by
  obtain ⟨-, hreports⟩ := execute_reports (ω := Unit) reached_loading rfl blocks_loading
  exact ((hreports twoLoads faithful_loading _ burning burning).1 _ _ _ _ _ refusedAt_loading.1
    rfl).1

/-- A load into the program counter from a device that panics is reported at the load. -/
theorem execute_reports_loadPc :
    RefusedAt (fetchBlock twoLoads loading.maxBlockLength 0) ((Cpu.reset 0 0).setReg .r1 0x2000)
        burning ⟨4, 0xe591f000⟩ (.read .word 0x2000) ⟨"device on fire"⟩ burning ∧
      ∃ last, loading.execute 0 ((Cpu.reset 0 0).setReg .r1 0x2000) burning =
        (.error (.fault 4 "device on fire"), last, burning) :=
  ⟨refusedAt_loading.2,
    execute_of_refusedAt blocks_loading faithful_loading rfl refusedAt_loading.2 rfl⟩

end Translator

end ArmEmulator
