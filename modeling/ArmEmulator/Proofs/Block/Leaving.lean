import ArmEmulator.Proofs.Block.Native
import ArmEmulator.Proofs.Guest.Requests
import ArmEmulator.Proofs.Host.Exits

/-!
# Leaving a block

Translation goes on behind an instruction exactly if the instruction does not write the
program counter.  So the code of such an instruction must not return, the code of any
other must always return, and the interpreter must agree: what does not write the program
counter goes on at the next word.  The one other way out of the code of an instruction is
the jump to the fault exit, which is taken exactly after a helper that reported failure.

Main results:

- Theorem {lit}`exitsTo_translate`: where the paths through the code of an instruction
  end.
- Theorem {lit}`Checked.fault_iff_reports`: when the fault exit is taken.
- Theorem {lit}`writesPc_decides_exits`: the interpreter and the code of an instruction
  agree on whether it ends its block.
-/

namespace ArmEmulator.Block

open Host (Machine Linkage Instr Code Item Label Exit)

open FrameState (loaded)

variable {ω ε : Type}

/-! ## Where paths end -/

/-- Every path through code comes to one end or jumps to the fault exit, and some path
comes to that end. -/
structure ExitsTo (last : Exit) (code : Code) : Prop where
  reached : last ∈ code.exits none
  only : ∀ e ∈ code.exits none, e = last ∨ e = .goesOn (some faultLabel)

namespace ExitsTo

variable {last : Exit} {code body rest : Code} {is : List Instr}

theorem of_eq (h : code.exits none = [last]) : ExitsTo last code where
  reached := by simp [h]
  only e he := .inl (by simpa [h] using he)

theorem ofInstrs (his : .ret ∉ is) : ExitsTo (.goesOn none) (Code.ofInstrs is) := by
  have hexits := Code.exits_ofInstrs_append his []
  rw [List.append_nil] at hexits
  exact of_eq hexits

theorem returns_append (his : .ret ∈ is) (rest : Code) :
    ExitsTo .returns (Code.ofInstrs is ++ rest) :=
  of_eq (Code.exits_ofInstrs_append_of_ret his rest)

theorem returns (his : .ret ∈ is) : ExitsTo .returns (Code.ofInstrs is) := by
  have hexits := returns_append his []
  rwa [List.append_nil] at hexits

theorem callHelper (target : BitVec 64) : ExitsTo (.goesOn none) (callHelper target) := by
  have hexits : (Block.callHelper target).exits none = [.goesOn (some faultLabel), .goesOn none] :=
    rfl
  exact ⟨by simp [hexits], by simp [hexits]⟩

/-- Jumps to the fault exit pass over what lies behind. -/
theorem append (h : ExitsTo (.goesOn none) code) (h' : ExitsTo last rest)
    (hplaced : ∀ l, Item.label l ∈ code → Item.label l ∉ rest)
    (hfault : Item.label faultLabel ∉ rest) : ExitsTo last (code ++ rest) where
  reached := by
    rw [Code.exits_append hplaced, List.mem_flatMap]
    exact ⟨_, h.reached, h'.reached⟩
  only e he := by
    rw [Code.exits_append hplaced, List.mem_flatMap] at he
    obtain ⟨first, hfirst, he⟩ := he
    rcases h.only first hfirst with rfl | rfl
    · exact h'.only e he
    · rw [Code.exitsFrom, Code.exits_some_of_notMem hfault, List.mem_singleton] at he
      exact .inr he

/-- Whether a condition passes or fails, the code comes to the same end. -/
theorem skipUnless {cond : Cond} {skip : Label} (h : ExitsTo last (body ++ .label skip :: rest))
    (hrest : ExitsTo last rest) (hskip : Item.label skip ∉ rest) :
    ExitsTo last (skipUnless cond skip ++ body ++ .label skip :: rest) := by
  have htest : Instr.ret ∉ testCondition cond := by simp [testCondition]
  have hexits : Code.exits none (Block.skipUnless cond skip ++ body ++ .label skip :: rest) =
      rest.exits none ++ Code.exits none (body ++ .label skip :: rest) := by
    rw [Block.skipUnless, List.append_assoc, List.append_assoc,
      Code.exits_ofInstrs_append htest, List.singleton_append, Code.exits, Code.exits_skip hskip]
  refine ⟨?_, fun e he => ?_⟩
  · rw [hexits, List.mem_append]
    exact .inl hrest.reached
  · rw [hexits, List.mem_append] at he
    exact he.elim (hrest.only e) (h.only e)

end ExitsTo

/-- The facts about the frame admit neither calls nor returns. -/
theorem FrameState.sequential_of_step? {a a' : FrameState} {i : Instr} (h : a.step? i = some a') :
    i.isCall = false ∧ i ≠ .ret := by
  cases i <;> first | cases h | exact ⟨rfl, nofun⟩

theorem FrameState.sequential_of_steps? {a a' : FrameState} {is : List Instr}
    (h : a.steps? is = some a') : ∀ i ∈ is, i.isCall = false ∧ i ≠ .ret := by
  induction is generalizing a with
  | nil => simp
  | cons i is ih =>
      obtain ⟨next, hstep, hrest⟩ := Option.bind_eq_some_iff.1 h
      intro j hj
      rcases List.mem_cons.1 hj with rfl | hj
      · exact sequential_of_step? hstep
      · exact ih hrest j hj

namespace Admitted

variable {helpers : Helpers} {a a' : FrameState} {code : Code}

theorem linear (h : Admitted helpers a code a') : Linear code := by
  induction h with
  | ofInstrs => exact .ofInstrs _
  | callHelper => exact .callHelper _
  | append _ _ ih ih' => exact ih.append ih'
  | forgetPointer _ ih => exact ih
  | weaken _ _ _ ih => exact ih

/-- Admitted code does not return. -/
theorem exitsTo (h : Admitted helpers a code a') : ExitsTo (.goesOn none) code := by
  induction h with
  | ofInstrs h =>
      refine .ofInstrs fun hret => ?_
      exact (FrameState.sequential_of_steps? h _ hret).2 rfl
  | callHelper => exact .callHelper _
  | append h h' ih ih' => exact ih.append ih' h.linear.apart (h'.linear.label _)
  | forgetPointer _ ih => exact ih
  | weaken _ _ _ ih => exact ih

end Admitted

section Forms

variable {helpers : Helpers} {cond : Cond} {skip : Label} {addr : Word} {writes : Bool}
  {code : Code}

/-- Straight-line code that returns and calls nothing. -/
structure Leaves (is : List Instr) : Prop where
  ret : .ret ∈ is
  isCall : ∀ i ∈ is, i.isCall = false

theorem Leaves.append {is js : List Instr} (h : ∀ i ∈ is, i.isCall = false) (h' : Leaves js) :
    Leaves (is ++ js) where
  ret := List.mem_append_right is h'.ret
  isCall i hi := (List.mem_append.1 hi).elim (h i) (h'.isCall i)

theorem leaves_leave : Leaves leave := ⟨by decide, by decide⟩

theorem isCall_spill : ∀ i ∈ spill, i.isCall = false := by decide

theorem leaves_exitTo (pc : Word) : Leaves (exitTo pc) := by
  have hpc : ∀ i ∈ [Instr.store32Imm (stateReg .pc) pc], i.isCall = false := by simp [Instr.isCall]
  exact .append isCall_spill (.append hpc leaves_leave)

/-- A taken branch leaves. -/
theorem leaves_of_takenBranch {b : Branch} (h : takenBranch? addr b = some code) :
    ∃ is, code = Code.ofInstrs is ∧ Leaves is := by
  unfold takenBranch? at h
  split at h
  · cases h
  · cases h
    refine ⟨_, rfl, .append ?_ leaves_leave⟩
    intro i hi
    rcases List.mem_append.1 hi with hi | hi
    · exact isCall_spill i hi
    · simp only [List.mem_cons, List.not_mem_nil, or_false] at hi
      rcases hi with rfl | rfl | rfl <;> rfl
  · cases h
    refine ⟨_, rfl, .append ?_ (leaves_exitTo _)⟩
    split <;> simp [Instr.isCall]

/-- The code of an instruction ends as the translator expects. -/
theorem Form.exitsTo (h : Form helpers skip addr writes code) (hskip : skip ≠ faultLabel) :
    ExitsTo (if writes then .returns else .goesOn none) code := by
  cases h with
  | always h => exact h.exitsTo
  | @conditional cond body h =>
      show ExitsTo (.goesOn none) _
      unfold Block.conditional
      split
      · exact h.exitsTo
      · have hlabel : ExitsTo (.goesOn none) [Item.label skip] := .of_eq rfl
        have hbody := h.exitsTo.append hlabel h.linear.apart (by simpa using hskip.symm)
        exact hbody.skipUnless (.of_eq rfl) (by simp)
  | interpret word =>
      have hcall : Admitted helpers _ _ _ := admitted_interpretCall addr word
      exact hcall.exitsTo.append (.returns leaves_leave.ret) hcall.linear.apart
        (Code.label_notMem_ofInstrs _ _)
  | @branch cond b _ h =>
      obtain ⟨taken, htaken, rfl⟩ := Option.map_eq_some_iff.1 h
      obtain ⟨is, rfl, hleaves⟩ := leaves_of_takenBranch htaken
      show ExitsTo .returns (if cond = .al then _ else _)
      split
      · exact .returns hleaves.ret
      · exact (ExitsTo.returns_append hleaves.ret _).skipUnless (.returns (leaves_exitTo _).ret)
          (Code.label_notMem_ofInstrs _ _)

end Forms

/-- Where the paths through the code of an instruction end. -/
theorem exitsTo_translate (helpers : Helpers) {skip : Label} (hskip : skip ≠ faultLabel)
    (i : Instruction) (addr word : Word) :
    ExitsTo (if i.writesPc then .returns else .goesOn none)
      (translate helpers skip i addr word) :=
  (form_translate helpers skip i addr word).exitsTo hskip

/-- Behind the fault exit every path returns. -/
theorem returns_of_mem_exits {helpers : Helpers} {skip : Label} (hskip : skip ≠ faultLabel)
    {i : Instruction} (hwrites : i.writesPc = true) {addr word : Word} {rest : Code}
    (hrest : Item.label skip ∉ rest) {e : Exit}
    (he : e ∈ Code.exits none (translate helpers skip i addr word ++ (rest ++ faultExit))) :
    e = .returns := by
  have hplaced : ∀ l, Item.label l ∈ translate helpers skip i addr word →
      Item.label l ∉ rest ++ faultExit := by
    intro l hl
    have hfault : Item.label skip ∉ faultExit := by
      simp [faultExit, hskip, Code.label_notMem_ofInstrs]
    rw [(Local.translate skip i addr word).label l hl, List.mem_append, not_or]
    exact ⟨hrest, hfault⟩
  have hexits := exitsTo_translate helpers hskip i addr word
  rw [hwrites, if_pos rfl] at hexits
  rw [Code.exits_append hplaced, List.mem_flatMap] at he
  obtain ⟨first, hfirst, he⟩ := he
  rcases hexits.only first hfirst with rfl | rfl
  · exact List.mem_singleton.1 he
  · have hreturn : Instr.ret ∈ Instr.movImm .rax 1 :: epilogue := by decide
    rw [Code.exitsFrom, faultExit, Code.exits_skip (Code.label_notMem_ofInstrs _ _)] at he
    exact ((ExitsTo.returns hreturn).only e he).resolve_right (by rintro rfl; revert he; decide)

/-! ## Failed calls -/

/-- Code that jumps to the fault exit behind every call that reports failure, and nowhere
else. -/
inductive Checked : Code → Prop
  | nil : Checked []
  | instr {i : Instr} {rest : Code} : i.isCall = false → Checked rest → Checked (.instr i :: rest)
  | label {l : Label} {rest : Code} : l ≠ faultLabel → Checked rest → Checked (.label l :: rest)
  | jump (cc : Host.Cc) {l : Label} {rest : Code} : l ≠ faultLabel → Checked rest →
    Checked (.jump cc l :: rest)
  | call {rest : Code} : Checked rest → Checked
    (.instr (.call .rax) :: .instr (.test .rax .rax) :: .jump .ne faultLabel :: rest)

namespace Checked

variable {code rest : Code}

theorem append (h : Checked code) (hrest : Checked rest) : Checked (code ++ rest) := by
  induction h with
  | nil => exact hrest
  | instr hi _ ih => exact .instr hi ih
  | label hl _ ih => exact .label hl ih
  | jump cc hl _ ih => exact .jump cc hl ih
  | call _ ih => exact .call ih

theorem ofInstrs {is : List Instr} (his : ∀ i ∈ is, i.isCall = false) :
    Checked (Code.ofInstrs is) := by
  induction is with
  | nil => exact .nil
  | cons i is ih =>
      rw [List.forall_mem_cons] at his
      exact .instr his.1 (ih his.2)

theorem callHelper (target : BitVec 64) : Checked (callHelper target) :=
  .instr rfl (.instr rfl (.instr rfl (.call .nil)))

theorem label_notMem (h : Checked code) : Item.label faultLabel ∉ code := by
  induction h with
  | nil => simp
  | label hl _ ih => simp [ih, hl.symm]
  | instr _ _ ih => simp [ih]
  | jump _ _ _ ih => simp [ih]
  | call _ ih => simp [ih]

end Checked

theorem Admitted.checked {helpers : Helpers} {a a' : FrameState} {code : Code}
    (h : Admitted helpers a code a') : Checked code := by
  induction h with
  | ofInstrs h => exact .ofInstrs fun i hi => (FrameState.sequential_of_steps? h i hi).1
  | callHelper => exact .callHelper _
  | append _ _ ih ih' => exact ih.append ih'
  | forgetPointer _ ih => exact ih
  | weaken _ _ _ ih => exact ih

theorem Checked.skipUnless {skip : Label} (hskip : skip ≠ faultLabel) {body rest : Code}
    (hbody : Checked body) (hrest : Checked rest) (cond : Cond) :
    Checked (skipUnless cond skip ++ body ++ .label skip :: rest) := by
  have htest : ∀ i ∈ testCondition cond, i.isCall = false := by simp [testCondition, Instr.isCall]
  exact (((Checked.ofInstrs htest).append (.jump .e hskip .nil)).append hbody).append
    (.label hskip hrest)

theorem Form.checked {helpers : Helpers} {skip : Label} {addr : Word} {writes : Bool} {code : Code}
    (h : Form helpers skip addr writes code) (hskip : skip ≠ faultLabel) : Checked code := by
  cases h with
  | always h => exact h.checked
  | conditional cond h =>
      unfold Block.conditional
      split
      · exact h.checked
      · exact .skipUnless hskip h.checked .nil cond
  | interpret word =>
      have hcall : Admitted helpers _ _ _ := admitted_interpretCall addr word
      exact hcall.checked.append (.ofInstrs leaves_leave.isCall)
  | @branch cond b _ h =>
      obtain ⟨taken, htaken, rfl⟩ := Option.map_eq_some_iff.1 h
      obtain ⟨is, rfl, hleaves⟩ := leaves_of_takenBranch htaken
      have htaken : Checked (Code.ofInstrs is) := .ofInstrs hleaves.isCall
      split
      · exact htaken
      · exact .skipUnless hskip htaken (.ofInstrs (leaves_exitTo _).isCall) cond

section Runs

variable {link : Linkage ε} {m m' : Machine ε} {skip : Option Label} {code : Code} {e : Exit}

theorem reports_of_isCall {i : Instr} (hi : i.isCall = false) (m : Machine ε) :
    i.reports link m = false := by
  cases i <;> first | rfl | cases hi

/-- A call leaves behind what the function does, and reports failure if the result is not
zero. -/
theorem exists_of_step?_call (h : (Instr.call .rax).step? link m = some m') :
    ∃ r, m' = m.afterCall r ∧
      (Instr.call .rax).reports link m = (r.result.setWidth 32 != 0#32) := by
  rw [Instr.step?_call link m (by decide), Machine.call?] at h
  obtain ⟨-, h⟩ := Option.ite_none_right_eq_some.1 h
  obtain ⟨function, hfunction, h⟩ := Option.bind_eq_some_iff.1 h
  refine ⟨_, (Option.some.inj h).symm, ?_⟩
  rw [Instr.reports, Instr.callResult?, hfunction]
  rfl

/-- Behind a checked call the run jumps to the fault exit if the function reported failure, and
goes on if not. -/
theorem exists_of_ending?_call {rest : Code}
    (hend : Code.ending? link none
      (.instr (.call .rax) :: .instr (.test .rax .rax) :: .jump .ne faultLabel :: rest) m =
        some (e, m')) :
    ∃ called tested : Machine ε,
      let next := if (Instr.call .rax).reports link m then some faultLabel else none
      Code.ending? link next rest tested = some (e, m') ∧
        Code.visited link none
          (.instr (.call .rax) :: .instr (.test .rax .rax) :: .jump .ne faultLabel :: rest) m =
            (.call .rax, m) :: (.test .rax .rax, called) :: rest.visited link next tested := by
  have hcall : Instr.call .rax ≠ .ret := by simp
  have htest : Instr.test .rax .rax ≠ .ret := by simp
  rw [Code.ending?_instr_of_ne link hcall] at hend
  obtain ⟨called, hstep, hend⟩ := Option.bind_eq_some_iff.1 hend
  obtain ⟨r, rfl, hreports⟩ := exists_of_step?_call hstep
  have hstep' := Instr.step?_test link (m.afterCall r) rax_ne_rsp rax_ne_rsp
  rw [Code.ending?_instr_of_ne link htest, hstep', Option.bind_some, Code.ending?,
    Machine.flags_withFlags, low_rax_afterCall, holds_ne_and_self, ← hreports] at hend
  refine ⟨m.afterCall r, _, hend, ?_⟩
  rw [Code.visited_instr link hstep, Code.visited_instr link hstep', Code.visited,
    Machine.flags_withFlags, low_rax_afterCall, holds_ne_and_self, ← hreports]

/-- A run takes the fault exit exactly if a function that it called reported failure. -/
theorem Checked.fault_iff_reports (h : Checked code) (hskip : skip ≠ some faultLabel)
    (hend : code.ending? link skip m = some (e, m')) :
    e = .goesOn (some faultLabel) ↔
      (code.visited link skip m).any (fun x => x.1.reports link x.2) = true := by
  have hnone : (none : Option Label) ≠ some faultLabel := by simp
  induction h generalizing skip m with
  | nil =>
      cases skip <;> cases hend
      · simp [Code.visited]
      · simpa [Code.visited] using hskip
  | @instr i rest hi _ ih =>
      cases skip with
      | some l =>
          rw [Code.ending?, if_neg (by simp)] at hend
          rw [Code.visited, if_neg (by simp)]
          exact ih hskip hend
      | none =>
          by_cases hret : i = .ret
          · subst hret
            rw [Code.ending?] at hend
            split at hend
            · cases hend
              simp [Code.visited, Instr.step?, reports_of_isCall hi]
            · cases hend
          · rw [Code.ending?_instr_of_ne link hret] at hend
            obtain ⟨next, hstep, hnext⟩ := Option.bind_eq_some_iff.1 hend
            rw [Code.visited_instr link hstep, List.any_cons, reports_of_isCall hi, Bool.false_or]
            exact ih hnone hnext
  | @label l rest hl _ ih =>
      cases skip with
      | some l' =>
          rw [Code.ending?] at hend
          rw [Code.visited]
          split at hend
          · rename_i hlast
            rw [if_pos hlast]
            exact ih hnone hend
          · rename_i hlast
            rw [if_neg hlast]
            exact ih hskip hend
      | none => exact ih hnone hend
  | @jump cc l rest hl _ ih =>
      cases skip with
      | some l' =>
          rw [Code.ending?, if_neg (by simp)] at hend
          rw [Code.visited, if_neg (by simp)]
          exact ih hskip hend
      | none =>
          refine ih ?_ hend
          split
          · simpa using hl
          · exact hnone
  | @call rest hrest ih =>
      cases skip with
      | some l =>
          simp only [Code.ending?, reduceCtorEq, false_and, if_false] at hend
          simp only [Code.visited, reduceCtorEq, false_and, if_false]
          exact ih hskip hend
      | none =>
          obtain ⟨called, tested, hend, hvisited⟩ := exists_of_ending?_call hend
          have htest : (Instr.test .rax .rax).reports link called = false :=
            reports_of_isCall rfl called
          rw [hvisited, List.any_cons, List.any_cons, htest, Bool.false_or]
          cases hreports : (Instr.call .rax).reports link m with
          | true =>
              -- the jump to the fault exit passes over what lies behind
              rw [hreports, if_pos rfl] at hend
              have he := Code.mem_exits_of_ending? link hend
              rw [Code.exits_some_of_notMem hrest.label_notMem] at he
              simpa using he
          | false =>
              rw [hreports, if_neg Bool.false_ne_true] at hend
              rw [Bool.false_or]
              exact ih hnone hend

end Runs

/-! ## Running the code of an instruction -/

section Main

variable {helpers : Helpers} {link : Linkage ε} {saved : Host.Reg → BitVec 64} {m : Machine ε}
  {skip : Label}

/-- Entered with the guest loaded, the code of an instruction is not stuck. -/
theorem exists_ending_translate (hserves : Serves helpers link)
    (hm : Fits link saved (loaded 0) m) (hskip : skip ≠ faultLabel) (i : Instruction)
    (addr word : Word) :
    ∃ e m', (translate helpers skip i addr word).ending? link none m = some (e, m') := by
  -- what may lie behind the code leaves at once, and after a failed call through the fault exit
  obtain ⟨rest, hrest⟩ : ∃ rest, rest = Code.ofInstrs leave ++ faultExit := ⟨_, rfl⟩
  have hlabel : Item.label skip ∉ rest := by
    simp [hrest, faultExit, hskip, Code.label_notMem_ofInstrs]
  have hnext : ∀ m', Fits link saved (loaded 0) m' → Honours link saved false none rest m' := by
    intro m' hm'
    rw [hrest]
    exact .leave (hm'.inFrame rfl rfl)
  have hfault : ∀ m', Fits link saved (loaded 0) m' →
      Honours link saved true (some faultLabel) rest m' := by
    intro m' hm'
    rw [hrest]
    exact honours_faultExit hm' _
  have hhonours : Honours link saved false none (translate helpers skip i addr word ++ rest) m := by
    cases hwrites : i.writesPc with
    | false => exact honours_translate_next hserves hwrites hskip hlabel hm hnext hfault
    | true => exact honours_translate_exit hserves hwrites hlabel hm hfault
  obtain ⟨last, hrun, -⟩ := hhonours
  rw [Code.run?_append link fun l hl =>
    (Local.translate skip i addr word).label l hl ▸ hlabel] at hrun
  obtain ⟨⟨e, m'⟩, hending, -⟩ := Option.bind_eq_some_iff.1 hrun
  exact ⟨e, m', hending⟩

/-- What the predicate tells about an instruction.  The interpreter goes on at the next word
unless it holds.  Every path through the code of the instruction, whether it has native code
or goes through the interpreter, returns from the block if it holds, and comes to the end of
the code if not, unless it jumps to the fault exit, from where it returns as well.  And a
run of the code, entered with the guest loaded, takes the fault exit exactly if a function
that it called reported failure, and otherwise ends as told. -/
theorem writesPc_decides_exits (helpers : Helpers) {skip : Label} (hskip : skip ≠ faultLabel)
    (i : Instruction) (addr word : Word) :
    let code := translate helpers skip i addr word
    let last : Exit := if i.writesPc then .returns else .goesOn none
    (i.writesPc = false → ∀ (cpu : Cpu) (bus : Bus ω),
      (∀ fault devices, ¬ bus.mmio.Panics fault devices) →
      ∃ outcome after bus', i.execute addr word cpu bus = .ok (outcome, after) bus' ∧
        after.pc = addr + 4) ∧
      (last ∈ code.exits none ∧ ∀ e ∈ code.exits none, e = last ∨ e = .goesOn (some faultLabel)) ∧
      (i.writesPc = true → ∀ rest, Item.label skip ∉ rest →
        ∀ e ∈ Code.exits none (code ++ (rest ++ faultExit)), e = .returns) ∧
      ∀ (link : Linkage ε) (saved : Host.Reg → BitVec 64) (m : Machine ε), Serves helpers link →
        Fits link saved (loaded 0) m →
        ∃ m', code.ending? link none m = some
          (if (code.visited link none m).any (fun x => x.1.reports link x.2) then
            .goesOn (some faultLabel)
          else last, m') := by
  intro code last
  have hexits := exitsTo_translate helpers hskip i addr word
  refine ⟨?_, ⟨hexits.reached, hexits.only⟩, ?_, ?_⟩
  · intro hwrites cpu bus hquiet
    obtain ⟨outcome, after, bus', hexecute⟩ :=
      Instruction.exists_execute_eq_ok hquiet i addr word cpu
    exact ⟨outcome, after, bus', hexecute, Instruction.pc_of_execute hwrites hexecute⟩
  · intro hwrites rest hrest e he
    exact returns_of_mem_exits hskip hwrites hrest he
  · intro link saved m hserves hm
    obtain ⟨e, m', hending⟩ := exists_ending_translate hserves hm hskip i addr word
    have hnone : (none : Option Label) ≠ some faultLabel := nofun
    have hfault := ((form_translate helpers skip i addr word).checked hskip).fault_iff_reports
      hnone hending
    refine ⟨m', ?_⟩
    rw [hending]
    split
    · rename_i hreports
      rw [hfault.2 hreports]
    · rename_i hreports
      rcases hexits.only e (Code.mem_exits_of_ending? link hending) with rfl | rfl
      · rfl
      · exact absurd (hfault.1 rfl) hreports

/-- A load through a base goes on behind itself unless it fails, as here, and the same load
into the program counter leaves. -/
theorem writesPc_decides_exits_load :
    let next := Instruction.decode 0xe5910000
    let jump := Instruction.decode 0xe591f000
    let m := holding failingLoads Cpu.initial ()
    ((1 : Label) ≠ faultLabel ∧ next.writesPc = false ∧ jump.writesPc = true ∧
      Serves threeHelpers failingLoads ∧ Fits failingLoads (fun _ => 0) (loaded 0) m) ∧
      (∃ outcome after bus', next.execute 0x8000 0xe5910000 Cpu.initial probedBus =
        .ok (outcome, after) bus' ∧ after.pc = 0x8004) ∧
      (∃ m', (translate threeHelpers 1 next 0x8000 0xe5910000).ending? failingLoads none m =
        some (.goesOn (some faultLabel), m')) ∧
      (∃ m', (translate threeHelpers 1 jump 0x8000 0xe591f000).ending? failingLoads none m =
        some (.returns, m')) ∧
      ∀ e ∈ Code.exits none (translate threeHelpers 1 jump 0x8000 0xe591f000 ++ ([] ++ faultExit)),
        e = .returns := by
  intro next jump m
  have hskip : (1 : Label) ≠ faultLabel := by decide
  have hserves : Serves threeHelpers failingLoads := ⟨rfl, rfl, rfl⟩
  have hm : Fits failingLoads (fun _ => 0) (loaded 0) m :=
    ⟨⟨[], failingLoads.state, none, none, rfl, rfl, fun _ => rfl, nofun⟩, nofun⟩
  have hnext : next.writesPc = false := by decide
  have hjump : jump.writesPc = true := by decide
  obtain ⟨hexecute, -, -, hfails⟩ := writesPc_decides_exits (ω := Bench) threeHelpers hskip
    next 0x8000 0xe5910000
  obtain ⟨-, -, hreturns, hleaves⟩ := writesPc_decides_exits (ω := Bench) threeHelpers hskip
    jump 0x8000 0xe591f000
  refine ⟨⟨hskip, hnext, hjump, hserves, hm⟩,
    hexecute hnext Cpu.initial probedBus not_panics_probedBus, ?_, ?_,
    hreturns hjump [] (by simp)⟩
  · obtain ⟨m', hending⟩ := hfails failingLoads _ m hserves hm
    exact ⟨m', by rw [hending, if_pos (by decide +kernel)]⟩
  · obtain ⟨m', hending⟩ := hleaves failingLoads _ m hserves hm
    exact ⟨m', by rw [hending, if_neg (by decide +kernel), if_pos hjump]⟩

end Main

end ArmEmulator.Block
