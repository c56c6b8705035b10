import ArmEmulator.Proofs.Host.StraightLine

/-!
# Executed instructions

The instructions that a run of code executes, each with the machine it finds, so
that rules can be stated for every one of them.

Main results:

- Theorems {lit}`Code.visited_some_append` and {lit}`Code.visited_skip`: code that a
  jump passes over is not executed.
-/

namespace ArmEmulator.Host

variable {ε : Type}

/-- The instructions that a run of code executes, each with the machine that it is
executed on. -/
def Code.visited (link : Linkage ε) : Option Label → Code → Machine ε → List (Instr × Machine ε)
  | _, [], _ => []
  | some l, item :: rest, m =>
    if item = .label l ∧ ¬ .label l ∈ rest then visited link none rest m
    else visited link (some l) rest m
  | none, .label _ :: rest, m => visited link none rest m
  | none, .jump cc l :: rest, m =>
    visited link (if cc.holds m.flags then some l else none) rest m
  | none, .instr i :: rest, m => (i, m) :: (i.step? link m).elim [] (visited link none rest)

/-- The result of the function that an instruction calls. -/
def Instr.callResult? (link : Linkage ε) (m : Machine ε) : Instr → Option (BitVec 32)
  | call target => (link.function? (m.reg target)).map fun function =>
      (function (m.low .rdx) (m.low .rcx) m.cpu m.env).result.setWidth 32
  | _ => none

/-- Whether an instruction calls a function that reports failure. -/
def Instr.reports (link : Linkage ε) (m : Machine ε) (i : Instr) : Bool :=
  (i.callResult? link m).any fun result => result != 0

section Visited

variable (link : Linkage ε)

/-- An executed instruction comes before what is executed behind it. -/
theorem Code.visited_instr {i : Instr} {m m' : Machine ε} (h : i.step? link m = some m')
    (rest : Code) :
    visited link none (.instr i :: rest) m = (i, m) :: visited link none rest m' := by
  rw [visited, h]
  rfl

/-- Running an instruction other than a return. -/
theorem Code.run?_instr {i : Instr} {m m' : Machine ε} (h : i.step? link m = some m')
    (rest : Code) : run? link none (.instr i :: rest) m = run? link none rest m' := by
  have hrun : runInstrs? link [i] m = some m' := by
    rw [runInstrs?_cons, h]
    rfl
  exact run?_ofInstrs_append link hrun rest

/-- Code that does not place the label of a taken jump is passed over. -/
theorem Code.visited_some_append {l : Label} {passed : Code} (hl : Item.label l ∉ passed)
    (rest : Code) (m : Machine ε) :
    visited link (some l) (passed ++ rest) m = visited link (some l) rest m := by
  induction passed with
  | nil => rfl
  | cons item passed ih =>
      rw [List.mem_cons, not_or] at hl
      rw [List.cons_append, visited, if_neg fun h => hl.1 h.1.symm]
      exact ih hl.2

/-- A taken jump moves to the code behind the last cell of its label. -/
theorem Code.visited_skip {l : Label} {rest : Code} (hl : Item.label l ∉ rest) (passed : Code)
    (m : Machine ε) :
    visited link (some l) (passed ++ .label l :: rest) m = visited link none rest m := by
  induction passed with
  | nil => rw [List.nil_append, visited, if_pos ⟨rfl, hl⟩]
  | cons item passed ih =>
      have hlater : Item.label l ∈ passed ++ .label l :: rest :=
        List.mem_append_right _ (List.mem_cons_self ..)
      rw [List.cons_append, visited, if_neg fun h => h.2 hlater]
      exact ih

end Visited

end ArmEmulator.Host
