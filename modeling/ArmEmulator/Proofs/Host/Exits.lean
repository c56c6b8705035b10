import ArmEmulator.Proofs.Host.Fragments

/-!
# Paths through host code

A path through code takes each jump that it comes to or not, whatever the flags are.  It
ends at a return or behind the code, where a jump out of the code is still pending.  A
run follows one of the paths.

Main results:

- Theorem {lit}`Code.exits_append`: the paths through code in two parts.
- Theorem {lit}`Code.mem_exits_of_ending?`: a run ends where a path does.
- Theorem {lit}`Code.run?_append`: a run returns where it does in the first part, or goes
  on in the second one.
-/

namespace ArmEmulator.Host

variable {ε : Type}

/-- Where a path through code ends: at a return, or behind the code, with a label to skip
to if a jump leads out of it. -/
inductive Exit where
  | returns
  | goesOn (skip : Option Label)
deriving DecidableEq

namespace Code

/-! ## All paths -/

/-- The ends of all paths through code.  With a label to skip to, everything up to the
place of that label is passed over. -/
def exits : Option Label → Code → List Exit
  | skip, [] => [.goesOn skip]
  | some l, item :: rest =>
    if item = .label l ∧ ¬ .label l ∈ rest then exits none rest else exits (some l) rest
  | none, .label _ :: rest => exits none rest
  | none, .jump _ l :: rest => exits (some l) rest ++ exits none rest
  | none, .instr .ret :: _ => [.returns]
  | none, .instr _ :: rest => exits none rest

/-- The ends of the paths that go on with other code. -/
def exitsFrom (rest : Code) : Exit → List Exit
  | .returns => [.returns]
  | .goesOn skip => exits skip rest

theorem exits_instr_of_ne {i : Instr} (hi : i ≠ .ret) (rest : Code) :
    exits none (.instr i :: rest) = exits none rest := by
  cases i <;> first | rfl | exact absurd rfl hi

/-- Each path through the first part goes on with all paths through the second one. -/
theorem exits_append {code rest : Code}
    (hplaced : ∀ l, Item.label l ∈ code → Item.label l ∉ rest) (skip : Option Label) :
    exits skip (code ++ rest) = (exits skip code).flatMap (exitsFrom rest) := by
  induction code generalizing skip with
  | nil => cases skip <;> simp [exits, exitsFrom]
  | cons item code ih =>
      have hcode : ∀ l, Item.label l ∈ code → Item.label l ∉ rest := fun l hl =>
        hplaced l (List.mem_cons_of_mem item hl)
      cases skip with
      | some l =>
          rw [List.cons_append, exits, exits]
          simp only [label_mem_append_iff hplaced]
          split
          · exact ih hcode none
          · exact ih hcode (some l)
      | none =>
          cases item with
          | label l => exact ih hcode none
          | jump cc l => simp [exits, ih hcode]
          | instr i =>
              by_cases hi : i = .ret
              · subst hi
                rfl
              · rw [List.cons_append, exits_instr_of_ne hi, exits_instr_of_ne hi, ih hcode]

/-! ## Straight-line code and jumps -/

/-- Instructions without a return lead on to what lies behind them. -/
theorem exits_ofInstrs_append {is : List Instr} (his : .ret ∉ is) (rest : Code) :
    exits none (ofInstrs is ++ rest) = exits none rest := by
  induction is with
  | nil => rfl
  | cons i is ih =>
      rw [List.mem_cons, not_or] at his
      exact (exits_instr_of_ne (Ne.symm his.1) _).trans (ih his.2)

/-- What lies behind a return is not reached. -/
theorem exits_ofInstrs_append_of_ret {is : List Instr} (his : .ret ∈ is) (rest : Code) :
    exits none (ofInstrs is ++ rest) = [.returns] := by
  induction is with
  | nil => cases his
  | cons i is ih =>
      by_cases hi : i = .ret
      · subst hi
        rfl
      · exact (exits_instr_of_ne hi _).trans (ih ((List.mem_cons.1 his).resolve_left (Ne.symm hi)))

/-- A taken jump passes over code that does not place its label. -/
theorem exits_some_of_notMem {l : Label} {code : Code} (hl : Item.label l ∉ code) :
    exits (some l) code = [.goesOn (some l)] := by
  induction code with
  | nil => rfl
  | cons item code ih =>
      rw [List.mem_cons, not_or] at hl
      rw [exits, if_neg fun h => hl.1 h.1.symm]
      exact ih hl.2

/-- A taken jump moves to the code behind the last cell of its label. -/
theorem exits_skip {l : Label} {rest : Code} (hl : Item.label l ∉ rest) (passed : Code) :
    exits (some l) (passed ++ .label l :: rest) = exits none rest := by
  induction passed with
  | nil => rw [List.nil_append, exits, if_pos ⟨rfl, hl⟩]
  | cons item passed ih => rw [List.cons_append, exits, if_neg (by simp), ih]

/-! ## The path of a run -/

/-- Where a run of code ends, and the machine there; none if the machine gets stuck. -/
def ending? (link : Linkage ε) : Option Label → Code → Machine ε → Option (Exit × Machine ε)
  | skip, [], m => some (.goesOn skip, m)
  | some l, item :: rest, m =>
    if item = .label l ∧ ¬ .label l ∈ rest then ending? link none rest m
    else ending? link (some l) rest m
  | none, .label _ :: rest, m => ending? link none rest m
  | none, .jump cc l :: rest, m =>
    ending? link (if cc.holds m.flags then some l else none) rest m
  | none, .instr .ret :: _, m => if m.stack = [] then some (.returns, m) else none
  | none, .instr i :: rest, m => (i.step? link m).bind (ending? link none rest)

/-- The run of the code behind an end. -/
def runFrom? (link : Linkage ε) (rest : Code) : Exit × Machine ε → Option (Machine ε)
  | (.returns, m) => some m
  | (.goesOn skip, m) => run? link skip rest m

variable (link : Linkage ε)

theorem ending?_instr_of_ne {i : Instr} (hi : i ≠ .ret) (rest : Code) (m : Machine ε) :
    ending? link none (.instr i :: rest) m = (i.step? link m).bind (ending? link none rest) := by
  cases i <;> first | rfl | exact absurd rfl hi

theorem run?_instr_of_ne {i : Instr} (hi : i ≠ .ret) (rest : Code) (m : Machine ε) :
    run? link none (.instr i :: rest) m = (i.step? link m).bind (run? link none rest) := by
  cases i <;> first | rfl | exact absurd rfl hi

/-- A run ends where one of the paths does. -/
theorem mem_exits_of_ending? {skip : Option Label} {code : Code} {m m' : Machine ε} {e : Exit}
    (h : ending? link skip code m = some (e, m')) : e ∈ exits skip code := by
  induction code generalizing skip m with
  | nil => cases skip <;> cases h <;> simp [exits]
  | cons item code ih =>
      cases skip with
      | some l =>
          rw [ending?] at h
          rw [exits]
          split at h
          · rename_i hlast
            rw [if_pos hlast]
            exact ih h
          · rename_i hlast
            rw [if_neg hlast]
            exact ih h
      | none =>
          cases item with
          | label l => exact ih h
          | jump cc l =>
              rw [exits, List.mem_append]
              rw [ending?] at h
              split at h
              · exact .inl (ih h)
              · exact .inr (ih h)
          | instr i =>
              by_cases hi : i = .ret
              · subst hi
                rw [ending?] at h
                split at h
                · cases h
                  simp [exits]
                · cases h
              · rw [ending?_instr_of_ne link hi] at h
                obtain ⟨next, -, hnext⟩ := Option.bind_eq_some_iff.1 h
                rw [exits_instr_of_ne hi]
                exact ih hnext

/-- A run of code in two parts returns where it does in the first one, or goes on with the
second one. -/
theorem run?_append {code rest : Code}
    (hplaced : ∀ l, Item.label l ∈ code → Item.label l ∉ rest) (skip : Option Label)
    (m : Machine ε) :
    run? link skip (code ++ rest) m = (ending? link skip code m).bind (runFrom? link rest) := by
  induction code generalizing skip m with
  | nil => cases skip <;> rfl
  | cons item code ih =>
      have hcode : ∀ l, Item.label l ∈ code → Item.label l ∉ rest := fun l hl =>
        hplaced l (List.mem_cons_of_mem item hl)
      cases skip with
      | some l =>
          rw [List.cons_append, run?, ending?]
          simp only [label_mem_append_iff hplaced]
          split
          · exact ih hcode none m
          · exact ih hcode (some l) m
      | none =>
          cases item with
          | label l => exact ih hcode none m
          | jump cc l => exact ih hcode _ m
          | instr i =>
              by_cases hi : i = .ret
              · subst hi
                rw [List.cons_append, run?, ending?]
                split <;> rfl
              · rw [List.cons_append, run?_instr_of_ne link hi, ending?_instr_of_ne link hi,
                  Option.bind_assoc]
                exact Option.bind_congr fun m' _ => ih hcode none m'

end Code

end ArmEmulator.Host
