import ArmEmulator.Proofs.Host.Visits

/-!
# Fragments of host code

A fragment of code need not return: it leads from one machine to another, which the
code behind it goes on with.  A jump out of the fragment is still pending there.  On
the way the fragment calls functions, one after another.

Main results:

- Theorem {lit}`Code.Leads.append`: fragments may be put one behind the other, and so
  are their calls.
- Theorem {lit}`Code.Leads.run?_append`: a run of code moves on to what lies behind a
  fragment.
-/

namespace ArmEmulator.Host

variable {ε : Type}

/-! ## The end of a fragment -/

/-- The machine at the end of code, with the label of a jump that leads out of it; none
if the machine gets stuck or returns before.  With a label to skip to, everything up to
the place of that label is passed over. -/
def Code.through? (link : Linkage ε) :
    Option Label → Code → Machine ε → Option (Option Label × Machine ε)
  | skip, [], m => some (skip, m)
  | some l, item :: rest, m =>
    if item = .label l ∧ ¬ .label l ∈ rest then through? link none rest m
    else through? link (some l) rest m
  | none, .label _ :: rest, m => through? link none rest m
  | none, .jump cc l :: rest, m =>
    through? link (if cc.holds m.flags then some l else none) rest m
  | none, .instr i :: rest, m => (i.step? link m).bind (through? link none rest)

/-- A call of a function: its address, the two words it gets, and the processor state
it finds. -/
structure Call where
  target : BitVec 64
  first : BitVec 32
  second : BitVec 32
  cpu : Cpu

/-- The call that an instruction makes, if it is one. -/
def Instr.call? (m : Machine ε) : Instr → Option Call
  | call target => some ⟨m.reg target, m.low .rdx, m.low .rcx, m.cpu⟩
  | _ => none

/-- Whether an instruction calls a function. -/
def Instr.isCall : Instr → Bool
  | call _ => true
  | _ => false

theorem Instr.call?_eq_none {i : Instr} (h : i.isCall = false) (m : Machine ε) :
    i.call? m = none := by
  cases i <;> first | rfl | cases h

/-- The calls that a run of code makes, in order. -/
def Code.calls (link : Linkage ε) (skip : Option Label) (code : Code) (m : Machine ε) :
    List Call :=
  (code.visited link skip m).filterMap fun x => x.1.call? x.2

/-- Code leads from one machine to another, with a jump pending before it and after it
if there is a label to skip to, and makes calls on the way. -/
structure Code.Leads (link : Linkage ε) (skip : Option Label) (code : Code) (m : Machine ε)
    (calls : List Call) (skip' : Option Label) (m' : Machine ε) : Prop where
  through : code.through? link skip m = some (skip', m')
  calls_eq : code.calls link skip m = calls

/-! ## Fragments in code -/

section Append

variable (link : Linkage ε) {code rest : Code}
  (hplaced : ∀ l, Item.label l ∈ code → Item.label l ∉ rest)

/-- The last cell of a label is the same whatever lies behind that does not place it. -/
theorem Code.label_mem_append_iff {l : Label} {item : Item} {code rest : Code}
    (hplaced : ∀ l, Item.label l ∈ item :: code → Item.label l ∉ rest) :
    (item = .label l ∧ ¬ Item.label l ∈ code ++ rest) ↔
      (item = .label l ∧ ¬ Item.label l ∈ code) := by
  refine and_congr_right fun hitem => not_congr ?_
  rw [List.mem_append]
  exact or_iff_left (hplaced l (hitem ▸ List.mem_cons_self ..))

include hplaced

/-- A run through two fragments is a run through the second one from where the first
one leads to. -/
theorem Code.through?_append (skip : Option Label) (m : Machine ε) :
    through? link skip (code ++ rest) m =
      (through? link skip code m).bind fun x => through? link x.1 rest x.2 := by
  -- What lies behind matters at one place only: whether a cell of the pending label is its last.
  induction code generalizing skip m with
  | nil => cases skip <;> rfl
  | cons item code ih =>
      have htail := ih fun l hl => hplaced l (List.mem_cons_of_mem item hl)
      cases skip with
      | some l =>
          rw [List.cons_append, through?, through?]
          simp only [label_mem_append_iff hplaced]
          split
          · exact htail none m
          · exact htail (some l) m
      | none =>
          cases item with
          | label l => exact htail none m
          | jump cc l => exact htail _ m
          | instr i =>
              rw [List.cons_append, through?, through?, Option.bind_assoc]
              exact Option.bind_congr fun m' _ => htail none m'

/-- A run of code moves on to what lies behind a fragment. -/
theorem Code.run?_append_of_through? {skip skip' : Option Label} {m m' : Machine ε}
    (h : through? link skip code m = some (skip', m')) :
    run? link skip (code ++ rest) m = run? link skip' rest m' := by
  induction code generalizing skip m with
  | nil =>
      cases skip <;> cases h <;> rfl
  | cons item code ih =>
      have hcode : ∀ l, Item.label l ∈ code → Item.label l ∉ rest := fun l hl =>
        hplaced l (List.mem_cons_of_mem item hl)
      cases skip with
      | some l =>
          rw [through?] at h
          rw [List.cons_append, run?]
          simp only [label_mem_append_iff hplaced]
          split at h
          · rename_i hl
            rw [if_pos hl]
            exact ih hcode h
          · rename_i hl
            rw [if_neg hl]
            exact ih hcode h
      | none =>
          cases item with
          | label l => exact ih hcode h
          | jump cc l => exact ih hcode h
          | instr i =>
              obtain ⟨next, hstep, hnext⟩ := Option.bind_eq_some_iff.1 h
              rw [List.cons_append, run?_instr link hstep]
              exact ih hcode hnext

/-- What a run of code executes is what the fragment executes and then what lies behind
it does. -/
theorem Code.visited_append_of_through? {skip skip' : Option Label} {m m' : Machine ε}
    (h : through? link skip code m = some (skip', m')) :
    visited link skip (code ++ rest) m =
      visited link skip code m ++ visited link skip' rest m' := by
  induction code generalizing skip m with
  | nil =>
      cases skip <;> cases h <;> rfl
  | cons item code ih =>
      have hcode : ∀ l, Item.label l ∈ code → Item.label l ∉ rest := fun l hl =>
        hplaced l (List.mem_cons_of_mem item hl)
      cases skip with
      | some l =>
          rw [through?] at h
          rw [List.cons_append, visited, visited]
          simp only [label_mem_append_iff hplaced]
          split at h
          · rename_i hl
            rw [if_pos hl, if_pos hl]
            exact ih hcode h
          · rename_i hl
            rw [if_neg hl, if_neg hl]
            exact ih hcode h
      | none =>
          cases item with
          | label l => exact ih hcode h
          | jump cc l => exact ih hcode h
          | instr i =>
              obtain ⟨next, hstep, hnext⟩ := Option.bind_eq_some_iff.1 h
              rw [List.cons_append, visited_instr link hstep, visited_instr link hstep,
                ih hcode hnext]
              rfl

end Append

namespace Code.Leads

variable {link : Linkage ε} {skip skip' skip'' : Option Label} {code rest : Code}
  {m m' m'' : Machine ε} {calls calls' : List Call}

/-- The empty fragment. -/
theorem nil (skip : Option Label) (m : Machine ε) : Leads link skip [] m [] skip m := by
  cases skip <;> exact ⟨rfl, rfl⟩

/-- Fragments one behind the other. -/
theorem append (h : Leads link skip code m calls skip' m')
    (h' : Leads link skip' rest m' calls' skip'' m'')
    (hplaced : ∀ l, Item.label l ∈ code → Item.label l ∉ rest) :
    Leads link skip (code ++ rest) m (calls ++ calls') skip'' m'' where
  through := by
    rw [through?_append link hplaced, h.through]
    exact h'.through
  calls_eq := by
    rw [Code.calls, visited_append_of_through? link hplaced h.through, List.filterMap_append]
    exact congr (congrArg HAppend.hAppend h.calls_eq) h'.calls_eq

/-- A run of code moves on to what lies behind a fragment. -/
theorem run?_append (h : Leads link skip code m calls skip' m')
    (hplaced : ∀ l, Item.label l ∈ code → Item.label l ∉ rest) :
    run? link skip (code ++ rest) m = run? link skip' rest m' :=
  run?_append_of_through? link hplaced h.through

/-- One instruction. -/
theorem instr {i : Instr} (h : i.step? link m = some m') :
    Leads link none [.instr i] m (i.call? m).toList none m' where
  through := by
    rw [through?, h]
    rfl
  calls_eq := by
    rw [Code.calls, visited_instr link h]
    cases hcall : i.call? m <;> simp [hcall, visited]

/-- A jump, which is pending behind it if its condition holds. -/
theorem jump (cc : Cc) (l : Label) (m : Machine ε) :
    Leads link none [.jump cc l] m [] (if cc.holds m.flags then some l else none) m where
  through := rfl
  calls_eq := by
    rw [Code.calls, visited]
    split <;> rfl

/-- A label that is run over. -/
theorem label (l : Label) (m : Machine ε) : Leads link none [.label l] m [] none m :=
  ⟨rfl, rfl⟩

/-- Straight-line code that calls no function. -/
theorem ofInstrs {is : List Instr} (h : runInstrs? link is m = some m')
    (hcalls : ∀ i ∈ is, i.isCall = false) : Leads link none (Code.ofInstrs is) m [] none m' := by
  induction is generalizing m with
  | nil =>
      cases h
      exact nil none _
  | cons i is ih =>
      obtain ⟨next, hstep, hrest⟩ := Option.bind_eq_some_iff.1 h
      have hfirst : Leads link none (Code.ofInstrs [i]) m [] none next := by
        have hnone := Instr.call?_eq_none (hcalls i (List.mem_cons_self ..)) m
        have hcalled := instr hstep
        rwa [hnone] at hcalled
      exact hfirst.append (ih hrest fun j hj => hcalls j (List.mem_cons_of_mem i hj))
        fun l hl => absurd hl (label_notMem_ofInstrs l [i])

/-- Straight-line code, whatever it calls. -/
theorem exists_ofInstrs {is : List Instr} (h : runInstrs? link is m = some m') :
    ∃ calls, Leads link none (Code.ofInstrs is) m calls none m' := by
  induction is generalizing m with
  | nil =>
      cases h
      exact ⟨[], nil none _⟩
  | cons i is ih =>
      obtain ⟨next, hstep, hrest⟩ := Option.bind_eq_some_iff.1 h
      obtain ⟨calls, hleads⟩ := ih hrest
      exact ⟨_, (instr hstep).append hleads fun l hl => absurd hl (label_notMem_ofInstrs l [i])⟩

/-- A taken jump passes over code that does not place its label. -/
theorem passed {l : Label} {code : Code} (hl : Item.label l ∉ code) (m : Machine ε) :
    Leads link (some l) code m [] (some l) m := by
  induction code with
  | nil => exact nil (some l) m
  | cons item code ih =>
      rw [List.mem_cons, not_or] at hl
      obtain ⟨hthrough, hcalls⟩ := ih hl.2
      refine ⟨?_, ?_⟩
      · rw [through?, if_neg fun h => hl.1 h.1.symm, hthrough]
      · rw [Code.calls, visited, if_neg fun h => hl.1 h.1.symm]
        exact hcalls

/-- A taken jump comes to the last cell of its label. -/
theorem skipped (l : Label) (code : Code) (m : Machine ε) :
    Leads link (some l) (code ++ [.label l]) m [] none m := by
  induction code with
  | nil => exact ⟨by simp [through?], by simp [Code.calls, visited]⟩
  | cons item code ih =>
      have hlater : Item.label l ∈ code ++ [Item.label l] :=
        List.mem_append_right _ (List.mem_singleton_self _)
      obtain ⟨hthrough, hcalls⟩ := ih
      refine ⟨?_, ?_⟩
      · rw [List.cons_append, through?, if_neg fun h => h.2 hlater, hthrough]
      · rw [List.cons_append, Code.calls, visited, if_neg fun h => h.2 hlater]
        exact hcalls

end Code.Leads

end ArmEmulator.Host
