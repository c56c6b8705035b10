import ArmEmulator.Block.Code
import ArmEmulator.Proofs.Host.Labels
import ArmEmulator.Proofs.Host.StraightLine

/-!
# Labels of a block

Every instruction of a block has a label of its own, placed inside its own piece
of code, and the fault exit has another.  So what lies behind a piece does not
place its label, and every jump has a target.

Main results:

- Theorem {lit}`Numbered.label_notMem`: what lies behind a piece does not place its
  label.
- Theorem {lit}`encode?_code_isSome`: the code of a block can be encoded.
-/

namespace ArmEmulator.Block

open Host (Code Item Label Instr)

variable {helpers : Helpers} {skip : Label} {addr : Word} {cond : Cond} {code body : Code}

/-! ## Code without labels -/

/-- Code that places no label and jumps to the fault exit at most. -/
structure Linear (code : Code) : Prop where
  label : ∀ l, Item.label l ∉ code
  jump : ∀ cc l, Item.jump cc l ∈ code → l = faultLabel

namespace Linear

theorem ofInstrs (is : List Instr) : Linear (Code.ofInstrs is) where
  label l := Code.label_notMem_ofInstrs l is
  jump cc l h := by
    simp [Code.ofInstrs] at h

theorem append {code' : Code} (h : Linear code) (h' : Linear code') : Linear (code ++ code') where
  label l hmem := by
    rcases List.mem_append.1 hmem with hmem | hmem
    · exact h.label l hmem
    · exact h'.label l hmem
  jump cc l hmem := by
    rcases List.mem_append.1 hmem with hmem | hmem
    · exact h.jump cc l hmem
    · exact h'.jump cc l hmem

/-- Whatever lies behind places no label of the code. -/
theorem apart (h : Linear code) {rest : Code} (l : Label) (hl : Item.label l ∈ code) :
    Item.label l ∉ rest :=
  absurd hl (h.label l)

theorem callHelper (target : BitVec 64) : Linear (callHelper target) := by
  refine (ofInstrs _).append ⟨?_, ?_⟩
  · intro l
    simp
  · intro cc l h
    cases List.mem_singleton.1 h
    rfl

theorem interpret (addr word : Word) (exits : Bool) :
    Linear (interpret helpers addr word exits) :=
  ((ofInstrs _).append (callHelper _)).append (ofInstrs _)

theorem transferBody (addr : Word) (t : Transfer) : Linear (transferBody helpers addr t) :=
  ((ofInstrs _).append (callHelper _)).append (ofInstrs _)

theorem transferEach (helper : BitVec 64) (k : Nat) (list : List Reg) :
    Linear (transferEach helper k list) := by
  induction list generalizing k with
  | nil => exact ofInstrs []
  | cons r list ih => exact ((ofInstrs _).append (callHelper _)).append (ih (k + 1))

theorem multiTransferBody (t : MultiTransfer) : Linear (multiTransferBody helpers t) :=
  ((ofInstrs _).append (transferEach _ _ _)).append (ofInstrs _)

theorem takenBranch {b : Branch} (h : takenBranch? addr b = some code) : Linear code := by
  unfold takenBranch? at h
  split at h
  · cases h
  · cases h
    exact ofInstrs _
  · cases h
    exact ofInstrs _

end Linear

/-! ## Code with one label -/

/-- Code that places no label but its own, and jumps to what it places or to the
fault exit. -/
structure Local (skip : Label) (code : Code) : Prop where
  label : ∀ l, Item.label l ∈ code → l = skip
  jump : ∀ cc l, Item.jump cc l ∈ code → l = faultLabel ∨ Item.label l ∈ code

namespace Local

theorem of_linear (h : Linear code) : Local skip code where
  label l hmem := absurd hmem (h.label l)
  jump cc l hmem := .inl (h.jump cc l hmem)

/-- Code passed over by a jump to the label behind it. -/
theorem skipUnless_append {rest : Code} (hbody : Linear body) (hrest : Linear rest) :
    Local skip (skipUnless cond skip ++ body ++ .label skip :: rest) where
  label l hmem := by
    simp only [skipUnless, List.mem_append, List.mem_cons] at hmem
    rcases hmem with ((h | h | h) | h) | h | h
    · exact absurd h (Code.label_notMem_ofInstrs _ _)
    · cases h
    · cases h
    · exact absurd h (hbody.label l)
    · cases h
      rfl
    · exact absurd h (hrest.label l)
  jump cc l hmem := by
    have hplaced : Item.label skip ∈ skipUnless cond skip ++ body ++ .label skip :: rest :=
      List.mem_append_right _ (List.mem_cons_self ..)
    simp only [skipUnless, List.mem_append, List.mem_cons] at hmem
    rcases hmem with ((h | h | h) | h) | h | h
    · exact .inl ((Linear.ofInstrs _).jump cc l h)
    · cases h
      exact .inr hplaced
    · cases h
    · exact .inl (hbody.jump cc l h)
    · cases h
    · exact .inl (hrest.jump cc l h)

theorem conditional (hbody : Linear body) : Local skip (conditional cond skip body) := by
  unfold Block.conditional
  split
  · exact of_linear hbody
  · exact skipUnless_append hbody (.ofInstrs [])

end Local

/-! ## Native code -/

theorem exists_of_dataProcessing? {d : DataProcessing}
    (h : dataProcessing? cond skip addr d = some code) :
    ∃ is, conditional cond skip (Code.ofInstrs is) = code := by
  obtain ⟨⟨b, carry⟩, -, h⟩ := Option.bind_eq_some_iff.1 h
  obtain ⟨is, -, h⟩ := Option.bind_eq_some_iff.1 h
  exact ⟨is, Option.some.inj h⟩

theorem supported_of_transfer? {t : Transfer} (h : transfer? helpers cond skip addr t = some code) :
    transferSupported t = true ∧ conditional cond skip (transferBody helpers addr t) = code := by
  unfold transfer? at h
  split at h
  · rename_i hsupported
    exact ⟨hsupported, Option.some.inj h⟩
  · cases h

theorem supported_of_multiTransfer? {t : MultiTransfer}
    (h : multiTransfer? helpers cond skip t = some code) :
    multiTransferSupported t = true ∧
      conditional cond skip (multiTransferBody helpers t) = code := by
  unfold multiTransfer? at h
  split at h
  · rename_i hsupported
    exact ⟨hsupported, Option.some.inj h⟩
  · cases h

theorem Local.native {op : Operation} (h : native? helpers cond skip addr op = some code) :
    Local skip code := by
  cases op with
  | dataProcessing d =>
      obtain ⟨is, rfl⟩ := exists_of_dataProcessing? h
      exact .conditional (.ofInstrs is)
  | transfer t =>
      obtain ⟨-, rfl⟩ := supported_of_transfer? h
      exact .conditional (.transferBody addr t)
  | multiTransfer t =>
      obtain ⟨-, rfl⟩ := supported_of_multiTransfer? h
      exact .conditional (.multiTransferBody t)
  | branch b =>
      obtain ⟨taken, htaken, rfl⟩ := Option.map_eq_some_iff.1 h
      split
      · exact .of_linear (.takenBranch htaken)
      · exact .skipUnless_append (.takenBranch htaken) (.ofInstrs _)
  | coprocessor =>
      cases h
      exact .of_linear (.ofInstrs [])
  | statusTransfer s => cases h
  | unknown w => cases h

/-- The host code of an instruction at an address, with its encoding in case it goes
through the interpreter. -/
def translate (helpers : Helpers) (skip : Label) (i : Instruction) (addr word : Word) : Code :=
  (native? helpers i.cond skip addr i.op).getD (interpret helpers addr word i.writesPc)

theorem Local.translate (skip : Label) (i : Instruction) (addr word : Word) :
    Local skip (translate helpers skip i addr word) := by
  unfold Block.translate
  cases h : native? helpers i.cond skip addr i.op with
  | none => exact .of_linear (.interpret _ _ _)
  | some code => exact .native h

/-! ## Pieces -/

/-- The code of each instruction where the first one uses the label
{lit}`k + 1`. -/
def piecesFrom (helpers : Helpers) (k : Nat) : List Fetched → List Code
  | [] => []
  | f :: fs => lower helpers (k + 1) f :: piecesFrom helpers (k + 1) fs

theorem mapIdx_lower (helpers : Helpers) (k : Nat) (instrs : List Fetched) :
    (instrs.mapIdx fun i f => lower helpers (k + i + 1) f) = piecesFrom helpers k instrs := by
  induction instrs generalizing k with
  | nil => rfl
  | cons f fs ih =>
      rw [List.mapIdx_cons, piecesFrom, ← ih]
      simp only [Nat.add_zero, Nat.add_assoc, Nat.add_comm 1]

theorem pieces_eq (helpers : Helpers) (instrs : List Fetched) :
    pieces helpers instrs = piecesFrom helpers 0 instrs := by
  rw [← mapIdx_lower, pieces]
  simp only [Nat.zero_add]

/-- Pieces of code that use one label each: the first one {lit}`k + 1`, and each the
next after the one before it. -/
def Numbered : Nat → List Code → Prop
  | _, [] => True
  | k, piece :: pieces => Local (k + 1) piece ∧ Numbered (k + 1) pieces

theorem numbered_piecesFrom (helpers : Helpers) (k : Nat) (instrs : List Fetched) :
    Numbered k (piecesFrom helpers k instrs) := by
  induction instrs generalizing k with
  | nil => trivial
  | cons f fs ih => exact ⟨.translate (k + 1) _ _ _, ih (k + 1)⟩

/-- Later pieces place later labels. -/
theorem Numbered.lt_of_label_mem {l : Label} {k : Nat} {pieces : List Code}
    (hpieces : Numbered k pieces) (h : Item.label l ∈ pieces.flatten) : k < l := by
  induction pieces generalizing k with
  | nil => cases h
  | cons piece pieces ih =>
      rw [List.flatten_cons, List.mem_append] at h
      rcases h with h | h
      · rw [hpieces.1.label l h]
        exact Nat.lt_succ_self k
      · exact Nat.lt_of_succ_lt (ih hpieces.2 h)

/-- The end of a block places the label of the fault exit only. -/
theorem eq_of_label_mem_closing {l : Label} {next? : Option Word}
    (h : Item.label l ∈ closing next?) : l = faultLabel := by
  rw [closing, faultExit, List.mem_append, List.mem_cons] at h
  rcases h with h | h | h
  · exact absurd h (Code.label_notMem_ofInstrs _ _)
  · cases h
    rfl
  · exact absurd h (Code.label_notMem_ofInstrs _ _)

/-- What lies behind a piece does not place its label. -/
theorem Numbered.label_notMem {k : Nat} {pieces : List Code} (hpieces : Numbered (k + 1) pieces)
    (next? : Option Word) : Item.label (k + 1) ∉ pieces.flatten ++ closing next? := by
  intro h
  rcases List.mem_append.1 h with h | h
  · exact absurd (hpieces.lt_of_label_mem h) (Nat.lt_irrefl _)
  · cases eq_of_label_mem_closing h

/-! ## Encoding -/

/-- A jump out of a piece goes to the fault exit or stays among the pieces. -/
theorem Numbered.target_of_jump_mem {cc : Host.Cc} {l : Label} {k : Nat} {pieces : List Code}
    (hpieces : Numbered k pieces) (h : Item.jump cc l ∈ pieces.flatten) :
    l = faultLabel ∨ Item.label l ∈ pieces.flatten := by
  induction pieces generalizing k with
  | nil => cases h
  | cons piece pieces ih =>
      rw [List.flatten_cons, List.mem_append] at h ⊢
      rcases h with h | h
      · exact (hpieces.1.jump cc l h).imp id .inl
      · exact (ih hpieces.2 h).imp id .inr

/-- Numbered pieces in the frame of a block can be encoded. -/
theorem Numbered.encode?_isSome {pieces : List Code} (hpieces : Numbered 0 pieces)
    (next? : Option Word) :
    ((Code.ofInstrs prologue ++ pieces.flatten ++ closing next?).encode?).isSome := by
  apply Code.encode?_isSome_iff.2
  intro cc l h
  rw [List.mem_append, List.mem_append] at h ⊢
  have hfault : Item.label faultLabel ∈ closing next? :=
    List.mem_append_right _ (List.mem_cons_self ..)
  rcases h with (h | h) | h
  · rw [(Linear.ofInstrs prologue).jump cc l h]
    exact .inr hfault
  · rcases hpieces.target_of_jump_mem h with rfl | hplaced
    · exact .inr hfault
    · exact .inl (.inr hplaced)
  · rw [closing, faultExit, List.mem_append, List.mem_cons] at h
    rcases h with h | h | h
    · rw [(Linear.ofInstrs _).jump cc l h]
      exact .inr hfault
    · cases h
    · rw [(Linear.ofInstrs _).jump cc l h]
      exact .inr hfault

/-- The code of a block can be encoded. -/
theorem encode?_code_isSome (helpers : Helpers) (instrs : List Fetched) (next? : Option Word) :
    ((Block.code helpers instrs next?).encode?).isSome := by
  rw [Block.code, pieces_eq]
  exact (numbered_piecesFrom helpers 0 instrs).encode?_isSome next?

end ArmEmulator.Block
