import ArmEmulator.Block.Branch
import ArmEmulator.Block.DataProcessing
import ArmEmulator.Block.Transfer
import ArmEmulator.Guest.Decoding

/-!
# Code of a translated block

The host code of a run of guest instructions: the prologue, the code of each
instruction, an exit to the next instruction unless the last one leaves the
block itself, and the exit after a failed helper.

Main results:

- Theorem {lit}`length_pieces`: every instruction has its own piece of code.
-/

namespace ArmEmulator.Block

open Host (Code Label)

/-- A guest word with its address. -/
structure Fetched where
  addr : Word
  word : Word
deriving DecidableEq

/-- The host code of an operation; none if it goes through the interpreter. -/
def native? (helpers : Helpers) (cond : Cond) (skip : Label) (addr : Word) (op : Operation) :
    Option Code :=
  match op with
  | .dataProcessing d => dataProcessing? cond skip addr d
  | .transfer t => transfer? helpers cond skip addr t
  | .multiTransfer m => multiTransfer? helpers cond skip m
  | .branch b => branch? cond skip addr b
  | .coprocessor => some []
  | .statusTransfer _ | .unknown _ => none

/-- The host code of an instruction; {lit}`skip` is a label for its own use. -/
def lower (helpers : Helpers) (skip : Label) (f : Fetched) : Code :=
  let i := Instruction.decode f.word
  (native? helpers i.cond skip f.addr i.op).getD
    (interpret helpers f.addr f.word i.writesPc)

/-- The code of each instruction; the {lit}`k`-th uses the label {lit}`k + 1`. -/
def pieces (helpers : Helpers) (instrs : List Fetched) : List Code :=
  instrs.mapIdx fun k f => lower helpers (k + 1) f

@[simp]
theorem length_pieces (helpers : Helpers) (instrs : List Fetched) :
    (pieces helpers instrs).length = instrs.length := by
  simp [pieces]

/-- The end of a block: the exit to {lit}`next?`, if there is one, and the exit
after a failed helper. -/
def closing (next? : Option Word) : Code :=
  Code.ofInstrs (next?.elim [] exitTo) ++ faultExit

/-- The code of a block. -/
def code (helpers : Helpers) (instrs : List Fetched) (next? : Option Word) : Code :=
  Code.ofInstrs prologue ++ (pieces helpers instrs).flatten ++ closing next?

/-- The position of the code of each instruction, and last the position of the
end of the block. -/
def positions (helpers : Helpers) (instrs : List Fetched) : List Nat :=
  (pieces helpers instrs).foldr
    (fun piece after pos => pos :: after (pos + piece.size)) (fun pos => [pos])
    (Code.size (Code.ofInstrs prologue))

end ArmEmulator.Block
