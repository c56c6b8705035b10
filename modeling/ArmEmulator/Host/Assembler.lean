import ArmEmulator.Host.Encoding

/-!
# Assembler

Builds host code one piece at a time, giving out labels and counting the
temporaries that lie on the stack.
-/

namespace ArmEmulator.Host

/-- Code under construction: the code so far, the number of labels given out, and
the number of temporaries pushed and not yet popped. -/
structure Assembler where
  code : Code
  labels : Nat
  /-- Below zero where more are popped than were pushed, at which the program ends. -/
  temporaries : Int

namespace Assembler

/-- No code yet. -/
def empty : Assembler where
  code := []
  labels := 0
  temporaries := 0

/-- Appends an instruction. -/
def emit (asm : Assembler) (i : Instr) : Assembler :=
  { asm with code := asm.code ++ [.instr i] }

/-- Pushes a temporary. -/
def pushTemporary (asm : Assembler) (r : Reg) : Assembler :=
  { asm.emit (.push r) with temporaries := asm.temporaries + 1 }

/-- Pops a temporary. -/
def popTemporary (asm : Assembler) (r : Reg) : Assembler :=
  { asm.emit (.pop r) with temporaries := asm.temporaries - 1 }

/-- Gives out a new label. -/
def newLabel (asm : Assembler) : Label × Assembler :=
  (asm.labels, { asm with labels := asm.labels + 1 })

/-- Places a label at the end of the code; an earlier place of it is forgotten. -/
def bind (asm : Assembler) (l : Label) : Assembler :=
  { asm with code := asm.code ++ [.label l] }

/-- Appends a conditional jump. -/
def jump (asm : Assembler) (cc : Cc) (target : Label) : Assembler :=
  { asm with code := asm.code ++ [.jump cc target] }

/-- The number of bytes of the code so far. -/
def size (asm : Assembler) : Nat :=
  asm.code.size

/-- The number of bytes the temporaries take on the stack. -/
def stackDepth (asm : Assembler) : Int :=
  8 * asm.temporaries

/-- The bytes of the code; none if a jump goes to a label that was never placed. -/
def finish? (asm : Assembler) : Option (List Byte) :=
  asm.code.encode?

end Assembler

end ArmEmulator.Host
