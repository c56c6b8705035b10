/-!
# Plain text for terminals

Messages quote what the user wrote, which may hold control characters and terminal
control sequences.  Where a message is not shown on a terminal, neither is kept:
only white space survives of the control characters, and a sequence is dropped from
its escape character to its end.

White space inside a sequence is shown, and so is what follows it up to the next
character that is hidden by itself; there the sequence goes on.
-/

namespace ArmEmulator.Terminal

/-! ## Characters -/

/-- Whether a character is white space of the basic set. -/
def isBlank (c : Char) : Bool :=
  c = ' ' || c = '\t' || c = '\n' || c = '\x0c' || c = '\r'

/-- Whether a character is shown outside of sequences: white space, and all but the
control characters of the basic set. -/
def isPrintable (c : Char) : Bool :=
  isBlank c || (0x20 ≤ c.toNat && c ≠ '\x7f')

/-! ## Sequences -/

/-- Where a reader of terminal text stands in a sequence. -/
inductive State where
  /-- Outside of sequences. -/
  | ground
  /-- After the escape character. -/
  | escape
  /-- In an escape sequence that names a character set. -/
  | charset
  /-- In a control sequence. -/
  | control
  /-- At the start of a device control string. -/
  | device
  /-- Among the parameters of a device control string. -/
  | deviceParameter
  /-- In the marks before the text of a device control string. -/
  | deviceMark
  /-- In a string that ends at its terminator. -/
  | string
  /-- In an operating system command, which a bell ends too. -/
  | command
deriving DecidableEq

/-- Whether control characters act inside a sequence, so that white space is
shown. -/
def State.executes : State → Bool
  | ground | escape | charset | control => true
  | device | deviceParameter | deviceMark | string | command => false

/-- The state after a character of the basic set, which is given by its number. -/
def State.next (s : State) (n : Nat) : State :=
  if n = 0x1b then .escape
  else if n = 0x18 ∨ n = 0x1a then .ground
  else if n = 0x07 ∧ s = .command then .ground
  else if n < 0x20 ∨ n = 0x7f then s
  else
    match s with
    | .ground => .ground
    | .escape =>
      if n < 0x30 then .charset
      else if n = 0x50 then .device
      else if n = 0x5b then .control
      else if n = 0x5d then .command
      else if n = 0x58 ∨ n = 0x5e ∨ n = 0x5f then .string
      else .ground
    | .charset => if n < 0x30 then .charset else .ground
    | .control => if n < 0x40 then .control else .ground
    | .device =>
      if n < 0x30 then .deviceMark else if n < 0x40 then .deviceParameter else .string
    | .deviceParameter =>
      if n < 0x30 then .deviceMark
      else if n < 0x3c then .deviceParameter
      else .string
    | .deviceMark => if n < 0x30 then .deviceMark else .string
    | .string => .string
    | .command => .command

/-- The state after a hidden character outside of the basic set.  A byte 9C in its
encoding ends a string. -/
def State.nextWide (s : State) (c : Char) : State :=
  if s = .string ∧ 0x9c ∈ String.utf8EncodeChar c then .ground else s

/-! ## Reading -/

/-- A reader of terminal text: where it stands, and whether it showed the last
character. -/
structure Reader where
  state : State
  showing : Bool
deriving DecidableEq

namespace Reader

/-- A reader outside of sequences. -/
def start : Reader :=
  ⟨.ground, false⟩

/-- Reads a character of the basic set.  A reader that is showing goes on with every
printable character. -/
def readBasic (r : Reader) (c : Char) : Reader :=
  if r.showing && isPrintable c then r
  else
    let showing :=
      if r.state = .ground then isPrintable c else r.state.executes && c ≠ ' ' && isBlank c
    ⟨r.state.next c.toNat, showing⟩

/-- Reads a character. -/
def read (r : Reader) (c : Char) : Reader :=
  if c.toNat < 0x80 then r.readBasic c
  else if r.showing || r.state = .ground then ⟨.ground, true⟩
  else ⟨r.state.nextWide c, false⟩

/-- What is shown of some characters. -/
def visible : Reader → List Char → List Char
  | _, [] => []
  | r, c :: cs =>
    let next := r.read c
    if next.showing then c :: next.visible cs else next.visible cs

/-- The reader after some characters. -/
def readAll (r : Reader) (cs : List Char) : Reader :=
  cs.foldl read r

end Reader

/-! ## Messages -/

/-- A stretch of a message.  An emphasised stretch lies between two complete
sequences, which end whatever sequence is open. -/
inductive Span where
  | plain (text : String)
  | emphasised (text : String)
deriving DecidableEq

/-- What is shown of a message. -/
def shown : Reader → List Span → List Char
  | _, [] => []
  | r, .plain text :: spans => r.visible text.toList ++ shown (r.readAll text.toList) spans
  | _, .emphasised text :: spans => Reader.start.visible text.toList ++ shown .start spans

/-- A message as plain text. -/
def plainText (spans : List Span) : String :=
  String.ofList (shown .start spans)

end ArmEmulator.Terminal
