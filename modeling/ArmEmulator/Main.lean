import ArmEmulator.CommandLine

/-!
# Program

Reads the image that the arguments name, runs it, and prints the report.  There is no
disassembler, so every word is listed as data.
-/

open ArmEmulator CommandLine

namespace ArmEmulator.Program

/-- Addresses for the helpers.  The code of blocks is not run by the host, so any three
will do. -/
@[reducible]
def helperTable : Block.HelperTable where
  interpret := 0x1111111111111111
  load := 0x2222222222222222
  store := 0x3333333333333333
  load_ne_interpret := by decide
  store_ne_interpret := by decide
  store_ne_load := by decide

/-- The bytes of a file, or the reason why they cannot be read. -/
def readImage (path : String) : IO (Except FileError (List Byte)) := do
  try
    let bytes ← IO.FS.readBinFile path
    return .ok (bytes.toList.map (·.toBitVec))
  catch
    | .noFileOrDirectory .. => return .error .missing
    | .permissionDenied .. => return .error .denied
    | .inappropriateType .. => return .error .directory
    | e => return .error (.other (toString e))

/-- Prints a report. -/
def print (r : Report) : IO UInt32 := do
  for line in r.output do
    IO.println line
  IO.eprint r.diagnostics
  return r.code

end ArmEmulator.Program

attribute [local instance] ArmEmulator.Program.helperTable

/-- Runs the program on its arguments. -/
def main (args : List String) : IO UInt32 := do
  match parse args with
  | .error halt => Program.print halt.report
  | .ok o =>
    let file ← Program.readImage o.image
    match o.report? (fun _ _ => none) (file.mapError FileError.message) with
    | some r => Program.print r
    | none => return 1
