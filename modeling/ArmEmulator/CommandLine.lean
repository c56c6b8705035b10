import ArmEmulator.Emulator
import ArmEmulator.Listing
import ArmEmulator.Text.Numeral
import ArmEmulator.Text.Terminal

/-!
# Command line

What the program is asked to do and what it answers.  Arguments are an image to
run, settings that take a value, and switches that take none.  A value follows its
setting as an argument of its own, which must not look like an option, or is
attached to it: {lit}`-l 5`, {lit}`-l5`, {lit}`-l=5`, {lit}`--ram-base=5`.  Every
argument after {lit}`--` is the image.

A value that is an argument of its own is read only when the next argument is
taken, so an unknown argument right after it is reported first.
-/

namespace ArmEmulator.CommandLine

open Terminal (Span)

/-! ## Arguments -/

/-- What takes a value: the image, which has no name, and the named settings. -/
inductive Setting where
  | image
  | loadAddress
  | mode
  | ramBase
  | ramSize
  | limit
  | disassemble
deriving DecidableEq

/-- What takes no value. -/
inductive Switch where
  | trace
  | verbose
  | help
  | version
deriving DecidableEq

/-- What an option names. -/
inductive Key where
  | setting (s : Setting)
  | switch (s : Switch)
deriving DecidableEq

/-- The option with a long name. -/
def Key.ofLong? : String → Option Key
  | "load-address" => some (.setting .loadAddress)
  | "mode" => some (.setting .mode)
  | "ram-base" => some (.setting .ramBase)
  | "ram-size" => some (.setting .ramSize)
  | "limit" => some (.setting .limit)
  | "disassemble" => some (.setting .disassemble)
  | "trace" => some (.switch .trace)
  | "verbose" => some (.switch .verbose)
  | "help" => some (.switch .help)
  | "version" => some (.switch .version)
  | _ => none

/-- The option with a short name. -/
def Key.ofShort? : Char → Option Key
  | 'l' => some (.setting .loadAddress)
  | 'm' => some (.setting .mode)
  | 'n' => some (.setting .limit)
  | 'd' => some (.setting .disassemble)
  | 't' => some (.switch .trace)
  | 'v' => some (.switch .verbose)
  | 'h' => some (.switch .help)
  | 'V' => some (.switch .version)
  | _ => none

/-- How a setting is written. -/
def Setting.usage : Setting → String
  | image => "<ROM>"
  | loadAddress => "--load-address <LOAD_ADDRESS>"
  | mode => "--mode <MODE>"
  | ramBase => "--ram-base <RAM_BASE>"
  | ramSize => "--ram-size <RAM_SIZE>"
  | limit => "--limit <LIMIT>"
  | disassemble => "--disassemble <DISASSEMBLE>"

/-- How a switch is written; dots follow one that may be repeated. -/
def Switch.usage : Switch → String
  | trace => "--trace"
  | verbose => "--verbose..."
  | help => "--help"
  | version => "--version"

/-! ## Errors -/

/-- What is wrong with the arguments. -/
inductive UsageError where
  | unknownArgument (text : String)
  | unexpectedValue (s : Switch) (value : String)
  | repeated (usage : String)
  | missingValue (s : Setting)
  | invalidWord (s : Setting) (value : String) (cause : Numeral.Error)
  | invalidCount (s : Setting) (value : String) (cause : Numeral.Error)
  | invalidMode (value : String)
  | missingImage
deriving DecidableEq

/-- The message about a value that cannot be read. -/
def invalidValue (s : Setting) (value : String) : List Span :=
  [.plain "invalid value '", .emphasised value, .plain "' for '", .emphasised s.usage, .plain "'"]

/-- The text of a usage error.  What the user wrote is emphasised, but for the
repetition of a number in the reason against it. -/
def UsageError.message : UsageError → List Span
  | unknownArgument text => [.plain "unexpected argument '", .emphasised text, .plain "' found"]
  | unexpectedValue s value =>
    [.plain "unexpected value '", .emphasised value, .plain "' for '", .emphasised s.usage,
      .plain "' found; no more were expected"]
  | repeated usage =>
    [.plain "the argument '", .emphasised usage, .plain "' cannot be used multiple times"]
  | missingValue s =>
    [.plain "a value is required for '", .emphasised s.usage, .plain "' but none was supplied"]
  | invalidWord s value cause =>
    invalidValue s value ++ [.plain (": invalid number " ++ value ++ ": " ++ cause.message)]
  | invalidCount s value cause => invalidValue s value ++ [.plain (": " ++ cause.message)]
  | invalidMode value =>
    invalidValue .mode value ++ [.plain "\n  [possible values: interpret, translate]"]
  | missingImage =>
    [.plain "the following required arguments were not provided:\n  ",
      .emphasised Setting.image.usage]

/-- Why the arguments do not ask for a run. -/
inductive Halt where
  | help
  | version
  | usage (error : UsageError)
deriving DecidableEq

/-! ## Values -/

/-- What the arguments have given so far. -/
structure Given where
  image? : Option String
  loadAddress? : Option Word
  mode? : Option ExecMode
  ramBase? : Option Word
  ramSize? : Option Word
  limit? : Option Nat
  disassemble? : Option Nat
  trace : Bool
deriving DecidableEq

namespace Given

/-- Nothing given. -/
def nothing : Given :=
  ⟨none, none, none, none, none, none, none, false⟩

/-- Whether a setting has been given. -/
def has (g : Given) : Setting → Bool
  | .image => g.image?.isSome
  | .loadAddress => g.loadAddress?.isSome
  | .mode => g.mode?.isSome
  | .ramBase => g.ramBase?.isSome
  | .ramSize => g.ramSize?.isSome
  | .limit => g.limit?.isSome
  | .disassemble => g.disassemble?.isSome

/-- Reads the value of a setting that has not been given; a repeated setting is
reported before its value. -/
def set (g : Given) (s : Setting) (value : String) : Except UsageError Given :=
  let word := (Numeral.readWord value).mapError (UsageError.invalidWord s value)
  let count := (Numeral.readCount value).mapError (UsageError.invalidCount s value)
  if g.has s then
    .error (.repeated s.usage)
  else
    match s with
    | .image =>
      if value.isEmpty then .error (.missingValue .image) else .ok { g with image? := some value }
    | .mode =>
      match value with
      | "interpret" => .ok { g with mode? := some .interpreted }
      | "translate" => .ok { g with mode? := some .translated }
      | "" => .error (.missingValue .mode)
      | _ => .error (.invalidMode value)
    | .loadAddress => word.map fun w => { g with loadAddress? := some w }
    | .ramBase => word.map fun w => { g with ramBase? := some w }
    | .ramSize => word.map fun w => { g with ramSize? := some w }
    | .limit => count.map fun n => { g with limit? := some n }
    | .disassemble => count.map fun n => { g with disassemble? := some n }

/-- Turns a switch on.  Only {lit}`verbose` may be repeated; it changes nothing,
since nothing is logged. -/
def turnOn (g : Given) : Switch → Except Halt Given
  | .trace =>
    if g.trace then .error (.usage (.repeated Switch.trace.usage)) else .ok { g with trace := true }
  | .verbose => .ok g
  | .help => .error .help
  | .version => .error .version

end Given

/-! ## Scanning -/

/-- What has been given, and the setting that was named or placed last with its
value once that has come; it is read when the next argument is taken. -/
structure Scan where
  given : Given
  pending? : Option (Setting × Option String)
deriving DecidableEq

namespace Scan

/-- Before the first argument. -/
def start : Scan :=
  ⟨.nothing, none⟩

/-- Gives a setting its value. -/
def assign (s : Scan) (k : Setting) (value : String) : Except Halt Scan :=
  match s.given.set k value with
  | .ok given => .ok ⟨given, none⟩
  | .error e => .error (.usage e)

/-- Reads the pending value. -/
def settle (s : Scan) : Except Halt Scan :=
  match s.pending? with
  | none => .ok s
  | some (k, none) => .error (.usage (.missingValue k))
  | some (k, some value) => s.assign k value

/-- Takes an option with its attached value, if there is one. -/
def option (s : Scan) (k : Key) (value? : Option String) : Except Halt Scan := do
  match k, value? with
  | .setting k, some value => (← s.settle).assign k value
  | .setting k, none => return { ← s.settle with pending? := some (k, none) }
  | .switch k, some value => .error (.usage (.unexpectedValue k value))
  | .switch k, none =>
    let s ← s.settle
    return { s with given := ← s.given.turnOn k }

/-- Takes the text after {lit}`--`: a long name, perhaps with a value after an equals
sign. -/
def long (s : Scan) (text : List Char) : Except Halt Scan :=
  let name := String.ofList (text.takeWhile (· ≠ '='))
  let value? := match text.dropWhile (· ≠ '=') with
    | [] => none
    | _ :: value => some (String.ofList value)
  match Key.ofLong? name with
  | none => .error (.usage (.unknownArgument ("--" ++ name)))
  | some k => s.option k value?

/-- Takes the text after {lit}`-`: switches, then perhaps a setting with its value. -/
def short (s : Scan) : List Char → Except Halt Scan
  | [] => .ok s
  | c :: rest =>
    match Key.ofShort? c with
    | none => .error (.usage (.unknownArgument ("-" ++ c.toString)))
    | some (.switch k) => do short (← s.option (.switch k) none) rest
    | some (.setting k) =>
      match rest with
      | [] => s.option (.setting k) none
      | '=' :: value => s.option (.setting k) (some (String.ofList value))
      | value => s.option (.setting k) (some (String.ofList value))

/-- Whether the image has been given. -/
def hasImage (s : Scan) : Bool :=
  s.given.has .image || s.pending?.any (·.1 = .image)

/-- Takes an argument that is no option and no value. -/
def place (s : Scan) (arg : String) : Except Halt Scan := do
  if s.hasImage then
    .error (.usage (.unknownArgument arg))
  else
    return { ← s.settle with pending? := some (.image, some arg) }

/-- Takes an argument before {lit}`--`. -/
def take (s : Scan) (arg : String) : Except Halt Scan :=
  match arg.toList, s.pending? with
  | '-' :: '-' :: text, _ => s.long text
  | '-' :: c :: text, _ => s.short (c :: text)
  | _, some (k, none) => .ok { s with pending? := some (k, some arg) }
  | _, _ => s.place arg

/-- Takes arguments in order. -/
def takeAll : Scan → List String → Except Halt Scan
  | s, [] => s.settle
  | s, "--" :: args => do (← args.foldlM place s).settle
  | s, arg :: args => do takeAll (← s.take arg) args

end Scan

/-! ## Options -/

/-- A run that is asked for; a limit of zero is none. -/
structure Options where
  image : String
  loadAddress? : Option Word
  mode : ExecMode
  ramBase : Word
  ramSize : Word
  limit : Nat
  disassemble : Nat
  trace : Bool
deriving DecidableEq

/-- The run that arguments ask for. -/
def parse (args : List String) : Except Halt Options := do
  let s ← Scan.start.takeAll args
  let g := s.given
  match g.image? with
  | none => .error (.usage .missingImage)
  | some image =>
    return {
      image
      loadAddress? := g.loadAddress?
      mode := g.mode?.getD .interpreted
      ramBase := g.ramBase?.getD 0
      ramSize := g.ramSize?.getD 0x1000000
      limit := g.limit?.getD 100000000
      disassemble := g.disassemble?.getD 0
      trace := g.trace }

/-- The settings of the emulator for a run: the image is entered where it is
loaded. -/
def Options.configuration (o : Options) : Configuration :=
  { Configuration.default with
    ramBase := o.ramBase
    ramSize := o.ramSize.setWidth 64
    defaultEntry := o.loadAddress?.getD o.ramBase
    instructionLimit? := if o.limit = 0 then none else some o.limit
    mode := o.mode
    trace := o.trace }

/-! ## Reports -/

/-- What the program answers: an exit code, lines of output, and diagnostics. -/
structure Report where
  code : UInt32
  output : List String
  diagnostics : String
deriving DecidableEq

/-- How a stop reason is printed. -/
def stopText : StopReason → String
  | .stopRequested => "StopRequested"
  | .budgetExhausted => "BudgetExhausted"
  | .selfLoop addr => "SelfLoop \x7b addr: " ++ toString addr.toNat ++ " \x7d"
  | .exitCondition => "ExitCondition"

/-- The lines about a finished run: how it ended, what went wrong if anything did,
and the processor. -/
def summaryLines {ω : Type} (e : Emulator ω) (s : RunSummary) : List String :=
  let counted (n : Nat) (what : String) := if n = 0 then [] else [toString n ++ " " ++ what]
  ["stopped after " ++ toString s.instructions ++ " instructions: " ++ stopText s.reason] ++
    counted e.unhandled "unhandled instructions" ++
    counted e.bus.unmapped "unmapped accesses" ++
    e.cpu.lines

/-- A failure after some lines of output, with what caused it. -/
def Report.failure (output : List String) (message : String) (causes : List String) : Report where
  code := 1
  output := output
  diagnostics :=
    "Error: " ++ message ++ "\n" ++
      if causes.isEmpty then ""
      else "\nCaused by:\n" ++ String.join (causes.map fun c => "    " ++ c ++ "\n")

variable [Block.HelperTable]

/-- The answer to a run of the image that was read from its file; none if the run
does not end, or if an overflow ends the program, which sizes of 32 bits rule out. -/
def Options.report? (o : Options) (d : Disassembler) (file : Except String (List Byte)) :
    Option Report :=
  match Emulator.create o.configuration () with
  | .error (.overflow _) => none
  | .error (.invalid err) => some (.failure [] "invalid configuration" [err.message])
  | .ok e =>
    match e.loadRom o.image file o.loadAddress? with
    | .error err => some (.failure [] err.message err.causes)
    | .ok e =>
      let listing :=
        if o.disassemble = 0 then [] else e.bus.ram.listing d e.cpu.pc o.disassemble ++ [""]
      e.run?.map fun
        | (.error err, _) => .failure listing err.message err.causes
        | (.ok summary, e) => ⟨0, listing ++ summaryLines e summary, ""⟩

/-- The usage of the program. -/
def help : List String :=
  ["Runs ARM firmware images, interpreted or translated to x86-64 code",
    "",
    "Usage: armbox [OPTIONS] <ROM>",
    "",
    "Arguments:",
    "  <ROM>  Raw firmware image",
    "",
    "Options:",
    "  -l, --load-address <LOAD_ADDRESS>  Load address, also used as the entry point",
    "  -m, --mode <MODE>                  interpret or translate [default: interpret]",
    "      --ram-base <RAM_BASE>          RAM base address [default: 0]",
    "      --ram-size <RAM_SIZE>          RAM size in bytes [default: 0x1000000]",
    "  -n, --limit <LIMIT>                Stop after this many instructions, 0 for no limit " ++
      "[default: 100000000]",
    "  -t, --trace                        Log every executed instruction",
    "  -d, --disassemble <DISASSEMBLE>    Print this many instructions before running [default: 0]",
    "  -v, --verbose                      Raise the log level",
    "  -h, --help                         Print help",
    "  -V, --version                      Print version"]

/-- The answer where no run is asked for. -/
def Halt.report : Halt → Report
  | help => ⟨0, CommandLine.help, ""⟩
  | version => ⟨0, ["armbox 0.1.0"], ""⟩
  | usage e =>
    { code := 2
      output := []
      diagnostics := Terminal.plainText
        ([.emphasised "error:", .plain " "] ++ e.message ++
          [.plain "\n\nFor more information, try '", .emphasised "--help", .plain "'.\n"]) }

/-- Why a file cannot be read. -/
inductive FileError where
  | missing
  | denied
  | directory
  | nameTooLong
  | other (text : String)
deriving DecidableEq

/-- The text of a file error. -/
def FileError.message : FileError → String
  | missing => "No such file or directory (os error 2)"
  | denied => "Permission denied (os error 13)"
  | directory => "Is a directory (os error 21)"
  | nameTooLong => "File name too long (os error 36)"
  | other text => text

/-- The answer to some arguments, where {lit}`read` gives the bytes of a file or the
reason why they cannot be read. -/
def answer? (d : Disassembler) (args : List String)
    (read : String → Except FileError (List Byte)) : Option Report :=
  match parse args with
  | .error halt => some halt.report
  | .ok o => o.report? d ((read o.image).mapError FileError.message)

end ArmEmulator.CommandLine
