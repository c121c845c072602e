import JackTree.Compiler

/-!
# Command line arguments

The arguments of the program: options with a value, flags, and the paths of the
inputs.  Arguments are read from left to right.  A value is checked when the
argument after it shows that it is complete, so of two mistakes the later one
can come first only if it makes an argument unreadable as such.
-/

namespace JackTree

/-! ## What the arguments say -/

inductive Shell where
  | bash | elvish | fish | powershell | zsh
  deriving DecidableEq, Repr

structure Arguments where
  paths : List Path := []
  outputDirectory : Option Path := none
  emit : Emit := .tree
  lineEnding : LineEnding := .crlf
  indent : Nat := 0
  strictStrings : Bool := false
  recursive : Bool := false
  jobs : Option Nat := none
  completions : Option Shell := none
  verbose : Nat := 0
  quiet : Nat := 0
  noColor : Bool := false
  deriving DecidableEq, Repr

/-- Why arguments were not taken, or what they ask for instead of a compilation. -/
inductive ArgumentError where
  | displayHelp
  | displayVersion
  | invalidValue
  | valueValidation
  | unknownArgument
  | argumentConflict
  | tooManyValues
  | missingRequiredArgument
  deriving DecidableEq, Repr

def ArgumentError.exitCode : ArgumentError → Nat
  | displayHelp | displayVersion => 0
  | _ => 2

inductive LogLevel where
  | off | error | info | debug | trace
  deriving DecidableEq, Repr

namespace Arguments

/-- How often more output was asked for, less how often less of it was. -/
def verbosity (arguments : Arguments) : Int :=
  (min arguments.verbose 2 : Nat) - (min arguments.quiet 2 : Nat)

def logLevel (arguments : Arguments) : LogLevel :=
  if arguments.verbosity ≤ -2 then .off
  else if arguments.verbosity = -1 then .error
  else if arguments.verbosity = 0 then .info
  else if arguments.verbosity = 1 then .debug
  else .trace

def compilerOptions (arguments : Arguments) : CompilerOptions where
  jobs := arguments.jobs.getD 1
  outputDirectory := arguments.outputDirectory
  recursive := arguments.recursive
  settings :=
    { emit := arguments.emit
      render := { lineEnding := arguments.lineEnding, indent := arguments.indent }
      lexer := { strictStrings := arguments.strictStrings } }

/-! ## Values -/

/-- The numbers that fit into a machine word. -/
def wordSize : Nat := Nat.pow 2 64

def digitsValue (digits : List Char) : Nat :=
  digits.foldl (fun value digit => 10 * value + (digit.toNat - '0'.toNat)) 0

/-- The number that a value spells: digits, with a plus sign in front or none. -/
def number? (value : String) : Option Nat :=
  let digits := match value.toList with
    | '+' :: rest => rest
    | all => all
  if digits.isEmpty || !digits.all Char.isDigit then none
  else if wordSize ≤ digitsValue digits then none
  else some (digitsValue digits)

def emit? (value : String) : Option Emit :=
  if value = "tree" then some .tree
  else if value = "tokens" then some .tokens
  else if value = "both" then some .both
  else none

def lineEnding? (value : String) : Option LineEnding :=
  if value = "crlf" then some .crlf
  else if value = "lf" then some .lf
  else none

def shell? (value : String) : Option Shell :=
  if value = "bash" then some .bash
  else if value = "elvish" then some .elvish
  else if value = "fish" then some .fish
  else if value = "powershell" then some .powershell
  else if value = "zsh" then some .zsh
  else none

/-- A path is any text but the empty one. -/
def path? (value : String) : Option Path :=
  if value.isEmpty then none else some (.ofString value)

/-! ## Options and flags -/

inductive ValueOption where
  | outputDirectory | emit | lineEnding | indent | jobs | completions
  deriving DecidableEq, Repr

inductive Flag where
  | strictStrings | recursive | verbose | quiet | noColor | help | version
  deriving DecidableEq, Repr

inductive Switch where
  | option (option : ValueOption)
  | flag (flag : Flag)
  deriving DecidableEq, Repr

def longSwitches : List (String × Switch) :=
  [("output-directory", .option .outputDirectory), ("emit", .option .emit),
    ("line-ending", .option .lineEnding), ("indent", .option .indent), ("jobs", .option .jobs),
    ("completions", .option .completions), ("strict-strings", .flag .strictStrings),
    ("recursive", .flag .recursive), ("verbose", .flag .verbose), ("quiet", .flag .quiet),
    ("no-color", .flag .noColor), ("help", .flag .help), ("version", .flag .version)]

def shortSwitches : List (Char × Switch) :=
  [('d', .option .outputDirectory), ('e', .option .emit), ('j', .option .jobs),
    ('r', .flag .recursive), ('v', .flag .verbose), ('q', .flag .quiet), ('h', .flag .help),
    ('V', .flag .version)]

def setOption (arguments : Arguments) (option : ValueOption) (value : String) :
    Except ArgumentError Arguments :=
  match option with
  | .outputDirectory =>
    match path? value with
    | some path => .ok { arguments with outputDirectory := some path }
    | none => .error .invalidValue
  | .emit =>
    match emit? value with
    | some emit => .ok { arguments with emit }
    | none => .error .invalidValue
  | .lineEnding =>
    match lineEnding? value with
    | some lineEnding => .ok { arguments with lineEnding }
    | none => .error .invalidValue
  | .indent =>
    match number? value with
    | some indent => .ok { arguments with indent }
    | none => .error .valueValidation
  | .jobs =>
    match number? value with
    | some jobs => .ok { arguments with jobs := some jobs }
    | none => .error .valueValidation
  | .completions =>
    match shell? value with
    | some shell => .ok { arguments with completions := some shell }
    | none => .error .invalidValue

/-- How often a flag may be repeated that counts. -/
def countLimit : Nat := 2

def setFlag (arguments : Arguments) (flag : Flag) : Except ArgumentError Arguments :=
  match flag with
  | .strictStrings =>
    if arguments.strictStrings then .error .argumentConflict
    else .ok { arguments with strictStrings := true }
  | .recursive =>
    if arguments.recursive then .error .argumentConflict
    else .ok { arguments with recursive := true }
  | .noColor =>
    if arguments.noColor then .error .argumentConflict
    else .ok { arguments with noColor := true }
  | .verbose =>
    if countLimit ≤ arguments.verbose then .error .valueValidation
    else .ok { arguments with verbose := arguments.verbose + 1 }
  | .quiet =>
    if countLimit ≤ arguments.quiet then .error .valueValidation
    else .ok { arguments with quiet := arguments.quiet + 1 }
  | .help => .error .displayHelp
  | .version => .error .displayVersion

end Arguments

end JackTree
