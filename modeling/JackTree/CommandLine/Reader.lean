import JackTree.CommandLine.Arguments

/-!
# Reading arguments

A reader goes through the arguments one by one.  It keeps what it has not taken
yet: an option that may still lack its value, or paths.  The next option, flag or
path, or the end, settles that first.
-/

namespace JackTree

inductive Pending where
  | nothing
  | option (option : Arguments.ValueOption) (value : Option String)
  | paths (values : List String)
  deriving DecidableEq, Repr

structure ArgumentReader where
  arguments : Arguments := {}
  taken : List Arguments.ValueOption := []
  pending : Pending := .nothing
  /-- Whether only paths can follow. -/
  pathsOnly : Bool := false
  deriving DecidableEq, Repr

namespace ArgumentReader

open Arguments

/-- Takes the value of an option, which must be its only one. -/
def takeOption (reader : ArgumentReader) (option : ValueOption) (value : String) :
    Except ArgumentError ArgumentReader :=
  if reader.taken.contains option then .error .argumentConflict
  else do
    let arguments ← reader.arguments.setOption option value
    return { reader with arguments, taken := option :: reader.taken, pending := .nothing }

/-- Takes paths, none of which may be empty. -/
def takePaths (reader : ArgumentReader) (values : List String) :
    Except ArgumentError ArgumentReader :=
  match values.mapM path? with
  | some paths =>
    .ok { reader with
      arguments := { reader.arguments with paths := reader.arguments.paths ++ paths }
      pending := .nothing }
  | none => .error .invalidValue

def settle (reader : ArgumentReader) : Except ArgumentError ArgumentReader :=
  match reader.pending with
  | .nothing => .ok reader
  | .option _ none => .error .invalidValue
  | .option option (some value) => reader.takeOption option value
  | .paths values => reader.takePaths values

def readFlag (reader : ArgumentReader) (flag : Flag) : Except ArgumentError ArgumentReader := do
  let reader ← reader.settle
  let arguments ← reader.arguments.setFlag flag
  return { reader with arguments }

/-- Reads an option, together with its value or before it. -/
def readOption (reader : ArgumentReader) (option : ValueOption) (value : Option String) :
    Except ArgumentError ArgumentReader := do
  let reader ← reader.settle
  match value with
  | some value => reader.takeOption option value
  | none => return { reader with pending := .option option none }

/-- Reads an argument that is no option, flag or value. -/
def readPath (reader : ArgumentReader) (argument : String) :
    Except ArgumentError ArgumentReader :=
  match reader.pending with
  | .paths values => .ok { reader with pending := .paths (values ++ [argument]) }
  | _ => do
    let reader ← reader.settle
    return { reader with pending := .paths [argument] }

/-- Reads a long name and, behind an equals sign, its value. -/
def readLong (reader : ArgumentReader) (text : List Char) :
    Except ArgumentError ArgumentReader :=
  let name := String.ofList (text.takeWhile (· != '='))
  let value := match text.dropWhile (· != '=') with
    | [] => none
    | _ :: rest => some (String.ofList rest)
  match longSwitches.lookup name with
  | none => .error .unknownArgument
  | some (.option option) => reader.readOption option value
  | some (.flag flag) =>
    match value with
    | some _ => .error .tooManyValues
    | none => reader.readFlag flag

/-- Reads short names; what stands behind an option is its value. -/
def readShort (reader : ArgumentReader) : List Char → Except ArgumentError ArgumentReader
  | [] => .ok reader
  | name :: rest =>
    match shortSwitches.lookup name with
    | none => .error .unknownArgument
    | some (.flag flag) => do
      let reader ← reader.readFlag flag
      reader.readShort rest
    | some (.option option) =>
      reader.readOption option <|
        match rest with
        | [] => none
        | '=' :: value => some (String.ofList value)
        | value => some (String.ofList value)

/-- Reads an argument that may be the value of the option before it. -/
def readPlain (reader : ArgumentReader) (argument : String) :
    Except ArgumentError ArgumentReader :=
  match reader.pending with
  | .option option none => .ok { reader with pending := .option option (some argument) }
  | _ => reader.readPath argument

def readArgument (reader : ArgumentReader) (argument : String) :
    Except ArgumentError ArgumentReader :=
  if reader.pathsOnly then reader.readPath argument
  else
    match argument.toList with
    | ['-', '-'] => .ok { reader with pathsOnly := true }
    | '-' :: '-' :: long => reader.readLong long
    | '-' :: name :: rest => reader.readShort (name :: rest)
    | _ => reader.readPlain argument

/-- Settles what is pending and checks that the arguments go together. -/
def finish (reader : ArgumentReader) : Except ArgumentError Arguments := do
  let reader ← reader.settle
  let arguments := reader.arguments
  if 0 < arguments.verbose ∧ 0 < arguments.quiet then
    .error .argumentConflict
  else if arguments.paths.isEmpty ∧ arguments.completions.isNone then
    .error .missingRequiredArgument
  else
    .ok arguments

end ArgumentReader

/-- What some arguments say, the name of the program not among them. -/
def Arguments.parse (arguments : List String) : Except ArgumentError Arguments := do
  let reader ← arguments.foldlM ArgumentReader.readArgument {}
  reader.finish

end JackTree
