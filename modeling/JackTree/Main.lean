import JackTree.CommandLine.Program

/-!
# Command line

The program on a real disk.  It looks at the disk as far as planning needs it,
lets the library decide what is to be done, carries that out and prints the report.
-/

namespace JackTree.Terminal

def onDisk (path : Path) : IO.FS.DirEntry :=
  { root := ".", fileName := path.toString }

def ioErrorOf (error : IO.Error) : IoError :=
  match error with
  | .noFileOrDirectory _ _ _ => .os .notFound
  | .alreadyExists _ _ _ => .os .alreadyExists
  | .inappropriateType _ code _ =>
    if code.toNat = OsError.isADirectory.number then .os .isADirectory else .os .notADirectory
  | error => .other (toString error)

/-- The outcome of an action, its exception turned into a refusal. -/
def attempt {α : Type} (action : IO α) : IO (Except IoError α) := do
  match ← action.toBaseIO with
  | .ok value => return .ok value
  | .error error => return .error (ioErrorOf error)

def leadsToDirectory (path : Path) : IO (Except IoError Bool) :=
  attempt do return (← (onDisk path).path.metadata).type == .dir

def isFile (path : Path) : IO Bool := do
  match ← attempt (onDisk path).path.metadata with
  | .ok data => return data.type == .file
  | .error _ => return false

def isDirectory (path : Path) : IO Bool := do
  match ← leadsToDirectory path with
  | .ok answer => return answer
  | .error _ => return false

structure Observation where
  path : Path
  isFile : Bool
  isDirectory : Bool
  names : List String

/-- Looks at a path and at most so many steps below it. -/
def observe : Nat → Path → IO (List Observation)
  | depth, path => do
    let file ← isFile path
    let directory ← isDirectory path
    match depth with
    | 0 => return [⟨path, file, directory, []⟩]
    | depth + 1 =>
      if file || !directory then return [⟨path, file, directory, []⟩]
      let names := match ← attempt (onDisk path).path.readDir with
        | .ok entries => entries.toList.map fun entry => entry.fileName
        | .error _ => []
      let below ← names.mapM fun name => observe depth (path.child name)
      return ⟨path, file, directory, names⟩ :: below.flatten

def viewOf (observations : List Observation) : DirectoryView :=
  let at? (path : Path) := observations.find? fun seen => seen.path == path
  { isFile := fun path => (at? path).any Observation.isFile
    isDirectory := fun path => (at? path).any Observation.isDirectory
    names := fun path => ((at? path).map Observation.names).getD [] }

/-- The most steps that a path of legal length can take below an input. -/
def depthLimit : Nat := FileStore.pathLimit

/-- The canonical form of a path, if it leads anywhere. -/
def canonical? (path : Path) : IO (Option Path) := do
  match ← attempt (IO.FS.realPath (onDisk path).path) with
  | .ok real => return some (.ofString real.toString)
  | .error _ => return none

def readText (path : Path) : IO (Except IoError String) := do
  match ← attempt (IO.FS.readBinFile (onDisk path).path) with
  | .ok data =>
    match FileContents.ofBytes data with
    | .text text => return .ok text
    | .bytes _ => return .error .notText
  | .error error => return .error error

def perform : Effect → IO (Except IoError Unit)
  | .createDirectories directory =>
    if directory.toString.isEmpty then return .ok ()
    else attempt (IO.FS.createDirAll (onDisk directory).path)
  | .write path text => attempt (IO.FS.writeFile (onDisk path).path text)

def performAll : List Effect → IO (Except IoError Unit)
  | [] => return .ok ()
  | effect :: rest => do
    match ← perform effect with
    | .ok () => performAll rest
    | .error error => return .error error

def runJob (job : Job) : IO (Except CompileError CompiledUnit) := do
  match job.effects (← readText job.source) with
  | .error error => return .error error
  | .ok effects =>
    match ← performAll effects with
    | .ok () => return .ok ⟨job.source, effects.filterMap Effect.document?⟩
    | .error error => return .error (.io error job.source)

def compile (compiler : Compiler) (inputs : List Path) :
    IO (Except CompileError (List CompiledUnit)) := do
  let depth := if compiler.options.recursive then depthLimit else 1
  let view := viewOf (← inputs.mapM (observe depth)).flatten
  let sources := view.sources depth
  let canonical ← (inputs.flatMap sources).mapM fun source =>
    return (source, ← canonical? source)
  let survey := compiler.surveyOf sources
    (fun path => (canonical.lookup path).join) view.isDirectory
  let plan := Plan.ofInputs survey compiler.options.settings inputs
  return Compiler.collect plan.errors (← plan.jobs.mapM runJob)

def report (arguments : List String) : IO Report := do
  match Arguments.parse arguments with
  | .error error => return .ofArgumentError error
  | .ok arguments =>
    if arguments.completions.isSome then return { exitCode := 0 }
    let options := arguments.compilerOptions
    let directory ← match options.outputDirectory with
      | some path => leadsToDirectory path
      | none => pure (.error (.os .notFound))
    match Compiler.build options fun _ => directory with
    | .error error => return .ofBuildError error
    | .ok compiler => return .ofResult (← compile compiler arguments.paths)

end JackTree.Terminal

def main (arguments : List String) : IO UInt32 := do
  let started ← IO.monoMsNow
  let report ← JackTree.Terminal.report arguments
  let finished ← IO.monoMsNow
  for line in report.version do
    IO.println line
  for line in report.summary do
    IO.println (line ++ " in " ++ toString (finished - started) ++ "ms")
  for line in report.failure.toList ++ report.details do
    IO.eprintln line
  return UInt32.ofNat report.exitCode
