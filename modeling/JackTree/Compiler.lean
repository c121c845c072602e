import JackTree.Discovery
import JackTree.Plan

/-!
# Compiler

A compiler holds the settings for all inputs.  It plans the jobs, runs every job
of the plan whatever becomes of the others, and gives either all compiled units
in the order of their sources or all errors.
-/

namespace JackTree

open Text

structure CompilerOptions where
  jobs : Nat := 1
  outputDirectory : Option Path := none
  recursive : Bool := false
  settings : JobSettings := {}
  deriving DecidableEq, Repr

inductive BuildError where
  | zeroJobs
  | outputDirectoryIsNotADirectory (path : Path)
  | outputDirectoryUnreadable (path : Path) (error : IoError)
  deriving DecidableEq, Repr

def BuildError.message : BuildError → String
  | zeroJobs => "Compilation can't occur if no jobs are allowed"
  | outputDirectoryIsNotADirectory path => quote path.toString ++ " is not a directory"
  | outputDirectoryUnreadable path error =>
    quote path.toString ++ " can not be read: " ++ error.message

structure Compiler where
  options : CompilerOptions := {}
  deriving DecidableEq, Repr

namespace Compiler

/-- A compiler for some options, if jobs are allowed and the output directory can be one.
An output directory that does not exist yet is no obstacle. -/
def build (options : CompilerOptions) (leadsToDirectory : Path → Except IoError Bool) :
    Except BuildError Compiler :=
  if options.jobs = 0 then .error .zeroJobs
  else
    match options.outputDirectory with
    | none => .ok ⟨options⟩
    | some directory =>
      match leadsToDirectory directory with
      | .ok true => .ok ⟨options⟩
      | .ok false => .error (.outputDirectoryIsNotADirectory directory)
      | .error (.os .notFound) => .ok ⟨options⟩
      | .error error => .error (.outputDirectoryUnreadable directory error)

/-- What a compiler has to know of the inputs, from the sources of every input, the
canonical forms of paths and the paths that are directories. -/
def surveyOf (compiler : Compiler) (sources : Path → List Path)
    (canonical? : Path → Option Path) (isDirectory : Path → Bool) : Survey where
  sources := sources
  identity source := (canonical? source).getD source
  outputRoot input :=
    compiler.options.outputDirectory.getD (defaultOutputDirectory isDirectory input)

/-- What a compiler has to know of the inputs in a file store. -/
def survey (compiler : Compiler) (store : FileStore) : Survey :=
  compiler.surveyOf (store.sources compiler.options.recursive) store.canonical?
    store.isDirectory

def plan (compiler : Compiler) (store : FileStore) (inputs : List Path) : Plan :=
  .ofInputs (compiler.survey store) compiler.options.settings inputs

def runJobs (store : FileStore) :
    List Job → FileStore × List (Except CompileError CompiledUnit)
  | [] => (store, [])
  | job :: rest =>
    let (store, result) := job.run store
    let (store, results) := runJobs store rest
    (store, result :: results)

/-- Puts a unit in front of the first one whose source comes later. -/
def insertUnit (unit : CompiledUnit) : List CompiledUnit → List CompiledUnit
  | [] => [unit]
  | first :: rest =>
    if first.source.le unit.source then first :: insertUnit unit rest
    else unit :: first :: rest

def unitsOf (results : List (Except CompileError CompiledUnit)) : List CompiledUnit :=
  results.filterMap Except.toOption

def errorsOf (results : List (Except CompileError CompiledUnit)) : List CompileError :=
  results.filterMap fun
    | .ok _ => none
    | .error error => some error

/-- All units in the order of their sources, or all errors, those of the plan first. -/
def collect (planned : List CompileError) (results : List (Except CompileError CompiledUnit)) :
    Except CompileError (List CompiledUnit) :=
  match planned ++ errorsOf results with
  | [] => .ok ((unitsOf results).foldl (fun units unit => insertUnit unit units) [])
  | errors => .error (.multiple errors none)

def compile (compiler : Compiler) (store : FileStore) (inputs : List Path) :
    FileStore × Except CompileError (List CompiledUnit) :=
  let plan := compiler.plan store inputs
  let (store, results) := runJobs store plan.jobs
  (store, collect plan.errors results)

end Compiler

def FileStore.parseFile (store : FileStore) (path : Path) (options : LexerOptions := {}) :
    Except SyntaxError (Node Token) :=
  match store.readText path with
  | .ok text => parseSource text options
  | .error error => .error (.ofIoError error)

end JackTree
