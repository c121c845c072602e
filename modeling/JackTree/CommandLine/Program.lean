import JackTree.CommandLine.Reader

/-!
# The program

What the program does for some arguments: the report that it gives, and what
becomes of the file store.
-/

namespace JackTree

structure Report where
  exitCode : Nat
  /-- The name and version of the program, if they were asked for. -/
  version : Option String := none
  summary : Option String := none
  failure : Option String := none
  details : List String := []
  deriving DecidableEq, Repr

namespace Report

def versionLine : String := "jackalc_cli 0.0.0"

def ofArgumentError (error : ArgumentError) : Report :=
  { exitCode := error.exitCode
    version := if error = .displayVersion then some versionLine else none }

def ofBuildError (error : BuildError) : Report :=
  { exitCode := 1, details := [error.message] }

def ofResult (result : Except CompileError (List CompiledUnit)) : Report :=
  match result with
  | .ok units =>
    let documents := (units.flatMap CompiledUnit.outputs).length
    { exitCode := 0
      summary := some ("Compiled " ++ Nat.repr units.length ++ " units into "
        ++ Nat.repr documents ++ " documents") }
  | .error error =>
    { exitCode := 1
      failure := some ("Failed " ++ Nat.repr error.flatten.length ++ " failures")
      details := error.flatten.map CompileError.message }

end Report

def runArguments (arguments : Arguments) (store : FileStore) : FileStore × Report :=
  if arguments.completions.isSome then (store, { exitCode := 0 })
  else
    match Compiler.build arguments.compilerOptions store.leadsToDirectory with
    | .error error => (store, .ofBuildError error)
    | .ok compiler =>
      let (store, result) := compiler.compile store arguments.paths
      (store, .ofResult result)

def runProgram (arguments : List String) (store : FileStore) : FileStore × Report :=
  match Arguments.parse arguments with
  | .error error => (store, .ofArgumentError error)
  | .ok arguments => runArguments arguments store

end JackTree
