import JackTree.CompileError
import JackTree.FileStore.Change
import JackTree.Frontend
import JackTree.Placement

/-!
# Compile jobs

A job compiles one source.  Which documents it writes, and where, is fixed before
it runs.  Everything that can be wrong with the source is noticed before the
first effect on the file system; after that the effects are carried out one by
one, and the first that is refused ends the job.
-/

namespace JackTree

inductive Emit where
  | tree
  | tokens
  | both
  deriving DecidableEq, Repr

namespace Emit

def wantsTree : Emit → Bool
  | tree => true
  | tokens => false
  | both => true

def wantsTokens : Emit → Bool
  | tree => false
  | tokens => true
  | both => true

/-- What the names of the wanted documents have behind the name of the source, the
token listing first. -/
def suffixes (emit : Emit) : List String :=
  (if emit.wantsTokens then [listingSuffix] else [])
    ++ (if emit.wantsTree then [""] else [])

end Emit

structure JobSettings where
  emit : Emit := .tree
  render : RenderOptions := {}
  lexer : LexerOptions := {}
  deriving DecidableEq, Repr

structure CompiledUnit where
  source : Path
  outputs : List Path
  deriving DecidableEq, Repr

inductive Effect where
  | createDirectories (directory : Path)
  | write (path : Path) (text : String)
  deriving DecidableEq, Repr

/-- The document that an effect writes. -/
def Effect.document? : Effect → Option Path
  | createDirectories _ => none
  | write path _ => some path

def Effect.perform (store : FileStore) : Effect → FileStore × Except IoError Unit
  | createDirectories directory => store.createDirectories directory
  | write path text =>
    match store.write path (.text text) with
    | .ok changed => (changed, .ok ())
    | .error error => (store, .error error)

/-- Carries effects out until one is refused.  Also gives the effects that were tried. -/
def performAll {σ : Type} (perform : σ → Effect → σ × Except IoError Unit) (state : σ) :
    List Effect → σ × List Effect × Except IoError Unit
  | [] => (state, [], .ok ())
  | effect :: rest =>
    match perform state effect with
    | (state, .ok ()) =>
      let (state, tried, result) := performAll perform state rest
      (state, effect :: tried, result)
    | (state, .error error) => (state, [effect], .error error)

structure Job where
  source : Path
  outputDirectory : Path
  settings : JobSettings
  deriving DecidableEq, Repr

namespace Job

def output (job : Job) (suffix : String) : Path :=
  documentPath job.source job.outputDirectory suffix documentExtension

/-- The paths of the documents that a job writes, in the order of writing. -/
def outputs (job : Job) : List Path :=
  job.settings.emit.suffixes.map job.output

/-- The documents of some tokens, each with the suffix of its name. -/
def documents (settings : JobSettings) (stream : TokenStream) :
    Except SyntaxError (List (String × String)) := do
  let listing :=
    if settings.emit.wantsTokens then
      [(listingSuffix, (Markup.tokenListing stream.tokens).render settings.render)]
    else []
  if settings.emit.wantsTree then
    let node ← stream.parseClass
    return listing ++ [("", (Markup.ofNode node).render settings.render)]
  else
    return listing

/-- What a job is going to do once its source has been read, or why it can not. -/
def effects (job : Job) (reading : Except IoError String) : Except CompileError (List Effect) := do
  let text ← reading.mapError fun error => .io error job.source
  let documents ←
    ((lexSource text job.settings.lexer).bind (documents job.settings)).mapError
      fun error => .parse error job.source
  return .createDirectories job.outputDirectory
    :: documents.map fun (suffix, document) => .write (job.output suffix) document

/-- Runs a job in any world that can carry out effects. -/
def runWith {σ : Type} (job : Job) (perform : σ → Effect → σ × Except IoError Unit)
    (reading : Except IoError String) (state : σ) :
    σ × List Effect × Except CompileError CompiledUnit :=
  match job.effects reading with
  | .error error => (state, [], .error error)
  | .ok effects =>
    let (state, tried, result) := performAll perform state effects
    (state, tried, (result.mapError fun error => CompileError.io error job.source).map
      fun _ => ⟨job.source, tried.filterMap Effect.document?⟩)

def run (job : Job) (store : FileStore) : FileStore × Except CompileError CompiledUnit :=
  let (store, _, result) := job.runWith Effect.perform (store.readText job.source) store
  (store, result)

end Job

end JackTree
