import JackTree.Job

/-!
# Plans

Before anything is compiled it is decided which jobs there are.  A source that
was already met is passed over, whatever path led to it, and a source one of
whose documents is already planned is refused.
-/

namespace JackTree

/-- What planning has to know of the inputs. -/
structure Survey where
  sources : Path → List Path
  /-- A path that two sources share exactly when they are the same file. -/
  identity : Path → Path
  outputRoot : Path → Path

structure Plan where
  /-- The identities of the sources that were met. -/
  met : List Path := []
  jobs : List Job := []
  errors : List CompileError := []

namespace Plan

/-- The source of the accepted job that writes a document. -/
def writer? (plan : Plan) (output : Path) : Option Path :=
  (plan.jobs.find? fun job => job.outputs.any fun other => decide (other.Same output)).map
    Job.source

/-- The first document of a job that is already planned, and the source it belongs to. -/
def conflict? (plan : Plan) (job : Job) : Option (Path × Path) :=
  job.outputs.findSome? fun output => (plan.writer? output).map fun other => (output, other)

/-- Takes a job into the plan unless one of its documents is already planned. -/
def addJob (plan : Plan) (job : Job) : Plan :=
  match plan.conflict? job with
  | some (output, other) =>
    { plan with errors := plan.errors ++ [.outputConflict output other job.source] }
  | none => { plan with jobs := plan.jobs ++ [job] }

/-- Takes a source of an input into the plan unless it was met before. -/
def addSource (survey : Survey) (settings : JobSettings) (input : Path) (plan : Plan)
    (source : Path) : Plan :=
  let identity := survey.identity source
  if plan.met.any fun other => decide (other.Same identity) then plan
  else
    let plan := { plan with met := plan.met ++ [identity] }
    plan.addJob
      ⟨source, placedDirectory input source (survey.outputRoot input), settings⟩

def addInput (survey : Survey) (settings : JobSettings) (plan : Plan) (input : Path) : Plan :=
  match survey.sources input with
  | [] => { plan with errors := plan.errors ++ [.noSources input] }
  | sources => sources.foldl (addSource survey settings input) plan

def ofInputs (survey : Survey) (settings : JobSettings) (inputs : List Path) : Plan :=
  inputs.foldl (addInput survey settings) {}

end Plan

end JackTree
