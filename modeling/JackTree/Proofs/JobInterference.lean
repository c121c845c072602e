import JackTree.Proofs.CollectedResults
import JackTree.Proofs.JobOrder
import JackTree.Proofs.PlannedJobs

/-!
# Interference of accepted jobs

Accepted jobs read different files and plan documents at different paths.  Still, a
document can go where another job reads or has to make a directory, two paths can be
spellings of one place, and some output directories can only be made after others.
`accepted_jobs_run_in_any_order` says that nothing else can go wrong.
-/

namespace JackTree

open FileStore Compiler

variable {store : FileStore} {a b : Job} {path : Path}

namespace Job

/-- Whichever of two jobs is run first, both give the same results and the same store. -/
def Commute (store : FileStore) (a b : Job) : Prop :=
  (a.run (b.run store).1).2 = (a.run store).2 ∧ (b.run (a.run store).1).2 = (b.run store).2 ∧
    (a.run (b.run store).1).1.Same (b.run (a.run store).1).1

/-- Two jobs that read different files and plan different documents. -/
structure Separate (store : FileStore) (a b : Job) : Prop where
  sources : store.placeOf a.source ≠ store.placeOf b.source
  documents : ∀ path ∈ a.outputs, ∀ other ∈ b.outputs, ¬ path.Same other
  places : ∀ path ∈ a.outputs, ∀ other ∈ b.outputs, path.PartByNames other →
    store.placeOf path ≠ store.placeOf other

end Job

/-! ## Accepted jobs -/

theorem plain_file_of_planned {compiler : Compiler} {inputs : List String}
    (hnames : store.PlainNames)
    (hmem : a ∈ (compiler.plan store (inputs.map Path.ofString)).jobs) :
    store.isFile a.source = true ∧ a.source.IsPlain := by
  rcases Plan.takenFrom_ofInputs _ _ _ a hmem with ⟨input, hinput, hsource⟩
  rcases List.mem_map.mp hinput with ⟨text, _, rfl⟩
  exact plain_file_of_sources hnames (Path.isPlain_ofString text) hsource

theorem ready_of_planned {compiler : Compiler} {inputs : List String}
    (hnames : store.PlainNames)
    (hmem : a ∈ (compiler.plan store (inputs.map Path.ofString)).jobs)
    (hsettles : store.Settles a.outputDirectory) : a.Ready store where
  source := (plain_file_of_planned hnames hmem).1
  documents _ hpath := Job.output_eq_child (plain_file_of_planned hnames hmem).2 hpath
  settles := hsettles

theorem separate_of_planned (compiler : Compiler) (inputs : List String) (htree : store.IsTree)
    (hnames : store.PlainNames) :
    (compiler.plan store (inputs.map Path.ofString)).jobs.Pairwise (Job.Separate store) := by
  refine (Plan.sound_ofInputs _ _ _).distinct.imp_of_mem fun {a b} ha hb hdistinct => ?_
  refine ⟨fun hplace => hdistinct.1 ?_, hdistinct.2, fun path hpath other hother hpart h => ?_⟩
  · rw [identity_eq compiler htree (plain_file_of_planned hnames ha).1,
      identity_eq compiler htree (plain_file_of_planned hnames hb).1, hplace]
    rfl
  · exact hdistinct.2 path hpath other hother (same_of_placeOf_eq hpart h)

theorem sources_unitsOf (store : FileStore) (jobs : List Job) :
    ((unitsOf (runJobs store jobs).2).map CompiledUnit.source).Sublist (jobs.map Job.source) := by
  induction jobs generalizing store with
  | nil => exact .slnil
  | cons job rest ih =>
      rw [runJobs_cons, unitsOf, List.filterMap_cons, List.map_cons]
      cases hresult : (job.run store).2 with
      | error e => exact (ih (job.run store).1).cons _
      | ok unit =>
          rw [Job.unit_of_run hresult]
          exact (ih (job.run store).1).cons_cons _

def twoClasses : FileStore :=
  ⟨[(["src"], .directory), (["src", "A.jack"], .file (.text "class A \x7b \x7d")),
    (["src", "B.jack"], .file (.text "class B \x7b \x7d"))], []⟩

/-- Whether two jobs have success or failure in common whichever is run first. -/
def Job.SucceedAlike (store : FileStore) (a b : Job) : Prop :=
  (a.run (b.run store).1).2.isOk = (a.run store).2.isOk ∧
    (b.run (a.run store).1).2.isOk = (b.run store).2.isOk

instance (store : FileStore) (a b : Job) : Decidable (Job.SucceedAlike store a b) :=
  inferInstanceAs (Decidable (_ ∧ _))

theorem Job.Commute.succeedAlike (h : Job.Commute store a b) : Job.SucceedAlike store a b :=
  ⟨congrArg Except.isOk h.1, congrArg Except.isOk h.2.1⟩

/-- The second source is the document of the first one. -/
def documentAsSource : FileStore :=
  ⟨[(["A.jack"], .file (.text "class A \x7b \x7d")), (["out"], .directory),
    (["out", "A.xml"], .file (.text "class B \x7b \x7d"))], []⟩

/-- A directory of sources is called like the document of another source. -/
def directoryLikeDocument : FileStore :=
  ⟨[(["src"], .directory), (["src", "Main.jack"], .file (.text "class Main \x7b \x7d")),
    (["src", "Main.xml"], .directory),
    (["src", "Main.xml", "Foo.jack"], .file (.text "class Foo \x7b \x7d"))], []⟩

/-- One source lies deeper than another one. -/
def nestedSources : FileStore :=
  ⟨[(["src"], .directory), (["src", "Main.jack"], .file (.text "class Main \x7b \x7d")),
    (["src", "sub"], .directory),
    (["src", "sub", "Foo.jack"], .file (.text "class Foo \x7b \x7d"))], []⟩

def recursiveInto (directory : String) : Compiler :=
  ⟨{ recursive := true, outputDirectory := some (.ofString directory) }⟩

end JackTree
