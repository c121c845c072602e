import JackTree.Proofs.CollectedResults
import JackTree.Proofs.PathComponents

/-!
# Planning decisions

Planning comes to one decision about everything that it finds.  An input without sources
is reported, a source that was met before is passed over, a source with a document that
is already planned is refused, and any other source is accepted.  What was found fixes
the decisions, and the jobs and the errors of a plan are read off them.
`compile_accounts_for_every_source` adds that a compilation runs every accepted job and
reports every error once.
-/

namespace JackTree

variable {survey : Survey} {settings : JobSettings}

/-! ## Decisions -/

/-- What planning finds: an input without sources, or a source of an input. -/
inductive Finding where
  | noSources (input : Path)
  | source (input path : Path)

namespace Survey

def findingsOf (survey : Survey) (input : Path) : List Finding :=
  match survey.sources input with
  | [] => [.noSources input]
  | sources => sources.map (.source input)

def findings (survey : Survey) (inputs : List Path) : List Finding :=
  inputs.flatMap survey.findingsOf

def jobFor (survey : Survey) (settings : JobSettings) (input source : Path) : Job :=
  ⟨source, placedDirectory input source (survey.outputRoot input), settings⟩

end Survey

inductive Decision where
  | noSources (input : Path)
  | passOver (input source : Path)
  /-- A document of the source is already planned for another one. -/
  | refuse (input source output other : Path)
  | accept (input source : Path)

namespace Decision

def finding : Decision → Finding
  | noSources input => .noSources input
  | passOver input source => .source input source
  | refuse input source _ _ => .source input source
  | accept input source => .source input source

def source? : Decision → Option Path
  | noSources _ => none
  | passOver _ source => some source
  | refuse _ source _ _ => some source
  | accept _ source => some source

def job? (survey : Survey) (settings : JobSettings) : Decision → Option Job
  | accept input source => some (survey.jobFor settings input source)
  | _ => none

def error? : Decision → Option CompileError
  | noSources input => some (.noSources input)
  | refuse _ source output other => some (.outputConflict output other source)
  | _ => none

def isPassOver : Decision → Bool
  | passOver _ _ => true
  | _ => false

/-- An earlier decision was about the same file. -/
def Met (survey : Survey) (earlier : List Decision) (source : Path) : Prop :=
  ∃ other ∈ earlier.filterMap source?, (survey.identity other).Same (survey.identity source)

/-- The job of an accepted source writes a document. -/
def Plans (survey : Survey) (settings : JobSettings) (earlier : List Decision)
    (output source : Path) : Prop :=
  ∃ job ∈ earlier.filterMap (job? survey settings), job.source = source ∧
    ∃ document ∈ job.outputs, document.Same output

def IsFree (survey : Survey) (settings : JobSettings) (earlier : List Decision)
    (output : Path) : Prop :=
  ∀ source, ¬ Plans survey settings earlier output source

/-- What makes a decision right after earlier ones. -/
def IsRight (survey : Survey) (settings : JobSettings) (earlier : List Decision) :
    Decision → Prop
  | noSources _ => True
  | passOver _ source => Met survey earlier source
  | refuse input source output other => ¬ Met survey earlier source ∧
      ∃ before after, (survey.jobFor settings input source).outputs = before ++ output :: after ∧
        (∀ document ∈ before, IsFree survey settings earlier document) ∧
        Plans survey settings earlier output other
  | accept input source => ¬ Met survey earlier source ∧
      ∀ document ∈ (survey.jobFor settings input source).outputs,
        IsFree survey settings earlier document

end Decision

open Decision

/-- One right decision about everything that is found, in the order of finding. -/
structure Decides (survey : Survey) (settings : JobSettings) (findings : List Finding)
    (decisions : List Decision) : Prop where
  found : decisions.map finding = findings
  right : ∀ earlier decision later, decisions = earlier ++ decision :: later →
    decision.IsRight survey settings earlier

theorem Decides.nil : Decides survey settings [] [] where
  found := rfl
  right earlier decision later hsplit := by simp at hsplit

theorem decides_append_singleton {findings : List Finding} {decisions : List Decision}
    {finding : Finding} {decision : Decision} :
    Decides survey settings (findings ++ [finding]) (decisions ++ [decision]) ↔
      Decides survey settings findings decisions ∧ decision.finding = finding ∧
        decision.IsRight survey settings decisions := by
  constructor
  · intro h
    have hfound := h.found
    rw [List.map_append, List.map_singleton] at hfound
    rcases List.append_inj' hfound rfl with ⟨hbefore, hlast⟩
    refine ⟨⟨hbefore, fun earlier other later hsplit => ?_⟩, by simpa using hlast,
      h.right decisions decision [] rfl⟩
    exact h.right earlier other (later ++ [decision]) (by rw [hsplit]; simp)
  · rintro ⟨h, rfl, hright⟩
    refine ⟨by rw [List.map_append, h.found, List.map_singleton],
      fun earlier other later hsplit => ?_⟩
    rcases List.eq_nil_or_concat' later with rfl | ⟨more, last, rfl⟩
    · rcases List.append_inj' hsplit rfl with ⟨rfl, hlast⟩
      rwa [← (List.cons.inj hlast).1]
    · rw [← List.cons_append, ← List.append_assoc] at hsplit
      exact h.right earlier other more (List.append_inj' hsplit rfl).1

/-! ## Documents are planned once -/

/-- The documents of the accepted sources, in the order of planning. -/
def Decision.documents (survey : Survey) (settings : JobSettings) (decisions : List Decision) :
    List Path :=
  (decisions.filterMap (job? survey settings)).flatMap Job.outputs

theorem Decides.documents_pairwise {findings : List Finding} {decisions : List Decision}
    (h : Decides survey settings findings decisions) :
    (documents survey settings decisions).Pairwise fun a b => ¬ a.Same b := by
  induction decisions using List.reverseRecOn generalizing findings with
  | nil => exact .nil
  | append_singleton earlier decision ih =>
      have hfound := h.found
      rw [List.map_append, List.map_singleton] at hfound
      rcases decides_append_singleton.mp (hfound ▸ h) with ⟨hearlier, _, hright⟩
      rw [documents, List.filterMap_append, List.flatMap_append]
      cases decision with
      | accept input source =>
          refine List.pairwise_append.mpr ⟨ih hearlier, ?_, ?_⟩
          · have hnames := Job.outputs_named_apart (survey.jobFor settings input source)
            simpa [job?] using hnames.imp fun h hsame => h.not_same hsame
          · intro planned hplanned output houtput hsame
            rcases List.mem_flatMap.mp hplanned with ⟨job, hjob, hmem⟩
            have hnew : output ∈ (survey.jobFor settings input source).outputs := by
              simpa [job?] using houtput
            exact hright.2 output hnew job.source ⟨job, hjob, rfl, planned, hmem, hsame⟩
      | noSources input => simpa [job?, documents, List.filterMap_cons] using ih hearlier
      | passOver input source => simpa [job?, documents, List.filterMap_cons] using ih hearlier
      | refuse input source output other =>
          simpa [job?, documents, List.filterMap_cons] using ih hearlier

theorem Decides.eq_of_plans {findings : List Finding} {decisions : List Decision}
    {output a b : Path} (h : Decides survey settings findings decisions) (ha : Plans survey settings decisions output a)
    (hb : Plans survey settings decisions output b) : a = b := by
  rcases ha with ⟨aJob, haJob, rfl, aDocument, haDocument, haSame⟩
  rcases hb with ⟨bJob, hbJob, rfl, bDocument, hbDocument, hbSame⟩
  have hdisjoint := (List.pairwise_flatMap.mp h.documents_pairwise).2
  have : Std.Symm fun a b : Job => ∀ x ∈ a.outputs, ∀ y ∈ b.outputs, ¬ x.Same y :=
    ⟨fun _ _ hapart y hy x hx hsame => hapart x hx y hy hsame.symm⟩
  by_contra hne
  exact hdisjoint.forall haJob hbJob (fun hequal => hne (congrArg Job.source hequal))
    aDocument haDocument bDocument hbDocument (haSame.trans hbSame.symm)

/-! ## What was found fixes the decisions -/

/-- Where two cuts of a list have what is free in front, they are at the same place. -/
theorem eq_of_first_not_free {free : Path → Prop} {before after before' after' : List Path}
    {output output' : Path} (hsame : before ++ output :: after = before' ++ output' :: after')
    (hbefore : ∀ document ∈ before, free document) (houtput : ¬ free output)
    (hbefore' : ∀ document ∈ before', free document) (houtput' : ¬ free output') :
    output = output' := by
  rcases List.append_eq_append_iff.mp hsame with ⟨more, hmore, htail⟩ | ⟨more, hmore, htail⟩
  · cases more with
    | nil => exact (List.cons.inj htail).1
    | cons first rest =>
        rw [(List.cons.inj htail).1] at houtput
        exact absurd (hbefore' first (by simp [hmore])) houtput
  · cases more with
    | nil => exact (List.cons.inj htail).1.symm
    | cons first rest =>
        rw [(List.cons.inj htail).1] at houtput'
        exact absurd (hbefore first (by simp [hmore])) houtput'

theorem Decides.eq_of_finding_eq {findings : List Finding} {earlier : List Decision}
    (h : Decides survey settings findings earlier) {a b : Decision}
    (ha : a.IsRight survey settings earlier) (hb : b.IsRight survey settings earlier)
    (hfinding : a.finding = b.finding) : a = b := by
  cases a <;> cases b <;> simp only [Decision.finding, Finding.noSources.injEq,
    Finding.source.injEq, reduceCtorEq] at hfinding
  case noSources.noSources => rw [hfinding]
  all_goals obtain ⟨rfl, rfl⟩ := hfinding
  case passOver.passOver => rfl
  case passOver.refuse => exact absurd ha hb.1
  case passOver.accept => exact absurd ha hb.1
  case refuse.passOver => exact absurd hb ha.1
  case accept.passOver => exact absurd hb ha.1
  case accept.accept => rfl
  case refuse.accept input source output other =>
    rcases ha.2 with ⟨before, after, houtputs, _, hplans⟩
    exact absurd hplans (hb.2 output (by simp [houtputs]) other)
  case accept.refuse input source output other =>
    rcases hb.2 with ⟨before, after, houtputs, _, hplans⟩
    exact absurd hplans (ha.2 output (by simp [houtputs]) other)
  case refuse.refuse input source aOutput aOther bOutput bOther =>
    rcases ha.2 with ⟨aBefore, aAfter, haOutputs, haFree, haPlans⟩
    rcases hb.2 with ⟨bBefore, bAfter, hbOutputs, hbFree, hbPlans⟩
    have houtput : aOutput = bOutput :=
      eq_of_first_not_free (haOutputs.symm.trans hbOutputs) haFree (fun hfree => hfree _ haPlans)
        hbFree (fun hfree => hfree _ hbPlans)
    subst houtput
    rw [h.eq_of_plans haPlans hbPlans]

theorem Decides.unique {findings : List Finding} {decisions others : List Decision}
    (h : Decides survey settings findings decisions)
    (hothers : Decides survey settings findings others) : decisions = others := by
  induction decisions using List.reverseRecOn generalizing findings others with
  | nil =>
      have hfound := hothers.found
      rw [← h.found] at hfound
      exact (List.map_eq_nil_iff.mp hfound).symm
  | append_singleton earlier decision ih =>
      obtain rfl := h.found
      rw [List.map_append, List.map_singleton] at h hothers
      rcases List.eq_nil_or_concat' others with rfl | ⟨otherEarlier, other, rfl⟩
      · have hfound := hothers.found
        simp at hfound
      · rcases decides_append_singleton.mp h with ⟨hearlier, _, hright⟩
        rcases decides_append_singleton.mp hothers with ⟨hotherEarlier, hfinding, hotherRight⟩
        have hsame := ih hearlier hotherEarlier
        subst hsame
        rw [hearlier.eq_of_finding_eq hright hotherRight hfinding.symm]

/-! ## The decisions behind a plan -/

namespace Plan

variable {plan : Plan} {decisions : List Decision} {output source : Path}

/-- What planning does with one thing that it found. -/
def addFinding (survey : Survey) (settings : JobSettings) (plan : Plan) : Finding → Plan
  | .noSources input => { plan with errors := plan.errors ++ [.noSources input] }
  | .source input path => addSource survey settings input plan path

theorem ofInputs_eq (survey : Survey) (settings : JobSettings) (inputs : List Path) :
    ofInputs survey settings inputs =
      (survey.findings inputs).foldl (addFinding survey settings) {} := by
  have hinput : addInput survey settings = fun plan input =>
      (survey.findingsOf input).foldl (addFinding survey settings) plan := by
    funext plan input
    unfold addInput Survey.findingsOf
    cases survey.sources input with
    | nil => rfl
    | cons first rest =>
        simp only
        rw [List.foldl_map]
        rfl
  rw [ofInputs, Survey.findings, List.foldl_flatMap, hinput]

/-- A plan in which all of some decisions, and nothing else, have been carried out. -/
structure Reflects (survey : Survey) (settings : JobSettings) (plan : Plan)
    (decisions : List Decision) : Prop where
  met : ∀ path, (∃ identity ∈ plan.met, identity.Same path) ↔
    ∃ source ∈ decisions.filterMap Decision.source?, (survey.identity source).Same path
  jobs : plan.jobs = decisions.filterMap (Decision.job? survey settings)
  errors : plan.errors = decisions.filterMap Decision.error?

theorem Reflects.empty (survey : Survey) (settings : JobSettings) :
    Reflects survey settings {} [] :=
  ⟨by simp, rfl, rfl⟩

theorem Reflects.met_iff (h : plan.Reflects survey settings decisions) :
    (plan.met.any fun other => decide (other.Same (survey.identity source))) = true ↔
      Met survey decisions source := by
  rw [List.any_eq_true, Met, ← h.met]
  simp only [decide_eq_true_eq]

theorem Reflects.append (h : plan.Reflects survey settings decisions) (decision : Decision)
    {next : Plan} (hmet : ∀ path, (∃ identity ∈ next.met, identity.Same path) ↔
      (∃ identity ∈ plan.met, identity.Same path)
      ∨ ∃ source ∈ decision.source?, (survey.identity source).Same path)
    (hjobs : next.jobs = plan.jobs ++ (decision.job? survey settings).toList)
    (herrors : next.errors = plan.errors ++ decision.error?.toList) :
    next.Reflects survey settings (decisions ++ [decision]) where
  met path := by
    rw [hmet, h.met, List.filterMap_append]
    cases hsource : decision.source? <;>
      simp [hsource, or_and_right, exists_or]
  jobs := by
    rw [hjobs, h.jobs, List.filterMap_append, List.filterMap_cons]
    cases decision.job? survey settings <;> rfl
  errors := by
    rw [herrors, h.errors, List.filterMap_append, List.filterMap_cons]
    cases decision.error? <;> rfl

theorem Reflects.plans (h : plan.Reflects survey settings decisions)
    (hwriter : plan.writer? output = some source) :
    Plans survey settings decisions output source := by
  rcases Option.map_eq_some_iff.mp hwriter with ⟨job, hfind, hsource⟩
  have hwrites := List.find?_some hfind
  simp only [List.any_eq_true, decide_eq_true_eq] at hwrites
  exact ⟨job, h.jobs ▸ List.mem_of_find?_eq_some hfind, hsource, hwrites⟩

theorem Reflects.isFree (h : plan.Reflects survey settings decisions)
    (hwriter : plan.writer? output = none) : IsFree survey settings decisions output := by
  rintro source ⟨job, hjob, _, document, hdocument, hsame⟩
  exact not_same_of_writer?_eq_none hwriter (h.jobs ▸ hjob) document hdocument hsame

/-- Whatever is found next, one decision about it is right and is carried out. -/
theorem Reflects.addFinding (h : plan.Reflects survey settings decisions) (finding : Finding) :
    ∃ decision : Decision, decision.finding = finding ∧
      decision.IsRight survey settings decisions ∧
      (plan.addFinding survey settings finding).Reflects survey settings
        (decisions ++ [decision]) := by
  cases finding with
  | noSources input =>
      refine ⟨.noSources input, rfl, trivial, h.append _ (fun path => ?_) ?_ rfl⟩
      · simp [Plan.addFinding, Decision.source?]
      · simp [Plan.addFinding, Decision.job?]
  | source input path =>
      unfold Plan.addFinding addSource
      simp only
      by_cases hmet : Met survey decisions path
      · rw [if_pos (h.met_iff.mpr hmet)]
        refine ⟨.passOver input path, rfl, hmet, h.append _ (fun other => ?_) ?_ ?_⟩
        · rcases hmet with ⟨earlier, hearlier, hsame⟩
          refine ⟨.inl, fun hother => hother.elim id fun ⟨source, hsource, hother⟩ => ?_⟩
          cases hsource
          exact (h.met other).mpr ⟨earlier, hearlier, hsame.trans hother⟩
        · simp [Decision.job?]
        · simp [Decision.error?]
      · rw [if_neg (h.met_iff.not.mpr hmet)]
        have hmetNext : ∀ (decision : Decision) (next : Plan),
            next.met = plan.met ++ [survey.identity path] → decision.source? = some path →
            ∀ other, (∃ identity ∈ next.met, identity.Same other) ↔
              (∃ identity ∈ plan.met, identity.Same other)
              ∨ ∃ source ∈ decision.source?, (survey.identity source).Same other := by
          intro decision next hnext hsource other
          simp [hnext, hsource, or_and_right, exists_or]
        unfold addJob
        split
        next output other hconflict =>
          rcases List.findSome?_eq_some_iff.mp hconflict with
            ⟨before, document, after, houtputs, hdocument, hfree⟩
          rcases Option.map_eq_some_iff.mp hdocument with ⟨writer, hwriter, hpair⟩
          obtain ⟨rfl, rfl⟩ := Prod.mk.inj hpair
          refine ⟨.refuse input path document writer, rfl, ⟨hmet, before, after, houtputs,
            fun earlier hearlier => ?_, h.plans hwriter⟩, ?_⟩
          · exact h.isFree (Option.map_eq_none_iff.mp (hfree earlier hearlier))
          · exact h.append _ (hmetNext _ _ rfl rfl) (by simp [Decision.job?]) rfl
        next hconflict =>
          refine ⟨.accept input path, rfl, ⟨hmet, fun output houtput => ?_⟩, ?_⟩
          · have hnone := List.findSome?_eq_none_iff.mp hconflict output houtput
            exact h.isFree (Option.map_eq_none_iff.mp hnone)
          · exact h.append _ (hmetNext _ _ rfl rfl) rfl (by simp [Decision.error?])

theorem exists_decisions (survey : Survey) (settings : JobSettings) (findings : List Finding) :
    ∃ decisions, Decides survey settings findings decisions ∧
      (findings.foldl (Plan.addFinding survey settings) {}).Reflects survey settings decisions := by
  induction findings using List.reverseRecOn with
  | nil => exact ⟨[], .nil, .empty survey settings⟩
  | append_singleton earlier finding ih =>
      rcases ih with ⟨decisions, hdecides, hreflects⟩
      rcases hreflects.addFinding finding with ⟨decision, hfinding, hright, hnext⟩
      refine ⟨decisions ++ [decision],
        decides_append_singleton.mpr ⟨hdecides, hfinding, hright⟩, ?_⟩
      rwa [List.foldl_append]

end Plan

/-! ## The outcome -/

theorem Decision.length_eq (survey : Survey) (settings : JobSettings) (decisions : List Decision) :
    decisions.length = (decisions.filterMap error?).length +
      (decisions.filterMap (job? survey settings)).length + decisions.countP isPassOver := by
  induction decisions with
  | nil => rfl
  | cons decision rest ih =>
      cases decision <;>
        simp [List.filterMap_cons, List.countP_cons, error?, job?, isPassOver] <;> omega

theorem CompileError.flattenAll_eq_self {errors : List CompileError}
    (hsingle : ∀ error ∈ errors, error.flatten = [error]) : flattenAll errors = errors := by
  induction errors with
  | nil => rfl
  | cons error rest ih =>
      rw [flattenAll, hsingle error List.mem_cons_self,
        ih fun other hother => hsingle other (List.mem_cons_of_mem _ hother)]
      rfl

theorem Decision.flatten_of_error? {decision : Decision} {error : CompileError}
    (herror : decision.error? = some error) : error.flatten = [error] := by
  cases decision <;> simp only [error?, Option.some.injEq, reduceCtorEq] at herror
  all_goals rw [← herror]; rfl

theorem Plan.flatten_of_mem_errors {inputs : List Path} {error : CompileError}
    (herror : error ∈ (Plan.ofInputs survey settings inputs).errors) : error.flatten = [error] := by
  rcases Plan.exists_decisions survey settings (survey.findings inputs) with
    ⟨decisions, _, hreflects⟩
  rw [Plan.ofInputs_eq, hreflects.errors] at herror
  rcases List.mem_filterMap.mp herror with ⟨decision, _, hdecision⟩
  exact Decision.flatten_of_error? hdecision

namespace Compiler

/-- Runs jobs one after another in any world in which jobs can be run. -/
def runAll {σ : Type} (run : σ → Job → σ × Except CompileError CompiledUnit) (state : σ) :
    List Job → σ × List (Except CompileError CompiledUnit)
  | [] => (state, [])
  | job :: rest =>
    let (state, result) := run state job
    let (state, results) := runAll run state rest
    (state, result :: results)

/-- Compiles with any knowledge of the inputs and in any world in which jobs can be run. -/
def compileWith {σ : Type} (run : σ → Job → σ × Except CompileError CompiledUnit)
    (survey : Survey) (settings : JobSettings) (inputs : List Path) (state : σ) :
    σ × Except CompileError (List CompiledUnit) :=
  let plan := Plan.ofInputs survey settings inputs
  let (state, results) := runAll run state plan.jobs
  (state, collect plan.errors results)

theorem runJobs_eq_runAll (store : FileStore) (jobs : List Job) :
    runJobs store jobs = runAll (fun store job => job.run store) store jobs := by
  induction jobs generalizing store with
  | nil => rfl
  | cons job rest ih => simp only [runJobs, runAll, ih]

theorem compile_eq_compileWith (compiler : Compiler) (store : FileStore) (inputs : List Path) :
    compiler.compile store inputs = compileWith (fun store job => job.run store)
      (compiler.survey store) compiler.options.settings inputs store := by
  simp only [compile, compileWith, plan, runJobs_eq_runAll]

/-- The single errors that an outcome is made of. -/
def reported : Except CompileError (List CompiledUnit) → List CompileError
  | .ok _ => []
  | .error error => error.flatten

variable {σ : Type} {run : σ → Job → σ × Except CompileError CompiledUnit} {state : σ}
  {planned : List CompileError} {results : List (Except CompileError CompiledUnit)}

theorem fst_runAll (jobs : List Job) :
    (runAll run state jobs).1 = jobs.foldl (fun state job => (run state job).1) state := by
  induction jobs generalizing state with
  | nil => rfl
  | cons job rest ih => rw [runAll, List.foldl_cons, ← ih]

theorem length_runAll (jobs : List Job) : (runAll run state jobs).2.length = jobs.length := by
  induction jobs generalizing state with
  | nil => rfl
  | cons job rest ih => rw [runAll, List.length_cons, List.length_cons, ih]

theorem exists_run_of_mem_runAll {jobs : List Job} {result : Except CompileError CompiledUnit}
    (hmem : result ∈ (runAll run state jobs).2) : ∃ before job, result = (run before job).2 := by
  induction jobs generalizing state with
  | nil => cases hmem
  | cons job rest ih =>
      rw [runAll] at hmem
      rcases List.mem_cons.mp hmem with rfl | hlater
      · exact ⟨state, job, rfl⟩
      · exact ih hlater

theorem length_results (results : List (Except CompileError CompiledUnit)) :
    results.length = (errorsOf results).length + (unitsOf results).length := by
  induction results with
  | nil => rfl
  | cons result rest ih =>
      cases result <;>
        simp [errorsOf, unitsOf, List.filterMap_cons, Except.toOption] at ih ⊢ <;> omega

theorem insertUnit_perm (unit : CompiledUnit) (units : List CompiledUnit) :
    (insertUnit unit units).Perm (unit :: units) := by
  induction units with
  | nil => exact .refl _
  | cons first rest ih =>
      rw [insertUnit]
      split
      · exact (ih.cons first).trans (.swap unit first rest)
      · exact .refl _

theorem foldl_insertUnit_perm (units sorted : List CompiledUnit) :
    (units.foldl (fun sorted unit => insertUnit unit sorted) sorted).Perm (units ++ sorted) := by
  induction units generalizing sorted with
  | nil => exact .refl _
  | cons unit rest ih =>
      exact ((ih _).trans ((insertUnit_perm unit sorted).append_left rest)).trans
        List.perm_middle

theorem collect_eq_ok_iff {units : List CompiledUnit} : collect planned results = .ok units ↔
    planned = [] ∧ errorsOf results = [] ∧
      (unitsOf results).foldl (fun units unit => insertUnit unit units) [] = units := by
  rw [← and_assoc, ← List.append_eq_nil_iff, collect]
  cases planned ++ errorsOf results <;> simp

theorem reported_collect (hplanned : ∀ error ∈ planned, error.flatten = [error])
    (hresults : ∀ error ∈ errorsOf results, error.flatten = [error]) :
    reported (collect planned results) = planned ++ errorsOf results := by
  have hsingle : CompileError.flattenAll (planned ++ errorsOf results) =
      planned ++ errorsOf results :=
    CompileError.flattenAll_eq_self fun error herror =>
      (List.mem_append.mp herror).elim (hplanned error) (hresults error)
  rw [collect]
  cases hall : planned ++ errorsOf results with
  | nil => rfl
  | cons error rest => rwa [hall] at hsingle

theorem flatten_of_mem_errorsOf {error : CompileError}
    (hsingle : ∀ result ∈ results, ∀ errors source, result ≠ .error (.multiple errors source))
    (herror : error ∈ errorsOf results) : error.flatten = [error] := by
  rcases List.mem_filterMap.mp herror with ⟨result, hresult, hsome⟩
  cases result with
  | ok unit => cases hsome
  | error found =>
      obtain rfl := Option.some.inj hsome
      cases found with
      | multiple errors source => exact absurd rfl (hsingle _ hresult errors source)
      | io cause source => rfl
      | parse cause source => rfl
      | noSources source => rfl
      | outputConflict output other source => rfl

/-- Whatever the inputs, the sources and the jobs are like: about everything that is found
there is exactly one decision, the accepted jobs plan different documents and are all run,
and in whatever order they finish, every error is reported once and every unit is given. -/
theorem compile_accounts_for_every_source (survey : Survey) (settings : JobSettings)
    (inputs : List Path) (run : σ → Job → σ × Except CompileError CompiledUnit) (state : σ)
    (hsingle : ∀ state job errors source, (run state job).2 ≠ .error (.multiple errors source)) :
    let plan := Plan.ofInputs survey settings inputs
    let results := (runAll run state plan.jobs).2
    (∃ decisions, Decides survey settings (survey.findings inputs) decisions
      ∧ (∀ others, Decides survey settings (survey.findings inputs) others → others = decisions)
      ∧ plan.jobs = decisions.filterMap (Decision.job? survey settings)
      ∧ plan.errors = decisions.filterMap Decision.error?
      ∧ decisions.length = plan.errors.length + (errorsOf results).length
          + (unitsOf results).length + decisions.countP Decision.isPassOver)
    ∧ (plan.jobs.flatMap Job.outputs).Pairwise (fun a b => ¬ a.Same b)
    ∧ compileWith run survey settings inputs state =
        (plan.jobs.foldl (fun state job => (run state job).1) state, collect plan.errors results)
    ∧ ∀ finished, finished.Perm results →
        (∃ failures, failures.Perm (errorsOf results) ∧
          reported (collect plan.errors finished) = plan.errors ++ failures)
        ∧ ((∃ units, collect plan.errors finished = .ok units) ↔
            plan.errors = [] ∧ errorsOf results = [])
        ∧ ∀ units, collect plan.errors finished = .ok units → units.Perm (unitsOf results) := by
  intro plan results
  rcases Plan.exists_decisions survey settings (survey.findings inputs) with
    ⟨decisions, hdecides, hreflects⟩
  rw [← Plan.ofInputs_eq] at hreflects
  have hresults :
      ∀ result ∈ results, ∀ errors source, result ≠ .error (.multiple errors source) := by
    intro result hresult errors source
    rcases exists_run_of_mem_runAll hresult with ⟨before, job, rfl⟩
    exact hsingle before job errors source
  have hplanned : ∀ error ∈ plan.errors, error.flatten = [error] :=
    fun error herror => Plan.flatten_of_mem_errors herror
  refine ⟨⟨decisions, hdecides, fun others hothers => hothers.unique hdecides, hreflects.jobs,
    hreflects.errors, ?_⟩, ?_, ?_, fun finished hperm => ⟨?_, ?_, ?_⟩⟩
  · have hall : decisions.length = plan.errors.length + plan.jobs.length +
        decisions.countP Decision.isPassOver := by
      rw [hreflects.errors, hreflects.jobs]
      exact Decision.length_eq survey settings decisions
    have hjobs : plan.jobs.length = (errorsOf results).length + (unitsOf results).length := by
      rw [← length_results, length_runAll]
    omega
  · rw [hreflects.jobs]
    exact hdecides.documents_pairwise
  · rw [compileWith, ← fst_runAll]
  · refine ⟨errorsOf finished, hperm.filterMap _, reported_collect hplanned fun error herror => ?_⟩
    refine flatten_of_mem_errorsOf (fun result hresult => ?_) herror
    exact hresults result (hperm.mem_iff.mp hresult)
  · have hfailures : (errorsOf finished).Perm (errorsOf results) := hperm.filterMap _
    have hnone : errorsOf finished = [] ↔ errorsOf results = [] :=
      ⟨fun h => List.nil_perm.mp (h ▸ hfailures), fun h => List.perm_nil.mp (h ▸ hfailures)⟩
    simp [collect_eq_ok_iff, hnone]
  · intro units hunits
    obtain ⟨_, _, rfl⟩ := collect_eq_ok_iff.mp hunits
    have hsorted := foldl_insertUnit_perm (unitsOf finished) []
    rw [List.append_nil] at hsorted
    exact hsorted.trans (hperm.filterMap _)

/-- Two inputs whose documents would go to the same place, the first one given twice. -/
def sharedOutput : Survey where
  sources input := if input = .ofString "none" then [] else [input.child "Main.jack"]
  identity source := source
  outputRoot _ := .ofString "out"

/-- A world in which no job succeeds. -/
def failing (_ : Unit) (job : Job) : Unit × Except CompileError CompiledUnit :=
  ((), .error (.io (.os .notFound) job.source))

theorem compile_accounts_for_repeated_input :
    let inputs := ["a", "b", "a", "none"].map Path.ofString
    let plan := Plan.ofInputs sharedOutput { emit := .both } inputs
    (∀ state job errors source, (failing state job).2 ≠ .error (.multiple errors source))
    ∧ plan.jobs.map Job.outputs = [["out/MainT.xml", "out/Main.xml"].map Path.ofString]
    ∧ plan.errors.length = 2
    ∧ ∃ decisions, Decides sharedOutput { emit := .both } (sharedOutput.findings inputs) decisions
      ∧ plan.errors = decisions.filterMap Decision.error?
      ∧ decisions.countP Decision.isPassOver = 1 := by
  intro inputs plan
  have hsingle : ∀ state job errors source,
      (failing state job).2 ≠ .error (.multiple errors source) := by
    intro state job errors source hequal
    cases hequal
  have happly := compile_accounts_for_every_source sharedOutput { emit := .both } inputs failing ()
    hsingle
  rcases happly.1 with ⟨decisions, hdecides, _, _, herrors, hlength⟩
  have hplanned : plan.errors.length = 2 := by decide +kernel
  have hfound : (sharedOutput.findings inputs).length = 4 := by decide +kernel
  have hresults : (errorsOf (runAll failing () plan.jobs).2).length = 1
      ∧ (unitsOf (runAll failing () plan.jobs).2).length = 0 := by decide +kernel
  refine ⟨hsingle, by decide +kernel, hplanned, decisions, hdecides, herrors, ?_⟩
  rw [← hdecides.found, List.length_map] at hfound
  change decisions.length = plan.errors.length + (errorsOf (runAll failing () plan.jobs).2).length
    + (unitsOf (runAll failing () plan.jobs).2).length + _ at hlength
  omega

end Compiler

end JackTree
