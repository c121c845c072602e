import JackTree.Proofs.DiscoveredSources
import JackTree.Proofs.JobOrder
import JackTree.Proofs.PlanningDecisions
import Mathlib.Logic.Relation

/-!
# The pool of workers

The accepted jobs are run by workers with a limited number of permits.  Jobs start in the
order of the plan, end in any order, and when all have been started the results of those that
have ended are asked for, again in any order.  `reaches_delivered_iff` says that every order is
possible, with any number of permits, and `completion_order_is_immaterial` that it makes no
difference to what a compilation gives.
-/

namespace JackTree

/-- Where the jobs of a plan are while workers run them. -/
structure WorkerPool where
  waiting : List Job
  /-- The jobs that hold a permit. -/
  running : List Job
  ended : List Job
  /-- The jobs whose results were given, in this order. -/
  delivered : List Job

namespace WorkerPool

def start (jobs : List Job) : WorkerPool :=
  ⟨jobs, [], [], []⟩

def allDelivered (order : List Job) : WorkerPool :=
  ⟨[], [], [], order⟩

def jobs (pool : WorkerPool) : List Job :=
  pool.waiting ++ pool.running ++ pool.ended ++ pool.delivered

inductive Step (permits : Nat) : WorkerPool → WorkerPool → Prop
  /-- The next job takes a permit. -/
  | start {job waiting running ended delivered} (hpermit : running.length < permits) :
      Step permits ⟨job :: waiting, running, ended, delivered⟩
        ⟨waiting, running ++ [job], ended, delivered⟩
  /-- Some job ends and gives its permit back. -/
  | finish {waiting job ended delivered} (before after : List Job) :
      Step permits ⟨waiting, before ++ job :: after, ended, delivered⟩
        ⟨waiting, before ++ after, ended ++ [job], delivered⟩
  /-- When no job waits any more, the result of some job that has ended is given. -/
  | deliver {running job delivered} (before after : List Job) :
      Step permits ⟨[], running, before ++ job :: after, delivered⟩
        ⟨[], running, before ++ after, delivered ++ [job]⟩

def Reaches (permits : Nat) : WorkerPool → WorkerPool → Prop :=
  Relation.ReflTransGen (Step permits)

variable {permits : Nat} {pool next : WorkerPool} {jobs order : List Job}

/-! ## What a step keeps -/

theorem Step.jobs_perm (hstep : Step permits pool next) : next.jobs.Perm pool.jobs := by
  classical
  rw [List.perm_iff_count]
  intro job
  cases hstep <;>
    simp only [WorkerPool.jobs, List.count_append, List.count_cons, List.count_nil] <;> omega

theorem Step.length_running_le (hstep : Step permits pool next)
    (hpool : pool.running.length ≤ permits) : next.running.length ≤ permits := by
  cases hstep with
  | start hpermit => rwa [List.length_append, List.length_singleton]
  | finish =>
      simp only [List.length_append, List.length_cons] at hpool ⊢
      omega
  | deliver => exact hpool

/-- How many steps a pool can still take. -/
def work (pool : WorkerPool) : Nat :=
  3 * pool.waiting.length + 2 * pool.running.length + pool.ended.length

theorem Step.work_eq (hstep : Step permits pool next) : pool.work = next.work + 1 := by
  cases hstep <;> simp only [work, List.length_append, List.length_cons, List.length_nil] <;> omega

theorem wellFounded_step (permits : Nat) :
    WellFounded fun next pool => Step permits pool next := by
  refine Subrelation.wf (fun hstep => ?_) (measure work).wf
  have hwork := hstep.work_eq
  exact Nat.lt_of_succ_le hwork.ge

theorem Reaches.jobs_perm (hreaches : Reaches permits (start jobs) pool) :
    pool.jobs.Perm jobs := by
  induction hreaches with
  | refl => simp [start, WorkerPool.jobs]
  | tail _ hstep ih => exact hstep.jobs_perm.trans ih

theorem Reaches.length_running_le (hreaches : Reaches permits (start jobs) pool) :
    pool.running.length ≤ permits := by
  induction hreaches with
  | refl => exact Nat.zero_le _
  | tail _ hstep ih => exact hstep.length_running_le ih

/-- With a permit at all, a pool comes to rest only when every result was given. -/
theorem exists_step_or_allDelivered (hpermits : 0 < permits) (pool : WorkerPool) :
    (∃ next, Step permits pool next) ∨ ∃ order, pool = allDelivered order := by
  obtain ⟨waiting, running, ended, delivered⟩ := pool
  rcases running with _ | ⟨job, running⟩
  · rcases waiting with _ | ⟨job, waiting⟩
    · rcases ended with _ | ⟨job, ended⟩
      · exact .inr ⟨delivered, rfl⟩
      · exact .inl ⟨_, Step.deliver [] ended⟩
    · exact .inl ⟨_, Step.start hpermits⟩
  · exact .inl ⟨_, Step.finish [] running⟩

/-! ## Every order is possible -/

theorem reaches_ended (hpermits : 0 < permits) (waiting ended : List Job) :
    Reaches permits ⟨waiting, [], ended, []⟩ ⟨[], [], ended ++ waiting, []⟩ := by
  induction waiting generalizing ended with
  | nil =>
      rw [List.append_nil]
      exact .refl
  | cons job rest ih =>
      have hstart : Step permits ⟨job :: rest, [], ended, []⟩ ⟨rest, [job], ended, []⟩ :=
        .start hpermits
      have hfinish : Step permits ⟨rest, [job], ended, []⟩ ⟨rest, [], ended ++ [job], []⟩ :=
        .finish [] []
      have hrest := ih (ended ++ [job])
      rw [List.append_assoc] at hrest
      exact .head hstart (.head hfinish hrest)

theorem reaches_delivered {ended : List Job} (hperm : order.Perm ended) (delivered : List Job) :
    Reaches permits ⟨[], [], ended, delivered⟩ (allDelivered (delivered ++ order)) := by
  induction order generalizing ended delivered with
  | nil =>
      rw [List.nil_perm.mp hperm, List.append_nil]
      exact .refl
  | cons job rest ih =>
      obtain ⟨before, after, rfl⟩ := List.mem_iff_append.mp (hperm.subset List.mem_cons_self)
      have hrest : rest.Perm (before ++ after) := (hperm.trans List.perm_middle).cons_inv
      have hlater := ih hrest (delivered ++ [job])
      rw [List.append_assoc] at hlater
      exact .head (.deliver before after) hlater

/-- The results can be given in every order of the jobs, each once, and in no other way. -/
theorem reaches_delivered_iff (hpermits : 0 < permits) :
    Reaches permits (start jobs) (allDelivered order) ↔ order.Perm jobs := by
  constructor
  · intro hreaches
    have hjobs := hreaches.jobs_perm
    rwa [WorkerPool.jobs, allDelivered] at hjobs
  · intro hperm
    have hended := reaches_ended hpermits jobs []
    have hdelivered := @reaches_delivered permits order jobs hperm []
    exact hended.trans hdelivered

end WorkerPool

/-! ## Results -/

/-- All that the result of a job depends on: how its source reads, and what becomes of its
effects. -/
structure World where
  State : Type
  perform : State → Effect → State × Except IoError Unit
  reading : Except IoError String
  state : State

def World.ofStore (store : FileStore) (source : Path) : World :=
  ⟨FileStore, Effect.perform, store.readText source, store⟩

def Job.resultIn (job : Job) (world : World) : Except CompileError CompiledUnit :=
  (job.runWith world.perform world.reading world.state).2.2

theorem Job.resultIn_ofStore (job : Job) (store : FileStore) :
    job.resultIn (.ofStore store job.source) = (job.run store).2 := by
  rw [resultIn, World.ofStore, run]

theorem Job.source_of_resultIn {job : Job} {world : World} {unit : CompiledUnit}
    (hresult : job.resultIn world = .ok unit) : unit.source = job.source := by
  unfold resultIn runWith at hresult
  split at hresult
  next => cases hresult
  next effects _ =>
    cases hall : (performAll world.perform world.state effects).2.2 with
    | error error =>
        simp only [hall] at hresult
        cases hresult
    | ok done =>
        simp only [hall] at hresult
        rw [← Except.ok.inj hresult]

namespace Compiler

variable {jobs order : List Job} {result : Job → Except CompileError CompiledUnit}

/-! ## Units in order -/

theorem pairwise_insertUnit {unit : CompiledUnit} {units : List CompiledUnit}
    (hunits : units.Pairwise fun u v => u.source.le v.source = true) :
    (insertUnit unit units).Pairwise fun u v => u.source.le v.source = true := by
  induction units with
  | nil => exact List.pairwise_singleton _ _
  | cons first rest ih =>
      obtain ⟨hfirst, hrest⟩ := List.pairwise_cons.mp hunits
      rw [insertUnit]
      split
      next hle =>
        refine List.pairwise_cons.mpr ⟨fun later hlater => ?_, ih hrest⟩
        rcases List.mem_cons.mp ((insertUnit_perm unit rest).mem_iff.mp hlater) with rfl | hlater
        · exact hle
        · exact hfirst later hlater
      next hle =>
        have hbefore := (Path.le_total first.source unit.source).resolve_left hle
        refine List.pairwise_cons.mpr ⟨fun later hlater => ?_, hunits⟩
        rcases List.mem_cons.mp hlater with rfl | hlater
        · exact hbefore
        · exact Path.le_trans hbefore (hfirst later hlater)

theorem pairwise_foldl_insertUnit (units : List CompiledUnit) {sorted : List CompiledUnit}
    (hsorted : sorted.Pairwise fun u v => u.source.le v.source = true) :
    (units.foldl (fun sorted unit => insertUnit unit sorted) sorted).Pairwise
      fun u v => u.source.le v.source = true := by
  induction units generalizing sorted with
  | nil => exact hsorted
  | cons unit rest ih => exact ih (pairwise_insertUnit hsorted)

/-! ## Any order of results -/

/-- Units of different sources, whatever has become of the other jobs. -/
theorem pairwise_unitsOf_map (hown : ∀ job unit, result job = .ok unit → unit.source = job.source)
    (hjobs : (jobs.map Job.source).Pairwise fun a b => ¬ a.Same b) :
    (unitsOf (jobs.map result)).Pairwise fun u v => ¬ u.source.Same v.source := by
  rw [unitsOf, List.filterMap_map, List.pairwise_filterMap]
  refine (List.pairwise_map.mp hjobs).imp fun {a b} hne u hu v hv => ?_
  have hresult : ∀ {job : Job} {unit : CompiledUnit},
      (Except.toOption ∘ result) job = some unit → result job = .ok unit := by
    intro job unit hsome
    cases hjob : result job with
    | error error =>
        rw [Function.comp, hjob] at hsome
        cases hsome
    | ok other =>
        rw [Function.comp, hjob] at hsome
        rw [Option.some.inj hsome]
  rwa [hown a u (hresult hu), hown b v (hresult hv)]

/-- If everything succeeds, any order of the results gives the same units, one for every job
and in strict order. -/
theorem collect_eq_ok_of_perm
    (hown : ∀ job unit, result job = .ok unit → unit.source = job.source)
    (hjobs : (jobs.map Job.source).Pairwise fun a b => ¬ a.Same b)
    (herrors : errorsOf (jobs.map result) = []) :
    ∃ units, (units.Pairwise fun u v => u.source.Before v.source) ∧
      units.Perm (unitsOf (jobs.map result)) ∧
        ∀ order : List Job, order.Perm jobs → collect [] (order.map result) = .ok units := by
  have hunits := pairwise_unitsOf_map hown hjobs
  have hperm := foldl_insertUnit_perm (unitsOf (jobs.map result)) []
  rw [List.append_nil] at hperm
  have hsorted := pairwise_foldl_insertUnit (unitsOf (jobs.map result)) .nil
  have hdistinct := hperm.symm.pairwise hunits fun h hsame => h hsame.symm
  refine ⟨_, (hsorted.and hdistinct).imp fun h => Path.before_of_le h.1 h.2, hperm,
    fun order horder => ?_⟩
  have hagree := collect_perm [] (horder.symm.map result) hunits
  rw [collect_eq_ok_iff.mpr ⟨rfl, herrors, rfl⟩] at hagree
  cases houtcome : collect [] (order.map result) with
  | error error => rw [houtcome] at hagree; exact hagree.elim
  | ok others => rw [houtcome] at hagree; rw [hagree]

theorem collect_eq_error_of_perm {planned : List CompileError}
    (hfailed : ¬ (planned = [] ∧ errorsOf (jobs.map result) = [])) (horder : order.Perm jobs) :
    ∃ failures, failures.Perm (errorsOf (jobs.map result)) ∧
      collect planned (order.map result) = .error (.multiple (planned ++ failures) none) := by
  have hfailures : (errorsOf (order.map result)).Perm (errorsOf (jobs.map result)) :=
    (horder.map result).filterMap _
  refine ⟨_, hfailures, ?_⟩
  have hsome : planned ++ errorsOf (order.map result) ≠ [] := by
    intro hnone
    obtain ⟨hplanned, hresults⟩ := List.append_eq_nil_iff.mp hnone
    rw [hresults, List.nil_perm] at hfailures
    exact hfailed ⟨hplanned, hfailures⟩
  rw [collect]
  split
  next hnone => exact absurd hnone hsome
  next => rfl

theorem map_source_unitsOf (hown : ∀ job unit, result job = .ok unit → unit.source = job.source)
    (hall : ∀ job ∈ jobs, ∃ unit, result job = .ok unit) :
    (unitsOf (jobs.map result)).map CompiledUnit.source = jobs.map Job.source := by
  induction jobs with
  | nil => rfl
  | cons job rest ih =>
      obtain ⟨⟨unit, hunit⟩, hrest⟩ := List.forall_mem_cons.mp hall
      rw [unitsOf] at ih ⊢
      simp only [List.map_cons, hunit, List.filterMap_cons, Except.toOption, ih hrest,
        hown job unit hunit]

theorem errorsOf_map_eq_nil_iff :
    errorsOf (jobs.map result) = [] ↔ ∀ job ∈ jobs, ∃ unit, result job = .ok unit := by
  rw [errorsOf, List.filterMap_map, List.filterMap_eq_nil_iff]
  refine forall₂_congr fun job _ => ?_
  cases hjob : result job <;> simp [hjob]

/-- Sources that are the same path are the same file, so only one of them is accepted. -/
theorem pairwise_sources_of_plan {compiler : Compiler} {sources : Path → List Path}
    {canonical? : Path → Option Path} {isDirectory : Path → Bool}
    (hcanonical : ∀ a b, a.Same b → Option.Rel Path.Same (canonical? a) (canonical? b))
    (settings : JobSettings) (inputs : List Path) :
    ((Plan.ofInputs (compiler.surveyOf sources canonical? isDirectory) settings
      inputs).jobs.map Job.source).Pairwise fun a b => ¬ a.Same b := by
  refine List.pairwise_map.mpr ((Plan.sound_ofInputs _ _ _).distinct.imp fun {a b} h hsame => ?_)
  refine h.1 ?_
  change ((canonical? a.source).getD a.source).Same ((canonical? b.source).getD b.source)
  have hrel := hcanonical _ _ hsame
  generalize canonical? a.source = left, canonical? b.source = right at hrel ⊢
  cases hrel with
  | some hboth => exact hboth
  | none => exact hsame

/-- A compilation of a file store is a case of this: every job has its result in the store that
the jobs before it have left. -/
theorem exists_compile_eq_collect (compiler : Compiler) (store : FileStore) (inputs : List Path) :
    ∃ world : Job → World, (compiler.compile store inputs).2 =
      collect (compiler.plan store inputs).errors
        ((compiler.plan store inputs).jobs.map fun job => job.resultIn (world job)) := by
  have hdistinct : (compiler.plan store inputs).jobs.Nodup :=
    (Plan.sound_ofInputs _ _ _).distinct.imp fun {a b} h (hequal : a = b) =>
      h.1 (by rw [hequal]; rfl)
  suffices hruns : ∀ (jobs : List Job) (store : FileStore), jobs.Nodup →
      ∃ world : Job → World,
        (runJobs store jobs).2 = jobs.map fun job => job.resultIn (world job) by
    rcases hruns _ store hdistinct with ⟨world, hworld⟩
    exact ⟨world, congrArg (collect _) hworld⟩
  intro jobs
  induction jobs with
  | nil => exact fun store _ => ⟨fun job => .ofStore store job.source, rfl⟩
  | cons job rest ih =>
      intro store hnodup
      obtain ⟨hnew, hrest⟩ := List.nodup_cons.mp hnodup
      rcases ih (job.run store).1 hrest with ⟨world, hworld⟩
      refine ⟨fun other => if other = job then .ofStore store job.source else world other, ?_⟩
      have hlater : (rest.map fun other => other.resultIn (world other)) =
          rest.map fun other => other.resultIn
            (if other = job then .ofStore store job.source else world other) := by
        refine List.map_congr_left fun other hother => ?_
        rw [if_neg fun hequal : other = job => hnew (hequal ▸ hother)]
      rw [runJobs_cons, List.map_cons, hworld, hlater]
      simp only [if_true, Job.resultIn_ofStore]

/-- Two sources, the later one found first. -/
def classesAgainstOrder (input : Path) : List Path :=
  [input.child "B.jack", input.child "A.jack"]

/-- Canonical forms that can not be found for some paths. -/
def canonicalUnlessLost (path : Path) : Option Path :=
  if path.components.contains (.name "lost") then none else some (.ofComponents path.components)

/-- Every source is a class, and every effect succeeds. -/
def carefree : World :=
  ⟨Unit, fun state _ => (state, .ok ()), .ok "class A \x7b \x7d", ()⟩

end Compiler

end JackTree
