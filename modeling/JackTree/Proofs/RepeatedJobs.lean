import JackTree.Proofs.DiscoveredSources
import JackTree.Proofs.JobOrder
import JackTree.Proofs.LastingDirectories

/-!
# Repeated jobs

Jobs only add directories and documents to a tree, so sources stay as they are.  A job
that is run again, in a store to which other things may have been added, gives the same
result and leaves at every place what it left there before.
-/

namespace JackTree

open FileStore

variable {store s t u : FileStore} {job : Job} {path : Path} {location place : Location}
  {effects writes : List Effect} {names : List String} {name : String}

/-! ## What jobs add -/

namespace FileStore

/-- Every name on the way to an entry leads one step down. -/
def Named (store : FileStore) : Prop :=
  ∀ location, store.entryAt? location ≠ none → ∀ name ∈ location, Path.IsName name

theorem ProperNames.named (hnames : store.ProperNames) : store.Named :=
  fun _ hthere name hname => (hnames.of_entry hthere name hname).1

theorem isName_of_mem_foldl {segments : List String}
    (hstart : ∀ name ∈ location, Path.IsName name) :
    ∀ name ∈ segments.foldl stepFrom location, Path.IsName name := by
  induction segments generalizing location with
  | nil => exact hstart
  | cons segment rest ih =>
      refine ih fun name hname => ?_
      unfold stepFrom at hname
      split at hname
      next => exact hstart name hname
      next hstay =>
        split at hname
        next => exact hstart name (List.dropLast_subset _ hname)
        next hup =>
          rcases List.mem_append.mp hname with hold | hnew
          · exact hstart name hold
          · rw [List.mem_singleton.mp hnew]
            rw [not_or] at hstay
            exact ⟨hstay.1, hstay.2, hup⟩

theorem Named.placeOf (hnamed : store.Named) (htree : store.IsTree) (path : Path) :
    ∀ name ∈ store.placeOf path, Path.IsName name := by
  rw [placeOf_eq]
  exact isName_of_mem_foldl (hnamed _ (by simp [htree.startOf]))

theorem Named.put (hnamed : store.Named) (hroot : place ≠ [])
    (hplace : ∀ name ∈ place, Path.IsName name) (entry : Entry) :
    (store.put place entry).Named := by
  intro location hthere
  rw [entryAt?_put _ _ _ hroot] at hthere
  split at hthere
  next hsame => exact hsame ▸ hplace
  next => exact hnamed location hthere

/-- A location that ends in the name of a document. -/
def IsDocumentPlace (location : Location) : Prop :=
  ∃ stem, location.getLast? = some (stem ++ "." ++ documentExtension)

/-- A store to which only directories and documents were added. -/
structure Extends (s t : FileStore) : Prop where
  evolves : s.Evolves t
  named : s.Named → t.Named
  only : ∀ location, t.entryAt? location = s.entryAt? location
    ∨ s.entryAt? location = none ∧ t.entryAt? location = some .directory
    ∨ IsDocumentPlace location ∧ ∃ contents, t.entryAt? location = some (.file contents)

theorem Extends.refl (store : FileStore) : store.Extends store :=
  ⟨.refl, id, fun _ => .inl rfl⟩

theorem Extends.trans (hfirst : s.Extends t) (hsecond : t.Extends u) : s.Extends u := by
  refine ⟨hfirst.evolves.trans hsecond.evolves, hsecond.named ∘ hfirst.named, fun location => ?_⟩
  rcases hsecond.only location with hsame | ⟨hmissing, hmade⟩ | hdocument
  · rw [hsame]
    exact hfirst.only location
  · rcases hfirst.only location with hkept | ⟨-, hdirectory⟩ | ⟨-, _, hfile⟩
    · exact .inr (.inl ⟨hkept ▸ hmissing, hmade⟩)
    · simp [hmissing] at hdirectory
    · simp [hmissing] at hfile
  · exact .inr (.inr hdocument)

theorem extends_put (htree : store.IsTree) (path : Path) {entry : Entry}
    (hparent : store.entryAt? (store.placeOf path).dropLast = some .directory)
    (hadded : entry = .directory ∧ store.entryAt? (store.placeOf path) = none
      ∨ (∃ contents, entry = .file contents) ∧
        store.entryAt? (store.placeOf path) ≠ some .directory ∧
          IsDocumentPlace (store.placeOf path)) :
    store.Extends (store.put (store.placeOf path) entry) := by
  have hplace : store.entryAt? (store.placeOf path) ≠ some .directory := by
    rcases hadded with ⟨-, hmissing⟩ | ⟨-, hplace, -⟩
    · simp [hmissing]
    · exact hplace
  refine ⟨?_, fun hnamed => hnamed.put (ne_root hplace) (hnamed.placeOf htree path) entry,
    fun location => ?_⟩
  · rcases hadded with ⟨rfl, hmissing⟩ | ⟨⟨contents, rfl⟩, -, -⟩
    · exact .makeDirectory .refl hparent hmissing
    · exact .writeFile .refl hparent hplace
  · rw [entryAt?_put _ _ _ (ne_root hplace)]
    split
    next hsame =>
      rcases hadded with ⟨rfl, hmissing⟩ | ⟨⟨contents, rfl⟩, -, hdocument⟩
      · exact .inr (.inl ⟨hsame ▸ hmissing, rfl⟩)
      · exact .inr (.inr ⟨hsame ▸ hdocument, contents, rfl⟩)
    next => exact .inl rfl

theorem extends_attempt (htree : store.IsTree) (path : Path) :
    store.Extends (store.attempt path).1 := by
  unfold attempt
  split
  next => exact .refl store
  next place hreach =>
    split
    next hmissing =>
      have hparent := htree.directory_of_reach hreach
      rw [(directory_of_reach hreach).1] at hparent hmissing ⊢
      exact extends_put htree path hparent (.inl ⟨rfl, hmissing⟩)
    next => exact .refl store
    next => exact .refl store

theorem IsTree.extends_createDirectories (htree : store.IsTree) (path : Path) :
    store.Extends (store.createDirectories path).1 :=
  htree.createAlong_induct Extends.refl (fun _ _ _ => Extends.trans)
    (fun _ path hinner => extends_attempt hinner path) path.ancestors

/-- What stands at the place of a source is neither made nor written. -/
theorem Extends.entryAt?_source (hextends : s.Extends t) {stem : String}
    (hlast : location.getLast? = some (stem ++ "." ++ sourceExtension))
    (hfile : t.entryAt? location ≠ some .directory ∨ s.entryAt? location ≠ none) :
    t.entryAt? location = s.entryAt? location := by
  rcases hextends.only location with hsame | ⟨hmissing, hmade⟩ | ⟨⟨document, hdocument⟩, -⟩
  · exact hsame
  · exact absurd hmissing (hfile.resolve_left (not_not.mpr hmade))
  · rw [hdocument, Option.some.injEq] at hlast
    have hletter := congrArg (fun text : String => text.toList.getLast?) hlast
    simp [documentExtension, sourceExtension] at hletter

theorem extends_write (htree : store.IsTree) {stem : String}
    (hname : path.components.getLast? = some (.name (stem ++ "." ++ documentExtension)))
    (text : String) : store.Extends ((Effect.write path text).perform store).1 := by
  simp only [Effect.perform, Job.write_eq]
  cases hlocate : store.locate path with
  | error e => exact .refl store
  | ok place =>
      by_cases hentry : store.entryAt? place = some .directory
      · simp only [bind, Except.bind, hentry, if_true]
        exact .refl store
      · simp only [bind, Except.bind, hentry, if_false]
        obtain ⟨rfl, hparent⟩ := htree.place_of_locate hlocate
        exact extends_put htree path hparent
          (.inr ⟨⟨_, rfl⟩, hentry, stem, store.getLast?_placeOf hname⟩)

end FileStore

namespace Job

theorem exists_name_of_mem_outputs (hpath : path ∈ job.outputs) :
    ∃ stem, path.components.getLast? = some (.name (stem ++ "." ++ documentExtension)) := by
  obtain ⟨suffix, hsuffix, rfl⟩ := List.mem_map.mp hpath
  obtain ⟨stem, hname⟩ := exists_name_of_document job.source job.outputDirectory
  exact ⟨stem ++ suffix, hname suffix (Emit.slash_notMem_of_mem_suffixes hsuffix)⟩

theorem extends_writes (htree : store.IsTree)
    (hwrites : ∀ effect ∈ writes, ∃ path text, effect = .write path text ∧ path ∈ job.outputs) :
    store.Extends (performAll Effect.perform store writes).1 := by
  induction writes generalizing store with
  | nil => exact .refl store
  | cons effect rest ih =>
      obtain ⟨hfirst, hrest⟩ := List.forall_mem_cons.mp hwrites
      obtain ⟨path, text, rfl, hpath⟩ := hfirst
      obtain ⟨stem, hname⟩ := exists_name_of_mem_outputs hpath
      have hextends := extends_write htree hname text
      rw [performAll_cons]
      split
      next => exact hextends.trans (ih (hextends.evolves.isTree htree) hrest)
      next => exact hextends

/-- A job adds directories and documents to a tree and nothing else. -/
theorem extends_run (htree : store.IsTree) (job : Job) : store.Extends (job.run store).1 := by
  rw [run_eq]
  split
  next => exact .refl store
  next effects heffects =>
    obtain ⟨writes, rfl, hwrites⟩ := effects_eq_ok heffects
    have hmakes := htree.extends_createDirectories job.outputDirectory
    rw [performAll_cons]
    split
    next => exact hmakes.trans (extends_writes (hmakes.evolves.isTree htree) hwrites)
    next => exact hmakes

/-! ## Running a job again -/

/-- A job that reads a Jack file and whose documents are named inside its output directory. -/
structure Steady (store : FileStore) (job : Job) : Prop where
  source : store.isFile job.source = true
  jack : ∃ stem, job.source.components.getLast? = some (.name (stem ++ "." ++ sourceExtension))
  documents : ∀ path ∈ job.outputs, ∃ name, path = job.outputDirectory.child name

theorem Steady.entryAt?_source (hsteady : job.Steady s) (hs : s.IsTree) (hextends : t.Extends u)
    (hsame : t.entryAt? (s.placeOf job.source) = s.entryAt? (s.placeOf job.source)) :
    u.entryAt? (s.placeOf job.source) = s.entryAt? (s.placeOf job.source) := by
  obtain ⟨stem, hname⟩ := hsteady.jack
  obtain ⟨contents, -, hentry⟩ := place_of_isFile hs hsteady.source
  rw [hextends.entryAt?_source (s.getLast?_placeOf hname) (.inr (by simp [hsame, hentry])), hsame]

theorem Steady.of_extends (hsteady : job.Steady s) (hs : s.IsTree) (hextends : s.Extends t) :
    job.Steady t where
  source := by
    have hgrows := hextends.evolves.grows
    unfold isFile
    rw [status_eq_of_entry hgrows hs (hextends.evolves.isTree hs) hsteady.source
      (hsteady.entryAt?_source hs hextends rfl)]
    exact hsteady.source
  jack := hsteady.jack
  documents := hsteady.documents

theorem alike_of_onlyMakes {made : FileStore} (hmakes : s.OnlyMakes made) (hgrows : made.Grows u)
    (places : List Location) : Alike (fun _ => True) places s made u u := by
  intro location
  rcases hmakes location with hsame | ⟨-, hdirectory⟩
  · exact .inl ⟨hsame, rfl⟩
  · exact .inr (.inl ⟨trivial, hdirectory, hgrows.directory location hdirectory⟩)

/-- A job that is run again, over whatever has grown from the first run, gives the same
result and leaves the same behind. -/
theorem run_again (hs : s.IsTree) (hu : u.IsTree) (hsteady : job.Steady s)
    (hrepeatable : s.Repeatable job.outputDirectory) (hgrows : (job.run s).1.Grows u)
    (hsource : u.entryAt? (s.placeOf job.source) = s.entryAt? (s.placeOf job.source)) :
    (job.run u).2 = (job.run s).2 ∧
      Alike (fun _ => True) (job.places s) s (job.run s).1 u (job.run u).1 := by
  have hsu := (evolves_run hs job).grows.trans hgrows
  have hreading := readText_eq_of_entry hsu hs hu hsteady.source hsource
  rw [run_eq] at hgrows
  rw [run_eq, run_eq, hreading]
  cases heffects : job.effects (s.readText job.source) with
  | error error => exact ⟨rfl, .refl _ _ s u⟩
  | ok effects =>
      obtain ⟨writes, rfl, hwrites⟩ := effects_eq_ok heffects
      have hmakes := hs.onlyMakes_createAlong job.outputDirectory.ancestors
      have hevolves := hs.evolves_createDirectories job.outputDirectory
      have hmiddle := hevolves.isTree hs
      simp only [heffects, performAll_cons, Effect.perform] at hgrows ⊢
      cases hmade : (s.createDirectories job.outputDirectory).2 with
      | error error =>
          simp only [hmade] at hgrows
          have hagain := hrepeatable.createDirectories_again hs hgrows hu
          rw [hmade] at hagain
          simp only [hagain]
          exact ⟨trivial, alike_of_onlyMakes hmakes hgrows _⟩
      | ok ready =>
          simp only [hmade] at hgrows
          have hwritten := (evolves_performAll hmiddle writes).grows.trans hgrows
          have hagain := hrepeatable.createDirectories_again hs hwritten hu
          rw [hmade] at hagain
          simp only [hagain]
          have hopens := hs.opens_createDirectories hmade
          obtain ⟨hresult, halike⟩ := writes_alike hwrites hwritten hmiddle hu
            (found_of_opens hsteady.documents hevolves hopens) fun path _ contents hfile => by
              obtain ⟨other, hother⟩ := hgrows.file _ contents hfile
              simp [hother]
          rw [← places, places_of_grows hevolves.grows] at halike
          exact ⟨by rw [hresult], (alike_of_onlyMakes hmakes hwritten _).trans
            (halike.mono (fun _ _ => trivial) (List.Subset.refl _))⟩

end Job

/-! ## Running many jobs again -/

namespace Compiler

theorem extends_runJobs (htree : store.IsTree) (jobs : List Job) :
    store.Extends (runJobs store jobs).1 := by
  induction jobs generalizing store with
  | nil => exact .refl store
  | cons job rest ih =>
      have hfirst := Job.extends_run htree job
      rw [runJobs_cons]
      exact hfirst.trans (ih (hfirst.evolves.isTree htree))

/-- Every job, when its turn comes, has an output directory that is repeatable. -/
inductive RepeatableInTurn : FileStore → List Job → Prop
  | nil {store : FileStore} : RepeatableInTurn store []
  | cons {store : FileStore} {job : Job} {rest : List Job}
      (hfirst : store.Repeatable job.outputDirectory)
      (hrest : RepeatableInTurn (job.run store).1 rest) : RepeatableInTurn store (job :: rest)

theorem repeatableInTurn_of_leadsOn {jobs : List Job} (htree : store.IsTree)
    (hleads : ∀ job ∈ jobs, store.LeadsOn job.outputDirectory) : RepeatableInTurn store jobs := by
  induction jobs generalizing store with
  | nil => exact .nil
  | cons job rest ih =>
      obtain ⟨hfirst, hrest⟩ := List.forall_mem_cons.mp hleads
      have hevolves := Job.evolves_run htree job
      exact .cons (.inr hfirst) (ih (hevolves.isTree htree) fun other hother =>
        hevolves.grows.leadsOn htree (hrest other hother))

/-- Jobs that are run again, one after another in the same order, give the same results and
leave the same behind. -/
theorem runJobs_again {jobs : List Job} (hs : s.IsTree) (hu : u.IsTree)
    (hsteady : ∀ job ∈ jobs, job.Steady s) (hrepeatable : RepeatableInTurn s jobs)
    (hgrows : (runJobs s jobs).1.Grows u)
    (hsources : ∀ job ∈ jobs,
      u.entryAt? (s.placeOf job.source) = s.entryAt? (s.placeOf job.source)) :
    (runJobs u jobs).2 = (runJobs s jobs).2 ∧
      Alike (fun _ => True) (jobs.flatMap (Job.places s)) s (runJobs s jobs).1
        u (runJobs u jobs).1 := by
  induction hrepeatable generalizing u with
  | nil => exact ⟨rfl, .refl _ _ _ u⟩
  | @cons s job rest hturn _ ih =>
      obtain ⟨hfirst, hrest⟩ := List.forall_mem_cons.mp hsteady
      obtain ⟨hsource, hlater⟩ := List.forall_mem_cons.mp hsources
      have hsExtends := Job.extends_run hs job
      have huExtends := Job.extends_run hu job
      have hsNext := hsExtends.evolves.isTree hs
      -- `u` has grown from what all jobs left, so also from what the first one left.
      have hgrowsFirst : (job.run s).1.Grows u := by
        rw [runJobs_cons] at hgrows
        exact (extends_runJobs hsNext rest).evolves.grows.trans hgrows
      obtain ⟨hresult, halike⟩ := Job.run_again hs hu hfirst hturn hgrowsFirst hsource
      have hsourcesNext : ∀ other ∈ rest,
          (job.run u).1.entryAt? ((job.run s).1.placeOf other.source) =
            (job.run s).1.entryAt? ((job.run s).1.placeOf other.source) := by
        intro other hother
        rw [hsExtends.evolves.grows.placeOf,
          (hrest other hother).entryAt?_source hs huExtends (hlater other hother),
          (hrest other hother).entryAt?_source hs hsExtends rfl]
      obtain ⟨hresults, halikeRest⟩ := ih hsNext (huExtends.evolves.isTree hu)
        (fun other hother => (hrest other hother).of_extends hs hsExtends)
        ((runJobs_cons s job rest ▸ hgrows).trans huExtends.evolves.grows) hsourcesNext
      rw [show Job.places (job.run s).1 = Job.places s from
        funext (Job.places_of_grows hsExtends.evolves.grows)] at halikeRest
      rw [runJobs_cons, runJobs_cons, hresult, hresults, List.flatMap_cons]
      refine ⟨rfl, (halike.mono (fun _ h => h) (List.subset_append_left _ _)).trans
        (halikeRest.mono (fun _ h => h) (List.subset_append_right _ _))⟩

end Compiler

end JackTree
