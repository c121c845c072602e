import JackTree.Proofs.JobFootprint
import JackTree.Proofs.PathComponents

/-!
# Outcomes of jobs

A job is all or nothing with respect to its source.  A faulty source is reported before
the first effect, whatever is wanted of it.  Otherwise the job ends with the first effect
that is refused, and what it has written until then stays, each document in full.
`run_is_all_or_nothing` puts this together.
-/

namespace JackTree

open FileStore

variable {σ : Type} {store s t next final : FileStore} {job : Job} {effect : Effect}
  {writes : List Effect} {reading : Except IoError String} {path : Path} {location : Location}

/-! ## Either faulty or not -/

theorem Job.Faulty.not_gives {error : CompileError} (hfaulty : job.Faulty reading error) :
    ¬ job.Gives reading writes := by
  intro hgives
  have hequal := hfaulty.effects_eq.symm.trans hgives.effects_eq
  cases hequal

theorem Job.faulty_iff_not_gives (job : Job) (reading : Except IoError String) :
    (∃ error, job.Faulty reading error) ↔ ¬ ∃ writes, job.Gives reading writes := by
  constructor
  · rintro ⟨error, hfaulty⟩ ⟨writes, hgives⟩
    exact hfaulty.not_gives hgives
  · exact (job.faulty_or_gives reading).resolve_right

/-! ## The end of a job -/

/-- How a job ends that has some effects to carry out: all succeed, or the job stops at
the first one that is refused. -/
inductive Job.Ends (job : Job) (perform : σ → Effect → σ × Except IoError Unit) (state : σ)
    (effects : List Effect) : σ × List Effect × Except CompileError CompiledUnit → Prop
  | done {final : σ} (hall : Performed perform state effects final) :
      Ends job perform state effects (final, effects, .ok ⟨job.source, job.outputs⟩)
  | refused {before rest : List Effect} {effect : Effect} {middle final : σ} {error : IoError}
      (hsplit : effects = before ++ effect :: rest)
      (hbefore : Performed perform state before middle)
      (hrefused : perform middle effect = (final, .error error)) :
      Ends job perform state effects
        (final, before ++ [effect], .error (.io error job.source))

theorem Job.Faulty.runWith_eq {error : CompileError} (hfaulty : job.Faulty reading error)
    (perform : σ → Effect → σ × Except IoError Unit) (state : σ) :
    job.runWith perform reading state = (state, [], .error error) := by
  rw [runWith, hfaulty.effects_eq]

theorem Job.Gives.ends (hgives : job.Gives reading writes)
    (perform : σ → Effect → σ × Except IoError Unit) (state : σ) :
    job.Ends perform state (.createDirectories job.outputDirectory :: writes)
      (job.runWith perform reading state) := by
  rw [runWith, hgives.effects_eq]
  rcases performAll_cases perform state (.createDirectories job.outputDirectory :: writes) with
    ⟨final, hall, hresult⟩ | ⟨before, effect, rest, middle, final, error, hsplit, hbefore,
      hrefused, hresult⟩
  · simp only [hresult, List.filterMap_cons, Effect.document?, hgives.filterMap_document?]
    exact .done hall
  · simp only [hresult]
    exact .refused hsplit hbefore hrefused

theorem Job.error_of_run {error : CompileError} (hrun : (job.run store).2 = .error error) :
    (∃ cause, error = .io cause job.source) ∨ ∃ cause, error = .parse cause job.source := by
  change (job.runWith Effect.perform (store.readText job.source) store).2.2 = _ at hrun
  rcases job.faulty_or_gives (store.readText job.source) with ⟨found, hfaulty⟩ | ⟨writes, hgives⟩
  · rw [hfaulty.runWith_eq] at hrun
    obtain rfl := Except.error.inj hrun
    cases hfaulty with
    | unread => exact .inl ⟨_, rfl⟩
    | unlexed => exact .inr ⟨_, rfl⟩
    | unparsed => exact .inr ⟨_, rfl⟩
  · have hends := hgives.ends Effect.perform store
    rcases hresult : job.runWith Effect.perform (store.readText job.source) store with
      ⟨final, tried, result⟩
    rw [hresult] at hends hrun
    cases hends with
    | done => cases hrun
    | refused => exact .inl ⟨_, (Except.error.inj hrun).symm⟩

/-! ## What is left behind -/

/-- What stands in a store after some effects were carried out: their documents in full,
directories where nothing was, and else what stood there before. -/
structure Effect.Leaves (store : FileStore) (effects : List Effect) (final : FileStore) :
    Prop where
  documents : ∀ path text, .write path text ∈ effects → final.readText path = .ok text
  rest : ∀ location, final.entryAt? location = store.entryAt? location
    ∨ store.entryAt? location = none ∧ final.entryAt? location = some .directory
    ∨ ∃ path text, .write path text ∈ effects ∧ location = store.placeOf path ∧
        final.entryAt? location = some (.file (.text text))

theorem Effect.perform_write {text : String}
    (hperform : (Effect.write path text).perform store = (next, .ok ())) :
    ∃ place, store.locate path = .ok place ∧ place ≠ [] ∧
      next = store.put place (.file (.text text)) := by
  rw [Effect.perform, Job.write_eq] at hperform
  cases hlocate : store.locate path with
  | error e => simp [hlocate, bind, Except.bind] at hperform
  | ok place =>
      by_cases hentry : store.entryAt? place = some .directory
      · simp [hlocate, hentry, bind, Except.bind] at hperform
      · simp only [hlocate, bind, Except.bind, if_neg hentry, Prod.mk.injEq] at hperform
        exact ⟨place, rfl, ne_root hentry, hperform.1.symm⟩

/-- A refused effect may have made directories, and writes nothing. -/
theorem Effect.onlyMakes_of_refused (htree : store.IsTree) {error : IoError}
    (hrefused : effect.perform store = (final, .error error)) : store.OnlyMakes final := by
  cases effect with
  | createDirectories directory =>
      have hmakes := htree.onlyMakes_createAlong directory.ancestors
      rwa [show (store.createAlong directory.ancestors).1 = final from congrArg Prod.fst hrefused]
        at hmakes
  | write path text =>
      rw [Effect.perform] at hrefused
      split at hrefused
      next => cases hrefused
      next =>
        obtain ⟨rfl, -⟩ := Prod.mk.inj hrefused
        exact .refl store

theorem Effect.perform_cases (htree : store.IsTree)
    (hperform : effect.perform store = (next, .ok ())) (location : Location) :
    next.entryAt? location = store.entryAt? location
    ∨ store.entryAt? location = none ∧ next.entryAt? location = some .directory
    ∨ ∃ path text, effect = .write path text ∧ location = store.placeOf path ∧
        next.entryAt? location = some (.file (.text text)) := by
  cases effect with
  | createDirectories directory =>
      have hmakes := htree.onlyMakes_createAlong directory.ancestors location
      rw [show (store.createAlong directory.ancestors).1 = next from congrArg Prod.fst hperform]
        at hmakes
      exact hmakes.imp_right .inl
  | write path text =>
      obtain ⟨place, hlocate, hroot, rfl⟩ := Effect.perform_write hperform
      rw [entryAt?_put _ _ _ hroot]
      split
      next hplace =>
        exact .inr (.inr ⟨path, text, rfl, hplace.trans (htree.place_of_locate hlocate).1, rfl⟩)
      next => exact .inl rfl

theorem Performed.evolves {effects : List Effect}
    (hall : Performed Effect.perform store effects final) (htree : store.IsTree) :
    store.Evolves final := by
  induction hall with
  | nil => exact .refl
  | @cons store middle final effect rest hfirst hrest ih =>
      have hevolves := Job.evolves_perform htree effect
      rw [hfirst] at hevolves
      exact hevolves.trans (ih (hevolves.isTree htree))

theorem FileStore.readText_eq_ok_iff {text : String} : store.readText path = .ok text ↔
    ∃ place, store.locate path = .ok place ∧
      store.entryAt? place = some (.file (.text text)) := by
  rw [← status_eq_ok_iff, readText, FileStore.read]
  cases store.status path with
  | error e => simp [bind, Except.bind]
  | ok entry =>
      cases entry with
      | directory => simp [bind, Except.bind]
      | link target => simp [bind, Except.bind]
      | file contents => cases contents <;> simp [bind, Except.bind]

theorem FileStore.Grows.readText (hgrows : s.Grows t) (hs : s.IsTree) (ht : t.IsTree)
    {place : Location} (hlocate : s.locate path = .ok place) {text : String}
    (hentry : t.entryAt? place = some (.file (.text text))) : t.readText path = .ok text :=
  readText_eq_ok_iff.mpr ⟨place, hgrows.locate_eq_ok hs ht hlocate, hentry⟩

theorem Effect.Leaves.nil (store : FileStore) : Effect.Leaves store [] store where
  documents _ _ hmem := absurd hmem List.not_mem_nil
  rest _ := .inl rfl

/-- What was written first stands there in the end if nothing else went to its place. -/
theorem Effect.Leaves.readText_first {effects : List Effect} {text : String}
    (hleaves : Effect.Leaves next effects final) (htree : store.IsTree)
    (hfirst : (Effect.write path text).perform store = (next, .ok ()))
    (hevolves : next.Evolves final)
    (hapart : ∀ other ∈ effects.filterMap Effect.document?,
      store.placeOf path ≠ store.placeOf other) : final.readText path = .ok text := by
  have hnext := Job.evolves_perform htree (.write path text)
  rw [hfirst] at hnext
  obtain ⟨place, hlocate, hroot, rfl⟩ := Effect.perform_write hfirst
  have hwritten : (store.put place (.file (.text text))).entryAt? place =
      some (.file (.text text)) := by rw [entryAt?_put _ _ _ hroot, if_pos rfl]
  have hall := hnext.trans hevolves
  refine hall.grows.readText htree (hall.isTree htree) hlocate ?_
  rcases hleaves.rest place with hsame | ⟨hmissing, -⟩ | ⟨other, later, hother, hplace, -⟩
  · rw [hsame, hwritten]
  · simp [hwritten] at hmissing
  · rw [hnext.grows.placeOf, (htree.place_of_locate hlocate).1] at hplace
    exact absurd hplace (hapart other (List.mem_filterMap.mpr ⟨_, hother, rfl⟩))

/-- Effects that all succeed leave their documents, if no two of them go to one place. -/
theorem Performed.leaves {effects : List Effect}
    (hall : Performed Effect.perform store effects final) (htree : store.IsTree)
    (hapart : (effects.filterMap Effect.document?).Pairwise fun a b =>
      store.placeOf a ≠ store.placeOf b) :
    Effect.Leaves store effects final := by
  induction hall with
  | nil => exact .nil _
  | @cons store middle final effect rest hfirst hrest ih =>
      have hevolves := Job.evolves_perform htree effect
      rw [hfirst] at hevolves
      have hmiddle := hevolves.isTree htree
      have hplaces := hevolves.grows.placeOf
      have hlater : Effect.Leaves middle rest final := by
        refine ih hmiddle ?_
        simp only [hplaces]
        exact hapart.sublist ((List.sublist_cons_self effect rest).filterMap _)
      refine ⟨fun path text hmem => ?_, fun location => ?_⟩
      · rcases List.mem_cons.mp hmem with rfl | hmem
        · exact hlater.readText_first htree hfirst (hrest.evolves hmiddle)
            fun other hother => List.rel_of_pairwise_cons hapart hother
        · exact hlater.documents path text hmem
      · have hnow := Effect.perform_cases htree hfirst location
        rcases hlater.rest location with
          hsame | ⟨hmissing, hmade⟩ | ⟨path, text, hmem, hplace, hwritten⟩
        · rw [hsame]
          refine hnow.imp_right (Or.imp_right ?_)
          rintro ⟨path, text, rfl, hwritten⟩
          exact ⟨path, text, List.mem_cons_self, hwritten⟩
        · rcases hnow with hkept | ⟨-, hdirectory⟩ | ⟨_, _, -, -, hwritten⟩
          · exact .inr (.inl ⟨hkept ▸ hmissing, hmade⟩)
          · simp [hmissing] at hdirectory
          · simp [hmissing] at hwritten
        · rw [hplaces] at hplace
          exact .inr (.inr ⟨path, text, List.mem_cons_of_mem _ hmem, hplace, hwritten⟩)

/-- A refused effect leaves the documents that are there as they are. -/
theorem Effect.Leaves.refused {effects : List Effect} {error : IoError}
    (hleaves : Effect.Leaves store effects next) (htree : next.IsTree)
    (hrefused : effect.perform next = (final, .error error)) :
    Effect.Leaves store effects final := by
  have hevolves := Job.evolves_perform htree effect
  rw [hrefused] at hevolves
  have hmakes := Effect.onlyMakes_of_refused htree hrefused
  refine ⟨fun path text hmem => ?_, fun location => ?_⟩
  · obtain ⟨place, hlocate, hentry⟩ := readText_eq_ok_iff.mp (hleaves.documents path text hmem)
    refine hevolves.grows.readText htree (hevolves.isTree htree) hlocate ?_
    rcases hmakes place with hsame | ⟨hmissing, -⟩
    · rw [hsame, hentry]
    · simp [hentry] at hmissing
  · rcases hmakes location with hsame | ⟨hmissing, hmade⟩
    · rw [hsame]
      exact hleaves.rest location
    · rcases hleaves.rest location with hkept | ⟨-, hdirectory⟩ | ⟨_, _, -, -, hwritten⟩
      · exact .inr (.inl ⟨hkept ▸ hmissing, hmade⟩)
      · simp [hmissing] at hdirectory
      · simp [hmissing] at hwritten

/-- However a job ends in a tree, it leaves the documents that it wrote and no others. -/
theorem Job.Gives.leaves (hgives : job.Gives reading writes) (htree : store.IsTree)
    {tried : List Effect} {result : Except CompileError CompiledUnit}
    (hends : job.Ends Effect.perform store (.createDirectories job.outputDirectory :: writes)
      (final, tried, result)) :
    Effect.Leaves store (if result.isOk then tried else tried.dropLast) final := by
  have hapart : ((.createDirectories job.outputDirectory :: writes).filterMap
      Effect.document?).Pairwise fun a b => store.placeOf a ≠ store.placeOf b := by
    rw [List.filterMap_cons, Effect.document?, hgives.filterMap_document?]
    exact job.outputs_named_apart.imp fun h => h.placeOf_ne store
  cases hends with
  | done hall => exact hall.leaves htree hapart
  | @refused before rest effect middle final error hsplit hbefore hrefused =>
      rw [hsplit, List.filterMap_append] at hapart
      have hleaves := hbefore.leaves htree (List.pairwise_append.mp hapart).1
      have hmiddle := (hbefore.evolves htree).isTree htree
      simpa [Except.isOk, Except.toBool] using hleaves.refused hmiddle hrefused

/-- A faulty source ends its job with its error before any effect.  Any other source has
its directory made and its documents written in the planned order, up to the first effect
that is refused, and what was written by then stays in full. -/
theorem run_is_all_or_nothing (job : Job) (reading : Except IoError String) :
    ((∃ error, job.Faulty reading error) ↔ ¬ ∃ writes, job.Gives reading writes)
    ∧ (∀ error, job.Faulty reading error → error.source? = some job.source ∧
        ∀ (σ : Type) (perform : σ → Effect → σ × Except IoError Unit) (state : σ),
          job.runWith perform reading state = (state, [], .error error))
    ∧ ∀ writes, job.Gives reading writes → writes.map Effect.document? = job.outputs.map some
      ∧ (∀ (σ : Type) (perform : σ → Effect → σ × Except IoError Unit) (state : σ),
          job.Ends perform state (.createDirectories job.outputDirectory :: writes)
            (job.runWith perform reading state))
      ∧ ∀ store final tried result, store.IsTree →
          job.runWith Effect.perform reading store = (final, tried, result) →
          Effect.Leaves store (if result.isOk then tried else tried.dropLast) final := by
  refine ⟨job.faulty_iff_not_gives reading, fun error hfaulty => ⟨hfaulty.source?, ?_⟩,
    fun writes hgives => ⟨hgives.map_document?, ?_, ?_⟩⟩
  · exact fun σ perform state => hfaulty.runWith_eq perform state
  · exact fun σ perform state => hgives.ends perform state
  · intro store final tried result htree hrun
    have hends := hgives.ends Effect.perform store
    rw [hrun] at hends
    exact hgives.leaves htree hends

/-- A directory stands where the second document of `Main.jack` belongs. -/
def blockedDocument : FileStore :=
  ⟨[(["Main.jack"], .file (.text "class Main \x7b \x7d")), (["out"], .directory),
    (["out", "Main.xml"], .directory)], []⟩

def bothDocuments : Job :=
  ⟨.ofString "Main.jack", .ofString "out", { emit := .both }⟩

def mainListing : String :=
  "<tokens>\r\n<keyword> class </keyword>\r\n<identifier> Main </identifier>\r\n" ++
    "<symbol> \x7b </symbol>\r\n<symbol> \x7d </symbol>\r\n</tokens>"

theorem run_leaves_listing_of_blocked_document :
    (bothDocuments.runWith Effect.perform (.error .notText) blockedDocument).2.2 =
        .error (.io .notText bothDocuments.source)
    ∧ (bothDocuments.run blockedDocument).2.isOk = false
    ∧ (bothDocuments.run blockedDocument).1.readText (.ofString "out/MainT.xml") =
        .ok mainListing := by
  have htree : blockedDocument.IsTree := isTree_of_entries (by decide +kernel) (by decide +kernel)
  refine ⟨?_, ?_, ?_⟩
  · rw [((run_is_all_or_nothing bothDocuments (.error .notText)).2.1 _ (.unread rfl)).2]
  · decide +kernel
  · have happly := run_is_all_or_nothing bothDocuments
      (blockedDocument.readText bothDocuments.source)
    have hgives : ∃ writes, bothDocuments.Gives (blockedDocument.readText bothDocuments.source)
        writes := by
      by_contra hnone
      obtain ⟨error, hfaulty⟩ := happly.1.mpr hnone
      have herror := hfaulty.effects_eq
      have hfine : (bothDocuments.effects
          (blockedDocument.readText bothDocuments.source)).isOk = true := by decide +kernel
      simp [herror, Except.isOk, Except.toBool] at hfine
    obtain ⟨writes, hgives⟩ := hgives
    have hleaves := (happly.2.2 writes hgives).2.2 blockedDocument _ _ _ htree rfl
    exact hleaves.documents _ _ (by decide +kernel)

end JackTree
