import JackTree.Proofs.DirectoryMaking
import JackTree.Proofs.JobEffects

/-!
# Footprints of jobs

A job reads its source, makes the directories on the way to its output directory and
writes its documents.  `run_stable` says that nothing else in a tree matters: a job
gives the same result, and changes the store alike, after any changes that leave its
source and the places of its documents as they were and put nothing but directories
where it makes directories.
-/

namespace JackTree

open FileStore

variable {s t store : FileStore}

/-! ## Documents -/

theorem Path.isAbsolute_singleton (segment : String) :
    (⟨[segment]⟩ : Path).isAbsolute = false := by
  simp [Path.isAbsolute]

theorem Path.child_eq (path : Path) (name : String) :
    ∃ base, base <+: path.segments ∧ (path.child name).segments = base ++ [name] ∧
      (path.child name).isAbsolute = path.isAbsolute := by
  have hjoin : path.child name =
      if path.segments.getLast? = some "" then ⟨path.segments.dropLast ++ [name]⟩
      else ⟨path.segments ++ [name]⟩ := by
    rw [Path.child, Path.join, isAbsolute_singleton]
    rfl
  rcases path with ⟨_ | ⟨head, tail⟩⟩
  · rw [hjoin]
    exact ⟨[], List.nil_prefix, rfl, Path.isAbsolute_singleton name⟩
  · rw [hjoin]
    split
    next hlast =>
      refine ⟨(head :: tail).dropLast, List.dropLast_prefix _, rfl, ?_⟩
      cases tail with
      | nil => exact (Path.isAbsolute_singleton name).trans (Path.isAbsolute_singleton head).symm
      | cons next rest =>
          rw [Bool.eq_iff_iff]
          simp [Path.isAbsolute_cons_iff]
    next hlast =>
      refine ⟨head :: tail, List.prefix_refl _, rfl, ?_⟩
      rw [Bool.eq_iff_iff, List.cons_append, Path.isAbsolute_cons_iff, Path.isAbsolute_cons_iff]
      cases tail with
      | nil =>
          have hhead : head ≠ "" := by simpa using hlast
          simp [hhead]
      | cons next rest => simp

/-- In a directory that is there, a place for a file is only missing its file. -/
theorem FileStore.tread_child_ne_notFound {directory : Path}
    (hopen : ∀ location ∈ store.trailOf directory, store.entryAt? location = some .directory)
    (name : String) :
    store.tread (store.startOf (directory.child name)) (directory.child name).segments
      ≠ .error .notFound := by
  rcases Path.child_eq directory name with ⟨base, ⟨more, hmore⟩, hsegments, habsolute⟩
  rw [hsegments, startOf, habsolute, ← startOf]
  refine tread_ne_notFound (fun location hmem => hopen location ?_) name
  rw [trailOf, ← hmore]
  exact trail_subset_append _ base more hmem

theorem FileStore.Grows.locate_eq (hgrows : s.Grows t) (hs : s.IsTree) (ht : t.IsTree) {path : Path}
    (hfound : s.tread (s.startOf path) path.segments ≠ .error .notFound) :
    t.locate path = s.locate path := by
  rw [ht.locate_eq, hs.locate_eq, hgrows.startOf, hgrows.tread_eq hs hfound]

theorem FileStore.Grows.locate_eq_ok (hgrows : s.Grows t) (hs : s.IsTree) (ht : t.IsTree)
    {path : Path} {place : Location} (hlocate : s.locate path = .ok place) :
    t.locate path = .ok place := by
  have hwalk := (hs.locate_eq_ok_iff.mp hlocate).2
  rw [hgrows.locate_eq hs ht (by simp [hwalk]), hlocate]

theorem FileStore.IsTree.place_of_locate (htree : store.IsTree) {path : Path} {place : Location}
    (hlocate : store.locate path = .ok place) :
    place = store.placeOf path ∧ store.entryAt? place.dropLast = some .directory := by
  have hwalk := (htree.locate_eq_ok_iff.mp hlocate).2
  refine ⟨?_, htree.directory_of_tread (htree.inDirectory _ (by simp [htree.startOf])) hwalk⟩
  rw [placeOf_eq]
  exact (FileStore.directory_of_tread hwalk).1

namespace Job

/-! ## What a job touches -/

def places (store : FileStore) (job : Job) : List Location :=
  job.outputs.map store.placeOf

theorem places_of_grows (hgrows : s.Grows t) (job : Job) : job.places t = job.places s :=
  List.map_congr_left fun path _ => hgrows.placeOf path

/-- A job whose source is there, whose documents are named inside its output directory and
whose output directory does not depend on others being made. -/
structure Ready (store : FileStore) (job : Job) : Prop where
  source : store.isFile job.source = true
  documents : ∀ path ∈ job.outputs, ∃ name, path = job.outputDirectory.child name
  settles : store.Settles job.outputDirectory

/-- Between two stores nothing has happened that a job notices. -/
structure Undisturbed (job : Job) (s t : FileStore) : Prop where
  grows : s.Grows t
  source : t.entryAt? (s.placeOf job.source) = s.entryAt? (s.placeOf job.source)
  documents : ∀ place ∈ job.places s, t.entryAt? place = s.entryAt? place
  directories : ∀ location, s.Makes job.outputDirectory location →
    t.entryAt? location = none ∨ t.entryAt? location = some .directory

/-! ## Reading -/

theorem place_of_isFile (htree : store.IsTree) {path : Path} (hfile : store.isFile path = true) :
    ∃ contents, store.locate path = .ok (store.placeOf path) ∧
      store.entryAt? (store.placeOf path) = some (.file contents) := by
  unfold isFile at hfile
  split at hfile
  next contents hstatus =>
    rcases status_eq_ok_iff.mp hstatus with ⟨place, hlocate, hentry⟩
    rw [← (htree.place_of_locate hlocate).1]
    exact ⟨contents, hlocate, hentry⟩
  next => cases hfile

/-- What a file path leads to stays the same while the entry at its place does. -/
theorem status_eq_of_entry (hgrows : s.Grows t) (hs : s.IsTree) (ht : t.IsTree) {path : Path}
    (hfile : s.isFile path = true)
    (hentry : t.entryAt? (s.placeOf path) = s.entryAt? (s.placeOf path)) :
    t.status path = s.status path := by
  rcases place_of_isFile hs hfile with ⟨contents, hlocate, _⟩
  unfold status
  rw [hgrows.locate_eq_ok hs ht hlocate, hlocate]
  simp only [bind, Except.bind, hentry]

theorem readText_eq_of_entry (hgrows : s.Grows t) (hs : s.IsTree) (ht : t.IsTree) {path : Path}
    (hfile : s.isFile path = true)
    (hentry : t.entryAt? (s.placeOf path) = s.entryAt? (s.placeOf path)) :
    t.readText path = s.readText path := by
  unfold readText FileStore.read
  rw [status_eq_of_entry hgrows hs ht hfile hentry]

/-! ## Writing -/

theorem write_eq (store : FileStore) (path : Path) (contents : FileContents) :
    store.write path contents = store.locate path >>= fun place =>
      if store.entryAt? place = some .directory then .error (.os .isADirectory)
      else .ok (store.put place (.file contents)) := by
  unfold write
  cases store.locate path with
  | error e => rfl
  | ok place =>
      cases hentry : store.entryAt? place with
      | none => simp [bind, Except.bind, hentry]
      | some entry => cases entry <;> simp [bind, Except.bind, hentry]

theorem evolves_perform (htree : store.IsTree) (effect : Effect) :
    store.Evolves (effect.perform store).1 := by
  cases effect with
  | createDirectories directory => exact htree.evolves_createAlong _
  | write path text =>
      simp only [Effect.perform, write_eq]
      cases hlocate : store.locate path with
      | error e => exact .refl
      | ok place =>
          by_cases hentry : store.entryAt? place = some .directory
          · simp only [bind, Except.bind, hentry, if_true]
            exact .refl
          · simp only [bind, Except.bind, hentry, if_false]
            exact .writeFile .refl (htree.place_of_locate hlocate).2 hentry

theorem performAll_cons (store : FileStore) (effect : Effect) (rest : List Effect) :
    performAll Effect.perform store (effect :: rest) =
      match (effect.perform store).2 with
      | .ok () =>
        ((performAll Effect.perform (effect.perform store).1 rest).1,
          effect :: (performAll Effect.perform (effect.perform store).1 rest).2.1,
          (performAll Effect.perform (effect.perform store).1 rest).2.2)
      | .error error => ((effect.perform store).1, [effect], .error error) := by
  rw [performAll]
  rcases effect.perform store with ⟨changed, error | u⟩ <;> rfl

theorem evolves_performAll (htree : store.IsTree) (effects : List Effect) :
    store.Evolves (performAll Effect.perform store effects).1 := by
  induction effects generalizing store with
  | nil => exact .refl
  | cons effect rest ih =>
      have hfirst := evolves_perform htree effect
      rw [performAll_cons]
      split
      next => exact hfirst.trans (ih (hfirst.isTree htree))
      next => exact hfirst

theorem write_stable (hgrows : s.Grows t) (hs : s.IsTree) (ht : t.IsTree) {path : Path}
    (hfound : s.tread (s.startOf path) path.segments ≠ .error .notFound)
    (hplace : s.locate path = .ok (s.placeOf path) →
      s.entryAt? (s.placeOf path) ≠ some .directory →
      t.entryAt? (s.placeOf path) ≠ some .directory)
    (contents : FileContents) :
    (∃ error, s.write path contents = .error error ∧ t.write path contents = .error error)
    ∨ s.placeOf path ≠ [] ∧
      s.write path contents = .ok (s.put (s.placeOf path) (.file contents)) ∧
      t.write path contents = .ok (t.put (s.placeOf path) (.file contents)) := by
  rw [write_eq, write_eq, hgrows.locate_eq hs ht hfound]
  cases hlocate : s.locate path with
  | error e => exact .inl ⟨e, rfl, rfl⟩
  | ok place =>
      rw [← (hs.place_of_locate hlocate).1] at hplace ⊢
      by_cases hentry : s.entryAt? place = some .directory
      · exact .inl ⟨_, if_pos hentry, if_pos (hgrows.directory place hentry)⟩
      · exact .inr ⟨ne_root hentry, if_neg hentry, if_neg (hplace hlocate hentry)⟩

theorem grows_put (hgrows : s.Grows t) {place : Location} (hroot : place ≠ [])
    (contents : FileContents) :
    (s.put place (.file contents)).Grows (t.put place (.file contents)) := by
  refine ⟨hgrows.working, fun location hdirectory => ?_, fun location kept hfile => ?_⟩
  · rw [entryAt?_put _ _ _ hroot] at hdirectory ⊢
    split at hdirectory
    next => cases hdirectory
    next hother => rw [if_neg hother, hgrows.directory location hdirectory]
  · rw [entryAt?_put _ _ _ hroot] at hfile ⊢
    split at hfile
    next hsame => exact ⟨contents, if_pos hsame⟩
    next hother =>
      rw [if_neg hother]
      exact hgrows.file location kept hfile

theorem alike_put {made : Location → Prop} {places : List Location} {place : Location}
    (hroot : place ≠ []) (hmem : place ∈ places) (entry : Entry) :
    Alike made places s (s.put place entry) t (t.put place entry) := by
  intro location
  rw [entryAt?_put _ _ _ hroot, entryAt?_put _ _ _ hroot]
  split
  next hsame => exact .inr (.inr ⟨hsame ▸ hmem, rfl⟩)
  next => exact .inl ⟨rfl, rfl⟩

/-- Writing documents ends the same in a grown store, and changes the stores alike, unless
a directory has come to where one of them was written. -/
theorem writes_alike {paths : List Path} {writes : List Effect}
    (hwrites : ∀ effect ∈ writes, ∃ path text, effect = .write path text ∧ path ∈ paths)
    (hgrows : s.Grows t) (hs : s.IsTree) (ht : t.IsTree)
    (hfound : ∀ path ∈ paths, s.tread (s.startOf path) path.segments ≠ .error .notFound)
    (hkeep : ∀ path ∈ paths, ∀ contents,
      (performAll Effect.perform s writes).1.entryAt? (s.placeOf path) = some (.file contents) →
        t.entryAt? (s.placeOf path) ≠ some .directory) :
    (performAll Effect.perform t writes).2.2 = (performAll Effect.perform s writes).2.2 ∧
      Alike (fun _ => False) (paths.map s.placeOf) s (performAll Effect.perform s writes).1
        t (performAll Effect.perform t writes).1 := by
  induction writes generalizing s t with
  | nil => exact ⟨rfl, .refl _ _ s t⟩
  | cons effect rest ih =>
      rcases hwrites effect List.mem_cons_self with ⟨path, text, rfl, hpath⟩
      have hsEvolves := evolves_perform hs (.write path text)
      have htEvolves := evolves_perform ht (.write path text)
      have hplace : s.locate path = .ok (s.placeOf path) →
          s.entryAt? (s.placeOf path) ≠ some .directory →
          t.entryAt? (s.placeOf path) ≠ some .directory := by
        intro hlocate hentry
        have hwrite : (Effect.write path text).perform s =
            (s.put (s.placeOf path) (.file (.text text)), .ok ()) := by
          simp only [Effect.perform, write_eq, hlocate, bind, Except.bind, hentry, if_false]
        have hwritten := s.entryAt?_put (s.placeOf path) (.file (.text text)) (ne_root hentry)
        rw [if_pos rfl] at hwritten
        rw [hwrite] at hsEvolves
        -- What is written stays a file while the other documents are written.
        have hlater := (evolves_performAll (hsEvolves.isTree hs) rest).grows
        rcases hlater.file _ _ hwritten with ⟨other, hother⟩
        refine hkeep path hpath other ?_
        rw [performAll_cons, hwrite]
        exact hother
      rcases write_stable hgrows hs ht (hfound path hpath) hplace (.text text) with
        ⟨error, hsError, htError⟩ | ⟨hroot, hsWrite, htWrite⟩
      · simp only [performAll, Effect.perform, hsError, htError]
        exact ⟨trivial, .refl _ _ s t⟩
      · simp only [Effect.perform, hsWrite] at hsEvolves
        simp only [Effect.perform, htWrite] at htEvolves
        simp only [performAll, Effect.perform, hsWrite, htWrite] at hkeep ⊢
        have hfoundNext : ∀ other ∈ paths,
            (s.put (s.placeOf path) (.file (.text text))).tread
              ((s.put (s.placeOf path) (.file (.text text))).startOf other) other.segments
                ≠ .error .notFound := by
          intro other hother
          rw [hsEvolves.grows.startOf, hsEvolves.grows.tread_eq hs (hfound other hother)]
          exact hfound other hother
        have hkeepNext : ∀ other ∈ paths, ∀ contents,
            (performAll Effect.perform (s.put (s.placeOf path) (.file (.text text)))
              rest).1.entryAt? ((s.put (s.placeOf path) (.file (.text text))).placeOf other) =
                some (.file contents) →
            (t.put (s.placeOf path) (.file (.text text))).entryAt?
              ((s.put (s.placeOf path) (.file (.text text))).placeOf other) ≠ some .directory := by
          intro other hother contents hfile
          rw [hsEvolves.grows.placeOf] at hfile ⊢
          rw [entryAt?_put _ _ _ hroot]
          split
          next => simp
          next => exact hkeep other hother contents hfile
        rcases ih (fun later hlater => hwrites later (List.mem_cons_of_mem _ hlater))
          (grows_put hgrows hroot (.text text)) (hsEvolves.isTree hs) (htEvolves.isTree ht)
          hfoundNext hkeepNext with ⟨hresult, halike⟩
        exact ⟨hresult, (alike_put hroot (List.mem_map_of_mem hpath) _).trans halike⟩

/-! ## Running -/

/-- What a job does once its source is read: its directories, then its documents. -/
theorem effects_eq_ok {job : Job} {reading : Except IoError String} {effects : List Effect}
    (heffects : job.effects reading = .ok effects) :
    ∃ writes, effects = .createDirectories job.outputDirectory :: writes ∧
      ∀ effect ∈ writes, ∃ path text, effect = .write path text ∧ path ∈ job.outputs := by
  rcases job.faulty_or_gives reading with ⟨error, hfaulty⟩ | ⟨writes, hgives⟩
  · rw [hfaulty.effects_eq] at heffects
    cases heffects
  · rw [hgives.effects_eq] at heffects
    exact ⟨writes, (Except.ok.inj heffects).symm, fun effect hmem => hgives.exists_of_mem hmem⟩

theorem run_eq (job : Job) (store : FileStore) :
    job.run store = match job.effects (store.readText job.source) with
      | .error error => (store, .error error)
      | .ok effects =>
        ((performAll Effect.perform store effects).1,
          ((performAll Effect.perform store effects).2.2.mapError fun error =>
            CompileError.io error job.source).map fun _ => ⟨job.source, job.outputs⟩) := by
  unfold run runWith
  rcases job.faulty_or_gives (store.readText job.source) with ⟨error, hfaulty⟩ | ⟨writes, hgives⟩
  · rw [hfaulty.effects_eq]
  · rw [hgives.effects_eq]
    rcases performAll_cases Effect.perform store (.createDirectories job.outputDirectory :: writes)
      with ⟨final, _, hall⟩ | ⟨done, effect, rest, middle, final, error, _, _, _, hall⟩
    · simp only [hall, List.filterMap_cons, Effect.document?, hgives.filterMap_document?]
    · simp only [hall]
      rfl

theorem unit_of_run {job : Job} {unit : CompiledUnit} (hrun : (job.run store).2 = .ok unit) :
    unit = ⟨job.source, job.outputs⟩ := by
  rw [run_eq] at hrun
  split at hrun
  next => cases hrun
  next effects _ =>
    cases hresult : (performAll Effect.perform store effects).2.2 with
    | error e => rw [hresult] at hrun; cases hrun
    | ok u =>
        rw [hresult] at hrun
        exact (Except.ok.inj hrun).symm

theorem evolves_run (htree : store.IsTree) (job : Job) : store.Evolves (job.run store).1 := by
  rw [run_eq]
  split
  next => exact .refl
  next effects _ => exact evolves_performAll htree effects

/-- Where all directories on the way to an output directory are there, documents in it
are only missing themselves. -/
theorem found_of_opens {job : Job}
    (hdocuments : ∀ path ∈ job.outputs, ∃ name, path = job.outputDirectory.child name)
    (hevolves : s.Evolves t) (hopens : s.Opens job.outputDirectory t) :
    ∀ path ∈ job.outputs, t.tread (t.startOf path) path.segments ≠ .error .notFound := by
  intro path hpath
  rcases hdocuments path hpath with ⟨name, rfl⟩
  refine tread_child_ne_notFound (fun location hmem => hopens.along location ?_) name
  rwa [trailOf, hevolves.grows.startOf] at hmem

/-- A job gives the same result and changes the store alike after anything that it does
not notice. -/
theorem run_stable {job : Job} (hs : s.IsTree) (ht : t.IsTree) (hready : job.Ready s)
    (h : job.Undisturbed s t) :
    (job.run t).2 = (job.run s).2 ∧
      Alike (s.Makes job.outputDirectory) (job.places s) s (job.run s).1 t (job.run t).1 := by
  have hreading := readText_eq_of_entry h.grows hs ht hready.source h.source
  rw [run_eq, run_eq, hreading]
  cases heffects : job.effects (s.readText job.source) with
  | error error => exact ⟨rfl, .refl _ _ s t⟩
  | ok effects =>
      rcases effects_eq_ok heffects with ⟨writes, rfl, hwrites⟩
      rcases createDirectories_stable h.grows hs ht hready.settles h.directories with
        ⟨hmade, halike⟩
      have hsEvolves := hs.evolves_createDirectories job.outputDirectory
      have htEvolves := ht.evolves_createDirectories job.outputDirectory
      simp only [performAll_cons, Effect.perform, hmade]
      cases hsMade : (s.createDirectories job.outputDirectory).2 with
      | error error => exact ⟨rfl, halike.mono (fun _ hmakes => hmakes) (List.nil_subset _)⟩
      | ok u =>
          -- The directories came out alike, so the stores still agree where documents go.
          have hsOpens := hs.opens_createDirectories hsMade
          have htOpens := ht.opens_createDirectories (hmade.trans hsMade)
          have hgrows := hsOpens.grows htOpens h.grows hsEvolves.grows htEvolves.grows
          have hplaces : ∀ path ∈ job.outputs,
              (t.createDirectories job.outputDirectory).1.entryAt? (s.placeOf path) =
                (s.createDirectories job.outputDirectory).1.entryAt? (s.placeOf path) :=
            fun path hpath => halike.entryAt?_eq (h.documents _ (List.mem_map_of_mem hpath))
          have hsLater := (evolves_performAll (hsEvolves.isTree hs) writes).grows
          have hkeep : ∀ path ∈ job.outputs, ∀ contents,
              (performAll Effect.perform (s.createDirectories job.outputDirectory).1
                writes).1.entryAt? ((s.createDirectories job.outputDirectory).1.placeOf path) =
                  some (.file contents) →
              (t.createDirectories job.outputDirectory).1.entryAt?
                ((s.createDirectories job.outputDirectory).1.placeOf path) ≠ some .directory := by
            intro path hpath contents hfile hdirectory
            rw [hsEvolves.grows.placeOf] at hfile hdirectory
            rw [hplaces path hpath] at hdirectory
            simp [hsLater.directory _ hdirectory] at hfile
          rcases writes_alike hwrites hgrows (hsEvolves.isTree hs) (htEvolves.isTree ht)
            (found_of_opens hready.documents hsEvolves hsOpens) hkeep with ⟨hresult, hwritten⟩
          rw [← places, places_of_grows hsEvolves.grows] at hwritten
          refine ⟨by rw [hresult], ?_⟩
          exact (halike.mono (fun _ hmakes => hmakes) (List.nil_subset _)).trans
            (hwritten.mono (fun _ hnever => hnever.elim) (List.Subset.refl _))

end Job

end JackTree
