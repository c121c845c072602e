import JackTree.Proofs.FileTrees

/-!
# Places of paths

Every path has a place, which its components alone decide.  In a tree a lookup that
gets through ends at that place, and a directory is made exactly there.
-/

namespace JackTree

/-! ## The place of a path -/

def Component.leadFrom (location : Location) : Component → Location
  | root => []
  | current => location
  | up => location.dropLast
  | name text => location ++ [text]

/-- The location that a path leads to, whether there is anything on the way or not. -/
def FileStore.placeOf (store : FileStore) (path : Path) : Location :=
  path.components.foldl Component.leadFrom store.workingDirectory

namespace Path

theorem isAbsolute_cons_iff (head : String) (tail : List String) :
    (⟨head :: tail⟩ : Path).isAbsolute = true ↔ head = "" ∧ tail ≠ [] := by
  cases tail with
  | nil => simp [isAbsolute]
  | cons next rest =>
      by_cases hhead : head = ""
      · simp [hhead, isAbsolute]
      · simp [isAbsolute, hhead]

theorem foldl_innerComponent? (location : Location) (segments : List String) :
    (segments.filterMap innerComponent?).foldl Component.leadFrom location =
      segments.foldl FileStore.stepFrom location := by
  induction segments generalizing location with
  | nil => rfl
  | cons segment rest ih =>
      have hstep : (innerComponent? segment).toList.foldl Component.leadFrom location =
          FileStore.stepFrom location segment := by
        unfold FileStore.stepFrom innerComponent?
        split
        · rfl
        · split <;> rfl
      rw [List.foldl_cons, ← hstep, ← ih, List.filterMap_cons]
      cases innerComponent? segment <;> rfl

theorem foldl_headComponent? (location : Location) (head : String) (isWhole : Bool) :
    (headComponent? head isWhole).toList.foldl Component.leadFrom location =
      FileStore.stepFrom (if head = "" ∧ isWhole = false then [] else location) head := by
  unfold headComponent? FileStore.stepFrom
  by_cases hempty : head = ""
  · cases isWhole <;> simp [hempty, Component.leadFrom]
  · by_cases hdot : head = "."
    · simp [hdot, Component.leadFrom]
    · by_cases hup : head = ".."
      · simp [hup, Component.leadFrom]
      · simp [hempty, hdot, hup, Component.leadFrom]

/-- Two paths that lead on from a common beginning by names only. -/
def PartByNames (a b : Path) : Prop :=
  ∃ (common : List Component) (aNames bNames : List String),
    a.components = common ++ aNames.map .name ∧ b.components = common ++ bNames.map .name

theorem foldl_names (location : Location) (names : List String) :
    (names.map Component.name).foldl Component.leadFrom location = location ++ names := by
  induction names generalizing location with
  | nil => simp
  | cons text rest ih => simp [Component.leadFrom, ih]

end Path

namespace FileStore

variable {store s t : FileStore} {path : Path} {location place : Location}

theorem placeOf_eq (store : FileStore) (path : Path) :
    store.placeOf path = path.segments.foldl stepFrom (store.startOf path) := by
  rcases path with ⟨_ | ⟨head, tail⟩⟩
  · rfl
  · rw [placeOf, Path.components, List.foldl_append, Path.foldl_headComponent?,
      Path.foldl_innerComponent?, startOf, List.foldl_cons]
    simp only [Path.isAbsolute_cons_iff, List.isEmpty_eq_false_iff, ne_eq]

theorem placeOf_congr {other : Path} (hsame : path.Same other) :
    store.placeOf path = store.placeOf other := by
  rw [placeOf, placeOf, hsame]

theorem getLast?_placeOf (store : FileStore) {name : String}
    (hlast : path.components.getLast? = some (.name name)) :
    (store.placeOf path).getLast? = some name := by
  obtain ⟨before, hcomponents⟩ := List.getLast?_eq_some_iff.mp hlast
  rw [placeOf, hcomponents, List.foldl_append]
  exact List.getLast?_concat

/-- Paths that part by names lead to one place only if they are the same path. -/
theorem same_of_placeOf_eq {a b : Path} (hpart : a.PartByNames b)
    (hplace : store.placeOf a = store.placeOf b) : a.Same b := by
  rcases hpart with ⟨common, aNames, bNames, ha, hb⟩
  rw [placeOf, placeOf, ha, hb, List.foldl_append, List.foldl_append, Path.foldl_names,
    Path.foldl_names, List.append_cancel_left_eq] at hplace
  rw [Path.Same, ha, hb, hplace]

theorem Grows.placeOf (hgrows : s.Grows t) (path : Path) : t.placeOf path = s.placeOf path := by
  rw [FileStore.placeOf, FileStore.placeOf, hgrows.working]

/-- The locations that a path leads through. -/
def trailOf (store : FileStore) (path : Path) : List Location :=
  trail (store.startOf path) path.segments

theorem placeOf_mem_trailOf (store : FileStore) (path : Path) :
    store.placeOf path ∈ store.trailOf path := by
  rw [placeOf_eq]
  exact end_mem_trail _ _

/-! ## Reaching the place of a path -/

/-- The location that a path leads to when the slashes at its end are left out. -/
def reach (store : FileStore) (path : Path) : Except IoError Location := do
  checkPath path
  (store.tread (store.startOf path) (path.segments.rdropWhile (· = ""))).mapError .os

theorem foldl_trimmed (location : Location) (segments : List String) :
    (segments.rdropWhile (· = "")).foldl stepFrom location = segments.foldl stepFrom location := by
  induction segments using List.reverseRecOn with
  | nil => rfl
  | append_singleton before last ih =>
      rw [List.rdropWhile_concat]
      split
      next hempty =>
        have hlast : last = "" := by simpa using hempty
        rw [ih, List.foldl_append, hlast]
        simp [stepFrom]
      next => rfl

theorem IsTree.locate_eq (htree : store.IsTree) (path : Path) :
    store.locate path = (do
      checkPath path
      (store.tread (store.startOf path) path.segments).mapError .os) := by
  rw [locate, htree.walk_eq_tread _ (by simp [htree.startOf])]

theorem tread_trimmed_ok {segments : List String}
    (hwalk : store.tread location segments = .ok place) :
    store.tread location (segments.rdropWhile (· = "")) = .ok place := by
  induction segments using List.reverseRecOn with
  | nil => exact hwalk
  | append_singleton before last ih =>
      rw [List.rdropWhile_concat]
      split
      next hempty =>
        have hlast : last = "" := by simpa using hempty
        refine ih ?_
        rw [tread_append, hlast] at hwalk
        cases hbefore : store.tread location before with
        | error e => rw [hbefore] at hwalk; cases hwalk
        | ok middle =>
            rw [hbefore] at hwalk
            have hstay := (directory_of_tread hwalk).1
            simpa [stepFrom] using hstay.symm
      next => exact hwalk

theorem tread_of_trimmed {segments : List String}
    (hwalk : store.tread location (segments.rdropWhile (· = "")) = .ok place)
    (hdirectory : store.entryAt? place = some .directory) :
    store.tread location segments = .ok place := by
  induction segments using List.reverseRecOn with
  | nil => exact hwalk
  | append_singleton before last ih =>
      rw [List.rdropWhile_concat] at hwalk
      split at hwalk
      next hempty =>
        have hlast : last = "" := by simpa using hempty
        rw [tread_append, ih hwalk, hlast]
        have hshort : ¬ nameLimit < "".utf8ByteSize := by decide
        change store.tread place [""] = .ok place
        rw [tread_directory hdirectory, if_neg hshort]
        rfl
      next => exact hwalk

theorem trail_concat (location : Location) (before : List String) (last : String) :
    trail location (before ++ [last]) =
      trail location before ++ [stepFrom (before.foldl stepFrom location) last] := by
  induction before generalizing location with
  | nil => rfl
  | cons segment rest ih => simp [trail, ih]

theorem trail_subset_trimmed (location : Location) (segments : List String) :
    trail location segments ⊆ trail location (segments.rdropWhile (· = "")) := by
  induction segments using List.reverseRecOn with
  | nil => exact List.Subset.refl _
  | append_singleton before last ih =>
      rw [List.rdropWhile_concat]
      split
      next hempty =>
        have hlast : last = "" := by simpa using hempty
        rw [trail_concat, hlast]
        refine List.append_subset.mpr ⟨ih, ?_⟩
        simpa [stepFrom] using ih (end_mem_trail location before)
      next => exact List.Subset.refl _

theorem checked_walk_eq_ok_iff (walk : Except OsError Location) :
    (do checkPath path; walk.mapError .os) = .ok place ↔
      checkPath path = .ok () ∧ walk = .ok place := by
  cases hcheck : checkPath path with
  | error e => simp [bind, Except.bind]
  | ok u => cases walk <;> simp [bind, Except.bind]

theorem reach_eq_ok_iff : store.reach path = .ok place ↔ checkPath path = .ok () ∧
    store.tread (store.startOf path) (path.segments.rdropWhile (· = "")) = .ok place :=
  checked_walk_eq_ok_iff _

theorem IsTree.locate_eq_ok_iff (htree : store.IsTree) : store.locate path = .ok place ↔
    checkPath path = .ok () ∧ store.tread (store.startOf path) path.segments = .ok place := by
  rw [htree.locate_eq]
  exact checked_walk_eq_ok_iff _

theorem directory_of_reach (hreach : store.reach path = .ok place) :
    place = store.placeOf path ∧
      ∀ between ∈ store.trailOf path,
        between = place ∨ store.entryAt? between = some .directory := by
  rcases directory_of_tread (reach_eq_ok_iff.mp hreach).2 with ⟨hplace, hbetween⟩
  rw [foldl_trimmed, ← placeOf_eq] at hplace
  exact ⟨hplace, fun between hmem => hbetween between (trail_subset_trimmed _ _ hmem)⟩

theorem IsTree.directory_of_reach (htree : store.IsTree) (hreach : store.reach path = .ok place) :
    store.entryAt? place.dropLast = some .directory :=
  htree.directory_of_tread (htree.inDirectory _ (by simp [htree.startOf]))
    (reach_eq_ok_iff.mp hreach).2

/-- Reaching a place ends the same in every grown store, unless something was missing. -/
theorem Grows.reach_eq (hgrows : s.Grows t) (htree : s.IsTree)
    (hfound : s.reach path ≠ .error (.os .notFound)) : t.reach path = s.reach path := by
  unfold reach at hfound ⊢
  rw [hgrows.startOf]
  cases hcheck : checkPath path with
  | error e => rfl
  | ok u =>
      rw [hgrows.tread_eq htree]
      intro hmissing
      exact hfound (by rw [hcheck, hmissing]; rfl)

theorem status_eq_ok_iff {entry : Entry} : store.status path = .ok entry ↔
    ∃ place, store.locate path = .ok place ∧ store.entryAt? place = some entry := by
  unfold status
  cases store.locate path with
  | error e => simp [bind, Except.bind]
  | ok place => cases hentry : store.entryAt? place <;> simp [bind, Except.bind, hentry]

theorem isDirectory_iff_status :
    store.isDirectory path = true ↔ store.status path = .ok .directory := by
  unfold isDirectory leadsToDirectory
  cases store.status path with
  | error e => simp [bind, Except.bind]
  | ok entry => cases entry <;> simp [bind, Except.bind]

theorem IsTree.isDirectory_iff (htree : store.IsTree) : store.isDirectory path = true ↔
    ∃ place, store.reach path = .ok place ∧ store.entryAt? place = some .directory := by
  rw [isDirectory_iff_status, status_eq_ok_iff]
  refine exists_congr fun place => and_congr_left fun hentry => ?_
  rw [htree.locate_eq_ok_iff, reach_eq_ok_iff]
  exact and_congr_right fun _ => ⟨tread_trimmed_ok, fun hwalk => tread_of_trimmed hwalk hentry⟩

theorem getLast?_trimmed_ne_empty {segments : List String} {name : String}
    (hlast : (segments.rdropWhile (· = "")).getLast? = some name) : name ≠ "" := by
  rintro rfl
  have hne : segments.rdropWhile (· = "") ≠ [] := by
    intro hnil
    simp [hnil] at hlast
  have hnot := List.rdropWhile_last_not (· = "") segments hne
  rw [List.getLast?_eq_getLast_of_ne_nil hne] at hlast
  simp [Option.some.inj hlast] at hnot

theorem IsTree.create_in_directory (htree : store.IsTree) {name : String} (hname : name ≠ "")
    (hdirectory : store.entryAt? location = some .directory) :
    ((if name = "." ∨ name = ".." then .error (.os .alreadyExists)
      else if nameLimit < name.utf8ByteSize then .error (.os .nameTooLong)
      else .ok (location ++ [name]) : Except IoError Location) >>= fun place =>
        match store.entryAt? place with
        | some _ => .error (.os .alreadyExists)
        | none => .ok (store.put place .directory)) =
      ((store.tread location [name]).mapError IoError.os >>= fun place =>
        match store.entryAt? place with
        | some _ => .error (.os .alreadyExists)
        | none => .ok (store.put place .directory)) := by
  rw [tread_directory hdirectory, tread]
  rcases htree.stepFrom_cases hdirectory name with
    ⟨hstay, hstep⟩ | ⟨hup, hstep, hparent⟩ | ⟨hstay, hup, hstep⟩
  -- A path that ends in dots leads to a directory, so it is refused on both sides.
  · have hdot := hstay.resolve_left hname
    rw [if_pos (.inl hdot), if_neg (nameLimit_of_dots (.inl hstay)), hstep]
    simp [bind, Except.bind, hdirectory]
  · rw [if_pos (.inr hup), if_neg (nameLimit_of_dots (.inr hup)), hstep]
    simp [bind, Except.bind, hparent]
  · have hno : ¬ (name = "." ∨ name = "..") := fun h => h.elim (fun hd => hstay (.inr hd)) hup
    rw [if_neg hno, hstep]
    split <;> rfl

/-- Making a directory puts it where its path leads, if nothing is there. -/
theorem IsTree.createDirectory_eq (htree : store.IsTree) (path : Path) :
    store.createDirectory path = (store.reach path >>= fun place =>
      match store.entryAt? place with
      | some _ => .error (.os .alreadyExists)
      | none => .ok (store.put place .directory)) := by
  have htrimmed : (path.segments.reverse.dropWhile (· = "")).reverse =
      path.segments.rdropWhile (· = "") := rfl
  unfold createDirectory create locateName reach
  simp only [htrimmed, htree.walk_eq_tread _ (by simp [htree.startOf] :
    store.entryAt? (store.startOf path) ≠ none)]
  cases checkPath path with
  | error e => rfl
  | ok u =>
      cases hlast : (path.segments.rdropWhile (· = "")).getLast? with
      | none =>
          rw [List.getLast?_eq_none_iff.mp hlast]
          simp [bind, Except.bind, tread, htree.startOf]
      | some name =>
          have hsegments := List.dropLast_append_getLast? name hlast
          rw [← hsegments, List.dropLast_concat, tread_append]
          cases store.tread (store.startOf path) (path.segments.rdropWhile (· = "")).dropLast with
          | error e => rfl
          | ok directory =>
              cases hentry : store.entryAt? directory with
              | none => simp [bind, Except.bind, tread, hentry]
              | some entry =>
                  cases entry with
                  | directory =>
                      simp only [bind, Except.bind, mapError_ok, hentry]
                      exact htree.create_in_directory (getLast?_trimmed_ne_empty hlast) hentry
                  | file contents => simp [bind, Except.bind, tread, hentry]
                  | link target => simp [bind, Except.bind, tread, hentry]

theorem IsTree.createDirectory_ne_notFound_iff (htree : store.IsTree) :
    store.createDirectory path ≠ .error (.os .notFound) ↔
      store.reach path ≠ .error (.os .notFound) := by
  rw [htree.createDirectory_eq, not_iff_not]
  cases store.reach path with
  | error e => simp [bind, Except.bind]
  | ok place => cases hentry : store.entryAt? place <;> simp [bind, Except.bind, hentry]

end FileStore

end JackTree
