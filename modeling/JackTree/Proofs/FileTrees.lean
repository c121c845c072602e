import JackTree.FileStore.Change
import Mathlib.Data.List.DropRight

/-!
# File trees

A file store without links, in which every entry stands in a directory, is a tree.
Walking along a path in a tree is a plain recursion along its stretches, and what
it finds stays found while more directories are made and more files are written.
-/

namespace JackTree

def Entry.isLink : Entry → Bool
  | .link _ => true
  | _ => false

namespace FileStore

variable {store s t u : FileStore} {location place : Location} {segments : List String}

/-! ## Trees -/

/-- A tree of directories and files, with the working directory in it. -/
structure IsTree (store : FileStore) : Prop where
  noLink : ∀ location entry, store.entryAt? location = some entry → entry.isLink = false
  inDirectory : ∀ location, store.entryAt? location ≠ none →
    store.entryAt? location.dropLast = some .directory
  working : store.entryAt? store.workingDirectory = some .directory

theorem entryAt?_root (store : FileStore) : store.entryAt? [] = some .directory :=
  rfl

theorem mem_of_lookup {entries : List (Location × Entry)} {entry : Entry}
    (hlookup : entries.lookup location = some entry) : (location, entry) ∈ entries := by
  rcases List.lookup_eq_some_iff.mp hlookup with ⟨before, after, rfl, _⟩
  simp

theorem isTree_of_entries
    (hentries : ∀ e ∈ store.entries,
      e.2.isLink = false ∧ store.entryAt? e.1.dropLast = some .directory)
    (hworking : store.entryAt? store.workingDirectory = some .directory) : store.IsTree where
  noLink location entry hentry := by
    unfold entryAt? at hentry
    split at hentry
    next => exact Option.some.inj hentry ▸ rfl
    next => exact (hentries _ (mem_of_lookup hentry)).1
  inDirectory location hthere := by
    unfold entryAt? at hthere
    split at hthere
    next hroot => exact List.isEmpty_iff.mp hroot ▸ entryAt?_root store
    next =>
      rcases Option.ne_none_iff_exists'.mp hthere with ⟨entry, hentry⟩
      exact (hentries _ (mem_of_lookup hentry)).2
  working := hworking

theorem IsTree.startOf (htree : store.IsTree) (path : Path) :
    store.entryAt? (store.startOf path) = some .directory := by
  unfold FileStore.startOf
  split
  · exact entryAt?_root store
  · exact htree.working

theorem IsTree.file_or_directory (htree : store.IsTree) {entry : Entry}
    (hentry : store.entryAt? location = some entry) :
    entry = .directory ∨ ∃ contents, entry = .file contents := by
  cases entry with
  | directory => exact .inl rfl
  | file contents => exact .inr ⟨contents, rfl⟩
  | link target => cases htree.noLink _ _ hentry

/-! ## Steps -/

/-- Where a stretch of a path leads from a location. -/
def stepFrom (location : Location) (segment : String) : Location :=
  if segment = "" ∨ segment = "." then location
  else if segment = ".." then location.dropLast
  else location ++ [segment]

/-- Walks along some stretches of a path in a tree. -/
def tread (store : FileStore) : Location → List String → Except OsError Location
  | location, [] => .ok location
  | location, segment :: rest =>
    match store.entryAt? location with
    | none => .error .notFound
    | some .directory =>
      if nameLimit < segment.utf8ByteSize then .error .nameTooLong
      else store.tread (stepFrom location segment) rest
    | some _ => .error .notADirectory

theorem tread_directory (hdirectory : store.entryAt? location = some .directory)
    (segment : String) (rest : List String) :
    store.tread location (segment :: rest) =
      if nameLimit < segment.utf8ByteSize then .error .nameTooLong
      else store.tread (stepFrom location segment) rest := by
  rw [tread, hdirectory]

theorem IsTree.stepFrom_cases (htree : store.IsTree)
    (hdirectory : store.entryAt? location = some .directory) (segment : String) :
    ((segment = "" ∨ segment = ".") ∧ stepFrom location segment = location)
    ∨ (segment = ".." ∧ stepFrom location segment = location.dropLast
        ∧ store.entryAt? location.dropLast = some .directory)
    ∨ (¬ (segment = "" ∨ segment = ".") ∧ segment ≠ ".."
        ∧ stepFrom location segment = location ++ [segment]) := by
  by_cases hstay : segment = "" ∨ segment = "."
  · exact .inl ⟨hstay, by rw [stepFrom, if_pos hstay]⟩
  · by_cases hup : segment = ".."
    · have hparent := htree.inDirectory location (by simp [hdirectory])
      exact .inr (.inl ⟨hup, by rw [stepFrom, if_neg hstay, if_pos hup], hparent⟩)
    · exact .inr (.inr ⟨hstay, hup, by rw [stepFrom, if_neg hstay, if_neg hup]⟩)

theorem nameLimit_of_dots {segment : String}
    (hdots : (segment = "" ∨ segment = ".") ∨ segment = "..") :
    ¬ nameLimit < segment.utf8ByteSize := by
  rcases hdots with (rfl | rfl) | rfl <;> decide

theorem IsTree.walkWith_eq_tread (htree : store.IsTree)
    (follow : Location → List String → Except OsError Location)
    (hthere : store.entryAt? location ≠ none) :
    store.walkWith follow location segments = store.tread location segments := by
  induction segments generalizing location with
  | nil => rfl
  | cons segment rest ih =>
      rw [walkWith]
      by_cases hdirectory : store.entryAt? location = some .directory
      · rw [if_neg (not_not.mpr hdirectory), tread_directory hdirectory]
        rcases htree.stepFrom_cases hdirectory segment with
          ⟨hstay, hstep⟩ | ⟨hup, hstep, hparent⟩ | ⟨hstay, hup, hstep⟩
        · rw [if_pos hstay, if_neg (nameLimit_of_dots (.inl hstay)), hstep, ih hthere]
        · have hno : ¬ (segment = "" ∨ segment = ".") := by rw [hup]; decide
          rw [if_neg hno, if_pos hup, if_neg (nameLimit_of_dots (.inr hup)), hstep,
            ih (by simp [hparent])]
        · rw [if_neg hstay, if_neg hup, hstep]
          split
          next => rfl
          next =>
            split
            next hmissing =>
              -- Only the last name may be missing; `tread` notices at the next step.
              cases rest with
              | nil => rfl
              | cons => rw [tread, hmissing]; rfl
            next target hlink => cases htree.noLink _ _ hlink
            next hsome => exact ih (by simp [hsome])
      · rw [if_pos hdirectory, tread]
        split
        next hnone => exact absurd hnone hthere
        next hdir => exact absurd hdir hdirectory
        next => rfl

theorem IsTree.walk_eq_tread (htree : store.IsTree) (links : Nat)
    (hthere : store.entryAt? location ≠ none) :
    store.walk links location segments = store.tread location segments := by
  cases links with
  | zero => exact htree.walkWith_eq_tread _ hthere
  | succ links => exact htree.walkWith_eq_tread _ hthere

theorem tread_append (store : FileStore) (location : Location) (first second : List String) :
    store.tread location (first ++ second) =
      (store.tread location first).bind fun place => store.tread place second := by
  induction first generalizing location with
  | nil => rfl
  | cons segment rest ih =>
      rw [List.cons_append, tread, tread]
      split
      next => rfl
      next =>
        split
        next => rfl
        next => exact ih _
      next => rfl

/-! ## The places on the way -/

/-- The locations that some stretches lead through, with both ends. -/
def trail : Location → List String → List Location
  | location, [] => [location]
  | location, segment :: rest => location :: trail (stepFrom location segment) rest

theorem start_mem_trail (location : Location) (segments : List String) :
    location ∈ trail location segments := by
  cases segments <;> simp [trail]

theorem end_mem_trail (location : Location) (segments : List String) :
    segments.foldl stepFrom location ∈ trail location segments := by
  induction segments generalizing location with
  | nil => simp [trail]
  | cons segment rest ih => exact List.mem_cons_of_mem _ (ih _)

theorem trail_subset_append (location : Location) (first second : List String) :
    trail location first ⊆ trail location (first ++ second) := by
  induction first generalizing location with
  | nil => simp [trail, start_mem_trail]
  | cons segment rest ih => exact List.cons_subset_cons _ (ih _)

/-- A walk that gets through has met directories, its end apart. -/
theorem directory_of_tread (hwalk : store.tread location segments = .ok place) :
    place = segments.foldl stepFrom location ∧
      ∀ between ∈ trail location segments,
        between = place ∨ store.entryAt? between = some .directory := by
  induction segments generalizing location with
  | nil =>
      rw [← Except.ok.inj hwalk]
      simp [trail]
  | cons segment rest ih =>
      rw [tread] at hwalk
      split at hwalk
      next => cases hwalk
      next hdirectory =>
        split at hwalk
        next => cases hwalk
        next =>
          rcases ih hwalk with ⟨hplace, hbetween⟩
          refine ⟨hplace, fun between hmem => ?_⟩
          rcases List.mem_cons.mp hmem with rfl | hlater
          · exact .inr hdirectory
          · exact hbetween between hlater
      next => cases hwalk

theorem tread_of_directories (hlook : u.tread location segments = .ok place)
    (hopen : ∀ between ∈ trail location segments, store.entryAt? between = none
      ∨ store.entryAt? between = some .directory) :
    store.tread location segments = .ok place
      ∨ store.tread location segments = .error .notFound := by
  induction segments generalizing location with
  | nil => exact .inl hlook
  | cons segment rest ih =>
      rw [tread] at hlook
      split at hlook
      next => cases hlook
      next =>
        split at hlook
        next => cases hlook
        next hshort =>
          rcases hopen location (start_mem_trail _ _) with hmissing | hdirectory
          · exact .inr (by rw [tread, hmissing])
          · rw [tread_directory hdirectory, if_neg hshort]
            exact ih hlook fun between hmem => hopen between (List.mem_cons_of_mem _ hmem)
      next => cases hlook

/-- Behind directories only a name that is too long stops a walk. -/
theorem tread_ne_notFound
    (hopen : ∀ between ∈ trail location segments, store.entryAt? between = some .directory)
    (name : String) : store.tread location (segments ++ [name]) ≠ .error .notFound := by
  induction segments generalizing location with
  | nil =>
      rw [List.nil_append, tread_directory (hopen location (start_mem_trail _ _)), tread]
      split <;> simp
  | cons segment rest ih =>
      rw [List.cons_append, tread_directory (hopen location (start_mem_trail _ _))]
      split
      · simp
      · exact ih fun between hmem => hopen between (List.mem_cons_of_mem _ hmem)

theorem IsTree.directory_of_tread (htree : store.IsTree)
    (hparent : store.entryAt? location.dropLast = some .directory)
    (hwalk : store.tread location segments = .ok place) :
    store.entryAt? place.dropLast = some .directory := by
  -- The invariant is about the directory above, since the last name itself may be missing.
  induction segments generalizing location with
  | nil => rwa [← Except.ok.inj hwalk]
  | cons segment rest ih =>
      rw [tread] at hwalk
      split at hwalk
      next => cases hwalk
      next hdirectory =>
        split at hwalk
        next => cases hwalk
        next =>
          refine ih ?_ hwalk
          rcases htree.stepFrom_cases hdirectory segment with
            ⟨_, hstep⟩ | ⟨_, hstep, hup⟩ | ⟨_, _, hstep⟩
          · rwa [hstep]
          · rw [hstep]
            exact htree.inDirectory _ (by simp [hup])
          · simpa [hstep] using hdirectory
      next => cases hwalk

/-! ## Growth -/

/-- Nothing of a store is lost: directories stay directories and files stay files. -/
structure Grows (s t : FileStore) : Prop where
  working : t.workingDirectory = s.workingDirectory
  directory : ∀ location, s.entryAt? location = some .directory →
    t.entryAt? location = some .directory
  file : ∀ location contents, s.entryAt? location = some (.file contents) →
    ∃ other, t.entryAt? location = some (.file other)

theorem Grows.refl (store : FileStore) : store.Grows store :=
  ⟨rfl, fun _ h => h, fun _ contents h => ⟨contents, h⟩⟩

theorem Grows.trans (hfirst : s.Grows t) (hsecond : t.Grows u) : s.Grows u where
  working := hsecond.working.trans hfirst.working
  directory location h := hsecond.directory location (hfirst.directory location h)
  file location contents h := by
    rcases hfirst.file location contents h with ⟨other, hother⟩
    exact hsecond.file location other hother

theorem Grows.startOf (hgrows : s.Grows t) (path : Path) : t.startOf path = s.startOf path := by
  rw [FileStore.startOf, FileStore.startOf, hgrows.working]

theorem Grows.missing (hgrows : s.Grows t) (htree : s.IsTree)
    (hmissing : t.entryAt? location = none) : s.entryAt? location = none := by
  cases hentry : s.entryAt? location with
  | none => rfl
  | some entry =>
      rcases htree.file_or_directory hentry with rfl | ⟨contents, rfl⟩
      · simp [hgrows.directory location hentry] at hmissing
      · rcases hgrows.file location contents hentry with ⟨other, hother⟩
        simp [hother] at hmissing

/-- A walk that misses nothing ends the same in every store grown from this one. -/
theorem Grows.tread_eq (hgrows : s.Grows t) (htree : s.IsTree)
    (hfound : s.tread location segments ≠ .error .notFound) :
    t.tread location segments = s.tread location segments := by
  induction segments generalizing location with
  | nil => rfl
  | cons segment rest ih =>
      rw [tread] at hfound
      cases hentry : s.entryAt? location with
      | none => simp [hentry] at hfound
      | some entry =>
          rcases htree.file_or_directory hentry with rfl | ⟨contents, rfl⟩
          · rw [tread_directory hentry, tread_directory (hgrows.directory location hentry)]
            split
            next => rfl
            next hshort => exact ih (by simpa [hentry, hshort] using hfound)
          · rcases hgrows.file location contents hentry with ⟨other, hother⟩
            rw [tread, tread, hentry, hother]

/-! ## One change after another -/

/-- A store that directories and files were added to, each in a directory.  A file may
replace another one. -/
inductive Evolves (s : FileStore) : FileStore → Prop
  | refl : Evolves s s
  | makeDirectory {t : FileStore} {location : Location} (before : Evolves s t)
      (hparent : t.entryAt? location.dropLast = some .directory)
      (hplace : t.entryAt? location = none) : Evolves s (t.put location .directory)
  | writeFile {t : FileStore} {location : Location} {contents : FileContents}
      (before : Evolves s t) (hparent : t.entryAt? location.dropLast = some .directory)
      (hplace : t.entryAt? location ≠ some .directory) :
      Evolves s (t.put location (.file contents))

theorem ne_root (hplace : store.entryAt? location ≠ some .directory) : location ≠ [] := by
  intro hroot
  exact hplace (hroot ▸ entryAt?_root store)

theorem Evolves.trans (hfirst : s.Evolves t) (hsecond : t.Evolves u) : s.Evolves u := by
  induction hsecond with
  | refl => exact hfirst
  | makeDirectory _ hparent hplace ih => exact ih.makeDirectory hparent hplace
  | writeFile _ hparent hplace ih => exact ih.writeFile hparent hplace

/-- An entry put where no directory stands, into a directory, keeps a tree a tree. -/
theorem IsTree.put (htree : store.IsTree) {entry : Entry} (hlink : entry.isLink = false)
    (hparent : store.entryAt? location.dropLast = some .directory)
    (hplace : store.entryAt? location ≠ some .directory) : (store.put location entry).IsTree := by
  have hkept : ∀ {other}, store.entryAt? other = some .directory →
      (store.put location entry).entryAt? other = some .directory := by
    intro other hother
    rw [entryAt?_put _ _ _ (ne_root hplace), if_neg, hother]
    rintro rfl
    exact hplace hother
  refine ⟨fun other found hfound => ?_, fun other hthere => ?_, hkept htree.working⟩
  · rw [entryAt?_put _ _ _ (ne_root hplace)] at hfound
    split at hfound
    next => rwa [← Option.some.inj hfound]
    next => exact htree.noLink other found hfound
  · refine hkept ?_
    rw [entryAt?_put _ _ _ (ne_root hplace)] at hthere
    split at hthere
    next hsame => rwa [hsame]
    next => exact htree.inDirectory other hthere

theorem Evolves.isTree (hevolves : s.Evolves t) (htree : s.IsTree) : t.IsTree := by
  induction hevolves with
  | refl => exact htree
  | makeDirectory _ hparent hplace ih => exact ih.put rfl hparent (by simp [hplace])
  | writeFile _ hparent hplace ih => exact ih.put rfl hparent hplace

theorem Evolves.grows (hevolves : s.Evolves t) : s.Grows t := by
  induction hevolves with
  | refl => exact .refl s
  | @makeDirectory t location _ _ hplace ih =>
      have hroot : location ≠ [] := ne_root (by simp [hplace] : t.entryAt? location ≠ _)
      refine ih.trans ⟨rfl, fun other hother => ?_, fun other contents hother => ⟨contents, ?_⟩⟩
      all_goals
        rw [entryAt?_put _ _ _ hroot, if_neg, hother]
        rintro rfl
        simp [hplace] at hother
  | @writeFile t location contents _ _ hplace ih =>
      refine ih.trans ⟨rfl, fun other hother => ?_, fun other kept hother => ?_⟩
      · rw [entryAt?_put _ _ _ (ne_root hplace), if_neg, hother]
        rintro rfl
        exact hplace hother
      · rw [entryAt?_put _ _ _ (ne_root hplace)]
        split
        · exact ⟨contents, rfl⟩
        · exact ⟨kept, hother⟩

end FileStore

end JackTree
