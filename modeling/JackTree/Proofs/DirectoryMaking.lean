import JackTree.Proofs.PathPlaces

/-!
# Making directories

What making a directory with all that are missing on the way does to a tree.  When
it succeeds, every place on the way is a directory and nothing else has changed.
`createDirectories_stable` says when it ends in the same way after other changes.
-/

namespace JackTree

namespace FileStore

variable {store s s' t t' : FileStore} {path : Path} {location place : Location}

/-! ## One attempt -/

/-- One attempt to make a directory, as what stands at its place decides it. -/
def attempt (store : FileStore) (path : Path) : FileStore × Except IoError Unit :=
  match store.reach path with
  | .error error => (store, .error error)
  | .ok place =>
    match store.entryAt? place with
    | none => (store.put place .directory, .ok ())
    | some .directory => (store, .ok ())
    | some _ => (store, .error (.os .alreadyExists))

theorem IsTree.orIsDirectory_eq (htree : store.IsTree) (path : Path) :
    store.orIsDirectory path (store.createDirectory path) = store.attempt path := by
  unfold orIsDirectory attempt
  rw [htree.createDirectory_eq]
  cases hreach : store.reach path with
  | error e =>
      have hno : ¬ store.isDirectory path = true := by simp [htree.isDirectory_iff, hreach]
      simp [bind, Except.bind, hno]
  | ok place =>
      cases hentry : store.entryAt? place with
      | none => simp [bind, Except.bind, hentry]
      | some entry =>
          have hiff : store.isDirectory path = true ↔ entry = .directory := by
            simp [htree.isDirectory_iff, hreach, hentry]
          cases entry <;> simp [bind, Except.bind, hentry, hiff]

theorem attempt_eq_ok (hmade : (store.attempt path).2 = .ok ()) :
    ∃ place, store.reach path = .ok place ∧
      (store.entryAt? place = none ∧ (store.attempt path).1 = store.put place .directory
      ∨ store.entryAt? place = some .directory ∧ (store.attempt path).1 = store) := by
  unfold attempt at hmade ⊢
  cases hreach : store.reach path with
  | error e => simp [hreach] at hmade
  | ok place =>
      refine ⟨place, rfl, ?_⟩
      cases hentry : store.entryAt? place with
      | none => simp [hentry]
      | some entry => cases entry <;> simp [hreach, hentry] at hmade ⊢

theorem IsTree.evolves_attempt (htree : store.IsTree) (path : Path) :
    store.Evolves (store.attempt path).1 := by
  unfold attempt
  split
  next => exact .refl
  next place hreach =>
    split
    next hmissing => exact .makeDirectory .refl (htree.directory_of_reach hreach) hmissing
    next => exact .refl
    next => exact .refl

theorem attempt_ok_of_grows (hgrows : s.Grows t) (htree : s.IsTree)
    (hmade : (s.attempt path).2 = .ok ())
    (hplace : t.entryAt? (s.placeOf path) = none
      ∨ t.entryAt? (s.placeOf path) = some .directory) :
    (t.attempt path).2 = .ok () := by
  rcases attempt_eq_ok hmade with ⟨place, hreach, _⟩
  have hsame : t.reach path = .ok place := by rw [hgrows.reach_eq htree (by simp [hreach]), hreach]
  rw [← (directory_of_reach hreach).1] at hplace
  rcases hplace with hmissing | hdirectory
  · simp [attempt, hsame, hmissing]
  · simp [attempt, hsame, hdirectory]

/-! ## All that are missing -/

/-- A store in which all places that a path leads through are directories, and which
differs from another one only where nothing was on the way. -/
structure Opens (store : FileStore) (path : Path) (made : FileStore) : Prop where
  along : ∀ location ∈ store.trailOf path, made.entryAt? location = some .directory
  only : ∀ location, made.entryAt? location ≠ store.entryAt? location →
    location ∈ store.trailOf path ∧ store.entryAt? location = none

theorem opens_attempt (hmade : (store.attempt path).2 = .ok ()) :
    store.Opens path (store.attempt path).1 := by
  rcases attempt_eq_ok hmade with ⟨place, hreach, ⟨hmissing, hput⟩ | ⟨hdirectory, hsame⟩⟩
  · rcases directory_of_reach hreach with ⟨hplace, hbetween⟩
    have hroot : place ≠ [] := ne_root (by simp [hmissing] : store.entryAt? place ≠ _)
    rw [hput]
    refine ⟨fun location hmem => ?_, fun location hchanged => ?_⟩
    · rw [entryAt?_put _ _ _ hroot]
      split
      next => rfl
      next hother => exact (hbetween location hmem).resolve_left hother
    · rw [entryAt?_put _ _ _ hroot] at hchanged
      split at hchanged
      next hlocation =>
        rw [hlocation]
        exact ⟨hplace ▸ placeOf_mem_trailOf store path, hmissing⟩
      next => exact absurd rfl hchanged
  · rw [hsame]
    refine ⟨fun location hmem => ?_, fun location hchanged => absurd rfl hchanged⟩
    rcases (directory_of_reach hreach).2 location hmem with rfl | hbetween
    · exact hdirectory
    · exact hbetween

theorem segments_of_isEmpty (hempty : path.toString.isEmpty = true) :
    path.segments = [] ∨ path.segments = [""] := by
  rcases path with ⟨_ | ⟨head, _ | ⟨next, rest⟩⟩⟩
  · exact .inl rfl
  · refine .inr ?_
    simpa [Path.toString] using hempty
  · have hlist : (Path.toString ⟨head :: next :: rest⟩).toList = [] := by simpa using hempty
    simp [Path.toString] at hlist

theorem trailOf_of_isEmpty (hempty : path.toString.isEmpty = true)
    (hmem : location ∈ store.trailOf path) : location = store.startOf path := by
  rcases segments_of_isEmpty hempty with hsegments | hsegments
  all_goals
    rw [trailOf, hsegments] at hmem
    simpa [trail, stepFrom] using hmem

theorem trimTail_isPrefix (segments : List String) : Path.trimTail segments <+: segments :=
  List.rdropWhile_prefix _ _

theorem parent?_cases {head : String} {tail : List String} {parent : Path}
    (hparent : (⟨head :: tail⟩ : Path).parent? = some parent) :
    (head ≠ "" ∧ parent = ⟨[""]⟩)
    ∨ (head = "" ∧ tail ≠ [] ∧ parent = ⟨["", ""]⟩)
    ∨ (head ≠ "" ∧ parent = ⟨[head]⟩)
    ∨ ∃ kept, kept ≠ [] ∧ kept <+: tail ∧ parent = ⟨head :: kept⟩ := by
  have htrimmed := trimTail_isPrefix tail
  unfold Path.parent? at hparent
  simp only at hparent
  split at hparent
  next =>
    split at hparent
    next => cases hparent
    next => cases hparent
    next c hnot hhead =>
      refine .inl ⟨?_, (Option.some.inj hparent).symm⟩
      rintro rfl
      cases htail : tail.isEmpty <;> simp [Path.headComponent?, htail] at hhead
      exact hnot hhead.symm
  next last more htrim =>
    rw [htrim] at htrimmed
    split at hparent
    next =>
      rw [← Option.some.inj hparent]
      by_cases hhead : head = ""
      · refine .inr (.inl ⟨hhead, ?_, by rw [if_pos hhead]⟩)
        rintro rfl
        simp at htrimmed
      · exact .inr (.inr (.inl ⟨hhead, by rw [if_neg hhead]⟩))
    next kept hkept =>
      refine .inr (.inr (.inr ⟨_, hkept, ?_, (Option.some.inj hparent).symm⟩))
      exact ((trimTail_isPrefix _).trans (List.dropLast_prefix _)).trans htrimmed

theorem trailOf_parent {parent : Path} (hparent : path.parent? = some parent) :
    store.trailOf parent ⊆ store.trailOf path := by
  rcases path with ⟨_ | ⟨head, tail⟩⟩
  · simp [Path.parent?] at hparent
  · have hstart : head ≠ "" → store.startOf ⟨head :: tail⟩ = store.workingDirectory := by
      intro hhead
      simp [startOf, Path.isAbsolute_cons_iff, hhead]
    have hmem : store.startOf ⟨head :: tail⟩ ∈ store.trailOf ⟨head :: tail⟩ :=
      start_mem_trail _ _
    rcases parent?_cases hparent with
      ⟨hhead, rfl⟩ | ⟨hhead, htail, rfl⟩ | ⟨hhead, rfl⟩ | ⟨kept, hkept, ⟨more, hmore⟩, rfl⟩
    · have htrail : store.trailOf ⟨[""]⟩ = [store.workingDirectory, store.workingDirectory] := by
        simp [trailOf, startOf, Path.isAbsolute, trail, stepFrom]
      rw [hstart hhead] at hmem
      simp [htrail, hmem]
    · have habsolute : store.startOf ⟨head :: tail⟩ = [] := by
        simp [startOf, Path.isAbsolute_cons_iff, hhead, htail]
      have htrail : store.trailOf ⟨["", ""]⟩ = [[], [], []] := by
        simp [trailOf, startOf, Path.isAbsolute, trail, stepFrom]
      rw [habsolute] at hmem
      simp [htrail, hmem]
    · have hsame : store.startOf ⟨[head]⟩ = store.startOf ⟨head :: tail⟩ := by
        rw [hstart hhead]
        simp [startOf, Path.isAbsolute_cons_iff]
      rw [trailOf, hsame]
      exact trail_subset_append _ [head] tail
    · have hsame : store.startOf ⟨head :: kept⟩ = store.startOf ⟨head :: tail⟩ := by
        have htail : tail ≠ [] := by
          rintro rfl
          simp [hkept] at hmore
        simp [startOf, Path.isAbsolute_cons_iff, hkept, htail]
      rw [trailOf, hsame, trailOf, ← hmore]
      exact trail_subset_append _ (head :: kept) more

theorem ancestorsWithin_cases (depth : Nat) (path : Path) :
    Path.ancestorsWithin depth path = [path]
    ∨ ∃ less parent, depth = less + 1 ∧ path.parent? = some parent ∧
        Path.ancestorsWithin depth path = path :: Path.ancestorsWithin less parent := by
  cases depth with
  | zero => exact .inl rfl
  | succ less =>
      rw [Path.ancestorsWithin]
      cases hparent : path.parent? with
      | none => exact .inl rfl
      | some parent => exact .inr ⟨less, parent, rfl, rfl, rfl⟩

theorem IsTree.createAlong_found (htree : store.IsTree) {outer : List Path}
    (hpath : path.toString.isEmpty = false)
    (hfound : store.reach path ≠ .error (.os .notFound)) :
    store.createAlong (path :: outer) = store.attempt path := by
  rw [createAlong, hpath, ← htree.orIsDirectory_eq]
  simp only [Bool.false_eq_true, if_false]
  split
  next hmissing => exact absurd hmissing (htree.createDirectory_ne_notFound_iff.mpr hfound)
  next => rfl

theorem IsTree.createAlong_missing (htree : store.IsTree) {outer : List Path}
    (hpath : path.toString.isEmpty = false)
    (hmissing : store.reach path = .error (.os .notFound)) :
    store.createAlong (path :: outer) =
      match store.createAlong outer with
      | (changed, .ok ()) => changed.orIsDirectory path (changed.createDirectory path)
      | refused => refused := by
  have hcreate : store.createDirectory path = .error (.os .notFound) := by
    rw [htree.createDirectory_eq, hmissing]
    rfl
  rw [createAlong, hpath, hcreate]
  rfl

theorem createAlong_empty (hempty : path.toString.isEmpty = true) (depth : Nat) :
    store.createAlong (Path.ancestorsWithin depth path) = (store, .ok ()) := by
  rcases ancestorsWithin_cases depth path with hall | ⟨_, _, _, _, hall⟩
  all_goals rw [hall, createAlong, if_pos hempty]

theorem IsTree.createAlong_eq_attempt (htree : store.IsTree) (depth : Nat)
    (hpath : path.toString.isEmpty = false)
    (hfound : store.reach path ≠ .error (.os .notFound)) :
    store.createAlong (Path.ancestorsWithin depth path) = store.attempt path := by
  rcases ancestorsWithin_cases depth path with hall | ⟨_, _, _, _, hall⟩
  all_goals rw [hall, htree.createAlong_found hpath hfound]

theorem IsTree.evolves_createAlong (htree : store.IsTree) (paths : List Path) :
    store.Evolves (store.createAlong paths).1 := by
  induction paths with
  | nil => exact .refl
  | cons path outer ih =>
      cases hpath : path.toString.isEmpty with
      | true =>
          rw [createAlong, hpath]
          exact .refl
      | false =>
          by_cases hmissing : store.reach path = .error (.os .notFound)
          · rw [htree.createAlong_missing hpath hmissing]
            rcases hinner : store.createAlong outer with ⟨inner, e | u⟩
            · rwa [hinner] at ih
            · rw [hinner] at ih
              change store.Evolves (inner.orIsDirectory path (inner.createDirectory path)).1
              rw [(ih.isTree htree).orIsDirectory_eq]
              exact ih.trans ((ih.isTree htree).evolves_attempt path)
          · rw [htree.createAlong_found hpath hmissing]
            exact htree.evolves_attempt path

/-- What is true of every attempt is true of all that are made along a path. -/
theorem IsTree.createAlong_induct {R : FileStore → FileStore → Prop} (hrefl : ∀ store, R store store)
    (htrans : ∀ store inner made, R store inner → R inner made → R store made)
    (hattempt : ∀ store path, store.IsTree → R store (store.attempt path).1)
    (htree : store.IsTree) (paths : List Path) : R store (store.createAlong paths).1 := by
  induction paths with
  | nil => exact hrefl store
  | cons path outer ih =>
      have hevolves := htree.evolves_createAlong outer
      cases hpath : path.toString.isEmpty with
      | true =>
          rw [createAlong, hpath]
          exact hrefl store
      | false =>
          by_cases hmissing : store.reach path = .error (.os .notFound)
          · rw [htree.createAlong_missing hpath hmissing]
            rcases hinner : store.createAlong outer with ⟨inner, e | u⟩
            · rwa [hinner] at ih
            · rw [hinner] at ih hevolves
              have hinnerTree := hevolves.isTree htree
              change R store (inner.orIsDirectory path (inner.createDirectory path)).1
              rw [hinnerTree.orIsDirectory_eq]
              exact htrans _ _ _ ih (hattempt inner path hinnerTree)
          · rw [htree.createAlong_found hpath hmissing]
            exact hattempt store path htree

/-- Where making directories changes anything, a directory was made where nothing was. -/
def OnlyMakes (store made : FileStore) : Prop :=
  ∀ location, made.entryAt? location = store.entryAt? location
    ∨ store.entryAt? location = none ∧ made.entryAt? location = some .directory

theorem OnlyMakes.refl (store : FileStore) : store.OnlyMakes store :=
  fun _ => .inl rfl

theorem OnlyMakes.trans {inner made : FileStore} (hinner : store.OnlyMakes inner)
    (hmade : inner.OnlyMakes made) : store.OnlyMakes made := by
  intro location
  rcases hmade location with hsame | ⟨hmissing, hdirectory⟩
  · rw [hsame]
    exact hinner location
  · rcases hinner location with hsame | ⟨_, hdirectory'⟩
    · exact .inr ⟨hsame ▸ hmissing, hdirectory⟩
    · simp [hmissing] at hdirectory'

theorem onlyMakes_attempt (store : FileStore) (path : Path) :
    store.OnlyMakes (store.attempt path).1 := by
  unfold attempt
  split
  next => exact .refl store
  next place _ =>
    split
    next hmissing =>
      intro location
      rw [entryAt?_put _ _ _ (ne_root (by simp [hmissing] : store.entryAt? place ≠ _))]
      split
      next hlocation => exact .inr ⟨hlocation ▸ hmissing, rfl⟩
      next => exact .inl rfl
    next => exact .refl store
    next => exact .refl store

theorem IsTree.onlyMakes_createAlong (htree : store.IsTree) (paths : List Path) :
    store.OnlyMakes (store.createAlong paths).1 :=
  htree.createAlong_induct OnlyMakes.refl (fun _ _ _ => OnlyMakes.trans)
    (fun store path _ => store.onlyMakes_attempt path) paths

theorem Opens.trans {outer : Path} {inner made : FileStore} (htree : store.IsTree)
    (hevolves : store.Evolves inner) (hinner : store.Opens outer inner)
    (hmade : inner.Opens path made) (houter : store.trailOf outer ⊆ store.trailOf path) :
    store.Opens path made := by
  have htrail : inner.trailOf path = store.trailOf path := by
    rw [trailOf, hevolves.grows.startOf, trailOf]
  refine ⟨fun location hmem => hmade.along location (htrail ▸ hmem), fun location hchanged => ?_⟩
  by_cases hlater : made.entryAt? location = inner.entryAt? location
  · rw [hlater] at hchanged
    exact ⟨houter (hinner.only location hchanged).1, (hinner.only location hchanged).2⟩
  · rcases hmade.only location hlater with ⟨hmem, hmissing⟩
    exact ⟨htrail ▸ hmem, hevolves.grows.missing htree hmissing⟩

theorem IsTree.createAlong_parent (htree : store.IsTree) {depth : Nat} {parent : Path}
    (hpath : path.toString.isEmpty = false)
    (hmissing : store.reach path = .error (.os .notFound)) (hparent : path.parent? = some parent)
    (hinner : (store.createAlong (Path.ancestorsWithin depth parent)).2 = .ok ()) :
    store.createAlong (Path.ancestorsWithin (depth + 1) path) =
      (store.createAlong (Path.ancestorsWithin depth parent)).1.attempt path := by
  have hevolves := htree.evolves_createAlong (Path.ancestorsWithin depth parent)
  rw [Path.ancestorsWithin, hparent]
  simp only
  rw [htree.createAlong_missing hpath hmissing]
  rcases hall : store.createAlong (Path.ancestorsWithin depth parent) with ⟨inner, e | u⟩
  · rw [hall] at hinner
    cases hinner
  · rw [hall] at hevolves
    exact (hevolves.isTree htree).orIsDirectory_eq path

/-- How directories along a path were made: not at all, at once, or after its parent. -/
theorem IsTree.createAlong_cases (htree : store.IsTree) {depth : Nat}
    (hmade : (store.createAlong (Path.ancestorsWithin depth path)).2 = .ok ()) :
    path.toString.isEmpty = true
    ∨ path.toString.isEmpty = false ∧ store.reach path ≠ .error (.os .notFound)
    ∨ path.toString.isEmpty = false ∧ store.reach path = .error (.os .notFound) ∧
        ∃ less parent, depth = less + 1 ∧ path.parent? = some parent ∧
          (store.createAlong (Path.ancestorsWithin less parent)).2 = .ok () := by
  cases hpath : path.toString.isEmpty with
  | true => exact .inl rfl
  | false =>
      refine .inr ?_
      by_cases hmissing : store.reach path = .error (.os .notFound)
      · refine .inr ⟨rfl, hmissing, ?_⟩
        rcases ancestorsWithin_cases depth path with hall | ⟨less, parent, hdepth, hparent, hall⟩
        · rw [hall, htree.createAlong_missing hpath hmissing] at hmade
          cases hmade
        · rw [hall, htree.createAlong_missing hpath hmissing] at hmade
          refine ⟨less, parent, hdepth, hparent, ?_⟩
          rcases hinner : store.createAlong (Path.ancestorsWithin less parent) with ⟨inner, e | u⟩
          · rw [hinner] at hmade
            cases hmade
          · rfl
      · exact .inl ⟨rfl, hmissing⟩

/-- Where making directories succeeds, what was missing on the way was made and no more. -/
theorem IsTree.opens_createAlong (htree : store.IsTree) {depth : Nat}
    (hmade : (store.createAlong (Path.ancestorsWithin depth path)).2 = .ok ()) :
    store.Opens path (store.createAlong (Path.ancestorsWithin depth path)).1 := by
  induction depth using Nat.strong_induction_on generalizing path with
  | _ depth ih =>
      rcases htree.createAlong_cases hmade with
        hempty | ⟨hpath, hfound⟩ | ⟨hpath, hmissing, less, parent, hdepth, hparent, hinner⟩
      · rw [createAlong_empty hempty]
        refine ⟨fun location hmem => ?_, fun location hchanged => absurd rfl hchanged⟩
        rw [trailOf_of_isEmpty hempty hmem]
        exact htree.startOf path
      · rw [htree.createAlong_eq_attempt depth hpath hfound] at hmade ⊢
        exact opens_attempt hmade
      · rw [hdepth, htree.createAlong_parent hpath hmissing hparent hinner] at hmade ⊢
        exact (ih less (by omega) hinner).trans htree (htree.evolves_createAlong _)
          (opens_attempt hmade) (trailOf_parent hparent)

theorem Opens.grows (hs : s.Opens path s') (ht : t.Opens path t') (hgrows : s.Grows t)
    (hsGrows : s.Grows s') (htGrows : t.Grows t') : s'.Grows t' := by
  have htrail : t.trailOf path = s.trailOf path := by
    rw [trailOf, hgrows.startOf, trailOf]
  have hmade : ∀ location, s'.entryAt? location ≠ s.entryAt? location →
      t'.entryAt? location = some .directory := fun location hchanged =>
    ht.along location (htrail ▸ (hs.only location hchanged).1)
  refine ⟨?_, fun location hdirectory => ?_, fun location contents hfile => ?_⟩
  · rw [htGrows.working, hgrows.working, hsGrows.working]
  · by_cases hsame : s'.entryAt? location = s.entryAt? location
    · exact htGrows.directory location (hgrows.directory location (hsame ▸ hdirectory))
    · exact hmade location hsame
  · by_cases hsame : s'.entryAt? location = s.entryAt? location
    · rcases hgrows.file location contents (hsame ▸ hfile) with ⟨other, hother⟩
      exact htGrows.file location other hother
    · have hdirectory := hs.along location (hs.only location hsame).1
      simp [hfile] at hdirectory

theorem Opens.missing_or_directory (ht : t.Opens path t')
    (hbefore : t.entryAt? location = none ∨ t.entryAt? location = some .directory) :
    t'.entryAt? location = none ∨ t'.entryAt? location = some .directory := by
  by_cases hsame : t'.entryAt? location = t.entryAt? location
  · rwa [hsame]
  · exact .inr (ht.along location (ht.only location hsame).1)

/-- A path that leads somewhere in one store only misses directories in another one
that has nothing else on the way. -/
theorem reach_of_open (hlook : s.reach path = .ok place)
    (hstart : t.startOf path = s.startOf path)
    (hopen : ∀ location ∈ s.trailOf path,
      t.entryAt? location = none ∨ t.entryAt? location = some .directory) :
    t.reach path = .ok place ∨ t.reach path = .error (.os .notFound) := by
  rcases reach_eq_ok_iff.mp hlook with ⟨hcheck, hwalk⟩
  have htrail : trail (s.startOf path) (path.segments.rdropWhile (· = "")) ⊆ s.trailOf path := by
    rcases List.rdropWhile_prefix (· = "") path.segments with ⟨more, hmore⟩
    have hsubset := trail_subset_append (s.startOf path) (path.segments.rdropWhile (· = "")) more
    rwa [hmore] at hsubset
  rcases tread_of_directories hwalk fun location hmem => hopen location (htrail hmem) with
    hfound | hmissing
  · exact .inl (reach_eq_ok_iff.mpr ⟨hcheck, hstart ▸ hfound⟩)
  · refine .inr ?_
    rw [reach, hcheck, hstart, hmissing]
    rfl

/-- What could be made here can be made in a grown store, if nothing but directories
was put on the way. -/
theorem createAlong_ok_of_grows (hgrows : s.Grows t) (hs : s.IsTree) (ht : t.IsTree)
    {depth : Nat} (hmade : (s.createAlong (Path.ancestorsWithin depth path)).2 = .ok ())
    (hopen : ∀ location ∈ s.trailOf path,
      t.entryAt? location = none ∨ t.entryAt? location = some .directory) :
    (t.createAlong (Path.ancestorsWithin depth path)).2 = .ok () := by
  induction depth using Nat.strong_induction_on generalizing path with
  | _ depth ih =>
      have hplace := hopen _ (placeOf_mem_trailOf s path)
      rcases hs.createAlong_cases hmade with
        hempty | ⟨hpath, hfound⟩ | ⟨hpath, hmissing, less, parent, hdepth, hparent, hinner⟩
      · rw [createAlong_empty hempty]
      · rw [hs.createAlong_eq_attempt depth hpath hfound] at hmade
        rw [ht.createAlong_eq_attempt depth hpath (hgrows.reach_eq hs hfound ▸ hfound)]
        exact attempt_ok_of_grows hgrows hs hmade hplace
      · -- Here `s` had to make the parent first.  If `t` has it already, only something on
        -- the way could stop the attempt, and there is nothing but directories.
        rw [hdepth, hs.createAlong_parent hpath hmissing hparent hinner] at hmade
        have hinnerT := ih less (by omega) hinner fun location hmem =>
          hopen location (trailOf_parent hparent hmem)
        have hsInner := hs.evolves_createAlong (Path.ancestorsWithin less parent)
        have htInner := ht.evolves_createAlong (Path.ancestorsWithin less parent)
        have hsOpens := hs.opens_createAlong hinner
        have htOpens := ht.opens_createAlong hinnerT
        by_cases hmissingT : t.reach path = .error (.os .notFound)
        · rw [hdepth, ht.createAlong_parent hpath hmissingT hparent hinnerT]
          refine attempt_ok_of_grows
            (hsOpens.grows htOpens hgrows hsInner.grows htInner.grows) (hsInner.isTree hs) hmade ?_
          rw [hsInner.grows.placeOf]
          exact htOpens.missing_or_directory hplace
        · rw [ht.createAlong_eq_attempt depth hpath hmissingT]
          rcases attempt_eq_ok hmade with ⟨place, hreach, _⟩
          have hstart : t.startOf path =
              (s.createAlong (Path.ancestorsWithin less parent)).1.startOf path := by
            rw [hgrows.startOf, hsInner.grows.startOf]
          have hreachT := (reach_of_open hreach hstart fun location hmem => hopen location (by
            rwa [trailOf, ← hsInner.grows.startOf])).resolve_right hmissingT
          rw [← hgrows.placeOf, ← (directory_of_reach hreachT).1] at hplace
          rcases hplace with hnone | hdirectory
          · simp [attempt, hreachT, hnone]
          · simp [attempt, hreachT, hdirectory]

/-! ## Stability -/

/-- Making the directories of a path makes one at a location. -/
def Makes (store : FileStore) (path : Path) (location : Location) : Prop :=
  store.entryAt? location = none ∧
    (store.createDirectories path).1.entryAt? location = some .directory

instance (store : FileStore) (path : Path) (location : Location) :
    Decidable (store.Makes path location) :=
  inferInstanceAs (Decidable (_ ∧ _))

/-- The directories of a path can be made, or something other than a missing directory
forbids it at once. -/
def Settles (store : FileStore) (path : Path) : Prop :=
  (store.createDirectories path).2 = .ok ()
    ∨ store.createDirectory path ≠ .error (.os .notFound)

/-- Two pairs of stores differ alike: where they differ, both second stores have a
directory that was made, or the same at one of some places. -/
def Alike (made : Location → Prop) (places : List Location) (s s' t t' : FileStore) : Prop :=
  ∀ location, (s'.entryAt? location = s.entryAt? location ∧
      t'.entryAt? location = t.entryAt? location)
    ∨ (made location ∧ s'.entryAt? location = some .directory ∧
      t'.entryAt? location = some .directory)
    ∨ (location ∈ places ∧ s'.entryAt? location = t'.entryAt? location)

instance (store : FileStore) (path : Path) : Decidable (store.Settles path) :=
  inferInstanceAs (Decidable (_ ∨ _))

theorem Alike.refl (made : Location → Prop) (places : List Location) (s t : FileStore) :
    Alike made places s s t t :=
  fun _ => .inl ⟨rfl, rfl⟩

theorem Alike.entryAt?_eq {made : Location → Prop} {places : List Location}
    (halike : Alike made places s s' t t')
    (hbefore : t.entryAt? location = s.entryAt? location) :
    t'.entryAt? location = s'.entryAt? location := by
  rcases halike location with ⟨hs, ht⟩ | ⟨_, hs, ht⟩ | ⟨_, hequal⟩
  · rw [hs, ht, hbefore]
  · rw [hs, ht]
  · exact hequal.symm

theorem Alike.mono {made made' : Location → Prop} {places places' : List Location}
    (hmade : ∀ location, made location → made' location) (hplaces : places ⊆ places')
    (halike : Alike made places s s' t t') : Alike made' places' s s' t t' := fun location =>
  (halike location).imp_right (Or.imp (And.imp_left (hmade location)) (And.imp_left (@hplaces _)))

theorem Alike.trans {made : Location → Prop} {places : List Location}
    {s₁ s₂ s₃ t₁ t₂ t₃ : FileStore} (hfirst : Alike made places s₁ s₂ t₁ t₂)
    (hsecond : Alike made places s₂ s₃ t₂ t₃) : Alike made places s₁ s₃ t₁ t₃ := by
  intro location
  rcases hsecond location with ⟨hs, ht⟩ | hmade | hplace
  · rw [hs, ht]
    exact hfirst location
  · exact .inr (.inl hmade)
  · exact .inr (.inr hplace)

theorem IsTree.evolves_createDirectories (htree : store.IsTree) (path : Path) :
    store.Evolves (store.createDirectories path).1 :=
  htree.evolves_createAlong path.ancestors

theorem IsTree.opens_createDirectories (htree : store.IsTree)
    (hmade : (store.createDirectories path).2 = .ok ()) :
    store.Opens path (store.createDirectories path).1 :=
  htree.opens_createAlong hmade

theorem IsTree.refused_of_settles (htree : store.IsTree) (hsettles : store.Settles path)
    (hrefused : (store.createDirectories path).2 ≠ .ok ()) :
    path.toString.isEmpty = false ∧ store.reach path ≠ .error (.os .notFound) := by
  refine ⟨?_, htree.createDirectory_ne_notFound_iff.mp (hsettles.resolve_left hrefused)⟩
  by_contra hempty
  rw [createDirectories, Path.ancestors, createAlong_empty (by simpa using hempty)] at hrefused
  exact hrefused rfl

theorem Opens.alike (hs : s.Opens path (s.createDirectories path).1)
    (ht : t.Opens path t') (hgrows : s.Grows t) :
    Alike (s.Makes path) [] s (s.createDirectories path).1 t t' := by
  have htrail : t.trailOf path = s.trailOf path := by rw [trailOf, hgrows.startOf, trailOf]
  intro location
  by_cases hchanged : (s.createDirectories path).1.entryAt? location = s.entryAt? location
  · refine .inl ⟨hchanged, ?_⟩
    by_contra hother
    rcases ht.only location hother with ⟨hmem, hmissing⟩
    rw [hs.along location (htrail ▸ hmem)] at hchanged
    simp [hgrows.directory location hchanged.symm] at hmissing
  · rcases hs.only location hchanged with ⟨hmem, hmissing⟩
    have hdirectory := hs.along location hmem
    exact .inr (.inl ⟨⟨hmissing, hdirectory⟩, hdirectory, ht.along location (htrail ▸ hmem)⟩)

/-- Whether directories can be made, and which, is the same after other changes that
put nothing but directories where directories are made. -/
theorem createDirectories_stable (hgrows : s.Grows t) (hs : s.IsTree) (ht : t.IsTree)
    (hsettles : s.Settles path)
    (hfree : ∀ location, s.Makes path location →
      t.entryAt? location = none ∨ t.entryAt? location = some .directory) :
    (t.createDirectories path).2 = (s.createDirectories path).2 ∧
      Alike (s.Makes path) [] s (s.createDirectories path).1 t (t.createDirectories path).1 := by
  by_cases hmade : (s.createDirectories path).2 = .ok ()
  · have hsOpens := hs.opens_createDirectories hmade
    have hmadeT : (t.createDirectories path).2 = .ok () := by
      refine createAlong_ok_of_grows hgrows hs ht hmade fun location hmem => ?_
      have hdirectory := hsOpens.along location hmem
      by_cases hsame : (s.createDirectories path).1.entryAt? location = s.entryAt? location
      · exact .inr (hgrows.directory location (hsame ▸ hdirectory))
      · exact hfree location ⟨(hsOpens.only location hsame).2, hdirectory⟩
    exact ⟨hmadeT.trans hmade.symm, hsOpens.alike (ht.opens_createDirectories hmadeT) hgrows⟩
  · -- Refused at once, by something that is still there: nothing was made in either store.
    rcases hs.refused_of_settles hsettles hmade with ⟨hpath, hfound⟩
    have hreach := hgrows.reach_eq hs hfound
    have hsame := hs.createAlong_eq_attempt path.components.length hpath hfound
    have hsameT := ht.createAlong_eq_attempt path.components.length hpath (hreach ▸ hfound)
    rw [createDirectories, Path.ancestors, hsame] at hmade
    rw [createDirectories, createDirectories, Path.ancestors, hsame, hsameT]
    cases hplace : s.reach path with
    | error e => simp [attempt, hreach, hplace, Alike.refl]
    | ok place =>
        cases hentry : s.entryAt? place with
        | none => simp [attempt, hplace, hentry] at hmade
        | some entry =>
            rcases hs.file_or_directory hentry with rfl | ⟨contents, rfl⟩
            · simp [attempt, hplace, hentry] at hmade
            · rcases hgrows.file place contents hentry with ⟨other, hother⟩
              simp [attempt, hreach, hplace, hentry, hother, Alike.refl]

theorem settles_of_grows (hgrows : s.Grows t) (hs : s.IsTree) (ht : t.IsTree)
    (hsettles : s.Settles path)
    (hfree : ∀ location, s.Makes path location →
      t.entryAt? location = none ∨ t.entryAt? location = some .directory) : t.Settles path := by
  have hsame := (createDirectories_stable hgrows hs ht hsettles hfree).1
  rcases hsettles with hmade | hrefused
  · exact .inl (hsame.trans hmade)
  · have hfound := hs.createDirectory_ne_notFound_iff.mp hrefused
    exact .inr (ht.createDirectory_ne_notFound_iff.mpr (hgrows.reach_eq hs hfound ▸ hfound))

theorem makes_of_grows (hgrows : s.Grows t) (hs : s.IsTree) (ht : t.IsTree)
    (hsettles : s.Settles path)
    (hfree : ∀ location, s.Makes path location →
      t.entryAt? location = none ∨ t.entryAt? location = some .directory)
    (hmakes : t.Makes path location) : s.Makes path location := by
  rcases (createDirectories_stable hgrows hs ht hsettles hfree).2 location with
    ⟨_, hsame⟩ | ⟨hmade, _⟩ | ⟨hplace, _⟩
  · have hmissing := hmakes.1
    simp [← hsame, hmakes.2] at hmissing
  · exact hmade
  · cases hplace

end FileStore

end JackTree
