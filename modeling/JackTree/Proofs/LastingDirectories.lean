import JackTree.Proofs.PathComponents

/-!
# Directories that last

Making the directories of a path a second time changes nothing and ends in the same way,
also when it is refused, as long as the path goes down behind the first directory that is
missing.  A dot at the end, or a step up behind a missing directory, can make the two
attempts differ.
-/

namespace JackTree

variable {segments before after : List String} {name : String} {path parent : Path}

/-! ## Going down -/

namespace Path

/-- Some stretches lead through no directory above and do not end in a dot. -/
def GoesDown (segments : List String) : Prop :=
  ".." ∉ segments ∧ (segments.rdropWhile (· = "")).getLast? ≠ some "."

instance (segments : List String) : Decidable (GoesDown segments) :=
  inferInstanceAs (Decidable (_ ∧ _))

theorem rdropWhile_append (before after : List String) :
    (before ++ after).rdropWhile (· = "") =
      if after.rdropWhile (· = "") = [] then before.rdropWhile (· = "")
      else before ++ after.rdropWhile (· = "") := by
  simp only [List.rdropWhile, List.reverse_append, List.dropWhile_append, List.isEmpty_iff,
    List.reverse_eq_nil_iff]
  split
  next => rfl
  next => rw [List.reverse_append, List.reverse_reverse]

theorem GoesDown.of_append (h : GoesDown (before ++ after)) : GoesDown after := by
  refine ⟨fun hup => h.1 (List.mem_append_right before hup), fun hlast => h.2 ?_⟩
  have hne : after.rdropWhile (· = "") ≠ [] := by
    intro hnil
    simp [hnil] at hlast
  rw [rdropWhile_append, if_neg hne, List.getLast?_append, hlast]
  rfl

theorem stepFrom_of_dot {dot : String} (hdot : innerComponent? dot = none) (location : Location) :
    FileStore.stepFrom location dot = location := by
  rw [FileStore.stepFrom, if_pos (innerComponent?_eq_none_iff.mp hdot)]

theorem foldl_stepFrom_of_dots {dots : List String}
    (hdots : ∀ dot ∈ dots, innerComponent? dot = none) (location : Location) :
    dots.foldl FileStore.stepFrom location = location := by
  induction dots with
  | nil => rfl
  | cons dot rest ih =>
      obtain ⟨hdot, hrest⟩ := List.forall_mem_cons.mp hdots
      rw [List.foldl_cons, stepFrom_of_dot hdot, ih hrest]

theorem exists_below_of_foldl (hdown : ".." ∉ segments) (location : Location) :
    ∃ names, segments.foldl FileStore.stepFrom location = location ++ names := by
  induction segments generalizing location with
  | nil => exact ⟨[], by simp⟩
  | cons segment rest ih =>
      rw [List.mem_cons, not_or] at hdown
      obtain ⟨hsegment, hrest⟩ := hdown
      by_cases hstay : segment = "" ∨ segment = "."
      · rw [List.foldl_cons, FileStore.stepFrom, if_pos hstay]
        exact ih hrest location
      · obtain ⟨names, hnames⟩ := ih hrest (location ++ [segment])
        refine ⟨segment :: names, ?_⟩
        rw [List.foldl_cons, FileStore.stepFrom, if_neg hstay, if_neg (Ne.symm hsegment), hnames,
          List.append_assoc]
        rfl

/-! ## The way to a parent -/

theorem exists_toString_parent (hparent : path.parent? = some parent) :
    parent.toString.isEmpty = true ∨ ∃ more, path.toString = parent.toString ++ more := by
  have hlonger : ∀ {segments more : List String}, segments ≠ [] →
      ∃ text, (⟨segments ++ more⟩ : Path).toString = (⟨segments⟩ : Path).toString ++ text := by
    intro segments more hne
    by_cases hmore : more = []
    · exact ⟨"", by simp [hmore]⟩
    · refine ⟨"/" ++ "/".intercalate more, ?_⟩
      rw [toString, toString, String.intercalate_append_of_ne_nil hne hmore, String.append_assoc]
  rcases path with ⟨_ | ⟨head, tail⟩⟩
  · cases hparent
  · rcases FileStore.parent?_cases hparent with
      ⟨-, rfl⟩ | ⟨rfl, htail, rfl⟩ | ⟨-, rfl⟩ | ⟨kept, -, ⟨more, rfl⟩, rfl⟩
    · exact .inl rfl
    · refine .inr ⟨"/".intercalate tail, ?_⟩
      rw [toString, ← List.singleton_append,
        String.intercalate_append_of_ne_nil (List.cons_ne_nil _ _) htail]
      rfl
    · exact .inr (hlonger (List.cons_ne_nil head []))
    · exact .inr (hlonger (List.cons_ne_nil head kept))

/-- The way of a path is the way of its parent, some dots and the last component. -/
theorem exists_front_of_parent (hparent : path.parent? = some parent) :
    parent.isAbsolute = path.isAbsolute ∧ ∃ front name dots more,
      path.segments = front ++ name :: dots ∧
      front = parent.segments.rdropWhile (· = "") ++ more ∧ name ≠ "" ∧
      (∀ dot ∈ dots, innerComponent? dot = none) ∧ ∀ dot ∈ more, innerComponent? dot = none := by
  obtain ⟨front, name, dots, hsegments, hcut⟩ := exists_cutAtLast hparent
  obtain ⟨segments⟩ := path
  obtain rfl : segments = front ++ name :: dots := hsegments
  cases hcut with
  | head hname hdots =>
      refine ⟨?_, [], name, dots, [], rfl, rfl, hname, hdots, by simp⟩
      rw [Bool.eq_iff_iff, List.nil_append, isAbsolute_cons_iff, isAbsolute_cons_iff]
      simp [hname]
  | @inner head tail _ _ hname hdots =>
      have hne : name ≠ "" := by
        rintro rfl
        exact hname rfl
      have habsolute : (⟨head :: tail ++ name :: dots⟩ : Path).isAbsolute = true ↔ head = "" := by
        rw [List.cons_append, isAbsolute_cons_iff]
        simp
      rw [Bool.eq_iff_iff, habsolute]
      rcases trimTail_cases tail with ⟨hnil, hmore⟩ | ⟨kept, last, more, htail, htrim, hlast, hmore⟩
      · rw [if_pos hnil]
        by_cases hhead : head = ""
        · refine ⟨?_, "" :: tail, name, dots, "" :: tail, by rw [hhead], ?_, hne, hdots, ?_⟩
          · simp [hhead, isAbsolute]
          · simp [hhead, List.rdropWhile]
          · exact List.forall_mem_cons.mpr ⟨rfl, hmore⟩
        · refine ⟨?_, head :: tail, name, dots, tail, rfl, ?_, hne, hdots, hmore⟩
          · simp [hhead, isAbsolute]
          · simp [hhead, List.rdropWhile]
      · have hlastNe : last ≠ "" := by
          rintro rfl
          exact hlast rfl
        rw [if_neg (by simp [htrim])]
        refine ⟨?_, head :: tail, name, dots, more, rfl, ?_, hne, hdots, hmore⟩
        · rw [isAbsolute_cons_iff]
          simp [htrim]
        · rw [htrim, ← List.cons_append, List.rdropWhile_concat, if_neg (by simpa using hlastNe),
            htail]
          simp

/-- A parent says nothing, or is the beginning of a path up to one of its components. -/
theorem parent?_shape (hparent : path.parent? = some parent) :
    (∀ dot ∈ parent.segments, innerComponent? dot = none)
    ∨ ∃ kept last, parent.segments = kept ++ [last] ∧ parent.segments <+: path.segments ∧
        (kept = [] ∨ innerComponent? last ≠ none) := by
  obtain ⟨front, name, dots, hsegments, hcut⟩ := exists_cutAtLast hparent
  rw [hsegments]
  cases hcut with
  | head => exact .inl (by simp [innerComponent?])
  | @inner head tail _ _ hname hdots =>
      rcases trimTail_cases tail with ⟨hnil, -⟩ | ⟨before, last, more, htail, htrim, hlast, -⟩
      · rw [if_pos hnil]
        by_cases hhead : head = ""
        · exact .inl (by simp [hhead, innerComponent?])
        · refine .inr ⟨[], head, by rw [if_neg hhead]; rfl, ?_, .inl rfl⟩
          simp [hhead]
      · rw [if_neg (by simp [htrim]), htrim]
        refine .inr ⟨head :: before, last, rfl, ?_, .inr hlast⟩
        rw [htail]
        simp

theorem innerComponent?_of_headComponent? {segment : String} {isWhole : Bool}
    (hhead : headComponent? segment isWhole = none ∨ headComponent? segment isWhole = some .root) :
    innerComponent? segment = none := by
  unfold headComponent? at hhead
  unfold innerComponent?
  by_cases hempty : segment = ""
  · simp [hempty]
  · by_cases hdot : segment = "."
    · simp [hdot]
    · by_cases hup : segment = ".." <;> simp [hempty, hdot, hup] at hhead

theorem dots_of_parent?_eq_none (hparent : path.parent? = none) :
    ∀ dot ∈ path.segments, innerComponent? dot = none := by
  rcases path with ⟨_ | ⟨head, tail⟩⟩
  · simp
  · unfold parent? at hparent
    simp only at hparent
    split at hparent
    next htrim =>
      have htail : ∀ dot ∈ tail, innerComponent? dot = none := by
        rcases trimTail_cases tail with ⟨-, hdots⟩ | ⟨before, last, more, -, hkept, -, -⟩
        · exact hdots
        · simp [hkept] at htrim
      split at hparent
      next hnone =>
        exact List.forall_mem_cons.mpr ⟨innerComponent?_of_headComponent? (.inl hnone), htail⟩
      next hroot =>
        exact List.forall_mem_cons.mpr ⟨innerComponent?_of_headComponent? (.inr hroot), htail⟩
      next => cases hparent
    next => split at hparent <;> cases hparent

theorem dots_of_components_eq_nil (hcomponents : path.components = []) :
    ∀ dot ∈ path.segments, innerComponent? dot = none := by
  rcases path with ⟨_ | ⟨head, tail⟩⟩
  · simp
  · rw [components, List.append_eq_nil_iff, List.filterMap_eq_nil_iff] at hcomponents
    obtain ⟨hhead, htail⟩ := hcomponents
    exact List.forall_mem_cons.mpr
      ⟨innerComponent?_of_headComponent? (.inl (by simpa using hhead)), htail⟩

end Path

namespace FileStore

variable {store s t u made : FileStore} {location place : Location}

theorem trail_append_dots {dots : List String}
    (hdots : ∀ dot ∈ dots, Path.innerComponent? dot = none) (location : Location)
    (segments : List String) : trail location (segments ++ dots) ⊆ trail location segments := by
  induction dots using List.reverseRecOn with
  | nil => simp
  | append_singleton dots dot ih =>
      have hbefore : ∀ other ∈ dots, Path.innerComponent? other = none :=
        fun other hother => hdots other (List.mem_append_left _ hother)
      rw [← List.append_assoc, trail_concat, List.foldl_append, Path.foldl_stepFrom_of_dots hbefore,
        Path.stepFrom_of_dot (hdots dot (by simp))]
      refine List.append_subset.mpr ⟨ih hbefore, ?_⟩
      simpa using end_mem_trail location segments

theorem exists_way_of_parent (store : FileStore) (hparent : path.parent? = some parent) :
    ∃ front name dots, path.segments = front ++ name :: dots ∧ name ≠ "" ∧
      (∀ dot ∈ dots, Path.innerComponent? dot = none) ∧
      trail (store.startOf path) front ⊆ store.trailOf parent ∧
      store.placeOf parent = front.foldl stepFrom (store.startOf path) ∧
      parent.segments.rdropWhile (· = "") <+: front ∧
      store.startOf parent = store.startOf path := by
  obtain ⟨habsolute, front, name, dots, more, hsegments, hfront, hname, hdots, hmore⟩ :=
    Path.exists_front_of_parent hparent
  have hstart : store.startOf parent = store.startOf path := by
    rw [startOf, startOf, habsolute]
  refine ⟨front, name, dots, hsegments, hname, hdots, ?_, ?_, hfront ▸ List.prefix_append _ _,
    hstart⟩
  · rw [hfront, trailOf, hstart]
    refine List.Subset.trans (trail_append_dots hmore _ _) ?_
    obtain ⟨rest, hrest⟩ := List.rdropWhile_prefix (· = "") parent.segments
    conv_rhs => rw [← hrest]
    exact trail_subset_append _ _ rest
  · rw [placeOf_eq, hstart, hfront, List.foldl_append, Path.foldl_stepFrom_of_dots hmore,
      foldl_trimmed]

/-! ## Directories that are missing -/

theorem exists_missing_of_tread (hmissing : store.tread location segments = .error .notFound) :
    ∃ before after place, segments = before ++ after ∧ after ≠ [] ∧
      store.tread location before = .ok place ∧ store.entryAt? place = none := by
  induction segments generalizing location with
  | nil => cases hmissing
  | cons segment rest ih =>
      cases hentry : store.entryAt? location with
      | none => exact ⟨[], segment :: rest, location, rfl, List.cons_ne_nil _ _, rfl, hentry⟩
      | some entry =>
          rw [tread, hentry] at hmissing
          cases entry with
          | directory =>
              by_cases hlong : nameLimit < segment.utf8ByteSize
              · simp [hlong] at hmissing
              · simp only [hlong, if_false] at hmissing
                obtain ⟨before, after, place, rfl, hafter, hbefore, hplace⟩ := ih hmissing
                refine ⟨segment :: before, after, place, rfl, hafter, ?_, hplace⟩
                rw [tread_directory hentry, if_neg hlong, hbefore]
          | file contents => cases hmissing
          | link target => cases hmissing

theorem IsTree.missing_below (htree : store.IsTree) (hmissing : store.entryAt? location = none)
    (names : List String) : store.entryAt? (location ++ names) = none := by
  induction names using List.reverseRecOn with
  | nil => rwa [List.append_nil]
  | append_singleton names name ih =>
      by_contra hthere
      have hdirectory := htree.inDirectory _ hthere
      rw [← List.append_assoc, List.dropLast_concat, ih] at hdirectory
      cases hdirectory

/-- Behind the first directory that is missing on its way, a path goes down. -/
def LeadsOn (store : FileStore) (path : Path) : Prop :=
  ∀ before after, path.segments = before ++ after → ∀ place,
    store.tread (store.startOf path) before = .ok place → store.entryAt? place = none →
      Path.GoesDown after

theorem reach_of_checked (hcheck : checkPath path = .ok ()) : store.reach path =
    (store.tread (store.startOf path) (path.segments.rdropWhile (· = ""))).mapError .os := by
  rw [reach, hcheck]
  rfl

theorem reach_missing (hpath : path.toString.isEmpty = false)
    (hmissing : store.reach path = .error (.os .notFound)) : checkPath path = .ok () ∧
      store.tread (store.startOf path) (path.segments.rdropWhile (· = "")) =
        .error .notFound := by
  have hcheck : checkPath path = .ok () := by
    cases hcheck : checkPath path with
    | ok u => rfl
    | error e =>
        rw [reach, hcheck] at hmissing
        obtain rfl := Except.error.inj hmissing
        unfold checkPath at hcheck
        split at hcheck
        next => cases hcheck
        next =>
          rw [hpath, if_neg Bool.false_ne_true] at hcheck
          split at hcheck <;> cases hcheck
  refine ⟨hcheck, ?_⟩
  rw [reach_of_checked hcheck] at hmissing
  cases hwalk : store.tread (store.startOf path) (path.segments.rdropWhile (· = "")) with
  | ok place => simp [hwalk] at hmissing
  | error e =>
      rw [hwalk] at hmissing
      rw [IoError.os.inj (Except.error.inj hmissing)]

/-- The stretches behind what was walked, with the slashes at the end left out, are those
that the whole path ends in. -/
theorem trimmed_of_append (hcut : segments.rdropWhile (· = "") = before ++ after)
    (hafter : after ≠ []) :
    ∃ rest, segments = before ++ rest ∧ rest.rdropWhile (· = "") = after := by
  obtain ⟨blanks, hblanks⟩ := List.rdropWhile_prefix (· = "") segments
  rw [hcut, List.append_assoc] at hblanks
  refine ⟨after ++ blanks, hblanks.symm, ?_⟩
  rw [← hblanks, Path.rdropWhile_append] at hcut
  split at hcut
  next =>
    have hlength := (List.rdropWhile_prefix (· = "") before).length_le
    rw [hcut, List.length_append] at hlength
    have hpositive := List.length_pos_iff.mpr hafter
    omega
  next => exact List.append_cancel_left hcut

theorem trimmed_of_name {front dots : List String} (hname : name ≠ "")
    (hdots : ∀ dot ∈ dots, Path.innerComponent? dot = none)
    (hlast : ((front ++ name :: dots).rdropWhile (· = "")).getLast? ≠ some ".") :
    (front ++ name :: dots).rdropWhile (· = "") = front ++ [name] := by
  rw [List.append_cons, Path.rdropWhile_append] at hlast ⊢
  split
  next => rw [List.rdropWhile_concat, if_neg (by simpa using hname)]
  next hkept =>
    rw [if_neg hkept] at hlast
    obtain ⟨dot, hdot⟩ := Option.ne_none_iff_exists'.mp (List.getLast?_eq_none_iff.not.mpr hkept)
    have hmem := (List.rdropWhile_prefix (· = "") dots).subset (List.mem_of_getLast? hdot)
    rcases Path.innerComponent?_eq_none_iff.mp (hdots dot hmem) with rfl | rfl
    · exact absurd rfl (getLast?_trimmed_ne_empty hdot)
    · rw [List.getLast?_append, hdot] at hlast
      exact absurd rfl hlast

/-- Where a path misses a directory and leads on, its last component is a name, and
nothing stands at the place of its parent. -/
theorem LeadsOn.of_missing (hleads : store.LeadsOn path) (htree : store.IsTree)
    (hpath : path.toString.isEmpty = false)
    (hmissing : store.reach path = .error (.os .notFound)) (hparent : path.parent? = some parent) :
    ∃ front name, path.segments.rdropWhile (· = "") = front ++ [name] ∧
      trail (store.startOf path) front ⊆ store.trailOf parent ∧
      parent.segments.rdropWhile (· = "") <+: front ∧ store.startOf parent = store.startOf path ∧
      store.entryAt? (store.placeOf parent) = none := by
  obtain ⟨front, name, dots, hsegments, hname, hdots, htrail, hplace, hbegins, hstart⟩ :=
    store.exists_way_of_parent hparent
  obtain ⟨before, after, place, hcut, hafter, hbefore, hnone⟩ :=
    exists_missing_of_tread (reach_missing hpath hmissing).2
  obtain ⟨rest, hrest, htrimmed⟩ := trimmed_of_append hcut hafter
  obtain ⟨hup, hdot⟩ := hleads before rest hrest place hbefore hnone
  rw [htrimmed] at hdot
  have hwhole : path.segments.rdropWhile (· = "") = front ++ [name] := by
    rw [hsegments]
    refine trimmed_of_name hname hdots fun hlast => hdot ?_
    rwa [← hsegments, hcut, List.getLast?_append_of_ne_nil _ hafter] at hlast
  refine ⟨front, name, hwhole, htrail, hbegins, hstart, ?_⟩
  obtain ⟨more, last, rfl⟩ := List.eq_nil_or_concat' after |>.resolve_left hafter
  rw [hcut, ← List.append_assoc] at hwhole
  obtain ⟨rfl, -⟩ := List.append_inj' hwhole rfl
  have hmore : ".." ∉ more := by
    intro hmem
    have hkept := (List.rdropWhile_prefix (· = "") rest).subset
    rw [htrimmed] at hkept
    exact hup (hkept (List.mem_append_left _ hmem))
  obtain ⟨names, hnames⟩ := Path.exists_below_of_foldl hmore place
  rw [hplace, List.foldl_append, ← (directory_of_tread hbefore).1, hnames]
  exact htree.missing_below hnone names

/-! ## Attempts that last -/

/-- An attempt to make a directory changes nothing and misses nothing. -/
structure Lasts (store : FileStore) (path : Path) (result : Except IoError Unit) : Prop where
  found : store.reach path ≠ .error (.os .notFound)
  attempt : store.attempt path = (store, result)

theorem IsTree.lasts_attempt (htree : store.IsTree)
    (hfound : store.reach path ≠ .error (.os .notFound)) :
    (store.attempt path).1.Lasts path (store.attempt path).2 := by
  have hreach := (htree.evolves_attempt path).grows.reach_eq htree hfound
  refine ⟨hreach ▸ hfound, ?_⟩
  cases hplace : store.reach path with
  | error e => simp [FileStore.attempt, hplace]
  | ok place =>
      rw [hplace] at hreach
      cases hentry : store.entryAt? place with
      | none =>
          have hroot : place ≠ [] := ne_root (by simp [hentry] : store.entryAt? place ≠ _)
          have hmade : store.attempt path = (store.put place .directory, .ok ()) := by
            simp [FileStore.attempt, hplace, hentry]
          rw [hmade] at hreach ⊢
          have hdirectory : (store.put place .directory).entryAt? place = some .directory := by
            rw [entryAt?_put _ _ _ hroot, if_pos rfl]
          simp [FileStore.attempt, hreach, hdirectory]
      | some entry => cases entry <;> simp [FileStore.attempt, hplace, hentry]

theorem Lasts.of_grows {result : Except IoError Unit} (hlasts : made.Lasts path result)
    (htree : made.IsTree) (hgrows : made.Grows u) : u.Lasts path result := by
  have hreach := hgrows.reach_eq htree hlasts.found
  refine ⟨hreach ▸ hlasts.found, ?_⟩
  have hattempt := hlasts.attempt
  unfold FileStore.attempt at hattempt ⊢
  rw [hreach]
  cases hplace : made.reach path with
  | error e => simpa [hplace] using hattempt
  | ok place =>
      rw [hplace] at hattempt
      cases hentry : made.entryAt? place with
      | none =>
          have hroot : place ≠ [] := ne_root (by simp [hentry] : made.entryAt? place ≠ _)
          have hput : made.put place .directory = made := by
            simpa [hentry] using congrArg Prod.fst hattempt
          have hdirectory := made.entryAt?_put place .directory hroot
          rw [hput, hentry, if_pos rfl] at hdirectory
          cases hdirectory
      | some entry =>
          rcases htree.file_or_directory hentry with rfl | ⟨contents, rfl⟩
          · simpa [hentry, hgrows.directory place hentry] using hattempt
          · obtain ⟨other, hother⟩ := hgrows.file place contents hentry
            simpa [hentry, hother] using hattempt

/-! ## Making directories again -/

theorem place_of_dots (hdots : ∀ dot ∈ before, Path.innerComponent? dot = none)
    (hwalk : store.tread location before = .ok place) : place = location := by
  rw [(directory_of_tread hwalk).1, Path.foldl_stepFrom_of_dots hdots]

theorem IsTree.not_dots_of_missing (htree : store.IsTree) (hpath : path.toString.isEmpty = false)
    (hmissing : store.reach path = .error (.os .notFound)) :
    ¬ ∀ dot ∈ path.segments, Path.innerComponent? dot = none := by
  intro hdots
  obtain ⟨before, after, place, hcut, -, hbefore, hnone⟩ :=
    exists_missing_of_tread (reach_missing hpath hmissing).2
  have hsubset := (List.rdropWhile_prefix (· = "") path.segments).subset
  rw [hcut] at hsubset
  have hplace := place_of_dots
    (fun dot hdot => hdots dot (hsubset (List.mem_append_left _ hdot))) hbefore
  rw [hplace, htree.startOf] at hnone
  cases hnone

theorem LeadsOn.to_parent (hleads : store.LeadsOn path) (htree : store.IsTree)
    (hparent : path.parent? = some parent) : store.LeadsOn parent := by
  intro before after hcut place hbefore hnone
  have hstart : store.startOf parent = store.startOf path := by
    rw [startOf, startOf, (Path.exists_front_of_parent hparent).1]
  have hstarted : before ≠ [] := by
    rintro rfl
    obtain rfl := Except.ok.inj hbefore
    rw [htree.startOf] at hnone
    cases hnone
  rcases Path.parent?_shape hparent with hdots | ⟨kept, last, hsegments, ⟨rest, hrest⟩, hkept⟩
  · have hplace := place_of_dots
      (fun dot hdot => hdots dot (hcut ▸ List.mem_append_left _ hdot)) hbefore
    rw [hplace, htree.startOf] at hnone
    cases hnone
  · rcases List.eq_nil_or_concat' after with rfl | ⟨more, final, rfl⟩
    · exact ⟨List.not_mem_nil, by simp⟩
    · rw [hcut, ← List.append_assoc] at hsegments
      obtain ⟨rfl, hfinal⟩ := List.append_inj' hsegments rfl
      obtain rfl : final = last := by simpa using hfinal
      have hcomponent : Path.innerComponent? final ≠ none :=
        hkept.resolve_left (by simp [hstarted])
      have hname : ¬ (final = "" ∨ final = ".") :=
        Path.innerComponent?_eq_none_iff.not.mp hcomponent
      rw [not_or] at hname
      rw [hcut, List.append_assoc] at hrest
      refine ⟨fun hup => ?_, ?_⟩
      · refine (hleads before _ hrest.symm place (hstart ▸ hbefore) hnone).1 ?_
        exact List.mem_append_left rest hup
      · rw [List.rdropWhile_concat, if_neg (by simpa using hname.1)]
        simpa using hname.2

theorem checkPath_parent (hparent : path.parent? = some parent)
    (hnonempty : parent.toString.isEmpty = false) (hcheck : checkPath path = .ok ()) :
    checkPath parent = .ok () := by
  obtain ⟨more, hmore⟩ := (Path.exists_toString_parent hparent).resolve_left (by simp [hnonempty])
  unfold checkPath at hcheck ⊢
  rw [hmore] at hcheck
  split at hcheck
  next => cases hcheck
  next hnul =>
    split at hcheck
    next => cases hcheck
    next =>
      split at hcheck
      next => cases hcheck
      next hshort =>
        rw [String.toList_append, List.contains_append, Bool.or_eq_true, not_or] at hnul
        rw [String.utf8ByteSize_append] at hshort
        rw [if_neg hnul.1, hnonempty, if_neg Bool.false_ne_true,
          if_neg (by omega)]

theorem reach_of_parent_refused {error : IoError} {front : List String}
    (hcheck : checkPath path = .ok ()) (hparent : path.parent? = some parent)
    (hnonempty : parent.toString.isEmpty = false)
    (hwhole : path.segments.rdropWhile (· = "") = front ++ [name])
    (hbegins : parent.segments.rdropWhile (· = "") <+: front)
    (hrefused : store.reach parent = .error error) : store.reach path = .error error := by
  have hstart : store.startOf parent = store.startOf path := by
    rw [startOf, startOf, (Path.exists_front_of_parent hparent).1]
  rw [reach_of_checked (checkPath_parent hparent hnonempty hcheck), hstart] at hrefused
  obtain ⟨more, rfl⟩ := hbegins
  rw [reach_of_checked hcheck, hwhole, List.append_assoc, tread_append]
  cases hwalk : store.tread (store.startOf path) (parent.segments.rdropWhile (· = "")) with
  | ok place => simp [hwalk] at hrefused
  | error e =>
      rw [hwalk] at hrefused
      exact hrefused

/-- Where nothing stood and directories may have been made, no file refuses a path. -/
theorem Lasts.reach_of_refused {error : IoError} (hlasts : made.Lasts path (.error error))
    (hmakes : store.OnlyMakes made) (hgrows : store.Grows made)
    (hnone : store.entryAt? (store.placeOf path) = none) : made.reach path = .error error := by
  have hattempt := hlasts.attempt
  unfold FileStore.attempt at hattempt
  cases hreach : made.reach path with
  | error e => simpa [hreach] using hattempt
  | ok place =>
      rw [hreach] at hattempt
      have hplace : place = store.placeOf path := by
        rw [(directory_of_reach hreach).1, hgrows.placeOf]
      rcases hmakes place with hsame | ⟨-, hdirectory⟩
      · rw [hplace, hnone, ← hplace] at hsame
        simp [hsame] at hattempt
      · simp [hdirectory] at hattempt

theorem IsTree.lasts_createAlong (htree : store.IsTree) {depth : Nat}
    (hdepth : path.components.length ≤ depth) (hleads : store.LeadsOn path)
    (hpath : path.toString.isEmpty = false) :
    (store.createAlong (Path.ancestorsWithin depth path)).1.Lasts path
      (store.createAlong (Path.ancestorsWithin depth path)).2 := by
  induction depth generalizing path with
  | zero =>
      have hfound : store.reach path ≠ .error (.os .notFound) := fun hmissing =>
        htree.not_dots_of_missing hpath hmissing
          (Path.dots_of_components_eq_nil (List.length_eq_zero_iff.mp (Nat.le_zero.mp hdepth)))
      rw [htree.createAlong_eq_attempt 0 hpath hfound]
      exact htree.lasts_attempt hfound
  | succ less ih =>
      by_cases hmissing : store.reach path = .error (.os .notFound)
      · obtain ⟨parent, hparent⟩ : ∃ parent, path.parent? = some parent := by
          refine Option.ne_none_iff_exists'.mp fun hnone => ?_
          exact htree.not_dots_of_missing hpath hmissing (Path.dots_of_parent?_eq_none hnone)
        obtain ⟨front, name, hwhole, htrail, hbegins, hstart, hnone⟩ :=
          hleads.of_missing htree hpath hmissing hparent
        have hevolves := htree.evolves_createAlong (Path.ancestorsWithin less parent)
        have hinnerTree := hevolves.isTree htree
        have hcheck := (reach_missing hpath hmissing).1
        cases hinner : (store.createAlong (Path.ancestorsWithin less parent)).2 with
        | ok u =>
            -- All of the parent is there now, so the path misses nothing any more.
            rw [htree.createAlong_parent hpath hmissing hparent hinner]
            refine hinnerTree.lasts_attempt fun hstill => ?_
            have hopens := htree.opens_createAlong hinner
            have hwalk := (reach_missing hpath hstill).2
            rw [hevolves.grows.startOf, hwhole] at hwalk
            exact tread_ne_notFound (fun location hmem => hopens.along location (htrail hmem))
              name hwalk
        | error error =>
            -- The parent is refused for good, and not by a file, as nothing stands there.
            have hnonempty : parent.toString.isEmpty = false := by
              by_contra hempty
              rw [createAlong_empty (by simpa using hempty)] at hinner
              cases hinner
            have hall : store.createAlong (Path.ancestorsWithin (less + 1) path) =
                store.createAlong (Path.ancestorsWithin less parent) := by
              rw [Path.ancestorsWithin, hparent]
              simp only
              rw [htree.createAlong_missing hpath hmissing]
              rcases hmade : store.createAlong (Path.ancestorsWithin less parent) with ⟨made, e | u⟩
              · rfl
              · simp [hmade] at hinner
            have hshorter : parent.components.length ≤ less := by
              rw [Path.components_parent? hparent, List.length_dropLast]
              omega
            have hlasts := ih hshorter (hleads.to_parent htree hparent) hnonempty
            rw [hinner] at hlasts
            rw [hall, hinner]
            have hrefused := hlasts.reach_of_refused (htree.onlyMakes_createAlong _)
              hevolves.grows hnone
            have hreach := reach_of_parent_refused hcheck hparent hnonempty hwhole hbegins hrefused
            refine ⟨?_, by simp [FileStore.attempt, hreach]⟩
            rw [hreach, ← hrefused]
            exact hlasts.found
      · rw [htree.createAlong_eq_attempt _ hpath hmissing]
        exact htree.lasts_attempt hmissing

theorem IsTree.lasts_of_made (htree : store.IsTree) {depth : Nat}
    (hpath : path.toString.isEmpty = false)
    (hmade : (store.createAlong (Path.ancestorsWithin depth path)).2 = .ok ()) :
    (store.createAlong (Path.ancestorsWithin depth path)).1.Lasts path
      (store.createAlong (Path.ancestorsWithin depth path)).2 := by
  rcases htree.createAlong_cases hmade with
    hempty | ⟨-, hfound⟩ | ⟨-, hmissing, less, parent, rfl, hparent, hinner⟩
  · simp [hpath] at hempty
  · rw [htree.createAlong_eq_attempt depth hpath hfound]
    exact htree.lasts_attempt hfound
  · rw [htree.createAlong_parent hpath hmissing hparent hinner] at hmade ⊢
    obtain ⟨place, hreach, -⟩ := attempt_eq_ok hmade
    exact ((htree.evolves_createAlong _).isTree htree).lasts_attempt (by simp [hreach])

/-- The directories of a path can be made, or it goes down behind what is missing. -/
def Repeatable (store : FileStore) (path : Path) : Prop :=
  (store.createDirectories path).2 = .ok () ∨ store.LeadsOn path

/-- Making the directories of a path again, whatever was added meanwhile, changes nothing
and ends in the same way. -/
theorem Repeatable.createDirectories_again (hrepeatable : store.Repeatable path)
    (htree : store.IsTree) (hgrows : (store.createDirectories path).1.Grows u) (hu : u.IsTree) :
    u.createDirectories path = (u, (store.createDirectories path).2) := by
  cases hpath : path.toString.isEmpty with
  | true =>
      rw [createDirectories, createDirectories, Path.ancestors, createAlong_empty hpath,
        createAlong_empty hpath]
  | false =>
      have hlasts :
          (store.createDirectories path).1.Lasts path (store.createDirectories path).2 := by
        rcases hrepeatable with hmade | hleads
        · exact htree.lasts_of_made hpath hmade
        · exact htree.lasts_createAlong (Nat.le_refl _) hleads hpath
      have hagain := hlasts.of_grows ((htree.evolves_createDirectories path).isTree htree) hgrows
      rw [createDirectories, Path.ancestors, hu.createAlong_eq_attempt _ hpath hagain.found]
      exact hagain.attempt

/-! ## Paths that lead on -/

theorem Grows.leadsOn (hgrows : s.Grows t) (hs : s.IsTree) (hleads : s.LeadsOn path) :
    t.LeadsOn path := by
  intro before after hcut place hbefore hnone
  rw [hgrows.startOf] at hbefore
  by_cases hmissing : s.tread (s.startOf path) before = .error .notFound
  · -- Something was missing earlier on the way, and from there on the path goes down.
    obtain ⟨first, rest, early, rfl, -, hfirst, hearly⟩ := exists_missing_of_tread hmissing
    rw [List.append_assoc] at hcut
    exact (hleads first (rest ++ after) hcut early hfirst hearly).of_append
  · rw [hgrows.tread_eq hs hmissing] at hbefore
    exact hleads before after hcut place hbefore (hgrows.missing hs hnone)

theorem LeadsOn.child (hleads : store.LeadsOn path) (hname : Path.IsName name) :
    store.LeadsOn (path.child name) := by
  obtain ⟨base, ⟨rest, hrest⟩, hsegments, habsolute⟩ := Path.child_eq path name
  intro before after hcut place hbefore hnone
  rw [startOf, habsolute, ← startOf] at hbefore
  rcases List.eq_nil_or_concat' after with rfl | ⟨more, last, rfl⟩
  · exact ⟨List.not_mem_nil, by simp⟩
  · rw [hsegments, ← List.append_assoc] at hcut
    obtain ⟨rfl, hlast⟩ := List.append_inj' hcut rfl
    obtain rfl : name = last := by simpa using hlast
    rw [List.append_assoc] at hrest
    have hdown := (hleads before (more ++ rest) hrest.symm place hbefore hnone).1
    refine ⟨?_, ?_⟩
    · rw [List.mem_append, List.mem_singleton, not_or]
      exact ⟨fun hup => hdown (List.mem_append_left rest hup), hname.2.2.symm⟩
    · rw [List.rdropWhile_concat, if_neg (by simpa using hname.1)]
      simpa using hname.2.1

theorem IsTree.open_of_isDirectory (htree : store.IsTree)
    (hdirectory : store.isDirectory path = true) :
    ∀ location ∈ store.trailOf path, store.entryAt? location = some .directory := by
  obtain ⟨place, hreach, hentry⟩ := htree.isDirectory_iff.mp hdirectory
  intro location hmem
  rcases (FileStore.directory_of_reach hreach).2 location hmem with rfl | hbetween
  · exact hentry
  · exact hbetween

theorem IsTree.leadsOn_of_isDirectory (htree : store.IsTree)
    (hdirectory : store.isDirectory path = true) : store.LeadsOn path := by
  intro before after hcut place hbefore hnone
  have hmem : place ∈ store.trailOf path := by
    rw [(FileStore.directory_of_tread hbefore).1, trailOf, hcut]
    exact trail_subset_append _ before after (end_mem_trail _ before)
  rw [htree.open_of_isDirectory hdirectory place hmem] at hnone
  cases hnone

theorem leadsOn_of_goesDown (store : FileStore) (hdown : Path.GoesDown path.segments) :
    store.LeadsOn path := fun _ _ hcut _ _ _ => (hcut ▸ hdown).of_append

end FileStore

end JackTree
