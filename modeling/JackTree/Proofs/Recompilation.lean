import JackTree.Proofs.DocumentPlacement
import JackTree.Proofs.JobInterference
import JackTree.Proofs.RepeatedJobs
import JackTree.Proofs.SearchDepth

/-!
# Recompilation

Directories and documents that were added below a directory are no sources, so a second
compilation finds what the first one found, plans the same jobs and runs them again.
`recompiling_changes_nothing` says when all of it ends as before.
-/

namespace JackTree

open FileStore

variable {store s t : FileStore} {path input source : Path} {location : Location}
  {names : List String} {name : String} {compiler : Compiler} {recursive : Bool}

/-! ## Finding files in a tree -/

namespace FileStore

theorem Named.of_mem_names (hnamed : store.Named) :
    ∀ path, ∀ name ∈ store.names path, Path.IsName name := by
  intro path name hname
  obtain ⟨location, -, hthere⟩ := mem_names_iff.mp hname
  exact hnamed _ hthere name (by simp)

theorem placeOf_below (store : FileStore) (hnames : ∀ name ∈ names, Path.IsName name) :
    store.placeOf (path.below names) = store.placeOf path ++ names := by
  rw [placeOf, Path.components_below hnames, List.foldl_append, Path.foldl_names]
  rfl

theorem IsTree.directory_above (htree : store.IsTree) {entry : Entry}
    (hentry : store.entryAt? (location ++ name :: names) = some entry) :
    store.entryAt? (location ++ [name]) ≠ none ∧ store.entryAt? location = some .directory := by
  have hnext : store.entryAt? (location ++ [name]) ≠ none := by
    intro hmissing
    have hbelow := htree.missing_below hmissing names
    rw [← List.append_cons, hentry] at hbelow
    cases hbelow
  exact ⟨hnext, by simpa using htree.inDirectory _ hnext⟩

/-! ## Sources stay as they are -/

theorem IsTree.place_of_isDirectory (htree : store.IsTree)
    (hdirectory : store.isDirectory path = true) :
    store.locate path = .ok (store.placeOf path) ∧
      store.entryAt? (store.placeOf path) = some .directory := by
  rw [isDirectory_iff_status, status_eq_ok_iff] at hdirectory
  obtain ⟨place, hlocate, hentry⟩ := hdirectory
  rw [← (htree.place_of_locate hlocate).1]
  exact ⟨hlocate, hentry⟩

theorem isDirectory_of_entry (hlocate : store.locate path = .ok location)
    (hentry : store.entryAt? location = some .directory) : store.isDirectory path = true :=
  isDirectory_iff_status.mpr (status_eq_ok_iff.mpr ⟨location, hlocate, hentry⟩)

theorem isFile_of_entry {contents : FileContents} (hlocate : store.locate path = .ok location)
    (hentry : store.entryAt? location = some (.file contents)) : store.isFile path = true := by
  have hstatus := status_eq_ok_iff.mpr ⟨location, hlocate, hentry⟩
  simp [isFile, hstatus]

theorem Grows.isDirectory (hgrows : s.Grows t) (hs : s.IsTree) (ht : t.IsTree)
    (hdirectory : s.isDirectory path = true) : t.isDirectory path = true := by
  obtain ⟨hlocate, hentry⟩ := hs.place_of_isDirectory hdirectory
  exact isDirectory_of_entry (hgrows.locate_eq_ok hs ht hlocate) (hgrows.directory _ hentry)

theorem Grows.isFile (hgrows : s.Grows t) (hs : s.IsTree) (ht : t.IsTree)
    (hfile : s.isFile path = true) : t.isFile path = true := by
  obtain ⟨contents, hlocate, hentry⟩ := Job.place_of_isFile hs hfile
  obtain ⟨other, hother⟩ := hgrows.file _ _ hentry
  exact isFile_of_entry (hgrows.locate_eq_ok hs ht hlocate) hother

theorem Grows.leadsDown (hgrows : s.Grows t) (hs : s.IsTree) (ht : t.IsTree)
    (hleads : s.view.LeadsDown path names) : t.view.LeadsDown path names := by
  induction names generalizing path with
  | nil => exact hgrows.isFile hs ht hleads
  | cons first rest ih =>
      obtain ⟨-, hdirectory, hfirst, hrest⟩ := hleads
      have hdirectoryT := hgrows.isDirectory hs ht hdirectory
      obtain ⟨location, hlocate, hthere⟩ := mem_names_iff.mp hfirst
      refine ⟨isFile_eq_false_of_isDirectory hdirectoryT, hdirectoryT, mem_names_iff.mpr ?_,
        ih hrest⟩
      exact ⟨location, hgrows.locate_eq_ok hs ht hlocate, fun hmissing =>
        hthere (hgrows.missing hs hmissing)⟩

theorem IsTree.locate_of_leadsDown (htree : store.IsTree)
    (hleads : store.view.LeadsDown path names) : store.locate path = .ok (store.placeOf path) := by
  cases names with
  | nil =>
      obtain ⟨contents, hlocate, -⟩ := Job.place_of_isFile htree hleads
      exact hlocate
  | cons first rest => exact (htree.place_of_isDirectory hleads.2.1).1

/-- Names that lead to a file of a grown store lead to it before, if it was there. -/
theorem Grows.leadsDown_before (hgrows : s.Grows t) (hs : s.IsTree) (ht : t.IsTree)
    (hnames : ∀ name ∈ names, Path.IsName name) (hdirectory : s.isDirectory path = true)
    (hleads : t.view.LeadsDown path names) {contents : FileContents}
    (hentry : s.entryAt? (s.placeOf path ++ names) = some (.file contents)) :
    s.view.LeadsDown path names := by
  induction names generalizing path with
  | nil =>
      rw [List.append_nil, (hs.place_of_isDirectory hdirectory).2] at hentry
      cases hentry
  | cons first rest ih =>
      obtain ⟨hfirst, hrest⟩ := List.forall_mem_cons.mp hnames
      obtain ⟨-, -, -, hbelow⟩ := hleads
      obtain ⟨hthere, -⟩ := hs.directory_above hentry
      have hplace : s.placeOf (path.child first) = s.placeOf path ++ [first] :=
        s.placeOf_below (List.forall_mem_singleton.mpr hfirst)
      have hlocate : s.locate (path.child first) = .ok (s.placeOf path ++ [first]) := by
        rw [← hplace, ← hgrows.placeOf, ← ht.locate_of_leadsDown hbelow]
        exact (hgrows.locate_eq hs ht
          (tread_child_ne_notFound (hs.open_of_isDirectory hdirectory) first)).symm
      refine ⟨isFile_eq_false_of_isDirectory hdirectory, hdirectory,
        mem_names_iff.mpr ⟨_, (hs.place_of_isDirectory hdirectory).1, hthere⟩, ?_⟩
      cases rest with
      | nil => exact isFile_of_entry hlocate hentry
      | cons second more =>
          rw [List.append_cons] at hentry
          obtain ⟨-, habove⟩ := hs.directory_above hentry
          exact ih hrest (isDirectory_of_entry hlocate habove) hbelow (hplace ▸ hentry)

/-- Where only directories and documents were added, a directory has the same sources. -/
theorem Extends.sources_eq (hextends : s.Extends t) (hs : s.IsTree) (hnamed : s.Named)
    (hinput : s.isDirectory input = true) :
    t.sources recursive input = s.sources recursive input := by
  have hgrows := hextends.evolves.grows
  have ht := hextends.evolves.isTree hs
  have hinputT := hgrows.isDirectory hs ht hinput
  have hnames := (hextends.named hnamed).of_mem_names
  refine Path.eq_of_pairwise_before (pairwise_sources hinputT) (pairwise_sources hinput)
    fun source => ?_
  rw [mem_sources_iff hnames (isFile_eq_false_of_isDirectory hinputT),
    mem_sources_iff hnamed.of_mem_names (isFile_eq_false_of_isDirectory hinput)]
  refine and_congr_left fun hjack => exists_congr fun names => and_congr_left ?_
  rintro ⟨-, rfl⟩
  refine ⟨fun hleads => ?_, hgrows.leadsDown hs ht⟩
  -- The last name has the extension of sources, so the file was there before.
  have hproper := hleads.forall_mem hnames
  obtain ⟨contents, -, hentry⟩ := Job.place_of_isFile ht hleads.isFile
  rw [t.placeOf_below hproper, hgrows.placeOf] at hentry
  rcases List.eq_nil_or_concat' names with rfl | ⟨rel, name, rfl⟩
  · rw [List.append_nil, hgrows.directory _ (hs.place_of_isDirectory hinput).2] at hentry
    cases hentry
  · have hlast : (input.below (rel ++ [name])).components.getLast? = some (.name name) := by
      rw [Path.components_below hproper]
      simp
    obtain ⟨stem, -, hname⟩ := Path.exists_stem_of_isJackSource hlast hjack
    have hkept := hextends.entryAt?_source
      (show (s.placeOf input ++ (rel ++ [name])).getLast? = some (stem ++ "." ++ sourceExtension)
        by simp [hname])
      (.inl (by simp [hentry]))
    exact hgrows.leadsDown_before hs ht hproper hinput hleads (hkept.symm.trans hentry)

end FileStore

/-! ## Plans stay as they are -/

theorem Plan.ofInputs_congr {survey other : Survey} (settings : JobSettings) {inputs : List Path}
    (hsources : ∀ input ∈ inputs, other.sources input = survey.sources input)
    (hroots : ∀ input ∈ inputs, other.outputRoot input = survey.outputRoot input)
    (hidentities : ∀ input ∈ inputs, ∀ source ∈ survey.sources input,
      other.identity source = survey.identity source) :
    ofInputs other settings inputs = ofInputs survey settings inputs := by
  refine List.foldl_ext _ _ _ fun plan input hinput => ?_
  unfold addInput
  rw [hsources input hinput]
  split
  next => rfl
  next =>
    refine List.foldl_ext _ _ _ fun plan source hsource => ?_
    unfold addSource
    rw [hidentities input hinput source hsource, hroots input hinput]

theorem plan_eq_of_extends (compiler : Compiler) (hextends : s.Extends t) (hs : s.IsTree)
    (hnamed : s.Named) {inputs : List Path}
    (hinputs : ∀ input ∈ inputs, s.isDirectory input = true) :
    compiler.plan t inputs = compiler.plan s inputs := by
  have hgrows := hextends.evolves.grows
  have ht := hextends.evolves.isTree hs
  refine Plan.ofInputs_congr _ (fun input hinput => ?_) (fun input hinput => ?_)
    fun input hinput source hsource => ?_
  · exact hextends.sources_eq hs hnamed (hinputs input hinput)
  · have hinputT := hgrows.isDirectory hs ht (hinputs input hinput)
    change compiler.options.outputDirectory.getD (defaultOutputDirectory t.isDirectory input) =
      compiler.options.outputDirectory.getD (defaultOutputDirectory s.isDirectory input)
    rw [defaultOutputDirectory, defaultOutputDirectory, hinputT, hinputs input hinput]
  · have hfile : s.isFile source = true := isFile_of_mem_sources hsource
    rw [compiler.identity_eq ht (hgrows.isFile hs ht hfile), compiler.identity_eq hs hfile,
      hgrows.placeOf]

/-! ## Jobs stay as they are -/

theorem FileStore.LeadsOn.below (hleads : store.LeadsOn path)
    (hnames : ∀ name ∈ names, Path.IsName name) : store.LeadsOn (path.below names) := by
  induction names generalizing path with
  | nil => exact hleads
  | cons first rest ih =>
      obtain ⟨hfirst, hrest⟩ := List.forall_mem_cons.mp hnames
      exact ih (hleads.child hfirst) hrest

theorem steady_of_planned {inputs : List Path} (hnames : store.ProperNames)
    (hinputs : ∀ input ∈ inputs, store.isDirectory input = true) {job : Job}
    (hjob : job ∈ (compiler.plan store inputs).jobs) : job.Steady store := by
  obtain ⟨input, hinput, hsource, -⟩ := Plan.exists_input_of_mem_jobs hjob
  obtain ⟨rel, stem, hlies⟩ := liesBelow_of_mem_sources hnames (hinputs input hinput) hsource
  refine ⟨isFile_of_mem_sources hsource, ⟨stem, by simp [hlies.components]⟩, fun path hpath => ?_⟩
  obtain ⟨suffix, hsuffix, rfl⟩ := List.mem_map.mp hpath
  exact ⟨_, hlies.documentPath_eq _ (Emit.slash_notMem_of_mem_suffixes hsuffix)⟩

theorem leadsOn_of_planned {inputs : List Path} (htree : store.IsTree)
    (hnames : store.ProperNames) (hinputs : ∀ input ∈ inputs, store.isDirectory input = true)
    (hdefault : compiler.options.outputDirectory = none) {job : Job}
    (hjob : job ∈ (compiler.plan store inputs).jobs) : store.LeadsOn job.outputDirectory := by
  obtain ⟨input, hinput, hsource, hequal⟩ := Plan.exists_input_of_mem_jobs hjob
  obtain ⟨rel, stem, hlies⟩ := liesBelow_of_mem_sources hnames (hinputs input hinput) hsource
  have hplaced : job.outputDirectory = (input.child outputDirectoryName).below rel := by
    rw [hequal, Survey.jobFor, hlies.placedDirectory_eq]
    change (compiler.options.outputDirectory.getD
      (defaultOutputDirectory store.isDirectory input)).below rel = _
    rw [hdefault, defaultOutputDirectory, hinputs input hinput]
    rfl
  rw [hplaced]
  exact ((htree.leadsOn_of_isDirectory (hinputs input hinput)).child (by decide)).below hlies.proper

/-! ## Compiling again -/

/-- Compiling directories a second time finds the same sources, plans the same jobs, gives the
same units or errors and changes nothing, also when jobs fail.  If an output directory is
given, every job has to make its own in its turn, unless what is refused goes down behind
the first directory that is missing. -/
theorem recompiling_changes_nothing (compiler : Compiler) (inputs : List Path)
    (htree : store.IsTree) (hnames : store.ProperNames)
    (hinputs : ∀ input ∈ inputs, store.isDirectory input = true)
    (hgiven : compiler.options.outputDirectory ≠ none →
      Compiler.RepeatableInTurn store (compiler.plan store inputs).jobs) :
    let first := compiler.compile store inputs
    let second := compiler.compile first.1 inputs
    (∀ input ∈ inputs, first.1.sources compiler.options.recursive input =
      store.sources compiler.options.recursive input)
    ∧ compiler.plan first.1 inputs = compiler.plan store inputs
    ∧ second.2 = first.2 ∧ first.1.Same second.1 := by
  intro first second
  have hextends : store.Extends first.1 := Compiler.extends_runJobs htree _
  have hfirst := hextends.evolves.isTree htree
  have hplan := plan_eq_of_extends compiler hextends htree hnames.named hinputs
  have hsteady : ∀ job ∈ (compiler.plan store inputs).jobs, job.Steady store :=
    fun job hjob => steady_of_planned hnames hinputs hjob
  have hrepeatable : Compiler.RepeatableInTurn store (compiler.plan store inputs).jobs := by
    by_cases hdefault : compiler.options.outputDirectory = none
    · exact Compiler.repeatableInTurn_of_leadsOn htree fun job hjob =>
        leadsOn_of_planned htree hnames hinputs hdefault hjob
    · exact hgiven hdefault
  obtain ⟨hresults, halike⟩ := Compiler.runJobs_again htree hfirst hsteady hrepeatable
    (.refl first.1) fun job hjob => (hsteady job hjob).entryAt?_source htree hextends rfl
  refine ⟨fun input hinput => hextends.sources_eq htree hnames.named (hinputs input hinput), hplan,
    ?_, ?_, fun location => ?_⟩
  · change Compiler.collect (compiler.plan first.1 inputs).errors
      (Compiler.runJobs first.1 (compiler.plan first.1 inputs).jobs).2 = _
    rw [hplan, hresults]
    rfl
  · exact (Compiler.extends_runJobs hfirst _).evolves.grows.working
  · change (Compiler.runJobs first.1 (compiler.plan first.1 inputs).jobs).1.entryAt? location = _
    rw [hplan]
    rcases halike location with ⟨-, hsame⟩ | ⟨-, hfirstMade, hsecondMade⟩ | ⟨-, hsame⟩
    · exact hsame
    · exact hsecondMade.trans hfirstMade.symm
    · exact hsame.symm

/-- A file stands where the directory for the documents of the second source belongs. -/
def blockedDirectory : FileStore :=
  ⟨[(["src"], .directory), (["src", "Main.jack"], .file (.text "class Main \x7b \x7d")),
    (["src", "sub"], .directory),
    (["src", "sub", "Foo.jack"], .file (.text "class Foo \x7b \x7d")),
    (["src", "out"], .directory), (["src", "out", "sub"], .file (.text ""))], []⟩

theorem recompiling_meets_blocked_directory :
    let compiler := recursiveInto "src/out"
    let inputs := [Path.ofString "src"]
    let first := compiler.compile blockedDirectory inputs
    Compiler.RepeatableInTurn blockedDirectory (compiler.plan blockedDirectory inputs).jobs
    ∧ first.2.isOk = false ∧ first.1.isFile (.ofString "src/out/Main.xml") = true
    ∧ (compiler.compile first.1 inputs).2 = first.2
    ∧ first.1.Same (compiler.compile first.1 inputs).1 := by
  intro compiler inputs first
  have htree : blockedDirectory.IsTree := isTree_of_entries (by decide +kernel) (by decide +kernel)
  have hgiven : Compiler.RepeatableInTurn blockedDirectory
      (compiler.plan blockedDirectory inputs).jobs := by
    have hdown : ∀ job ∈ (compiler.plan blockedDirectory inputs).jobs,
        Path.GoesDown job.outputDirectory.segments := by decide +kernel
    exact Compiler.repeatableInTurn_of_leadsOn htree fun job hjob =>
      leadsOn_of_goesDown _ (hdown job hjob)
  have happly := recompiling_changes_nothing compiler inputs htree (by decide +kernel)
    (by decide +kernel) fun _ => hgiven
  exact ⟨hgiven, by decide +kernel, by decide +kernel, happly.2.2⟩

/-- A file has the name that an output directory goes to behind a step up. -/
def besideFile : FileStore :=
  ⟨[(["src"], .directory), (["src", "sub"], .directory),
    (["src", "sub", "Foo.jack"], .file (.text "class Foo \x7b \x7d")),
    (["f"], .file (.text ""))], []⟩

/-- A second compilation can end otherwise where an output directory has a dot behind it, as
the first one may have made the directory for another job, or goes up behind a missing
directory, as the first one has made that and meets something else next. -/
theorem recompiling_can_differ :
    let inputs := [Path.ofString "src"]
    (nestedSources.IsTree ∧ nestedSources.ProperNames ∧
      (∀ input ∈ inputs, nestedSources.isDirectory input = true) ∧
      let first := (recursiveInto "out/.").compile nestedSources inputs
      first.2.isOk = false ∧ ((recursiveInto "out/.").compile first.1 inputs).2.isOk = true)
    ∧ (besideFile.IsTree ∧ besideFile.ProperNames ∧
      (∀ input ∈ inputs, besideFile.isDirectory input = true) ∧
      let first := (recursiveInto "missing/../f").compile besideFile inputs
      ((recursiveInto "missing/../f").compile first.1 inputs).2 ≠ first.2) := by
  refine ⟨⟨isTree_of_entries (by decide +kernel) (by decide +kernel), ?_⟩,
    ⟨isTree_of_entries (by decide +kernel) (by decide +kernel), ?_⟩⟩
  · decide +kernel
  · refine ⟨by decide +kernel, by decide +kernel, fun hsame => ?_⟩
    exact absurd
      (congrArg (fun result => (Compiler.reported result).map CompileError.message) hsame)
      (by decide +kernel)

end JackTree
