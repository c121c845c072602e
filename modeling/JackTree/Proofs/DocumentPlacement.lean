import JackTree.Proofs.DiscoveredSources
import JackTree.Proofs.JobOutcome
import JackTree.Proofs.PlanningDecisions

/-!
# Placement of documents

Below one directory, the documents of two sources are at the same path only if the
sources lie in the same directory and their stems with the suffixes are equal.  So a
source can only be in the way of another one when both documents are wanted, and
`placement_is_injective` says which sources are refused then.
-/

namespace JackTree

variable {store : FileStore} {compiler : Compiler} {survey : Survey} {settings : JobSettings}
  {input a b source root : Path} {rel aRel bRel : List String} {stem aStem bStem suffix : String}

/-! ## Where documents go -/

namespace Path.LiesBelow

theorem placedDirectory_eq (h : source.LiesBelow input rel stem) (root : Path) :
    placedDirectory input source root = root.below rel := by
  rw [placedDirectory_of_components h.proper h.components]
  split
  next hnil => rw [hnil]; rfl
  next hne => exact join_names h.proper hne

theorem documentPath_eq (h : source.LiesBelow input rel stem) (directory : Path)
    (hsuffix : '/' ∉ suffix.toList) :
    documentPath source directory suffix documentExtension =
      directory.child (stem ++ suffix ++ "." ++ documentExtension) := by
  have hplain : '/' ∉ (stem ++ suffix ++ "." ++ documentExtension).toList := by
    have hends : '/' ∉ ".".toList ∧ '/' ∉ documentExtension.toList := by decide
    simp only [String.toList_append, List.mem_append, not_or]
    exact ⟨⟨⟨h.plain, hsuffix⟩, hends.1⟩, hends.2⟩
  rw [documentPath, h.stem?, Option.getD_some, ofString_of_slash_notMem hplain, ← child]

theorem components_document (h : source.LiesBelow input rel stem) (root : Path)
    (hsuffix : '/' ∉ suffix.toList) :
    (documentPath source (placedDirectory input source root) suffix documentExtension).components =
      root.components ++ (rel ++ [stem ++ suffix ++ "." ++ documentExtension]).map .name := by
  rw [h.documentPath_eq _ hsuffix, components_child (isName_of_extension _), h.placedDirectory_eq,
    components_below h.proper, List.map_append, List.append_assoc, List.map_singleton]

theorem same_documents_iff (ha : a.LiesBelow input aRel aStem) (hb : b.LiesBelow input bRel bStem)
    (root : Path) {aSuffix bSuffix : String} (haSuffix : '/' ∉ aSuffix.toList)
    (hbSuffix : '/' ∉ bSuffix.toList) :
    (documentPath a (placedDirectory input a root) aSuffix documentExtension).Same
        (documentPath b (placedDirectory input b root) bSuffix documentExtension) ↔
      aRel = bRel ∧ aStem ++ aSuffix = bStem ++ bSuffix := by
  rw [Same, ha.components_document root haSuffix, hb.components_document root hbSuffix,
    List.append_cancel_left_eq, map_name_injective.eq_iff, List.append_singleton_inj,
    String.append_left_inj, String.append_left_inj]

theorem same (ha : a.LiesBelow input rel stem) (hb : b.LiesBelow input rel stem) : a.Same b :=
  ha.components.trans hb.components.symm

theorem before (ha : a.LiesBelow input rel stem)
    (hb : b.LiesBelow input rel (stem ++ listingSuffix)) : a.Before b := by
  have hcomponents : ∀ {source : Path} {stem : String}, source.LiesBelow input rel stem →
      source.components =
        (input.components ++ rel.map .name) ++ [.name (stem ++ "." ++ sourceExtension)] := by
    intro source stem h
    rw [h.components, List.map_append, List.append_assoc, List.map_singleton]
  refine before_of_lt (hcomponents ha) (hcomponents hb) ?_
  rw [String.lt_iff]
  simp only [String.toList_append, List.append_assoc]
  exact List.append_left_lt (by decide)

end Path.LiesBelow

/-! ## Decisions about one input -/

namespace Survey

theorem findings_singleton (survey : Survey) (input : Path) :
    survey.findings [input] = survey.findingsOf input := by
  rw [findings, List.flatMap_singleton]

theorem findingsOf_eq_map (hne : survey.sources input ≠ []) :
    survey.findingsOf input = (survey.sources input).map (.source input) := by
  unfold findingsOf
  split
  next hnil => exact absurd hnil hne
  next => rfl

theorem eq_source_of_mem_findingsOf {other : Path}
    (hmem : .source other source ∈ survey.findingsOf input) :
    other = input ∧ source ∈ survey.sources input := by
  unfold findingsOf at hmem
  split at hmem
  next => simp at hmem
  next =>
    obtain ⟨found, hfound, hequal⟩ := List.mem_map.mp hmem
    obtain ⟨rfl, rfl⟩ := Finding.source.inj hequal
    exact ⟨rfl, hfound⟩

end Survey

theorem Decision.eq_of_finding {decision : Decision} {other : Path}
    (hfinding : decision.finding = .source input source) (hsource : decision.source? = some other) :
    other = source := by
  cases decision with
  | noSources => cases hfinding
  | passOver => cases hfinding; exact (Option.some.inj hsource).symm
  | refuse => cases hfinding; exact (Option.some.inj hsource).symm
  | accept => cases hfinding; exact (Option.some.inj hsource).symm

theorem Decides.exists_before {earlier later : List Decision} {decision : Decision} {found : Path}
    (h : Decides survey settings (survey.findings [input]) (earlier ++ decision :: later))
    (hfinding : decision.finding = .source found source) :
    ∃ before after, survey.sources input = before ++ source :: after ∧ found = input ∧
      ∀ other ∈ earlier, ∃ path ∈ before, other.finding = .source input path := by
  have hmap := h.found
  have hmem : .source found source ∈ survey.findingsOf input := by
    rw [← survey.findings_singleton, ← hmap, ← hfinding]
    simp
  obtain ⟨rfl, hsource⟩ := Survey.eq_source_of_mem_findingsOf hmem
  rw [survey.findings_singleton, Survey.findingsOf_eq_map (List.ne_nil_of_mem hsource),
    List.map_append, List.map_cons, hfinding] at hmap
  obtain ⟨before, rest, hsources, hbefore, hrest⟩ := List.map_eq_append_iff.mp hmap.symm
  obtain ⟨first, after, rfl, hfirst, -⟩ := List.map_eq_cons_iff.mp hrest
  obtain ⟨-, rfl⟩ := Finding.source.inj hfirst
  refine ⟨before, after, hsources, rfl, fun other hother => ?_⟩
  have hearlier : other.finding ∈ before.map (Finding.source found) :=
    hbefore ▸ List.mem_map_of_mem hother
  obtain ⟨path, hpath, hequal⟩ := List.mem_map.mp hearlier
  exact ⟨path, hpath, hequal.symm⟩

namespace Plan

/-- A source is refused for the document of an accepted source that comes before it. -/
theorem exists_before_of_refused {output other : Path} {found : Option Path}
    (herror : .outputConflict output other found ∈ (ofInputs survey settings [input]).errors) :
    ∃ before source after, survey.sources input = before ++ source :: after ∧ found = some source ∧
      output ∈ (survey.jobFor settings input source).outputs ∧
      ∃ earlier ∈ before,
        survey.jobFor settings input earlier ∈ (ofInputs survey settings [input]).jobs ∧
        ∃ document ∈ (survey.jobFor settings input earlier).outputs, document.Same output := by
  obtain ⟨decisions, hdecides, hreflects⟩ :=
    exists_decisions survey settings (survey.findings [input])
  rw [← ofInputs_eq] at hreflects
  rw [hreflects.errors] at herror
  obtain ⟨decision, hdecision, hconflict⟩ := List.mem_filterMap.mp herror
  obtain ⟨earlier, later, rfl⟩ := List.append_of_mem hdecision
  have hright := hdecides.right earlier decision later rfl
  cases decision with
  | noSources => cases hconflict
  | passOver => cases hconflict
  | accept => cases hconflict
  | refuse at_ source output' other' =>
      obtain ⟨rfl, rfl, rfl⟩ := CompileError.outputConflict.inj (Option.some.inj hconflict)
      obtain ⟨-, front, back, houtputs, -, job, hjob, -, document, hdocument, hsame⟩ := hright
      obtain ⟨before, after, hsources, rfl, hbefore⟩ := hdecides.exists_before rfl
      obtain ⟨accepted, haccepted, haccept⟩ := List.mem_filterMap.mp hjob
      cases accepted with
      | noSources => cases haccept
      | passOver => cases haccept
      | refuse => cases haccept
      | accept from_ first =>
          obtain rfl := Option.some.inj haccept
          obtain ⟨path, hpath, hequal⟩ := hbefore _ haccepted
          obtain ⟨rfl, rfl⟩ := Finding.source.inj hequal
          refine ⟨before, source, after, hsources, rfl, by simp [houtputs], first, hpath, ?_,
            document, hdocument, hsame⟩
          rw [hreflects.jobs]
          exact List.mem_filterMap.mpr ⟨_, List.mem_append_left _ haccepted, rfl⟩

/-- Every job of a plan is the one for a source of one of the inputs. -/
theorem exists_input_of_mem_jobs {inputs : List Path} {job : Job}
    (hjob : job ∈ (ofInputs survey settings inputs).jobs) :
    ∃ input ∈ inputs, job.source ∈ survey.sources input ∧
      job = survey.jobFor settings input job.source := by
  obtain ⟨decisions, hdecides, hreflects⟩ :=
    exists_decisions survey settings (survey.findings inputs)
  rw [ofInputs_eq, hreflects.jobs] at hjob
  obtain ⟨decision, hdecision, haccept⟩ := List.mem_filterMap.mp hjob
  cases decision with
  | noSources => cases haccept
  | passOver => cases haccept
  | refuse => cases haccept
  | accept found source =>
      obtain rfl := Option.some.inj haccept
      have hfinding : .source found source ∈ survey.findings inputs := by
        rw [← hdecides.found]
        exact List.mem_map_of_mem hdecision
      obtain ⟨input, hinput, hbelow⟩ := List.mem_flatMap.mp hfinding
      obtain ⟨rfl, hsource⟩ := Survey.eq_source_of_mem_findingsOf hbelow
      exact ⟨found, hinput, hsource, rfl⟩

theorem accepted_or_refused
    (hdiffer : (survey.sources input).Pairwise fun a b =>
      ¬ (survey.identity a).Same (survey.identity b))
    (hsource : source ∈ survey.sources input) :
    survey.jobFor settings input source ∈ (ofInputs survey settings [input]).jobs
    ∨ ∃ output other, .outputConflict output other source ∈
        (ofInputs survey settings [input]).errors := by
  obtain ⟨decisions, hdecides, hreflects⟩ :=
    exists_decisions survey settings (survey.findings [input])
  rw [← ofInputs_eq] at hreflects
  have hfinding : .source input source ∈ decisions.map Decision.finding := by
    rw [hdecides.found, survey.findings_singleton,
      Survey.findingsOf_eq_map (List.ne_nil_of_mem hsource)]
    exact List.mem_map_of_mem hsource
  obtain ⟨decision, hdecision, hequal⟩ := List.mem_map.mp hfinding
  cases decision with
  | noSources => cases hequal
  | passOver found path =>
      obtain ⟨rfl, rfl⟩ := Finding.source.inj hequal
      obtain ⟨earlier, later, rfl⟩ := List.append_of_mem hdecision
      obtain ⟨before, after, hsources, -, hbefore⟩ := hdecides.exists_before rfl
      obtain ⟨other, hother, hsame⟩ := hdecides.right earlier _ later rfl
      obtain ⟨about, habout, hsome⟩ := List.mem_filterMap.mp hother
      obtain ⟨first, hfirst, hfinding⟩ := hbefore about habout
      obtain rfl := Decision.eq_of_finding hfinding hsome
      rw [hsources] at hdiffer
      exact absurd hsame ((List.pairwise_append.mp hdiffer).2.2 other hfirst path
        List.mem_cons_self)
  | refuse found path output other =>
      obtain ⟨rfl, rfl⟩ := Finding.source.inj hequal
      refine .inr ⟨output, other, ?_⟩
      rw [hreflects.errors]
      exact List.mem_filterMap.mpr ⟨_, hdecision, rfl⟩
  | accept found path =>
      obtain ⟨rfl, rfl⟩ := Finding.source.inj hequal
      refine .inl ?_
      rw [hreflects.jobs]
      exact List.mem_filterMap.mpr ⟨_, hdecision, rfl⟩

end Plan

/-! ## Refused sources -/

theorem Emit.suffixes_cases {emit : Emit} {x y : String} (hx : x ∈ emit.suffixes)
    (hy : y ∈ emit.suffixes) :
    x = y ∨ emit = .both ∧ (x = listingSuffix ∧ y = "" ∨ x = "" ∧ y = listingSuffix) := by
  cases emit <;> simp [Emit.suffixes, Emit.wantsTokens, Emit.wantsTree] at hx hy
  case tree => exact .inl (hx.trans hy.symm)
  case tokens => exact .inl (hx.trans hy.symm)
  case both => rcases hx with rfl | rfl <;> rcases hy with rfl | rfl <;> simp

namespace Compiler

/-- A compiler plans a job for a source. -/
def Accepts (compiler : Compiler) (store : FileStore) (inputs : List Path) (source : Path) : Prop :=
  source ∈ (compiler.plan store inputs).jobs.map Job.source

/-- A compiler reports that a document of a source is already written by another one. -/
def Refuses (compiler : Compiler) (store : FileStore) (inputs : List Path) (source : Path) : Prop :=
  ∃ output other, .outputConflict output other source ∈ reported (compiler.compile store inputs).2

theorem conflict_mem_reported_iff {inputs : List Path} {output other : Path} {found : Option Path} :
    .outputConflict output other found ∈ reported (compiler.compile store inputs).2 ↔
      .outputConflict output other found ∈ (compiler.plan store inputs).errors := by
  have hresults : ∀ error ∈ errorsOf (runJobs store (compiler.plan store inputs).jobs).2,
      (∃ cause source, error = .io cause (some source))
      ∨ ∃ cause source, error = .parse cause (some source) := by
    intro error herror
    obtain ⟨result, hresult, hsome⟩ := List.mem_filterMap.mp herror
    rw [runJobs_eq_runAll] at hresult
    obtain ⟨before, job, rfl⟩ := exists_run_of_mem_runAll hresult
    cases hrun : (job.run before).2 with
    | ok unit => simp [hrun] at hsome
    | error other =>
        rw [hrun] at hsome
        obtain rfl := Option.some.inj hsome
        rcases Job.error_of_run hrun with ⟨cause, rfl⟩ | ⟨cause, rfl⟩
        · exact .inl ⟨cause, _, rfl⟩
        · exact .inr ⟨cause, _, rfl⟩
  have hplanned : ∀ error ∈ (compiler.plan store inputs).errors, error.flatten = [error] :=
    fun error herror => Plan.flatten_of_mem_errors herror
  change _ ∈ reported (collect _ _) ↔ _
  rw [reported_collect hplanned ?_, List.mem_append]
  · refine or_iff_left fun hfailed => ?_
    rcases hresults _ hfailed with ⟨_, _, hequal⟩ | ⟨_, _, hequal⟩ <;> cases hequal
  · intro error herror
    rcases hresults error herror with ⟨_, _, rfl⟩ | ⟨_, _, rfl⟩ <;> rfl

/-- Only a listing is in the way of another source, and only of one whose stem is longer
by the suffix of listings. -/
theorem exists_accepted_of_refused (hnames : store.ProperNames)
    (hinput : store.isDirectory input = true) {output other : Path} {found : Option Path}
    (herror : .outputConflict output other found ∈ (compiler.plan store [input]).errors) :
    compiler.options.settings.emit = .both ∧ ∃ source first rel stem, found = some source ∧
      source ∈ store.sources compiler.options.recursive input ∧
      source.LiesBelow input rel (stem ++ listingSuffix) ∧
      first ∈ store.sources compiler.options.recursive input ∧
      first.LiesBelow input rel stem ∧ compiler.Accepts store [input] first := by
  obtain ⟨before, source, after, hsources, hfound, houtput, first, hfirst, hjob, document,
    hdocument, hsame⟩ := Plan.exists_before_of_refused herror
  change store.sources compiler.options.recursive input = _ at hsources
  have hsorted : (store.sources compiler.options.recursive input).Pairwise Path.Before :=
    pairwise_sources hinput
  have hsource : source ∈ store.sources compiler.options.recursive input := by simp [hsources]
  have hfirst' : first ∈ store.sources compiler.options.recursive input := by
    simp [hsources, hfirst]
  rw [hsources] at hsorted
  have hbefore : first.Before source :=
    (List.pairwise_append.mp hsorted).2.2 first hfirst source List.mem_cons_self
  obtain ⟨rel, stem, hlies⟩ := liesBelow_of_mem_sources hnames hinput hsource
  obtain ⟨firstRel, firstStem, hliesFirst⟩ := liesBelow_of_mem_sources hnames hinput hfirst'
  obtain ⟨x, hx, rfl⟩ := List.mem_map.mp houtput
  obtain ⟨y, hy, rfl⟩ := List.mem_map.mp hdocument
  obtain ⟨rfl, hstems⟩ := (hliesFirst.same_documents_iff hlies _
    (Emit.slash_notMem_of_mem_suffixes hy) (Emit.slash_notMem_of_mem_suffixes hx)).mp hsame
  rcases Emit.suffixes_cases hx hy with rfl | ⟨hboth, ⟨rfl, rfl⟩ | ⟨rfl, rfl⟩⟩
  · rw [String.append_left_inj] at hstems
    exact absurd (hliesFirst.same (hstems ▸ hlies)) hbefore.not_same
  · rw [String.append_empty] at hstems
    exact absurd (hlies.before (hstems ▸ hliesFirst)) hbefore.not_before
  · rw [String.append_empty] at hstems
    exact ⟨hboth, source, first, firstRel, firstStem, hfound, hsource, hstems ▸ hlies, hfirst',
      hliesFirst, List.mem_map.mpr ⟨_, hjob, rfl⟩⟩

theorem survey_jobFor_mem {first : Path} (hfirst : compiler.Accepts store [input] first) :
    (compiler.survey store).jobFor compiler.options.settings input first ∈
      (compiler.plan store [input]).jobs := by
  obtain ⟨job, hjob, rfl⟩ := List.mem_map.mp hfirst
  obtain ⟨found, hfound, -, hequal⟩ := Plan.exists_input_of_mem_jobs hjob
  obtain rfl := List.mem_singleton.mp hfound
  exact hequal ▸ hjob

/-- With both documents wanted, a source is not accepted beside one whose listing is
called like its tree. -/
theorem not_accepts_both (hboth : compiler.options.settings.emit = .both)
    (ha : a.LiesBelow input rel stem) (hb : b.LiesBelow input rel (stem ++ listingSuffix))
    (haAccepts : compiler.Accepts store [input] a) : ¬ compiler.Accepts store [input] b := by
  intro hbAccepts
  have hdistinct := (Plan.sound_ofInputs (compiler.survey store) compiler.options.settings
    [input]).distinct
  have : Std.Symm (Plan.Distinct (compiler.survey store)) :=
    ⟨fun _ _ h => ⟨fun hsame => h.1 hsame.symm, fun x hx y hy hsame => h.2 y hy x hx hsame.symm⟩⟩
  have hapart := hdistinct.forall (survey_jobFor_mem haAccepts) (survey_jobFor_mem hbAccepts)
    fun hequal => (ha.before hb).not_same (congrArg Path.components (congrArg Job.source hequal))
  have houtput : ∀ source, ∀ suffix ∈ [listingSuffix, ""],
      ((compiler.survey store).jobFor compiler.options.settings input source).output suffix ∈
        ((compiler.survey store).jobFor compiler.options.settings input source).outputs := by
    intro source suffix hsuffix
    refine List.mem_map_of_mem ?_
    rw [Survey.jobFor, hboth]
    exact hsuffix
  have hplain : '/' ∉ listingSuffix.toList ∧ '/' ∉ "".toList := by decide
  refine hapart.2 _ (houtput a listingSuffix (by simp)) _ (houtput b "" (by simp)) ?_
  refine (ha.same_documents_iff hb _ hplain.1 hplain.2).mpr ⟨rfl, ?_⟩
  rw [String.append_empty]

def Differ (compiler : Compiler) (store : FileStore) (input : Path) : Prop :=
  (store.sources compiler.options.recursive input).Pairwise fun a b =>
    ¬ ((compiler.survey store).identity a).Same ((compiler.survey store).identity b)

theorem refuses_iff_not_accepts (hnames : store.ProperNames)
    (hinput : store.isDirectory input = true) (hdiffer : compiler.Differ store input)
    (hsource : source ∈ store.sources compiler.options.recursive input) :
    compiler.Refuses store [input] source ↔ ¬ compiler.Accepts store [input] source := by
  constructor
  · rintro ⟨output, other, herror⟩
    obtain ⟨hboth, found, first, rel, stem, hfound, -, hlies, -, hfirst, haccepts⟩ :=
      exists_accepted_of_refused hnames hinput (conflict_mem_reported_iff.mp herror)
    obtain rfl := Option.some.inj hfound
    exact not_accepts_both hboth hfirst hlies haccepts
  · intro hnot
    rcases Plan.accepted_or_refused hdiffer hsource with haccepted | ⟨output, other, herror⟩
    · exact absurd (List.mem_map.mpr ⟨_, haccepted, rfl⟩) hnot
    · exact ⟨output, other, conflict_mem_reported_iff.mpr herror⟩

theorem refuses_iff (hnames : store.ProperNames) (hinput : store.isDirectory input = true)
    (hboth : compiler.options.settings.emit = .both) (hdiffer : compiler.Differ store input)
    (hsource : source ∈ store.sources compiler.options.recursive input)
    (hlies : source.LiesBelow input rel stem) :
    compiler.Refuses store [input] source ↔
      ∃ first ∈ store.sources compiler.options.recursive input, ∃ shorter,
        first.LiesBelow input rel shorter ∧ stem = shorter ++ listingSuffix ∧
          compiler.Accepts store [input] first := by
  constructor
  · rintro ⟨output, other, herror⟩
    obtain ⟨-, found, first, rel', shorter, hfound, -, hlies', hmem, hfirst, haccepts⟩ :=
      exists_accepted_of_refused hnames hinput (conflict_mem_reported_iff.mp herror)
    obtain rfl := Option.some.inj hfound
    obtain ⟨rfl, hstem⟩ := hlies.unique hlies'
    exact ⟨first, hmem, shorter, hfirst, hstem, haccepts⟩
  · rintro ⟨first, -, shorter, hfirst, rfl, haccepts⟩
    rw [refuses_iff_not_accepts hnames hinput hdiffer hsource]
    exact not_accepts_both hboth hfirst hlies haccepts

end Compiler

/-! ## Placement below one directory -/

/-- Sources that are found under different paths in a tree are different files. -/
theorem differ_of_isTree (compiler : Compiler) (htree : store.IsTree)
    (hnames : store.ProperNames) (hinput : store.isDirectory input = true) :
    compiler.Differ store input := by
  have hidentity : ∀ {source : Path}, source ∈ store.sources compiler.options.recursive input →
      ((compiler.survey store).identity source).components =
        .root :: (store.placeOf source).map .name := by
    intro source hsource
    have hfile := isFile_of_mem_sources hsource
    obtain ⟨contents, -, hentry⟩ := Job.place_of_isFile htree hfile
    rw [compiler.identity_eq htree hfile]
    refine Path.components_ofComponents_root fun name hname => ?_
    exact (hnames.of_entry (by simp [hentry]) name hname).1
  have hsorted : (store.sources compiler.options.recursive input).Pairwise Path.Before :=
    pairwise_sources hinput
  refine hsorted.imp_of_mem fun {a b} ha hb hbefore hsame => hbefore.not_same ?_
  obtain ⟨aRel, aStem, haLies⟩ := liesBelow_of_mem_sources hnames hinput ha
  obtain ⟨bRel, bStem, hbLies⟩ := liesBelow_of_mem_sources hnames hinput hb
  have hplaces : store.placeOf a = store.placeOf b := by
    rw [Path.Same, hidentity ha, hidentity hb] at hsame
    exact Path.map_name_injective (List.cons.inj hsame).2
  exact FileStore.same_of_placeOf_eq ⟨_, _, _, haLies.components, hbLies.components⟩ hplaces

/-- A stem with the suffix of listings behind it so many times. -/
def suffixed (stem : String) : Nat → String
  | 0 => stem
  | count + 1 => suffixed stem count ++ listingSuffix

/-- Of sources whose stems go on by the suffix of listings, every second one is accepted. -/
theorem accepts_iff_even (hnames : store.ProperNames) (hinput : store.isDirectory input = true)
    (hboth : compiler.options.settings.emit = .both) (hdiffer : compiler.Differ store input)
    {chain : Nat → Path} {count : Nat}
    (hchain : ∀ index ≤ count, chain index ∈ store.sources compiler.options.recursive input ∧
      (chain index).LiesBelow input rel (suffixed stem index))
    (hfirst : ∀ first ∈ store.sources compiler.options.recursive input, ∀ shorter,
      first.LiesBelow input rel shorter → shorter ++ listingSuffix ≠ stem)
    {index : Nat} (hindex : index ≤ count) :
    compiler.Accepts store [input] (chain index) ↔ index % 2 = 0 := by
  have hrefuses : ∀ index ≤ count, compiler.Refuses store [input] (chain index) ↔
      ¬ compiler.Accepts store [input] (chain index) := fun index hindex =>
    Compiler.refuses_iff_not_accepts hnames hinput hdiffer (hchain index hindex).1
  induction index with
  | zero =>
      refine iff_of_true ?_ rfl
      by_contra hnot
      obtain ⟨hmem, hlies⟩ := hchain 0 hindex
      obtain ⟨first, hsource, shorter, hshorter, hstem, -⟩ :=
        (Compiler.refuses_iff hnames hinput hboth hdiffer hmem hlies).mp
          ((hrefuses 0 hindex).mpr hnot)
      exact hfirst first hsource shorter hshorter hstem.symm
  | succ index ih =>
      obtain ⟨hmem, hlies⟩ := hchain (index + 1) hindex
      obtain ⟨hbefore, hbeforeLies⟩ := hchain index (by omega)
      -- Only the source just before in the chain can refuse the next one.
      have hnext : compiler.Refuses store [input] (chain (index + 1)) ↔
          compiler.Accepts store [input] (chain index) := by
        rw [Compiler.refuses_iff hnames hinput hboth hdiffer hmem hlies]
        constructor
        · rintro ⟨first, hsource, shorter, hshorter, hstem, haccepts⟩
          rw [suffixed, String.append_left_inj] at hstem
          rwa [← eq_of_same_of_mem_sources hinput hsource hbefore
            (hshorter.same (hstem ▸ hbeforeLies))]
        · exact fun haccepts => ⟨_, hbefore, _, hbeforeLies, rfl, haccepts⟩
      have hstep : ¬ compiler.Accepts store [input] (chain (index + 1)) ↔ index % 2 = 0 :=
        ((hrefuses (index + 1) hindex).symm.trans hnext).trans (ih (by omega))
      rw [← not_iff_not, hstep]
      omega

/-- Documents of sources below one directory are told apart by the directory of the source
and the stem with the suffix.  So no source is refused when one document is wanted, and
when both are, one is refused exactly when its stem is that of an accepted source in the
same directory with the suffix of listings. -/
theorem placement_is_injective (compiler : Compiler) (hnames : store.ProperNames)
    (hinput : store.isDirectory input = true) :
    let sources := store.sources compiler.options.recursive input
    (∀ source ∈ sources, ∃ rel stem, source.LiesBelow input rel stem ∧
      ∀ root, ∀ suffix ∈ Emit.both.suffixes,
        (documentPath source (placedDirectory input source root) suffix
          documentExtension).components = root.components ++
            (rel ++ [stem ++ suffix ++ "." ++ documentExtension]).map .name)
    ∧ (∀ a ∈ sources, ∀ b ∈ sources, ∀ aRel aStem bRel bStem,
        a.LiesBelow input aRel aStem → b.LiesBelow input bRel bStem →
        ∀ root, ∀ x ∈ Emit.both.suffixes, ∀ y ∈ Emit.both.suffixes,
          ((documentPath a (placedDirectory input a root) x documentExtension).Same
              (documentPath b (placedDirectory input b root) y documentExtension) ↔
            aRel = bRel ∧ aStem ++ x = bStem ++ y))
    ∧ (store.IsTree → compiler.Differ store input)
    ∧ (compiler.options.settings.emit ≠ .both → ∀ output other found,
        .outputConflict output other found ∉
          Compiler.reported (compiler.compile store [input]).2)
    ∧ (compiler.options.settings.emit = .both → compiler.Differ store input →
        (∀ source ∈ sources, ∀ rel stem, source.LiesBelow input rel stem →
          (compiler.Refuses store [input] source ↔ ¬ compiler.Accepts store [input] source)
          ∧ (compiler.Refuses store [input] source ↔ ∃ first ∈ sources, ∃ shorter,
              first.LiesBelow input rel shorter ∧ stem = shorter ++ listingSuffix ∧
                compiler.Accepts store [input] first))
        ∧ ∀ rel stem (chain : Nat → Path) (count : Nat),
          (∀ index ≤ count, chain index ∈ sources ∧
            (chain index).LiesBelow input rel (suffixed stem index)) →
          (∀ first ∈ sources, ∀ shorter, first.LiesBelow input rel shorter →
            shorter ++ listingSuffix ≠ stem) →
          ∀ index ≤ count,
            (compiler.Accepts store [input] (chain index) ↔ index % 2 = 0)) := by
  intro sources
  refine ⟨fun source hsource => ?_, fun a _ b _ aRel aStem bRel bStem ha hb root x hx y hy => ?_,
    fun htree => differ_of_isTree compiler htree hnames hinput,
    fun hone output other found herror => ?_, fun hboth hdiffer => ⟨?_, ?_⟩⟩
  · obtain ⟨rel, stem, hlies⟩ := liesBelow_of_mem_sources hnames hinput hsource
    exact ⟨rel, stem, hlies, fun root suffix hsuffix =>
      hlies.components_document root (Emit.slash_notMem_of_mem_suffixes hsuffix)⟩
  · exact ha.same_documents_iff hb root (Emit.slash_notMem_of_mem_suffixes hx)
      (Emit.slash_notMem_of_mem_suffixes hy)
  · exact hone (Compiler.exists_accepted_of_refused hnames hinput
      (Compiler.conflict_mem_reported_iff.mp herror)).1
  · exact fun source hsource rel stem hlies =>
      ⟨Compiler.refuses_iff_not_accepts hnames hinput hdiffer hsource,
        Compiler.refuses_iff hnames hinput hboth hdiffer hsource hlies⟩
  · exact fun rel stem chain count hchain hfirst index hindex =>
      accepts_iff_even hnames hinput hboth hdiffer hchain hfirst hindex

/-- Three sources whose stems go on by the suffix of listings. -/
def suffixedSources : FileStore :=
  ⟨[(["src"], .directory), (["src", "X.jack"], .file (.text "class X \x7b \x7d")),
    (["src", "XT.jack"], .file (.text "class XT \x7b \x7d")),
    (["src", "XTT.jack"], .file (.text "class XTT \x7b \x7d"))], []⟩

theorem every_second_suffixed_source_is_accepted :
    let compiler : Compiler := ⟨{ settings := { emit := .both } }⟩
    let input := Path.ofString "src"
    let chain (index : Nat) := input.child (suffixed "X" index ++ "." ++ sourceExtension)
    suffixedSources.ProperNames ∧ suffixedSources.isDirectory input = true
    ∧ suffixedSources.sources false input = [chain 0, chain 1, chain 2]
    ∧ compiler.Accepts suffixedSources [input] (chain 0)
    ∧ compiler.Refuses suffixedSources [input] (chain 1)
    ∧ compiler.Accepts suffixedSources [input] (chain 2)
    ∧ ∀ output other found, .outputConflict output other found ∉
        Compiler.reported (({} : Compiler).compile suffixedSources [input]).2 := by
  intro compiler input chain
  have hnames : suffixedSources.ProperNames := by decide +kernel
  have hinput : suffixedSources.isDirectory input = true := by decide +kernel
  have htree : suffixedSources.IsTree :=
    FileStore.isTree_of_entries (by decide +kernel) (by decide +kernel)
  have hsources : suffixedSources.sources false input = [chain 0, chain 1, chain 2] := by
    decide +kernel
  have happly := placement_is_injective compiler hnames hinput
  obtain ⟨hrefuses, heven⟩ := happly.2.2.2.2 rfl (happly.2.2.1 htree)
  have hlies : ∀ index ≤ 2, (chain index).LiesBelow input [] (suffixed "X" index) := by
    intro index hindex
    obtain rfl | rfl | rfl : index = 0 ∨ index = 1 ∨ index = 2 := by omega
    all_goals exact ⟨by decide +kernel, by decide +kernel, by decide +kernel, by decide +kernel⟩
  have hchain : ∀ index ≤ 2, chain index ∈ suffixedSources.sources false input ∧
      (chain index).LiesBelow input [] (suffixed "X" index) := by
    refine fun index hindex => ⟨?_, hlies index hindex⟩
    rw [hsources]
    obtain rfl | rfl | rfl : index = 0 ∨ index = 1 ∨ index = 2 := by omega
    all_goals simp
  have haccepts := heven [] "X" chain 2 hchain fun first _ shorter _ hequal => by
    have hlast := congrArg (fun text : String => text.toList.getLast?) hequal
    simp [listingSuffix] at hlast
  refine ⟨hnames, hinput, hsources, (haccepts 0 (by omega)).mpr rfl, ?_,
    (haccepts 2 (by omega)).mpr rfl,
    (placement_is_injective {} hnames hinput).2.2.2.1 (by decide)⟩
  refine (hrefuses _ (hchain 1 (by omega)).1 [] _ (hlies 1 (by omega))).1.mpr fun hodd => ?_
  exact absurd ((haccepts 1 (by omega)).mp hodd) (by decide)

end JackTree
