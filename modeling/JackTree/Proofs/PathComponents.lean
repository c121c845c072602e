import JackTree.Proofs.PlannedJobs

/-!
# Components of paths

What joining, taking the parent and taking off a beginning do to the components of a
path.  `placedDirectory_of_components` says where the documents of a source go: as far
below the output directory as the source is below its input.
-/

namespace JackTree

/-- A stretch of a path that leads one step down. -/
def Path.IsName (text : String) : Prop :=
  text ≠ "" ∧ text ≠ "." ∧ text ≠ ".."

instance (text : String) : Decidable (Path.IsName text) :=
  inferInstanceAs (Decidable (_ ∧ _ ∧ _))

namespace Path

variable {path parent base : Path} {name head : String} {names segments : List String}

/-! ## Names -/

theorem map_name_injective : Function.Injective (List.map Component.name) :=
  List.map_injective_iff.mpr fun _ _ hequal => Component.name.inj hequal

theorem innerComponent?_of_isName (hname : IsName name) :
    innerComponent? name = some (.name name) := by
  rw [innerComponent?, if_neg (not_or.mpr ⟨hname.1, hname.2.1⟩), if_neg hname.2.2]

theorem headComponent?_of_isName (hname : IsName name) (isWhole : Bool) :
    headComponent? name isWhole = some (.name name) := by
  rw [headComponent?, if_neg hname.1, if_neg hname.2.1, if_neg hname.2.2]

theorem filterMap_innerComponent?_of_isName (hnames : ∀ name ∈ names, IsName name) :
    names.filterMap innerComponent? = names.map .name := by
  induction names with
  | nil => rfl
  | cons name rest ih =>
      rw [List.filterMap_cons, innerComponent?_of_isName (hnames name List.mem_cons_self),
        ih fun other hother => hnames other (List.mem_cons_of_mem _ hother), List.map_cons]

theorem innerComponent?_eq_none_iff :
    innerComponent? name = none ↔ name = "" ∨ name = "." := by
  unfold innerComponent?
  split
  next hstay => simp [hstay]
  next hstay => split <;> simp [hstay]

/-! ## Joining -/

/-- What some stretches say that a slash follows. -/
def componentsBefore : List String → List Component
  | [] => []
  | head :: tail => (headComponent? head false).toList ++ tail.filterMap innerComponent?

theorem components_of_trailing_slash (segments : List String) :
    (⟨segments ++ [""]⟩ : Path).components = componentsBefore segments := by
  cases segments with
  | nil => rfl
  | cons head tail =>
      rw [List.cons_append, components, componentsBefore, List.filterMap_append]
      cases tail <;> simp [innerComponent?]

theorem components_of_no_trailing_slash (hlast : segments.getLast? ≠ some "") :
    (⟨segments⟩ : Path).components = componentsBefore segments := by
  rcases segments with _ | ⟨head, _ | ⟨next, rest⟩⟩
  · rfl
  · have hhead : head ≠ "" := by simpa using hlast
    simp [components, componentsBefore, headComponent?, hhead]
  · rfl

theorem components_append_name (hname : IsName name) (rest : List String) :
    (⟨segments ++ name :: rest⟩ : Path).components =
      componentsBefore segments ++ (name :: rest).filterMap innerComponent? := by
  cases segments with
  | nil =>
      rw [List.nil_append, components, headComponent?_of_isName hname, List.filterMap_cons,
        innerComponent?_of_isName hname]
      rfl
  | cons head tail =>
      rw [List.cons_append, components, componentsBefore, List.filterMap_append]
      cases tail <;> simp

theorem components_join (hname : IsName name) (rest : List String) :
    (path.join ⟨name :: rest⟩).components =
      path.components ++ (name :: rest).filterMap innerComponent? := by
  have habsolute : ¬ (⟨name :: rest⟩ : Path).isAbsolute = true := by
    simp [isAbsolute_cons_iff, hname.1]
  rw [join, if_neg habsolute]
  split
  next hlast =>
    rw [components_append_name hname, ← components_of_trailing_slash,
      List.dropLast_append_getLast? "" hlast]
  next hlast =>
    rw [components_append_name hname, ← components_of_no_trailing_slash hlast]

theorem components_child (hname : IsName name) :
    (path.child name).components = path.components ++ [.name name] := by
  rw [child, components_join hname, List.filterMap_cons, innerComponent?_of_isName hname,
    List.filterMap_nil]

/-! ## Parents -/

theorem filterMap_of_dots {dots : List String} (hdots : ∀ dot ∈ dots, innerComponent? dot = none) :
    dots.filterMap innerComponent? = [] :=
  List.filterMap_eq_nil_iff.mpr hdots

theorem trimTail_cases (segments : List String) :
    (trimTail segments = [] ∧ ∀ dot ∈ segments, innerComponent? dot = none)
    ∨ ∃ before name dots, segments = before ++ name :: dots ∧
        trimTail segments = before ++ [name] ∧ innerComponent? name ≠ none ∧
        ∀ dot ∈ dots, innerComponent? dot = none := by
  induction segments using List.reverseRecOn with
  | nil => exact .inl ⟨rfl, by simp⟩
  | append_singleton before last ih =>
      have htrim : trimTail (before ++ [last]) =
          if (innerComponent? last).isNone then trimTail before else before ++ [last] :=
        List.rdropWhile_concat _ _ _
      by_cases hlast : innerComponent? last = none
      · rw [htrim, if_pos (by simp [hlast])]
        rcases ih with ⟨hnil, hdots⟩ | ⟨front, name, dots, rfl, hfront, hname, hdots⟩
        · refine .inl ⟨hnil, fun dot hdot => ?_⟩
          rcases List.mem_append.mp hdot with hold | hnew
          · exact hdots dot hold
          · rw [List.mem_singleton.mp hnew, hlast]
        · refine .inr ⟨front, name, dots ++ [last], by simp, hfront, hname, fun dot hdot => ?_⟩
          rcases List.mem_append.mp hdot with hold | hnew
          · exact hdots dot hold
          · rw [List.mem_singleton.mp hnew, hlast]
      · rw [htrim, if_neg (by simp [hlast])]
        exact .inr ⟨before, last, [], rfl, rfl, hlast, by simp⟩

/-- Where the last component of a path stands, and what its parent keeps of the rest. -/
inductive CutAtLast : List String → String → List String → Path → Prop
  | head {name : String} (hname : name ≠ "") {dots : List String}
      (hdots : ∀ dot ∈ dots, innerComponent? dot = none) : CutAtLast [] name dots ⟨[""]⟩
  | inner {head : String} {tail : List String} {name : String} {dots : List String}
      (hname : innerComponent? name ≠ none) (hdots : ∀ dot ∈ dots, innerComponent? dot = none) :
      CutAtLast (head :: tail) name dots
        (if trimTail tail = [] then ⟨if head = "" then ["", ""] else [head]⟩
          else ⟨head :: trimTail tail⟩)

theorem exists_cutAtLast (hparent : path.parent? = some parent) :
    ∃ front name dots, path.segments = front ++ name :: dots ∧
      CutAtLast front name dots parent := by
  rcases path with ⟨_ | ⟨head, tail⟩⟩
  · cases hparent
  · unfold parent? at hparent
    simp only at hparent
    rcases trimTail_cases tail with
      ⟨htrim, hdots⟩ | ⟨before, name, dots, htail, htrim, hname, hdots⟩
    · rw [htrim] at hparent
      simp only at hparent
      split at hparent
      next => cases hparent
      next => cases hparent
      next component hroot hhead =>
        refine ⟨[], head, tail, rfl, ?_⟩
        rw [← Option.some.inj hparent]
        refine .head ?_ hdots
        rintro rfl
        cases hempty : tail.isEmpty <;> simp [headComponent?, hempty] at hhead
        exact hroot hhead.symm
    · refine ⟨head :: before, name, dots, by rw [htail, List.cons_append], ?_⟩
      have hcut : CutAtLast (head :: before) name dots _ := .inner hname hdots
      rw [htrim] at hparent
      split at hparent
      next hnil => simp at hnil
      next last more hmore =>
        rw [← hmore, List.dropLast_concat] at hparent
        split at hparent
        next hnil => rwa [if_pos hnil, Option.some.inj hparent] at hcut
        next kept hkept => rwa [if_neg hkept, Option.some.inj hparent] at hcut

theorem filterMap_trimTail (segments : List String) :
    (trimTail segments).filterMap innerComponent? = segments.filterMap innerComponent? := by
  rcases trimTail_cases segments with ⟨htrim, hdots⟩ | ⟨before, name, dots, hall, htrim, _, hdots⟩
  · rw [htrim, filterMap_of_dots hdots, List.filterMap_nil]
  · rw [htrim]
    conv_rhs => rw [hall, List.append_cons, List.filterMap_append, filterMap_of_dots hdots,
      List.append_nil]

theorem componentsBefore_trimmed (head : String) (tail : List String) :
    (if trimTail tail = [] then (⟨if head = "" then ["", ""] else [head]⟩ : Path)
      else ⟨head :: trimTail tail⟩).components = componentsBefore (head :: tail) := by
  rw [componentsBefore, ← filterMap_trimTail tail]
  split
  next hnil =>
    rw [hnil]
    by_cases hhead : head = ""
    · simp [hhead, components, innerComponent?]
    · simp [hhead, components, headComponent?]
  next hkept =>
    have hempty : (trimTail tail).isEmpty = false := by simpa using hkept
    rw [components, hempty]

/-- The parent of a path says everything but its last component. -/
theorem components_parent? (hparent : path.parent? = some parent) :
    parent.components = path.components.dropLast := by
  rcases exists_cutAtLast hparent with ⟨front, name, dots, hsegments, hcut⟩
  rcases path with ⟨segments⟩
  simp only at hsegments
  subst hsegments
  cases hcut with
  | head hname hdots =>
      have hall :
          (⟨name :: dots⟩ : Path).components = (headComponent? name dots.isEmpty).toList := by
        rw [components, filterMap_of_dots hdots, List.append_nil]
      rw [List.nil_append, hall]
      cases headComponent? name dots.isEmpty <;> rfl
  | @inner head tail _ _ hname hdots =>
      rcases Option.ne_none_iff_exists'.mp hname with ⟨component, hcomponent⟩
      have hall : (⟨head :: tail ++ name :: dots⟩ : Path).components =
          componentsBefore (head :: tail) ++ [component] := by
        have hempty : (tail ++ name :: dots).isEmpty = false := by cases tail <;> rfl
        rw [List.cons_append, components, hempty, List.filterMap_append, List.filterMap_cons,
          hcomponent, filterMap_of_dots hdots, ← List.append_assoc, componentsBefore]
      rw [componentsBefore_trimmed, hall, List.dropLast_concat]

theorem exists_parent? (hlast : path.components.getLast? = some (.name name)) :
    ∃ parent, path.parent? = some parent := by
  rcases path with ⟨_ | ⟨head, tail⟩⟩
  · cases hlast
  · unfold parent?
    simp only
    split
    next htrim =>
      have hcomponents : components ⟨head :: tail⟩ = (headComponent? head tail.isEmpty).toList := by
        rw [components, ← filterMap_trimTail, htrim, List.filterMap_nil, List.append_nil]
      rw [hcomponents] at hlast
      cases hhead : headComponent? head tail.isEmpty with
      | none => simp [hhead] at hlast
      | some component =>
          rw [hhead] at hlast
          rw [show component = .name name by simpa using hlast]
          exact ⟨_, rfl⟩
    next => split <;> exact ⟨_, rfl⟩

/-! ## Going on below a path -/

theorem ofComponents_names (hne : names ≠ []) : ofComponents (names.map .name) = ⟨names⟩ := by
  rcases names with _ | ⟨first, rest⟩
  · exact absurd rfl hne
  · simp [ofComponents, Function.comp_def]

theorem components_ofComponents_root (hnames : ∀ name ∈ names, IsName name) :
    (ofComponents (.root :: names.map .name)).components = .root :: names.map .name := by
  rcases names with _ | ⟨first, rest⟩
  · rfl
  · have hpath : ofComponents (.root :: (first :: rest).map .name) = ⟨"" :: first :: rest⟩ := by
      simp [ofComponents, Function.comp_def]
    rw [hpath, components, filterMap_innerComponent?_of_isName hnames]
    rfl

theorem stripPrefix?_of_components
    (hcomponents : path.components = base.components ++ names.map .name) :
    path.stripPrefix? base = some (ofComponents (names.map .name)) := by
  have hbegins : base.components.isPrefixOf path.components = true := by
    rw [List.isPrefixOf_iff_prefix, hcomponents]
    exact List.prefix_append _ _
  rw [stripPrefix?, if_pos hbegins, hcomponents, List.drop_left]

theorem isEmpty_toString (hnames : ∀ name ∈ names, IsName name) (hne : names ≠ []) :
    (⟨names⟩ : Path).toString.isEmpty = false := by
  rcases names with _ | ⟨first, rest⟩
  · exact absurd rfl hne
  · rw [Bool.eq_false_iff]
    intro hempty
    rcases FileStore.segments_of_isEmpty hempty with hsegments | hsegments
    · cases hsegments
    · exact (hnames first List.mem_cons_self).1 (List.cons.inj hsegments).1

end Path

/-- The documents of a source go as far below the root as the source is below its input. -/
theorem placedDirectory_of_components {input source root : Path} {names : List String}
    {name : String} (hnames : ∀ name ∈ names, Path.IsName name)
    (hcomponents : source.components = input.components ++ (names ++ [name]).map .name) :
    placedDirectory input source root = if names = [] then root else root.join ⟨names⟩ := by
  rw [List.map_append, ← List.append_assoc] at hcomponents
  rcases @Path.exists_parent? source name (by simp [hcomponents]) with
    ⟨parent, hparent⟩
  have hbelow : parent.components = input.components ++ names.map .name := by
    rw [Path.components_parent? hparent, hcomponents, List.map_singleton, List.dropLast_concat]
  rw [placedDirectory, hparent, Option.bind_some, Path.stripPrefix?_of_components hbelow]
  by_cases hne : names = []
  · rw [if_pos hne, hne]
    rfl
  · simp only [Path.ofComponents_names hne, if_neg hne, Path.isEmpty_toString hnames hne,
      Bool.false_eq_true, if_false]

/-! ## Documents -/

theorem Path.isName_of_extension (text : String) : IsName (text ++ "." ++ documentExtension) := by
  have hlong : 3 < (text ++ "." ++ documentExtension).length := by
    have hends : ".".length = 1 ∧ documentExtension.length = 3 := by decide
    rw [String.length_append, String.length_append]
    omega
  refine ⟨?_, ?_, ?_⟩
  all_goals
    intro hequal
    rw [hequal] at hlong
    exact absurd hlong (by decide)

theorem Path.getLast?_components_join {path : Path} {front : List String} {name : String}
    (hname : IsName name) :
    (path.join ⟨front ++ [name]⟩).components.getLast? = some (.name name) := by
  have hlast : ∀ segments : List String,
      (⟨segments ++ [name]⟩ : Path).components.getLast? = some (.name name) := by
    intro segments
    rw [components_append_name hname, List.filterMap_cons, innerComponent?_of_isName hname]
    simp
  rw [join]
  split
  next => exact hlast front
  next =>
    split
    next => rw [← List.append_assoc, hlast]
    next => rw [← List.append_assoc, hlast]

theorem Path.exists_cutAtSlashes_append (text : List Char) :
    ∃ front last, ∀ more, '/' ∉ more → cutAtSlashes (text ++ more) = front ++ [last ++ more] := by
  induction text with
  | nil => exact ⟨[], [], fun more hmore => cutAtSlashes_of_slash_notMem hmore⟩
  | cons c rest ih =>
      rcases ih with ⟨front, last, hcut⟩
      by_cases hslash : c = '/'
      · refine ⟨[] :: front, last, fun more hmore => ?_⟩
        rw [List.cons_append, cutAtSlashes, if_pos hslash, hcut more hmore, List.cons_append]
      · cases front with
        | nil =>
            refine ⟨[], c :: last, fun more hmore => ?_⟩
            rw [List.cons_append, cutAtSlashes, if_neg hslash, hcut more hmore]
            rfl
        | cons first front =>
            refine ⟨(c :: first) :: front, last, fun more hmore => ?_⟩
            rw [List.cons_append, cutAtSlashes, if_neg hslash, hcut more hmore]
            rfl

/-- The name of a document ends in its suffix and its extension, whatever the source. -/
theorem exists_name_of_document (source directory : Path) :
    ∃ stem : String, ∀ suffix : String, '/' ∉ suffix.toList →
      (documentPath source directory suffix documentExtension).components.getLast? =
        some (.name (stem ++ suffix ++ "." ++ documentExtension)) := by
  rcases Path.exists_cutAtSlashes_append (source.stem?.getD "").toList with ⟨front, last, hcut⟩
  refine ⟨String.ofList last, fun suffix hsuffix => ?_⟩
  have hmore : '/' ∉ suffix.toList ++ ".".toList ++ documentExtension.toList := by
    have hends : '/' ∉ ".".toList ∧ '/' ∉ documentExtension.toList := by decide
    simp only [List.mem_append, not_or]
    exact ⟨⟨hsuffix, hends.1⟩, hends.2⟩
  have hsegments : Path.ofString (source.stem?.getD "" ++ suffix ++ "." ++ documentExtension) =
      ⟨front.map String.ofList ++
        [String.ofList last ++ suffix ++ "." ++ documentExtension]⟩ := by
    rw [Path.ofString]
    simp only [String.toList_append, List.append_assoc] at hcut hmore ⊢
    rw [hcut _ hmore, List.map_append, List.map_singleton, String.ofList_append,
      String.ofList_append, String.ofList_append]
    simp only [String.ofList_toList, String.append_assoc]
  rw [documentPath, hsegments, Path.getLast?_components_join (Path.isName_of_extension _)]

/-- Two paths that end in different names. -/
def Path.NamedApart (a b : Path) : Prop :=
  ∃ aName bName, aName ≠ bName ∧ a.components.getLast? = some (.name aName) ∧
    b.components.getLast? = some (.name bName)

theorem Path.NamedApart.not_same {a b : Path} (h : a.NamedApart b) : ¬ a.Same b := by
  obtain ⟨aName, bName, hne, ha, hb⟩ := h
  intro hsame
  rw [hsame, hb] at ha
  exact hne (Component.name.inj (Option.some.inj ha)).symm

theorem Path.NamedApart.placeOf_ne {a b : Path} (h : a.NamedApart b) (store : FileStore) :
    store.placeOf a ≠ store.placeOf b := by
  obtain ⟨aName, bName, hne, ha, hb⟩ := h
  intro hplace
  have hlast := store.getLast?_placeOf ha
  rw [hplace, store.getLast?_placeOf hb] at hlast
  exact hne (Option.some.inj hlast).symm

theorem Job.outputs_named_apart (job : Job) : job.outputs.Pairwise Path.NamedApart := by
  obtain ⟨source, directory, ⟨emit, render, lexer⟩⟩ := job
  obtain ⟨stem, hname⟩ := exists_name_of_document source directory
  cases emit with
  | tree => exact List.pairwise_singleton _ _
  | tokens => exact List.pairwise_singleton _ _
  | both =>
      have hplain : '/' ∉ listingSuffix.toList ∧ '/' ∉ "".toList := by decide
      refine List.pairwise_pair.mpr ⟨_, _, fun hequal => ?_, hname _ hplain.1, hname _ hplain.2⟩
      have hlength := congrArg String.length hequal
      have hsuffix : listingSuffix.length = 1 ∧ "".length = 0 := by decide
      simp only [String.length_append] at hlength
      omega

end JackTree
