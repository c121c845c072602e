import JackTree.Compiler
import JackTree.Proofs.JobFootprint

/-!
# Planned jobs

What is true of every job that a plan accepts: its source is a file, its documents are
named inside its output directory, and no other accepted job has the same source or
plans a document at the same path.
-/

namespace JackTree

variable {store : FileStore} {path : Path}

/-! ## Plain names -/

/-- No stretch of a path contains a slash. -/
def Path.IsPlain (path : Path) : Prop :=
  ∀ segment ∈ path.segments, '/' ∉ segment.toList

def FileStore.PlainNames (store : FileStore) : Prop :=
  ∀ entry ∈ store.entries, ∀ name ∈ entry.1, '/' ∉ name.toList

instance (store : FileStore) : Decidable store.PlainNames :=
  inferInstanceAs (Decidable (∀ entry ∈ store.entries, ∀ name ∈ entry.1, '/' ∉ name.toList))

namespace Path

theorem slash_notMem_cutAtSlashes (text : List Char) :
    ∀ segment ∈ cutAtSlashes text, '/' ∉ segment := by
  induction text with
  | nil => simp [cutAtSlashes]
  | cons c rest ih =>
      rw [cutAtSlashes]
      split
      next => simpa using ih
      next hc =>
        split
        next => simpa using Ne.symm hc
        next segment more hmore =>
          rw [hmore] at ih
          intro first hfirst
          rcases List.mem_cons.mp hfirst with rfl | hlater
          · simpa [Ne.symm hc] using ih segment List.mem_cons_self
          · exact ih first (List.mem_cons_of_mem _ hlater)

theorem isPlain_ofString (text : String) : (ofString text).IsPlain := by
  intro segment hmem
  rcases List.mem_map.mp hmem with ⟨letters, hletters, rfl⟩
  rw [String.toList_ofList]
  exact slash_notMem_cutAtSlashes _ letters hletters

theorem cutAtSlashes_of_slash_notMem {text : List Char} (hslash : '/' ∉ text) :
    cutAtSlashes text = [text] := by
  induction text with
  | nil => rfl
  | cons c rest ih =>
      rw [List.mem_cons, not_or] at hslash
      rw [cutAtSlashes, if_neg (Ne.symm hslash.1), ih hslash.2]

theorem ofString_of_slash_notMem {text : String} (hslash : '/' ∉ text.toList) :
    ofString text = ⟨[text]⟩ := by
  rw [ofString, cutAtSlashes_of_slash_notMem hslash, List.map_singleton, String.ofList_toList]

theorem isPlain_child (hplain : path.IsPlain) {name : String} (hname : '/' ∉ name.toList) :
    (path.child name).IsPlain := by
  rcases child_eq path name with ⟨base, hbase, hsegments, _⟩
  intro segment hmem
  rw [hsegments] at hmem
  rcases List.mem_append.mp hmem with hold | hnew
  · exact hplain segment (hbase.mem hold)
  · rwa [List.mem_singleton.mp hnew]

theorem name_mem_segments {text : String} (hname : Component.name text ∈ path.components) :
    text ∈ path.segments := by
  rcases path with ⟨_ | ⟨head, tail⟩⟩
  · cases hname
  · rw [components, List.mem_append, List.mem_filterMap] at hname
    rcases hname with hhead | ⟨segment, hsegment, hinner⟩
    · unfold headComponent? at hhead
      split at hhead
      next => split at hhead <;> simp at hhead
      next =>
        split at hhead
        next => simp at hhead
        next => split at hhead <;> simp_all
    · unfold innerComponent? at hinner
      split at hinner
      next => cases hinner
      next =>
        split at hinner
        next => simp at hinner
        next =>
          rw [← Component.name.inj (Option.some.inj hinner)]
          exact List.mem_cons_of_mem _ hsegment

theorem mem_of_mem_cutAtDot {name : List Char} {c : Char} (hmem : c ∈ (cutAtDot name).1) :
    c ∈ name := by
  unfold cutAtDot at hmem
  simp only at hmem
  split at hmem
  next => exact hmem
  next => exact hmem
  next first before hdrop =>
    have hbefore : c ∈ name.reverse.drop (name.reverse.takeWhile (· != '.')).length := by
      rw [hdrop]
      exact List.mem_cons_of_mem _ (List.mem_reverse.mp hmem)
    exact List.mem_reverse.mp (List.mem_of_mem_drop hbefore)

theorem slash_notMem_stem (hplain : path.IsPlain) : '/' ∉ (path.stem?.getD "").toList := by
  unfold stem? fileName?
  cases hlast : path.components.getLast? with
  | none => simp
  | some last =>
      cases last with
      | name text =>
          have hslash := hplain text (name_mem_segments (List.mem_of_getLast? hlast))
          intro hmem
          refine hslash (mem_of_mem_cutAtDot ?_)
          simpa using hmem
      | root => simp
      | current => simp
      | up => simp

end Path

/-! ## Sources -/

theorem FileStore.slash_notMem_names (hnames : store.PlainNames) {name : String}
    (hmem : name ∈ store.names path) : '/' ∉ name.toList := by
  unfold FileStore.names at hmem
  split at hmem
  next location _ =>
    rcases List.mem_filterMap.mp hmem with ⟨entry, hentry, hname⟩
    split at hname
    next => exact hnames entry hentry name (List.mem_of_getLast? hname)
    next => cases hname
  next => cases hmem

theorem Path.mem_of_mem_insertOrdered {first : Path} {paths : List Path}
    (hmem : path ∈ first.insertOrdered paths) : path = first ∨ path ∈ paths := by
  induction paths with
  | nil => exact .inl (List.mem_singleton.mp hmem)
  | cons next rest ih =>
      rw [insertOrdered] at hmem
      split at hmem
      next => exact List.mem_cons.mp hmem
      next => exact .inr hmem
      next =>
        rcases List.mem_cons.mp hmem with rfl | hlater
        · exact .inr List.mem_cons_self
        · exact (ih hlater).imp_right (List.mem_cons_of_mem next)

theorem Path.mem_of_mem_ordered {paths : List Path} (hmem : path ∈ Path.ordered paths) :
    path ∈ paths := by
  induction paths with
  | nil => exact hmem
  | cons first rest ih =>
      rcases mem_of_mem_insertOrdered hmem with rfl | hlater
      · exact List.mem_cons_self
      · exact List.mem_cons_of_mem _ (ih hlater)

theorem FileStore.plain_file_of_filesWithin (hnames : store.PlainNames) {depth : Nat}
    {input : Path} (hplain : input.IsPlain) (hmem : path ∈ store.view.filesWithin depth input) :
    store.isFile path = true ∧ path.IsPlain := by
  have hself : ∀ {input : Path}, input.IsPlain → store.view.isFile input = true →
      path ∈ [input] → store.isFile path = true ∧ path.IsPlain := by
    intro input hplain hfile hmem
    rw [List.mem_singleton.mp hmem]
    exact ⟨hfile, hplain⟩
  induction depth generalizing input with
  | zero =>
      rw [DirectoryView.filesWithin] at hmem
      split at hmem
      next hfile => exact hself hplain hfile hmem
      next => cases hmem
  | succ depth ih =>
      rw [DirectoryView.filesWithin] at hmem
      split at hmem
      next hfile => exact hself hplain hfile hmem
      next =>
        split at hmem
        next =>
          rcases List.mem_flatMap.mp hmem with ⟨name, hname, hbelow⟩
          exact ih (Path.isPlain_child hplain (slash_notMem_names hnames hname)) hbelow
        next => cases hmem

theorem FileStore.plain_file_of_sources (hnames : store.PlainNames) {recursive : Bool}
    {input : Path} (hplain : input.IsPlain) (hmem : path ∈ store.sources recursive input) :
    store.isFile path = true ∧ path.IsPlain := by
  unfold FileStore.sources DirectoryView.sources at hmem
  split at hmem
  next hfile =>
    rw [List.mem_singleton.mp hmem]
    exact ⟨hfile, hplain⟩
  next =>
    exact plain_file_of_filesWithin hnames hplain
      (Path.mem_of_mem_ordered (List.mem_filter.mp hmem).1)

theorem Compiler.identity_eq (compiler : Compiler) (htree : store.IsTree)
    (hfile : store.isFile path = true) :
    (compiler.survey store).identity path =
      .ofComponents (.root :: (store.placeOf path).map .name) := by
  rcases Job.place_of_isFile htree hfile with ⟨contents, hlocate, hentry⟩
  change (store.canonical? path).getD path = _
  rw [FileStore.canonical?, hlocate]
  simp only [hentry, Option.map_some, Option.getD_some]

/-! ## Documents -/

theorem Emit.slash_notMem_of_mem_suffixes {emit : Emit} {suffix : String}
    (hsuffix : suffix ∈ emit.suffixes) : '/' ∉ suffix.toList := by
  have hall : ∀ suffix ∈ [listingSuffix, ""], '/' ∉ suffix.toList := by decide
  refine hall suffix ?_
  cases emit <;> simp [Emit.suffixes, Emit.wantsTokens, Emit.wantsTree] at hsuffix
  all_goals simp [hsuffix]

/-- A document is named inside the output directory of its job. -/
theorem Job.output_eq_child {job : Job} (hplain : job.source.IsPlain)
    (hmem : path ∈ job.outputs) : ∃ name, path = job.outputDirectory.child name := by
  rcases List.mem_map.mp hmem with ⟨suffix, hsuffix, rfl⟩
  have hplainSuffix := Emit.slash_notMem_of_mem_suffixes hsuffix
  have hname : '/' ∉
      (job.source.stem?.getD "" ++ suffix ++ "." ++ documentExtension).toList := by
    have hends : '/' ∉ ".".toList ∧ '/' ∉ documentExtension.toList := by decide
    simp only [String.toList_append, List.mem_append, not_or]
    exact ⟨⟨⟨Path.slash_notMem_stem hplain, hplainSuffix⟩, hends.1⟩, hends.2⟩
  exact ⟨_, by rw [output, documentPath, Path.ofString_of_slash_notMem hname]; rfl⟩

/-! ## Plans -/

namespace Plan

variable {survey : Survey} {settings : JobSettings} {plan : Plan} {job : Job}

/-- Neither the same source nor the path of a document in common. -/
def Distinct (survey : Survey) (a b : Job) : Prop :=
  ¬ (survey.identity a.source).Same (survey.identity b.source) ∧
    ∀ path ∈ a.outputs, ∀ other ∈ b.outputs, ¬ path.Same other

/-- A plan whose jobs have sources that were met, and no source or document twice. -/
structure Sound (survey : Survey) (plan : Plan) : Prop where
  met : ∀ job ∈ plan.jobs, survey.identity job.source ∈ plan.met
  distinct : plan.jobs.Pairwise (Distinct survey)

theorem not_same_of_writer?_eq_none (hwriter : plan.writer? path = none) {other : Job}
    (hother : other ∈ plan.jobs) : ∀ document ∈ other.outputs, ¬ document.Same path := by
  intro document hmem hsame
  unfold writer? at hwriter
  rw [Option.map_eq_none_iff, List.find?_eq_none] at hwriter
  refine hwriter other hother ?_
  rw [List.any_eq_true]
  exact ⟨document, hmem, decide_eq_true hsame⟩

theorem not_same_of_conflict?_eq_none (hconflict : plan.conflict? job = none) {other : Job}
    (hother : other ∈ plan.jobs) :
    ∀ document ∈ other.outputs, ∀ output ∈ job.outputs, ¬ document.Same output := by
  intro document hdocument output houtput
  unfold conflict? at hconflict
  have hnone := List.findSome?_eq_none_iff.mp hconflict output houtput
  exact not_same_of_writer?_eq_none (Option.map_eq_none_iff.mp hnone) hother document hdocument

theorem mem_addSource {input source : Path} (hmem : job ∈ (addSource survey settings input plan
    source).jobs) : job ∈ plan.jobs ∨ job.source = source := by
  unfold addSource at hmem
  simp only at hmem
  split at hmem
  next => exact .inl hmem
  next =>
    unfold addJob at hmem
    split at hmem
    next => exact .inl hmem
    next =>
      rcases List.mem_append.mp hmem with hold | hnew
      · exact .inl hold
      · rw [List.mem_singleton.mp hnew]
        exact .inr rfl

theorem Sound.addSource (hsound : plan.Sound survey) (input source : Path) :
    (addSource survey settings input plan source).Sound survey := by
  unfold Plan.addSource
  simp only
  split
  next => exact hsound
  next hmet =>
    have hnew : ∀ other ∈ plan.jobs,
        ¬ (survey.identity other.source).Same (survey.identity source) := by
      intro other hother hsame
      refine hmet (List.any_eq_true.mpr ⟨_, hsound.met other hother, decide_eq_true hsame⟩)
    unfold addJob
    split
    next =>
      exact ⟨fun job hjob => List.mem_append_left _ (hsound.met job hjob), hsound.distinct⟩
    next hconflict =>
      refine ⟨fun job hjob => ?_, List.pairwise_append.mpr ⟨hsound.distinct, by simp, ?_⟩⟩
      · rcases List.mem_append.mp hjob with hold | hlast
        · exact List.mem_append_left _ (hsound.met job hold)
        · rw [List.mem_singleton.mp hlast]
          simp
      · intro other hother job hjob
        rw [List.mem_singleton.mp hjob]
        exact ⟨hnew other hother, not_same_of_conflict?_eq_none hconflict hother⟩

theorem Sound.addInput (hsound : plan.Sound survey) (input : Path) :
    (addInput survey settings plan input).Sound survey := by
  unfold Plan.addInput
  split
  next => exact ⟨hsound.met, hsound.distinct⟩
  next =>
    exact List.foldlRecOn _ _ hsound fun plan hplan source _ => hplan.addSource input source

/-- No two jobs of a plan have the same source or a document at the same path. -/
theorem sound_ofInputs (survey : Survey) (settings : JobSettings) (inputs : List Path) :
    (ofInputs survey settings inputs).Sound survey :=
  List.foldlRecOn _ _ ⟨by simp, .nil⟩ fun plan hplan input _ => hplan.addInput input

/-- Every job of a plan compiles a source of one of the inputs. -/
def TakenFrom (survey : Survey) (inputs : List Path) (plan : Plan) : Prop :=
  ∀ job ∈ plan.jobs, ∃ input ∈ inputs, job.source ∈ survey.sources input

theorem TakenFrom.addInput {inputs : List Path} (htaken : plan.TakenFrom survey inputs)
    {input : Path} (hinput : input ∈ inputs) :
    (addInput survey settings plan input).TakenFrom survey inputs := by
  unfold Plan.addInput
  split
  next => exact htaken
  next =>
    refine List.foldlRecOn _ _ htaken fun plan hplan source hsource job hjob => ?_
    rcases mem_addSource hjob with hold | hnew
    · exact hplan job hold
    · exact ⟨input, hinput, hnew ▸ hsource⟩

theorem takenFrom_ofInputs (survey : Survey) (settings : JobSettings) (inputs : List Path) :
    (ofInputs survey settings inputs).TakenFrom survey inputs :=
  List.foldlRecOn _ _ (fun _ hmem => absurd hmem List.not_mem_nil)
    fun _ hplan _ hinput => hplan.addInput hinput

end Plan

end JackTree
