import JackTree.Job

/-!
# Effects of jobs

A job first finds out whether its source can be compiled.  If it can, the job makes its
output directory and writes its documents, one effect after another up to the first one
that is refused.  Both halves are described here apart from the code that runs a job.
-/

namespace JackTree

variable {σ : Type} {perform : σ → Effect → σ × Except IoError Unit}

/-! ## What a source gives -/

namespace Job

variable {job : Job} {reading : Except IoError String} {writes : List Effect}

/-- A source can not be compiled: it can not be read, or not be lexed, or its tree is
wanted and it can not be parsed. -/
inductive Faulty (job : Job) (reading : Except IoError String) : CompileError → Prop
  | unread {error : IoError} (hread : reading = .error error) :
      Faulty job reading (.io error job.source)
  | unlexed {text : String} {error : SyntaxError} (hread : reading = .ok text)
      (hlex : lexSource text job.settings.lexer = .error error) :
      Faulty job reading (.parse error job.source)
  | unparsed {text : String} {stream : TokenStream} {error : SyntaxError}
      (hread : reading = .ok text) (hlex : lexSource text job.settings.lexer = .ok stream)
      (hwants : job.settings.emit.wantsTree = true) (hparse : stream.parseClass = .error error) :
      Faulty job reading (.parse error job.source)

def listingOf (job : Job) (stream : TokenStream) : Effect :=
  .write (documentPath job.source job.outputDirectory listingSuffix documentExtension)
    ((Markup.tokenListing stream.tokens).render job.settings.render)

def treeOf (job : Job) (node : Node Token) : Effect :=
  .write (documentPath job.source job.outputDirectory "" documentExtension)
    ((Markup.ofNode node).render job.settings.render)

/-- The documents that a source gives. -/
inductive Gives (job : Job) (reading : Except IoError String) : List Effect → Prop
  | tokens {text : String} {stream : TokenStream} (hemit : job.settings.emit = .tokens)
      (hread : reading = .ok text) (hlex : lexSource text job.settings.lexer = .ok stream) :
      Gives job reading [job.listingOf stream]
  | tree {text : String} {stream : TokenStream} {node : Node Token}
      (hemit : job.settings.emit = .tree) (hread : reading = .ok text)
      (hlex : lexSource text job.settings.lexer = .ok stream)
      (hparse : stream.parseClass = .ok node) : Gives job reading [job.treeOf node]
  | both {text : String} {stream : TokenStream} {node : Node Token}
      (hemit : job.settings.emit = .both) (hread : reading = .ok text)
      (hlex : lexSource text job.settings.lexer = .ok stream)
      (hparse : stream.parseClass = .ok node) :
      Gives job reading [job.listingOf stream, job.treeOf node]

theorem Gives.map_document? (hgives : job.Gives reading writes) :
    writes.map Effect.document? = job.outputs.map some := by
  cases hgives with
  | tokens hemit => rw [outputs, hemit]; rfl
  | tree hemit => rw [outputs, hemit]; rfl
  | both hemit => rw [outputs, hemit]; rfl

theorem Gives.filterMap_document? (hgives : job.Gives reading writes) :
    writes.filterMap Effect.document? = job.outputs := by
  have hmap := congrArg (List.filterMap id) hgives.map_document?
  simpa [List.filterMap_map] using hmap

theorem Gives.exists_of_mem (hgives : job.Gives reading writes) {effect : Effect}
    (hmem : effect ∈ writes) :
    ∃ path text, effect = .write path text ∧ path ∈ job.outputs := by
  have hdocument : effect.document? ∈ job.outputs.map some :=
    hgives.map_document? ▸ List.mem_map_of_mem hmem
  rcases List.mem_map.mp hdocument with ⟨path, hpath, hsome⟩
  cases effect with
  | createDirectories directory => cases hsome
  | write other text => exact ⟨other, text, rfl, Option.some.inj hsome ▸ hpath⟩

theorem Faulty.source? {error : CompileError} (hfaulty : job.Faulty reading error) :
    error.source? = some job.source := by
  cases hfaulty <;> rfl

theorem Faulty.effects_eq {error : CompileError} (hfaulty : job.Faulty reading error) :
    job.effects reading = .error error := by
  cases hfaulty with
  | unread hread => rw [hread]; rfl
  | unlexed hread hlex => simp [effects, hread, hlex, Except.bind, bind]
  | unparsed hread hlex hwants hparse =>
      simp [effects, documents, hread, hlex, hwants, hparse, Except.bind, bind]

theorem Gives.effects_eq (hgives : job.Gives reading writes) :
    job.effects reading = .ok (.createDirectories job.outputDirectory :: writes) := by
  cases hgives with
  | tokens hemit hread hlex =>
      simp [effects, documents, hread, hlex, hemit, Emit.wantsTokens, Emit.wantsTree,
        Except.bind, bind, pure, Except.pure, output, listingOf]
  | tree hemit hread hlex hparse =>
      simp [effects, documents, hread, hlex, hemit, hparse, Emit.wantsTokens, Emit.wantsTree,
        Except.bind, bind, pure, Except.pure, output, treeOf]
  | both hemit hread hlex hparse =>
      simp [effects, documents, hread, hlex, hemit, hparse, Emit.wantsTokens, Emit.wantsTree,
        Except.bind, bind, pure, Except.pure, output, listingOf, treeOf]

theorem faulty_or_gives (job : Job) (reading : Except IoError String) :
    (∃ error, job.Faulty reading error) ∨ ∃ writes, job.Gives reading writes := by
  cases hread : reading with
  | error error => exact .inl ⟨_, .unread rfl⟩
  | ok text =>
      cases hlex : lexSource text job.settings.lexer with
      | error error => exact .inl ⟨_, .unlexed rfl hlex⟩
      | ok stream =>
          cases hparse : stream.parseClass with
          | ok node =>
              refine .inr ?_
              cases hemit : job.settings.emit with
              | tokens => exact ⟨_, .tokens hemit rfl hlex⟩
              | tree => exact ⟨_, .tree hemit rfl hlex hparse⟩
              | both => exact ⟨_, .both hemit rfl hlex hparse⟩
          | error error =>
              cases hemit : job.settings.emit with
              | tokens => exact .inr ⟨_, .tokens hemit rfl hlex⟩
              | tree => exact .inl ⟨_, .unparsed rfl hlex (by rw [hemit]; rfl) hparse⟩
              | both => exact .inl ⟨_, .unparsed rfl hlex (by rw [hemit]; rfl) hparse⟩

end Job

/-! ## One effect after another -/

/-- Effects that all succeed lead from one state to another. -/
inductive Performed (perform : σ → Effect → σ × Except IoError Unit) : σ → List Effect → σ → Prop
  | nil {state : σ} : Performed perform state [] state
  | cons {state middle final : σ} {effect : Effect} {rest : List Effect}
      (hfirst : perform state effect = (middle, .ok ()))
      (hrest : Performed perform middle rest final) :
      Performed perform state (effect :: rest) final

/-- All effects succeed, or some do and the one after them is refused. -/
theorem performAll_cases (perform : σ → Effect → σ × Except IoError Unit) (state : σ)
    (effects : List Effect) :
    (∃ final, Performed perform state effects final ∧
      performAll perform state effects = (final, effects, .ok ()))
    ∨ ∃ done effect rest middle final error, effects = done ++ effect :: rest ∧
        Performed perform state done middle ∧ perform middle effect = (final, .error error) ∧
        performAll perform state effects = (final, done ++ [effect], .error error) := by
  induction effects generalizing state with
  | nil => exact .inl ⟨state, .nil, rfl⟩
  | cons effect rest ih =>
      rcases hfirst : perform state effect with ⟨middle, error | u⟩
      · refine .inr ⟨[], effect, rest, state, middle, error, rfl, .nil, hfirst, ?_⟩
        simp only [performAll, hfirst, List.nil_append]
      · rcases ih middle with ⟨final, hrest, hall⟩ |
          ⟨done, refused, later, before, final, error, hsplit, hdone, hrefused, hall⟩
        · refine .inl ⟨final, .cons hfirst hrest, ?_⟩
          simp only [performAll, hfirst, hall]
        · refine .inr ⟨effect :: done, refused, later, before, final, error, by rw [hsplit]; rfl,
            .cons hfirst hdone, hrefused, ?_⟩
          simp only [performAll, hfirst, hall, List.cons_append]

end JackTree
