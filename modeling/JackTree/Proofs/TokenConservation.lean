import JackTree.Frontend
import JackTree.Proofs.ProductionReading

/-!
# Conservation of tokens

No parse loses, repeats, reorders or invents a token: the leaves of a node are
the tokens between the position where its rule was entered and the position
where it was left.  A class moreover reads to the end of its stream, since the
loop over its subroutines only ends before the last token.  The two documents
of a source text therefore show the same tokens.
-/

namespace JackTree

/-! ## Leaves of readings -/

theorem Repeats.eq_leaves_append {guard : Guard} {body : Reading}
    (hbody : ∀ tokens forest rest, body tokens forest rest → tokens = forest.leaves ++ rest)
    {tokens rest : List Token} {forest : Forest Token}
    (hrepeats : Repeats guard body tokens forest rest) :
    tokens = forest.leaves ++ rest := by
  induction hrepeats with
  | stop _ => rfl
  | again _ hfirst _ ih =>
      have hhead := hbody _ _ _ hfirst
      rw [hhead, ih, Forest.leaves_append, List.append_assoc]

theorem Repeats.holds_eq_false {guard : Guard} {body : Reading} {tokens rest : List Token}
    {forest : Forest Token} (hrepeats : Repeats guard body tokens forest rest) :
    guard.holds rest = false := by
  induction hrepeats with
  | stop hguard => exact hguard
  | again _ _ _ ih => exact ih

theorem Production.Reads.eq_leaves_append {below : Rule → Reading}
    (hbelow : ∀ r tokens children rest,
      below r tokens children rest → tokens = children.leaves ++ rest)
    {production : Production} {tokens rest : List Token} {forest : Forest Token}
    (hreads : production.Reads below tokens forest rest) :
    tokens = forest.leaves ++ rest := by
  induction production generalizing tokens forest rest with
  | done =>
      obtain ⟨rfl, rfl⟩ := hreads
      rfl
  | word lexeme after ih =>
      obtain ⟨token, tail, behind, rfl, _, hafter, rfl⟩ := hreads
      rw [Forest.leaves, List.cons_append, ← ih hafter]
  | any after ih =>
      obtain ⟨token, tail, behind, rfl, hafter, rfl⟩ := hreads
      rw [Forest.leaves, List.cons_append, ← ih hafter]
  | rule r after ih =>
      obtain ⟨children, middle, behind, hchildren, hafter, rfl⟩ := hreads
      rw [Forest.leaves, List.append_assoc, ← ih hafter]
      exact hbelow _ _ _ _ hchildren
  | statement after ih =>
      obtain ⟨r, children, middle, behind, _, hchildren, hafter, rfl⟩ := hreads
      rw [Forest.leaves, List.append_assoc, ← ih hafter]
      exact hbelow _ _ _ _ hchildren
  | optional guard body after ihbody ihafter =>
      unfold Production.Reads at hreads
      split at hreads
      next =>
        obtain ⟨left, middle, right, hbody, hafter, rfl⟩ := hreads
        rw [Forest.leaves_append, List.append_assoc, ← ihafter hafter]
        exact ihbody hbody
      next => exact ihafter hreads
  | repeated guard body after ihbody ihafter =>
      obtain ⟨left, middle, right, hbody, hafter, rfl⟩ := hreads
      rw [Forest.leaves_append, List.append_assoc, ← ihafter hafter]
      exact hbody.eq_leaves_append fun _ _ _ => ihbody
  | choice guard yes no ihyes ihno =>
      unfold Production.Reads at hreads
      split at hreads
      next => exact ihyes hreads
      next => exact ihno hreads

theorem Rule.Parses.eq_leaves_append {r : Rule} {tokens rest : List Token}
    {children : Forest Token} (hparse : r.Parses tokens children rest) :
    tokens = children.leaves ++ rest :=
  Rule.below_of_parses (fun _ tokens children rest => tokens = children.leaves ++ rest)
    (fun _ _ _ _ hreads => hreads.eq_leaves_append fun _ _ _ _ hbelow => hbelow) hparse

/-- A class leaves no token, and the last token it reads is its closing brace. -/
theorem Rule.Parses.classDec_reads_all {tokens rest : List Token} {children : Forest Token}
    (hparse : Rule.classDec.Parses tokens children rest) :
    rest = [] ∧ ∃ last, tokens.getLast? = some last ∧ last.lexeme = closeBrace := by
  have hconserve : ∀ (r : Rule) (tokens : List Token) (children : Forest Token)
      (rest : List Token), r.Parses tokens children rest → tokens = children.leaves ++ rest :=
    fun _ _ _ _ hchildren => hchildren.eq_leaves_append
  have hreads := Rule.parses_iff_reads.mp hparse
  obtain ⟨_, _, _, rfl, _, ⟨_, _, _, rfl, ⟨_, fields, _, rfl, _,
    ⟨_, subroutines, _, hfields, ⟨_, middle, _, hsubroutines, ⟨brace, tail, _, rfl, hbrace,
      ⟨_, rfl⟩, _⟩, _⟩, _⟩, _⟩, _⟩, _⟩ := hreads
  have hlast := hsubroutines.holds_eq_false
  have hshort : rest = [] := by
    simpa [Guard.holds] using hlast
  subst hshort
  refine ⟨rfl, brace, ?_, hbrace⟩
  have hfieldTokens := hfields.eq_leaves_append fun _ _ _ hbody =>
    hbody.eq_leaves_append hconserve
  have hsubroutineTokens := hsubroutines.eq_leaves_append fun _ _ _ hbody =>
    hbody.eq_leaves_append hconserve
  rw [hfieldTokens, hsubroutineTokens]
  simp [List.getLast?_cons]

/-! ## Positions -/

namespace TokenStream

theorem remaining_leave {stream : TokenStream} {taken rest : List Token}
    (hremaining : stream.remaining = taken ++ rest) :
    (Parser.leave stream rest).position = stream.position + taken.length ∧
      (Parser.leave stream rest).remaining = rest := by
  have hlength := congrArg List.length hremaining
  simp only [remaining, List.length_drop, List.length_append] at hlength
  have hbound := stream.position_le
  have hposition : (Parser.leave stream rest).position = stream.position + taken.length := by
    simp only [Parser.leave, position_moveTo, remaining, List.length_drop]
    omega
  refine ⟨hposition, ?_⟩
  change stream.tokens.drop (Parser.leave stream rest).position = rest
  rw [hposition, ← List.drop_drop]
  change stream.remaining.drop taken.length = rest
  rw [hremaining, List.drop_left]

theorem getLast?_tokens_of_remaining {stream : TokenStream} {last : Token}
    (hlast : stream.remaining.getLast? = some last) :
    stream.tokens.getLast? = some last := by
  unfold remaining at hlast
  rw [List.getLast?_drop] at hlast
  split at hlast
  next => simp at hlast
  next => exact hlast

end TokenStream

/-- The leaves of a node are the tokens from one position of a stream to a later one. -/
def Node.Covers (node : Node Token) (before after : TokenStream) : Prop :=
  after.tokens = before.tokens ∧ before.position ≤ after.position ∧
    node.leaves = before.tokens.extract before.position after.position

namespace Parser

theorem parse_eq_ok_iff {parser later : Parser} {rule : Rule} {node : Node Token} :
    parser.parse rule = (.ok node, later) ↔
      node.rule = rule ∧ ∃ rest, rule.Parses parser.stream.remaining node.children rest ∧
        later = { parser with stream := leave parser.stream rest } := by
  unfold parse Rule.Parses
  cases houtcome : rule.parse parser.stream.remaining with
  | read children rest =>
      constructor
      · intro hparse
        simp only [Prod.mk.injEq, Except.ok.injEq] at hparse
        obtain ⟨rfl, rfl⟩ := hparse
        exact ⟨rfl, rest, rfl, rfl⟩
      · rintro ⟨rfl, _, hread, rfl⟩
        simp only [Outcome.read.injEq] at hread
        obtain ⟨rfl, rfl⟩ := hread
        rfl
  | stopped failure =>
      constructor
      · intro hparse
        simp [fail] at hparse
      · rintro ⟨_, _, hread, _⟩
        simp at hread

theorem covers_of_parse {parser later : Parser} {rule : Rule} {node : Node Token}
    (hparse : parser.parse rule = (.ok node, later)) :
    node.Covers parser.stream later.stream := by
  obtain ⟨rfl, rest, hrule, rfl⟩ := parse_eq_ok_iff.mp hparse
  have hleaves := hrule.eq_leaves_append
  have hposition := (TokenStream.remaining_leave hleaves).1
  refine ⟨rfl, ?_, ?_⟩
  · rw [hposition]
    exact Nat.le_add_right ..
  · rw [hposition, List.extract_eq_take_drop, Nat.add_sub_cancel_left]
    change node.leaves = parser.stream.remaining.take node.leaves.length
    rw [hleaves]
    exact List.take_left.symm

theorem exists_parse_of_parseStatement {parser later : Parser} {node : Node Token}
    (hparse : parser.parseStatement = (.ok node, later)) :
    ∃ rule, statementRule? parser.stream.remaining = some rule ∧
      parser.parse rule = (.ok node, later) := by
  unfold parseStatement at hparse
  split at hparse
  next rule hrule => exact ⟨rule, hrule, hparse⟩
  next => simp [fail] at hparse

end Parser

theorem TokenStream.parseClass_eq_ok_iff {stream : TokenStream} {node : Node Token} :
    stream.parseClass = .ok node ↔
      node.rule = .classDec ∧ Rule.classDec.Parses stream.remaining node.children [] := by
  have hfirst : stream.parseClass = .ok node ↔
      ∃ later, (Parser.ofStream stream).parse .classDec = (.ok node, later) := by
    unfold TokenStream.parseClass
    constructor
    · intro hparse
      exact ⟨_, Prod.ext hparse rfl⟩
    · rintro ⟨later, hparse⟩
      rw [hparse]
  rw [hfirst]
  constructor
  · rintro ⟨later, hparse⟩
    obtain ⟨hrule, rest, hclass, _⟩ := Parser.parse_eq_ok_iff.mp hparse
    obtain ⟨rfl, _⟩ := hclass.classDec_reads_all
    exact ⟨hrule, hclass⟩
  · rintro ⟨hrule, hclass⟩
    exact ⟨_, Parser.parse_eq_ok_iff.mpr ⟨hrule, [], hclass, rfl⟩⟩

/-! ## Documents -/

def Markup.leaves (markup : Markup) : List Marker :=
  markup.markers.filter Marker.isLeaf

theorem Forest.filter_isLeaf_markers (forest : Forest Token) :
    forest.markers.filter Marker.isLeaf = forest.leaves.map Marker.ofToken := by
  induction forest with
  | nil => rfl
  | leaf token rest ih =>
      rw [Forest.markers, Forest.leaves, List.map_cons, List.filter_cons_of_pos (by rfl), ih]
  | node rule children rest ihchildren ihrest =>
      simp [Forest.markers, Forest.leaves, Marker.isLeaf, ihchildren, ihrest]

theorem Markup.leaves_ofNode (node : Node Token) :
    (Markup.ofNode node).leaves = node.leaves.map Marker.ofToken := by
  simp [Markup.leaves, Markup.ofNode, Marker.isLeaf, Forest.filter_isLeaf_markers, Node.leaves]

theorem Markup.leaves_tokenListing (tokens : List Token) :
    (Markup.tokenListing tokens).leaves = tokens.map Marker.ofToken := by
  have htokens : (tokens.map Marker.ofToken).filter Marker.isLeaf =
      tokens.map Marker.ofToken := by
    apply List.filter_eq_self.mpr
    intro marker hmarker
    obtain ⟨token, _, rfl⟩ := List.mem_map.mp hmarker
    rfl
  simp [Markup.leaves, Markup.tokenListing, Marker.isLeaf, htokens]

theorem Forest.closes_markers_append (forest : Forest Token) (opened : List String)
    (behind : List Marker) :
    Markup.closes opened (forest.markers ++ behind) = Markup.closes opened behind := by
  induction forest generalizing opened behind with
  | nil => rfl
  | leaf token rest ih =>
      simp only [Forest.markers, Marker.ofToken, List.cons_append, Markup.closes]
      exact ih opened behind
  | node rule children rest ihchildren ihrest =>
      simp only [Forest.markers, List.cons_append, List.append_assoc, Markup.closes]
      rw [ihchildren]
      simp only [Markup.closes, beq_self_eq_true, Bool.true_and]
      exact ihrest opened behind

theorem Markup.isWellNested_ofNode (node : Node Token) :
    (Markup.ofNode node).isWellNested = true := by
  unfold Markup.isWellNested Markup.ofNode
  simp only [Markup.closes]
  rw [Forest.closes_markers_append]
  simp [Markup.closes]

/-! ## Conservation -/

theorem remaining_of_lexSource {text : String} {options : LexerOptions} {stream : TokenStream}
    (hlex : lexSource text options = .ok stream) : stream.remaining = stream.tokens := by
  unfold lexSource at hlex
  split at hlex
  next tokens _ =>
    simp only [Except.ok.injEq] at hlex
    rw [← hlex]
    rfl
  next => simp at hlex

/-- Whatever a successful parse reads stands below its node, once and in order.
A class reads its stream to the end, where its closing brace stands, and the
document of a tree lists the same leaves as the listing of the tokens. -/
theorem parse_conserves_tokens :
    (∀ (parser later : Parser) (rule : Rule) (node : Node Token),
      parser.parse rule = (.ok node, later) → node.Covers parser.stream later.stream) ∧
    (∀ (parser later : Parser) (node : Node Token),
      parser.parseStatement = (.ok node, later) →
        node.Covers parser.stream later.stream) ∧
    (∀ (parser later : Parser) (node : Node Token),
      parser.parse .classDec = (.ok node, later) →
        later.stream.isExhausted = true ∧
          ∃ last, parser.stream.tokens.getLast? = some last ∧ last.lexeme = closeBrace) ∧
    (∀ (stream : TokenStream) (node : Node Token), stream.parseClass = .ok node →
      node.leaves = stream.remaining ∧
        ∃ last, stream.tokens.getLast? = some last ∧ last.lexeme = closeBrace) ∧
    (∀ (text : String) (options : LexerOptions) (node : Node Token),
      parseSource text options = .ok node →
        ∃ stream, lexSource text options = .ok stream ∧
          node.leaves = stream.tokens ∧
          (∃ last, stream.tokens.getLast? = some last ∧ last.lexeme = closeBrace) ∧
          (Markup.ofNode node).leaves = stream.tokens.map Marker.ofToken ∧
          (Markup.tokenListing stream.tokens).leaves = stream.tokens.map Marker.ofToken ∧
          (Markup.ofNode node).isWellNested = true) := by
  have hstream : ∀ (stream : TokenStream) (node : Node Token), stream.parseClass = .ok node →
      node.leaves = stream.remaining ∧
        ∃ last, stream.tokens.getLast? = some last ∧ last.lexeme = closeBrace := by
    intro stream node hparse
    obtain ⟨_, hclass⟩ := TokenStream.parseClass_eq_ok_iff.mp hparse
    have hleaves : stream.remaining = node.leaves ++ [] := hclass.eq_leaves_append
    obtain ⟨_, last, hlast, hbrace⟩ := hclass.classDec_reads_all
    refine ⟨by rw [hleaves, List.append_nil], last, ?_, hbrace⟩
    exact TokenStream.getLast?_tokens_of_remaining hlast
  refine ⟨?_, ?_, ?_, hstream, ?_⟩
  · intro parser later rule node hparse
    exact Parser.covers_of_parse hparse
  · intro parser later node hparse
    obtain ⟨rule, _, hrule⟩ := Parser.exists_parse_of_parseStatement hparse
    exact Parser.covers_of_parse hrule
  · intro parser later node hparse
    obtain ⟨_, rest, hclass, rfl⟩ := Parser.parse_eq_ok_iff.mp hparse
    have hleft := (TokenStream.remaining_leave hclass.eq_leaves_append).2
    obtain ⟨rfl, last, hlast, hbrace⟩ := hclass.classDec_reads_all
    refine ⟨(TokenStream.isExhausted_iff _).mpr hleft, last, ?_, hbrace⟩
    exact TokenStream.getLast?_tokens_of_remaining hlast
  · intro text options node hparse
    cases hlex : lexSource text options with
    | error error =>
        rw [parseSource, hlex] at hparse
        simp [Except.bind] at hparse
    | ok stream =>
        rw [parseSource, hlex] at hparse
        obtain ⟨hleaves, hlast⟩ := hstream stream node hparse
        have hall : stream.remaining = stream.tokens := remaining_of_lexSource hlex
        rw [hall] at hleaves
        refine ⟨stream, rfl, hleaves, hlast, ?_, ?_, Markup.isWellNested_ofNode node⟩
        · rw [Markup.leaves_ofNode, hleaves]
        · exact Markup.leaves_tokenListing stream.tokens

/-- The text of a class without members satisfies what is asked of a source text. -/
theorem parse_conserves_tokens_of_empty_class :
    ∃ node stream, parseSource "class A \x7b \x7d" = .ok node ∧
      lexSource "class A \x7b \x7d" = .ok stream ∧
      (Markup.ofNode node).leaves = (Markup.tokenListing stream.tokens).leaves := by
  have hok : ∃ node, parseSource "class A \x7b \x7d" = .ok node := by
    cases hparse : parseSource "class A \x7b \x7d" with
    | ok node => exact ⟨node, rfl⟩
    | error error =>
        have hresult : (parseSource "class A \x7b \x7d").isOk = true := by decide +kernel
        rw [hparse] at hresult
        contradiction
  obtain ⟨node, hparse⟩ := hok
  obtain ⟨stream, hlex, _, _, htree, hlisting, _⟩ :=
    parse_conserves_tokens.2.2.2.2 _ _ node hparse
  exact ⟨node, stream, hparse, hlex, htree.trans hlisting.symm⟩

end JackTree
