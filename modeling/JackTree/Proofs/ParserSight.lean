import JackTree.Proofs.ParserHistory

/-!
# What a parser sees

A parser knows a token by its text alone, and except for the end of a class it
looks at no token behind the next one.  `requests_see_one_token_ahead` compares two
parsers, on any streams and with any rules open: if one has read some tokens, and
the other has the same texts ahead as far as one token more, then both give the
same answer.  Where the tokens stand, what was read before, and whatever comes
after that one token makes no difference.
-/

namespace JackTree

/-! ## Streams that agree -/

/-- Streams have the same texts ahead, for a number of tokens or until both end. -/
def TokenStream.AgreeFor (count : Nat) (a b : TokenStream) : Prop :=
  (a.remaining.take count).map Token.lexeme = (b.remaining.take count).map Token.lexeme

theorem TokenStream.AgreeFor.exists_append {count : Nat} {a b : TokenStream}
    {taken rest : List Token} (hagree : AgreeFor (count + 1) a b)
    (hremaining : a.remaining = taken ++ rest) (hcount : count = taken.length) :
    ∃ taken' rest', b.remaining = taken' ++ rest' ∧
      taken.map Token.lexeme = taken'.map Token.lexeme ∧ nextLexeme rest = nextLexeme rest' := by
  rw [AgreeFor, hremaining, hcount, List.map_take, List.map_take] at hagree
  refine ⟨b.remaining.take taken.length, b.remaining.drop taken.length,
    (List.take_append_drop ..).symm, ?_, ?_⟩
  · have hfront := congrArg (List.take taken.length) hagree
    rw [List.take_take, List.take_take, Nat.min_eq_left (Nat.le_succ _)] at hfront
    rw [List.map_take, ← hfront, ← List.map_take, List.take_left]
  · have hbehind := congrArg (·[taken.length]?) hagree
    simp only [List.getElem?_take_of_lt (Nat.lt_succ_self _), List.getElem?_map] at hbehind
    rw [nextLexeme, nextLexeme, List.head?_drop, ← hbehind,
      List.getElem?_append_right (Nat.le_refl _), Nat.sub_self, ← List.head?_eq_getElem?]

/-! ## Answers that agree -/

/-- Equal trees but for the places of their tokens, or errors with the same cause
in the same rules, counted from those that were open before. -/
def ResultAlike (a b : Parser) :
    Except SyntaxError (Node Token) → Except SyntaxError (Node Token) → Prop
  | .ok node, .ok node' => node.map Token.lexeme = node'.map Token.lexeme
  | .error error, .error error' =>
    (∃ mismatch mismatch', error.cause = .mismatch mismatch ∧
      error'.cause = .mismatch mismatch' ∧ mismatch.ReadsAs mismatch') ∧
    ∃ path, error.stack = a.stack ++ path ∧ error'.stack = b.stack ++ path
  | _, _ => False

namespace Parser

variable {a b : Parser} {r : Rule}

theorem resultAlike_fail {failure failure' : Failure}
    (hmismatch : failure.mismatch.ReadsAs failure'.mismatch)
    (hpath : failure.path = failure'.path) :
    ResultAlike a b (a.fail failure).1 (b.fail failure').1 :=
  ⟨⟨_, _, rfl, rfl, hmismatch⟩, failure.path, rfl, hpath ▸ rfl⟩

theorem resultAlike_parse
    (hreads : (r.parse a.stream.remaining).ReadsAs (r.parse b.stream.remaining)) :
    ResultAlike a b (a.parse r).1 (b.parse r).1 := by
  unfold parse
  cases hparse : r.parse a.stream.remaining with
  | read children rest =>
      rw [hparse] at hreads
      rcases hreads.exists_read with ⟨children', hparse', hchildren⟩
      rw [hparse']
      exact congrArg (Node.mk r) hchildren
  | stopped failure =>
      rw [hparse] at hreads
      rcases hreads.exists_stopped with ⟨failure', hparse', hmismatch, hpath⟩
      rw [hparse']
      exact resultAlike_fail hmismatch hpath

theorem stream_parse (parser : Parser) (r : Rule) :
    (parser.parse r).2.stream = leave parser.stream (r.parse parser.stream.remaining).rest := by
  unfold parse
  cases r.parse parser.stream.remaining <;> rfl

/-- How many tokens a request reads, whether it succeeds or not. -/
def consumed (parser : Parser) (request : Request) : Nat :=
  (parser.answer request).2.stream.position - parser.stream.position

theorem consumed_of_leave {parser : Parser} {request : Request} {taken rest : List Token}
    (hremaining : parser.stream.remaining = taken ++ rest)
    (hleave : (parser.answer request).2.stream = leave parser.stream rest) :
    parser.consumed request = taken.length := by
  rw [consumed, hleave, (TokenStream.remaining_leave hremaining).1, Nat.add_sub_cancel_left]

theorem consumed_of_rule? {parser : Parser} {request : Request} {taken rest : List Token}
    (hrule : request.rule? parser.stream.remaining = some r)
    (hremaining : parser.stream.remaining = taken ++ rest)
    (hrest : (r.parse parser.stream.remaining).rest = rest) :
    parser.consumed request = taken.length := by
  apply consumed_of_leave hremaining
  rw [answer_of_rule? hrule, stream_parse, hrest]

theorem consumed_of_no_rule {parser : Parser} {request : Request}
    (hrule : request.rule? parser.stream.remaining = none) : parser.consumed request = 0 := by
  have hnothing : parser.stream.remaining = [] ++ parser.stream.remaining := rfl
  apply consumed_of_leave hnothing
  rw [answer_of_no_rule hrule, fail, Failure.rest_expecting]

end Parser

/-- Two parsers read equally many tokens for a request and give the same answer. -/
structure AnswerAlike (a b : Parser) (request : Request) : Prop where
  consumed : a.consumed request = b.consumed request
  answer : ResultAlike a b (a.answer request).1 (b.answer request).1

/-! ## One token ahead -/

namespace Request

theorem rule?_of_looksLike {isLocal : Bool} {tokens tokens' : List Token} (request : Request)
    (hlooks : LooksLike isLocal tokens tokens') : request.rule? tokens = request.rule? tokens' := by
  cases request with
  | rule r => rfl
  | statement => exact hlooks.statementRule?_eq

theorem ne_classDec_of_rule? {request : Request} {tokens : List Token} {r : Rule}
    (hrequest : request ≠ .rule .classDec) (hrule : request.rule? tokens = some r) :
    r ≠ .classDec := by
  cases request with
  | rule other =>
      rw [← Option.some.inj hrule]
      exact fun hclass => hrequest (congrArg Request.rule hclass)
  | statement => exact statementRule?_ne_classDec hrule

variable {a b : Parser} {request : Request}

/-- A request is answered alike if the texts are the same as far as its rule looks. -/
theorem answerAlike_of_rule? {r : Rule} {taken taken' rest rest' : List Token}
    (ha : a.stream.remaining = taken ++ rest) (hb : b.stream.remaining = taken' ++ rest')
    (htaken : taken.map Token.lexeme = taken'.map Token.lexeme)
    (hlooks : LooksLike r.production.isLocal rest rest')
    (hrule : request.rule? a.stream.remaining = some r)
    (hrest : (r.parse a.stream.remaining).rest = rest) : AnswerAlike a b request := by
  have hrule' : request.rule? b.stream.remaining = some r := by
    rw [hb, ← request.rule?_of_looksLike (hlooks.append htaken), ← ha]
    exact hrule
  have hread := hrest
  rw [ha] at hread
  rcases Rule.parse_alike htaken hlooks hread with ⟨hrest', hreads⟩
  rw [← hb] at hrest'
  rw [← ha, ← hb] at hreads
  constructor
  · rw [Parser.consumed_of_rule? hrule ha hrest, Parser.consumed_of_rule? hrule' hb hrest',
      ← List.length_map, htaken, List.length_map]
  · rw [Parser.answer_of_rule? hrule, Parser.answer_of_rule? hrule']
    exact Parser.resultAlike_parse hreads

/-- A request that no rule answers is refused for the next token alone. -/
theorem answerAlike_of_no_rule (hrule : request.rule? a.stream.remaining = none)
    (hlooks : LooksLike true a.stream.remaining b.stream.remaining) : AnswerAlike a b request := by
  have hrule' : request.rule? b.stream.remaining = none := by
    rw [← request.rule?_of_looksLike hlooks]
    exact hrule
  constructor
  · rw [Parser.consumed_of_no_rule hrule, Parser.consumed_of_no_rule hrule']
  · rw [Parser.answer_of_no_rule hrule, Parser.answer_of_no_rule hrule']
    rcases Outcome.readsAs_expecting "statement" hlooks with ⟨hmismatch, hpath⟩
    exact Parser.resultAlike_fail hmismatch hpath

theorem answerAlike_of_agreeFor (hrequest : request ≠ .rule .classDec)
    (hagree : TokenStream.AgreeFor (a.consumed request + 1) a.stream b.stream) :
    AnswerAlike a b request := by
  cases hrule : request.rule? a.stream.remaining with
  | none =>
      have hnothing : a.stream.remaining = [] ++ a.stream.remaining := rfl
      rcases hagree.exists_append hnothing (Parser.consumed_of_no_rule hrule) with
        ⟨taken', rest', hb, htaken, hnext⟩
      apply answerAlike_of_no_rule hrule
      rw [hb, List.map_eq_nil_iff.mp htaken.symm]
      exact ⟨hnext, Or.inl rfl⟩
  | some r =>
      rcases r.suffix_of_parse a.stream.remaining with ⟨taken, htaken⟩
      rcases hagree.exists_append htaken.symm (Parser.consumed_of_rule? hrule htaken.symm rfl) with
        ⟨taken', rest', hb, hfront, hnext⟩
      have hlocal := Rule.isLocal_production (ne_classDec_of_rule? hrequest hrule)
      exact answerAlike_of_rule? htaken.symm hb hfront ⟨hnext, Or.inl hlocal⟩ hrule rfl

theorem answerAlike_of_lexemes (r : Rule)
    (hlexemes : a.stream.remaining.map Token.lexeme = b.stream.remaining.map Token.lexeme) :
    AnswerAlike a b (.rule r) := by
  rcases r.suffix_of_parse a.stream.remaining with ⟨taken, htaken⟩
  rw [← htaken, List.map_append] at hlexemes
  rcases List.map_eq_append_iff.mp hlexemes.symm with ⟨taken', rest', hb, hfront, hback⟩
  exact answerAlike_of_rule? htaken.symm hb hfront.symm (.of_lexemes hback.symm) rfl rfl

end Request

/-- A request is answered alike on all streams that agree in the texts that it reads
and in one more; for a class they have to agree in all that is ahead.  So neither
places and comments nor what stands before or farther behind count, and texts that
are cut into the same lexemes give the same trees and errors. -/
theorem requests_see_one_token_ahead :
    (∀ (a b : Parser) (request : Request), request ≠ .rule .classDec →
      TokenStream.AgreeFor (a.consumed request + 1) a.stream b.stream →
        AnswerAlike a b request) ∧
    (∀ a b : Parser,
      a.stream.remaining.map Token.lexeme = b.stream.remaining.map Token.lexeme →
        AnswerAlike a b (.rule .classDec)) ∧
    (∀ (text text' : String) (options options' : LexerOptions) (stream stream' : TokenStream),
      lexSource text options = .ok stream → lexSource text' options' = .ok stream' →
        stream.tokens.map Token.lexeme = stream'.tokens.map Token.lexeme →
          ParsedAlike (parseSource text options) (parseSource text' options')) := by
  refine ⟨?_, ?_, ?_⟩
  · intro a b request hrequest hagree
    exact Request.answerAlike_of_agreeFor hrequest hagree
  · intro a b hlexemes
    exact Request.answerAlike_of_lexemes .classDec hlexemes
  · intro text text' options options' stream stream' hlex hlex' hlexemes
    rw [parseSource, parseSource, hlex, hlex']
    apply TokenStream.parseClass_alike
    rw [remaining_of_lexSource hlex, remaining_of_lexSource hlex']
    exact hlexemes

/-- An expression at the end of an assignment, with other tokens around it. -/
theorem requests_see_one_token_ahead_in_assignment :
    ∃ a b : Parser, a.consumed (.rule .expression) = 3 ∧ TokenStream.AgreeFor 4 a.stream b.stream ∧
      a.stream.position ≠ b.stream.position ∧
      a.stream.remaining.length ≠ b.stream.remaining.length ∧
      AnswerAlike a b (.rule .expression) := by
  let a : Parser := .ofStream (.ofTokens (spell ["x", "+", "y", ";"]))
  let b : Parser :=
    ⟨⟨⟨"=", ⟨7, 3, 1⟩⟩ :: spell ["x", "+", "y", ";", closeBrace], 1, by decide⟩, [.letStatement]⟩
  have hconsumed : a.consumed (.rule .expression) = 3 := rfl
  have hagree : TokenStream.AgreeFor 4 a.stream b.stream := rfl
  refine ⟨a, b, hconsumed, hagree, by decide, by decide, ?_⟩
  exact requests_see_one_token_ahead.1 a b (.rule .expression) (by decide) hagree

end JackTree
