import JackTree.Proofs.ParserSight
import Mathlib.Logic.Relation

/-!
# How a parser descends

No rule of the grammar can go on for ever.  Its loops read a token in every round,
or end the parse with an error, also at the end of the input.  One request leads
to another without reading a token only towards requests of smaller weight:
from statements to a statement, and from a list of expressions over an expression
to a term.  So what remains of the tokens, and then the weight, goes down from
each request to those inside of it (`Request.work_lt_of_enters`), and no request
comes back to itself before it has read something.
-/

namespace JackTree

open Production

/-! ## Rounds of loops -/

/-- The loops of a production: when they go on, and what they read in one round. -/
def Production.loops : Production → List (Guard × Production)
  | done => []
  | word _ after => after.loops
  | any after => after.loops
  | rule _ after => after.loops
  | statement after => after.loops
  | optional _ body after => body.loops ++ after.loops
  | repeated guard body after => (guard, body) :: (body.loops ++ after.loops)
  | choice _ yes no => yes.loops ++ no.loops

namespace Production

theorem mem_loops_bounded {production : Production} {guard : Guard} {body : Production}
    (hbounded : production.isBounded = true) (hloop : (guard, body) ∈ production.loops) :
    body.readsToken = true ∧ body.isBounded = true := by
  induction production with
  | done => contradiction
  | word lexeme after ih =>
      simp only [isBounded, Bool.and_eq_true] at hbounded
      exact ih hbounded.2 hloop
  | any after ih =>
      simp only [isBounded, Bool.and_eq_true] at hbounded
      exact ih hbounded.2 hloop
  | rule r after ih => exact ih hbounded hloop
  | statement after ih => exact ih hbounded hloop
  | optional _ inner after ihinner ihafter =>
      simp only [isBounded, Bool.and_eq_true] at hbounded
      rcases List.mem_append.mp hloop with hinner | hafter
      · exact ihinner hbounded.1 hinner
      · exact ihafter hbounded.2 hafter
  | repeated _ inner after ihinner ihafter =>
      simp only [isBounded, Bool.and_eq_true] at hbounded
      rcases List.mem_cons.mp hloop with hself | hloop
      · rw [(Prod.mk.inj hself).2]
        exact hbounded.1
      rcases List.mem_append.mp hloop with hinner | hafter
      · exact ihinner hbounded.1.2 hinner
      · exact ihafter hbounded.2 hafter
  | choice _ yes no ihyes ihno =>
      simp only [isBounded, Bool.and_eq_true] at hbounded
      rcases List.mem_append.mp hloop with hyes | hno
      · exact ihyes hbounded.1 hyes
      · exact ihno hbounded.2 hno

/-- A production comes to an outcome, however much fuel that takes. -/
def Yields (production : Production) (tokens : List Token) (outcome : Outcome) : Prop :=
  ∃ fuel, run fuel production tokens = some outcome

/-- What one round of a loop does to the rest of the loop, whatever stands behind it. -/
inductive Round (guard : Guard) (body : Production) (tokens : List Token) : Prop
  /-- The round ends the parse. -/
  | stops (failure : Failure)
      (hloop : ∀ after, (repeated guard body after).Yields tokens (.stopped failure))
  /-- The round reads something and the loop goes on behind it. -/
  | advances (forest : Forest Token) (rest : List Token) (hlength : rest.length < tokens.length)
      (hloop : ∀ after outcome, (repeated guard body after).Yields rest outcome →
        (repeated guard body after).Yields tokens (outcome.mapForest (forest ++ ·)))

theorem round_of_mem_loops {r : Rule} {guard : Guard} {body : Production} {tokens : List Token}
    (hloop : (guard, body) ∈ r.production.loops) (hguard : guard.holds tokens = true) :
    Round guard body tokens := by
  rcases mem_loops_bounded r.isBounded_production hloop with ⟨hreads, hbounded⟩
  obtain ⟨fuel, inner, hinner⟩ : ∃ fuel inner, run fuel body tokens = some inner :=
    ⟨_, Option.isSome_iff_exists.mp (run_isSome hbounded (Nat.le_refl _))⟩
  cases inner with
  | stopped failure =>
      refine .stops failure fun after => ⟨fuel + 1, ?_⟩
      rw [run, if_pos hguard, hinner]
      rfl
  | read forest rest =>
      refine .advances forest rest ((length_of_run hinner).2 hreads) ?_
      rintro after outcome ⟨more, hmore⟩
      refine ⟨max fuel more + 1, ?_⟩
      rw [run, if_pos hguard, run_of_le (Nat.le_max_left fuel more) hinner, Option.bind_some,
        Outcome.andThen, run_of_le (Nat.le_max_right fuel more) hmore]
      rfl

end Production

/-! ## Requests inside of requests -/

/-- A production, run on some tokens, comes to a request before others.  What stands
in front of the request in the production has been read by then. -/
inductive Production.Enters (inner : Request) (before : List Token) :
    Production → List Token → Prop
  | word {token : Token} {tail : List Token} {lexeme : String} {after : Production}
      (hword : token.lexeme = lexeme) (hafter : Enters inner before after tail) :
      Enters inner before (word lexeme after) (token :: tail)
  | any {token : Token} {tail : List Token} {after : Production}
      (hafter : Enters inner before after tail) : Enters inner before (any after) (token :: tail)
  | rule {r : Rule} {after : Production} (hinner : inner = .rule r) :
      Enters inner before (rule r after) before
  | behindRule {r : Rule} {tokens middle : List Token} {children : Forest Token}
      {after : Production} (hrule : r.Parses tokens children middle)
      (hafter : Enters inner before after middle) : Enters inner before (rule r after) tokens
  | statement {after : Production} (hinner : inner = .statement) :
      Enters inner before (statement after) before
  | behindStatement {r : Rule} {tokens middle : List Token} {children : Forest Token}
      {after : Production} (hnext : statementRule? tokens = some r)
      (hrule : r.Parses tokens children middle) (hafter : Enters inner before after middle) :
      Enters inner before (statement after) tokens
  | optional {guard : Guard} {body after : Production} {tokens : List Token}
      (hguard : guard.holds tokens = true) (hbody : Enters inner before body tokens) :
      Enters inner before (optional guard body after) tokens
  | behindOptional {guard : Guard} {body after : Production} {tokens middle : List Token}
      {forest : Forest Token} (hguard : guard.holds tokens = true)
      (hbody : body.Reads Rule.Parses tokens forest middle)
      (hafter : Enters inner before after middle) :
      Enters inner before (optional guard body after) tokens
  | withoutOptional {guard : Guard} {body after : Production} {tokens : List Token}
      (hguard : guard.holds tokens = false) (hafter : Enters inner before after tokens) :
      Enters inner before (optional guard body after) tokens
  | repeated {guard : Guard} {body after : Production} {tokens : List Token}
      (hguard : guard.holds tokens = true) (hbody : Enters inner before body tokens) :
      Enters inner before (repeated guard body after) tokens
  | behindRound {guard : Guard} {body after : Production} {tokens middle : List Token}
      {forest : Forest Token} (hguard : guard.holds tokens = true)
      (hbody : body.Reads Rule.Parses tokens forest middle)
      (hagain : Enters inner before (repeated guard body after) middle) :
      Enters inner before (repeated guard body after) tokens
  | behindRepeated {guard : Guard} {body after : Production} {tokens : List Token}
      (hguard : guard.holds tokens = false) (hafter : Enters inner before after tokens) :
      Enters inner before (repeated guard body after) tokens
  | choiceYes {guard : Guard} {yes no : Production} {tokens : List Token}
      (hguard : guard.holds tokens = true) (hyes : Enters inner before yes tokens) :
      Enters inner before (choice guard yes no) tokens
  | choiceNo {guard : Guard} {yes no : Production} {tokens : List Token}
      (hguard : guard.holds tokens = false) (hno : Enters inner before no tokens) :
      Enters inner before (choice guard yes no) tokens

/-- To answer a request on some tokens, another one is answered on the same tokens
or on fewer. -/
inductive Request.Enters : Request × List Token → Request × List Token → Prop
  | rule {r : Rule} {inner : Request} {tokens before : List Token}
      (henters : r.production.Enters inner before tokens) :
      Enters (.rule r, tokens) (inner, before)
  | statement {r : Rule} {tokens : List Token} (hnext : statementRule? tokens = some r) :
      Enters (.statement, tokens) (.rule r, tokens)

/-! ## Work -/

def Request.weight : Request → Nat
  | rule r => r.weight
  | statement => 2

theorem Request.weight_le (request : Request) : request.weight ≤ weightBound := by
  cases request with
  | rule r => exact r.weight_le
  | statement => decide

theorem Request.weight_pos (request : Request) : 0 < request.weight := by
  cases request with
  | rule r => cases r <;> decide
  | statement => decide

/-- Behind what a production has read, nothing but a request of smaller weight comes
up on the same tokens. -/
def Production.Descends (production : Production) (tokens : List Token) (inner : Request)
    (before : List Token) : Prop :=
  before.length < tokens.length ∨
    before.length = tokens.length ∧ inner.weight < production.weight

namespace Production

variable {inner : Request} {before tokens middle : List Token}

theorem Descends.behind {production after : Production}
    (hafter : after.Descends middle inner before) (hlength : middle.length ≤ tokens.length)
    (hweight : after.weight ≤ production.weight) : production.Descends tokens inner before := by
  unfold Descends at *
  omega

theorem length_le_of_reads {production : Production} {forest : Forest Token}
    (hreads : production.Reads Rule.Parses tokens forest middle) :
    middle.length ≤ tokens.length := by
  rw [hreads.eq_leaves_append fun _ _ _ _ hrule => hrule.eq_leaves_append, List.length_append]
  exact Nat.le_add_left ..

theorem length_le_of_parses {r : Rule} {children : Forest Token}
    (hrule : r.Parses tokens children middle) : middle.length ≤ tokens.length :=
  length_le_of_reads (Rule.parses_iff_reads.mp hrule)

theorem descends_of_enters {production : Production}
    (henters : production.Enters inner before tokens) :
    production.Descends tokens inner before := by
  induction henters with
  | word _ _ ih =>
      unfold Descends at *
      rw [List.length_cons]
      omega
  | any _ ih =>
      unfold Descends at *
      rw [List.length_cons]
      omega
  | rule hinner =>
      refine Or.inr ⟨rfl, ?_⟩
      rw [hinner, Request.weight, weight]
      omega
  | behindRule hrule _ ih =>
      exact ih.behind (length_le_of_parses hrule) (by rw [weight]; omega)
  | statement hinner =>
      refine Or.inr ⟨rfl, ?_⟩
      rw [hinner, Request.weight, weight]
      omega
  | behindStatement _ hrule _ ih =>
      exact ih.behind (length_le_of_parses hrule) (by rw [weight]; omega)
  | optional _ _ ih => exact ih.behind (Nat.le_refl _) (by rw [weight]; omega)
  | behindOptional _ hbody _ ih =>
      exact ih.behind (length_le_of_reads hbody) (by rw [weight]; omega)
  | withoutOptional _ _ ih => exact ih.behind (Nat.le_refl _) (by rw [weight]; omega)
  | repeated _ _ ih => exact ih.behind (Nat.le_refl _) (by rw [weight]; omega)
  | behindRound _ hbody _ ih => exact ih.behind (length_le_of_reads hbody) (Nat.le_refl _)
  | behindRepeated _ _ ih => exact ih.behind (Nat.le_refl _) (by rw [weight]; omega)
  | choiceYes _ _ ih => exact ih.behind (Nat.le_refl _) (by rw [weight]; omega)
  | choiceNo _ _ ih => exact ih.behind (Nat.le_refl _) (by rw [weight]; omega)

end Production

namespace Request

/-- The tokens ahead count for more than any request. -/
def work (request : Request) (tokens : List Token) : Nat :=
  weightBound * tokens.length + request.weight

theorem work_lt_of_length_lt {outer inner : Request} {tokens before : List Token}
    (hlength : before.length < tokens.length) : inner.work before < outer.work tokens := by
  have hinner := inner.weight_le
  have houter := outer.weight_pos
  have htokens := Nat.mul_le_mul_left weightBound hlength
  rw [Nat.mul_succ] at htokens
  unfold work
  omega

theorem work_lt_of_enters {outer inner : Request} {tokens before : List Token}
    (henters : Enters (outer, tokens) (inner, before)) : inner.work before < outer.work tokens := by
  cases henters with
  | @rule r _ _ _ hproduction =>
      rcases descends_of_enters hproduction with hshorter | ⟨hlength, hlighter⟩
      · exact work_lt_of_length_lt hshorter
      · rw [work, work, hlength]
        exact Nat.add_lt_add_left (Nat.lt_of_lt_of_le hlighter r.weight_production) _
  | statement hnext =>
      rw [work, work, weight, weight_of_statementRule? hnext]
      exact Nat.lt_succ_self _

theorem work_lt_of_transGen {outer inner : Request × List Token}
    (hinside : Relation.TransGen Enters outer inner) :
    inner.1.work inner.2 < outer.1.work outer.2 := by
  induction hinside with
  | single henters => exact work_lt_of_enters henters
  | tail _ henters ih => exact Nat.lt_trans (work_lt_of_enters henters) ih

/-- A request that comes up again inside of itself has fewer tokens ahead. -/
theorem length_lt_of_transGen {request : Request} {tokens before : List Token}
    (hinside : Relation.TransGen Enters (request, tokens) (request, before)) :
    before.length < tokens.length := by
  have hwork := work_lt_of_transGen hinside
  simp only [work, Nat.add_lt_add_iff_right] at hwork
  exact Nat.lt_of_mul_lt_mul_left hwork

theorem wellFounded_enters : WellFounded (flip Enters) :=
  Subrelation.wf (fun henters => work_lt_of_enters henters)
    (measure fun config : Request × List Token => config.1.work config.2).wf

end Request

/-! ## The end of every parse -/

theorem Rule.readsToken_of_request {r : Rule}
    (hrequest : Request.rule r ∉
      [.rule .parameterList, .rule .statements, .rule .expressionList]) :
    r.readsToken = true := by
  have hall : ∀ r ∈ Rule.all,
      Request.rule r ∉ [.rule .parameterList, .rule .statements, .rule .expressionList] →
        r.readsToken = true := by
    decide
  exact hall r (mem_all r) hrequest

theorem Parser.consumed_pos {parser : Parser} {request : Request} {node : Node Token}
    (hrequest : request ∉ [.rule .parameterList, .rule .statements, .rule .expressionList])
    (hanswer : (parser.answer request).1 = .ok node) : 0 < parser.consumed request := by
  rcases parser.answer_cases request with
    ⟨r, children, rest, hrule, hparse, hok⟩ | ⟨failure, _, _, _, _, hfail⟩
  · have hreads : r.readsToken = true := by
      cases request with
      | rule other =>
          rw [← Option.some.inj hrule]
          exact Rule.readsToken_of_request hrequest
      | statement => exact readsToken_of_statementRule? hrule
    have hshorter := length_of_reads (Rule.parses_iff_reads.mp hparse)
      (Rule.readsToken_production hreads)
    have hremaining := hparse.eq_leaves_append
    rw [consumed_of_leave hremaining (by rw [hok])]
    have hlength := congrArg List.length hremaining
    rw [List.length_append] at hlength
    omega
  · rw [hfail] at hanswer
    contradiction

/-- Every rule comes to an outcome on all tokens, with fuel in proportion to their
number.  A round of a loop reads something or ends the parse, so at the end of the
input it ends the parse.  Requests are not nested without end, and one that comes up
inside of itself has fewer tokens ahead.  All but three read a token whenever they
succeed. -/
theorem parsing_ends :
    (∀ (r : Rule) (tokens : List Token), ∃ outcome, ∀ fuel,
      weightBound * (tokens.length + 1) ≤ fuel → run fuel r.production tokens = some outcome) ∧
    (∀ (r : Rule) (guard : Guard) (body : Production) (tokens : List Token),
      (guard, body) ∈ r.production.loops → guard.holds tokens = true →
        Round guard body tokens) ∧
    WellFounded (flip Request.Enters) ∧
    (∀ (request : Request) (tokens before : List Token),
      Relation.TransGen Request.Enters (request, tokens) (request, before) →
        before.length < tokens.length) ∧
    (∀ (parser : Parser) (request : Request) (node : Node Token),
      request ∉ [.rule .parameterList, .rule .statements, .rule .expressionList] →
        (parser.answer request).1 = .ok node → 0 < parser.consumed request) := by
  refine ⟨?_, ?_, Request.wellFounded_enters, ?_, ?_⟩
  · intro r tokens
    rcases Option.isSome_iff_exists.mp (r.run_isSome tokens) with ⟨outcome, hrun⟩
    exact ⟨outcome, fun fuel hfuel => run_of_le hfuel hrun⟩
  · intro r guard body tokens hloop hguard
    exact round_of_mem_loops hloop hguard
  · intro request tokens before hinside
    exact Request.length_lt_of_transGen hinside
  · intro parser request node hrequest hanswer
    exact Parser.consumed_pos hrequest hanswer

/-- Arguments that never close, and a term inside of a term. -/
theorem parsing_ends_in_open_arguments :
    Round (.notNext ")") (rule .expression (optional (.next [","]) (word "," done) done)) [] ∧
    (Relation.TransGen Request.Enters (.rule .term, spell ["(", "x", ")"])
      (.rule .term, spell ["x", ")"]) ∧
        (spell ["x", ")"]).length < (spell ["(", "x", ")"]).length) := by
  rcases parsing_ends with ⟨_, hloops, _, hnested, _⟩
  have hexpression : Request.Enters (.rule .term, spell ["(", "x", ")"])
      (.rule .expression, spell ["x", ")"]) :=
    .rule (.choiceYes rfl (.word rfl (.rule rfl)))
  have hterm : Request.Enters (.rule .expression, spell ["x", ")"])
      (.rule .term, spell ["x", ")"]) :=
    .rule (.rule rfl)
  have hinside := Relation.TransGen.tail (.single hexpression) hterm
  exact ⟨hloops .expressionList _ _ [] (by decide) rfl, hinside, hnested _ _ _ hinside⟩

end JackTree
