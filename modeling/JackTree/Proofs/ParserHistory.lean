import JackTree.Proofs.CorrectPrefix
import Mathlib.Data.List.Chain

/-!
# Histories of a parser

A parser can be asked for node after node, also after it has failed.  What it has
read stays read, and the rules in which it failed stay open, so that later errors
are reported inside of them.  `Parser.answer_cases` lists the two ways in which a
request can end; `requests_are_answered_exactly` says what an answer tells about
the parser after any history of requests.
-/

namespace JackTree

open Production

/-! ## Rules inside of rules -/

/-- The rules that a production enters itself. -/
def Production.invoked : Production → List Rule
  | done => []
  | word _ after => after.invoked
  | any after => after.invoked
  | rule r after => r :: after.invoked
  | statement after => statementWords.map Prod.snd ++ after.invoked
  | optional _ body after => body.invoked ++ after.invoked
  | repeated _ body after => body.invoked ++ after.invoked
  | choice _ yes no => yes.invoked ++ no.invoked

def Rule.Invokes (outer inner : Rule) : Prop :=
  inner ∈ outer.production.invoked

/-- Whether rules can be open inside of a production, one inside the other. -/
def Production.Opens (production : Production) (path : List Rule) : Prop :=
  (∀ r ∈ path.head?, r ∈ production.invoked) ∧ path.IsChain Rule.Invokes

namespace Production

theorem opens_nil (production : Production) : production.Opens [] := by
  simp [Opens]

theorem opens_cons_iff {production : Production} {r : Rule} {path : List Rule} :
    production.Opens (r :: path) ↔ r ∈ production.invoked ∧ r.production.Opens path := by
  simp only [Opens, List.head?_cons, Option.mem_some_iff, forall_eq', List.isChain_cons]
  rfl

theorem Opens.mono {production more : Production} {path : List Rule}
    (hle : ∀ r ∈ production.invoked, r ∈ more.invoked) (hopens : production.Opens path) :
    more.Opens path :=
  ⟨fun r hr => hle r (hopens.1 r hr), hopens.2⟩

theorem opens_expecting {production : Production} (expected : String) (tokens : List Token) :
    production.Opens (Failure.expecting expected tokens).path := by
  cases tokens <;> exact production.opens_nil

theorem mem_invoked_of_statementRule? {after : Production} {tokens : List Token} {r : Rule}
    (hrule : statementRule? tokens = some r) : r ∈ (statement after).invoked := by
  rcases statementRule?_eq_some_iff.mp hrule with ⟨word, hentry, _⟩
  exact List.mem_append_left _ (List.mem_map_of_mem hentry)

/-- The rules in which a run has stopped are those that it has entered one inside
the other. -/
theorem opens_of_run {fuel : Nat} {production : Production} {tokens : List Token}
    {failure : Failure} (hrun : run fuel production tokens = some (.stopped failure)) :
    production.Opens failure.path := by
  induction fuel generalizing production tokens failure with
  | zero => simp [run] at hrun
  | succ fuel ih =>
      have hleaf : ∀ {after : Production} {token : Token} {tail : List Token},
          (run fuel after tail).map (Outcome.mapForest (.leaf token)) = some (.stopped failure) →
            after.Opens failure.path := by
        intro after token tail hmap
        rcases Option.map_eq_some_iff.mp hmap with ⟨last, hlast, hstopped⟩
        rw [Outcome.mapForest_eq_stopped hstopped.symm] at hlast
        exact ih hlast
      have hthen : ∀ {first second : Production} {around : Failure → Failure}
          {join : Forest Token → Forest Token → Forest Token},
          (∀ inner, first.Opens inner.path → production.Opens (around inner).path) →
          (∀ r ∈ second.invoked, r ∈ production.invoked) →
          ((run fuel first tokens).bind fun o => o.andThen around join (run fuel second)) =
            some (.stopped failure) → production.Opens failure.path := by
        intro first second around join haround hsecond hbind
        rcases Outcome.bind_andThen_eq_some hbind with
          ⟨inner, hinner, hstopped⟩ | ⟨left, middle, last, _, hlast, hstopped⟩
        · rw [Outcome.stopped.inj hstopped]
          exact haround inner (ih hinner)
        · rw [Outcome.mapForest_eq_stopped hstopped] at hlast
          exact (ih hlast).mono hsecond
      cases production with
      | done => simp [run] at hrun
      | word lexeme after =>
          rcases run_word_cases hrun with ⟨_, hstopped⟩ | ⟨token, tail, _, _, hmap⟩
          · rw [Outcome.stopped.inj hstopped]
            exact opens_expecting lexeme tokens
          · exact (hleaf hmap).mono fun _ => id
      | any after =>
          cases tokens with
          | nil =>
              rw [← Outcome.stopped.inj (Option.some.inj hrun)]
              exact opens_nil _
          | cons token tail => exact (hleaf hrun).mono fun _ => id
      | rule r after =>
          rw [run] at hrun
          refine hthen (fun inner hinner => ?_) (fun _ => List.mem_cons_of_mem r) hrun
          exact opens_cons_iff.mpr ⟨List.mem_cons_self, hinner⟩
      | statement after =>
          rw [run] at hrun
          split at hrun
          next =>
            rw [← Outcome.stopped.inj (Option.some.inj hrun)]
            exact opens_expecting "statement" tokens
          next r hrule =>
            refine (ih hrun).mono fun inner hinner => ?_
            rcases List.mem_cons.mp hinner with rfl | hafter
            · exact mem_invoked_of_statementRule? hrule
            · exact List.mem_append_right _ hafter
      | optional guard body after =>
          rw [run] at hrun
          split at hrun
          next =>
            exact hthen (fun _ => .mono fun _ => List.mem_append_left _)
              (fun _ => List.mem_append_right _) hrun
          next => exact (ih hrun).mono fun _ => List.mem_append_right _
      | repeated guard body after =>
          rw [run] at hrun
          split at hrun
          next =>
            exact hthen (fun _ => .mono fun _ => List.mem_append_left _) (fun _ => id) hrun
          next => exact (ih hrun).mono fun _ => List.mem_append_right _
      | choice guard yes no =>
          rw [run] at hrun
          refine (ih hrun).mono fun r hr => ?_
          split at hr
          next => exact List.mem_append_left _ hr
          next => exact List.mem_append_right _ hr

end Production

/-! ## Requests -/

/-- What a parser is asked to read: a node of a rule, or whatever statement comes next. -/
inductive Request
  | rule (r : Rule)
  | statement
  deriving DecidableEq, Repr

namespace Request

/-- The rule by which a request is answered, if the tokens ahead settle one. -/
def rule? (request : Request) (tokens : List Token) : Option Rule :=
  match request with
  | rule r => some r
  | statement => statementRule? tokens

/-- Whether rules can be open, one inside the other, when a request has failed. -/
def Opens (request : Request) (tokens : List Token) (path : List Rule) : Prop :=
  match request.rule? tokens with
  | some r => path.head? = some r ∧ path.IsChain Rule.Invokes
  | none => path = []

end Request

namespace Parser

def answer (parser : Parser) : Request → Except SyntaxError (Node Token) × Parser
  | .rule r => parser.parse r
  | .statement => parser.parseStatement

/-- The parser after a history of requests, whatever became of each. -/
def afterAll (parser : Parser) (history : List Request) : Parser :=
  history.foldl (fun parser request => (parser.answer request).2) parser

variable {parser : Parser} {request : Request} {r : Rule}

theorem answer_of_rule? (hrule : request.rule? parser.stream.remaining = some r) :
    parser.answer request = parser.parse r := by
  cases request with
  | rule other =>
      rw [Option.some.inj hrule]
      rfl
  | statement =>
      rw [Request.rule?] at hrule
      rw [answer, parseStatement, hrule]

theorem answer_of_no_rule (hrule : request.rule? parser.stream.remaining = none) :
    parser.answer request = parser.fail (.expecting "statement" parser.stream.remaining) := by
  cases request with
  | rule other => contradiction
  | statement =>
      rw [Request.rule?] at hrule
      rw [answer, parseStatement, hrule]

/-- All that a request can do: the rule that answers it reads some of the tokens
ahead, or the request fails before one of them or at their end. -/
theorem answer_cases (parser : Parser) (request : Request) :
    (∃ r children rest, request.rule? parser.stream.remaining = some r ∧
      r.Parses parser.stream.remaining children rest ∧
      parser.answer request =
        (.ok ⟨r, children⟩, { parser with stream := leave parser.stream rest })) ∨
    ∃ (failure : Failure) (taken : List Token),
      parser.stream.remaining = taken ++ failure.rest ∧ failure.TellsNext ∧
        request.Opens parser.stream.remaining failure.path ∧
        parser.answer request = parser.fail failure := by
  cases hrule : request.rule? parser.stream.remaining with
  | none =>
      refine Or.inr ⟨.expecting "statement" parser.stream.remaining, [], ?_, ?_, ?_,
        answer_of_no_rule hrule⟩
      · rw [Failure.rest_expecting]
        rfl
      · cases parser.stream.remaining <;> rfl
      · rw [Request.Opens, hrule]
        cases parser.stream.remaining <;> rfl
  | some r =>
      rw [answer_of_rule? hrule, parse]
      rcases r.exists_run parser.stream.remaining with ⟨fuel, outcome, hrun, hparse⟩
      rcases suffix_of_run hrun with ⟨taken, htaken⟩
      cases outcome with
      | read children rest =>
          refine Or.inl ⟨r, children, rest, rfl, hparse, ?_⟩
          rw [hparse]
          rfl
      | stopped failure =>
          have htells : failure.TellsNext := tellsNext_of_run hrun
          refine Or.inr ⟨failure.within r, taken, htaken.symm, htells, ?_, ?_⟩
          · rw [Request.Opens, hrule]
            exact ⟨rfl, List.isChain_cons.mpr (opens_of_run hrun)⟩
          · rw [hparse]
            rfl

theorem tokens_answer (parser : Parser) (request : Request) :
    (parser.answer request).2.stream.tokens = parser.stream.tokens := by
  rcases parser.answer_cases request with
    ⟨_, _, _, _, _, hanswer⟩ | ⟨_, _, _, _, _, hanswer⟩
  · rw [hanswer]
    rfl
  · rw [hanswer]
    rfl

theorem tokens_afterAll (parser : Parser) (history : List Request) :
    (parser.afterAll history).stream.tokens = parser.stream.tokens := by
  induction history generalizing parser with
  | nil => rfl
  | cons request history ih => exact (ih _).trans (tokens_answer parser request)

end Parser

/-! ## What an answer tells -/

/-- An error tells the rules that are open now, the tokens that are left, and the
first of them with its place.  At the end of the input that is the place behind the
last token. -/
structure SyntaxError.Reports (error : SyntaxError) (request : Request)
    (before after : Parser) : Prop where
  stack : error.stack = after.stack
  path : ∃ path, error.stack = before.stack ++ path ∧
    request.Opens before.stream.remaining path
  remaining : error.remaining = after.stream.remaining
  cause : match error.remaining with
    | [] => ∃ expected, error.cause = .mismatch (.endOfInput expected)
    | found :: _ => ∃ expected, error.cause = .mismatch (.token expected found)
  location : error.location = match error.remaining with
    | [] => after.stream.tokens.getLast?.map fun last => last.span.finish
    | found :: _ => some found.span

theorem Failure.TellsNext.exists_mismatch {failure : Failure} (htells : failure.TellsNext) :
    match failure.rest with
    | [] => ∃ expected, failure.mismatch = .endOfInput expected
    | found :: _ => ∃ expected, failure.mismatch = .token expected found := by
  rcases failure with ⟨mismatch, path, rest⟩
  cases mismatch with
  | token expected found =>
      rcases List.head?_eq_some_iff.mp htells with ⟨more, rfl⟩
      exact ⟨expected, rfl⟩
  | endOfInput expected =>
      have hnil : rest = [] := htells
      rw [hnil]
      exact ⟨expected, rfl⟩

theorem Parser.location_eq (stream : TokenStream) :
    Parser.location stream = match stream.remaining with
      | [] => stream.tokens.getLast?.map fun last => last.span.finish
      | found :: _ => some found.span := by
  unfold Parser.location
  rw [TokenStream.peek?_eq_head?]
  cases stream.remaining <;> rfl

theorem Parser.reports_of_fail {parser later : Parser} {request : Request} {failure : Failure}
    {taken : List Token} {error : SyntaxError}
    (hremaining : parser.stream.remaining = taken ++ failure.rest) (htells : failure.TellsNext)
    (hopens : request.Opens parser.stream.remaining failure.path)
    (hfail : (parser.fail failure : Except SyntaxError (Node Token) × Parser) =
      (.error error, later)) : error.Reports request parser later := by
  have hleft := (TokenStream.remaining_leave hremaining).2
  rcases Prod.mk.inj hfail with ⟨herror, rfl⟩
  rw [← Except.error.inj herror]
  constructor
  · rfl
  · exact ⟨failure.path, rfl, hopens⟩
  · rfl
  · simp only [hleft, SyntaxError.Cause.mismatch.injEq]
    exact htells.exists_mismatch
  · exact Parser.location_eq _

/-- After any history of requests, a stream has all of its tokens and no request
moves it back.  A node leaves the open rules as they were.  An error leaves the
rules open that led to it and reports the parser as it stands. -/
theorem requests_are_answered_exactly (stream : TokenStream) (history : List Request)
    (request : Request) :
    let before := (Parser.ofStream stream).afterAll history
    let after := (before.answer request).2
    after.stream.tokens = stream.tokens ∧
      before.stream.position ≤ after.stream.position ∧
      match (before.answer request).1 with
      | .ok _ => after.stack = before.stack
      | .error error => error.Reports request before after := by
  intro before after
  have htokens : before.stream.tokens = stream.tokens :=
    Parser.tokens_afterAll (Parser.ofStream stream) history
  refine ⟨(before.tokens_answer request).trans htokens, ?_⟩
  simp only [after]
  rcases before.answer_cases request with
    ⟨r, children, rest, _, hparse, hanswer⟩ |
      ⟨failure, taken, hremaining, htells, hopens, hanswer⟩
  · have hposition := (TokenStream.remaining_leave hparse.eq_leaves_append).1
    rw [hanswer]
    exact ⟨hposition ▸ Nat.le_add_right .., rfl⟩
  · have hposition := (TokenStream.remaining_leave hremaining).1
    rw [hanswer]
    exact ⟨hposition ▸ Nat.le_add_right .., Parser.reports_of_fail hremaining htells hopens rfl⟩

/-- A term that breaks off inside of a statement that broke off before. -/
example :
    ((Parser.ofStream (.ofTokens (spell ["let", "x", "("]))).afterAll
      [.statement, .rule .term]).stack = [.letStatement, .term, .expression, .term] := by
  decide +kernel

end JackTree
