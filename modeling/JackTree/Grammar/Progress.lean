import JackTree.Grammar.Run

/-!
# Progress

A run never leaves more tokens than there were, and most productions read at
least one token whenever they succeed.  Between two tokens only a bounded number
of productions is entered, so fuel in proportion to the number of tokens is
always enough (`run_isSome`), and parsing by a rule is a total function.
-/

namespace JackTree

/-! ## Reading at least one token -/

/-- Whether a node of a rule has a token below it in every case. -/
def Rule.readsToken : Rule → Bool
  | parameterList | statements | expressionList => false
  | _ => true

/-- Whether a production reads a token in every case. -/
def Production.readsToken : Production → Bool
  | done => false
  | word _ _ => true
  | any _ => true
  | rule r after => r.readsToken || after.readsToken
  | statement _ => true
  | optional _ _ after => after.readsToken
  | repeated _ _ after => after.readsToken
  | choice _ yes no => yes.readsToken && no.readsToken

theorem Rule.readsToken_production {r : Rule} (hreads : r.readsToken = true) :
    r.production.readsToken = true := by
  cases r <;> simp [readsToken] at hreads <;> rfl

theorem readsToken_of_statementRule? {tokens : List Token} {r : Rule}
    (hrule : statementRule? tokens = some r) : r.readsToken = true := by
  unfold statementRule? at hrule
  obtain ⟨keyword, _, hkeyword⟩ := Option.bind_eq_some_iff.mp hrule
  cases keyword <;> simp only [Keyword.statementRule?, Option.some.injEq, reduceCtorEq] at hkeyword
  all_goals
    subst hkeyword
    rfl

namespace Production

/-- A run reads on: it leaves no more tokens than there were, and fewer if its
production reads a token in every case. -/
theorem length_of_run {fuel : Nat} {production : Production} {tokens rest : List Token}
    {forest : Forest Token} (hrun : run fuel production tokens = some (.read forest rest)) :
    rest.length ≤ tokens.length ∧
      (production.readsToken = true → rest.length < tokens.length) := by
  induction fuel generalizing production tokens forest rest with
  | zero => simp [run] at hrun
  | succ fuel ih =>
    cases production with
    | done =>
      simp only [run, Option.some.injEq, Outcome.read.injEq] at hrun
      simp [← hrun.2, readsToken]
    | word lexeme after =>
      cases tokens with
      | nil => simp [run] at hrun
      | cons token tail =>
        rw [run] at hrun
        split at hrun
        · obtain ⟨inner, hinner, _⟩ := Outcome.map_mapForest_eq_read hrun
          have := (ih hinner).1
          simp only [List.length_cons]
          omega
        · simp at hrun
    | any after =>
      cases tokens with
      | nil => simp [run] at hrun
      | cons token tail =>
        rw [run] at hrun
        obtain ⟨inner, hinner, _⟩ := Outcome.map_mapForest_eq_read hrun
        have := (ih hinner).1
        simp only [List.length_cons]
        omega
    | rule r after =>
      rw [run] at hrun
      obtain ⟨left, middle, right, hleft, hright, _⟩ := Outcome.bind_andThen_eq_read hrun
      have hfirst := ih hleft
      have hsecond := ih hright
      refine ⟨by omega, fun hreads => ?_⟩
      simp only [readsToken, Bool.or_eq_true] at hreads
      rcases hreads with hreads | hreads
      · have := hfirst.2 (Rule.readsToken_production hreads)
        omega
      · have := hsecond.2 hreads
        omega
    | statement after =>
      rw [run] at hrun
      split at hrun
      · simp at hrun
      · rename_i r hrule
        have hshorter := (ih hrun).2 (by
          simp [readsToken, readsToken_of_statementRule? hrule])
        exact ⟨by omega, fun _ => hshorter⟩
    | optional guard body after =>
      rw [run] at hrun
      split at hrun
      · obtain ⟨left, middle, right, hleft, hright, _⟩ := Outcome.bind_andThen_eq_read hrun
        have hfirst := ih hleft
        have hsecond := ih hright
        refine ⟨by omega, fun hreads => ?_⟩
        have := hsecond.2 hreads
        omega
      · have hthen := ih hrun
        exact ⟨hthen.1, fun hreads => hthen.2 hreads⟩
    | repeated guard body after =>
      rw [run] at hrun
      split at hrun
      · obtain ⟨left, middle, right, hleft, hright, _⟩ := Outcome.bind_andThen_eq_read hrun
        have hfirst := ih hleft
        have hsecond := ih hright
        refine ⟨by omega, fun hreads => ?_⟩
        have := hsecond.2 hreads
        omega
      · have hthen := ih hrun
        exact ⟨hthen.1, fun hreads => hthen.2 hreads⟩
    | choice guard yes no =>
      rw [run] at hrun
      have hbranch := ih hrun
      refine ⟨hbranch.1, fun hreads => hbranch.2 ?_⟩
      simp only [readsToken, Bool.and_eq_true] at hreads
      split
      · exact hreads.1
      · exact hreads.2

end Production

/-! ## Enough fuel -/

/-- How deep productions can be nested before a node of a rule reads a token. -/
def Rule.weight : Rule → Nat
  | expressionList => 6
  | expression | statements => 4
  | term | parameterList => 3
  | _ => 1

/-- How deep productions can be nested before a production reads a token. -/
def Production.weight : Production → Nat
  | done => 1
  | word _ _ => 1
  | any _ => 1
  | rule r after => 1 + max r.weight after.weight
  | statement after => 2 + max 1 after.weight
  | optional _ body after => 1 + max body.weight after.weight
  | repeated _ body after => 1 + max body.weight after.weight
  | choice _ yes no => 1 + max yes.weight no.weight

def weightBound : Nat := 8

/-- Whether every part has a small weight and every repeated part reads a token. -/
def Production.isBounded : Production → Bool
  | done => true
  | word _ after => after.weight ≤ weightBound && after.isBounded
  | any after => after.weight ≤ weightBound && after.isBounded
  | rule _ after => after.isBounded
  | statement after => after.isBounded
  | optional _ body after => body.isBounded && after.isBounded
  | repeated _ body after => body.readsToken && body.isBounded && after.isBounded
  | choice _ yes no => yes.isBounded && no.isBounded

theorem Rule.isBounded_production (r : Rule) : r.production.isBounded = true := by
  cases r <;> rfl

theorem Rule.weight_production (r : Rule) : r.production.weight ≤ r.weight := by
  cases r <;> decide

theorem Rule.weight_le (r : Rule) : r.weight ≤ weightBound := by
  cases r <;> decide

theorem weight_of_statementRule? {tokens : List Token} {r : Rule}
    (hrule : statementRule? tokens = some r) : r.weight = 1 := by
  unfold statementRule? at hrule
  obtain ⟨keyword, _, hkeyword⟩ := Option.bind_eq_some_iff.mp hrule
  cases keyword <;> simp only [Keyword.statementRule?, Option.some.injEq, reduceCtorEq] at hkeyword
  all_goals
    subst hkeyword
    rfl

namespace Production

private theorem isSome_andThen {first : Option Outcome} {around : Failure → Failure}
    {join : Forest Token → Forest Token → Forest Token} {next : List Token → Option Outcome}
    (hfirst : first.isSome = true)
    (hnext : ∀ forest rest, first = some (.read forest rest) → (next rest).isSome = true) :
    (first.bind fun o => o.andThen around join next).isSome = true := by
  obtain ⟨outcome, rfl⟩ := Option.isSome_iff_exists.mp hfirst
  cases outcome with
  | read forest rest => simpa [Outcome.andThen] using hnext forest rest rfl
  | stopped failure => rfl

/-- Fuel for every token and for the weight of the production is enough. -/
theorem run_isSome {fuel : Nat} {production : Production} {tokens : List Token}
    (hbounded : production.isBounded = true)
    (hfuel : weightBound * tokens.length + production.weight ≤ fuel) :
    (run fuel production tokens).isSome = true := by
  induction fuel generalizing production tokens with
  | zero =>
    cases production <;> simp only [weight] at hfuel <;> omega
  | succ fuel ih =>
    cases production with
    | done => rfl
    | word lexeme after =>
      cases tokens with
      | nil => rfl
      | cons token rest =>
        simp only [isBounded, Bool.and_eq_true, decide_eq_true_eq] at hbounded
        simp only [weight, List.length_cons, Nat.mul_succ] at hfuel
        rw [run]
        split
        · rw [Option.isSome_map]
          exact ih hbounded.2 (by omega)
        · rfl
    | any after =>
      cases tokens with
      | nil => rfl
      | cons token rest =>
        simp only [isBounded, Bool.and_eq_true, decide_eq_true_eq] at hbounded
        simp only [weight, List.length_cons, Nat.mul_succ] at hfuel
        rw [run, Option.isSome_map]
        exact ih hbounded.2 (by omega)
    | rule r after =>
      simp only [weight] at hfuel
      rw [run]
      refine isSome_andThen ?_ ?_
      · have := r.weight_production
        exact ih r.isBounded_production (by omega)
      · intro children rest hbody
        have hlength := Nat.mul_le_mul_left weightBound (length_of_run hbody).1
        exact ih hbounded (by omega)
    | statement after =>
      simp only [weight] at hfuel
      rw [run]
      split
      · rfl
      · rename_i r hrule
        refine ih hbounded ?_
        simp only [weight, weight_of_statementRule? hrule]
        omega
    | optional guard body after =>
      simp only [isBounded, Bool.and_eq_true] at hbounded
      simp only [weight] at hfuel
      rw [run]
      split
      · refine isSome_andThen (ih hbounded.1 (by omega)) ?_
        intro forest rest hbody
        have hlength := Nat.mul_le_mul_left weightBound (length_of_run hbody).1
        exact ih hbounded.2 (by omega)
      · exact ih hbounded.2 (by omega)
    | repeated guard body after =>
      have hagain := hbounded
      simp only [isBounded, Bool.and_eq_true] at hbounded
      simp only [weight] at hfuel
      rw [run]
      split
      · refine isSome_andThen (ih hbounded.1.2 (by omega)) ?_
        intro forest rest hbody
        have hshorter := (length_of_run hbody).2 hbounded.1.1
        have hlength := Nat.mul_le_mul_left weightBound hshorter
        refine ih hagain ?_
        simp only [weight, Nat.mul_succ] at hlength ⊢
        simp only [weightBound] at hlength hfuel ⊢
        omega
      · exact ih hbounded.2 (by omega)
    | choice guard yes no =>
      simp only [isBounded, Bool.and_eq_true] at hbounded
      simp only [weight] at hfuel
      rw [run]
      split
      · exact ih hbounded.1 (by omega)
      · exact ih hbounded.2 (by omega)

end Production

/-! ## Parsing by a rule -/

/-- Fuel that suffices for any rule on some tokens. -/
def enoughFuel (tokens : List Token) : Nat :=
  weightBound * (tokens.length + 1)

theorem Rule.run_isSome (r : Rule) (tokens : List Token) :
    (Production.run (enoughFuel tokens) r.production tokens).isSome = true := by
  refine Production.run_isSome r.isBounded_production ?_
  have hproduction := r.weight_production
  have hweight := r.weight_le
  simp only [enoughFuel, Nat.mul_succ]
  omega

/-- What a rule makes of some tokens: the forest below its node, or a failure whose
path starts with the rule. -/
def Rule.parse (r : Rule) (tokens : List Token) : Outcome :=
  match (Production.run (enoughFuel tokens) r.production tokens).get (r.run_isSome tokens) with
  | .read children rest => .read children rest
  | .stopped failure => .stopped (failure.within r)

end JackTree
