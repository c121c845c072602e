import JackTree.Proofs.GrammarDerivation

/-!
# Lookahead

A run sees the lexemes of the tokens that it reads and of the one token behind
them.  Only the loop over the subroutines of a class looks farther, and all it
sees there is whether more than one token is left.  `Production.run_alike` says
that whatever else is changed about the tokens, the run stays the same.
-/

namespace JackTree

/-! ## Where a run stops -/

def Outcome.rest : Outcome → List Token
  | read _ rest => rest
  | stopped failure => failure.rest

theorem Outcome.rest_mapForest (f : Forest Token → Forest Token) (outcome : Outcome) :
    (outcome.mapForest f).rest = outcome.rest := by
  cases outcome <;> rfl

theorem Failure.rest_expecting (expected : String) (tokens : List Token) :
    (Failure.expecting expected tokens).rest = tokens := by
  cases tokens <;> rfl

/-- What follows a first part is run behind it, or the first part stops. -/
theorem Outcome.andThen_eq_some {first outcome : Outcome} {around : Failure → Failure}
    {join : Forest Token → Forest Token → Forest Token} {next : List Token → Option Outcome}
    (hthen : first.andThen around join next = some outcome) :
    (∃ failure, first = .stopped failure ∧ outcome = .stopped (around failure)) ∨
      ∃ left middle last, first = .read left middle ∧ next middle = some last ∧
        outcome = last.mapForest (join left) := by
  cases first with
  | read left middle =>
      rcases Option.map_eq_some_iff.mp hthen with ⟨last, hlast, hjoined⟩
      exact Or.inr ⟨left, middle, last, rfl, hlast, hjoined.symm⟩
  | stopped failure => exact Or.inl ⟨failure, rfl, (Option.some.inj hthen).symm⟩

theorem Outcome.bind_andThen_eq_some {first : Option Outcome} {around : Failure → Failure}
    {join : Forest Token → Forest Token → Forest Token}
    {next : List Token → Option Outcome} {outcome : Outcome}
    (hrun : (first.bind fun o => o.andThen around join next) = some outcome) :
    (∃ failure, first = some (.stopped failure) ∧ outcome = .stopped (around failure)) ∨
      ∃ left middle last, first = some (.read left middle) ∧ next middle = some last ∧
        outcome = last.mapForest (join left) := by
  rcases Option.bind_eq_some_iff.mp hrun with ⟨inner, hfirst, hthen⟩
  rw [hfirst]
  simpa only [Option.some.injEq] using Outcome.andThen_eq_some hthen

/-- What a rule or a list of parts makes of the outcomes below it. -/
structure Frame (around : Failure → Failure)
    (join : Forest Token → Forest Token → Forest Token) : Prop where
  rest_around : ∀ failure, (around failure).rest = failure.rest
  mismatch_around : ∀ failure, (around failure).mismatch = failure.mismatch
  path_around : ∀ a b : Failure, a.path = b.path → (around a).path = (around b).path
  map_join : ∀ left right left' right' : Forest Token,
    left.map Token.lexeme = left'.map Token.lexeme →
      right.map Token.lexeme = right'.map Token.lexeme →
        (join left right).map Token.lexeme = (join left' right').map Token.lexeme

theorem Frame.node (r : Rule) : Frame (.within r) (.node r) where
  rest_around _ := rfl
  mismatch_around _ := rfl
  path_around _ _ hpath := congrArg (r :: ·) hpath
  map_join _ _ _ _ hleft hright := by rw [Forest.map, Forest.map, hleft, hright]

theorem Frame.append : Frame id (· ++ ·) where
  rest_around _ := rfl
  mismatch_around _ := rfl
  path_around _ _ hpath := hpath
  map_join _ _ _ _ hleft hright := by
    rw [Forest.map_append, Forest.map_append, hleft, hright]

namespace Production

theorem run_word_of_ne {fuel : Nat} {lexeme : String} {after : Production}
    {tokens : List Token} (hnext : nextLexeme tokens ≠ some lexeme) :
    run (fuel + 1) (word lexeme after) tokens = some (.stopped (.expecting lexeme tokens)) := by
  cases tokens with
  | nil => rfl
  | cons token tail => exact if_neg fun hword => hnext (congrArg some hword)

theorem run_word_of_eq {fuel : Nat} {lexeme : String} {after : Production} {token : Token}
    {tail : List Token} (hword : token.lexeme = lexeme) :
    run (fuel + 1) (word lexeme after) (token :: tail) =
      (run fuel after tail).map (.mapForest (.leaf token)) :=
  if_pos hword

theorem run_word_cases {fuel : Nat} {lexeme : String} {after : Production}
    {tokens : List Token} {outcome : Outcome}
    (hrun : run (fuel + 1) (word lexeme after) tokens = some outcome) :
    (nextLexeme tokens ≠ some lexeme ∧ outcome = .stopped (.expecting lexeme tokens)) ∨
      ∃ token tail, tokens = token :: tail ∧ token.lexeme = lexeme ∧
        (run fuel after tail).map (.mapForest (.leaf token)) = some outcome := by
  by_cases hnext : nextLexeme tokens = some lexeme
  · cases tokens with
    | nil => contradiction
    | cons token tail =>
        have hword : token.lexeme = lexeme := Option.some.inj hnext
        rw [run_word_of_eq hword] at hrun
        exact Or.inr ⟨token, tail, rfl, hword, hrun⟩
  · rw [run_word_of_ne hnext] at hrun
    exact Or.inl ⟨hnext, (Option.some.inj hrun).symm⟩

/-- What holds where a run ends, and is kept by what a run puts around, in front of or
behind an outcome, holds of every run. -/
theorem run_induction {p : List Token → Outcome → Prop}
    (hdone : ∀ tokens, p tokens (.read .nil tokens))
    (hexpecting : ∀ expected tokens, p tokens (.stopped (.expecting expected tokens)))
    (hany : p [] (.stopped ⟨.endOfInput none, [], []⟩))
    (hleaf : ∀ token tail last, p tail last → p (token :: tail) (last.mapForest (.leaf token)))
    (hwithin : ∀ r tokens failure, p tokens (.stopped failure) →
      p tokens (.stopped (failure.within r)))
    (hjoin : ∀ (join : Forest Token → Forest Token → Forest Token) tokens left middle last,
      p tokens (.read left middle) → p middle last → p tokens (last.mapForest (join left)))
    {fuel : Nat} {production : Production} {tokens : List Token} {outcome : Outcome}
    (hrun : run fuel production tokens = some outcome) : p tokens outcome := by
  induction fuel generalizing production tokens outcome with
  | zero => simp [run] at hrun
  | succ fuel ih =>
      have hafter : ∀ {after : Production} {token : Token} {tail : List Token},
          (run fuel after tail).map (.mapForest (.leaf token)) = some outcome →
            p (token :: tail) outcome := by
        intro after token tail hmap
        rcases Option.map_eq_some_iff.mp hmap with ⟨last, hlast, rfl⟩
        exact hleaf token tail last (ih hlast)
      have hthen : ∀ {first second : Production} {around : Failure → Failure}
          {join : Forest Token → Forest Token → Forest Token},
          (∀ failure, p tokens (.stopped failure) → p tokens (.stopped (around failure))) →
          ((run fuel first tokens).bind fun o => o.andThen around join (run fuel second)) =
            some outcome → p tokens outcome := by
        intro first second around join haround hbind
        rcases Outcome.bind_andThen_eq_some hbind with
          ⟨failure, hfirst, rfl⟩ | ⟨left, middle, last, hfirst, hlast, rfl⟩
        · exact haround failure (ih hfirst)
        · exact hjoin join tokens left middle last (ih hfirst) (ih hlast)
      cases production with
      | done =>
          rw [← Option.some.inj hrun]
          exact hdone tokens
      | word lexeme after =>
          rcases run_word_cases hrun with ⟨_, hstopped⟩ | ⟨token, tail, htokens, _, hmap⟩
          · rw [hstopped]
            exact hexpecting lexeme tokens
          · rw [htokens]
            exact hafter hmap
      | any after =>
          cases tokens with
          | nil =>
              rw [← Option.some.inj hrun]
              exact hany
          | cons token tail => exact hafter hrun
      | rule r after =>
          rw [run] at hrun
          exact hthen (hwithin r tokens) hrun
      | statement after =>
          rw [run] at hrun
          split at hrun
          next =>
            rw [← Option.some.inj hrun]
            exact hexpecting "statement" tokens
          next => exact ih hrun
      | optional guard body after =>
          rw [run] at hrun
          split at hrun
          next => exact hthen (fun _ => id) hrun
          next => exact ih hrun
      | repeated guard body after =>
          rw [run] at hrun
          split at hrun
          next => exact hthen (fun _ => id) hrun
          next => exact ih hrun
      | choice guard yes no =>
          rw [run] at hrun
          exact ih hrun

/-- Whatever a run leaves unread stands at the end of its tokens. -/
theorem suffix_of_run {fuel : Nat} {production : Production} {tokens : List Token}
    {outcome : Outcome} (hrun : run fuel production tokens = some outcome) :
    outcome.rest <:+ tokens := by
  refine run_induction (p := fun tokens outcome => outcome.rest <:+ tokens)
    (fun tokens => ?_) (fun expected tokens => ?_) ?_
    (fun token tail last hlast => ?_) (fun _ _ _ hstopped => hstopped)
    (fun join tokens left middle last hfirst hlast => ?_) hrun
  · exact List.suffix_refl tokens
  · exact ⟨[], Failure.rest_expecting expected tokens⟩
  · exact List.suffix_refl []
  · rw [Outcome.rest_mapForest]
    exact hlast.trans (List.suffix_cons token tail)
  · rw [Outcome.rest_mapForest]
    exact hlast.trans hfirst

/-- What follows a first part leaves what that part has left, or less. -/
theorem suffix_of_andThen {fuel : Nat} {second : Production}
    {around : Failure → Failure} {join : Forest Token → Forest Token → Forest Token}
    (hframe : Frame around join) {inner outcome : Outcome}
    (hthen : inner.andThen around join (run fuel second) = some outcome) :
    outcome.rest <:+ inner.rest := by
  rcases Outcome.andThen_eq_some hthen with
    ⟨failure, rfl, rfl⟩ | ⟨left, middle, last, rfl, hlast, rfl⟩
  · rw [Outcome.rest, hframe.rest_around]
    exact List.suffix_refl _
  · rw [Outcome.rest_mapForest]
    exact suffix_of_run hlast

/-- A run that reads a token does not leave it unread. -/
theorem rest_ne_of_leaf {fuel : Nat} {after : Production} {token : Token} {tail : List Token}
    {outcome : Outcome}
    (hrun : (run fuel after tail).map (.mapForest (.leaf token)) = some outcome) :
    outcome.rest ≠ token :: tail := by
  rcases Option.map_eq_some_iff.mp hrun with ⟨last, hlast, rfl⟩
  intro hrest
  have hshort := (suffix_of_run hlast).length_le
  rw [Outcome.rest_mapForest] at hrest
  rw [hrest, List.length_cons] at hshort
  omega

/-- Two parts that are run one after the other share what both of them read. -/
theorem exists_split_of_runs {fuel more : Nat} {first second : Production}
    {taken rest middle : List Token} {left : Forest Token} {last : Outcome}
    (hfirst : run fuel first (taken ++ rest) = some (.read left middle))
    (hsecond : run more second middle = some last) (hrest : last.rest = rest) :
    ∃ front back, taken = front ++ back ∧ middle = back ++ rest := by
  rcases suffix_of_run hfirst with ⟨front, hfront⟩
  rcases suffix_of_run hsecond with ⟨back, hback⟩
  rw [hrest] at hback
  refine ⟨front, back, ?_, hback.symm⟩
  rw [Outcome.rest, ← hback, ← List.append_assoc] at hfront
  exact (List.append_cancel_right hfront).symm

end Production

/-! ## What guards tell apart -/

def Guard.isLocal : Guard → Bool
  | beforeLast => false
  | _ => true

/-- Whether no run of a production looks past the next token. -/
def Production.isLocal : Production → Bool
  | done => true
  | word _ after => after.isLocal
  | any after => after.isLocal
  | rule r after => r != .classDec && after.isLocal
  | statement after => after.isLocal
  | optional guard body after => guard.isLocal && body.isLocal && after.isLocal
  | repeated guard body after => guard.isLocal && body.isLocal && after.isLocal
  | choice guard yes no => guard.isLocal && yes.isLocal && no.isLocal

theorem Rule.isLocal_production {r : Rule} (hrule : r ≠ .classDec) :
    r.production.isLocal = true := by
  cases r with
  | classDec => contradiction
  | _ => rfl

theorem statementRule?_ne_classDec {tokens : List Token} {r : Rule}
    (hrule : statementRule? tokens = some r) : r ≠ .classDec := by
  rcases statementRule?_eq_some_iff.mp hrule with ⟨word, hentry, _⟩
  intro hclass
  rw [hclass] at hentry
  simp [statementWords] at hentry

/-- Tokens that look the same at their head and, unless all guards are local, are
both more than one or both not. -/
structure LooksLike (isLocal : Bool) (rest rest' : List Token) : Prop where
  next : nextLexeme rest = nextLexeme rest'
  beforeLast : isLocal = true ∨ (1 < rest.length ↔ 1 < rest'.length)

namespace LooksLike

variable {isLocal inner : Bool} {rest rest' : List Token}

theorem mono (hlooks : LooksLike isLocal rest rest')
    (hinner : isLocal = true → inner = true) : LooksLike inner rest rest' :=
  ⟨hlooks.next, hlooks.beforeLast.imp_left hinner⟩

theorem of_lexemes (hlexemes : rest.map Token.lexeme = rest'.map Token.lexeme) :
    LooksLike isLocal rest rest' := by
  constructor
  · rw [nextLexeme, ← List.head?_map, hlexemes, List.head?_map, nextLexeme]
  · have hlength := congrArg List.length hlexemes
    rw [List.length_map, List.length_map] at hlength
    rw [hlength]
    exact Or.inr Iff.rfl

theorem left (hlooks : LooksLike (isLocal && inner) rest rest') :
    LooksLike isLocal rest rest' :=
  hlooks.mono fun hboth => (Bool.and_eq_true_iff.mp hboth).1

theorem right (hlooks : LooksLike (isLocal && inner) rest rest') :
    LooksLike inner rest rest' :=
  hlooks.mono fun hboth => (Bool.and_eq_true_iff.mp hboth).2

theorem eq_nil_iff (hlooks : LooksLike isLocal rest rest') : rest = [] ↔ rest' = [] := by
  have hnext := hlooks.next
  cases rest <;> cases rest' <;> simp_all [nextLexeme]

theorem append (hlooks : LooksLike isLocal rest rest') {taken taken' : List Token}
    (htaken : taken.map Token.lexeme = taken'.map Token.lexeme) :
    LooksLike isLocal (taken ++ rest) (taken' ++ rest') := by
  constructor
  · cases taken with
    | nil =>
        rw [List.map_eq_nil_iff.mp htaken.symm]
        exact hlooks.next
    | cons token taken =>
        cases taken' with
        | nil => contradiction
        | cons token' taken' => exact congrArg some (List.cons.inj htaken).1
  · apply hlooks.beforeLast.imp_right
    intro hcount
    have hlength := congrArg List.length htaken
    have hempty := hlooks.eq_nil_iff
    simp only [List.length_map, List.length_append, ← List.length_eq_zero_iff] at hlength hempty ⊢
    omega

theorem holds_eq {guard : Guard} (hlooks : LooksLike guard.isLocal rest rest') :
    guard.holds rest = guard.holds rest' := by
  rw [Bool.eq_iff_iff]
  cases guard with
  | next lexemes => rw [Guard.holds_next_iff, Guard.holds_next_iff, hlooks.next]
  | notNext lexeme => rw [Guard.holds_notNext_iff, Guard.holds_notNext_iff, hlooks.next]
  | statementNext =>
      rw [Guard.holds_statementNext_iff, Guard.holds_statementNext_iff, hlooks.next]
  | beforeLast =>
      rcases hlooks.beforeLast with hlocal | hcount
      · contradiction
      · simp [Guard.holds, hcount]

theorem statementRule?_eq (hlooks : LooksLike isLocal rest rest') :
    statementRule? rest = statementRule? rest' := by
  apply Option.ext
  intro r
  rw [statementRule?_eq_some_iff, statementRule?_eq_some_iff, hlooks.next]

end LooksLike

/-! ## Outcomes that read alike -/

/-- Mismatches at tokens that read alike, with the same text expected. -/
def Mismatch.ReadsAs : Mismatch → Mismatch → Prop
  | token expected found, token expected' found' => expected = expected' ∧ found.ReadsAs found'
  | endOfInput expected, endOfInput expected' => expected = expected'
  | _, _ => False

/-- Equal forests but for the places of their tokens, or failures in the same
rules with mismatches that read alike. -/
def Outcome.ReadsAs : Outcome → Outcome → Prop
  | read forest _, read forest' _ => forest.map Token.lexeme = forest'.map Token.lexeme
  | stopped failure, stopped failure' =>
    failure.mismatch.ReadsAs failure'.mismatch ∧ failure.path = failure'.path
  | _, _ => False

namespace Outcome

theorem ReadsAs.exists_read {forest : Forest Token} {rest : List Token} {outcome : Outcome}
    (hreads : ReadsAs (read forest rest) outcome) :
    ∃ forest', outcome = read forest' outcome.rest ∧
      forest.map Token.lexeme = forest'.map Token.lexeme := by
  cases outcome with
  | read forest' rest' => exact ⟨forest', rfl, hreads⟩
  | stopped failure => exact hreads.elim

theorem ReadsAs.exists_stopped {failure : Failure} {outcome : Outcome}
    (hreads : ReadsAs (stopped failure) outcome) :
    ∃ failure', outcome = stopped failure' ∧
      failure.mismatch.ReadsAs failure'.mismatch ∧ failure.path = failure'.path := by
  cases outcome with
  | read forest' rest' => exact hreads.elim
  | stopped failure' => exact ⟨failure', rfl, hreads⟩

theorem ReadsAs.mapForest {first second : Outcome} (hreads : first.ReadsAs second)
    {f g : Forest Token → Forest Token}
    (hmap : ∀ forest forest' : Forest Token,
      forest.map Token.lexeme = forest'.map Token.lexeme →
        (f forest).map Token.lexeme = (g forest').map Token.lexeme) :
    (first.mapForest f).ReadsAs (second.mapForest g) := by
  cases first with
  | read forest rest =>
      rcases hreads.exists_read with ⟨forest', hsecond, hforest⟩
      rw [hsecond]
      exact hmap _ _ hforest
  | stopped failure =>
      rcases hreads.exists_stopped with ⟨failure', hsecond, hfailure⟩
      rw [hsecond]
      exact hfailure

theorem readsAs_expecting (expected : String) {isLocal : Bool} {tokens tokens' : List Token}
    (hlooks : LooksLike isLocal tokens tokens') :
    ReadsAs (stopped (.expecting expected tokens)) (stopped (.expecting expected tokens')) := by
  have hnext := hlooks.next
  cases tokens with
  | nil =>
      rw [hlooks.eq_nil_iff.mp rfl]
      exact ⟨rfl, rfl⟩
  | cons token tail =>
      cases tokens' with
      | nil => contradiction
      | cons token' tail' => exact ⟨⟨rfl, Option.some.inj hnext⟩, rfl⟩

end Outcome

/-! ## Runs that see the same -/

namespace Production

/-- Runs with some fuel stay the same when the tokens they read are changed for
tokens that read alike, and what they leave for something that looks like it. -/
def RunsAlike (fuel : Nat) : Prop :=
  ∀ {production : Production} {taken taken' rest rest' : List Token} {outcome : Outcome},
    taken.map Token.lexeme = taken'.map Token.lexeme →
    LooksLike production.isLocal rest rest' →
    run fuel production (taken ++ rest) = some outcome → outcome.rest = rest →
      ∃ outcome', run fuel production (taken' ++ rest') = some outcome' ∧
        outcome'.rest = rest' ∧ outcome.ReadsAs outcome'

section

variable {taken taken' rest rest' : List Token} {outcome : Outcome}

private theorem andThen_alike {fuel : Nat} (ih : RunsAlike fuel) {first second : Production}
    {around : Failure → Failure} {join : Forest Token → Forest Token → Forest Token}
    (hframe : Frame around join) (htaken : taken.map Token.lexeme = taken'.map Token.lexeme)
    (hlooks : LooksLike (first.isLocal && second.isLocal) rest rest')
    (hrun : ((run fuel first (taken ++ rest)).bind fun o =>
      o.andThen around join (run fuel second)) = some outcome)
    (hrest : outcome.rest = rest) :
    ∃ outcome', ((run fuel first (taken' ++ rest')).bind fun o =>
        o.andThen around join (run fuel second)) = some outcome' ∧
      outcome'.rest = rest' ∧ outcome.ReadsAs outcome' := by
  rcases Outcome.bind_andThen_eq_some hrun with
    ⟨failure, hfirst, rfl⟩ | ⟨left, middle, last, hfirst, hsecond, rfl⟩
  · rw [Outcome.rest, hframe.rest_around] at hrest
    rcases ih htaken hlooks.left hfirst hrest with ⟨inner, hinner, hrest', hreads⟩
    rcases hreads.exists_stopped with ⟨failure', rfl, hmismatch, hpath⟩
    refine ⟨.stopped (around failure'), by rw [hinner]; rfl, ?_, ?_, ?_⟩
    · rw [Outcome.rest, hframe.rest_around]
      exact hrest'
    · rwa [hframe.mismatch_around, hframe.mismatch_around]
    · exact hframe.path_around _ _ hpath
  · rw [Outcome.rest_mapForest] at hrest
    rcases exists_split_of_runs hfirst hsecond hrest with ⟨front, back, rfl, rfl⟩
    rw [List.map_append] at htaken
    rcases List.map_eq_append_iff.mp htaken.symm with ⟨front', back', rfl, hfront, hback⟩
    rw [List.append_assoc] at hfirst ⊢
    rcases ih hfront.symm (hlooks.left.append hback.symm) hfirst rfl with
      ⟨inner, hinner, hmiddle, hreads⟩
    rcases hreads.exists_read with ⟨left', hread, hleft⟩
    rw [hmiddle] at hread
    rcases ih hback.symm hlooks.right hsecond hrest with ⟨last', hlast, hrest', hreadsLast⟩
    refine ⟨last'.mapForest (join left'), ?_, ?_, ?_⟩
    · rw [hinner, hread, Option.bind_some, Outcome.andThen, hlast]
      rfl
    · rwa [Outcome.rest_mapForest]
    · exact hreadsLast.mapForest fun _ _ => hframe.map_join _ _ _ _ hleft

private theorem leaf_alike {fuel : Nat} (ih : RunsAlike fuel) {after : Production}
    {token token' : Token} (htoken : token.lexeme = token'.lexeme)
    (htaken : taken.map Token.lexeme = taken'.map Token.lexeme)
    (hlooks : LooksLike after.isLocal rest rest')
    (hrun : (run fuel after (taken ++ rest)).map (.mapForest (.leaf token)) = some outcome)
    (hrest : outcome.rest = rest) :
    ∃ outcome',
      (run fuel after (taken' ++ rest')).map (.mapForest (.leaf token')) = some outcome' ∧
        outcome'.rest = rest' ∧ outcome.ReadsAs outcome' := by
  rcases Option.map_eq_some_iff.mp hrun with ⟨last, hlast, rfl⟩
  rw [Outcome.rest_mapForest] at hrest
  rcases ih htaken hlooks hlast hrest with ⟨last', hlast', hrest', hreads⟩
  refine ⟨last'.mapForest (.leaf token'), by rw [hlast']; rfl, ?_, ?_⟩
  · rwa [Outcome.rest_mapForest]
  · apply hreads.mapForest
    intro forest forest' hforest
    rw [Forest.map, Forest.map, htoken, hforest]

private theorem expecting_alike {isLocal : Bool} (expected : String)
    (htaken : taken.map Token.lexeme = taken'.map Token.lexeme)
    (hlooks : LooksLike isLocal rest rest')
    (hrest : (Outcome.stopped (.expecting expected (taken ++ rest))).rest = rest) :
    ∃ outcome', some (Outcome.stopped (.expecting expected (taken' ++ rest'))) = some outcome' ∧
      outcome'.rest = rest' ∧
        (Outcome.stopped (.expecting expected (taken ++ rest))).ReadsAs outcome' := by
  rw [Outcome.rest, Failure.rest_expecting] at hrest
  have hnil : taken = [] := List.append_left_eq_self.mp hrest
  subst hnil
  rw [List.map_eq_nil_iff.mp htaken.symm]
  exact ⟨_, rfl, Failure.rest_expecting expected rest',
    Outcome.readsAs_expecting expected hlooks⟩

theorem run_alike (fuel : Nat) : RunsAlike fuel := by
  induction fuel with
  | zero =>
      intro production taken taken' rest rest' outcome _ _ hrun _
      simp [run] at hrun
  | succ fuel ih =>
      intro production taken taken' rest rest' outcome htaken hlooks hrun hrest
      have hview := hlooks.append htaken
      cases production with
      | done =>
          rw [← Option.some.inj hrun] at hrest ⊢
          have hnil : taken = [] := List.append_left_eq_self.mp hrest
          rw [hnil] at htaken
          rw [List.map_eq_nil_iff.mp htaken.symm]
          exact ⟨.read .nil rest', rfl, rfl, rfl⟩
      | word lexeme after =>
          rcases run_word_cases hrun with ⟨hnext, rfl⟩ | ⟨token, tail, htokens, hword, hleaf⟩
          · rw [run_word_of_ne (hview.next ▸ hnext)]
            exact expecting_alike lexeme htaken hlooks hrest
          · cases taken with
            | nil => exact absurd (hrest.trans htokens) (rest_ne_of_leaf hleaf)
            | cons first taken =>
                rcases List.cons.inj htokens with ⟨rfl, rfl⟩
                rcases List.map_eq_cons_iff.mp htaken.symm with
                  ⟨first', taken', rfl, hfirst, htail⟩
                rw [List.cons_append, run_word_of_eq (hfirst.trans hword)]
                exact leaf_alike ih hfirst.symm htail.symm hlooks hleaf hrest
      | any after =>
          cases taken with
          | nil =>
              rw [List.map_eq_nil_iff.mp htaken.symm]
              cases rest with
              | nil =>
                  rw [← Option.some.inj hrun, hlooks.eq_nil_iff.mp rfl]
                  exact ⟨_, rfl, rfl, rfl, rfl⟩
              | cons token tail => exact absurd hrest (rest_ne_of_leaf hrun)
          | cons first taken =>
              rcases List.map_eq_cons_iff.mp htaken.symm with
                ⟨first', taken', rfl, hfirst, htail⟩
              exact leaf_alike ih hfirst.symm htail.symm hlooks hrun hrest
      | rule r after =>
          rw [run] at hrun ⊢
          apply andThen_alike ih (.node r) htaken (hlooks.mono ?_) hrun hrest
          intro hlocal
          rw [isLocal, Bool.and_eq_true_iff, bne_iff_ne] at hlocal
          rw [Rule.isLocal_production hlocal.1, hlocal.2]
          rfl
      | statement after =>
          rw [run, hview.statementRule?_eq] at hrun
          rw [run]
          cases hrule : statementRule? (taken' ++ rest') with
          | none =>
              rw [hrule] at hrun
              rw [← Option.some.inj hrun] at hrest ⊢
              exact expecting_alike "statement" htaken hlooks hrest
          | some r =>
              rw [hrule] at hrun
              apply ih htaken (hlooks.mono ?_) hrun hrest
              intro hlocal
              rw [isLocal, bne_iff_ne.mpr (statementRule?_ne_classDec hrule)]
              exact hlocal
      | optional guard body after =>
          simp only [isLocal, Bool.and_assoc] at hlooks hview
          rw [run, hview.left.holds_eq] at hrun
          rw [run]
          by_cases hguard : guard.holds (taken' ++ rest') = true
          · rw [if_pos hguard] at hrun ⊢
            exact andThen_alike ih .append htaken hlooks.right hrun hrest
          · rw [if_neg hguard] at hrun ⊢
            exact ih htaken hlooks.right.right hrun hrest
      | repeated guard body after =>
          simp only [isLocal, Bool.and_assoc] at hlooks hview
          rw [run, hview.left.holds_eq] at hrun
          rw [run]
          by_cases hguard : guard.holds (taken' ++ rest') = true
          · rw [if_pos hguard] at hrun ⊢
            apply andThen_alike ih .append htaken (hlooks.mono ?_) hrun hrest
            intro hlocal
            simp_all [isLocal]
          · rw [if_neg hguard] at hrun ⊢
            exact ih htaken hlooks.right.right hrun hrest
      | choice guard yes no =>
          simp only [isLocal, Bool.and_assoc] at hlooks hview
          rw [run, hview.left.holds_eq] at hrun
          rw [run]
          by_cases hguard : guard.holds (taken' ++ rest') = true
          · rw [if_pos hguard] at hrun ⊢
            exact ih htaken hlooks.right.left hrun hrest
          · rw [if_neg hguard] at hrun ⊢
            exact ih htaken hlooks.right.right hrun hrest

end

end Production

/-! ## Parsing by a rule -/

/-- An outcome seen from the rule around it. -/
def Outcome.within (r : Rule) : Outcome → Outcome
  | read forest rest => read forest rest
  | stopped failure => stopped (failure.within r)

theorem Outcome.rest_within (r : Rule) (outcome : Outcome) :
    (outcome.within r).rest = outcome.rest := by
  cases outcome <;> rfl

theorem Outcome.ReadsAs.within {first second : Outcome} (hreads : first.ReadsAs second)
    (r : Rule) : (first.within r).ReadsAs (second.within r) := by
  cases first with
  | read forest rest =>
      rcases hreads.exists_read with ⟨forest', hsecond, hforest⟩
      rw [hsecond]
      exact hforest
  | stopped failure =>
      rcases hreads.exists_stopped with ⟨failure', hsecond, hmismatch, hpath⟩
      rw [hsecond]
      exact ⟨hmismatch, congrArg (r :: ·) hpath⟩

namespace Rule

variable {r : Rule} {tokens tokens' taken taken' rest rest' : List Token}

theorem parse_of_run {fuel : Nat} {outcome : Outcome}
    (hrun : Production.run fuel r.production tokens = some outcome) :
    r.parse tokens = outcome.within r := by
  have henough := Option.some_get (r.run_isSome tokens)
  have hmore := Production.run_of_le (Nat.le_max_left fuel (enoughFuel tokens)) hrun
  have hagree := Production.run_of_le (Nat.le_max_right fuel (enoughFuel tokens)) henough.symm
  rw [hmore, Option.some.injEq] at hagree
  rw [parse, ← hagree]
  cases outcome <;> rfl

theorem exists_run (r : Rule) (tokens : List Token) :
    ∃ fuel outcome, Production.run fuel r.production tokens = some outcome ∧
      r.parse tokens = outcome.within r := by
  have henough := Option.some_get (r.run_isSome tokens)
  exact ⟨_, _, henough.symm, parse_of_run henough.symm⟩

theorem suffix_of_parse (r : Rule) (tokens : List Token) : (r.parse tokens).rest <:+ tokens := by
  rcases r.exists_run tokens with ⟨fuel, outcome, hrun, hparse⟩
  rw [hparse, Outcome.rest_within]
  exact Production.suffix_of_run hrun

theorem parse_alike (htaken : taken.map Token.lexeme = taken'.map Token.lexeme)
    (hlooks : LooksLike r.production.isLocal rest rest')
    (hrest : (r.parse (taken ++ rest)).rest = rest) :
    (r.parse (taken' ++ rest')).rest = rest' ∧
      (r.parse (taken ++ rest)).ReadsAs (r.parse (taken' ++ rest')) := by
  rcases r.exists_run (taken ++ rest) with ⟨fuel, outcome, hrun, hparse⟩
  rw [hparse, Outcome.rest_within] at hrest
  rcases Production.run_alike fuel htaken hlooks hrun hrest with ⟨outcome', hrun', hrest', hreads⟩
  rw [hparse, parse_of_run hrun', Outcome.rest_within]
  exact ⟨hrest', hreads.within r⟩

/-- Tokens that read alike one by one are parsed alike. -/
theorem parse_of_lexemes (r : Rule)
    (hlexemes : tokens.map Token.lexeme = tokens'.map Token.lexeme) :
    (r.parse tokens).rest.map Token.lexeme = (r.parse tokens').rest.map Token.lexeme ∧
      (r.parse tokens).ReadsAs (r.parse tokens') := by
  rcases r.suffix_of_parse tokens with ⟨taken, htaken⟩
  rw [← htaken, List.map_append] at hlexemes
  rcases List.map_eq_append_iff.mp hlexemes.symm with ⟨taken', rest', rfl, hfront, hback⟩
  have hlooks : LooksLike r.production.isLocal (r.parse tokens).rest rest' :=
    .of_lexemes hback.symm
  have hrest : (r.parse (taken ++ (r.parse tokens).rest)).rest = (r.parse tokens).rest := by
    rw [htaken]
  have halike := parse_alike hfront.symm hlooks hrest
  rw [htaken] at halike
  rw [halike.1]
  exact ⟨hback.symm, halike.2⟩

end Rule

/-! ## Parsing of streams -/

/-- Errors with the same cause, in the same rules, before tokens that read alike. -/
def SyntaxError.ReadsAs (a b : SyntaxError) : Prop :=
  (match a.cause, b.cause with
    | .mismatch mismatch, .mismatch mismatch' => mismatch.ReadsAs mismatch'
    | cause, cause' => cause = cause') ∧
  a.remaining.map Token.lexeme = b.remaining.map Token.lexeme ∧ a.stack = b.stack

/-- Equal trees but for the places of their tokens, or errors that read alike. -/
def ParsedAlike : Except SyntaxError (Node Token) → Except SyntaxError (Node Token) → Prop
  | .ok node, .ok node' => node.map Token.lexeme = node'.map Token.lexeme
  | .error error, .error error' => error.ReadsAs error'
  | _, _ => False

/-- A class that is not read is reported with the tokens before which it stopped. -/
theorem TokenStream.parseClass_eq (stream : TokenStream) :
    stream.parseClass =
      match Rule.classDec.parse stream.remaining with
      | .read children _ => .ok ⟨.classDec, children⟩
      | .stopped failure => .error ⟨.mismatch failure.mismatch,
          Parser.location (Parser.leave stream failure.rest), failure.rest, failure.path⟩ := by
  rcases Rule.classDec.suffix_of_parse stream.remaining with ⟨taken, htaken⟩
  have hleave := (remaining_leave htaken.symm).2
  unfold parseClass Parser.parse
  change Prod.fst (match Rule.classDec.parse stream.remaining with
    | .read children rest => _
    | .stopped failure => Parser.fail _ _) = _
  cases hparse : Rule.classDec.parse stream.remaining with
  | read children rest => rfl
  | stopped failure =>
      rw [hparse] at hleave
      simp only [Parser.fail, Parser.ofStream, List.nil_append]
      rw [← Outcome.rest, hleave]

/-- Streams with the same texts ahead give the same class. -/
theorem TokenStream.parseClass_alike {a b : TokenStream}
    (hlexemes : a.remaining.map Token.lexeme = b.remaining.map Token.lexeme) :
    ParsedAlike a.parseClass b.parseClass := by
  rcases Rule.parse_of_lexemes .classDec hlexemes with ⟨hrest, hreads⟩
  rw [a.parseClass_eq, b.parseClass_eq]
  cases hparse : Rule.classDec.parse a.remaining with
  | read children rest =>
      rw [hparse] at hreads
      rcases hreads.exists_read with ⟨children', hparse', hchildren⟩
      rw [hparse']
      exact congrArg (Node.mk _) hchildren
  | stopped failure =>
      rw [hparse] at hreads hrest
      rcases hreads.exists_stopped with ⟨failure', hparse', hmismatch, hpath⟩
      rw [hparse'] at hrest
      rw [hparse']
      exact ⟨hmismatch, hrest, hpath⟩

end JackTree
