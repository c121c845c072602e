import JackTree.Proofs.Completion

/-!
# Correct prefixes

A parser that stops has read nothing wrong: what it has read begins a text that
is accepted, while the token at which it stopped does not go on with it.
`errors_mark_first_wrong_token` says so for classes.  The closing brace of a class
is the exception, since it is looked for in front of the last token only: with
more tokens behind it the same token would have begun a subroutine.
-/

namespace JackTree

open Production

/-! ## Failures -/

theorem Outcome.mapForest_eq_stopped {f : Forest Token → Forest Token} {outcome : Outcome}
    {failure : Failure} (hstopped : .stopped failure = outcome.mapForest f) :
    outcome = .stopped failure := by
  cases outcome with
  | read forest rest => contradiction
  | stopped inner => exact hstopped.symm

/-- What is true of a failure where it arises and around every rule is true of
every failure of a run. -/
theorem Production.failure_of_run {p : Failure → Prop}
    (hexpecting : ∀ expected tokens, p (.expecting expected tokens))
    (hany : p ⟨.endOfInput none, [], []⟩)
    (hwithin : ∀ r failure, p failure → p (failure.within r))
    {fuel : Nat} {production : Production} {tokens : List Token} {failure : Failure}
    (hrun : run fuel production tokens = some (.stopped failure)) : p failure := by
  have hmap : ∀ {f : Forest Token → Forest Token} {last : Outcome},
      (∀ failure, last = .stopped failure → p failure) →
        ∀ failure, last.mapForest f = .stopped failure → p failure := by
    intro f last hlast failure hstopped
    exact hlast failure (Outcome.mapForest_eq_stopped hstopped.symm)
  have hall : ∀ failure', Outcome.stopped failure = .stopped failure' → p failure' := by
    refine run_induction (p := fun _ outcome => ∀ failure, outcome = .stopped failure → p failure)
      (fun tokens failure hread => ?_) (fun expected tokens failure hstopped => ?_)
      (fun failure hstopped => ?_) (fun token tail last hlast => hmap hlast)
      (fun r tokens inner hinner failure hstopped => ?_)
      (fun join tokens left middle last _ hlast => hmap hlast) hrun
    · cases hread
    · exact Outcome.stopped.inj hstopped ▸ hexpecting expected tokens
    · exact Outcome.stopped.inj hstopped ▸ hany
    · exact Outcome.stopped.inj hstopped ▸ hwithin r inner (hinner inner rfl)
  exact hall failure rfl

/-- A failure tells the token before which the run stopped, or that there is none. -/
def Failure.TellsNext (failure : Failure) : Prop :=
  match failure.mismatch with
  | .token _ found => failure.rest.head? = some found
  | .endOfInput _ => failure.rest = []

theorem Production.tellsNext_of_run {fuel : Nat} {production : Production} {tokens : List Token}
    {failure : Failure} (hrun : run fuel production tokens = some (.stopped failure)) :
    failure.TellsNext := by
  have hexpecting : ∀ expected tokens, (Failure.expecting expected tokens).TellsNext := by
    intro expected tokens
    cases tokens <;> rfl
  have hany : Failure.TellsNext ⟨.endOfInput none, [], []⟩ := rfl
  exact failure_of_run hexpecting hany (fun _ _ htells => htells) hrun

/-! ## Productions one after another -/

theorem Outcome.mapForest_mapForest (f g : Forest Token → Forest Token) (outcome : Outcome) :
    (outcome.mapForest g).mapForest f = outcome.mapForest (f ∘ g) := by
  cases outcome <;> rfl

/-- Going on after a forest that stands behind something else. -/
theorem Outcome.andThen_mapForest {f : Forest Token → Forest Token}
    (happend : ∀ left right, f left ++ right = f (left ++ right)) {first outcome : Outcome}
    {next : List Token → Option Outcome}
    (hthen : first.andThen id (· ++ ·) next = some outcome) :
    (first.mapForest f).andThen id (· ++ ·) next = some (outcome.mapForest f) := by
  cases first with
  | read left middle =>
      rcases Option.map_eq_some_iff.mp hthen with ⟨last, hlast, rfl⟩
      rw [mapForest, andThen, hlast, mapForest_mapForest, Option.map_some]
      congr 2
      funext right
      exact happend left right
  | stopped failure =>
      rw [← Option.some.inj hthen]
      rfl

/-- A run of two productions is a run of the first and, if that one does not
stop, a run of the second. -/
theorem Production.run_followedBy {fuel : Nat} {p q : Production} {tokens : List Token}
    {outcome : Outcome} (hrun : run fuel (p.followedBy q) tokens = some outcome) :
    ∃ first more, run fuel p tokens = some first ∧
      first.andThen id (· ++ ·) (run more q) = some outcome := by
  induction fuel generalizing p tokens outcome with
  | zero => simp [run] at hrun
  | succ fuel ih =>
      have hleaf : ∀ {after : Production} {token : Token} {tail : List Token},
          (run fuel (after.followedBy q) tail).map (Outcome.mapForest (.leaf token)) =
              some outcome →
            ∃ (first : Outcome) (more : Nat),
              (run fuel after tail).map (Outcome.mapForest (.leaf token)) = some first ∧
                first.andThen id (· ++ ·) (run more q) = some outcome := by
        intro after token tail hmap
        rcases Option.map_eq_some_iff.mp hmap with ⟨last, hlast, rfl⟩
        rcases ih hlast with ⟨first, more, hfirst, hthen⟩
        exact ⟨_, more, by rw [hfirst]; rfl, Outcome.andThen_mapForest (fun _ _ => rfl) hthen⟩
      have hsequence : ∀ {body after : Production} {around : Failure → Failure}
          {join : Forest Token → Forest Token → Forest Token},
          (∀ left middle right, join left middle ++ right = join left (middle ++ right)) →
          ((run fuel body tokens).bind fun o =>
            o.andThen around join (run fuel (after.followedBy q))) = some outcome →
            ∃ (first : Outcome) (more : Nat),
              ((run fuel body tokens).bind fun o => o.andThen around join (run fuel after)) =
                some first ∧ first.andThen id (· ++ ·) (run more q) = some outcome := by
        intro body after around join hjoin hbind
        rcases Outcome.bind_andThen_eq_some hbind with
          ⟨failure, hbody, rfl⟩ | ⟨left, middle, last, hbody, hlast, rfl⟩
        · exact ⟨.stopped (around failure), 0, by rw [hbody]; rfl, rfl⟩
        · rcases ih hlast with ⟨first, more, hfirst, hthen⟩
          refine ⟨first.mapForest (join left), more, ?_,
            Outcome.andThen_mapForest (hjoin left) hthen⟩
          rw [hbody, Option.bind_some, Outcome.andThen, hfirst]
          rfl
      cases p with
      | done =>
          refine ⟨.read .nil tokens, fuel + 1, rfl, ?_⟩
          rw [followedBy] at hrun
          rw [Outcome.andThen, hrun]
          cases outcome <;> rfl
      | word lexeme after =>
          rcases run_word_cases hrun with ⟨hnext, rfl⟩ | ⟨token, tail, rfl, hword, hmap⟩
          · exact ⟨_, 0, run_word_of_ne hnext, rfl⟩
          · rw [run_word_of_eq hword]
            exact hleaf hmap
      | any after =>
          cases tokens with
          | nil =>
              rw [← Option.some.inj hrun]
              exact ⟨_, 0, rfl, rfl⟩
          | cons token tail => exact hleaf hrun
      | rule r after =>
          rw [followedBy, run] at hrun
          exact hsequence (fun _ _ _ => rfl) hrun
      | statement after =>
          rw [followedBy, run] at hrun
          rw [run]
          cases hrule : statementRule? tokens with
          | none =>
              rw [hrule] at hrun
              rw [← Option.some.inj hrun]
              exact ⟨_, 0, rfl, rfl⟩
          | some r =>
              rw [hrule] at hrun
              exact ih hrun
      | optional guard body after =>
          rw [followedBy, run] at hrun
          rw [run]
          by_cases hguard : guard.holds tokens = true
          · rw [if_pos hguard] at hrun ⊢
            exact hsequence Forest.append_assoc hrun
          · rw [if_neg hguard] at hrun ⊢
            exact ih hrun
      | repeated guard body after =>
          rw [followedBy, run] at hrun
          rw [run]
          by_cases hguard : guard.holds tokens = true
          · rw [if_pos hguard] at hrun ⊢
            exact hsequence Forest.append_assoc hrun
          · rw [if_neg hguard] at hrun ⊢
            exact ih hrun
      | choice guard yes no =>
          rw [followedBy, run] at hrun
          rw [run]
          by_cases hguard : guard.holds tokens = true
          · rw [if_pos hguard] at hrun ⊢
            exact ih hrun
          · rw [if_neg hguard] at hrun ⊢
            exact ih hrun

/-! ## The two halves of a class -/

/-- A class up to its subroutines. -/
def classOpening : Production :=
  word "class" <| any <| word openBrace <|
    repeated (.next ["static", "field"]) (rule .classVarDec done) done

/-- The subroutines of a class and its closing brace. -/
def classEnding : Production :=
  repeated .beforeLast (rule .subroutineDec done) <| word closeBrace done

theorem classDec_eq_followedBy :
    Rule.classDec.production = classOpening.followedBy classEnding := rfl

theorem Production.run_unique {fuel more : Nat} {production : Production} {tokens : List Token}
    {a b : Outcome} (hfirst : run fuel production tokens = some a)
    (hsecond : run more production tokens = some b) : a = b := by
  have hmore := run_of_le (Nat.le_max_left fuel more) hfirst
  have hmore' := run_of_le (Nat.le_max_right fuel more) hsecond
  rw [hmore] at hmore'
  exact Option.some.inj hmore'

theorem Production.length_of_reads {production : Production} {tokens rest : List Token}
    {forest : Forest Token} (hreads : production.Reads Rule.Parses tokens forest rest)
    (htoken : production.readsToken = true) : rest.length < tokens.length := by
  have hruns := runsTo_of_reads (hreads.mono fun _ _ _ _ => Rule.parses_iff_runsTo.mp)
  rcases hruns with ⟨fuel, hrun⟩
  exact (length_of_run hrun).2 htoken

theorem length_rest_of_any {fuel : Nat} {after : Production} {tokens : List Token}
    {outcome : Outcome} (htokens : tokens ≠ [])
    (hrun : run fuel (any after) tokens = some outcome) :
    outcome.rest.length < tokens.length := by
  cases fuel with
  | zero => simp [run] at hrun
  | succ fuel =>
      cases tokens with
      | nil => contradiction
      | cons token tail =>
          rcases Option.map_eq_some_iff.mp hrun with ⟨last, hlast, rfl⟩
          rw [Outcome.rest_mapForest]
          exact Nat.lt_succ_of_le (suffix_of_run hlast).length_le

/-- A subroutine takes the token it starts at, whatever that is. -/
theorem length_rest_of_subroutine {fuel : Nat} {tokens : List Token} {outcome : Outcome}
    (htokens : tokens ≠ []) (hrun : run fuel (rule .subroutineDec done) tokens = some outcome) :
    outcome.rest.length < tokens.length := by
  cases fuel with
  | zero => simp [run] at hrun
  | succ fuel =>
      rw [run] at hrun
      rcases Outcome.bind_andThen_eq_some hrun with
        ⟨failure, hstop, rfl⟩ | ⟨left, middle, last, hread, hlast, rfl⟩
      · have hshort : (Outcome.stopped failure).rest.length < tokens.length :=
          length_rest_of_any htokens hstop
        exact hshort
      · rw [Outcome.rest_mapForest]
        exact Nat.lt_of_le_of_lt (suffix_of_run hlast).length_le
          (length_rest_of_any htokens hread)

/-! ## Completing a class -/

theorem reads_closeBrace :
    classEnding.Reads Rule.Parses (spell [closeBrace] ++ [])
      (.leaf ⟨closeBrace, default⟩ .nil) [] :=
  reads_repeated_none rfl (reads_word rfl reads_done)

theorem ending_completes {fuel : Nat} {taken rest : List Token} {outcome : Outcome}
    (hrun : run fuel classEnding (taken ++ rest) = some outcome) (hrest : outcome.rest = rest) :
    ∃ added forest, classEnding.Reads Rule.Parses (taken ++ (added ++ [])) forest [] := by
  induction fuel generalizing taken rest outcome with
  | zero => simp [run] at hrun
  | succ fuel ih =>
      cases taken with
      | nil => exact ⟨spell [closeBrace], _, reads_closeBrace⟩
      | cons first taken =>
          rw [classEnding, run] at hrun
          split at hrun
          next =>
            rcases Option.bind_eq_some_iff.mp hrun with ⟨inner, hinner, hthen⟩
            have hclosable : (rule .subroutineDec done).closable closeBrace = true := rfl
            rcases andThen_completes (run_completes fuel) .append hclosable reads_closeBrace rfl
              ih hinner hthen hrest with ⟨added, left, middle, right, hleft, hright⟩
            refine ⟨added, _, reads_repeated_one ?_ hleft hright⟩
            have hfirst := length_of_reads hleft rfl
            have hlast := length_of_reads hright rfl
            rw [Guard.holds, decide_eq_true_eq]
            omega
          next hguard =>
            have hsingle : taken = [] ∧ rest = [] := by
              simpa [Guard.holds] using hguard
            rcases hsingle with ⟨rfl, rfl⟩
            cases fuel with
            | zero => simp [run] at hrun
            | succ fuel =>
                rcases run_word_cases hrun with ⟨_, rfl⟩ | ⟨token, tail, htokens, hword, _⟩
                · contradiction
                · rw [(List.cons.inj htokens).1] at *
                  exact ⟨[], _, reads_repeated_none rfl (reads_word hword reads_done)⟩

theorem class_completes {fuel : Nat} {taken rest : List Token} {outcome : Outcome}
    (hrun : run fuel Rule.classDec.production (taken ++ rest) = some outcome)
    (hrest : outcome.rest = rest) :
    ∃ added children, Rule.classDec.Parses (taken ++ added) children [] := by
  rw [classDec_eq_followedBy] at hrun
  rcases run_followedBy hrun with ⟨inner, more, hinner, hthen⟩
  have hclosable : classOpening.closable closeBrace = true := by decide
  rcases andThen_completes (run_completes fuel) .append hclosable reads_closeBrace rfl
    ending_completes hinner hthen hrest with ⟨added, left, middle, right, hleft, hright⟩
  rw [List.append_nil] at hleft
  refine ⟨added, left ++ right, Rule.parses_iff_reads.mpr ?_⟩
  rw [classDec_eq_followedBy]
  exact reads_followedBy_iff.mpr ⟨left, middle, right, hleft, hright, rfl⟩

/-! ## Tokens that do not go on -/

/-- Whether a failure is that of the closing brace of the class itself. -/
def Failure.AtBrace (failure : Failure) : Prop :=
  failure.path = [] ∧ ∃ found, failure.mismatch = .token closeBrace found

/-- An ending that stops at some token stops whatever follows the token. -/
theorem ending_stops {fuel : Nat} {taken rest rest' : List Token} {failure : Failure}
    (hnext : nextLexeme rest = nextLexeme rest') (hnonempty : rest ≠ [])
    (hrun : run fuel classEnding (taken ++ rest) = some (.stopped failure))
    (hrest : failure.rest = rest) (hbrace : ¬failure.AtBrace) :
    ∃ failure', run fuel classEnding (taken ++ rest') = some (.stopped failure') := by
  have hlooks : LooksLike (rule .subroutineDec done).isLocal rest rest' := ⟨hnext, Or.inl rfl⟩
  induction fuel generalizing taken failure with
  | zero => simp [run] at hrun
  | succ fuel ih =>
      rw [classEnding, run] at hrun ⊢
      by_cases hguard : Guard.beforeLast.holds (taken ++ rest) = true
      · rw [if_pos hguard] at hrun
        rcases Option.bind_eq_some_iff.mp hrun with ⟨inner, hinner, hthen⟩
        have htaken : taken ≠ [] := by
          intro hnil
          rw [hnil] at hinner
          have hshort := length_rest_of_subroutine hnonempty hinner
          have hbehind := (suffix_of_andThen .append hthen).length_le
          rw [Outcome.rest, hrest] at hbehind
          exact absurd hshort (Nat.not_lt_of_le hbehind)
        have hguard' : Guard.beforeLast.holds (taken ++ rest') = true := by
          have hnonempty' := mt hlooks.eq_nil_iff.mpr hnonempty
          have hfront := List.length_pos_iff.mpr htaken
          have hback := List.length_pos_iff.mpr hnonempty'
          rw [Guard.holds, decide_eq_true_eq, List.length_append]
          omega
        rw [if_pos hguard']
        rcases Outcome.andThen_eq_some hthen with
          ⟨inner, rfl, hstopped⟩ | ⟨left, middle, last, rfl, hlast, hstopped⟩
        · rw [Outcome.stopped.inj hstopped] at hrest
          rcases run_alike fuel rfl hlooks hinner hrest with ⟨again, hagain, _, hreads⟩
          rcases hreads.exists_stopped with ⟨failure', rfl, _, _⟩
          exact ⟨failure', by rw [hagain]; rfl⟩
        · rw [Outcome.mapForest_eq_stopped hstopped] at hlast
          rcases exists_split_of_runs hinner hlast hrest with ⟨front, back, rfl, rfl⟩
          rw [List.append_assoc] at hinner ⊢
          rcases run_alike fuel rfl (hlooks.append rfl) hinner rfl with
            ⟨again, hagain, hmiddle, hreads⟩
          rcases hreads.exists_read with ⟨left', houtcome, _⟩
          rcases ih hlast hrest hbrace with ⟨failure', hstop⟩
          refine ⟨failure', ?_⟩
          rw [hagain, houtcome, hmiddle, Option.bind_some, Outcome.andThen]
          change (run fuel classEnding (back ++ rest')).map _ = _
          rw [hstop]
          rfl
      · rw [if_neg hguard] at hrun
        -- the brace is looked for here, so this is the failure that is left out
        cases fuel with
        | zero => simp [run] at hrun
        | succ fuel =>
            rcases run_word_cases hrun with ⟨_, hstopped⟩ | ⟨token, tail, _, _, hmap⟩
            · rw [Outcome.stopped.inj hstopped] at hbrace
              apply absurd _ hbrace
              cases htokens : taken ++ rest with
              | nil => exact absurd (List.append_eq_nil_iff.mp htokens).2 hnonempty
              | cons token tail => exact ⟨rfl, token, rfl⟩
            · rcases Option.map_eq_some_iff.mp hmap with ⟨last, hlast, hstopped⟩
              rw [Outcome.mapForest_eq_stopped hstopped.symm] at hlast
              cases fuel <;> simp [run] at hlast

theorem class_stops {fuel : Nat} {taken rest rest' : List Token} {failure : Failure}
    (hnext : nextLexeme rest = nextLexeme rest') (hnonempty : rest ≠ [])
    (hrun : run fuel Rule.classDec.production (taken ++ rest) = some (.stopped failure))
    (hrest : failure.rest = rest) (hbrace : ¬failure.AtBrace) (children : Forest Token) :
    ¬Rule.classDec.Parses (taken ++ rest') children [] := by
  intro hparse
  rcases Rule.parses_iff_runsTo.mp hparse with ⟨fuel', haccept⟩
  rw [classDec_eq_followedBy] at hrun haccept
  rcases run_followedBy hrun with ⟨first, more, hfirst, hthen⟩
  rcases run_followedBy haccept with ⟨first', more', hfirst', hthen'⟩
  have hlooks : LooksLike classOpening.isLocal rest rest' := ⟨hnext, Or.inl (by decide)⟩
  rcases Outcome.andThen_eq_some hthen' with
    ⟨inner, _, hstopped⟩ | ⟨left', middle', last', rfl, hlast', hread⟩
  · contradiction
  rcases Outcome.andThen_eq_some hthen with
    ⟨inner, rfl, hstopped⟩ | ⟨left, middle, last, rfl, hlast, hstopped⟩
  · rw [Outcome.stopped.inj hstopped] at hrest
    rcases run_alike fuel rfl hlooks hfirst hrest with ⟨again, hagain, _, hreads⟩
    rcases hreads.exists_stopped with ⟨failure', rfl, _, _⟩
    have hcontra := run_unique hagain hfirst'
    contradiction
  · rw [Outcome.mapForest_eq_stopped hstopped] at hlast
    rcases exists_split_of_runs hfirst hlast hrest with ⟨front, back, rfl, rfl⟩
    rw [List.append_assoc] at hfirst hfirst'
    rcases run_alike fuel rfl (hlooks.append rfl) hfirst rfl with ⟨again, hagain, hmiddle, hreads⟩
    have hagree := run_unique hagain hfirst'
    rw [hagree, Outcome.rest] at hmiddle
    rw [hmiddle] at hlast'
    rcases ending_stops hnext hnonempty hlast hrest hbrace with ⟨failure', hstop⟩
    rw [← run_unique hstop hlast'] at hread
    contradiction

/-! ## Parsing a class -/

/-- What a stream has read when only `rest` is left of it. -/
theorem TokenStream.extract_leave {stream : TokenStream} {taken rest : List Token}
    (hremaining : stream.remaining = taken ++ rest) :
    stream.tokens.extract stream.position (Parser.leave stream rest).position = taken := by
  rw [(remaining_leave hremaining).1, List.extract_eq_take_drop, Nat.add_sub_cancel_left]
  change stream.remaining.take taken.length = taken
  rw [hremaining]
  exact List.take_left

theorem Parser.stopped_of_parse {parser later : Parser} {r : Rule} {error : SyntaxError}
    (hparse : parser.parse r = (.error error, later)) :
    ∃ (fuel : Nat) (failure : Failure) (taken : List Token),
      run fuel r.production (taken ++ failure.rest) = some (.stopped failure) ∧
        parser.stream.remaining = taken ++ failure.rest ∧
        parser.stream.tokens.extract parser.stream.position later.stream.position = taken ∧
        error.cause = .mismatch failure.mismatch ∧
        error.stack = parser.stack ++ r :: failure.path := by
  rcases r.exists_run parser.stream.remaining with ⟨fuel, outcome, hrun, houtcome⟩
  unfold parse at hparse
  rw [houtcome] at hparse
  cases outcome with
  | read children rest => simp [Outcome.within] at hparse
  | stopped failure =>
      rcases suffix_of_run hrun with ⟨taken, htaken⟩
      have hremaining : parser.stream.remaining = taken ++ failure.rest := htaken.symm
      rcases Prod.mk.inj hparse with ⟨herror, hlater⟩
      rw [hremaining] at hrun
      refine ⟨fuel, failure, taken, hrun, hremaining, ?_, ?_, ?_⟩
      · rw [← hlater]
        exact TokenStream.extract_leave hremaining
      · rw [← Except.error.inj herror]
        rfl
      · rw [← Except.error.inj herror]
        rfl

theorem TokenStream.parseClass_ofTokens_eq_ok {tokens : List Token} {children : Forest Token}
    (hparse : Rule.classDec.Parses tokens children []) :
    (ofTokens tokens).parseClass = .ok ⟨.classDec, children⟩ :=
  parseClass_eq_ok_iff.mpr ⟨rfl, hparse⟩

/-- When a class is rejected, what was read of it begins some class, and it is
all of the input if the input was found to end too early.  With the token at
which a mismatch was found it begins no class, unless the token was taken for the
closing brace of the class. -/
theorem errors_mark_first_wrong_token {stream : TokenStream} {error : SyntaxError} {later : Parser}
    (hparse : (Parser.ofStream stream).parse .classDec = (.error error, later)) :
    let consumed := stream.tokens.extract stream.position later.stream.position
    (∃ added node, (TokenStream.ofTokens (consumed ++ added)).parseClass = .ok node) ∧
    (∀ expected, error.cause = .mismatch (.endOfInput expected) →
      consumed = stream.remaining) ∧
    (∀ expected found, error.cause = .mismatch (.token expected found) →
      ¬(error.stack = [.classDec] ∧ expected = closeBrace) →
        ∀ (other : TokenStream) (more : List Token),
          other.remaining = consumed ++ found :: more → ∀ node, other.parseClass ≠ .ok node) := by
  rcases Parser.stopped_of_parse hparse with
    ⟨fuel, failure, taken, hrun, hremaining, hconsumed, hcause, hstack⟩
  have htells := tellsNext_of_run hrun
  change stream.tokens.extract stream.position later.stream.position = taken at hconsumed
  change stream.remaining = taken ++ failure.rest at hremaining
  simp only [hconsumed]
  refine ⟨?_, ?_, ?_⟩
  · rcases class_completes hrun rfl with ⟨added, children, haccept⟩
    exact ⟨added, _, TokenStream.parseClass_ofTokens_eq_ok haccept⟩
  · intro expected hend
    rw [hcause] at hend
    rw [Failure.TellsNext, SyntaxError.Cause.mismatch.inj hend] at htells
    rw [hremaining, htells, List.append_nil]
  · intro expected found hmismatch hbrace other more hother node haccept
    rw [hcause] at hmismatch
    have htoken := SyntaxError.Cause.mismatch.inj hmismatch
    rw [Failure.TellsNext, htoken] at htells
    have hnonempty : failure.rest ≠ [] := by
      intro hnil
      rw [hnil] at htells
      contradiction
    have hnext : nextLexeme failure.rest = nextLexeme (found :: more) := by
      rw [nextLexeme, htells]
      rfl
    have hnotBrace : ¬failure.AtBrace := by
      intro hat
      rcases hat with ⟨hpath, other, hclose⟩
      apply hbrace
      rw [hstack, hpath]
      rw [htoken] at hclose
      exact ⟨rfl, (Mismatch.token.inj hclose).1⟩
    rcases TokenStream.parseClass_eq_ok_iff.mp haccept with ⟨_, hclass⟩
    rw [hother] at hclass
    exact class_stops hnext hnonempty hrun rfl hnotBrace _ hclass

/-- A `let` statement without its equals sign. -/
theorem errors_mark_missing_equals :
    (∃ added node, (TokenStream.ofTokens (spell ["class", "A", openBrace, "method", "int", "f",
        "(", ")", openBrace, "let", "x"] ++ added)).parseClass = .ok node) ∧
    ∀ (other : TokenStream) (more : List Token),
      other.remaining = spell ["class", "A", openBrace, "method", "int", "f", "(", ")", openBrace,
        "let", "x"] ++ ⟨"3", default⟩ :: more → ∀ node, other.parseClass ≠ .ok node := by
  let tokens := spell ["class", "A", openBrace, "method", "int", "f", "(", ")", openBrace,
    "let", "x", "3", ";", closeBrace, closeBrace]
  let stack : List Rule := [.classDec, .subroutineDec, .subroutineBody, .statements, .letStatement]
  have hmark := @errors_mark_first_wrong_token (.ofTokens tokens)
    ⟨.mismatch (.token "=" ⟨"3", default⟩), some default, tokens.drop 11, stack⟩
    ⟨⟨tokens, 11, by decide⟩, stack⟩ rfl
  exact ⟨hmark.1, fun other more => hmark.2.2 "=" _ rfl (by decide) other more⟩

end JackTree
