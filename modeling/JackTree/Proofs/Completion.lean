import JackTree.Proofs.Lookahead

/-!
# Completion

What a run has read can always be completed.  Every production has a shortest
text, which is read in front of the delimiters that may close it.  A run that
has come to some point is completed by the shortest text of every part that it
was in the middle of or had not entered (`Production.run_completes`).
-/

namespace JackTree

open Production

/-! ## Shortest texts -/

/-- A shortest text of every rule.  Names, types and operands may be any token. -/
def Rule.shortest : Rule → List String
  | classDec => ["class", "x", openBrace, closeBrace]
  | classVarDec => ["x", "x", "x", ";"]
  | subroutineDec => ["x", "x", "x", "(", ")", openBrace, closeBrace]
  | parameterList => []
  | subroutineBody => [openBrace, closeBrace]
  | varDec => ["var", "x", "x", ";"]
  | statements => []
  | letStatement => ["let", "x", "=", "x", ";"]
  | ifStatement => ["if", "(", "x", ")", openBrace, closeBrace]
  | whileStatement => ["while", "(", "x", ")", openBrace, closeBrace]
  | doStatement => ["do", "x", ";"]
  | returnStatement => ["return", ";"]
  | expression => ["x"]
  | term => ["x"]
  | expressionList => []

/-- Delimiters that close a rule: none of them lets a part of it go on. -/
def Rule.closers : Rule → List String
  | classDec => []
  | parameterList | expressionList => [")"]
  | expression | term => [")", "]", ";"]
  | _ => [closeBrace]

def Production.shortest : Production → List String
  | done => []
  | word lexeme after => lexeme :: after.shortest
  | any after => "x" :: after.shortest
  | rule r after => r.shortest ++ after.shortest
  | statement after => Rule.returnStatement.shortest ++ after.shortest
  | optional _ _ after => after.shortest
  | repeated _ _ after => after.shortest
  | choice _ _ no => no.shortest

/-- Tokens with some texts. -/
def spell (lexemes : List String) : List Token :=
  lexemes.map fun lexeme => ⟨lexeme, default⟩

/-- What the shortest text of a production starts with in front of a delimiter. -/
def Production.lead (production : Production) (closer : String) : String :=
  production.shortest.headD closer

theorem spell_append (left right : List String) :
    spell (left ++ right) = spell left ++ spell right :=
  List.map_append

theorem nextLexeme_spell_append (production : Production) {closer : String} {follow : List Token}
    (hfollow : nextLexeme follow = some closer) :
    nextLexeme (spell production.shortest ++ follow) = some (production.lead closer) := by
  unfold lead
  cases production.shortest with
  | nil => exact hfollow
  | cons lexeme more => rfl

/-- Whether the parts of a production can be left out or closed one by one when a
delimiter follows. -/
def Production.closable : Production → String → Bool
  | done, _ => true
  | word _ after, closer => after.closable closer
  | any after, closer => after.closable closer
  | rule r after, closer => r.closers.contains (after.lead closer) && after.closable closer
  | statement after, closer => after.lead closer == closeBrace && after.closable closer
  | optional guard body after, closer =>
    guard.isLocal && !guard.holds (spell [after.lead closer]) &&
      body.closable (after.lead closer) && after.closable closer
  | repeated guard body after, closer =>
    guard.isLocal && !guard.holds (spell [after.lead closer]) &&
      body.closable (after.lead closer) && after.closable closer
  | choice guard yes no, closer =>
    guard.isLocal && !guard.holds (spell [no.lead closer]) &&
      yes.closable closer && no.closable closer

/-! ## What the grammar closes with -/

theorem Rule.closable_production {r : Rule} {closer : String} (hcloser : closer ∈ r.closers) :
    r.production.closable closer = true := by
  have hall : ∀ r ∈ Rule.all, ∀ closer ∈ r.closers, r.production.closable closer = true := by
    decide
  exact hall r (mem_all r) closer hcloser

theorem Rule.ne_classDec_of_mem_closers {r : Rule} {closer : String}
    (hcloser : closer ∈ r.closers) : r ≠ .classDec := by
  intro hclass
  rw [hclass] at hcloser
  contradiction

theorem closeBrace_mem_closers {tokens : List Token} {r : Rule}
    (hrule : statementRule? tokens = some r) : closeBrace ∈ r.closers := by
  rcases statementRule?_eq_some_iff.mp hrule with ⟨word, hentry, _⟩
  have hall : ∀ entry ∈ statementWords, closeBrace ∈ entry.2.closers := by decide
  exact hall _ hentry

def Outcome.isRead : Outcome → Bool
  | read _ _ => true
  | stopped _ => false

/-- The shortest text of a rule is read in front of everything that starts with a
delimiter that closes the rule. -/
theorem Rule.parses_shortest {r : Rule} {closer : String} {follow : List Token}
    (hcloser : closer ∈ r.closers) (hfollow : nextLexeme follow = some closer) :
    ∃ children, r.Parses (spell r.shortest ++ follow) children follow := by
  have hall : ∀ r ∈ Rule.all, ∀ closer ∈ r.closers,
      (r.parse (spell r.shortest ++ spell [closer])).isRead = true ∧
        (r.parse (spell r.shortest ++ spell [closer])).rest = spell [closer] := by
    decide +kernel
  rcases hall r (mem_all r) closer hcloser with ⟨hread, hrest⟩
  have hlocal := isLocal_production (ne_classDec_of_mem_closers hcloser)
  have hlooks : LooksLike r.production.isLocal (spell [closer]) follow :=
    ⟨hfollow.symm, Or.inl hlocal⟩
  rcases parse_alike rfl hlooks hrest with ⟨hfollowed, hreads⟩
  cases houtcome : r.parse (spell r.shortest ++ spell [closer]) with
  | stopped failure =>
      rw [houtcome] at hread
      contradiction
  | read children rest =>
      rw [houtcome] at hreads
      rcases hreads.exists_read with ⟨children', hparse, _⟩
      rw [hfollowed] at hparse
      exact ⟨children', hparse⟩

namespace Production

/-! ## Parts that are left out -/

theorem isLocal_of_closable {production : Production} {closer : String}
    (hclosable : production.closable closer = true) : production.isLocal = true := by
  induction production generalizing closer with
  | done => rfl
  | word lexeme after ih => exact ih hclosable
  | any after ih => exact ih hclosable
  | rule r after ih =>
      simp only [closable, Bool.and_eq_true, List.contains_iff_mem] at hclosable
      simp [isLocal, ih hclosable.2, Rule.ne_classDec_of_mem_closers hclosable.1]
  | statement after ih =>
      simp only [closable, Bool.and_eq_true] at hclosable
      exact ih hclosable.2
  | optional guard body after ihbody ihafter =>
      simp only [closable, Bool.and_eq_true] at hclosable
      simp [isLocal, hclosable.1.1.1, ihbody hclosable.1.2, ihafter hclosable.2]
  | repeated guard body after ihbody ihafter =>
      simp only [closable, Bool.and_eq_true] at hclosable
      simp [isLocal, hclosable.1.1.1, ihbody hclosable.1.2, ihafter hclosable.2]
  | choice guard yes no ihyes ihno =>
      simp only [closable, Bool.and_eq_true] at hclosable
      simp [isLocal, hclosable.1.1.1, ihyes hclosable.1.2, ihno hclosable.2]

/-- A part that may be closed is left out in front of the shortest text behind it. -/
theorem holds_shortest_eq_false {guard : Guard} {after : Production} {closer : String}
    {follow : List Token} (hlocal : guard.isLocal = true)
    (hguard : (!guard.holds (spell [after.lead closer])) = true)
    (hfollow : nextLexeme follow = some closer) :
    guard.holds (spell after.shortest ++ follow) = false := by
  have hlooks : LooksLike guard.isLocal (spell after.shortest ++ follow)
      (spell [after.lead closer]) :=
    ⟨nextLexeme_spell_append after hfollow, Or.inl hlocal⟩
  rw [hlooks.holds_eq]
  simpa using hguard

theorem reads_repeated_none {guard : Guard} {body after : Production} {tokens rest : List Token}
    {forest : Forest Token} (hguard : guard.holds tokens = false)
    (hafter : after.Reads Rule.Parses tokens forest rest) :
    (repeated guard body after).Reads Rule.Parses tokens forest rest :=
  ⟨.nil, tokens, forest, .stop hguard, hafter, rfl⟩

theorem reads_repeated_one {guard : Guard} {body after : Production}
    {tokens middle rest : List Token} {left right : Forest Token}
    (hguard : guard.holds tokens = true) (hbody : body.Reads Rule.Parses tokens left middle)
    (hmore : (repeated guard body after).Reads Rule.Parses middle right rest) :
    (repeated guard body after).Reads Rule.Parses tokens (left ++ right) rest := by
  rcases hmore with ⟨others, between, behind, hrepeats, hafter, rfl⟩
  exact ⟨left ++ others, between, behind, .again hguard hbody hrepeats, hafter,
    (Forest.append_assoc ..).symm⟩

theorem reads_shortest {production : Production} {closer : String} {follow : List Token}
    (hclosable : production.closable closer = true) (hfollow : nextLexeme follow = some closer) :
    ∃ forest,
      production.Reads Rule.Parses (spell production.shortest ++ follow) forest follow := by
  induction production generalizing closer with
  | done => exact ⟨.nil, reads_done⟩
  | word lexeme after ih =>
      rcases ih hclosable hfollow with ⟨forest, hafter⟩
      exact ⟨_, reads_word rfl hafter⟩
  | any after ih =>
      rcases ih hclosable hfollow with ⟨forest, hafter⟩
      exact ⟨_, reads_any hafter⟩
  | rule r after ih =>
      simp only [closable, Bool.and_eq_true, List.contains_iff_mem] at hclosable
      rcases ih hclosable.2 hfollow with ⟨forest, hafter⟩
      have hnext := nextLexeme_spell_append after hfollow
      rcases Rule.parses_shortest hclosable.1 hnext with ⟨children, hrule⟩
      refine ⟨.node r children forest, children, _, forest, ?_, hafter, rfl⟩
      rw [shortest, spell_append, List.append_assoc]
      exact hrule
  | statement after ih =>
      simp only [closable, Bool.and_eq_true, beq_iff_eq] at hclosable
      rcases ih hclosable.2 hfollow with ⟨forest, hafter⟩
      have hnext := nextLexeme_spell_append after hfollow
      rw [hclosable.1] at hnext
      have hrule : statementRule?
          (spell Rule.returnStatement.shortest ++ (spell after.shortest ++ follow)) =
            some .returnStatement :=
        statementRule?_eq_some_iff.mpr ⟨"return", by simp [statementWords], rfl⟩
      rcases Rule.parses_shortest (closeBrace_mem_closers hrule) hnext with ⟨children, hparse⟩
      refine ⟨.node .returnStatement children forest, .returnStatement, children, _, forest,
        ?_, ?_, hafter, rfl⟩
      · rw [shortest, spell_append, List.append_assoc]
        exact hrule
      · rw [shortest, spell_append, List.append_assoc]
        exact hparse
  | optional guard body after _ ih =>
      simp only [closable, Bool.and_eq_true] at hclosable
      rcases ih hclosable.2 hfollow with ⟨forest, hafter⟩
      have hguard := holds_shortest_eq_false hclosable.1.1.1 hclosable.1.1.2 hfollow
      exact ⟨forest, (reads_optional_of_not_holds (by simp [shortest, hguard])).mpr hafter⟩
  | repeated guard body after _ ih =>
      simp only [closable, Bool.and_eq_true] at hclosable
      rcases ih hclosable.2 hfollow with ⟨forest, hafter⟩
      have hguard := holds_shortest_eq_false hclosable.1.1.1 hclosable.1.1.2 hfollow
      exact ⟨forest, reads_repeated_none hguard hafter⟩
  | choice guard yes no _ ih =>
      simp only [closable, Bool.and_eq_true] at hclosable
      rcases ih hclosable.2 hfollow with ⟨forest, hno⟩
      have hguard := holds_shortest_eq_false hclosable.1.1.1 hclosable.1.1.2 hfollow
      exact ⟨forest, reads_choice_no hguard hno⟩

/-! ## Parts that are completed -/

/-- Runs with some fuel read the beginning of texts that end in front of every
delimiter that closes them. -/
def RunsComplete (fuel : Nat) : Prop :=
  ∀ {production : Production} {closer : String} {taken rest follow : List Token}
    {outcome : Outcome},
    production.closable closer = true → nextLexeme follow = some closer →
    run fuel production (taken ++ rest) = some outcome → outcome.rest = rest →
      ∃ more forest,
        production.Reads Rule.Parses (taken ++ (more ++ follow)) forest follow

theorem reads_parses_of_run {fuel : Nat} {production : Production} {tokens rest : List Token}
    {forest : Forest Token} (hrun : run fuel production tokens = some (.read forest rest)) :
    production.Reads Rule.Parses tokens forest rest :=
  reads_of_run Rule.Parses (fun _ _ _ _ => Rule.parses_iff_reads.mpr) hrun

theorem looksLike_of_ne_nil {isLocal : Bool} {taken : List Token} (hlocal : isLocal = true)
    (htaken : taken ≠ []) (rest rest' : List Token) :
    LooksLike isLocal (taken ++ rest) (taken ++ rest') := by
  cases taken with
  | nil => contradiction
  | cons token taken => exact ⟨rfl, Or.inl hlocal⟩

theorem rest_ne_of_taken {token : Token} {taken rest : List Token} :
    token :: taken ++ rest ≠ rest := by
  intro heq
  have hlength := congrArg List.length heq
  simp only [List.length_append, List.length_cons] at hlength
  omega

section

variable {closer : String} {taken rest follow : List Token} {inner outcome : Outcome}

/-- Where a first part is followed by a second one, the run was in the middle of
one of them.  A first part that the second one has read behind is kept as it is. -/
theorem andThen_completes {fuel more : Nat} {first second : Production}
    {around : Failure → Failure} {join : Forest Token → Forest Token → Forest Token}
    {short : List Token} {behind : Forest Token} (ih : RunsComplete fuel)
    (hframe : Frame around join) (hfirst : first.closable closer = true)
    (hshort : second.Reads Rule.Parses (short ++ follow) behind follow)
    (hnext : nextLexeme (short ++ follow) = some closer)
    (hsecond : ∀ {back : List Token} {last : Outcome},
      run more second (back ++ rest) = some last → last.rest = rest →
        ∃ added right, second.Reads Rule.Parses (back ++ (added ++ follow)) right follow)
    (hrun : run fuel first (taken ++ rest) = some inner)
    (hthen : inner.andThen around join (run more second) = some outcome)
    (hrest : outcome.rest = rest) :
    ∃ added left middle right,
      first.Reads Rule.Parses (taken ++ (added ++ follow)) left middle ∧
        second.Reads Rule.Parses middle right follow := by
  have hinside : inner.rest = rest →
      ∃ added left middle right,
        first.Reads Rule.Parses (taken ++ (added ++ follow)) left middle ∧
          second.Reads Rule.Parses middle right follow := by
    intro hleft
    rcases ih hfirst hnext hrun hleft with ⟨added, left, hread⟩
    refine ⟨added ++ short, left, _, behind, ?_, hshort⟩
    rw [List.append_assoc]
    exact hread
  rcases Outcome.andThen_eq_some hthen with
    ⟨failure, rfl, rfl⟩ | ⟨left, middle, last, rfl, hlast, rfl⟩
  · apply hinside
    rw [← hrest, Outcome.rest, Outcome.rest, hframe.rest_around]
  · rw [Outcome.rest_mapForest] at hrest
    rcases exists_split_of_runs hrun hlast hrest with ⟨front, back, rfl, rfl⟩
    by_cases hback : back = []
    · apply hinside
      rw [hback]
      rfl
    · rcases hsecond hlast hrest with ⟨added, right, hright⟩
      have hlooks := looksLike_of_ne_nil (isLocal_of_closable hfirst) hback rest (added ++ follow)
      rw [List.append_assoc] at hrun
      rcases run_alike fuel rfl hlooks hrun rfl with ⟨again, hagain, hmiddle, hreads⟩
      rcases hreads.exists_read with ⟨left', houtcome, _⟩
      rw [houtcome, hmiddle] at hagain
      refine ⟨added, left', _, right, ?_, hright⟩
      rw [List.append_assoc]
      exact reads_parses_of_run hagain

theorem bind_completes {fuel : Nat} {first second : Production}
    {around : Failure → Failure} {join : Forest Token → Forest Token → Forest Token}
    (ih : RunsComplete fuel) (hframe : Frame around join)
    (hfirst : first.closable (second.lead closer) = true)
    (hsecond : second.closable closer = true) (hfollow : nextLexeme follow = some closer)
    (hrun : ((run fuel first (taken ++ rest)).bind fun o =>
      o.andThen around join (run fuel second)) = some outcome)
    (hrest : outcome.rest = rest) :
    ∃ added left middle right,
      first.Reads Rule.Parses (taken ++ (added ++ follow)) left middle ∧
        second.Reads Rule.Parses middle right follow := by
  rcases Option.bind_eq_some_iff.mp hrun with ⟨inner, hinner, hthen⟩
  rcases reads_shortest hsecond hfollow with ⟨behind, hshort⟩
  exact andThen_completes ih hframe hfirst hshort (nextLexeme_spell_append second hfollow)
    (ih hsecond hfollow) hinner hthen hrest

theorem run_completes (fuel : Nat) : RunsComplete fuel := by
  induction fuel with
  | zero =>
      intro production closer taken rest follow outcome _ _ hrun _
      simp [run] at hrun
  | succ fuel ih =>
      intro production closer taken rest follow outcome hclosable hfollow hrun hrest
      cases taken with
      | nil =>
          rcases reads_shortest hclosable hfollow with ⟨forest, hreads⟩
          exact ⟨spell production.shortest, forest, hreads⟩
      | cons first taken =>
          have hlooks : ∀ {isLocal : Bool} (more : List Token), isLocal = true →
              LooksLike isLocal (first :: taken ++ rest) (first :: taken ++ (more ++ follow)) :=
            fun more hlocal => looksLike_of_ne_nil hlocal (List.cons_ne_nil _ _) rest _
          cases production with
          | done =>
              rw [← Option.some.inj hrun] at hrest
              exact absurd hrest rest_ne_of_taken
          | word lexeme after =>
              rcases run_word_cases hrun with ⟨_, rfl⟩ | ⟨token, tail, htokens, hword, hleaf⟩
              · rw [Outcome.rest, Failure.rest_expecting] at hrest
                exact absurd hrest rest_ne_of_taken
              · rcases List.cons.inj htokens with ⟨rfl, rfl⟩
                rcases Option.map_eq_some_iff.mp hleaf with ⟨last, hlast, rfl⟩
                rw [Outcome.rest_mapForest] at hrest
                have hafter : after.closable closer = true := hclosable
                rcases ih hafter hfollow hlast hrest with ⟨more, forest, hreads⟩
                exact ⟨more, _, reads_word hword hreads⟩
          | any after =>
              rcases Option.map_eq_some_iff.mp hrun with ⟨last, hlast, rfl⟩
              rw [Outcome.rest_mapForest] at hrest
              have hafter : after.closable closer = true := hclosable
              rcases ih hafter hfollow hlast hrest with ⟨more, forest, hreads⟩
              exact ⟨more, _, reads_any hreads⟩
          | rule r after =>
              simp only [closable, Bool.and_eq_true, List.contains_iff_mem] at hclosable
              rcases bind_completes ih (.node r) (Rule.closable_production hclosable.1)
                hclosable.2 hfollow hrun hrest with ⟨more, children, middle, right, hrule, hafter⟩
              exact ⟨more, _, reads_rule hrule hafter⟩
          | statement after =>
              simp only [closable, Bool.and_eq_true, beq_iff_eq] at hclosable
              rw [run] at hrun
              cases hselect : statementRule? (first :: taken ++ rest) with
              | none =>
                  rw [hselect] at hrun
                  rw [← Option.some.inj hrun, Outcome.rest, Failure.rest_expecting] at hrest
                  exact absurd hrest rest_ne_of_taken
              | some r =>
                  rw [hselect] at hrun
                  have hrule : (rule r after).closable closer = true := by
                    simp [closable, hclosable, closeBrace_mem_closers hselect]
                  rcases ih hrule hfollow hrun hrest with
                    ⟨more, _, children, middle, right, hchildren, hafter, rfl⟩
                  rw [(hlooks more rfl).statementRule?_eq] at hselect
                  exact ⟨more, _, r, children, middle, right, hselect, hchildren, hafter, rfl⟩
          | optional guard body after =>
              simp only [closable, Bool.and_eq_true] at hclosable
              rcases hclosable with ⟨⟨⟨hlocal, _⟩, hbody⟩, hafter⟩
              rw [run] at hrun
              split at hrun
              next hguard =>
                rcases bind_completes ih .append hbody hafter hfollow hrun hrest with
                  ⟨more, left, middle, right, hleft, hright⟩
                rw [(hlooks more hlocal).holds_eq] at hguard
                exact ⟨more, _, reads_optional_take hguard hleft hright⟩
              next hguard =>
                rcases ih hafter hfollow hrun hrest with ⟨more, forest, hreads⟩
                rw [(hlooks more hlocal).holds_eq] at hguard
                exact ⟨more, forest, (reads_optional_of_not_holds hguard).mpr hreads⟩
          | repeated guard body after =>
              have hagain := hclosable
              simp only [closable, Bool.and_eq_true] at hclosable
              rcases hclosable with ⟨⟨⟨hlocal, _⟩, hinner⟩, hafter⟩
              have hbody : body.closable ((repeated guard body after).lead closer) = true :=
                hinner
              rw [run] at hrun
              split at hrun
              next hguard =>
                rcases bind_completes ih .append hbody hagain hfollow hrun hrest with
                  ⟨more, left, middle, right, hleft, hright⟩
                rw [(hlooks more hlocal).holds_eq] at hguard
                exact ⟨more, _, reads_repeated_one hguard hleft hright⟩
              next hguard =>
                rcases ih hafter hfollow hrun hrest with ⟨more, forest, hreads⟩
                rw [(hlooks more hlocal).holds_eq] at hguard
                exact ⟨more, forest, reads_repeated_none (by simpa using hguard) hreads⟩
          | choice guard yes no =>
              simp only [closable, Bool.and_eq_true] at hclosable
              rcases hclosable with ⟨⟨⟨hlocal, _⟩, hyes⟩, hno⟩
              rw [run] at hrun
              by_cases hguard : guard.holds (first :: taken ++ rest) = true
              · rw [if_pos hguard] at hrun
                rcases ih hyes hfollow hrun hrest with ⟨more, forest, hreads⟩
                rw [(hlooks more hlocal).holds_eq] at hguard
                exact ⟨more, forest, reads_choice_yes hguard hreads⟩
              · rw [if_neg hguard] at hrun
                rcases ih hno hfollow hrun hrest with ⟨more, forest, hreads⟩
                rw [(hlooks more hlocal).holds_eq] at hguard
                exact ⟨more, forest, reads_choice_no (by simpa using hguard) hreads⟩

end

end Production

end JackTree
