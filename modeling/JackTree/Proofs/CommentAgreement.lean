import JackTree.Frontend
import JackTree.Proofs.SourcePlaces
import JackTree.Proofs.SourceSurvey

/-!
# Agreement on comments

For the lexer a string constant runs to the next quotation mark, for the removal
of comments it also ends with its line.  A survey with unbounded constants says
what a reader of the lexer takes for a comment and for a constant.  The two
stages are faithful to it just when it and the line-bound survey find the same
comments, which they do in a text whose constants stay on their lines.
-/

namespace JackTree

open Text

/-! ## Linked surveys -/

/-- How an unbounded and a line-bound survey stand to each other as long as they
have found the same comments: behind a constant that crosses a line end, one is
in code where the other one is in a constant. -/
inductive Linked : Mode → Mode → Prop where
  | same (mode : Mode) : Linked mode mode
  | crossed : Linked .literal .code
  | reopened : Linked .code .literal

theorem Mode.step_unbounded_eq {mode : Mode} {c : Char} {rest : List Char}
    (hinside : mode ≠ .literal ∨ c ≠ '\n') :
    mode.step .unbounded c rest = mode.step .lineBound c rest := by
  cases mode with
  | literal =>
      have hnewline : c ≠ '\n' := by simpa using hinside
      simp [step, hnewline]
  | code => rfl
  | lineComment => rfl
  | blockOpener => rfl
  | blockComment => rfl
  | blockCloser => rfl

theorem Linked.step {mode bound : Mode} (hlinked : Linked mode bound) {c : Char}
    {rest : List Char} (hagree : mode.isComment c rest = bound.isComment c rest) :
    Linked (mode.step .unbounded c rest) (bound.step .lineBound c rest) := by
  cases hlinked with
  | same mode =>
      -- the surveys part only where a constant meets a line end
      by_cases hinside : mode ≠ .literal ∨ c ≠ '\n'
      · rw [Mode.step_unbounded_eq hinside]
        exact .same _
      · rw [not_or, Decidable.not_not, Decidable.not_not] at hinside
        obtain ⟨rfl, rfl⟩ := hinside
        exact .crossed
  | crossed =>
      have hcode : Mode.opensComment c rest = false := hagree.symm
      by_cases hquote : c = quoteMark
      · rw [hquote]
        exact .reopened
      · have hmode : Mode.step .unbounded .literal c rest = .literal := by
          simp [Mode.step, hquote]
        have hbound : Mode.step .lineBound .code c rest = .code := by
          simp [Mode.step, hquote, hcode]
        rw [hmode, hbound]
        exact .crossed
  | reopened =>
      have hcode : Mode.opensComment c rest = false := hagree
      by_cases hquote : c = quoteMark
      · rw [hquote]
        exact .crossed
      · have hmode : Mode.step .unbounded .code c rest = .code := by
          simp [Mode.step, hquote, hcode]
        rw [hmode]
        -- the end of the line brings the surveys together again
        by_cases hnewline : c = '\n'
        · have hbound : Mode.step .lineBound .literal c rest = .code := by
            simp [Mode.step, hnewline]
          rw [hbound]
          exact .same _
        · have hbound : Mode.step .lineBound .literal c rest = .literal := by
            simp [Mode.step, hquote, hnewline]
          rw [hbound]
          exact .reopened

/-- The character that two linked surveys first disagree on is a slash, met by
one of them in code and by the other one in a constant. -/
theorem Linked.eq_slash {mode bound : Mode} (hlinked : Linked mode bound) {c : Char}
    {rest : List Char} (hclash : mode.isComment c rest ≠ bound.isComment c rest) :
    c = '/' ∧ ((mode = .literal ∧ bound.isComment c rest = true) ∨
      (mode = .code ∧ mode.isComment c rest = true ∧ bound.isComment c rest = false)) := by
  have hslash : Mode.opensComment c rest = true → c = '/' := by
    intro hopens
    simp only [Mode.opensComment, Bool.and_eq_true, beq_iff_eq] at hopens
    exact hopens.1
  cases hlinked with
  | same mode => exact absurd rfl hclash
  | crossed =>
      have hopens : Mode.opensComment c rest = true := by
        simpa [Mode.isComment] using hclash
      exact ⟨hslash hopens, Or.inl ⟨rfl, hopens⟩⟩
  | reopened =>
      have hopens : Mode.opensComment c rest = true := by
        simpa [Mode.isComment] using hclash
      exact ⟨hslash hopens, Or.inr ⟨rfl, hopens, rfl⟩⟩

/-! ## Texts -/

def AgreeUpTo (text : List Char) (index : Nat) : Prop :=
  ∀ earlier c, earlier < index → text[earlier]? = some c →
    (modeAt .unbounded .code text earlier).isComment c (text.drop (earlier + 1)) =
      (modeAt .lineBound .code text earlier).isComment c (text.drop (earlier + 1))

theorem AgreeUpTo.mono {text : List Char} {earlier index : Nat} (hagree : AgreeUpTo text index)
    (hle : earlier ≤ index) : AgreeUpTo text earlier :=
  fun _ _ hlt => hagree _ _ (Nat.lt_of_lt_of_le hlt hle)

theorem linked_of_agreeUpTo {text : List Char} {index : Nat} (hagree : AgreeUpTo text index) :
    Linked (modeAt .unbounded .code text index) (modeAt .lineBound .code text index) := by
  induction index with
  | zero => exact .same _
  | succ index ih =>
      have hlinked := ih (hagree.mono (Nat.le_succ index))
      cases hc : text[index]? with
      | none =>
          rw [modeAt, modeAt, hc]
          exact hlinked
      | some c =>
          rw [modeAt_succ hc, modeAt_succ hc]
          exact hlinked.step (hagree index c (Nat.lt_succ_self index) hc)

/-! ## Quotation marks that are left -/

theorem Mode.literal_step_of_isComment {mode : Mode} {c : Char} {rest : List Char}
    (hcomment : mode.isComment c rest = true) :
    mode ≠ .literal ∧ mode.step .unbounded c rest ≠ .literal := by
  cases mode with
  | code =>
      have hopens : opensComment c rest = true := hcomment
      have hquote : c ≠ quoteMark := by
        rintro rfl
        simp [opensComment, quoteMark] at hopens
      rw [step, if_neg hquote, hopens]
      constructor
      · simp
      · simp only [if_true]
        split <;> simp
  | literal => contradiction
  | lineComment =>
      rw [step]
      constructor
      · simp
      · split <;> simp
  | blockOpener => simp [step]
  | blockComment =>
      rw [step]
      constructor
      · simp
      · split <;> simp
  | blockCloser => simp [step]

theorem Mode.step_eq_literal_iff {mode : Mode} {c : Char} {rest : List Char}
    (hcomment : mode.isComment c rest = false) :
    mode.step .unbounded c rest = .literal ↔
      if c = quoteMark then mode ≠ .literal else mode = .literal := by
  cases mode with
  | code =>
      have hcode : opensComment c rest = false := hcomment
      rw [step, hcode]
      split <;> simp
  | literal =>
      simp only [step]
      split <;> simp
  | lineComment =>
      have hnewline : c = '\n' := by simpa [isComment] using hcomment
      simp [step, hnewline, quoteMark]
  | blockOpener => contradiction
  | blockComment => contradiction
  | blockCloser => contradiction

/-- While both surveys agree, the quotation marks that are left of a text tell
whether the unbounded one is in a constant. -/
theorem odd_quotes_iff_of_agreeUpTo {text : List Char} {index : Nat}
    (hagree : AgreeUpTo text index) :
    ((stripComments text).take index).count quoteMark % 2 = 1 ↔
      modeAt .unbounded .code text index = .literal := by
  induction index with
  | zero => simp [modeAt]
  | succ index ih =>
      have hbefore := ih (hagree.mono (Nat.le_succ index))
      cases hc : text[index]? with
      | none =>
          rw [List.take_add_one, getElem?_stripComments_eq_none hc, modeAt, hc]
          simpa using hbefore
      | some c =>
          have hsame := hagree index c (Nat.lt_succ_self index) hc
          rw [List.take_add_one, List.count_append, modeAt_succ hc]
          cases hcomment : (modeAt .unbounded .code text index).isComment c
              (text.drop (index + 1)) with
          | true =>
              rw [hcomment] at hsame
              have hspace : (if c = '\n' then c else ' ') ≠ quoteMark := by
                split
                next hnewline =>
                  rw [hnewline]
                  decide
                next => decide
              obtain ⟨hmode, hnext⟩ := Mode.literal_step_of_isComment hcomment
              rw [getElem?_stripComments_of_isComment hc hsame.symm]
              simp only [Option.toList_some, List.count_singleton, beq_iff_eq, hspace, if_false,
                Nat.add_zero, hbefore, hmode, hnext]
          | false =>
              rw [hcomment] at hsame
              rw [getElem?_stripComments_of_not_isComment hc hsame.symm,
                Mode.step_eq_literal_iff hcomment]
              simp only [Option.toList_some, List.count_singleton, beq_iff_eq]
              split
              next =>
                rw [Ne, ← hbefore]
                omega
              next => exact hbefore

/-! ## Places in what is left -/

theorem exists_stripped_of_located {text : List Char} {index : Nat} {c : Located}
    (hc : (locate 1 1 text)[index]? = some c) {d : Char}
    (hd : (stripComments text)[index]? = some d) :
    ∃ e, (locate 1 1 (stripComments text))[index]? = some e ∧ e.char = d ∧ e.place = c.place := by
  obtain ⟨e, he, hchar⟩ := exists_located hd
  have hplaces := congrArg (·[index]?) (map_place_locate (map_isNewline_stripComments text) 1 1)
  simp only [List.getElem?_map, hc, he, Option.map_some, Option.some.injEq] at hplaces
  exact ⟨e, he, hchar, hplaces⟩

/-! ## Faithful texts -/

/-- Whether the character in a place ends up in one of the tokens of a source text. -/
def Contributes (text : String) (place : Nat × Nat) : Prop :=
  ∃ stream cuts left, lexSource text = .ok stream ∧
    Lexes (lexerInput text.toList) cuts left ∧ stream.tokens = cuts.map Cut.token ∧
      ∃ c ∈ cuts.flatMap Cut.characters, c.place = place

/-- Whether what the unbounded survey takes for a comment is lost and what it
takes for a closed constant is kept. -/
structure Faithful (text : String) : Prop where
  comments_lost : ∀ (index : Nat) (c : Located),
    (survey .unbounded .code text.toList)[index]? = some .comment →
      (locate 1 1 text.toList)[index]? = some c → ¬Contributes text c.place
  constants_kept : ∀ index : Nat,
    (survey .unbounded .code text.toList)[index]? = some .constant →
      (stripComments text.toList)[index]? = text.toList[index]?

/-- Whether both surveys of a text find the same comments, where no constant is
open that never closes. -/
def CommentsAgree (text : String) : Prop :=
  ∀ index : Nat, (survey .unbounded .code text.toList)[index]? ≠ some .unclosed →
    ((survey .unbounded .code text.toList)[index]? = some .comment ↔
      (survey .lineBound .code text.toList)[index]? = some .comment)

theorem lexSource_of_lexes {text : String} {cuts : List Cut} {left : List Located}
    (hlexes : Lexes (lexerInput text.toList) cuts left) :
    lexSource text = .ok (.ofTokens (cuts.map Cut.token)) := by
  have hanswer := Lexer.tokenize_of_lexes hlexes {}
  have htokens : (Lexer.ofLines (cleanSource text.toList)).tokenize = .ok (cuts.map Cut.token) := by
    cases left with
    | nil => exact hanswer
    | cons => exact hanswer
  rw [lexSource, htokens]

/-- A character that is left of a text outside constants contributes unless it is blank. -/
theorem contributes_of_even {text : String} {index : Nat} {c : Located}
    (hc : (locate 1 1 (stripComments text.toList))[index]? = some c)
    (heven : ((stripComments text.toList).take index).count quoteMark % 2 = 0)
    (hblank : c.isBlank = false) (hquote : c.isQuote = false) : Contributes text c.place := by
  obtain ⟨cuts, left, hlexes⟩ := exists_lexes (lexerInput text.toList)
  have hmem := (mem_lexerInput_iff hblank).mpr (List.mem_of_getElem? hc)
  obtain ⟨before, after, hinput⟩ := List.append_of_mem hmem
  rw [← quotesBefore_lexerInput hc, quotesBefore_of_lexerInput_eq hinput] at heven
  exact ⟨_, cuts, left, lexSource_of_lexes hlexes, hlexes, rfl, c,
    hlexes.mem_of_quotes_even hinput heven hblank hquote, rfl⟩

/-- Nothing contributes in the place of a blank that is left outside constants. -/
theorem not_contributes_of_even {text : String} {index : Nat} {c : Located}
    (hc : (locate 1 1 (stripComments text.toList))[index]? = some c)
    (heven : ((stripComments text.toList).take index).count quoteMark % 2 = 0)
    (hblank : c.isBlank = true) : ¬Contributes text c.place := by
  rintro ⟨stream, cuts, left, _, hlexes, _, d, hd, hplace⟩
  cases hblankD : d.isBlank with
  | false =>
      have hmem := (mem_lexerInput_iff hblankD).mp (hlexes.mem_input hd)
      have hsame := eq_of_place_eq (orderedFrom_locate 1 1 _).2 hmem (List.mem_of_getElem? hc) hplace
      rw [hsame, hblank] at hblankD
      contradiction
  | true =>
      obtain ⟨before, after, hinput, hodd⟩ := hlexes.exists_quotes_odd hd hblankD
      rw [← quotesBefore_of_lexerInput_eq hinput, quotesBefore_eq_of_place_eq _ hplace,
        quotesBefore_lexerInput hc, heven] at hodd
      contradiction

/-! ## Constants that never close -/

theorem Mode.nature_literal (c : Char) (rest : List Char) :
    Mode.literal.nature .unbounded c rest =
      if (c :: rest).contains quoteMark then .constant else .unclosed := by
  simp [nature, isComment, Reach.closes]

theorem Mode.step_of_unclosed {mode : Mode} {c : Char} {rest : List Char}
    (hunclosed : mode.nature .unbounded c rest = .unclosed) :
    mode.step .unbounded c rest = .literal ∧ quoteMark ∉ rest := by
  unfold nature at hunclosed
  split at hunclosed
  next => contradiction
  next =>
    split at hunclosed
    next =>
      split at hunclosed
      next hline => exact absurd hline.1 (by decide)
      next =>
        split at hunclosed
        next => contradiction
        next hopen =>
          have hnone : quoteMark ∉ c :: rest := by simpa [Reach.closes] using hopen
          have hquote : c ≠ quoteMark := fun heq => hnone (heq ▸ List.mem_cons_self)
          exact ⟨by simp [step, hquote], fun hmem => hnone (List.mem_cons_of_mem c hmem)⟩
    next =>
      split at hunclosed
      next hquote =>
        split at hunclosed
        next => contradiction
        next hopen => exact ⟨by simp [step, hquote], by simpa [Reach.closes] using hopen⟩
      next => contradiction
    next => contradiction

theorem getElem?_survey_eq_constant {text : List Char} {index : Nat} {c : Char}
    (hc : text[index]? = some c) (hliteral : modeAt .unbounded .code text index = .literal)
    (hclosed : (survey .unbounded .code text)[index]? ≠ some .unclosed) :
    (survey .unbounded .code text)[index]? = some .constant := by
  rw [getElem?_survey, hc, Option.map_some, hliteral, Mode.nature_literal] at hclosed ⊢
  split
  next => rfl
  next hopen =>
    rw [if_neg hopen] at hclosed
    contradiction

theorem exists_previous {text : List Char} {index : Nat} {c : Char}
    (hc : text[index + 1]? = some c) : ∃ d, text[index]? = some d := by
  obtain ⟨hindex, _⟩ := List.getElem?_eq_some_iff.mp hc
  exact ⟨_, List.getElem?_eq_getElem (Nat.lt_of_succ_lt hindex)⟩

/-- A constant that never closes reaches to the end of its text. -/
theorem unclosed_of_le {text : List Char} {earlier index : Nat} {c : Char}
    (hunclosed : (survey .unbounded .code text)[earlier]? = some .unclosed)
    (hle : earlier ≤ index) (hc : text[index]? = some c) :
    (survey .unbounded .code text)[index]? = some .unclosed := by
  induction hle generalizing c with
  | refl => exact hunclosed
  | @step index _ ih =>
      obtain ⟨d, hprevious⟩ := exists_previous hc
      have hnature := ih hprevious
      rw [getElem?_survey, hprevious, Option.map_some, Option.some.injEq] at hnature
      obtain ⟨hliteral, hnone⟩ := Mode.step_of_unclosed hnature
      have hrest : text.drop (index + 1) = c :: text.drop (index + 2) :=
        List.drop_eq_getElem?_toList_append.trans (by rw [hc]; rfl)
      rw [hrest] at hnone
      have hopen : (c :: text.drop (index + 2)).contains quoteMark = false := by
        simpa using hnone
      rw [getElem?_survey, hc, modeAt_succ hprevious, hliteral, Option.map_some,
        Mode.nature_literal, hopen]
      rfl

/-! ## Faithfulness and agreement -/

theorem isComment_eq_of_faithful {text : String} (hfaithful : Faithful text) {index : Nat}
    (hagree : AgreeUpTo text.toList index) {c : Char} (hc : text.toList[index]? = some c)
    (hclosed : (survey .unbounded .code text.toList)[index]? ≠ some .unclosed) :
    (modeAt .unbounded .code text.toList index).isComment c (text.toList.drop (index + 1)) =
      (modeAt .lineBound .code text.toList index).isComment c (text.toList.drop (index + 1)) := by
  apply Decidable.byContradiction
  intro hclash
  obtain ⟨rfl, hcase⟩ := (linked_of_agreeUpTo hagree).eq_slash hclash
  rcases hcase with ⟨hmode, hbound⟩ | ⟨hmode, hcomment, hbound⟩
  · -- the slash of a constant is blanked
    have hkept := hfaithful.constants_kept index (getElem?_survey_eq_constant hc hmode hclosed)
    rw [getElem?_stripComments_of_isComment hc hbound, hc] at hkept
    revert hkept
    decide
  · -- the slash of a comment is left, and the lexer is outside constants there
    obtain ⟨d, hd, hchar⟩ := exists_located hc
    have hnature := (getElem?_survey_eq_comment_iff hc).mpr hcomment
    apply hfaithful.comments_lost index d hnature hd
    obtain ⟨e, he, hslash, hplace⟩ := exists_stripped_of_located hd
      (getElem?_stripComments_of_not_isComment hc hbound)
    have heven : ((stripComments text.toList).take index).count quoteMark % 2 = 0 := by
      have hodd := odd_quotes_iff_of_agreeUpTo hagree
      rw [hmode] at hodd
      have hnot := mt hodd.mp (by decide)
      omega
    rw [← hplace]
    apply contributes_of_even he heven
    · rw [Located.isBlank, hslash]
      decide
    · rw [Located.isQuote, hslash]
      decide

theorem agreeUpTo_succ {text : List Char} {index : Nat} {c : Char} (hagree : AgreeUpTo text index)
    (hc : text[index]? = some c)
    (hsame : (modeAt .unbounded .code text index).isComment c (text.drop (index + 1)) =
      (modeAt .lineBound .code text index).isComment c (text.drop (index + 1))) :
    AgreeUpTo text (index + 1) := by
  intro earlier d hlt hd
  by_cases hlast : earlier = index
  · subst hlast
    rw [hc] at hd
    rw [← Option.some.inj hd]
    exact hsame
  · exact hagree earlier d (by omega) hd

theorem agreeUpTo_of_faithful {text : String} (hfaithful : Faithful text) {index : Nat}
    {c : Char} (hc : text.toList[index]? = some c)
    (hclosed : (survey .unbounded .code text.toList)[index]? ≠ some .unclosed) :
    AgreeUpTo text.toList (index + 1) := by
  induction index generalizing c with
  | zero =>
      have hnone : AgreeUpTo text.toList 0 := fun _ _ hlt => absurd hlt (Nat.not_lt_zero _)
      exact agreeUpTo_succ hnone hc (isComment_eq_of_faithful hfaithful hnone hc hclosed)
  | succ index ih =>
      obtain ⟨d, hd⟩ := exists_previous hc
      have hearlier : (survey .unbounded .code text.toList)[index]? ≠ some .unclosed :=
        fun hunclosed => hclosed (unclosed_of_le hunclosed (Nat.le_succ index) hc)
      have hagree := ih hd hearlier
      exact agreeUpTo_succ hagree hc (isComment_eq_of_faithful hfaithful hagree hc hclosed)

theorem agreeUpTo_of_commentsAgree {text : String} (hagree : CommentsAgree text) {index : Nat}
    {c : Char} (hc : text.toList[index]? = some c)
    (hclosed : (survey .unbounded .code text.toList)[index]? ≠ some .unclosed) :
    AgreeUpTo text.toList (index + 1) := by
  intro earlier d hlt hd
  have hearlier : (survey .unbounded .code text.toList)[earlier]? ≠ some .unclosed :=
    fun hunclosed => hclosed (unclosed_of_le hunclosed (Nat.le_of_lt_succ hlt) hc)
  have hsame := hagree earlier hearlier
  rw [getElem?_survey_eq_comment_iff hd, getElem?_survey_eq_comment_iff hd] at hsame
  exact Bool.eq_iff_iff.mpr hsame

theorem commentsAgree_of_faithful {text : String} (hfaithful : Faithful text) :
    CommentsAgree text := by
  intro index hclosed
  cases hc : text.toList[index]? with
  | none => simp [getElem?_survey, hc]
  | some c =>
      have hagree := agreeUpTo_of_faithful hfaithful hc hclosed
      rw [getElem?_survey_eq_comment_iff hc, getElem?_survey_eq_comment_iff hc,
        hagree index c (Nat.lt_succ_self index) hc]

theorem faithful_of_commentsAgree {text : String} (hagree : CommentsAgree text) :
    Faithful text := by
  constructor
  · intro index c hnature hlocated
    have hc := getElem?_of_located hlocated
    have hclosed : (survey .unbounded .code text.toList)[index]? ≠ some .unclosed := by
      rw [hnature]
      decide
    have hupTo := agreeUpTo_of_commentsAgree hagree hc hclosed
    have hcomment := (getElem?_survey_eq_comment_iff hc).mp hnature
    have hbound := hupTo index c.char (Nat.lt_succ_self index) hc
    rw [hcomment] at hbound
    obtain ⟨e, he, hspace, hplace⟩ := exists_stripped_of_located hlocated
      (getElem?_stripComments_of_isComment hc hbound.symm)
    have heven : ((stripComments text.toList).take index).count quoteMark % 2 = 0 := by
      have hodd := odd_quotes_iff_of_agreeUpTo (hupTo.mono (Nat.le_succ index))
      have hnot := mt hodd.mp (Mode.literal_step_of_isComment hcomment).1
      omega
    rw [← hplace]
    apply not_contributes_of_even he heven
    rw [Located.isBlank, hspace]
    split
    next hnewline =>
      rw [hnewline]
      decide
    next => exact isBlank_space
  · intro index hnature
    cases hc : text.toList[index]? with
    | none => simp [getElem?_survey, hc] at hnature
    | some c =>
        have hclosed : (survey .unbounded .code text.toList)[index]? ≠ some .unclosed := by
          rw [hnature]
          decide
        have hnot : (survey .lineBound .code text.toList)[index]? ≠ some .comment := by
          rw [Ne, ← hagree index hclosed, hnature]
          decide
        rw [Ne, getElem?_survey_eq_comment_iff hc, Bool.not_eq_true] at hnot
        exact getElem?_stripComments_of_not_isComment hc hnot

/-! ## Constants on one line -/

/-- Whether no closed constant of a text crosses a line end. -/
def ConstantsOnOneLine (text : String) : Prop :=
  ∀ pair ∈ (survey .unbounded .code text.toList).zip text.toList,
    pair.1 = .constant → pair.2 ≠ '\n'

instance (text : String) : Decidable (ConstantsOnOneLine text) :=
  inferInstanceAs (Decidable (∀ pair ∈ (survey .unbounded .code text.toList).zip text.toList,
    pair.1 = .constant → pair.2 ≠ '\n'))

theorem modeAt_eq_of_constantsOnOneLine {text : String} (hlines : ConstantsOnOneLine text)
    {index : Nat} {c : Char} (hc : text.toList[index]? = some c)
    (hclosed : (survey .unbounded .code text.toList)[index]? ≠ some .unclosed) :
    modeAt .unbounded .code text.toList index = modeAt .lineBound .code text.toList index := by
  induction index generalizing c with
  | zero => rfl
  | succ index ih =>
      obtain ⟨d, hd⟩ := exists_previous hc
      have hearlier : (survey .unbounded .code text.toList)[index]? ≠ some .unclosed :=
        fun hunclosed => hclosed (unclosed_of_le hunclosed (Nat.le_succ index) hc)
      have hmode := ih hd hearlier
      rw [modeAt_succ hd, modeAt_succ hd, ← hmode]
      apply Mode.step_unbounded_eq
      by_cases hliteral : modeAt .unbounded .code text.toList index = .literal
      · apply Or.inr
        have hnature := getElem?_survey_eq_constant hd hliteral hearlier
        have hpair : ((survey .unbounded .code text.toList).zip text.toList)[index]? =
            some (.constant, d) :=
          List.getElem?_zip_eq_some.mpr ⟨hnature, hd⟩
        exact hlines _ (List.mem_of_getElem? hpair) rfl
      · exact Or.inl hliteral

theorem commentsAgree_of_constantsOnOneLine {text : String} (hlines : ConstantsOnOneLine text) :
    CommentsAgree text := by
  intro index hclosed
  cases hc : text.toList[index]? with
  | none => simp [getElem?_survey, hc]
  | some c =>
      rw [getElem?_survey_eq_comment_iff hc, getElem?_survey_eq_comment_iff hc,
        modeAt_eq_of_constantsOnOneLine hlines hc hclosed]

theorem lexSource_default {text : String} {options : LexerOptions} {stream : TokenStream}
    (hlex : lexSource text options = .ok stream) : lexSource text = .ok stream := by
  unfold lexSource at hlex
  split at hlex
  next tokens htokens =>
    obtain ⟨cuts, left, hlexes, rfl⟩ := Lexer.exists_lexes_of_tokenize htokens
    rw [lexSource_of_lexes hlexes, Except.ok.inj hlex]
  next => contradiction

/-- Comments are lost and constants kept in just those texts in which both stages
find the same comments, and in every text whose constants stay on their lines. -/
theorem faithful_iff_comments_agree (text : String) :
    (Faithful text ↔ CommentsAgree text) ∧
    (ConstantsOnOneLine text → Faithful text) ∧
    (∀ (options : LexerOptions) (stream : TokenStream),
      lexSource text options = .ok stream → lexSource text = .ok stream) := by
  refine ⟨⟨commentsAgree_of_faithful, faithful_of_commentsAgree⟩, ?_, ?_⟩
  · intro hlines
    exact faithful_of_commentsAgree (commentsAgree_of_constantsOnOneLine hlines)
  · intro options stream hlex
    exact lexSource_default hlex

theorem faithful_of_marker_in_constant :
    ConstantsOnOneLine "say(\"a//b\"); /* \" */ // c\nend" ∧
      Faithful "say(\"a//b\"); /* \" */ // c\nend" := by
  have hlines : ConstantsOnOneLine "say(\"a//b\"); /* \" */ // c\nend" := by decide +kernel
  exact ⟨hlines, (faithful_iff_comments_agree _).2.1 hlines⟩

/-- A constant that crosses a line end loses a comment marker, and a comment
behind such a constant is kept. -/
theorem not_faithful_of_crossing_constant :
    ¬Faithful "\"a\n//b\"" ∧ ¬Faithful "\"a\nb\" // c" := by
  constructor
  · intro hfaithful
    have hkept := hfaithful.constants_kept 3 (by decide +kernel)
    rw [stripComments_eq_veiled] at hkept
    revert hkept
    decide +kernel
  · intro hfaithful
    have hagree := commentsAgree_of_faithful hfaithful 6 (by decide +kernel)
    revert hagree
    decide +kernel

end JackTree
