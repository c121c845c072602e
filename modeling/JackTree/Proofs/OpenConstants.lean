import JackTree.Proofs.LexicalDivision

/-!
# Constants that never close

A constant stays open at the end of some lines just when their quotation marks are
odd in number.  `strictness_concerns_open_constants` says that the lexer reports
this when it is strict and drops the constant when it is not, and that this is the
only difference.  It does not matter either whether the tokens are asked for one by
one or all at once.
-/

namespace JackTree

open Text

/-! ## The number of quotation marks -/

def quotesIn (lines : List SourceLine) : Nat :=
  (lines.flatMap SourceLine.text).count quoteMark

theorem quotes_row (line column : Nat) (text : List Char) :
    quotes (row line column text) = text.count quoteMark := by
  unfold quotes
  induction text generalizing column with
  | nil => rfl
  | cons c rest ih =>
      rw [row, List.countP_cons, ih, List.count_cons]
      rfl

theorem quotes_joined (lines : List SourceLine) : quotes (joined lines) = quotesIn lines := by
  induction lines with
  | nil => rfl
  | cons line lines ih =>
      have hspace : [' '].count quoteMark = 0 := by decide
      rw [joined, List.flatMap_cons, quotes_append, quotes_row, List.count_append, hspace,
        quotesIn, List.flatMap_cons, List.count_append]
      exact congrArg _ ih

/-- Only a constant that never closes makes the quotation marks odd in number. -/
theorem Lexes.quotes_even_iff {input left : List Located} {cuts : List Cut}
    (hlexes : Lexes input cuts left) : quotes input % 2 = 0 ↔ left = [] := by
  induction hlexes with
  | blank hgap => simp [quotes_of_blank hgap]
  | unclosed hgap hquote hbody =>
      have hgapZero := quotes_of_blank hgap
      have hbodyZero := quotes_eq_zero hbody
      unfold quotes at hgapZero hbodyZero ⊢
      rw [List.countP_append, List.countP_cons_of_pos hquote, hgapZero, hbodyZero]
      simp
  | cut hgap hfits _ ih =>
      have hgapZero := quotes_of_blank hgap
      have hcut := hfits.quotes_even
      rw [quotes_append, quotes_append, ← ih]
      omega

/-! ## The last quotation mark -/

/-- Whether a quotation mark is the last one of some characters. -/
structure IsLastQuote (characters before : List Located) (quote : Located)
    (after : List Located) : Prop where
  characters_eq : characters = before ++ quote :: after
  isQuote : quote.isQuote = true
  none_after : ∀ c ∈ after, c.isQuote = false

theorem Cut.Fits.of_append {cut : Cut} {front back : List Located}
    (hfits : cut.Fits (front ++ back)) : cut.Fits front := by
  cases hfits with
  | constant hfirst hinner hlast => exact .constant hfirst hinner hlast
  | word hfirst hbody hrest =>
      refine .word hfirst hbody ?_
      intro c hc
      cases front with
      | nil => contradiction
      | cons d front => exact hrest c hc
  | symbol hblank hquote hword => exact .symbol hblank hquote hword

/-- What never closes starts at the last quotation mark.  Cut off there, the input
has the same cuts and nothing is left over. -/
theorem Lexes.exists_lastQuote {input left : List Located} {cuts : List Cut}
    (hlexes : Lexes input cuts left) (hleft : left ≠ []) :
    ∃ before quote after, IsLastQuote input before quote after ∧ left = quote :: after ∧
      Lexes before cuts [] := by
  induction hlexes with
  | blank => contradiction
  | @unclosed gap body quote hgap hquote hbody =>
      exact ⟨gap, quote, body, ⟨rfl, hquote, hbody⟩, rfl, .blank hgap⟩
  | @cut gap rest left cut cuts hgap hfits _ ih =>
      rcases ih hleft with ⟨before, quote, after, ⟨rfl, hquote, hafter⟩, hrest, hbefore⟩
      exact ⟨gap ++ (cut.characters ++ before), quote, after, ⟨by simp, hquote, hafter⟩, hrest,
        .cut hgap hfits.of_append hbefore⟩

/-! ## Tokens one by one -/

namespace Lexer

/-- The tokens of some first requests, together with those that all the rest is
cut into, or the first error. -/
def tokenizeAfter (lexer : Lexer) : Nat → Except LexError (List Token)
  | 0 => lexer.tokenize
  | count + 1 =>
    match lexer.next with
    | (none, later) => later.tokenizeAfter count
    | (some (.ok token), later) => (later.tokenizeAfter count).map (token :: ·)
    | (some (.error error), _) => .error error

/-- A lexer that has nothing more to give is through with its input. -/
theorem input_of_next_none {lexer later : Lexer} (hnext : lexer.next = (none, later)) :
    later.input = [] := by
  unfold next at hnext
  split at hnext
  next => rw [← (Prod.mk.inj hnext).2]
  next => simp at hnext
  next =>
    split at hnext
    next => simp at hnext
    next => rw [← (Prod.mk.inj hnext).2]

theorem tokenize_of_input_nil {lexer : Lexer} (hinput : lexer.input = []) :
    lexer.tokenize = .ok [] := by
  have hnext : lexer.next = (none, ⟨[], lexer.options⟩) := by rw [next, hinput, scan]
  exact tokenize_of_next_none hnext

theorem tokenizeAfter_eq (lexer : Lexer) (count : Nat) :
    lexer.tokenizeAfter count = lexer.tokenize := by
  induction count generalizing lexer with
  | zero => rfl
  | succ count ih =>
      unfold tokenizeAfter
      split
      next later hnext =>
        rw [ih, tokenize_of_next_none hnext, tokenize_of_input_nil (input_of_next_none hnext)]
      next token later hnext => rw [ih, tokenize_of_next_token hnext]
      next error later hnext => rw [tokenize_of_next_error hnext]

end Lexer

/-- What follows the tokens when they are asked for one by one. -/
def errorsOf : Except LexError (List Token) → List (Except LexError Token)
  | .ok _ => []
  | .error error => [.error error]

theorem answersOf_eq {input left : List Located} {cuts : List Cut}
    (hlexes : Lexes input cuts left) (options : LexerOptions) :
    answersOf options cuts left =
      (cuts.map Cut.token).map .ok ++ errorsOf (Lexer.mk input options).tokenize := by
  rw [Lexer.tokenize_of_lexes hlexes, answersOf, List.map_map]
  cases left with
  | nil => rfl
  | cons quote body => cases hstrict : options.strictStrings <;> simp [report?, errorsOf, hstrict]

/-! ## Strict and permissive lexers -/

/-- What remains open at the end of the lines is the only thing that a strict and
a permissive lexer treat differently: the one reports the last quotation mark and
all that follows it, the other one drops them.  Asked for one by one, the tokens
come first, then what is reported, then nothing any more. -/
theorem strictness_concerns_open_constants (lines : List SourceLine) :
    ∃ tokens, (Lexer.ofLines lines ⟨false⟩).tokenize = .ok tokens ∧
      ((∃ error, (Lexer.ofLines lines ⟨true⟩).tokenize = .error error) ↔
        quotesIn lines % 2 = 1) ∧
      (∀ others, (Lexer.ofLines lines ⟨true⟩).tokenize = .ok others → others = tokens) ∧
      (∀ error, (Lexer.ofLines lines ⟨true⟩).tokenize = .error error →
        ∃ before quote after, IsLastQuote (joined lines) before quote after ∧
          error = .unterminatedString ⟨quote.line, quote.column, (quote :: after).length⟩ ∧
          ∀ options, (Lexer.mk before options).tokenize = .ok tokens) ∧
      (∀ options index, answerAt Lexer.next (.ofLines lines options) index =
        (tokens.map .ok ++ errorsOf (Lexer.ofLines lines options).tokenize)[index]?) ∧
      (∀ options index, answerAt CharacterLexer.next (.ofLines lines options) index =
        answerAt Lexer.next (.ofLines lines options) index) ∧
      ∀ options count, (Lexer.ofLines lines options).tokenizeAfter count =
        (Lexer.ofLines lines options).tokenize := by
  rcases exists_lexes (joined lines) with ⟨cuts, left, hlexes⟩
  have heven := hlexes.quotes_even_iff
  rw [quotes_joined] at heven
  have hstrict : (Lexer.ofLines lines ⟨true⟩).tokenize =
      match left with
      | [] => .ok (cuts.map Cut.token)
      | quote :: _ => .error (.unterminatedString (quote.spanOver left)) := by
    rw [Lexer.ofLines_eq, Lexer.tokenize_of_lexes hlexes]
    cases left <;> rfl
  refine ⟨cuts.map Cut.token, ?_, ?_, ?_, ?_, ?_, ?_, ?_⟩
  · rw [Lexer.ofLines_eq, Lexer.tokenize_of_lexes hlexes]
    cases left <;> rfl
  · rw [hstrict]
    cases left with
    | nil => simp [heven.mpr rfl]
    | cons quote body =>
        have hodd := mt heven.mp (List.cons_ne_nil quote body)
        simp only [Except.error.injEq, exists_eq', true_iff]
        omega
  · intro others hothers
    rw [hstrict] at hothers
    cases left with
    | nil => exact (Except.ok.inj hothers).symm
    | cons quote body => contradiction
  · intro error herror
    rw [hstrict] at herror
    cases left with
    | nil => contradiction
    | cons quote body =>
        rcases hlexes.exists_lastQuote (List.cons_ne_nil quote body) with
          ⟨before, last, after, hlast, hleft, hbefore⟩
        rcases List.cons.inj hleft with ⟨rfl, rfl⟩
        refine ⟨before, quote, body, hlast, (Except.error.inj herror).symm, ?_⟩
        intro options
        exact Lexer.tokenize_of_lexes hbefore options
  · intro options index
    rw [Lexer.ofLines_eq, Lexer.answerAt_of_lexes hlexes, answersOf_eq hlexes]
  · intro options index
    rw [CharacterLexer.ofLines_eq, Lexer.ofLines_eq, CharacterLexer.answerAt_eq]
  · intro options count
    exact Lexer.tokenizeAfter_eq _ count

/-- The last of three quotation marks opens a constant that never closes. -/
theorem strictness_concerns_third_mark :
    ∃ tokens error,
      (Lexer.ofLines [⟨1, 0, "s = \"a\" \"oops;".toList⟩] ⟨false⟩).tokenize = .ok tokens ∧
      (Lexer.ofLines [⟨1, 0, "s = \"a\" \"oops;".toList⟩] ⟨true⟩).tokenize = .error error ∧
      tokens.map Token.lexeme = ["s", "=", "\"a\""] ∧ error.span = ⟨1, 9, 7⟩ ∧
      answerAt Lexer.next (.ofLines [⟨1, 0, "s = \"a\" \"oops;".toList⟩] ⟨true⟩) 3 =
        some (.error error) := by
  have htexts : (Lexer.ofLines [⟨1, 0, "s = \"a\" \"oops;".toList⟩] ⟨false⟩).tokenize.toOption.map
      (List.map Token.lexeme) = some ["s", "=", "\"a\""] := by decide +kernel
  have hspan : (Lexer.ofLines [⟨1, 0, "s = \"a\" \"oops;".toList⟩] ⟨true⟩).tokenize.mapError
      LexError.span = .error ⟨1, 9, 7⟩ := by decide +kernel
  rcases strictness_concerns_open_constants [⟨1, 0, "s = \"a\" \"oops;".toList⟩] with
    ⟨tokens, htokens, hfails, _, _, hanswers, _, _⟩
  rcases hfails.mpr (by decide) with ⟨error, herror⟩
  rw [htokens] at htexts
  rw [herror] at hspan
  have hlexemes : tokens.map Token.lexeme = ["s", "=", "\"a\""] := Option.some.inj htexts
  have hlength := congrArg List.length hlexemes
  rw [List.length_map] at hlength
  refine ⟨tokens, error, htokens, herror, hlexemes, Except.error.inj hspan, ?_⟩
  rw [hanswers, herror, List.getElem?_append_right (by simp [hlength])]
  simp [hlength, errorsOf]

end JackTree
