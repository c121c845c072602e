import JackTree.Proofs.CharacterScanner
import Mathlib.Data.List.Chain

/-!
# Division of lines into tokens

The lines that a lexer is given, with a space behind each of them, can be divided
in one way only into gaps of blanks and words, string constants and symbols, such
that no two words touch.  What may be left over is a quotation mark that no other
one follows.  `lines_divide_in_one_way` says that the tokens of the lexer are the
pieces of this division, each with the place of its first character.
-/

namespace JackTree

open Text

/-- The characters of some lines with their places and a space behind each line.
The characters of a line are counted from one behind its indentation. -/
def joined (lines : List SourceLine) : List Located :=
  lines.flatMap fun line => row line.number (line.indent + 1) (line.text ++ [' '])

theorem flatMap_located (lines : List SourceLine) :
    lines.flatMap SourceLine.located = joined lines := by
  exact congrArg (lines.flatMap ·) (funext SourceLine.located_eq_row)

theorem Lexer.ofLines_eq (lines : List SourceLine) (options : LexerOptions) :
    Lexer.ofLines lines options = ⟨joined lines, options⟩ := by
  rw [Lexer.ofLines, flatMap_located]

theorem CharacterLexer.ofLines_eq (lines : List SourceLine) (options : LexerOptions) :
    CharacterLexer.ofLines lines options = { input := joined lines, options } := by
  rw [CharacterLexer.ofLines, flatMap_located]

/-! ## Divisions -/

namespace Cut

def IsWord (cut : Cut) : Prop :=
  ∀ c ∈ cut.characters, c.isWordChar = true

def IsConstant (cut : Cut) : Prop :=
  cut.first.isQuote = true ∧ ∃ inner last, cut.body = inner ++ [last] ∧
    (∀ c ∈ inner, c.isQuote = false) ∧ last.isQuote = true

def IsSymbol (cut : Cut) : Prop :=
  cut.body = [] ∧ cut.first.isBlank = false ∧ cut.first.isQuote = false ∧
    cut.first.isWordChar = false

theorem eq_of_characters_eq {cut other : Cut} (hsame : cut.characters = other.characters) :
    cut = other := by
  rcases cut with ⟨first, body⟩
  rcases other with ⟨otherFirst, otherBody⟩
  rcases List.cons.inj hsame with ⟨rfl, rfl⟩
  rfl

end Cut

/-- Some characters, divided into cuts and what stands between and around them. -/
structure Division where
  lead : List Located
  /-- The cuts, each with the gap that follows it. -/
  parts : List (Cut × List Located)
  left : List Located
  deriving DecidableEq, Repr

namespace Division

def characters (division : Division) : List Located :=
  division.lead ++ (division.parts.flatMap fun part => part.1.characters ++ part.2) ++ division.left

/-- The tokens that the cuts are: what they read, and where they start. -/
def tokens (division : Division) : List Token :=
  division.parts.map fun part =>
    ⟨String.ofList (part.1.characters.map Located.char),
      ⟨part.1.first.line, part.1.first.column, part.1.characters.length⟩⟩

structure IsLexical (division : Division) : Prop where
  lead_blank : ∀ c ∈ division.lead, c.isBlank = true
  gaps_blank : ∀ part ∈ division.parts, ∀ c ∈ part.2, c.isBlank = true
  cuts_fit : ∀ part ∈ division.parts, part.1.IsWord ∨ part.1.IsConstant ∨ part.1.IsSymbol
  words_apart : division.parts.IsChain fun part next =>
    part.1.IsWord → next.1.IsWord → part.2 ≠ []
  left_open : division.left = [] ∨ ∃ quote body, division.left = quote :: body ∧
    quote.isQuote = true ∧ ∀ c ∈ body, c.isQuote = false

/-! ## Lexical divisions and cuts -/

theorem characters_cons (lead gap left : List Located) (cut : Cut)
    (parts : List (Cut × List Located)) :
    (Division.mk lead ((cut, gap) :: parts) left).characters =
      lead ++ (cut.characters ++ (Division.mk gap parts left).characters) := by
  simp [characters]

theorem IsLexical.tail {lead gap left : List Located} {cut : Cut}
    {parts : List (Cut × List Located)}
    (hlexical : (Division.mk lead ((cut, gap) :: parts) left).IsLexical) :
    (Division.mk gap parts left).IsLexical where
  lead_blank := hlexical.gaps_blank _ List.mem_cons_self
  gaps_blank part hpart := hlexical.gaps_blank part (List.mem_cons_of_mem _ hpart)
  cuts_fit part hpart := hlexical.cuts_fit part (List.mem_cons_of_mem _ hpart)
  words_apart := hlexical.words_apart.tail
  left_open := hlexical.left_open

/-- What is left over goes on with no word. -/
theorem IsLexical.isWordChar_left {division : Division} (hlexical : division.IsLexical) :
    ∀ c ∈ division.left.head?, c.isWordChar = false := by
  intro c hc
  rcases hlexical.left_open with hnone | ⟨quote, body, hleft, hquote, _⟩
  · rw [hnone] at hc
    contradiction
  · rw [hleft] at hc
    rw [← Option.some.inj hc]
    exact Located.isWordChar_eq_false_of_isQuote hquote

/-- A word of a lexical division does not go on behind its end. -/
theorem IsLexical.isWordChar_after {lead gap left : List Located} {cut : Cut}
    {parts : List (Cut × List Located)}
    (hlexical : (Division.mk lead ((cut, gap) :: parts) left).IsLexical) (hword : cut.IsWord) :
    ∀ c ∈ (Division.mk gap parts left).characters.head?, c.isWordChar = false := by
  intro c hc
  cases gap with
  | cons blank gap =>
      rw [← Option.some.inj hc]
      exact Text.isWordChar_eq_false_of_isBlank
        (hlexical.gaps_blank _ List.mem_cons_self blank List.mem_cons_self)
  | nil =>
      cases parts with
      | nil => exact hlexical.isWordChar_left c hc
      | cons next parts =>
          rw [← Option.some.inj hc]
          have hnext := hlexical.cuts_fit next (List.mem_cons_of_mem _ List.mem_cons_self)
          rcases hnext with hnext | hnext | hnext
          · have hapart := (List.isChain_cons_cons.mp hlexical.words_apart).1 hword hnext
            contradiction
          · exact Located.isWordChar_eq_false_of_isQuote hnext.1
          · exact hnext.2.2.2

theorem IsLexical.fits {lead gap left : List Located} {cut : Cut}
    {parts : List (Cut × List Located)}
    (hlexical : (Division.mk lead ((cut, gap) :: parts) left).IsLexical) :
    cut.Fits (Division.mk gap parts left).characters := by
  have hafter := hlexical.isWordChar_after
  rcases cut with ⟨first, body⟩
  rcases hlexical.cuts_fit _ List.mem_cons_self with hword | hconstant | hsymbol
  · rcases List.forall_mem_cons.mp hword with ⟨hfirst, hbody⟩
    exact .word hfirst hbody (hafter hword)
  · rcases hconstant with ⟨hfirst, inner, last, hbody, hinner, hlast⟩
    dsimp only at hbody
    rw [hbody]
    exact .constant hfirst hinner hlast
  · rcases hsymbol with ⟨hbody, hblank, hquote, hword⟩
    dsimp only at hbody
    rw [hbody]
    exact .symbol hblank hquote hword

end Division

/-! ## There is one lexical division -/

/-- A gap of blanks reaches as far as the blanks do. -/
theorem eq_of_blank_append_eq {gap other rest more : List Located}
    (hgap : ∀ c ∈ gap, c.isBlank = true) (hother : ∀ c ∈ other, c.isBlank = true)
    (hrest : ∀ c ∈ rest.head?, c.isBlank = false) (hmore : ∀ c ∈ more.head?, c.isBlank = false)
    (hsame : gap ++ rest = other ++ more) : gap = other ∧ rest = more := by
  rcases takeWhile_dropWhile_append hgap hrest with ⟨hgapTake, hrestDrop⟩
  rcases takeWhile_dropWhile_append hother hmore with ⟨hotherTake, hmoreDrop⟩
  rw [hsame] at hgapTake hrestDrop
  exact ⟨hgapTake.symm.trans hotherTake, hrestDrop.symm.trans hmoreDrop⟩

namespace Division

theorem IsLexical.isBlank_left {lead left : List Located}
    (hlexical : (Division.mk lead [] left).IsLexical) : ∀ c ∈ left.head?, c.isBlank = false := by
  intro c hc
  rcases hlexical.left_open with hnone | ⟨quote, body, hleft, hquote, _⟩
  · dsimp only at hnone
    rw [hnone] at hc
    contradiction
  · dsimp only at hleft
    rw [hleft] at hc
    rw [← Option.some.inj hc]
    exact Located.isBlank_eq_false_of_isQuote hquote

theorem IsLexical.isBlank_cut {lead gap left : List Located} {cut : Cut}
    {parts : List (Cut × List Located)}
    (hlexical : (Division.mk lead ((cut, gap) :: parts) left).IsLexical) (rest : List Located) :
    ∀ c ∈ (cut.characters ++ rest).head?, c.isBlank = false := by
  intro c hc
  rw [← Option.some.inj hc]
  exact hlexical.fits.isBlank_first

/-- The next token of a lexical division is that of its first cut. -/
theorem IsLexical.scan_cons {lead gap left : List Located} {cut : Cut}
    {parts : List (Cut × List Located)}
    (hlexical : (Division.mk lead ((cut, gap) :: parts) left).IsLexical) :
    scan (Division.mk lead ((cut, gap) :: parts) left).characters =
      .token cut.token (Division.mk gap parts left).characters := by
  rw [characters_cons, scan_skip hlexical.lead_blank, scan_of_fits hlexical.fits]

theorem IsLexical.scan_nil {lead left : List Located}
    (hlexical : (Division.mk lead [] left).IsLexical) (token : Token) (rest : List Located) :
    scan (Division.mk lead [] left).characters ≠ .token token rest := by
  have hcharacters : (Division.mk lead [] left).characters = lead ++ left := by simp [characters]
  rw [hcharacters, scan_skip hlexical.lead_blank]
  rcases hlexical.left_open with hnone | ⟨quote, body, hleft, hquote, hbody⟩
  · dsimp only at hnone
    simp [hnone, scan]
  · dsimp only at hleft
    simp [hleft, scan_of_unclosed hquote hbody]

theorem IsLexical.unique {division other : Division} (hlexical : division.IsLexical)
    (hother : other.IsLexical) (hsame : division.characters = other.characters) :
    division = other := by
  rcases division with ⟨lead, parts, left⟩
  rcases other with ⟨otherLead, otherParts, otherLeft⟩
  induction parts generalizing lead otherLead otherParts with
  | nil =>
      cases otherParts with
      | nil =>
          simp only [characters, List.flatMap_nil, List.append_nil] at hsame
          rcases eq_of_blank_append_eq hlexical.lead_blank hother.lead_blank hlexical.isBlank_left
            hother.isBlank_left hsame with ⟨rfl, rfl⟩
          rfl
      | cons part otherParts =>
          have hscan := hother.scan_cons
          rw [← hsame] at hscan
          exact absurd hscan (hlexical.scan_nil _ _)
  | cons part parts ih =>
      rcases part with ⟨cut, gap⟩
      have hscan := hlexical.scan_cons
      rw [hsame] at hscan
      cases otherParts with
      | nil => exact absurd hscan (hother.scan_nil _ _)
      | cons otherPart otherParts =>
          rcases otherPart with ⟨otherCut, otherGap⟩
          rw [hother.scan_cons] at hscan
          have hafter := (Scan.token.inj hscan).2.symm
          rw [characters_cons, characters_cons] at hsame
          rcases eq_of_blank_append_eq hlexical.lead_blank hother.lead_blank
            (hlexical.isBlank_cut _) (hother.isBlank_cut _) hsame with ⟨hlead, hcuts⟩
          rw [hafter] at hcuts
          have hcut := Cut.eq_of_characters_eq (List.append_cancel_right hcuts)
          have htail := ih gap hlexical.tail otherGap otherParts hother.tail hafter
          simp only [Division.mk.injEq] at hlead htail ⊢
          exact ⟨hlead, by rw [hcut, htail.1, htail.2.1], htail.2.2⟩

end Division

/-! ## Every input has a lexical division -/

theorem Cut.Fits.isWord_or {cut : Cut} {rest : List Located} (hfits : cut.Fits rest) :
    cut.IsWord ∨ cut.IsConstant ∨ cut.IsSymbol := by
  cases hfits with
  | @constant first last inner _ hfirst hinner hlast =>
      exact .inr (.inl ⟨hfirst, inner, last, rfl, hinner, hlast⟩)
  | word hfirst hbody _ => exact .inl (List.forall_mem_cons.mpr ⟨hfirst, hbody⟩)
  | symbol hblank hquote hword => exact .inr (.inr ⟨rfl, hblank, hquote, hword⟩)

/-- No word character follows a word. -/
theorem Cut.Fits.isWordChar_rest {cut : Cut} {rest : List Located} (hfits : cut.Fits rest)
    (hword : cut.IsWord) : ∀ c ∈ rest.head?, c.isWordChar = false := by
  have hfirst := hword cut.first List.mem_cons_self
  cases hfits with
  | constant hquote _ _ =>
      rw [Located.isWordChar_eq_false_of_isQuote hquote] at hfirst
      contradiction
  | word _ _ hrest => exact hrest
  | symbol _ _ hnot =>
      rw [hnot] at hfirst
      contradiction

theorem Lexes.exists_division {input left : List Located} {cuts : List Cut}
    (hlexes : Lexes input cuts left) :
    ∃ division : Division, division.IsLexical ∧ division.characters = input ∧
      division.tokens = cuts.map Cut.token := by
  induction hlexes with
  | @blank gap hgap =>
      exact ⟨⟨gap, [], []⟩, ⟨hgap, by simp, by simp, .nil, .inl rfl⟩,
        by simp [Division.characters], rfl⟩
  | @unclosed gap body quote hgap hquote hbody =>
      exact ⟨⟨gap, [], quote :: body⟩,
        ⟨hgap, by simp, by simp, .nil, .inr ⟨quote, body, rfl, hquote, hbody⟩⟩,
        by simp [Division.characters], rfl⟩
  | @cut gap rest left cut cuts hgap hfits _ ih =>
      rcases ih with ⟨⟨lead, parts, excess⟩, hlexical, rfl, htokens⟩
      refine ⟨⟨gap, (cut, lead) :: parts, excess⟩, ⟨hgap, ?_, ?_, ?_, hlexical.left_open⟩,
        Division.characters_cons .., ?_⟩
      · exact List.forall_mem_cons.mpr ⟨hlexical.lead_blank, hlexical.gaps_blank⟩
      · exact List.forall_mem_cons.mpr ⟨hfits.isWord_or, hlexical.cuts_fit⟩
      · cases parts with
        | nil => exact .singleton _
        | cons next parts =>
            refine .cons_cons ?_ hlexical.words_apart
            rintro hword hnext rfl
            have hfirst := hfits.isWordChar_rest hword next.1.first rfl
            rw [hnext _ List.mem_cons_self] at hfirst
            contradiction
      · rw [List.map_cons, ← htokens]
        rfl

/-! ## Tokens of lines -/

/-- Every list of lines is divided in one way, and the lexer answers with the
tokens of this division.  Read character by character, the lines give the same
answers; a scanner that holds anything then knows where its first character
stands. -/
theorem lines_divide_in_one_way (lines : List SourceLine) :
    (∃ division : Division, division.IsLexical ∧ division.characters = joined lines ∧
      (Lexer.ofLines lines).tokenize = .ok division.tokens ∧
      ∀ other : Division, other.IsLexical → other.characters = joined lines → other = division) ∧
    (∀ index, answerAt CharacterLexer.next (.ofLines lines) index =
      answerAt Lexer.next (.ofLines lines) index) ∧
    ∀ characters : List Located,
      ((({} : Scanner).read characters).buffer ≠ [] ∨
        (({} : Scanner).read characters).insideConstant = true) →
      ∃ first body, first :: body <:+ characters ∧
        (({} : Scanner).read characters).span = first.spanOver (first :: body) := by
  refine ⟨?_, ?_, ?_⟩
  · rcases exists_lexes (joined lines) with ⟨cuts, left, hlexes⟩
    rcases hlexes.exists_division with ⟨division, hlexical, hcharacters, htokens⟩
    refine ⟨division, hlexical, hcharacters, ?_, ?_⟩
    · rw [Lexer.ofLines_eq, Lexer.tokenize_of_lexes hlexes, htokens]
      cases left <;> rfl
    · intro other hother hsame
      exact hother.unique hlexical (hsame.trans hcharacters.symm)
  · intro index
    rw [CharacterLexer.ofLines_eq, Lexer.ofLines_eq, CharacterLexer.answerAt_eq]
  · intro characters hbusy
    rcases Scanner.exists_holds characters with ⟨held, hsuffix, hholds⟩
    cases held with
    | nil =>
        rcases hbusy with hbuffer | hinside
        · exact absurd hholds.buffer_eq hbuffer
        · exact absurd rfl (hholds.of_inside hinside)
    | cons first body => exact ⟨first, body, hsuffix, hholds.span⟩

/-- A constant that crosses a line end, a letter that is no word character, and
a constant that never closes. -/
theorem lines_divide_around_constants :
    ∃ division : Division, division.IsLexical ∧
      division.characters =
        joined [⟨3, 2, ['x', '1', '"', 'a']⟩, ⟨5, 0, ['b', '"', 'é', '9', '"', 'c']⟩] ∧
      division.tokens =
        [⟨"x1", ⟨3, 3, 2⟩⟩, ⟨"\"a b\"", ⟨3, 5, 5⟩⟩, ⟨"é", ⟨5, 3, 1⟩⟩, ⟨"9", ⟨5, 4, 1⟩⟩] := by
  rcases (lines_divide_in_one_way
      [⟨3, 2, ['x', '1', '"', 'a']⟩, ⟨5, 0, ['b', '"', 'é', '9', '"', 'c']⟩]).1 with
    ⟨division, hlexical, hcharacters, htokens, _⟩
  refine ⟨division, hlexical, hcharacters, ?_⟩
  have hanswer : (Lexer.ofLines
      [⟨3, 2, ['x', '1', '"', 'a']⟩, ⟨5, 0, ['b', '"', 'é', '9', '"', 'c']⟩]).tokenize.toOption =
      some [⟨"x1", ⟨3, 3, 2⟩⟩, ⟨"\"a b\"", ⟨3, 5, 5⟩⟩, ⟨"é", ⟨5, 3, 1⟩⟩, ⟨"9", ⟨5, 4, 1⟩⟩] := by
    decide +kernel
  rw [htokens] at hanswer
  exact Option.some.inj hanswer

end JackTree
