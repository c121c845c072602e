import JackTree.Proofs.CharacterScanner
import JackTree.Proofs.DocumentDetermination
import JackTree.Proofs.GrammarDerivation
import JackTree.Proofs.TokenPlaces

/-!
# Kinds of lexemes

The kind of a token is told from its text alone, by tests that know nothing of how the
lexer cuts its input.  `kinds_agree_with_cuts` says what the tests make of the three
shapes of texts that the lexer cuts off, and that no other order of the tests gives
anything else, as long as that for keywords comes before that for identifiers.
-/

namespace JackTree

open Text

/-! ## Characters -/

theorem Text.isWordChar_eq_true_iff {c : Char} :
    isWordChar c = true ↔ c.isDigit = true ∨ c.isAlpha = true ∨ c = '_' := by
  simp only [isWordChar, Char.isAlphanum, Bool.or_eq_true, beq_iff_eq]
  tauto

theorem Text.isDigit_eq_false_of_isAlpha {c : Char} (halpha : c.isAlpha = true) :
    c.isDigit = false := by
  cases hdigit : c.isDigit with
  | false => rfl
  | true =>
      unfold Char.isAlpha Char.isUpper Char.isLower at halpha
      unfold Char.isDigit at hdigit
      simp only [Bool.or_eq_true, Bool.and_eq_true, decide_eq_true_eq, UInt32.le_iff_toNat_le,
        ge_iff_le] at halpha hdigit
      change (65 ≤ c.toNat ∧ c.toNat ≤ 90) ∨ (97 ≤ c.toNat ∧ c.toNat ≤ 122) at halpha
      change 48 ≤ c.toNat ∧ c.toNat ≤ 57 at hdigit
      omega

/-- Whether a character can be the first one of a name. -/
def Text.StartsName (c : Char) : Prop :=
  c.isAlpha = true ∨ c = '_'

theorem Text.startsName_iff {c : Char} :
    StartsName c ↔ isWordChar c = true ∧ c.isDigit = false := by
  rw [isWordChar_eq_true_iff]
  constructor
  · rintro (halpha | rfl)
    · exact ⟨.inr (.inl halpha), isDigit_eq_false_of_isAlpha halpha⟩
    · exact ⟨.inr (.inr rfl), by decide⟩
  · rintro ⟨hdigit | hstarts, hnot⟩
    · rw [hdigit] at hnot
      contradiction
    · exact hstarts

/-! ## Tests for kinds

The first character of a text leaves at most one of the three tests to pass.
-/

theorem Text.isIntegerText_iff {text : List Char} :
    isIntegerText text = true ↔ text ≠ [] ∧ ∀ c ∈ text, c.isDigit = true := by
  simp [isIntegerText]

theorem Text.isStringText_iff {text : List Char} :
    isStringText text = true ↔
      ∃ inner, quoteMark ∉ inner ∧ text = quoteMark :: (inner ++ [quoteMark]) := by
  constructor
  · intro hstring
    have hinner : quoteMark ∉ text.tail.dropLast := by
      cases text with
      | nil => contradiction
      | cons first rest =>
          rw [isStringText, Bool.and_eq_true] at hstring
          simpa using hstring.2
    exact ⟨text.tail.dropLast, hinner, eq_quoted_of_isStringText hstring⟩
  · rintro ⟨inner, hinner, rfl⟩
    simp [isStringText, hinner]

theorem Text.isIdentifierText_cons_iff {first : Char} {rest : List Char} :
    isIdentifierText (first :: rest) = true ↔
      first.isDigit = false ∧ ∀ c ∈ first :: rest, isWordChar c = true := by
  rw [isIdentifierText, Bool.and_eq_true, Bool.not_eq_true', List.all_eq_true]

theorem Text.head?_of_isStringText {text : List Char} (hstring : isStringText text = true) :
    text.head? = some quoteMark := by
  rcases isStringText_iff.mp hstring with ⟨inner, _, rfl⟩
  rfl

theorem Text.not_integer_and_string (text : List Char) :
    ¬(isIntegerText text = true ∧ isStringText text = true) := by
  rintro ⟨hinteger, hstring⟩
  have hquote := (isIntegerText_iff.mp hinteger).2 quoteMark
    (List.mem_of_mem_head? (head?_of_isStringText hstring))
  revert hquote
  decide

theorem Text.not_integer_and_identifier (text : List Char) :
    ¬(isIntegerText text = true ∧ isIdentifierText text = true) := by
  rintro ⟨hinteger, hidentifier⟩
  cases text with
  | nil => contradiction
  | cons first rest =>
      have hdigit := (isIntegerText_iff.mp hinteger).2 first List.mem_cons_self
      rw [(isIdentifierText_cons_iff.mp hidentifier).1] at hdigit
      contradiction

theorem Text.not_string_and_identifier (text : List Char) :
    ¬(isStringText text = true ∧ isIdentifierText text = true) := by
  rintro ⟨hstring, hidentifier⟩
  rcases isStringText_iff.mp hstring with ⟨inner, _, rfl⟩
  have hquote := (isIdentifierText_cons_iff.mp hidentifier).2 quoteMark List.mem_cons_self
  rw [isWordChar_quoteMark] at hquote
  contradiction

theorem Keyword.isIdentifierText_spelling (word : Keyword) :
    isIdentifierText word.spelling.toList = true := by
  cases word <;> decide

theorem Keyword.isIdentifierText_of_ofSpelling? {text : String} {word : Keyword}
    (hfound : ofSpelling? text = some word) : isIdentifierText text.toList = true := by
  rw [← spelling_of_ofSpelling? hfound]
  exact word.isIdentifierText_spelling

/-! ## Orders of the tests -/

inductive KindTest where
  | keyword
  | integer
  | string
  | identifier
  deriving DecidableEq, Repr

namespace KindTest

/-- The tests in the order in which they are made. -/
def all : List KindTest :=
  [keyword, integer, string, identifier]

def answer? (text : String) : KindTest → Option TokenKind
  | keyword => (Keyword.ofSpelling? text).map .keyword
  | integer => if isIntegerText text.toList then some .integerConstant else none
  | string => if isStringText text.toList then some .stringConstant else none
  | identifier => if isIdentifierText text.toList then some .identifier else none

/-- The kind of a text when the first test that it passes decides. -/
def kindIn (order : List KindTest) (text : String) : TokenKind :=
  (order.findSome? (answer? text)).getD .symbol

theorem kindIn_all (text : String) : kindIn all text = .ofText text := by
  unfold kindIn all TokenKind.ofText
  simp only [List.findSome?_cons, List.findSome?_nil, answer?]
  cases Keyword.ofSpelling? text with
  | some word => rfl
  | none =>
      cases isIntegerText text.toList <;> cases isStringText text.toList <;>
        cases isIdentifierText text.toList <;> rfl

/-- A keyword passes the tests for keywords and for identifiers, and any other text
passes at most one test. -/
theorem filterMap_all (text : String) :
    all.filterMap (answer? text) = [keyword, identifier].filterMap (answer? text) ∨
      (all.filterMap (answer? text)).length ≤ 1 := by
  have hintegerString := not_integer_and_string text.toList
  have hintegerIdentifier := not_integer_and_identifier text.toList
  have hstringIdentifier := not_string_and_identifier text.toList
  cases hfound : Keyword.ofSpelling? text with
  | some word =>
      have hidentifier := Keyword.isIdentifierText_of_ofSpelling? hfound
      have hinteger : isIntegerText text.toList = false :=
        Bool.eq_false_iff.mpr fun hinteger => hintegerIdentifier ⟨hinteger, hidentifier⟩
      have hstring : isStringText text.toList = false :=
        Bool.eq_false_iff.mpr fun hstring => hstringIdentifier ⟨hstring, hidentifier⟩
      left
      simp [all, answer?, List.filterMap_cons, hinteger, hstring]
  | none =>
      right
      cases hinteger : isIntegerText text.toList <;> cases hstring : isStringText text.toList <;>
        cases hidentifier : isIdentifierText text.toList <;> simp_all [all, answer?]

theorem filterMap_of_perm {order : List KindTest} (hperm : order.Perm all)
    (hbefore : [keyword, identifier].Sublist order) (text : String) :
    order.filterMap (answer? text) = all.filterMap (answer? text) := by
  have hanswers := hperm.filterMap (answer? text)
  rcases filterMap_all text with hboth | hone
  · rw [hboth] at hanswers ⊢
    exact ((hbefore.filterMap _).eq_of_length hanswers.length_eq.symm).symm
  · generalize all.filterMap (answer? text) = answers at hanswers hone
    cases answers with
    | nil => exact hanswers.eq_nil
    | cons kind more =>
        have hnone : more = [] := by simpa using hone
        rw [hnone] at hanswers ⊢
        exact hanswers.eq_singleton

/-- A keyword is only taken for one when the test for keywords comes first. -/
theorem keyword_before_identifier {order : List KindTest} (hperm : order.Perm all)
    (word : Keyword) (hkind : kindIn order word.spelling = .keyword word) :
    [keyword, identifier].Sublist order := by
  have hanswer : order.findSome? (answer? word.spelling) = some (.keyword word) := by
    unfold kindIn at hkind
    cases hfirst : order.findSome? (answer? word.spelling) with
    | none =>
        rw [hfirst] at hkind
        contradiction
    | some kind =>
        rw [hfirst] at hkind
        exact congrArg some hkind
  rcases List.findSome?_eq_some_iff.mp hanswer with ⟨before, test, after, rfl, htest, hnone⟩
  have hkeyword : test = keyword := by
    cases test with
    | keyword => rfl
    | integer => simp [answer?] at htest
    | string => simp [answer?] at htest
    | identifier => simp [answer?] at htest
  have hidentifier : identifier ∈ after := by
    have hmem : identifier ∈ before ++ test :: after := hperm.mem_iff.mpr (by decide)
    rw [hkeyword] at hmem
    rcases List.mem_append.mp hmem with hearlier | hlater
    · have hfails := hnone identifier hearlier
      simp [answer?, word.isIdentifierText_spelling] at hfails
    · simpa using hlater
  rw [hkeyword]
  exact ((List.singleton_sublist.mpr hidentifier).cons_cons keyword).trans
    (List.sublist_append_right before _)

/-- Every order of the tests gives the same kinds in which the test for keywords comes
before that for identifiers, and no other order does. -/
theorem kindIn_eq_iff {order : List KindTest} (hperm : order.Perm all) :
    (∀ text, kindIn order text = .ofText text) ↔ [keyword, identifier].Sublist order := by
  constructor
  · intro hkinds
    apply keyword_before_identifier hperm .while_
    rw [hkinds, TokenKind.ofText_eq_keyword_iff, Keyword.ofSpelling?_spelling]
  · intro hbefore text
    rw [← kindIn_all, kindIn, kindIn, ← List.head?_filterMap, ← List.head?_filterMap,
      filterMap_of_perm hperm hbefore]

end KindTest

/-! ## Texts of a kind -/

namespace TokenKind

/-- What the tests say of a text of some kind. -/
def Passes : TokenKind → List Char → Prop
  | keyword _, text => isIdentifierText text = true
  | identifier, text => isIdentifierText text = true
  | integerConstant, text => isIntegerText text = true
  | stringConstant, text => isStringText text = true
  | symbol, text =>
    isIntegerText text = false ∧ isStringText text = false ∧ isIdentifierText text = false

theorem passes_ofText (text : String) : (ofText text).Passes text.toList := by
  unfold ofText
  cases hfound : Keyword.ofSpelling? text with
  | some word => exact Keyword.isIdentifierText_of_ofSpelling? hfound
  | none =>
      dsimp only
      split
      next hinteger => exact hinteger
      next hinteger =>
        split
        next hstring => exact hstring
        next hstring =>
          split
          next hidentifier => exact hidentifier
          next hidentifier => exact ⟨by simpa using hinteger, by simpa using hstring,
            by simpa using hidentifier⟩

variable {text : String}

theorem ofText_eq_integerConstant_iff :
    ofText text = .integerConstant ↔ isIntegerText text.toList = true := by
  have hpasses := passes_ofText text
  have hstring := not_integer_and_string text.toList
  have hidentifier := not_integer_and_identifier text.toList
  cases hkind : ofText text <;> simp_all [Passes]

theorem ofText_eq_stringConstant_iff :
    ofText text = .stringConstant ↔ isStringText text.toList = true := by
  have hpasses := passes_ofText text
  have hinteger := not_integer_and_string text.toList
  have hidentifier := not_string_and_identifier text.toList
  cases hkind : ofText text <;> simp_all [Passes]

theorem ofText_eq_name_iff :
    (ofText text = .identifier ∨ ∃ word, ofText text = .keyword word) ↔
      isIdentifierText text.toList = true := by
  have hpasses := passes_ofText text
  have hinteger := not_integer_and_identifier text.toList
  have hstring := not_string_and_identifier text.toList
  cases hkind : ofText text <;> simp_all [Passes]

theorem ofText_eq_symbol_iff :
    ofText text = .symbol ↔ isIntegerText text.toList = false ∧
      isStringText text.toList = false ∧ isIdentifierText text.toList = false := by
  have hpasses := passes_ofText text
  cases hkind : ofText text <;> simp_all [Passes]

end TokenKind

/-! ## Texts that the lexer cuts off -/

/-- Whether a text is one character that is neither part of a word nor a quotation mark
nor a blank. -/
def Text.IsSymbolText (text : List Char) : Prop :=
  ∃ c, text = [c] ∧ isWordChar c = false ∧ c ≠ quoteMark ∧ isBlank c = false

def Text.IsWordText (text : List Char) : Prop :=
  text ≠ [] ∧ ∀ c ∈ text, isWordChar c = true

/-- Whether a text is a word that starts like a number but is none. -/
def Text.IsMixedWord (text : List Char) : Prop :=
  IsWordText text ∧ (∃ first ∈ text.head?, first.isDigit = true) ∧
    ∃ c ∈ text, c.isDigit = false

/-- What the tests for kinds come to when a text has one of the shapes that the lexer
cuts off. -/
structure Text.TestsAgree (text : List Char) : Prop where
  string_iff : isStringText text = true ↔ text.head? = some quoteMark
  integer_iff : isIntegerText text = true ↔ ∀ c ∈ text, c.isDigit = true
  identifier_iff : isIdentifierText text = true ↔ ∃ first ∈ text.head?, StartsName first
  none_iff : (isIntegerText text = false ∧ isStringText text = false ∧
    isIdentifierText text = false) ↔ IsSymbolText text ∨ IsMixedWord text

theorem Text.head?_ne_quoteMark_of_isWordText {text : List Char} (hword : IsWordText text) :
    text.head? ≠ some quoteMark := by
  intro hhead
  have hquote := hword.2 quoteMark (List.mem_of_mem_head? hhead)
  rw [isWordChar_quoteMark] at hquote
  contradiction

theorem Text.not_isSymbolText_of_isWordText {text : List Char} (hword : IsWordText text) :
    ¬IsSymbolText text := by
  rintro ⟨c, rfl, hnot, _, _⟩
  rw [hword.2 c List.mem_cons_self] at hnot
  contradiction

theorem Text.testsAgree_of_isWordText {text : List Char} (hword : IsWordText text) :
    TestsAgree text := by
  have hquote := head?_ne_quoteMark_of_isWordText hword
  have hstring : isStringText text = false :=
    Bool.eq_false_iff.mpr fun hstring => hquote (head?_of_isStringText hstring)
  have hinteger : isIntegerText text = true ↔ ∀ c ∈ text, c.isDigit = true := by
    rw [isIntegerText_iff, and_iff_right hword.1]
  rcases text with _ | ⟨first, rest⟩
  · exact absurd rfl hword.1
  have hfirst := hword.2 first List.mem_cons_self
  have hidentifier : isIdentifierText (first :: rest) = true ↔ first.isDigit = false := by
    rw [isIdentifierText_cons_iff, and_iff_left hword.2]
  refine ⟨?_, hinteger, ?_, ?_⟩
  · exact ⟨head?_of_isStringText, fun hhead => absurd hhead hquote⟩
  · rw [hidentifier]
    simp [startsName_iff, hfirst]
  · constructor
    · rintro ⟨hnone, _, hnot⟩
      have hdigit : first.isDigit = true := by
        rw [Bool.eq_false_iff, Ne, hidentifier] at hnot
        simpa using hnot
      have hother : ∃ c ∈ first :: rest, c.isDigit = false := by
        rw [Bool.eq_false_iff, Ne, hinteger] at hnone
        push Not at hnone
        simpa using hnone
      exact .inr ⟨hword, ⟨first, rfl, hdigit⟩, hother⟩
    · rintro (hsymbol | ⟨_, ⟨d, hd, hdigit⟩, c, hc, hother⟩)
      · exact absurd hsymbol (not_isSymbolText_of_isWordText hword)
      · rw [← Option.some.inj hd] at hdigit
        refine ⟨Bool.eq_false_iff.mpr fun hall => ?_, hstring, Bool.eq_false_iff.mpr fun hname => ?_⟩
        · rw [hinteger.mp hall c hc] at hother
          contradiction
        · rw [hidentifier.mp hname] at hdigit
          contradiction

theorem Text.testsAgree_of_isStringText {text : List Char} (hstring : isStringText text = true) :
    TestsAgree text := by
  have hhead := head?_of_isStringText hstring
  have hquote : quoteMark ∈ text := List.mem_of_mem_head? hhead
  have hinteger : isIntegerText text = false :=
    Bool.eq_false_iff.mpr fun hinteger => not_integer_and_string text ⟨hinteger, hstring⟩
  have hidentifier : isIdentifierText text = false :=
    Bool.eq_false_iff.mpr fun hname => not_string_and_identifier text ⟨hstring, hname⟩
  refine ⟨by simp [hstring, hhead], ?_, ?_, ?_⟩
  · rw [hinteger]
    refine ⟨fun hfalse => absurd hfalse Bool.false_ne_true, fun hall => ?_⟩
    have hdigit := hall quoteMark hquote
    revert hdigit
    decide
  · rw [hidentifier, hhead]
    refine ⟨fun hfalse => absurd hfalse Bool.false_ne_true, ?_⟩
    rintro ⟨d, hd, hstarts⟩
    rw [← Option.some.inj hd] at hstarts
    revert hstarts
    simp [StartsName, quoteMark]
  · constructor
    · rintro ⟨_, hnone, _⟩
      rw [hstring] at hnone
      contradiction
    · rintro (⟨c, rfl, _, hc, _⟩ | ⟨hword, _, _⟩)
      · exact absurd (List.mem_singleton.mp hquote).symm hc
      · exact absurd hhead (head?_ne_quoteMark_of_isWordText hword)

theorem Text.testsAgree_of_isSymbolText {text : List Char} (hsymbol : IsSymbolText text) :
    TestsAgree text := by
  rcases hsymbol with ⟨c, rfl, hword, hquote, hblank⟩
  have hplain : c.isDigit = false ∧ ¬StartsName c := by
    rw [Bool.eq_false_iff, Ne, isWordChar_eq_true_iff, not_or] at hword
    exact ⟨by simpa using hword.1, hword.2⟩
  have hinteger : isIntegerText [c] = false := by simp [isIntegerText, hplain.1]
  have hstring : isStringText [c] = false := by simp [isStringText]
  have hidentifier : isIdentifierText [c] = false := by simp [isIdentifierText, hword]
  refine ⟨by simp [hstring, hquote], by simp [hinteger, hplain.1],
    by simp [hidentifier, hplain.2], ?_⟩
  exact iff_of_true ⟨hinteger, hstring, hidentifier⟩ (.inl ⟨c, rfl, hword, hquote, hblank⟩)

theorem Cut.Fits.testsAgree {cut : Cut} {rest : List Located} (hfits : cut.Fits rest) :
    TestsAgree cut.token.lexeme.toList := by
  change TestsAgree (String.ofList (cut.characters.map Located.char)).toList
  rw [String.toList_ofList]
  cases hfits with
  | @constant first last inner _ hfirst hinner hlast =>
      have hopening : first.char = quoteMark := beq_iff_eq.mp hfirst
      have hclosing : last.char = quoteMark := beq_iff_eq.mp hlast
      have hquote : quoteMark ∉ inner.map Located.char := by
        rw [List.mem_map]
        rintro ⟨c, hc, hchar⟩
        exact absurd (beq_iff_eq.mpr hchar) (Bool.eq_false_iff.mp (hinner c hc))
      apply testsAgree_of_isStringText
      rw [isStringText_iff]
      exact ⟨inner.map Located.char, hquote, by simp [Cut.characters, hopening, hclosing]⟩
  | @word first body _ hfirst hbody _ =>
      apply testsAgree_of_isWordText
      refine ⟨List.cons_ne_nil _ _, List.forall_mem_map.mpr ?_⟩
      exact List.forall_mem_cons.mpr ⟨hfirst, hbody⟩
  | @symbol first _ hblank hquote hword =>
      apply testsAgree_of_isSymbolText
      have hother : first.char ≠ quoteMark := fun hchar =>
        Bool.eq_false_iff.mp hquote (beq_iff_eq.mpr hchar)
      exact ⟨first.char, rfl, hword, hother, hblank⟩

/-! ## Kinds of tokens -/

/-- What the text of a token says of its kind and its value. -/
structure Token.KindAgrees (token : Token) : Prop where
  string_iff : token.kind = .stringConstant ↔ token.lexeme.toList.head? = some quoteMark
  integer_iff : token.kind = .integerConstant ↔ ∀ c ∈ token.lexeme.toList, c.isDigit = true
  name_iff : (token.kind = .identifier ∨ ∃ word, token.kind = .keyword word) ↔
    ∃ first ∈ token.lexeme.toList.head?, StartsName first
  keyword_iff : ∀ word, token.kind = .keyword word ↔ token.lexeme = word.spelling
  symbol_iff : token.kind = .symbol ↔
    IsSymbolText token.lexeme.toList ∨ IsMixedWord token.lexeme.toList
  quote_notMem : token.kind = .symbol → quoteMark ∉ token.lexeme.toList
  value_eq : token.lexeme.toList.head? = some quoteMark →
    quoteMark ∉ token.value.toList ∧
      token.lexeme.toList = quoteMark :: (token.value.toList ++ [quoteMark])

theorem Text.quoteMark_notMem_of_isSymbolText_or {text : List Char}
    (hshape : IsSymbolText text ∨ IsMixedWord text) : quoteMark ∉ text := by
  intro hmem
  rcases hshape with ⟨c, rfl, _, hquote, _⟩ | ⟨hword, _, _⟩
  · exact hquote (List.mem_singleton.mp hmem).symm
  · have hquote := hword.2 quoteMark hmem
    rw [isWordChar_quoteMark] at hquote
    contradiction

theorem Token.kind_eq_keyword_iff {token : Token} {word : Keyword} :
    token.kind = .keyword word ↔ token.lexeme = word.spelling := by
  rw [kind, TokenKind.ofText_eq_keyword_iff]
  constructor
  · intro hfound
    exact (Keyword.spelling_of_ofSpelling? hfound).symm
  · intro hlexeme
    rw [hlexeme, Keyword.ofSpelling?_spelling]

theorem Token.kindAgrees_of_testsAgree {token : Token}
    (htests : TestsAgree token.lexeme.toList) : token.KindAgrees := by
  have hstring : token.kind = .stringConstant ↔ token.lexeme.toList.head? = some quoteMark :=
    TokenKind.ofText_eq_stringConstant_iff.trans htests.string_iff
  have hsymbol : token.kind = .symbol ↔
      IsSymbolText token.lexeme.toList ∨ IsMixedWord token.lexeme.toList :=
    TokenKind.ofText_eq_symbol_iff.trans htests.none_iff
  refine ⟨hstring, TokenKind.ofText_eq_integerConstant_iff.trans htests.integer_iff,
    TokenKind.ofText_eq_name_iff.trans htests.identifier_iff, fun _ => kind_eq_keyword_iff,
    hsymbol, ?_, ?_⟩
  · intro hkind
    exact quoteMark_notMem_of_isSymbolText_or (hsymbol.mp hkind)
  · intro hhead
    rcases isStringText_iff.mp (htests.string_iff.mpr hhead) with ⟨inner, hinner, hlexeme⟩
    have hvalue : token.value.toList = inner := by
      rw [value, hstring.mpr hhead, hlexeme]
      simp
    rw [hvalue]
    exact ⟨hinner, hlexeme⟩

/-! ## Tokens of a lexer -/

theorem Lexes.kindAgrees {input left : List Located} {cuts : List Cut}
    (hlexes : Lexes input cuts left) {cut : Cut} (hcut : cut ∈ cuts) : cut.token.KindAgrees := by
  rcases hlexes.exists_fits hcut with ⟨_, hfits, _⟩
  exact Token.kindAgrees_of_testsAgree hfits.testsAgree

theorem Lexer.kindAgrees_of_answerAt {lexer : Lexer} {index : Nat} {token : Token}
    (hanswer : answerAt next lexer index = some (.ok token)) : token.KindAgrees := by
  rcases exists_lexes lexer.input with ⟨cuts, left, hlexes⟩
  rw [answerAt_of_lexes hlexes lexer.options index] at hanswer
  rcases List.mem_append.mp (List.mem_of_getElem? hanswer) with htoken | herror
  · rcases List.mem_map.mp htoken with ⟨cut, hcut, hsame⟩
    rw [← Except.ok.inj hsame]
    exact hlexes.kindAgrees hcut
  · rcases List.mem_map.mp herror with ⟨_, _, hother⟩
    contradiction

theorem Lexer.kindAgrees_of_tokenize {lexer : Lexer} {tokens : List Token}
    (htokens : lexer.tokenize = .ok tokens) : ∀ token ∈ tokens, token.KindAgrees := by
  rcases exists_lexes_of_tokenize htokens with ⟨cuts, _, hlexes, rfl⟩
  exact List.forall_mem_map.mpr fun _ hcut => hlexes.kindAgrees hcut

/-- The kind of every token that a lexer answers, before an error or without one, is told
by the first character of its text and by whether there are others than digits in it; a
constant keeps as its value all that stands between its quotation marks, and no symbol has
a quotation mark.  On any text at all, cut off by a lexer or not, at most one of the tests
for integers, strings and identifiers passes, and keywords pass the last one: of the orders
in which the tests can be made, just those give the same kinds for all texts that test for
keywords before they test for identifiers. -/
theorem kinds_agree_with_cuts :
    (∀ (lexer : Lexer) (index : Nat) (token : Token),
      answerAt Lexer.next lexer index = some (.ok token) → token.KindAgrees) ∧
    (∀ (lexer : Lexer) (tokens : List Token),
      lexer.tokenize = .ok tokens → ∀ token ∈ tokens, token.KindAgrees) ∧
    ((Keyword.all.map Keyword.spelling).Nodup ∧ Keyword.all.length = 21 ∧
      ∀ word : Keyword, word ∈ Keyword.all) ∧
    (∀ text : List Char,
      ¬(isIntegerText text = true ∧ isStringText text = true) ∧
      ¬(isIntegerText text = true ∧ isIdentifierText text = true) ∧
      ¬(isStringText text = true ∧ isIdentifierText text = true)) ∧
    (∀ word : Keyword, isIdentifierText word.spelling.toList = true) ∧
    (∀ order : List KindTest, order.Perm KindTest.all →
      ((∀ text, KindTest.kindIn order text = TokenKind.ofText text) ↔
        [KindTest.keyword, KindTest.identifier].Sublist order)) := by
  refine ⟨fun _ _ _ => Lexer.kindAgrees_of_answerAt, fun _ _ => Lexer.kindAgrees_of_tokenize,
    ⟨by decide +kernel, rfl, Keyword.mem_all⟩, ?_, Keyword.isIdentifierText_spelling,
    fun _ => KindTest.kindIn_eq_iff⟩
  intro text
  exact ⟨not_integer_and_string text, not_integer_and_identifier text,
    not_string_and_identifier text⟩

/-- A number with a letter in it stays one symbol, and the word behind the constant is a
keyword. -/
theorem kinds_agree_with_cuts_of_mixed_line :
    (Token.mk "2a" ⟨1, 1, 2⟩).KindAgrees ∧ (Token.mk "while" ⟨1, 10, 5⟩).KindAgrees ∧
      KindTest.kindIn [.string, .keyword, .identifier, .integer] "2a" = .symbol := by
  let lexer := Lexer.ofLines [⟨1, 0, "2a \"x\" é while".toList⟩]
  have hmixed : answerAt Lexer.next lexer 0 = some (.ok ⟨"2a", ⟨1, 1, 2⟩⟩) := by
    decide +kernel
  have htokens : lexer.tokenize = .ok [⟨"2a", ⟨1, 1, 2⟩⟩, ⟨"\"x\"", ⟨1, 4, 3⟩⟩,
      ⟨"é", ⟨1, 8, 1⟩⟩, ⟨"while", ⟨1, 10, 5⟩⟩] := by
    decide +kernel
  have horder : [KindTest.string, .keyword, .identifier, .integer].Perm KindTest.all := by
    decide
  refine ⟨kinds_agree_with_cuts.1 lexer 0 _ hmixed,
    kinds_agree_with_cuts.2.1 lexer _ htokens _ (by decide),
    (kinds_agree_with_cuts.2.2.2.2.2 _ horder).mpr (by decide) "2a"⟩

end JackTree
