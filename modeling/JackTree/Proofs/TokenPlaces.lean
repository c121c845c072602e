import JackTree.Proofs.CommentAgreement
import Mathlib.Data.List.Chain

/-!
# Places of tokens

Before the lexer sees a source text its comments are blanked, its lines are cut
and trimmed, and what is left is put into one row.  `tokens_stand_in_text` says
that the places of the tokens are places in the text as it was written: a token
is found there, and the tokens stand one behind the other.
-/

namespace JackTree

open Text

/-! ## Characters of the source text -/

/-- A character that is not blank stands in the source text where the lexer finds it. -/
theorem mem_locate_of_mem_lexerInput {text : List Char} {c : Located}
    (hc : c ∈ lexerInput text) (hblank : c.isBlank = false) : c ∈ locate 1 1 text := by
  have hstripped := (mem_lexerInput_iff hblank).mp hc
  rw [List.mem_iff_getElem?] at hstripped
  rcases hstripped with ⟨index, hstripped⟩
  have hkept := getElem?_of_located hstripped
  cases horiginal : text[index]? with
  | none =>
      rw [getElem?_stripComments_eq_none horiginal] at hkept
      contradiction
  | some d =>
      rcases exists_located horiginal with ⟨e, he, hchar⟩
      rcases exists_stripped_of_located he hkept with ⟨f, hf, _, hplace⟩
      have hsame : f = c := by
        rw [hstripped] at hf
        exact (Option.some.inj hf).symm
      cases hcomment : (modeAt .lineBound .code text index).isComment d
          (text.drop (index + 1)) with
      | true =>
          -- a comment leaves blanks only
          rw [getElem?_stripComments_of_isComment horiginal hcomment] at hkept
          have hnot : isBlank (if d = '\n' then d else ' ') = true := by
            split
            next hnewline =>
              rw [hnewline]
              decide
            next => exact isBlank_space
          rw [Option.some.inj hkept] at hnot
          rw [Located.isBlank, hnot] at hblank
          contradiction
      | false =>
          rw [getElem?_stripComments_of_not_isComment horiginal hcomment] at hkept
          have heq : e = c := by
            rw [hsame] at hplace
            simp only [Located.place, Prod.mk.injEq] at hplace
            have hchars : e.char = c.char := hchar.trans (Option.some.inj hkept)
            cases e
            cases c
            simp_all
          rw [← heq]
          exact List.mem_of_getElem? he

theorem exists_offset_of_mem_row {line column : Nat} {text : List Char} {c : Located}
    (hc : c ∈ row line column text) :
    ∃ offset, text[offset]? = some c.char ∧ c.line = line ∧ c.column = column + offset := by
  induction text generalizing column with
  | nil => contradiction
  | cons d rest ih =>
      cases hc with
      | head => exact ⟨0, rfl, rfl, rfl⟩
      | tail _ hrest =>
          rcases ih hrest with ⟨offset, hchar, hline, hcolumn⟩
          exact ⟨offset + 1, hchar, hline, by omega⟩

theorem exists_piece_of_mem_rows {index : Nat} {parts : List (List Char)} {c : Located}
    (hc : c ∈ rows index parts) :
    ∃ offset piece, parts[offset]? = some piece ∧ c ∈ row (index + offset + 1) 1 piece := by
  induction parts generalizing index with
  | nil => contradiction
  | cons first more ih =>
      rcases List.mem_append.mp hc with hfirst | hmore
      · exact ⟨0, first, rfl, hfirst⟩
      · rcases ih hmore with ⟨offset, piece, hpiece, hrow⟩
        refine ⟨offset + 1, piece, hpiece, ?_⟩
        rwa [Nat.add_right_comm index 1 offset] at hrow

/-- A character that is not blank is found in its line, at its column. -/
theorem exists_line_of_mem_locate {text : List Char} {c : Located} (hc : c ∈ locate 1 1 text)
    (hblank : c.isBlank = false) :
    1 ≤ c.line ∧ 1 ≤ c.column ∧
      ∃ content, (lines text)[c.line - 1]? = some content ∧
        content[c.column - 1]? = some c.char := by
  rw [locate_eq_rows_pieces] at hc
  rcases exists_piece_of_mem_rows hc with ⟨index, piece, hpiece, hrow⟩
  rcases exists_offset_of_mem_row hrow with ⟨offset, hchar, hline, hcolumn⟩
  rcases exists_withoutLineEnd piece with ⟨ending, hending, hwhole⟩
  have hindex : c.line - 1 = index := by omega
  have hoffset : c.column - 1 = offset := by omega
  refine ⟨by omega, by omega, withoutLineEnd piece, ?_, ?_⟩
  · rw [hindex, lines, List.getElem?_map, hpiece]
    rfl
  · rw [hwhole] at hchar
    rw [hoffset]
    -- the end of a line is blank
    by_cases hinside : offset < (withoutLineEnd piece).length
    · rwa [List.getElem?_append_left hinside] at hchar
    · rw [List.getElem?_append_right (Nat.le_of_not_lt hinside)] at hchar
      rw [Located.isBlank, hending _ (List.mem_of_getElem? hchar)] at hblank
      contradiction

/-! ## Neighbours -/

/-- Whether a character stands right behind another one in the same line. -/
def Located.Adjacent (a b : Located) : Prop :=
  b.line = a.line ∧ b.column = a.column + 1

theorem isChain_row (line column : Nat) (text : List Char) :
    (row line column text).IsChain Located.Adjacent := by
  induction text generalizing column with
  | nil => exact .nil
  | cons c rest ih =>
      cases rest with
      | nil => exact .singleton _
      | cons d rest => exact .cons_cons ⟨rfl, rfl⟩ (ih (column + 1))

/-- Where two characters of the lexer input are no neighbours, the first one is blank. -/
theorem isChain_lexerInput (text : List Char) :
    (lexerInput text).IsChain fun a b => a.isBlank = true ∨ a.Adjacent b := by
  unfold lexerInput
  induction cleanSource text with
  | nil => exact .nil
  | cons line more ih =>
      rw [List.flatMap_cons, List.isChain_append]
      refine ⟨?_, ih, ?_⟩
      · rw [SourceLine.located_eq_row]
        exact (isChain_row _ _ _).imp fun _ _ => Or.inr
      · intro last hlast _ _
        rw [SourceLine.located_eq_row, row_append] at hlast
        have hspace : last.char = ' ' := by
          simp only [row, List.getLast?_append, List.getLast?_singleton, Option.some_or,
            Option.mem_def, Option.some.injEq] at hlast
          rw [← hlast]
        rw [Located.isBlank, hspace]
        exact Or.inl isBlank_space

theorem place_of_isChain {first : Located} {body : List Located}
    (hchain : (first :: body).IsChain Located.Adjacent) {offset : Nat} {c : Located}
    (hc : (first :: body)[offset]? = some c) :
    c.line = first.line ∧ c.column = first.column + offset := by
  induction body generalizing first offset with
  | nil =>
      cases offset with
      | zero =>
          rw [← Option.some.inj hc]
          exact ⟨rfl, rfl⟩
      | succ offset => simp at hc
  | cons d body ih =>
      rcases List.isChain_cons_cons.mp hchain with ⟨⟨hline, hcolumn⟩, hrest⟩
      cases offset with
      | zero =>
          rw [← Option.some.inj hc]
          exact ⟨rfl, rfl⟩
      | succ offset =>
          have hplace := ih hrest hc
          omega

/-! ## Cuts in their input -/

theorem Lexes.exists_fits {input left : List Located} {cuts : List Cut}
    (hlexes : Lexes input cuts left) {cut : Cut} (hcut : cut ∈ cuts) :
    ∃ rest, cut.Fits rest ∧ cut.characters <:+: input := by
  induction hlexes with
  | blank => contradiction
  | unclosed => contradiction
  | @cut gap rest left first cuts _ hfits _ ih =>
      cases hcut with
      | head => exact ⟨rest, hfits, gap, rest, by simp⟩
      | tail _ hmore =>
          rcases ih hmore with ⟨behind, hbehind, hwithin⟩
          have hsuffix : rest <:+: gap ++ (first.characters ++ rest) :=
            ⟨gap ++ first.characters, [], by simp⟩
          exact ⟨behind, hbehind, hwithin.trans hsuffix⟩

theorem Keyword.head?_spelling_ne_quoteMark (keyword : Keyword) :
    keyword.spelling.toList.head? ≠ some quoteMark := by
  cases keyword <;> decide

/-- What stands between two quotation marks is a string constant. -/
theorem TokenKind.ofText_of_quoted {inner : List Char} (hinner : quoteMark ∉ inner) :
    TokenKind.ofText (String.ofList (quoteMark :: (inner ++ [quoteMark]))) = .stringConstant := by
  have hword : Keyword.ofSpelling? (String.ofList (quoteMark :: (inner ++ [quoteMark]))) =
      none := by
    cases hfound : Keyword.ofSpelling? (String.ofList (quoteMark :: (inner ++ [quoteMark]))) with
    | none => rfl
    | some keyword =>
        have hhead := keyword.head?_spelling_ne_quoteMark
        rw [Keyword.spelling_of_ofSpelling? hfound, String.toList_ofList] at hhead
        exact absurd rfl hhead
  have hdigit : quoteMark.isDigit = false := by decide
  have hinteger : isIntegerText (quoteMark :: (inner ++ [quoteMark])) = false := by
    simp [isIntegerText, hdigit]
  have hstring : isStringText (quoteMark :: (inner ++ [quoteMark])) = true := by
    simp [isStringText, hinner]
  rw [TokenKind.ofText, hword]
  simp only [String.toList_ofList, hinteger, hstring, Bool.false_eq_true, if_false, if_true]

/-- Only string constants have blanks in them. -/
theorem Cut.Fits.isBlank_eq_false {cut : Cut} {rest : List Located} (hfits : cut.Fits rest)
    (hkind : cut.token.kind ≠ .stringConstant) {c : Located} (hc : c ∈ cut.characters) :
    c.isBlank = false := by
  cases hfits with
  | @constant first last inner _ hfirst hinner hlast =>
      have hnone : quoteMark ∉ inner.map Located.char := by
        rw [List.mem_map]
        rintro ⟨d, hd, hquote⟩
        have hnot := hinner d hd
        rw [Located.isQuote, hquote] at hnot
        contradiction
      have htext := TokenKind.ofText_of_quoted hnone
      have hopening : first.char = quoteMark := beq_iff_eq.mp hfirst
      have hclosing : last.char = quoteMark := beq_iff_eq.mp hlast
      apply absurd _ hkind
      simpa [Token.kind, Cut.token, Located.token, hopening, hclosing] using htext
  | word hfirst hbody _ =>
      cases hc with
      | head => exact Located.isBlank_eq_false_of_isWordChar hfirst
      | tail _ hc => exact Located.isBlank_eq_false_of_isWordChar (hbody c hc)
  | symbol hblank _ _ =>
      rw [List.mem_singleton.mp hc]
      exact hblank

/-! ## Tokens in the text -/

/-- Whether a token is found in a text in the place that it remembers.  Lines and
columns are counted from one. -/
structure Token.StandsIn (token : Token) (text : List Char) : Prop where
  line_pos : 1 ≤ token.span.line
  line_le : token.span.line ≤ (lines text).length
  column_pos : 1 ≤ token.span.column
  length_eq : token.span.length = token.lexeme.length
  reads : ∃ content, (lines text)[token.span.line - 1]? = some content ∧
    (∃ first, token.lexeme.toList.head? = some first ∧
      content[token.span.column - 1]? = some first) ∧
    (token.kind ≠ .stringConstant →
      (content.drop (token.span.column - 1)).take token.span.length = token.lexeme.toList)

/-- Whether a span ends before another one starts. -/
def Span.Precedes (a b : Span) : Prop :=
  (a.line < b.line ∨ (a.line = b.line ∧ a.column < b.column)) ∧
    (a.line = b.line → a.column + a.length ≤ b.column)

theorem Cut.length_token (cut : Cut) :
    cut.token.span.length = cut.token.lexeme.length := by
  simp [Cut.token, Located.token, Located.spanOver, String.length_ofList, Nat.add_comm]

theorem standsIn_of_lexes {text : List Char} {cuts : List Cut} {left : List Located}
    (hlexes : Lexes (lexerInput text) cuts left) {cut : Cut} (hcut : cut ∈ cuts) :
    cut.token.StandsIn text := by
  rcases hlexes.exists_fits hcut with ⟨rest, hfits, hwithin⟩
  have hplaced : ∀ c ∈ cut.characters, c.isBlank = false → 1 ≤ c.line ∧ 1 ≤ c.column ∧
      ∃ content, (lines text)[c.line - 1]? = some content ∧
        content[c.column - 1]? = some c.char := by
    intro c hc hblank
    have hmem := mem_locate_of_mem_lexerInput (hwithin.subset hc) hblank
    exact exists_line_of_mem_locate hmem hblank
  rcases hplaced cut.first List.mem_cons_self hfits.isBlank_first with
    ⟨hline, hcolumn, content, hfound, hfirst⟩
  have hbound := (List.getElem?_eq_some_iff.mp hfound).1
  have hlexeme : cut.token.lexeme.toList = cut.characters.map Located.char :=
    String.toList_ofList
  refine ⟨hline, ?_, hcolumn, cut.length_token, content, hfound, ⟨cut.first.char, ?_, hfirst⟩, ?_⟩
  · change cut.first.line ≤ _
    omega
  · rw [hlexeme]
    rfl
  · intro hkind
    have hplain : ∀ c ∈ cut.characters, c.isBlank = false := fun c hc =>
      hfits.isBlank_eq_false hkind hc
    have hchain : cut.characters.IsChain Located.Adjacent := by
      have hall := List.IsChain.infix (isChain_lexerInput text) hwithin
      rw [List.isChain_iff_getElem] at hall ⊢
      intro index hindex
      rcases hall index hindex with hblank | hnext
      · rw [hplain _ (List.getElem_mem _)] at hblank
        contradiction
      · exact hnext
    rw [hlexeme]
    apply List.ext_getElem?
    intro offset
    by_cases hinside : offset < cut.characters.length
    · have hget : cut.characters[offset]? = some cut.characters[offset] :=
        List.getElem?_eq_getElem hinside
      have hmem := List.mem_of_getElem? hget
      have hplace := place_of_isChain hchain hget
      rcases hplaced _ hmem (hplain _ hmem) with ⟨_, _, other, hother, hchar⟩
      rw [hplace.1, hfound] at hother
      change ((content.drop (cut.first.column - 1)).take cut.characters.length)[offset]? = _
      rw [List.getElem?_take_of_lt hinside, List.getElem?_drop, List.getElem?_map, hget,
        Option.map_some, ← hchar, ← Option.some.inj hother, hplace.2]
      congr 1
      omega
    · rw [List.getElem?_eq_none_iff.mpr, List.getElem?_eq_none_iff.mpr]
      · rw [List.length_map]
        exact Nat.le_of_not_lt hinside
      · rw [List.length_take]
        exact Nat.le_trans (Nat.min_le_left _ _) (Nat.le_of_not_lt hinside)

theorem column_add_length_le {first last : Located} {body : List Located}
    (hordered : (first :: body).Pairwise fun a b => a.isBefore b = true)
    (hlast : ∀ c ∈ first :: body, c.isBefore last = true) (hline : first.line = last.line) :
    first.column + (first :: body).length ≤ last.column := by
  induction body generalizing first with
  | nil =>
      have hbefore := Located.isBefore_iff.mp (hlast first List.mem_cons_self)
      simp only [List.length_singleton]
      omega
  | cons d body ih =>
      rcases List.pairwise_cons.mp hordered with ⟨hfirst, hrest⟩
      have hnext := Located.isBefore_iff.mp (hfirst d List.mem_cons_self)
      have hbefore := Located.isBefore_iff.mp (hlast d (by simp))
      have hbehind := ih hrest (fun c hc => hlast c (List.mem_cons_of_mem _ hc)) (by omega)
      simp only [List.length_cons] at hbehind ⊢
      omega

theorem Lexes.pairwise_precedes {input left : List Located} {cuts : List Cut}
    (hlexes : Lexes input cuts left)
    (hordered : input.Pairwise fun a b => a.isBefore b = true) :
    (cuts.map Cut.token).Pairwise fun a b => a.span.Precedes b.span := by
  induction hlexes with
  | blank => exact .nil
  | unclosed => exact .nil
  | @cut gap rest left cut cuts _ _ hrest ih =>
      have hbehind := (List.pairwise_append.mp hordered).2.1
      rcases List.pairwise_append.mp hbehind with ⟨hinner, hlater, hbetween⟩
      rw [List.map_cons, List.pairwise_cons]
      refine ⟨?_, ih hlater⟩
      intro token htoken
      rcases List.mem_map.mp htoken with ⟨other, hother, rfl⟩
      have hfirst : other.first ∈ rest :=
        hrest.mem_input (List.mem_flatMap.mpr ⟨other, hother, List.mem_cons_self⟩)
      have hbefore : ∀ c ∈ cut.characters, c.isBefore other.first = true := fun c hc =>
        hbetween c hc _ hfirst
      exact ⟨Located.isBefore_iff.mp (hbefore _ List.mem_cons_self),
        column_add_length_le hinner hbefore⟩

/-- Every token of a source text is found in the text in its place, and every
token ends before the next one starts. -/
theorem tokens_stand_in_text {text : String} {options : LexerOptions} {stream : TokenStream}
    (hlex : lexSource text options = .ok stream) :
    (∀ token ∈ stream.tokens, token.StandsIn text.toList) ∧
      stream.tokens.Pairwise fun a b => a.span.Precedes b.span := by
  rcases exists_lexes (lexerInput text.toList) with ⟨cuts, left, hlexes⟩
  have hstream : stream = .ofTokens (cuts.map Cut.token) := by
    have hdefault := lexSource_default hlex
    rw [lexSource_of_lexes hlexes] at hdefault
    exact (Except.ok.inj hdefault).symm
  subst hstream
  constructor
  · intro token htoken
    rcases List.mem_map.mp htoken with ⟨cut, hcut, rfl⟩
    exact standsIn_of_lexes hlexes hcut
  · exact hlexes.pairwise_precedes (ordered_lexerInput text.toList)

/-- Comments, indentation and a constant that crosses a line end. -/
theorem tokens_stand_in_commented_text :
    ∃ stream, lexSource "a /* é\r\n // */ b\n\n\t\"c\n  d\";" = .ok stream ∧
      stream.tokens.map Token.span = [⟨1, 1, 1⟩, ⟨2, 8, 1⟩, ⟨4, 2, 5⟩, ⟨5, 5, 1⟩] ∧
      (∀ token ∈ stream.tokens, token.StandsIn "a /* é\r\n // */ b\n\n\t\"c\n  d\";".toList) ∧
      stream.tokens.Pairwise fun a b => a.span.Precedes b.span := by
  have hspans : (lexSource "a /* é\r\n // */ b\n\n\t\"c\n  d\";").toOption.map
        (fun stream => stream.tokens.map Token.span) =
      some [⟨1, 1, 1⟩, ⟨2, 8, 1⟩, ⟨4, 2, 5⟩, ⟨5, 5, 1⟩] := by
    decide +kernel
  cases hlex : lexSource "a /* é\r\n // */ b\n\n\t\"c\n  d\";" with
  | error error =>
      rw [hlex] at hspans
      exact absurd hspans.symm (Option.some_ne_none _)
  | ok stream =>
      rw [hlex] at hspans
      exact ⟨stream, rfl, Option.some.inj hspans, tokens_stand_in_text hlex⟩

end JackTree
