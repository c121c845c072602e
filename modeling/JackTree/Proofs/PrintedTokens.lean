import JackTree.Proofs.Lookahead
import JackTree.Proofs.TokenPlaces

/-!
# Printed tokens

The texts of tokens, with a space between each two, are source text again.
`reprinted_tokens` says that it is cut into the same texts as before, and that
the parser makes the same of it.  No comment can open in a printed text: of its
words no character and of its other texts at most one is a slash, and a quoted
slash stands between two quotation marks on the one line that there is.
-/

namespace JackTree

open Text

/-! ## Texts of tokens -/

/-- The texts that the lexer cuts off. -/
inductive IsLexeme : List Char → Prop
  | constant {inner : List Char} (hquote : quoteMark ∉ inner) (hnewline : '\n' ∉ inner) :
      IsLexeme (quoteMark :: (inner ++ [quoteMark]))
  | word {first : Char} {rest : List Char} (hword : ∀ c ∈ first :: rest, isWordChar c = true) :
      IsLexeme (first :: rest)
  | symbol {c : Char} (hblank : isBlank c = false) (hquote : c ≠ quoteMark)
      (hword : isWordChar c = false) : IsLexeme [c]

theorem Cut.Fits.isLexeme {cut : Cut} {rest : List Located} (hfits : cut.Fits rest)
    (hnewline : ∀ c ∈ cut.characters, c.char ≠ '\n') : IsLexeme cut.token.lexeme.toList := by
  change IsLexeme (String.ofList (cut.characters.map Located.char)).toList
  rw [String.toList_ofList]
  cases hfits with
  | @constant first last inner _ hfirst hinner hlast =>
      have hopening : first.char = quoteMark := beq_iff_eq.mp hfirst
      have hclosing : last.char = quoteMark := beq_iff_eq.mp hlast
      have hquote : quoteMark ∉ inner.map Located.char := by
        intro hmem
        rcases List.mem_map.mp hmem with ⟨c, hc, hchar⟩
        exact absurd (beq_iff_eq.mpr hchar) (Bool.eq_false_iff.mp (hinner c hc))
      have hline : '\n' ∉ inner.map Located.char := by
        intro hmem
        rcases List.mem_map.mp hmem with ⟨c, hc, hchar⟩
        exact hnewline c (by simp [Cut.characters, hc]) hchar
      simpa [Cut.characters, hopening, hclosing] using IsLexeme.constant hquote hline
  | @word first body _ hfirst hbody _ =>
      have hword : ∀ c ∈ (first :: body).map Located.char, isWordChar c = true := by
        intro c hc
        rcases List.mem_map.mp hc with ⟨d, hd, rfl⟩
        cases hd with
        | head => exact hfirst
        | tail _ hd => exact hbody d hd
      exact .word hword
  | symbol hblank hquote hword =>
      exact .symbol hblank (fun hchar => Bool.eq_false_iff.mp hquote (beq_iff_eq.mpr hchar)) hword

/-- Whatever the lexer answers with was cut off its input. -/
theorem isLexeme_of_lexSource {text : String} {options : LexerOptions} {stream : TokenStream}
    (hlex : lexSource text options = .ok stream) :
    ∀ token ∈ stream.tokens, IsLexeme token.lexeme.toList := by
  rcases exists_lexes (lexerInput text.toList) with ⟨cuts, left, hlexes⟩
  have hdefault := lexSource_default hlex
  rw [lexSource_of_lexes hlexes] at hdefault
  rw [← Except.ok.inj hdefault]
  intro token htoken
  rcases List.mem_map.mp htoken with ⟨cut, hcut, rfl⟩
  rcases hlexes.exists_fits hcut with ⟨rest, hfits, hwithin⟩
  exact hfits.isLexeme fun c hc => newline_notMem_lexerInput (hwithin.subset hc)

theorem ne_of_isWordChar {c d : Char} (hword : isWordChar c = true)
    (hother : isWordChar d = false) : c ≠ d := by
  intro heq
  rw [heq, hother] at hword
  contradiction

namespace IsLexeme

variable {text : List Char}

theorem newline_notMem (hlexeme : IsLexeme text) : '\n' ∉ text := by
  cases hlexeme with
  | constant _ hnewline => simp [hnewline, quoteMark]
  | word hword => exact fun hmem => ne_of_isWordChar (hword _ hmem) (by decide) rfl
  | symbol hblank _ _ =>
      intro hmem
      rw [← List.mem_singleton.mp hmem] at hblank
      revert hblank
      decide

theorem exists_first (hlexeme : IsLexeme text) :
    ∃ first rest, text = first :: rest ∧ isBlank first = false := by
  cases hlexeme with
  | constant => exact ⟨_, _, rfl, isBlank_quoteMark⟩
  | @word first rest hword =>
      refine ⟨first, rest, rfl, ?_⟩
      rw [Bool.eq_false_iff]
      intro hblank
      have hnot := isWordChar_eq_false_of_isBlank hblank
      rw [hword first List.mem_cons_self] at hnot
      contradiction
  | symbol hblank _ _ => exact ⟨_, [], rfl, hblank⟩

theorem exists_last (hlexeme : IsLexeme text) :
    ∃ last, text.getLast? = some last ∧ isBlank last = false := by
  cases hlexeme with
  | @constant inner _ _ =>
      refine ⟨quoteMark, ?_, isBlank_quoteMark⟩
      rw [← List.cons_append, List.getLast?_concat]
  | @word first rest hword =>
      have hsome : (first :: rest).getLast? = some ((first :: rest).getLast (by simp)) :=
        List.getLast?_eq_some_getLast _
      refine ⟨_, hsome, ?_⟩
      rw [Bool.eq_false_iff]
      intro hblank
      have hnot := isWordChar_eq_false_of_isBlank hblank
      rw [hword _ (List.mem_of_getLast? hsome)] at hnot
      contradiction
  | symbol hblank _ _ => exact ⟨_, rfl, hblank⟩

end IsLexeme

/-! ## Printing -/

/-- Texts with a space before each of them. -/
def spaced (texts : List (List Char)) : List Char :=
  texts.flatMap fun text => ' ' :: text

def TokenStream.printed (stream : TokenStream) : String :=
  " ".intercalate (stream.tokens.map Token.lexeme)

theorem spaced_cons (text : List Char) (texts : List (List Char)) :
    spaced (text :: texts) = ' ' :: (text ++ spaced texts) := rfl

theorem intercalate_space_cons (text : List Char) (texts : List (List Char)) :
    [' '].intercalate (text :: texts) = text ++ spaced texts := by
  induction texts generalizing text with
  | nil => simp [spaced]
  | cons next texts ih =>
      rw [List.intercalate_cons_of_ne_nil (by simp), ih]
      simp [spaced]

theorem head?_spaced {texts : List (List Char)} {c : Char} (hc : c ∈ (spaced texts).head?) :
    c = ' ' := by
  cases texts with
  | nil => contradiction
  | cons text texts => exact (Option.some.inj hc).symm

/-! ## No comment opens -/

theorem veiled_word {text : List Char} (hword : ∀ c ∈ text, isWordChar c = true)
    (rest : List Char) : veiled .code (text ++ rest) = text ++ veiled .code rest := by
  induction text with
  | nil => rfl
  | cons c text ih =>
      rcases List.forall_mem_cons.mp hword with ⟨hc, hmore⟩
      have hslash : c ≠ '/' := ne_of_isWordChar hc (by decide)
      have hcode : Mode.opensComment c (text ++ rest) = false := by
        simp [Mode.opensComment, hslash]
      rw [List.cons_append, veiled_code_cons (ne_of_isWordChar hc isWordChar_quoteMark) hcode,
        ih hmore]
      rfl

theorem veiled_lexeme {text rest : List Char} (hlexeme : IsLexeme text)
    (hrest : ∀ c ∈ rest.head?, c = ' ') :
    veiled .code (text ++ rest) = text ++ veiled .code rest := by
  cases hlexeme with
  | @constant inner hquote hnewline =>
      have hbody : Segment.literalBody (inner ++ quoteMark :: rest) =
          (inner ++ [quoteMark], rest) := by
        induction inner with
        | nil => simp [Segment.literalBody]
        | cons c inner ih =>
            simp only [List.mem_cons, not_or] at hquote hnewline
            rw [List.cons_append, Segment.literalBody, if_neg (Ne.symm hquote.1),
              if_neg (Ne.symm hnewline.1), ih hquote.2 hnewline.2]
            rfl
      have hcode : Mode.isComment .code quoteMark (inner ++ quoteMark :: rest) = false := rfl
      rw [List.cons_append, List.append_assoc, List.singleton_append,
        veiled_cons_of_not_isComment hcode, Mode.step, if_pos rfl, veiled_literal, hbody]
      simp
  | word hword => exact veiled_word hword rest
  | @symbol c _ hquote _ =>
      have hcode : Mode.opensComment c rest = false := by
        cases rest with
        | nil => simp [Mode.opensComment]
        | cons d rest => simp [Mode.opensComment, hrest d rfl]
      exact veiled_code_cons hquote hcode

theorem veiled_spaced {texts : List (List Char)} (htexts : ∀ text ∈ texts, IsLexeme text) :
    veiled .code (spaced texts) = spaced texts := by
  induction texts with
  | nil => rfl
  | cons text texts ih =>
      rcases List.forall_mem_cons.mp htexts with ⟨htext, hmore⟩
      have hspace : Mode.opensComment ' ' (text ++ spaced texts) = false := rfl
      rw [spaced_cons, veiled_code_cons (by decide) hspace,
        veiled_lexeme htext fun _ => head?_spaced, ih hmore]

/-! ## One line -/

theorem trim_eq_self {line : List Char} {first last : Char} (hfirst : line.head? = some first)
    (hlast : line.getLast? = some last) (hblankFirst : isBlank first = false)
    (hblankLast : isBlank last = false) : trim line = line := by
  have hdrop : ∀ {text : List Char} {c : Char}, text.head? = some c → isBlank c = false →
      text.dropWhile isBlank = text := by
    intro text c hc hblank
    cases text with
    | nil => contradiction
    | cons d text =>
        rw [List.head?_cons, Option.some.injEq] at hc
        rw [List.dropWhile_cons_of_neg (by rw [hc, hblank]; exact Bool.false_ne_true)]
  rw [trim, hdrop hfirst hblankFirst, hdrop (c := last) ?_ hblankLast, List.reverse_reverse]
  rw [List.head?_reverse, hlast]

theorem pieces_of_newline_notMem {text : List Char} (hnewline : '\n' ∉ text)
    (hnonempty : text ≠ []) : pieces text = [text] := by
  induction text with
  | nil => contradiction
  | cons c text ih =>
      simp only [List.mem_cons, not_or] at hnewline
      rw [pieces, if_neg (Ne.symm hnewline.1)]
      cases text with
      | nil => rfl
      | cons d text => rw [ih hnewline.2 (by simp)]

theorem exists_last_spaced {text : List Char} {texts : List (List Char)}
    (hlexeme : IsLexeme text) (htexts : ∀ text ∈ texts, IsLexeme text) :
    ∃ last, (text ++ spaced texts).getLast? = some last ∧ isBlank last = false := by
  induction texts generalizing text with
  | nil =>
      rw [spaced, List.flatMap_nil, List.append_nil]
      exact hlexeme.exists_last
  | cons next texts ih =>
      rcases List.forall_mem_cons.mp htexts with ⟨hnext, hmore⟩
      rcases ih hnext hmore with ⟨last, hlast, hblank⟩
      refine ⟨last, ?_, hblank⟩
      rw [spaced_cons, List.getLast?_append, List.getLast?_cons, hlast]
      rfl

theorem newline_notMem_spaced {texts : List (List Char)} (htexts : ∀ text ∈ texts, IsLexeme text) :
    '\n' ∉ spaced texts := by
  intro hmem
  rcases List.mem_flatMap.mp hmem with ⟨text, htext, hnewline⟩
  rcases List.mem_cons.mp hnewline with hspace | hnewline
  · contradiction
  · exact (htexts text htext).newline_notMem hnewline

/-- A printed text is one source line, with no comment in it and no indentation. -/
theorem cleanSource_spaced {text : List Char} {texts : List (List Char)}
    (hlexeme : IsLexeme text) (htexts : ∀ text ∈ texts, IsLexeme text) :
    cleanSource (text ++ spaced texts) = [⟨1, 0, text ++ spaced texts⟩] := by
  have hstrip : stripComments (text ++ spaced texts) = text ++ spaced texts := by
    rw [stripComments_eq_veiled, veiled_lexeme hlexeme fun _ => head?_spaced,
      veiled_spaced htexts]
  rcases hlexeme.exists_first with ⟨first, rest, htext, hblankFirst⟩
  rcases exists_last_spaced hlexeme htexts with ⟨last, hlast, hblankLast⟩
  have hfirst : (text ++ spaced texts).head? = some first := by rw [htext]; rfl
  have hnewline : '\n' ∉ text ++ spaced texts := by
    rw [List.mem_append, not_or]
    exact ⟨hlexeme.newline_notMem, newline_notMem_spaced htexts⟩
  have hnonempty : text ++ spaced texts ≠ [] := by simp [htext]
  have hline : withoutLineEnd (text ++ spaced texts) = text ++ spaced texts := by
    apply if_neg
    intro hend
    exact hnewline (List.mem_of_getLast? hend)
  have hindent : indentation (text ++ spaced texts) = 0 := by
    rw [htext, indentation, List.cons_append, List.takeWhile_cons_of_neg (by simp [hblankFirst])]
    rfl
  have htrim := trim_eq_self hfirst hlast hblankFirst hblankLast
  have htrimmed : SourceLine.trimmed 1 (withoutLineEnd (text ++ spaced texts)) =
      ⟨1, 0, text ++ spaced texts⟩ := by
    rw [SourceLine.trimmed, hline, hindent, htrim]
  rw [cleanSource, hstrip, lines, pieces_of_newline_notMem hnewline hnonempty,
    List.map_singleton, List.zipIdx_singleton, List.map_singleton]
  change List.filter _ [SourceLine.trimmed 1 (withoutLineEnd (text ++ spaced texts))] = _
  rw [htrimmed]
  simp [htext]

/-! ## Cutting a printed text -/

theorem char_mem_of_mem_row {line column : Nat} {text : List Char} {c : Located}
    (hc : c ∈ row line column text) : c.char ∈ text := by
  have hmem := List.mem_map_of_mem (f := Located.char) hc
  rwa [map_char_row] at hmem

theorem exists_cut {text : List Char} (hlexeme : IsLexeme text) (line column : Nat) :
    ∃ cut : Cut, cut.characters = row line column text ∧
      ∀ rest : List Located, (∀ c ∈ rest.head?, c.isWordChar = false) → cut.Fits rest := by
  cases hlexeme with
  | @constant inner hquote _ =>
      refine ⟨⟨⟨quoteMark, line, column⟩, row line (column + 1) inner ++
        [⟨quoteMark, line, column + 1 + inner.length⟩]⟩, ?_, ?_⟩
      · rw [row, row_append]
        rfl
      · intro rest _
        apply Cut.Fits.constant
        · rfl
        · intro c hc
          have hchar := char_mem_of_mem_row hc
          rw [Bool.eq_false_iff]
          intro hmark
          rw [beq_iff_eq.mp hmark] at hchar
          exact hquote hchar
        · rfl
  | @word first body hword =>
      rcases List.forall_mem_cons.mp hword with ⟨hfirst, hbody⟩
      refine ⟨⟨⟨first, line, column⟩, row line (column + 1) body⟩, rfl, ?_⟩
      intro rest hrest
      exact .word hfirst (fun c hc => hbody _ (char_mem_of_mem_row hc)) hrest
  | @symbol c hblank hquote hword =>
      refine ⟨⟨⟨c, line, column⟩, []⟩, rfl, ?_⟩
      intro rest _
      exact .symbol hblank (beq_eq_false_iff_ne.mpr hquote) hword

/-- A text in front of a space is cut off as it stands. -/
theorem lexes_cons {text rest : List Char} {line column : Nat} {gap : List Located}
    {cuts : List Cut} (hgap : ∀ c ∈ gap, c.isBlank = true) (hlexeme : IsLexeme text)
    (hrest : ∀ c ∈ rest.head?, c = ' ')
    (hlexes : Lexes (row line (column + text.length) rest) cuts []) :
    ∃ cut, Lexes (gap ++ row line column (text ++ rest)) (cut :: cuts) [] ∧
      cut.token.lexeme.toList = text := by
  rcases exists_cut hlexeme line column with ⟨cut, hcut, hfits⟩
  refine ⟨cut, ?_, ?_⟩
  · rw [row_append, ← hcut]
    apply Lexes.cut hgap (hfits _ _) hlexes
    intro c hc
    cases rest with
    | nil => simp [row] at hc
    | cons d rest =>
        rw [← Option.some.inj hc, hrest d rfl]
        exact isWordChar_eq_false_of_isBlank isBlank_space
  · change (String.ofList (cut.characters.map Located.char)).toList = text
    rw [String.toList_ofList, hcut, map_char_row]

theorem head?_spaced_append {texts : List (List Char)} {c : Char}
    (hc : c ∈ (spaced texts ++ [' ']).head?) : c = ' ' := by
  cases texts with
  | nil => exact (Option.some.inj hc).symm
  | cons text texts => exact (Option.some.inj hc).symm

theorem lexes_spaced {texts : List (List Char)} (htexts : ∀ text ∈ texts, IsLexeme text)
    (line column : Nat) :
    ∃ cuts, Lexes (row line column (spaced texts ++ [' '])) cuts [] ∧
      cuts.map (fun cut => cut.token.lexeme.toList) = texts := by
  induction texts generalizing column with
  | nil =>
      refine ⟨[], .blank ?_, rfl⟩
      intro c hc
      rw [List.mem_singleton.mp hc]
      exact isBlank_space
  | cons text texts ih =>
      rcases List.forall_mem_cons.mp htexts with ⟨htext, hmore⟩
      rcases ih hmore (column + 1 + text.length) with ⟨cuts, hlexes, hcuts⟩
      have hgap : ∀ c ∈ [Located.mk ' ' line column], c.isBlank = true := by
        intro c hc
        rw [List.mem_singleton.mp hc]
        exact isBlank_space
      rcases lexes_cons hgap htext (fun _ => head?_spaced_append) hlexes with
        ⟨cut, hcut, hlexeme⟩
      refine ⟨cut :: cuts, ?_, by rw [List.map_cons, hlexeme, hcuts]⟩
      rw [spaced_cons, List.cons_append, List.append_assoc]
      exact hcut

theorem lexes_printed {texts : List (List Char)} (htexts : ∀ text ∈ texts, IsLexeme text) :
    ∃ cuts, Lexes (lexerInput ([' '].intercalate texts)) cuts [] ∧
      cuts.map (fun cut => cut.token.lexeme.toList) = texts := by
  cases texts with
  | nil =>
      have hempty : lexerInput [] = [] := by
        simp [lexerInput, cleanSource, stripComments, segments, lines, pieces]
      refine ⟨[], ?_, rfl⟩
      rw [List.intercalate_nil, hempty]
      exact .blank (by simp)
  | cons text texts =>
      rcases List.forall_mem_cons.mp htexts with ⟨htext, hmore⟩
      rcases lexes_spaced hmore 1 (1 + text.length) with ⟨cuts, hlexes, hcuts⟩
      have hgap : ∀ c ∈ ([] : List Located), c.isBlank = true := by simp
      rcases lexes_cons hgap htext (fun _ => head?_spaced_append) hlexes with
        ⟨cut, hcut, hlexeme⟩
      refine ⟨cut :: cuts, ?_, by rw [List.map_cons, hlexeme, hcuts]⟩
      rw [intercalate_space_cons, lexerInput, cleanSource_spaced htext hmore,
        List.flatMap_singleton, SourceLine.located_eq_row, List.append_assoc]
      exact hcut

theorem position_of_lexSource {text : String} {options : LexerOptions} {stream : TokenStream}
    (hlex : lexSource text options = .ok stream) : stream.position = 0 := by
  unfold lexSource at hlex
  split at hlex
  next =>
    rw [← Except.ok.inj hlex]
    rfl
  next => contradiction

/-- The printed tokens of a source text are read back as they were, whatever the
options are, and the parser makes the same tree of them or the same error. -/
theorem reprinted_tokens {text : String} {options : LexerOptions} {stream : TokenStream}
    (hlex : lexSource text options = .ok stream) (other : LexerOptions) :
    ∃ again, lexSource stream.printed other = .ok again ∧ stream.ReadsAs again ∧
      ParsedAlike (parseSource text options) (parseSource stream.printed other) := by
  have htexts : ∀ text ∈ stream.tokens.map (fun token => token.lexeme.toList), IsLexeme text := by
    intro text htext
    rcases List.mem_map.mp htext with ⟨token, htoken, rfl⟩
    exact isLexeme_of_lexSource hlex token htoken
  have hprinted : stream.printed.toList =
      [' '].intercalate (stream.tokens.map fun token => token.lexeme.toList) := by
    rw [TokenStream.printed, String.toList_intercalate, List.map_map]
    rfl
  rcases lexes_printed htexts with ⟨cuts, hlexes, hcuts⟩
  rw [← hprinted] at hlexes
  have hagain : lexSource stream.printed other = .ok (.ofTokens (cuts.map Cut.token)) := by
    have htokens : (Lexer.ofLines (cleanSource stream.printed.toList) other).tokenize =
        .ok (cuts.map Cut.token) := Lexer.tokenize_of_lexes hlexes other
    rw [lexSource, htokens]
  have hlexemes : stream.tokens.map Token.lexeme = (cuts.map Cut.token).map Token.lexeme := by
    have hinjective : Function.Injective String.toList := fun _ _ => String.toList_injective
    apply List.map_injective_iff.mpr hinjective
    rw [List.map_map, List.map_map, List.map_map]
    exact hcuts.symm
  refine ⟨_, hagain, ⟨hlexemes, position_of_lexSource hlex⟩, ?_⟩
  rw [parseSource, parseSource, hlex, hagain]
  apply TokenStream.parseClass_alike
  rw [remaining_of_lexSource hlex]
  exact hlexemes

/-- Slashes that a comment, a space or quotation marks keep apart. -/
theorem reprinted_tokens_of_slashes :
    ∃ stream, lexSource "class / /**/ / \"//\" /" ⟨true⟩ = .ok stream ∧
      stream.printed = "class / / \"//\" /" ∧
      ∃ again, lexSource stream.printed {} = .ok again ∧ stream.ReadsAs again ∧
        ParsedAlike (parseSource "class / /**/ / \"//\" /" ⟨true⟩)
          (parseSource stream.printed {}) := by
  have hprinted : (lexSource "class / /**/ / \"//\" /" ⟨true⟩).toOption.map
      TokenStream.printed = some "class / / \"//\" /" := by
    decide +kernel
  cases hlex : lexSource "class / /**/ / \"//\" /" ⟨true⟩ with
  | error error =>
      rw [hlex] at hprinted
      exact absurd hprinted.symm (Option.some_ne_none _)
  | ok stream =>
      rw [hlex] at hprinted
      exact ⟨stream, rfl, Option.some.inj hprinted, reprinted_tokens hlex {}⟩

end JackTree
