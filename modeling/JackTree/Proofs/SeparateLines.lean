import JackTree.Proofs.OpenConstants
import JackTree.Proofs.TokenPlaces

/-!
# Lines one after the other

A lexer takes the state of its scanner from one line into the next only inside a
constant.  `lines_are_lexed_one_by_one` says that behind lines with an even number
of quotation marks the scanner is as it was at first, so that the tokens of the
lines that follow are those that they have alone.  Whatever is no string constant
stands on one line.
-/

namespace JackTree

open Text

/-! ## Inputs put together -/

theorem Lexes.skip {gap input left : List Located} {cuts : List Cut}
    (hgap : ∀ c ∈ gap, c.isBlank = true) (hlexes : Lexes input cuts left) :
    Lexes (gap ++ input) cuts left := by
  cases hlexes with
  | blank hmore => exact .blank (List.forall_mem_append.mpr ⟨hgap, hmore⟩)
  | unclosed hmore hquote hbody =>
      rw [← List.append_assoc]
      exact .unclosed (List.forall_mem_append.mpr ⟨hgap, hmore⟩) hquote hbody
  | cut hmore hfits hrest =>
      rw [← List.append_assoc]
      exact .cut (List.forall_mem_append.mpr ⟨hgap, hmore⟩) hfits hrest

/-- A cut is not touched by what follows it, unless it is a word at the end. -/
theorem Cut.Fits.append {cut : Cut} {front : List Located} (hfits : cut.Fits front)
    (hend : ∀ c ∈ (cut.characters ++ front).getLast?, c.isWordChar = false)
    (back : List Located) : cut.Fits (front ++ back) := by
  cases hfits with
  | constant hfirst hinner hlast => exact .constant hfirst hinner hlast
  | @word first body _ hfirst hbody hrest =>
      refine .word hfirst hbody ?_
      intro c hc
      cases front with
      | cons d front => exact hrest c hc
      | nil =>
          have hword : ∀ c ∈ first :: body, c.isWordChar = true :=
            List.forall_mem_cons.mpr ⟨hfirst, hbody⟩
          have hends : (Cut.characters ⟨first, body⟩ ++ []).getLast? =
              some ((first :: body).getLast (List.cons_ne_nil first body)) := by
            rw [List.append_nil]
            exact List.getLast?_eq_some_getLast (List.cons_ne_nil first body)
          have hlast := hword _ (List.getLast_mem (List.cons_ne_nil first body))
          rw [hend _ hends] at hlast
          contradiction
  | symbol hblank hquote hword => exact .symbol hblank hquote hword

theorem Lexes.append {front back excess left : List Located} {cuts more : List Cut}
    (hfront : Lexes front cuts excess) (hexcess : excess = [])
    (hend : ∀ c ∈ front.getLast?, c.isWordChar = false) (hback : Lexes back more left) :
    Lexes (front ++ back) (cuts ++ more) left := by
  induction hfront with
  | blank hgap => exact hback.skip hgap
  | unclosed => contradiction
  | @cut gap rest excess cut cuts hgap hfits _ ih =>
      rw [List.getLast?_append] at hend
      have hcut : ∀ c ∈ (cut.characters ++ rest).getLast?, c.isWordChar = false := by
        intro c hc
        exact hend c (by rw [Option.mem_def.mp hc]; rfl)
      have hrest : ∀ c ∈ rest.getLast?, c.isWordChar = false := by
        intro c hc
        exact hcut c (by rw [List.getLast?_append, Option.mem_def.mp hc]; rfl)
      rw [List.append_assoc, List.append_assoc, List.cons_append]
      exact .cut hgap (hfits.append hcut back) (ih hexcess hrest)

/-! ## Ends of lines -/

theorem joined_append (front back : List SourceLine) :
    joined (front ++ back) = joined front ++ joined back :=
  List.flatMap_append

theorem joined_cases (lines : List SourceLine) :
    joined lines = [] ∨
      ∃ characters space, joined lines = characters ++ [space] ∧ space.isBlank = true := by
  rcases List.eq_nil_or_concat lines with rfl | ⟨earlier, last, rfl⟩
  · exact .inl rfl
  · refine .inr ⟨joined earlier ++ row last.number (last.indent + 1) last.text,
      ⟨' ', last.number, last.indent + 1 + last.text.length⟩, ?_, isBlank_space⟩
    rw [List.concat_eq_append, joined_append, joined, joined, List.flatMap_singleton, row_append,
      List.append_assoc]
    rfl

theorem isWordChar_getLast_joined (lines : List SourceLine) :
    ∀ c ∈ (joined lines).getLast?, c.isWordChar = false := by
  intro c hc
  rcases joined_cases lines with hnone | ⟨characters, space, hjoined, hspace⟩
  · rw [hnone] at hc
    contradiction
  · rw [hjoined, List.getLast?_concat] at hc
    rw [← Option.some.inj hc]
    exact Text.isWordChar_eq_false_of_isBlank hspace

/-- At the end of some lines a scanner that is in no constant holds nothing. -/
theorem Scanner.read_joined {lines : List SourceLine} {cuts : List Cut}
    (hlexes : Lexes (joined lines) cuts []) :
    ({} : Scanner).read (joined lines) = { pending := cuts.map Cut.token } := by
  have hfinish := hlexes.finish_read ⟨true⟩
  rcases joined_cases lines with hnone | ⟨characters, space, hjoined, hspace⟩
  · rw [hnone] at hfinish ⊢
    rw [← hfinish.2]
    rfl
  · have htake : ({} : Scanner).read (joined lines) =
        (({} : Scanner).read characters).take space := by
      rw [hjoined, read_append]
      rfl
    rw [htake] at hfinish ⊢
    cases hinside : (({} : Scanner).read characters).insideConstant with
    | true =>
        have hquote := Located.isQuote_eq_false_of_isBlank hspace
        rw [take_inside hinside hquote] at hfinish
        simp [finish, hinside, report?] at hfinish
    | false =>
        rw [take_blank hinside hspace] at hfinish ⊢
        have hflushed := (insideConstant_flush _).trans hinside
        have hunfinished : (({} : Scanner).read characters).flush.finished = false :=
          (finished_flush _).trans (finished_read _ _)
        rcases exists_holds characters with ⟨held, _, hholds⟩
        have hnothing := hholds.flush hinside
        have hpending := hfinish.2
        simp only [finish, hflushed, flush_flush, Bool.false_eq_true, if_false] at hpending
        rw [← hpending]
        have hbuffer := hnothing.buffer_eq
        have hstart := hnothing.start_eq
        rcases hscanner : (({} : Scanner).read characters).flush with
          ⟨buffer, start, inside, pending, finished⟩
        simp_all

/-! ## Tokens on one line -/

/-- Whether a line reads like a token in the place that the token remembers. -/
def SourceLine.Shows (line : SourceLine) (token : Token) : Prop :=
  ∃ before after, line.text = before ++ (token.lexeme.toList ++ after) ∧
    token.span = ⟨line.number, line.indent + 1 + before.length, token.lexeme.length⟩

theorem infix_of_separator {characters front back : List Located} {space : Located}
    (hwithin : characters <:+: front ++ space :: back) (hspace : space ∉ characters) :
    characters <:+: front ∨ characters <:+: back := by
  rcases List.infix_append_iff.mp hwithin with
    hfront | hback | ⟨suffix, start, rfl, hsuffix, hstart⟩
  · exact .inl hfront
  · rcases List.infix_cons_iff.mp hback with hprefix | hback
    · cases characters with
      | nil => exact .inr List.nil_infix
      | cons c characters =>
          rw [(List.cons_prefix_cons.mp hprefix).1] at hspace
          exact absurd List.mem_cons_self hspace
    · exact .inr hback
  · cases start with
    | nil =>
        rw [List.append_nil]
        exact .inl hsuffix.isInfix
    | cons c start =>
        rw [(List.cons_prefix_cons.mp hstart).1] at hspace
        exact absurd (List.mem_append_right _ List.mem_cons_self) hspace

/-- Characters that stand together without a blank stand on one line. -/
theorem exists_line_of_infix {lines : List SourceLine} {first : Located} {body : List Located}
    (hplain : ∀ c ∈ first :: body, c.isBlank = false)
    (hwithin : first :: body <:+: joined lines) :
    ∃ line ∈ lines, first :: body <:+: row line.number (line.indent + 1) line.text := by
  induction lines with
  | nil =>
      have hnone := List.infix_nil.mp hwithin
      contradiction
  | cons line lines ih =>
      have hjoined : joined (line :: lines) = row line.number (line.indent + 1) line.text ++
          ⟨' ', line.number, line.indent + 1 + line.text.length⟩ :: joined lines := by
        rw [joined, List.flatMap_cons, row_append, List.append_assoc]
        rfl
      rw [hjoined] at hwithin
      have hspace : ⟨' ', line.number, line.indent + 1 + line.text.length⟩ ∉ first :: body := by
        intro hmem
        have hblank := hplain _ hmem
        exact absurd isBlank_space (Bool.eq_false_iff.mp hblank)
      rcases infix_of_separator hwithin hspace with hline | hmore
      · exact ⟨line, List.mem_cons_self, hline⟩
      · rcases ih hmore with ⟨other, hother, hrow⟩
        exact ⟨other, List.mem_cons_of_mem line hother, hrow⟩

theorem shows_of_infix {line : SourceLine} {cut : Cut}
    (hwithin : cut.characters <:+: row line.number (line.indent + 1) line.text) :
    line.Shows cut.token := by
  rcases hwithin with ⟨before, after, hrow⟩
  have hlexeme : cut.token.lexeme.toList = cut.characters.map Located.char :=
    String.toList_ofList
  have htext : line.text = before.map Located.char ++
      (cut.token.lexeme.toList ++ after.map Located.char) := by
    rw [← map_char_row line.number (line.indent + 1) line.text, ← hrow, hlexeme]
    simp
  refine ⟨before.map Located.char, after.map Located.char, htext, ?_⟩
  -- the row is cut at the same place as the text
  have hcut : row line.number (line.indent + 1 + (before.map Located.char).length)
      (cut.token.lexeme.toList ++ after.map Located.char) = cut.characters ++ after := by
    have hsame := hrow.symm
    rw [htext, row_append, List.append_assoc] at hsame
    have hlength : (row line.number (line.indent + 1) (before.map Located.char)).length =
        before.length := by
      have hchars := congrArg List.length
        (map_char_row line.number (line.indent + 1) (before.map Located.char))
      simpa using hchars
    exact (List.append_inj hsame hlength).2
  rw [hlexeme] at hcut
  have hfirst := (List.cons.inj hcut).1
  change cut.first.spanOver cut.characters = _
  rw [← cut.length_token, ← hfirst]
  rfl

/-! ## Lines before lines -/

/-- Behind lines with an even number of quotation marks a lexer goes on as if it
started there: the tokens of these lines come first, and then what is made of the
other lines alone, an error included.  The scanner is left with the tokens and
nothing else, and what is no string constant stands on one line. -/
theorem lines_are_lexed_one_by_one {front : List SourceLine} (heven : quotesIn front % 2 = 0)
    (back : List SourceLine) (options : LexerOptions) :
    ∃ tokens, (Lexer.ofLines front options).tokenize = .ok tokens ∧
      (Lexer.ofLines (front ++ back) options).tokenize =
        (Lexer.ofLines back options).tokenize.map (tokens ++ ·) ∧
      ({} : Scanner).read (joined front) = { pending := tokens } ∧
      ∀ others, (Lexer.ofLines (front ++ back) options).tokenize = .ok others →
        ∀ token ∈ others, token.kind ≠ .stringConstant →
          ∃ line ∈ front ++ back, line.Shows token := by
  rcases exists_lexes (joined front) with ⟨cuts, excess, hfront⟩
  rcases exists_lexes (joined back) with ⟨more, left, hback⟩
  have hexcess : excess = [] := hfront.quotes_even_iff.mp (by rw [quotes_joined, heven])
  have hboth : Lexes (joined (front ++ back)) (cuts ++ more) left := by
    rw [joined_append]
    exact hfront.append hexcess (isWordChar_getLast_joined front) hback
  rw [hexcess] at hfront
  have htokenize : (Lexer.ofLines (front ++ back) options).tokenize =
      (Lexer.ofLines back options).tokenize.map (cuts.map Cut.token ++ ·) := by
    rw [Lexer.ofLines_eq, Lexer.ofLines_eq, Lexer.tokenize_of_lexes hboth,
      Lexer.tokenize_of_lexes hback, List.map_append]
    cases left with
    | nil => rfl
    | cons quote body =>
        dsimp only
        split <;> rfl
  refine ⟨cuts.map Cut.token, ?_, htokenize, Scanner.read_joined hfront, ?_⟩
  · rw [Lexer.ofLines_eq]
    exact Lexer.tokenize_of_lexes hfront options
  · intro others hothers token htoken hkind
    rw [Lexer.ofLines_eq] at hothers
    rcases Lexer.exists_lexes_of_tokenize hothers with ⟨pieces, behind, hlexes, rfl⟩
    rcases List.mem_map.mp htoken with ⟨cut, hcut, rfl⟩
    rcases hlexes.exists_fits hcut with ⟨rest, hfits, hwithin⟩
    have hplain : ∀ c ∈ cut.characters, c.isBlank = false := fun c hc =>
      hfits.isBlank_eq_false hkind hc
    rcases exists_line_of_infix hplain hwithin with ⟨line, hline, hrow⟩
    exact ⟨line, hline, shows_of_infix hrow⟩

/-- A constant that crosses a line end is closed before the other lines start, and
the constant that remains open is one of theirs. -/
theorem lines_are_lexed_after_crossing_constant :
    quotesIn [⟨1, 4, "let s = \"a".toList⟩, ⟨3, 0, "b\" end".toList⟩] % 2 = 0 ∧
      ∃ tokens, tokens.map Token.lexeme = ["let", "s", "=", "\"a b\"", "end"] ∧
        (Lexer.ofLines ([⟨1, 4, "let s = \"a".toList⟩, ⟨3, 0, "b\" end".toList⟩] ++
            [⟨4, 2, "of \"it".toList⟩])).tokenize =
          (Lexer.ofLines [⟨4, 2, "of \"it".toList⟩]).tokenize.map (tokens ++ ·) := by
  have heven : quotesIn [⟨1, 4, "let s = \"a".toList⟩, ⟨3, 0, "b\" end".toList⟩] % 2 = 0 := by
    decide
  have htexts : (Lexer.ofLines
      [⟨1, 4, "let s = \"a".toList⟩, ⟨3, 0, "b\" end".toList⟩]).tokenize.toOption.map
        (List.map Token.lexeme) = some ["let", "s", "=", "\"a b\"", "end"] := by
    decide +kernel
  rcases lines_are_lexed_one_by_one heven [⟨4, 2, "of \"it".toList⟩] {} with
    ⟨tokens, htokens, hboth, _⟩
  rw [htokens] at htexts
  exact ⟨heven, tokens, Option.some.inj htexts, hboth⟩

end JackTree
