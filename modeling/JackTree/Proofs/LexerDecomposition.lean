import JackTree.Lexer

/-!
# Decomposition of lexer input

The lexer takes its input apart into gaps of blanks and cuts, one cut a token.
`Lexes` says which decompositions there are, without any order of reading;
`exists_lexes` and `tokenize_of_lexes` say that the lexer finds one for every
input and answers with its cuts.
-/

namespace JackTree

/-! ## Cuts -/

structure Cut where
  first : Located
  body : List Located
  deriving DecidableEq, Repr

namespace Cut

def characters (cut : Cut) : List Located :=
  cut.first :: cut.body

def token (cut : Cut) : Token :=
  cut.first.token cut.body

/-- What may be cut off when `rest` is left: a string constant with its
quotation marks, a word that does not go on, or any other character. -/
inductive Fits : Cut → List Located → Prop where
  | constant {first last : Located} {inner rest : List Located} :
      first.isQuote = true → (∀ c ∈ inner, c.isQuote = false) → last.isQuote = true →
        Fits ⟨first, inner ++ [last]⟩ rest
  | word {first : Located} {body rest : List Located} :
      first.isWordChar = true → (∀ c ∈ body, c.isWordChar = true) →
        (∀ c ∈ rest.head?, c.isWordChar = false) → Fits ⟨first, body⟩ rest
  | symbol {first : Located} {rest : List Located} :
      first.isBlank = false → first.isQuote = false → first.isWordChar = false →
        Fits ⟨first, []⟩ rest

end Cut

/-- The input falls apart into gaps and cuts.  What is left over is nothing or
a quotation mark that no other one follows, with all that stands behind it. -/
inductive Lexes : List Located → List Cut → List Located → Prop where
  | blank {gap : List Located} : (∀ c ∈ gap, c.isBlank = true) → Lexes gap [] []
  | unclosed {gap body : List Located} {quote : Located} :
      (∀ c ∈ gap, c.isBlank = true) → quote.isQuote = true →
        (∀ c ∈ body, c.isQuote = false) → Lexes (gap ++ quote :: body) [] (quote :: body)
  | cut {gap rest left : List Located} {cut : Cut} {cuts : List Cut} :
      (∀ c ∈ gap, c.isBlank = true) → cut.Fits rest → Lexes rest cuts left →
        Lexes (gap ++ (cut.characters ++ rest)) (cut :: cuts) left

theorem Lexes.mem_input {input left : List Located} {cuts : List Cut}
    (hlexes : Lexes input cuts left) {c : Located}
    (hmem : c ∈ cuts.flatMap Cut.characters) : c ∈ input := by
  induction hlexes with
  | blank => simp at hmem
  | unclosed => simp at hmem
  | cut _ _ _ ih =>
      rw [List.flatMap_cons, List.mem_append] at hmem
      rw [List.mem_append, List.mem_append]
      cases hmem with
      | inl hcut => exact Or.inr (Or.inl hcut)
      | inr hrest => exact Or.inr (Or.inr (ih hrest))

/-! ## Characters -/

theorem Located.isBlank_eq_false_of_isQuote {c : Located} (hquote : c.isQuote = true) :
    c.isBlank = false := by
  unfold Located.isQuote at hquote
  unfold Located.isBlank
  rw [beq_iff_eq.mp hquote]
  exact Text.isBlank_quoteMark

theorem Located.isWordChar_eq_false_of_isQuote {c : Located} (hquote : c.isQuote = true) :
    c.isWordChar = false := by
  unfold Located.isQuote at hquote
  unfold Located.isWordChar
  rw [beq_iff_eq.mp hquote]
  exact Text.isWordChar_quoteMark

theorem Located.isBlank_eq_false_of_isWordChar {c : Located} (hword : c.isWordChar = true) :
    c.isBlank = false := by
  cases hblank : c.isBlank with
  | false => rfl
  | true =>
      have hnot := Text.isWordChar_eq_false_of_isBlank hblank
      unfold Located.isWordChar at hword
      rw [hnot] at hword
      contradiction

theorem Located.isQuote_eq_false_of_isWordChar {c : Located} (hword : c.isWordChar = true) :
    c.isQuote = false := by
  cases hquote : c.isQuote with
  | false => rfl
  | true =>
      rw [Located.isWordChar_eq_false_of_isQuote hquote] at hword
      contradiction

theorem Located.isQuote_eq_false_of_isBlank {c : Located} (hblank : c.isBlank = true) :
    c.isQuote = false := by
  cases hquote : c.isQuote with
  | false => rfl
  | true =>
      rw [Located.isBlank_eq_false_of_isQuote hquote] at hblank
      contradiction

theorem Cut.Fits.isBlank_first {cut : Cut} {rest : List Located} (hfits : cut.Fits rest) :
    cut.first.isBlank = false := by
  cases hfits with
  | constant hquote _ _ => exact Located.isBlank_eq_false_of_isQuote hquote
  | word hword _ _ => exact Located.isBlank_eq_false_of_isWordChar hword
  | symbol hblank _ _ => exact hblank

/-! ## One scan -/

theorem throughQuote?_eq_none {input : List Located} (hnone : ∀ c ∈ input, c.isQuote = false) :
    throughQuote? input = none := by
  induction input with
  | nil => rfl
  | cons c rest ih =>
      have hc := hnone c List.mem_cons_self
      have hrest := ih fun d hd => hnone d (List.mem_cons_of_mem _ hd)
      simp [throughQuote?, hc, hrest]

theorem throughQuote?_inner {inner rest : List Located} {last : Located}
    (hinner : ∀ c ∈ inner, c.isQuote = false) (hlast : last.isQuote = true) :
    throughQuote? (inner ++ last :: rest) = some (inner ++ [last], rest) := by
  induction inner with
  | nil => simp [throughQuote?, hlast]
  | cons c inner ih =>
      have hc := hinner c List.mem_cons_self
      have hrest := ih fun d hd => hinner d (List.mem_cons_of_mem _ hd)
      simp [throughQuote?, hc, hrest]

theorem scan_skip {gap : List Located} (hgap : ∀ c ∈ gap, c.isBlank = true)
    (rest : List Located) : scan (gap ++ rest) = scan rest := by
  induction gap with
  | nil => rfl
  | cons c gap ih =>
      have hc := hgap c List.mem_cons_self
      have hrest := ih fun d hd => hgap d (List.mem_cons_of_mem _ hd)
      rw [List.cons_append, scan, if_pos hc]
      exact hrest

/-- A front of which all characters are of a kind is what the kind reaches over, if
the rest goes on with none of it. -/
theorem takeWhile_dropWhile_append {α : Type} {kind : α → Bool} {front rest : List α}
    (hfront : ∀ c ∈ front, kind c = true) (hrest : ∀ c ∈ rest.head?, kind c = false) :
    (front ++ rest).takeWhile kind = front ∧ (front ++ rest).dropWhile kind = rest := by
  rw [List.takeWhile_append_of_pos hfront, List.dropWhile_append_of_pos hfront]
  cases rest with
  | nil => exact ⟨List.append_nil front, rfl⟩
  | cons c rest =>
      have hc : ¬kind c = true := Bool.eq_false_iff.mp (hrest c rfl)
      rw [List.takeWhile_cons_of_neg hc, List.dropWhile_cons_of_neg hc, List.append_nil]
      exact ⟨rfl, rfl⟩

theorem scan_of_fits {cut : Cut} {rest : List Located} (hfits : cut.Fits rest) :
    scan (cut.characters ++ rest) = .token cut.token rest := by
  have hblank := hfits.isBlank_first
  cases hfits with
  | @constant first last inner rest hfirst hinner hlast =>
      have hclose : throughQuote? (inner ++ last :: rest) = some (inner ++ [last], rest) :=
        throughQuote?_inner hinner hlast
      simp only [Cut.characters, List.cons_append, List.append_assoc, List.nil_append, scan]
      simp only [hfirst, hclose, hblank, Bool.false_eq_true, if_false, if_true]
      rfl
  | @word first body rest hfirst hbody hrest =>
      have hquote := Located.isQuote_eq_false_of_isWordChar hfirst
      rcases takeWhile_dropWhile_append hbody hrest with ⟨htake, hdrop⟩
      simp only [Cut.characters, List.cons_append, scan]
      simp only [hfirst, hquote, hblank, htake, hdrop, Bool.false_eq_true, if_false, if_true]
      rfl
  | symbol _ hquote hword =>
      simp only [Cut.characters, List.cons_append, List.nil_append, scan]
      simp only [hquote, hword, hblank, Bool.false_eq_true, if_false]
      rfl

theorem scan_of_unclosed {quote : Located} {body : List Located} (hquote : quote.isQuote = true)
    (hbody : ∀ c ∈ body, c.isQuote = false) :
    scan (quote :: body) = .unterminated (quote.spanOver (quote :: body)) := by
  have hblank := Located.isBlank_eq_false_of_isQuote hquote
  have hopen := throughQuote?_eq_none hbody
  simp only [scan, hquote, hblank, hopen, Bool.false_eq_true, if_false, if_true]

theorem scan_of_blank {gap : List Located} (hgap : ∀ c ∈ gap, c.isBlank = true) :
    scan gap = .finished := by
  have hskip := scan_skip hgap []
  rw [List.append_nil] at hskip
  rw [hskip, scan]

/-! ## Every input falls apart -/

theorem exists_throughQuote (input : List Located) :
    (∃ inner last rest, input = inner ++ last :: rest ∧
      (∀ c ∈ inner, c.isQuote = false) ∧ last.isQuote = true) ∨
    (∀ c ∈ input, c.isQuote = false) := by
  induction input with
  | nil =>
      apply Or.inr
      intro c hc
      simp at hc
  | cons c input ih =>
      cases hquote : c.isQuote with
      | true => exact Or.inl ⟨[], c, input, rfl, by simp, hquote⟩
      | false =>
          rcases ih with ⟨inner, last, rest, rfl, hinner, hlast⟩ | hnone
          · apply Or.inl
            exact ⟨c :: inner, last, rest, rfl, List.forall_mem_cons.mpr ⟨hquote, hinner⟩, hlast⟩
          · exact Or.inr (List.forall_mem_cons.mpr ⟨hquote, hnone⟩)

theorem exists_fits_or_unclosed {first : Located} (hblank : first.isBlank = false)
    (tail : List Located) :
    (∃ (cut : Cut) (rest : List Located),
      first :: tail = cut.characters ++ rest ∧ cut.Fits rest) ∨
    (first.isQuote = true ∧ ∀ c ∈ tail, c.isQuote = false) := by
  by_cases hquote : first.isQuote = true
  · rcases exists_throughQuote tail with ⟨inner, last, rest, rfl, hinner, hlast⟩ | hnone
    · apply Or.inl
      exact ⟨⟨first, inner ++ [last]⟩, rest, by simp [Cut.characters],
        .constant hquote hinner hlast⟩
    · exact Or.inr ⟨hquote, hnone⟩
  · apply Or.inl
    by_cases hword : first.isWordChar = true
    · refine ⟨⟨first, tail.takeWhile Located.isWordChar⟩, tail.dropWhile Located.isWordChar,
        ?_, .word hword ?_ ?_⟩
      · simp [Cut.characters, List.takeWhile_append_dropWhile]
      · exact List.all_eq_true.mp List.all_takeWhile
      · intro c hc
        have hhead := List.head?_dropWhile_not Located.isWordChar tail
        rw [Option.mem_def.mp hc] at hhead
        simpa using hhead
    · exact ⟨⟨first, []⟩, tail, rfl,
        .symbol hblank (Bool.eq_false_iff.mpr hquote) (Bool.eq_false_iff.mpr hword)⟩

theorem exists_lexes (input : List Located) : ∃ cuts left, Lexes input cuts left := by
  induction hlength : input.length using Nat.strongRecOn generalizing input with | ind n ih
  have hgap : ∀ c ∈ input.takeWhile Located.isBlank, c.isBlank = true :=
    List.all_eq_true.mp List.all_takeWhile
  have hsplit := List.takeWhile_append_dropWhile (p := Located.isBlank) (l := input)
  cases hrest : input.dropWhile Located.isBlank with
  | nil =>
      rw [hrest, List.append_nil] at hsplit
      rw [hsplit] at hgap
      exact ⟨[], [], .blank hgap⟩
  | cons first tail =>
      rw [hrest] at hsplit
      have hhead := List.head?_dropWhile_not Located.isBlank input
      rw [hrest] at hhead
      have hblank : first.isBlank = false := by simpa using hhead
      rcases exists_fits_or_unclosed hblank tail with ⟨cut, rest, hcut, hfits⟩ | ⟨hquote, hnone⟩
      · rw [hcut] at hsplit
        have hshort := congrArg List.length hsplit
        simp only [Cut.characters, List.length_append, List.length_cons] at hshort
        obtain ⟨cuts, left, hlexes⟩ := ih rest.length (by omega) rest rfl
        rw [← hsplit]
        exact ⟨cut :: cuts, left, .cut hgap hfits hlexes⟩
      · rw [← hsplit]
        exact ⟨[], first :: tail, .unclosed hgap hquote hnone⟩

/-! ## Quotation marks

Whether a character stands inside a string constant is told by the number of
quotation marks before it.
-/

def quotes (characters : List Located) : Nat :=
  characters.countP Located.isQuote

theorem quotes_append (left right : List Located) :
    quotes (left ++ right) = quotes left + quotes right :=
  List.countP_append

theorem quotes_eq_zero {characters : List Located}
    (hnone : ∀ c ∈ characters, c.isQuote = false) : quotes characters = 0 := by
  unfold quotes
  rw [List.countP_eq_zero]
  intro c hc
  rw [hnone c hc]
  exact Bool.false_ne_true

theorem quotes_of_blank {gap : List Located} (hgap : ∀ c ∈ gap, c.isBlank = true) :
    quotes gap = 0 :=
  quotes_eq_zero fun c hc => Located.isQuote_eq_false_of_isBlank (hgap c hc)

theorem Cut.Fits.quotes_even {cut : Cut} {rest : List Located} (hfits : cut.Fits rest) :
    quotes cut.characters % 2 = 0 := by
  cases hfits with
  | constant hfirst hinner hlast =>
      have hnone := quotes_eq_zero hinner
      unfold quotes at hnone
      simp [quotes, Cut.characters, hnone, hfirst, hlast]
  | @word first body _ hfirst hbody _ =>
      have hword : ∀ c ∈ first :: body, c.isWordChar = true :=
        List.forall_mem_cons.mpr ⟨hfirst, hbody⟩
      have hnone : quotes (Cut.mk first body).characters = 0 :=
        quotes_eq_zero fun c hc => Located.isQuote_eq_false_of_isWordChar (hword c hc)
      rw [hnone]
  | symbol _ hquote _ =>
      have hnone : quotes (Cut.mk _ []).characters = 0 :=
        quotes_eq_zero fun c hc => List.mem_singleton.mp hc ▸ hquote
      rw [hnone]

theorem exists_split {left right before after : List Located} {c : Located}
    (hsplit : left ++ right = before ++ c :: after) :
    (c ∈ left) ∨ ∃ front, before = left ++ front ∧ right = front ++ c :: after := by
  rcases List.append_eq_append_iff.mp hsplit with ⟨front, hbefore, hright⟩ | ⟨middle, hleft, hafter⟩
  · exact Or.inr ⟨front, hbefore, hright⟩
  · cases middle with
    | nil =>
        rw [List.append_nil] at hleft
        exact Or.inr ⟨[], by rw [hleft, List.append_nil], hafter.symm⟩
    | cons d middle =>
        rw [hleft, (List.cons.inj hafter).1]
        exact Or.inl (List.mem_append_right _ List.mem_cons_self)

/-- Outside string constants every character that is not blank is cut. -/
theorem Lexes.mem_of_quotes_even {input left before after : List Located} {cuts : List Cut}
    (hlexes : Lexes input cuts left) {c : Located} (hinput : input = before ++ c :: after)
    (heven : quotes before % 2 = 0) (hblank : c.isBlank = false) (hquote : c.isQuote = false) :
    c ∈ cuts.flatMap Cut.characters := by
  induction hlexes generalizing before with
  | @blank gap hgap =>
      have hc := hgap c (hinput ▸ List.mem_append_right before List.mem_cons_self)
      rw [hblank] at hc
      contradiction
  | unclosed hgap hopen hbody =>
      rcases exists_split hinput with hc | ⟨front, rfl, hrest⟩
      · have hc := hgap c hc
        rw [hblank] at hc
        contradiction
      · cases front with
        | nil =>
            rw [(List.cons.inj hrest).1, hquote] at hopen
            contradiction
        | cons d front =>
            obtain ⟨rfl, rfl⟩ := List.cons.inj hrest
            have hnone := quotes_eq_zero fun c hc => hbody c (List.mem_append_left _ hc)
            have hzero := quotes_of_blank hgap
            unfold quotes at heven hnone hzero
            rw [List.countP_append, List.countP_cons_of_pos hopen, hzero, hnone] at heven
            contradiction
  | cut hgap hfits _ ih =>
      rw [List.flatMap_cons, List.mem_append]
      rcases exists_split hinput with hc | ⟨front, rfl, hrest⟩
      · have hc := hgap c hc
        rw [hblank] at hc
        contradiction
      · rcases exists_split hrest with hc | ⟨behind, rfl, htail⟩
        · exact Or.inl hc
        · apply Or.inr
          apply ih htail
          have hzero := quotes_of_blank hgap
          have hcut := hfits.quotes_even
          rw [quotes_append, quotes_append] at heven
          omega

/-- A blank that is cut stands inside a string constant. -/
theorem Lexes.exists_quotes_odd {input left : List Located} {cuts : List Cut}
    (hlexes : Lexes input cuts left) {c : Located} (hc : c ∈ cuts.flatMap Cut.characters)
    (hblank : c.isBlank = true) :
    ∃ before after, input = before ++ c :: after ∧ quotes before % 2 = 1 := by
  induction hlexes with
  | blank => contradiction
  | unclosed => contradiction
  | @cut gap rest left cut cuts hgap hfits _ ih =>
      have hzero := quotes_of_blank hgap
      rw [List.flatMap_cons, List.mem_append] at hc
      rcases hc with hc | hc
      · cases hfits with
        | @constant first last inner _ hfirst hinner hlast =>
            cases hc with
            | head =>
                rw [Located.isBlank_eq_false_of_isQuote hfirst] at hblank
                contradiction
            | tail _ hbody =>
                rcases List.mem_append.mp hbody with hbody | hend
                · obtain ⟨front, behind, rfl⟩ := List.append_of_mem hbody
                  have hnone := quotes_eq_zero fun c hc => hinner c (List.mem_append_left _ hc)
                  refine ⟨gap ++ first :: front, behind ++ last :: rest, by simp [Cut.characters], ?_⟩
                  unfold quotes at hzero hnone ⊢
                  rw [List.countP_append, List.countP_cons_of_pos hfirst, hzero, hnone]
                · rw [List.mem_singleton.mp hend, Located.isBlank_eq_false_of_isQuote hlast] at hblank
                  contradiction
        | @word first body _ hfirst hbody _ =>
            have hword : ∀ c ∈ first :: body, c.isWordChar = true :=
              List.forall_mem_cons.mpr ⟨hfirst, hbody⟩
            rw [Located.isBlank_eq_false_of_isWordChar (hword c hc)] at hblank
            contradiction
        | symbol hfirst _ _ =>
            rw [List.mem_singleton.mp hc, hfirst] at hblank
            contradiction
      · obtain ⟨before, after, rfl, hodd⟩ := ih hc
        refine ⟨gap ++ (cut.characters ++ before), after, by simp, ?_⟩
        have hcut := hfits.quotes_even
        rw [quotes_append, quotes_append]
        omega

/-! ## Tokenization -/

namespace Lexer

theorem tokenize_of_next_none {lexer later : Lexer} (hnext : lexer.next = (none, later)) :
    lexer.tokenize = .ok [] := by
  rw [tokenize]
  split
  next => rfl
  next hother => simp [hnext] at hother
  next hother => simp [hnext] at hother

theorem tokenize_of_next_error {lexer later : Lexer} {error : LexError}
    (hnext : lexer.next = (some (.error error), later)) : lexer.tokenize = .error error := by
  rw [tokenize]
  split
  next hother => simp [hnext] at hother
  next hother =>
    rw [hnext] at hother
    simp only [Prod.mk.injEq, Option.some.injEq, Except.error.injEq] at hother
    rw [hother.1]
  next hother => simp [hnext] at hother

theorem tokenize_of_next_token {lexer later : Lexer} {token : Token}
    (hnext : lexer.next = (some (.ok token), later)) :
    lexer.tokenize = later.tokenize.map (token :: ·) := by
  rw [tokenize]
  split
  next hother => simp [hnext] at hother
  next hother => simp [hnext] at hother
  next hother =>
    rw [hnext] at hother
    simp only [Prod.mk.injEq, Option.some.injEq, Except.ok.injEq] at hother
    rw [hother.1, hother.2]

/-- The lexer answers with the tokens of the cuts, or reports what is left over. -/
theorem tokenize_of_lexes {input left : List Located} {cuts : List Cut}
    (hlexes : Lexes input cuts left) (options : LexerOptions) :
    (Lexer.mk input options).tokenize =
      match left with
      | [] => .ok (cuts.map Cut.token)
      | quote :: _ =>
        if options.strictStrings then .error (.unterminatedString (quote.spanOver left))
        else .ok (cuts.map Cut.token) := by
  induction hlexes with
  | blank hgap =>
      apply tokenize_of_next_none
      rw [next, scan_of_blank hgap]
  | @unclosed gap body quote hgap hquote hbody =>
      cases hstrict : options.strictStrings with
      | true =>
          have hnext : (Lexer.mk (gap ++ quote :: body) options).next =
              (some (.error (.unterminatedString (quote.spanOver (quote :: body)))),
                ⟨[], options⟩) := by
            simp [next, scan_skip hgap, scan_of_unclosed hquote hbody, hstrict]
          rw [tokenize_of_next_error hnext]
          rfl
      | false =>
          have hnext : (Lexer.mk (gap ++ quote :: body) options).next =
              (none, ⟨[], options⟩) := by
            simp [next, scan_skip hgap, scan_of_unclosed hquote hbody, hstrict]
          exact tokenize_of_next_none hnext
  | @cut gap rest left cut cuts hgap hfits _ ih =>
      have hnext : (Lexer.mk (gap ++ (cut.characters ++ rest)) options).next =
          (some (.ok cut.token), ⟨rest, options⟩) := by
        rw [next, scan_skip hgap, scan_of_fits hfits]
      rw [tokenize_of_next_token hnext, ih]
      cases left with
      | nil => rfl
      | cons quote left => cases options.strictStrings <;> rfl

theorem exists_lexes_of_tokenize {lexer : Lexer} {tokens : List Token}
    (htokens : lexer.tokenize = .ok tokens) :
    ∃ cuts left, Lexes lexer.input cuts left ∧ tokens = cuts.map Cut.token := by
  obtain ⟨cuts, left, hlexes⟩ := exists_lexes lexer.input
  refine ⟨cuts, left, hlexes, ?_⟩
  have hanswer := tokenize_of_lexes hlexes lexer.options
  rw [htokens] at hanswer
  cases left with
  | nil => exact Except.ok.inj hanswer
  | cons quote left =>
      dsimp only at hanswer
      split at hanswer
      next => contradiction
      next => exact Except.ok.inj hanswer

end Lexer

end JackTree
