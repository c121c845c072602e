import JackTree.Proofs.SourcePlaces

/-!
# Reading character by character

A scanner takes one character after the other.  It holds the characters of the
token that it is in the middle of, and tokens that nobody has asked for yet.
`answerAt_eq` says that a lexer made of a scanner answers every request as the
lexer that cuts its input does; `Holds` says what a scanner holds.
-/

namespace JackTree

open Text

/-! ## Scanners -/

structure Scanner where
  buffer : List Char := []
  /-- Where the first character of the buffer stands. -/
  start : Option (Nat × Nat) := none
  insideConstant : Bool := false
  /-- Tokens that are complete, the first one to be given out in front. -/
  pending : List Token := []
  finished : Bool := false
  deriving DecidableEq, Repr

namespace Scanner

/-- The span of the buffer.  Without a start there is no place to tell. -/
def span (scanner : Scanner) : Span :=
  match scanner.start with
  | some (line, column) => ⟨line, column, scanner.buffer.length⟩
  | none => ⟨0, 0, scanner.buffer.length⟩

/-- Makes a token of the buffer, if there is anything in it. -/
def flush (scanner : Scanner) : Scanner :=
  if scanner.buffer.isEmpty then scanner
  else
    { scanner with
      buffer := []
      start := none
      pending := scanner.pending ++ [⟨String.ofList scanner.buffer, scanner.span⟩] }

def take (scanner : Scanner) (c : Located) : Scanner :=
  if scanner.insideConstant then
    let longer := { scanner with buffer := scanner.buffer ++ [c.char] }
    if c.isQuote then { longer with insideConstant := false }.flush else longer
  else if c.isWordChar then
    { scanner with
      buffer := scanner.buffer ++ [c.char]
      start := if scanner.buffer.isEmpty then some c.place else scanner.start }
  else if c.isQuote then
    { scanner.flush with
      buffer := scanner.flush.buffer ++ [c.char]
      start := some c.place
      insideConstant := true }
  else if c.isBlank then
    scanner.flush
  else
    { scanner.flush with pending := scanner.flush.pending ++ [c.token []] }

def read (scanner : Scanner) (characters : List Located) : Scanner :=
  characters.foldl take scanner

/-- Ends the reading.  A constant that is still open is dropped, or reported. -/
def finish (scanner : Scanner) (options : LexerOptions) : Option LexError × Scanner :=
  if scanner.insideConstant then
    (if options.strictStrings then some (.unterminatedString scanner.span) else none,
      { scanner with buffer := [], insideConstant := false, finished := true })
  else
    (none, { scanner.flush with finished := true })

/-! ## What one character does -/

section Take

variable {scanner : Scanner} {c : Located}

theorem take_inside (hinside : scanner.insideConstant = true) (hquote : c.isQuote = false) :
    scanner.take c = { scanner with buffer := scanner.buffer ++ [c.char] } := by
  simp [take, hinside, hquote]

theorem take_closing (hinside : scanner.insideConstant = true) (hquote : c.isQuote = true) :
    scanner.take c =
      { scanner with buffer := scanner.buffer ++ [c.char], insideConstant := false }.flush := by
  simp [take, hinside, hquote]

theorem take_word (houtside : scanner.insideConstant = false) (hword : c.isWordChar = true) :
    scanner.take c =
      { scanner with
        buffer := scanner.buffer ++ [c.char]
        start := if scanner.buffer.isEmpty then some c.place else scanner.start } := by
  simp [take, houtside, hword]

theorem take_opening (houtside : scanner.insideConstant = false) (hquote : c.isQuote = true) :
    scanner.take c =
      { scanner.flush with
        buffer := scanner.flush.buffer ++ [c.char]
        start := some c.place
        insideConstant := true } := by
  have hword := Located.isWordChar_eq_false_of_isQuote hquote
  simp [take, houtside, hword, hquote]

theorem take_blank (houtside : scanner.insideConstant = false) (hblank : c.isBlank = true) :
    scanner.take c = scanner.flush := by
  have hquote := Located.isQuote_eq_false_of_isBlank hblank
  have hword : c.isWordChar = false := Text.isWordChar_eq_false_of_isBlank hblank
  simp [take, houtside, hword, hquote, hblank]

theorem take_symbol (houtside : scanner.insideConstant = false) (hblank : c.isBlank = false)
    (hquote : c.isQuote = false) (hword : c.isWordChar = false) :
    scanner.take c =
      { scanner.flush with pending := scanner.flush.pending ++ [c.token []] } := by
  simp [take, houtside, hword, hquote, hblank]

end Take

theorem read_append (scanner : Scanner) (front back : List Located) :
    scanner.read (front ++ back) = (scanner.read front).read back :=
  List.foldl_append

theorem finished_flush (scanner : Scanner) : scanner.flush.finished = scanner.finished := by
  unfold flush
  split <;> rfl

theorem finished_take (scanner : Scanner) (c : Located) :
    (scanner.take c).finished = scanner.finished := by
  unfold take
  repeat' split
  all_goals simp [finished_flush]

theorem finished_read (scanner : Scanner) (characters : List Located) :
    (scanner.read characters).finished = scanner.finished := by
  induction characters generalizing scanner with
  | nil => rfl
  | cons c rest ih => exact (ih (scanner.take c)).trans (finished_take scanner c)

theorem finished_finish {scanner later : Scanner} {options : LexerOptions}
    {error : Option LexError} (hfinish : scanner.finish options = (error, later)) :
    later.finished = true := by
  unfold finish at hfinish
  split at hfinish <;> rw [← (Prod.mk.inj hfinish).2]

end Scanner

/-- A lexer that works character by character. -/
structure CharacterLexer where
  input : List Located
  options : LexerOptions := {}
  scanner : Scanner := {}
  deriving DecidableEq, Repr

namespace CharacterLexer

def ofLines (lines : List SourceLine) (options : LexerOptions := {}) : CharacterLexer :=
  { input := lines.flatMap SourceLine.located, options }

def next (lexer : CharacterLexer) : Option (Except LexError Token) × CharacterLexer :=
  match lexer.scanner.pending with
  | token :: pending => (some (.ok token), { lexer with scanner := { lexer.scanner with pending } })
  | [] =>
    if _hfinished : lexer.scanner.finished then (none, lexer)
    else
      match _hinput : lexer.input with
      | c :: rest => next { lexer with input := rest, scanner := lexer.scanner.take c }
      | [] =>
        match _hfinish : lexer.scanner.finish lexer.options with
        | (some error, scanner) => (some (.error error), { lexer with scanner })
        | (none, scanner) => next { lexer with scanner }
termination_by (lexer.input.length, if lexer.scanner.finished then 0 else 1)
decreasing_by
  · apply Prod.Lex.left
    simp [_hinput]
  · apply Prod.Lex.right
    rw [if_neg _hfinished, if_pos (Scanner.finished_finish _hfinish)]
    exact Nat.one_pos

end CharacterLexer

/-! ## What a scanner holds -/

namespace Scanner

/-- A scanner in the middle of a token. -/
def holding (first : Located) (body : List Located) (insideConstant : Bool) : Scanner :=
  { buffer := (first :: body).map Located.char, start := some first.place, insideConstant }

theorem span_holding (first : Located) (body : List Located) (insideConstant : Bool) :
    (holding first body insideConstant).span = first.spanOver (first :: body) := by
  simp [holding, span, Located.place, Located.spanOver]

theorem flush_holding (first : Located) (body : List Located) (insideConstant : Bool) :
    (holding first body insideConstant).flush =
      { insideConstant, pending := [first.token body] } := by
  have hspan := span_holding first body insideConstant
  unfold holding at hspan
  simp only [holding, flush, hspan]
  rfl

theorem flush_flush (scanner : Scanner) : scanner.flush.flush = scanner.flush := by
  cases hempty : scanner.buffer.isEmpty with
  | true => simp [flush, hempty]
  | false => simp [flush, hempty]

theorem insideConstant_flush (scanner : Scanner) :
    scanner.flush.insideConstant = scanner.insideConstant := by
  unfold flush
  split <;> rfl

theorem read_blank {gap : List Located} (hgap : ∀ c ∈ gap, c.isBlank = true) :
    ({} : Scanner).read gap = {} := by
  induction gap with
  | nil => rfl
  | cons c gap ih =>
      rcases List.forall_mem_cons.mp hgap with ⟨hc, hmore⟩
      change (({} : Scanner).take c).read gap = {}
      rw [take_blank rfl hc]
      exact ih hmore

theorem read_of_word {first : Located} {body more : List Located}
    (hmore : ∀ c ∈ more, c.isWordChar = true) :
    (holding first body false).read more = holding first (body ++ more) false := by
  induction more generalizing body with
  | nil => rw [List.append_nil]; rfl
  | cons c more ih =>
      rcases List.forall_mem_cons.mp hmore with ⟨hc, hmore⟩
      have htake : (holding first body false).take c = holding first (body ++ [c]) false := by
        simp [take, holding, hc]
      change ((holding first body false).take c).read more = _
      rw [htake, ih hmore, List.append_assoc, List.singleton_append]

theorem read_word {first : Located} {body : List Located}
    (hword : ∀ c ∈ first :: body, c.isWordChar = true) :
    ({} : Scanner).read (first :: body) = holding first body false := by
  rcases List.forall_mem_cons.mp hword with ⟨hfirst, hbody⟩
  have htake : ({} : Scanner).take first = holding first [] false := by
    simp [take, holding, hfirst]
  change (({} : Scanner).take first).read body = _
  rw [htake, read_of_word hbody, List.nil_append]

theorem read_of_open {first : Located} {body more : List Located}
    (hmore : ∀ c ∈ more, c.isQuote = false) :
    (holding first body true).read more = holding first (body ++ more) true := by
  induction more generalizing body with
  | nil => rw [List.append_nil]; rfl
  | cons c more ih =>
      rcases List.forall_mem_cons.mp hmore with ⟨hc, hmore⟩
      have htake : (holding first body true).take c = holding first (body ++ [c]) true := by
        simp [take, holding, hc]
      change ((holding first body true).take c).read more = _
      rw [htake, ih hmore, List.append_assoc, List.singleton_append]

theorem read_open {first : Located} {body : List Located} (hfirst : first.isQuote = true)
    (hbody : ∀ c ∈ body, c.isQuote = false) :
    ({} : Scanner).read (first :: body) = holding first body true := by
  have hword := Located.isWordChar_eq_false_of_isQuote hfirst
  have htake : ({} : Scanner).take first = holding first [] true := by
    simp [take, holding, flush, hfirst, hword]
  change (({} : Scanner).take first).read body = _
  rw [htake, read_of_open hbody, List.nil_append]

theorem read_constant {first last : Located} {inner : List Located}
    (hfirst : first.isQuote = true) (hinner : ∀ c ∈ inner, c.isQuote = false)
    (hlast : last.isQuote = true) :
    ({} : Scanner).read (first :: (inner ++ [last])) =
      { pending := [first.token (inner ++ [last])] } := by
  have hflush := flush_holding first (inner ++ [last]) false
  rw [← List.cons_append, read_append, read_open hfirst hinner]
  change (holding first inner true).take last = _
  rw [← hflush]
  simp [take, holding, hlast]

theorem read_symbol {c : Located} (hblank : c.isBlank = false) (hquote : c.isQuote = false)
    (hword : c.isWordChar = false) : ({} : Scanner).read [c] = { pending := [c.token []] } := by
  simp [read, take, flush, hblank, hquote, hword]

/-! ## Tokens that wait do not matter -/

/-- A scanner that has to give out some more tokens before its own. -/
def behind (scanner : Scanner) (tokens : List Token) : Scanner :=
  { scanner with pending := tokens ++ scanner.pending }

variable (scanner : Scanner) (tokens : List Token)

theorem flush_behind : (scanner.behind tokens).flush = scanner.flush.behind tokens := by
  cases hempty : scanner.buffer.isEmpty with
  | true => simp [flush, behind, hempty]
  | false => simp [flush, behind, span, hempty]

theorem take_behind (c : Located) :
    (scanner.behind tokens).take c = (scanner.take c).behind tokens := by
  have hsame : (scanner.behind tokens).insideConstant = scanner.insideConstant := rfl
  cases hinside : scanner.insideConstant with
  | true =>
      cases hquote : c.isQuote with
      | true =>
          rw [take_closing hinside hquote, take_closing (hsame.trans hinside) hquote,
            ← flush_behind]
          rfl
      | false =>
          rw [take_inside hinside hquote, take_inside (hsame.trans hinside) hquote]
          rfl
  | false =>
      have houtside := hsame.trans hinside
      cases hword : c.isWordChar with
      | true =>
          rw [take_word hinside hword, take_word houtside hword]
          rfl
      | false =>
          cases hquote : c.isQuote with
          | true =>
              rw [take_opening hinside hquote, take_opening houtside hquote, flush_behind]
              rfl
          | false =>
              cases hblank : c.isBlank with
              | true => rw [take_blank hinside hblank, take_blank houtside hblank, flush_behind]
              | false =>
                  rw [take_symbol hinside hblank hquote hword,
                    take_symbol houtside hblank hquote hword, flush_behind]
                  simp [behind]

theorem read_behind (characters : List Located) :
    (scanner.behind tokens).read characters = (scanner.read characters).behind tokens := by
  induction characters generalizing scanner with
  | nil => rfl
  | cons c rest ih =>
      change ((scanner.behind tokens).take c).read rest = ((scanner.take c).read rest).behind tokens
      rw [take_behind, ih]

theorem finish_behind (options : LexerOptions) :
    (scanner.behind tokens).finish options =
      ((scanner.finish options).1, (scanner.finish options).2.behind tokens) := by
  unfold finish
  rw [flush_behind]
  cases hinside : scanner.insideConstant with
  | true => simp [behind, hinside, span]
  | false => simp [behind, hinside]

theorem take_flush {scanner : Scanner} (houtside : scanner.insideConstant = false) {c : Located}
    (hword : c.isWordChar = false) : scanner.flush.take c = scanner.take c := by
  have hflushed := (insideConstant_flush scanner).trans houtside
  cases hquote : c.isQuote with
  | true => rw [take_opening hflushed hquote, take_opening houtside hquote, flush_flush]
  | false =>
      cases hblank : c.isBlank with
      | true => rw [take_blank hflushed hblank, take_blank houtside hblank, flush_flush]
      | false =>
          rw [take_symbol hflushed hblank hquote hword, take_symbol houtside hblank hquote hword,
            flush_flush]

/-- A word may be made a token as soon as it does not go on. -/
theorem finish_read_flush {scanner : Scanner} (houtside : scanner.insideConstant = false)
    {rest : List Located} (hrest : ∀ c ∈ rest.head?, c.isWordChar = false)
    (options : LexerOptions) :
    (scanner.flush.read rest).finish options = (scanner.read rest).finish options := by
  cases rest with
  | nil =>
      have hflushed := (insideConstant_flush scanner).trans houtside
      change scanner.flush.finish options = scanner.finish options
      simp only [finish, hflushed, houtside, flush_flush, Bool.false_eq_true, if_false]
  | cons c rest =>
      change ((scanner.flush.take c).read rest).finish options =
        ((scanner.take c).read rest).finish options
      rw [take_flush houtside (hrest c rfl)]

end Scanner

/-! ## Reading the whole input -/

/-- What is reported of the characters that no cut takes. -/
def report? (options : LexerOptions) : List Located → Option LexError
  | [] => none
  | quote :: body =>
    if options.strictStrings then some (.unterminatedString (quote.spanOver (quote :: body)))
    else none

/-- Reading some cuts in front of the rest of the input makes tokens of them. -/
theorem Cut.Fits.finish_read {cut : Cut} {rest : List Located} (hfits : cut.Fits rest)
    (options : LexerOptions) :
    (({} : Scanner).read (cut.characters ++ rest)).finish options =
      (((({} : Scanner).behind [cut.token]).read rest).finish options) := by
  rw [Scanner.read_append]
  cases hfits with
  | constant hfirst hinner hlast =>
      rw [Cut.characters, Scanner.read_constant hfirst hinner hlast]
      rfl
  | @word first body _ hfirst hbody hrest =>
      have hword : ∀ c ∈ first :: body, c.isWordChar = true :=
        List.forall_mem_cons.mpr ⟨hfirst, hbody⟩
      rw [Cut.characters, Scanner.read_word hword, ← Scanner.finish_read_flush rfl hrest,
        Scanner.flush_holding]
      rfl
  | symbol hblank hquote hword =>
      rw [Cut.characters, Scanner.read_symbol hblank hquote hword]
      rfl

theorem Lexes.finish_read {input left : List Located} {cuts : List Cut}
    (hlexes : Lexes input cuts left) (options : LexerOptions) :
    ((({} : Scanner).read input).finish options).1 = report? options left ∧
      ((({} : Scanner).read input).finish options).2.pending = cuts.map Cut.token := by
  induction hlexes with
  | blank hgap =>
      rw [Scanner.read_blank hgap]
      exact ⟨rfl, rfl⟩
  | unclosed hgap hquote hbody =>
      rw [Scanner.read_append, Scanner.read_blank hgap, Scanner.read_open hquote hbody]
      refine ⟨?_, rfl⟩
      change (if options.strictStrings then some _ else none) = _
      rw [Scanner.span_holding]
      rfl
  | cut hgap hfits _ ih =>
      rw [Scanner.read_append, Scanner.read_blank hgap, hfits.finish_read, Scanner.read_behind,
        Scanner.finish_behind]
      refine ⟨ih.1, ?_⟩
      rw [List.map_cons, ← ih.2]
      rfl

/-! ## Requests -/

/-- The answer to the request with an index, when every request is made of the
state that the one before has left. -/
def answerAt {State Answer : Type} (next : State → Option Answer × State) (state : State) :
    Nat → Option Answer
  | 0 => (next state).1
  | index + 1 => answerAt next (next state).2 index

theorem answerAt_eq_getElem? {State Answer : Type} {next : State → Option Answer × State}
    {future : State → List Answer} (hhead : ∀ state, (next state).1 = (future state).head?)
    (htail : ∀ state, future (next state).2 = (future state).tail) (state : State) (index : Nat) :
    answerAt next state index = (future state)[index]? := by
  induction index generalizing state with
  | zero => rw [answerAt, hhead, List.head?_eq_getElem?]
  | succ index ih => rw [answerAt, ih, htail, List.getElem?_tail]

/-- What a lexer answers whose input falls apart in some way: the tokens of the
cuts, then what is reported of the rest. -/
def answersOf (options : LexerOptions) (cuts : List Cut) (left : List Located) :
    List (Except LexError Token) :=
  cuts.map (fun cut => .ok cut.token) ++ (report? options left).toList.map .error

namespace Lexer

theorem answerAt_nil (options : LexerOptions) (index : Nat) :
    answerAt next ⟨[], options⟩ index = none := by
  induction index with
  | zero => rfl
  | succ index ih => exact ih

theorem answerAt_of_lexes {input left : List Located} {cuts : List Cut}
    (hlexes : Lexes input cuts left) (options : LexerOptions) (index : Nat) :
    answerAt next ⟨input, options⟩ index = (answersOf options cuts left)[index]? := by
  induction hlexes generalizing index with
  | @blank gap hgap =>
      have hnext : (Lexer.mk gap options).next = (none, ⟨[], options⟩) := by
        rw [next, scan_of_blank hgap]
      cases index with
      | zero => rw [answerAt, hnext]; rfl
      | succ index => rw [answerAt, hnext, answerAt_nil]; rfl
  | @unclosed gap body quote hgap hquote hbody =>
      have hnext : (Lexer.mk (gap ++ quote :: body) options).next =
          ((report? options (quote :: body)).map .error, ⟨[], options⟩) := by
        rw [next, scan_skip hgap, scan_of_unclosed hquote hbody]
        cases hstrict : options.strictStrings <;> simp [report?, hstrict]
      unfold answersOf
      cases index with
      | zero =>
          rw [answerAt, hnext]
          cases report? options (quote :: body) <;> rfl
      | succ index =>
          rw [answerAt, hnext, answerAt_nil]
          cases report? options (quote :: body) <;> rfl
  | @cut gap rest left cut cuts hgap hfits _ ih =>
      have hnext : (Lexer.mk (gap ++ (cut.characters ++ rest)) options).next =
          (some (.ok cut.token), ⟨rest, options⟩) := by
        rw [next, scan_skip hgap, scan_of_fits hfits]
      cases index with
      | zero => rw [answerAt, hnext]; rfl
      | succ index =>
          rw [answerAt, hnext, ih]
          rfl

end Lexer

namespace CharacterLexer

/-- All that a lexer has still to answer. -/
def future (lexer : CharacterLexer) : List (Except LexError Token) :=
  if lexer.scanner.finished then lexer.scanner.pending.map .ok
  else
    let last := (lexer.scanner.read lexer.input).finish lexer.options
    last.2.pending.map .ok ++ last.1.toList.map .error

theorem future_behind (lexer : CharacterLexer) (token : Token) :
    { lexer with scanner := lexer.scanner.behind [token] }.future = .ok token :: lexer.future := by
  have hsame : (lexer.scanner.behind [token]).finished = lexer.scanner.finished := rfl
  cases hfinished : lexer.scanner.finished with
  | true =>
      rw [hfinished] at hsame
      simp only [future, hsame, hfinished, if_true]
      rfl
  | false =>
      rw [hfinished] at hsame
      simp only [future, hsame, hfinished, Scanner.read_behind, Scanner.finish_behind,
        Bool.false_eq_true, if_false]
      rfl

theorem future_of_taken {lexer : CharacterLexer} (hfinished : lexer.scanner.finished = false)
    {c : Located} {rest : List Located} (hinput : lexer.input = c :: rest) :
    { lexer with input := rest, scanner := lexer.scanner.take c }.future = lexer.future := by
  have htaken := (Scanner.finished_take lexer.scanner c).trans hfinished
  simp only [future, htaken, hfinished, hinput, Bool.false_eq_true, if_false]
  rfl

theorem next_eq (lexer : CharacterLexer) :
    lexer.next.1 = lexer.future.head? ∧ lexer.next.2.future = lexer.future.tail := by
  fun_induction next lexer with
  | case1 lexer token pending hpending =>
      have hfuture := future_behind { lexer with scanner := { lexer.scanner with pending } } token
      have hscanner : { lexer.scanner with pending }.behind [token] = lexer.scanner := by
        simp [Scanner.behind, ← hpending]
      simp only [hscanner] at hfuture
      rw [hfuture]
      exact ⟨rfl, rfl⟩
  | case2 lexer hpending hfinished => simp [future, hfinished, hpending]
  | case3 lexer hpending hfinished c rest hinput ih =>
      rw [← future_of_taken (Bool.eq_false_iff.mpr hfinished) hinput]
      exact ih
  | case4 lexer hpending hfinished hinput error scanner hfinish =>
      have hempty : scanner.pending = [] := by
        unfold Scanner.finish at hfinish
        split at hfinish
        next => rw [← (Prod.mk.inj hfinish).2, ← hpending]
        next => exact absurd (Prod.mk.inj hfinish).1 (by simp)
      have hdone := Scanner.finished_finish hfinish
      simp [future, hfinished, hinput, Scanner.read, hfinish, hempty, hdone]
  | case5 lexer hpending hfinished hinput scanner hfinish ih =>
      have hdone := Scanner.finished_finish hfinish
      have hfuture : { lexer with scanner }.future = lexer.future := by
        simp [future, hfinished, hinput, Scanner.read, hfinish, hdone]
      rw [← hfuture]
      exact ih

/-- A lexer that works character by character answers as its input falls apart. -/
theorem answerAt_of_lexes {input left : List Located} {cuts : List Cut}
    (hlexes : Lexes input cuts left) (options : LexerOptions) (index : Nat) :
    answerAt next { input, options } index = (answersOf options cuts left)[index]? := by
  have hfuture : CharacterLexer.future { input, options } = answersOf options cuts left := by
    have hfinish := hlexes.finish_read options
    simp only [future, hfinish.1, hfinish.2, List.map_map, Bool.false_eq_true, if_false]
    rfl
  rw [← hfuture]
  exact answerAt_eq_getElem? (fun lexer => (next_eq lexer).1) (fun lexer => (next_eq lexer).2) _ _

/-- Request by request the two lexers answer alike. -/
theorem answerAt_eq (input : List Located) (options : LexerOptions) (index : Nat) :
    answerAt next { input, options } index = answerAt Lexer.next ⟨input, options⟩ index := by
  rcases exists_lexes input with ⟨cuts, left, hlexes⟩
  rw [answerAt_of_lexes hlexes, Lexer.answerAt_of_lexes hlexes]

end CharacterLexer

/-! ## Where a buffer comes from -/

namespace Scanner

/-- Whether the buffer of a scanner is made of some characters and remembers the
place of the first of them. -/
structure Holds (scanner : Scanner) (held : List Located) : Prop where
  buffer_eq : scanner.buffer = held.map Located.char
  start_eq : scanner.start = held.head?.map Located.place
  of_inside : scanner.insideConstant = true → held ≠ []

variable {scanner : Scanner} {held : List Located}

/-- The span of a buffer starts at the first character that is held. -/
theorem Holds.span {first : Located} {body : List Located}
    (hholds : scanner.Holds (first :: body)) :
    scanner.span = first.spanOver (first :: body) := by
  unfold Scanner.span
  rw [hholds.start_eq, hholds.buffer_eq, List.length_map]
  rfl

theorem Holds.flush (hholds : scanner.Holds held) (houtside : scanner.insideConstant = false) :
    scanner.flush.Holds [] := by
  unfold Scanner.flush
  split
  next hempty =>
    have hheld : held = [] := by simpa [hholds.buffer_eq] using hempty
    rwa [hheld] at hholds
  next => exact ⟨rfl, rfl, by simp [houtside]⟩

theorem Holds.longer (hholds : scanner.Holds held) (hheld : held ≠ []) (c : Located)
    (insideConstant : Bool) :
    { scanner with buffer := scanner.buffer ++ [c.char], insideConstant }.Holds (held ++ [c]) := by
  refine ⟨by simp [hholds.buffer_eq], ?_, by simp⟩
  have hstart := hholds.start_eq
  cases held with
  | nil => contradiction
  | cons first body => exact hstart

/-- What is held after one more character is the end of what has been read. -/
theorem Holds.take (hholds : scanner.Holds held) (c : Located) :
    ∃ longer, longer <:+ held ++ [c] ∧ (scanner.take c).Holds longer := by
  cases hinside : scanner.insideConstant with
  | true =>
      have hlonger := hholds.longer (hholds.of_inside hinside) c
      cases hquote : c.isQuote with
      | true =>
          rw [take_closing hinside hquote]
          exact ⟨[], List.nil_suffix, (hlonger false).flush rfl⟩
      | false =>
          rw [take_inside hinside hquote]
          have hsame := hlonger true
          rw [← hinside] at hsame
          exact ⟨_, List.suffix_rfl, hsame⟩
  | false =>
      have hflush := hholds.flush hinside
      cases hword : c.isWordChar with
      | true =>
          rw [take_word hinside hword]
          refine ⟨_, List.suffix_rfl, by simp [hholds.buffer_eq], ?_, by simp⟩
          have hstart := hholds.start_eq
          cases held <;> simp_all [hholds.buffer_eq]
      | false =>
          cases hquote : c.isQuote with
          | true =>
              rw [take_opening hinside hquote]
              exact ⟨[c], List.suffix_append held [c], by simp [hflush.buffer_eq], rfl, by simp⟩
          | false =>
              refine ⟨[], List.nil_suffix, ?_⟩
              cases hblank : c.isBlank with
              | true => rwa [take_blank hinside hblank]
              | false =>
                  rw [take_symbol hinside hblank hquote hword]
                  exact ⟨hflush.buffer_eq, hflush.start_eq, hflush.of_inside⟩

theorem Holds.read (hholds : scanner.Holds held) (characters : List Located) :
    ∃ longer, longer <:+ held ++ characters ∧ (scanner.read characters).Holds longer := by
  induction characters generalizing scanner held with
  | nil => exact ⟨held, by simp, hholds⟩
  | cons c rest ih =>
      rcases hholds.take c with ⟨taken, htaken, hnext⟩
      rcases ih hnext with ⟨longer, hlonger, hread⟩
      refine ⟨longer, hlonger.trans ?_, hread⟩
      rcases htaken with ⟨before, hbefore⟩
      exact ⟨before, by rw [← List.append_assoc, hbefore, List.append_assoc]; rfl⟩

/-- Wherever a scanner stands, it holds the last characters that it has read. -/
theorem exists_holds (characters : List Located) :
    ∃ held, held <:+ characters ∧ (({} : Scanner).read characters).Holds held := by
  have hnothing : ({} : Scanner).Holds [] := ⟨rfl, rfl, by simp⟩
  exact hnothing.read characters

end Scanner

end JackTree
