import JackTree.Source.Line
import JackTree.Token

/-!
# Lexer

The lexer reads the characters of some source lines, each line closed by a
space, and cuts them into tokens: the longest words, string constants with
their quotation marks, and all other characters one by one.  Blanks separate.
A string constant may run over several lines; one that never closes is an error
or is dropped, as the options say.
-/

namespace JackTree

open Text

structure LexerOptions where
  /-- Whether a string constant that never closes is an error. -/
  strictStrings : Bool := false
  deriving DecidableEq, Repr, Inhabited

inductive LexError where
  | unterminatedString (span : Span)
  deriving DecidableEq, Repr

namespace LexError

def span : LexError → Span
  | unterminatedString span => span

def message : LexError → String
  | unterminatedString span =>
    "unterminated string literal starting at " ++ span.toString

end LexError

structure Located where
  char : Char
  line : Nat
  column : Nat
  deriving DecidableEq, Repr

/-- The characters of a line with their places, closed by a space. -/
def SourceLine.located (line : SourceLine) : List Located :=
  (line.text ++ [' ']).zipIdx.map fun (c, offset) =>
    ⟨c, line.number, line.indent + 1 + offset⟩

namespace Located

def isBlank (c : Located) : Bool := Text.isBlank c.char

def isWordChar (c : Located) : Bool := Text.isWordChar c.char

def isQuote (c : Located) : Bool := c.char == quoteMark

/-- The span that starts at a character and is as long as some characters. -/
def spanOver (first : Located) (characters : List Located) : Span :=
  ⟨first.line, first.column, characters.length⟩

/-- The token that starts at `first` and goes on with `rest`. -/
def token (first : Located) (rest : List Located) : Token :=
  ⟨String.ofList ((first :: rest).map char), first.spanOver (first :: rest)⟩

end Located

/-! ## One token -/

/-- What stands before and after the next quotation mark, the mark itself counted
with what stands before it. -/
def throughQuote? : List Located → Option (List Located × List Located)
  | [] => none
  | c :: rest =>
    if c.isQuote then some ([c], rest)
    else (throughQuote? rest).map fun (body, after) => (c :: body, after)

inductive Scan where
  | finished
  | token (token : Token) (rest : List Located)
  | unterminated (span : Span)
  deriving DecidableEq, Repr

/-- Skips blanks and reads one token. -/
def scan : List Located → Scan
  | [] => .finished
  | c :: rest =>
    if c.isBlank then
      scan rest
    else if c.isQuote then
      match throughQuote? rest with
      | some (body, after) => .token (c.token body) after
      | none => .unterminated (c.spanOver (c :: rest))
    else if c.isWordChar then
      .token (c.token (rest.takeWhile Located.isWordChar)) (rest.dropWhile Located.isWordChar)
    else
      .token (c.token []) rest

theorem throughQuote?_append {input body after : List Located}
    (hclose : throughQuote? input = some (body, after)) : body ++ after = input := by
  induction input generalizing body with
  | nil => simp [throughQuote?] at hclose
  | cons c rest ih =>
    unfold throughQuote? at hclose
    split at hclose
    · simp only [Option.some.injEq, Prod.mk.injEq] at hclose
      obtain ⟨rfl, rfl⟩ := hclose
      rfl
    · simp only [Option.map_eq_some_iff, Prod.mk.injEq, Prod.exists] at hclose
      obtain ⟨tail, _, htail, rfl, rfl⟩ := hclose
      simp [ih htail]

theorem length_rest_of_scan {input rest : List Located} {token : Token}
    (hscan : scan input = .token token rest) : rest.length < input.length := by
  induction input with
  | nil => simp [scan] at hscan
  | cons c tail ih =>
    unfold scan at hscan
    split at hscan
    · have := ih hscan
      simp only [List.length_cons]
      omega
    · split at hscan
      · split at hscan
        · rename_i body after hclose
          simp only [Scan.token.injEq] at hscan
          obtain ⟨_, rfl⟩ := hscan
          have := congrArg List.length (throughQuote?_append hclose)
          simp only [List.length_append, List.length_cons] at this ⊢
          omega
        · simp at hscan
      · split at hscan
        · simp only [Scan.token.injEq] at hscan
          obtain ⟨_, rfl⟩ := hscan
          have := (List.dropWhile_sublist Located.isWordChar (l := tail)).length_le
          simp only [List.length_cons]
          omega
        · simp only [Scan.token.injEq] at hscan
          obtain ⟨_, rfl⟩ := hscan
          simp

/-! ## Lexers -/

structure Lexer where
  input : List Located
  options : LexerOptions := {}
  deriving DecidableEq, Repr

namespace Lexer

def ofLines (lines : List SourceLine) (options : LexerOptions := {}) : Lexer :=
  ⟨lines.flatMap SourceLine.located, options⟩

/-- The next token or error, if there is one, and the lexer after it.
After an error there is nothing more to read. -/
def next (lexer : Lexer) : Option (Except LexError Token) × Lexer :=
  match scan lexer.input with
  | .finished => (none, ⟨[], lexer.options⟩)
  | .token token rest => (some (.ok token), ⟨rest, lexer.options⟩)
  | .unterminated span =>
    if lexer.options.strictStrings then
      (some (.error (.unterminatedString span)), ⟨[], lexer.options⟩)
    else
      (none, ⟨[], lexer.options⟩)

theorem length_input_of_next {lexer later : Lexer} {token : Token}
    (hnext : lexer.next = (some (.ok token), later)) :
    later.input.length < lexer.input.length := by
  unfold next at hnext
  split at hnext
  · simp at hnext
  · rename_i rest hscan
    simp only [Prod.mk.injEq, Option.some.injEq, Except.ok.injEq] at hnext
    obtain ⟨rfl, rfl⟩ := hnext
    exact length_rest_of_scan hscan
  · split at hnext <;> simp at hnext

def tokenize (lexer : Lexer) : Except LexError (List Token) :=
  match _hnext : lexer.next with
  | (none, _) => .ok []
  | (some (.error error), _) => .error error
  | (some (.ok token), later) => later.tokenize.map (token :: ·)
termination_by lexer.input.length
decreasing_by exact length_input_of_next _hnext

end Lexer

end JackTree
