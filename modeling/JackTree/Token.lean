import JackTree.Keyword
import JackTree.Span
import JackTree.Text.Chars
import JackTree.Text.Entities
import JackTree.Text.Quoted

/-!
# Tokens

A token is a piece of source text together with its place.  Its kind is not
stored: it is read off the text, so that equal texts always have equal kinds.
-/

namespace JackTree

open Text

inductive TokenKind where
  | keyword (word : Keyword)
  | symbol
  | identifier
  | integerConstant
  | stringConstant
  deriving DecidableEq, Repr

namespace TokenKind

/-- The name of a kind in documents and messages. -/
def tag : TokenKind → String
  | keyword _ => "keyword"
  | symbol => "symbol"
  | identifier => "identifier"
  | integerConstant => "integerConstant"
  | stringConstant => "stringConstant"

/-- The full name of a kind, keywords told apart. -/
def name : TokenKind → String
  | keyword word => "Keyword(" ++ word.name ++ ")"
  | symbol => "Symbol"
  | identifier => "Identifier"
  | integerConstant => "IntegerConstant"
  | stringConstant => "StringConstant"

end TokenKind

/-! ## Kinds of texts -/

/-- One digit or more, and nothing else. -/
def isIntegerText (text : List Char) : Bool :=
  !text.isEmpty && text.all Char.isDigit

/-- A quotation mark, characters that are none, and a quotation mark. -/
def isStringText : List Char → Bool
  | [] => false
  | first :: rest =>
    first == quoteMark && rest.getLast? == some quoteMark && !rest.dropLast.contains quoteMark

/-- Word characters of which the first is no digit. -/
def isIdentifierText : List Char → Bool
  | [] => false
  | first :: rest => !first.isDigit && (first :: rest).all isWordChar

/-- The kind of a text.  What is nothing else is a symbol. -/
def TokenKind.ofText (text : String) : TokenKind :=
  match Keyword.ofSpelling? text with
  | some word => .keyword word
  | none =>
    if isIntegerText text.toList then .integerConstant
    else if isStringText text.toList then .stringConstant
    else if isIdentifierText text.toList then .identifier
    else .symbol

/-! ## Tokens -/

structure Token where
  lexeme : String
  span : Span
  deriving DecidableEq, Repr, Inhabited

namespace Token

def kind (token : Token) : TokenKind :=
  .ofText token.lexeme

def keyword? (token : Token) : Option Keyword :=
  match token.kind with
  | .keyword word => some word
  | _ => none

/-- The text that a token stands for: a string constant loses its quotation marks. -/
def value (token : Token) : String :=
  match token.kind with
  | .stringConstant => String.ofList token.lexeme.toList.tail.dropLast
  | _ => token.lexeme

/-- The value as documents show it.  Only symbols are escaped. -/
def rendered (token : Token) : String :=
  match token.kind with
  | .symbol => escape token.lexeme
  | _ => token.value

def inspect (token : Token) : String :=
  token.kind.name ++ "(" ++ quote token.lexeme ++ ")@" ++ token.span.toString

/-- Two tokens read alike when their texts are the same, wherever they stand. -/
def ReadsAs (a b : Token) : Prop :=
  a.lexeme = b.lexeme

instance (a b : Token) : Decidable (ReadsAs a b) :=
  inferInstanceAs (Decidable (a.lexeme = b.lexeme))

end Token

end JackTree
