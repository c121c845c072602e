import JackTree.Grammar.Run
import JackTree.IoError
import JackTree.Lexer

/-!
# Syntax errors

Why a source text has no syntax tree, where that was noticed, which rules were
open at that point and which tokens had not been read.
-/

namespace JackTree

open Text

namespace SyntaxError

inductive Cause where
  | mismatch (mismatch : Mismatch)
  | io (error : IoError)
  | lex (error : LexError)
  deriving DecidableEq, Repr

/-- The text that a token would have had to read, if there is only one. -/
def Cause.expected? : Cause → Option String
  | mismatch (.token expected _) => some expected
  | mismatch (.endOfInput expected) => expected
  | io _ => none
  | lex _ => none

def Cause.found? : Cause → Option Token
  | mismatch (.token _ found) => some found
  | _ => none

def Cause.message : Cause → String
  | mismatch (.token expected found) =>
    "expected " ++ quote expected ++ ", found " ++ quote found.lexeme
      ++ " (" ++ found.kind.tag ++ ")"
  | mismatch (.endOfInput none) => "unexpected end of input"
  | mismatch (.endOfInput (some expected)) =>
    "unexpected end of input, expected " ++ quote expected
  | io error => error.message
  | lex error => error.message

end SyntaxError

structure SyntaxError where
  cause : SyntaxError.Cause
  location : Option Span := none
  /-- The tokens that were not read, the one that did not fit first. -/
  remaining : List Token := []
  /-- The rules that were entered and not left, outermost first. -/
  stack : List Rule := []
  deriving DecidableEq, Repr

namespace SyntaxError

/-- An error of the lexer is located at the constant that never closes. -/
def ofLexError (error : LexError) : SyntaxError :=
  { cause := .lex error, location := some error.span }

def ofIoError (error : IoError) : SyntaxError :=
  { cause := .io error }

/-- How many of the remaining tokens a message shows. -/
def previewLength : Nat := 12

def stackText (stack : List Rule) : String :=
  if stack.isEmpty then ""
  else
    "\nnon terminal stack:\n" ++ String.join (stack.zipIdx.map fun (rule, index) =>
      "  " ++ Nat.repr index ++ ": " ++ rule.tag ++ "\n")

def remainingText (remaining : List Token) : String :=
  if remaining.isEmpty then ""
  else
    "remaining tokens (" ++ Nat.repr remaining.length ++ "): "
      ++ " ".intercalate ((remaining.take previewLength).map Token.lexeme)
      ++ (if previewLength < remaining.length then " ..." else "")

def message (error : SyntaxError) : String :=
  "syntax error: " ++ error.cause.message
    ++ (match error.location with
      | some span => " at " ++ span.toString
      | none => "")
    ++ stackText error.stack ++ remainingText error.remaining

end SyntaxError

end JackTree
