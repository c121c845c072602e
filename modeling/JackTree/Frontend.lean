import JackTree.Markup
import JackTree.Parser

/-!
# From source text to syntax tree

The way of a source text through the stages: comments are dropped, what is left
is cut into tokens, and the tokens are read as one class.
-/

namespace JackTree

def lexSource (text : String) (options : LexerOptions := {}) :
    Except SyntaxError TokenStream :=
  match (Lexer.ofLines (cleanSource text.toList) options).tokenize with
  | .ok tokens => .ok (.ofTokens tokens)
  | .error error => .error (.ofLexError error)

def parseSource (text : String) (options : LexerOptions := {}) :
    Except SyntaxError (Node Token) :=
  (lexSource text options).bind TokenStream.parseClass

end JackTree
