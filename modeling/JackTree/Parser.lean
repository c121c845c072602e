import JackTree.Grammar.Progress
import JackTree.SyntaxError
import JackTree.TokenStream

/-!
# Parsers

A parser reads a token stream by one rule after another and remembers the rules
in which it stopped.  After an error it can go on: what was read stays read, and
the rules of the failed attempt stay open.
-/

namespace JackTree

structure Parser where
  stream : TokenStream
  /-- The rules that were entered and not left, outermost first. -/
  stack : List Rule := []

namespace Parser

def ofStream (stream : TokenStream) : Parser :=
  { stream }

/-- Where reading has come to: the next token, or the place behind the last one. -/
def location (stream : TokenStream) : Option Span :=
  match stream.peek? with
  | some token => some token.span
  | none => stream.tokens.getLast?.map fun token => token.span.finish

/-- The stream when only `rest` of its tokens is left. -/
def leave (stream : TokenStream) (rest : List Token) : TokenStream :=
  stream.moveTo (stream.position + (stream.remaining.length - rest.length))

def fail {α : Type} (parser : Parser) (failure : Failure) : Except SyntaxError α × Parser :=
  let stream := leave parser.stream failure.rest
  let stack := parser.stack ++ failure.path
  (.error ⟨.mismatch failure.mismatch, location stream, stream.remaining, stack⟩,
    ⟨stream, stack⟩)

def parse (parser : Parser) (rule : Rule) : Except SyntaxError (Node Token) × Parser :=
  match rule.parse parser.stream.remaining with
  | .read children rest =>
    (.ok ⟨rule, children⟩, { parser with stream := leave parser.stream rest })
  | .stopped failure => parser.fail failure

/-- Reads a node of the statement rule that the next token selects. -/
def parseStatement (parser : Parser) : Except SyntaxError (Node Token) × Parser :=
  match statementRule? parser.stream.remaining with
  | some rule => parser.parse rule
  | none => parser.fail (.expecting "statement" parser.stream.remaining)

end Parser

def TokenStream.parseClass (stream : TokenStream) : Except SyntaxError (Node Token) :=
  ((Parser.ofStream stream).parse .classDec).1

end JackTree
