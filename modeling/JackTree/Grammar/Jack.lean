import JackTree.Grammar.Production

/-!
# The grammar of a Jack class

The production of every rule.  Names, types and operands are any one token:
which way a production goes is settled by delimiters and keywords alone.
-/

namespace JackTree

open Production

def binaryOperators : List String :=
  ["+", "-", "*", "/", "&", "|", "<", ">", "="]

def unaryOperators : List String :=
  ["-", "~"]

def openBrace : String := "\x7b"

def closeBrace : String := "\x7d"

namespace Production

/-- One name after another, with commas between them. -/
def moreNames (after : Production) : Production :=
  repeated (.next [","]) (word "," (any done)) after

/-- `(` expressionList `)` -/
def arguments (after : Production) : Production :=
  word "(" (rule .expressionList (word ")" after))

/-- `(` expression `)` -/
def condition (after : Production) : Production :=
  word "(" (rule .expression (word ")" after))

/-- `[` expression `]`, or nothing -/
def optionalIndex (after : Production) : Production :=
  optional (.next ["["]) (word "[" (rule .expression (word "]" done))) after

/-- The statements of a block between its braces. -/
def block (after : Production) : Production :=
  word openBrace (rule .statements (word closeBrace after))

/-- What makes a name a call.  A plain argument list and a qualified one are looked
for one after the other. -/
def callSuffix (after : Production) : Production :=
  optional (.next ["("]) (arguments done)
    (optional (.next ["."]) (word "." (any (arguments done))) after)

end Production

namespace Rule

def production : Rule → Production
  | classDec =>
    word "class" <| any <| word openBrace <|
    repeated (.next ["static", "field"]) (rule .classVarDec done) <|
    repeated .beforeLast (rule .subroutineDec done) <|
    word closeBrace done
  | classVarDec =>
    any <| any <| any <| moreNames <| word ";" done
  | subroutineDec =>
    any <| any <| any <| word "(" <| rule .parameterList <| word ")" <|
    rule .subroutineBody done
  | parameterList =>
    optional (.notNext ")") (any (any done)) <|
    repeated (.next [","]) (word "," (any (any done))) done
  | subroutineBody =>
    word openBrace <| repeated (.next ["var"]) (rule .varDec done) <|
    rule .statements <| word closeBrace done
  | varDec =>
    word "var" <| any <| any <| moreNames <| word ";" done
  | statements =>
    repeated .statementNext (statement done) done
  | letStatement =>
    word "let" <| any <| optionalIndex <| word "=" <| rule .expression <| word ";" done
  | ifStatement =>
    word "if" <| condition <| block <|
    optional (.next ["else"]) (word "else" (block done)) done
  | whileStatement =>
    word "while" <| condition <| block done
  | doStatement =>
    word "do" <| any <| callSuffix <| word ";" done
  | returnStatement =>
    word "return" <| optional (.notNext ";") (rule .expression done) <| word ";" done
  | expression =>
    rule .term <| repeated (.next binaryOperators) (any (rule .term done)) done
  | term =>
    choice (.next ["("]) (word "(" <| rule .expression <| word ")" done) <|
    choice (.next unaryOperators) (any <| rule .term done) <|
    any <| optionalIndex <| callSuffix done
  | expressionList =>
    repeated (.notNext ")")
      (rule .expression (optional (.next [","]) (word "," done) done)) done

end Rule

end JackTree
