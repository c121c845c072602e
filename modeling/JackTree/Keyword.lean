/-!
# Keywords

The reserved words of the Jack language.
-/

namespace JackTree

inductive Keyword where
  | class_ | constructor_ | function_ | method_ | field_ | static_ | var_
  | int_ | char_ | boolean_ | void_ | true_ | false_ | null_ | this_
  | let_ | do_ | if_ | else_ | while_ | return_
  deriving DecidableEq, Repr

namespace Keyword

def spelling : Keyword → String
  | class_ => "class"
  | constructor_ => "constructor"
  | function_ => "function"
  | method_ => "method"
  | field_ => "field"
  | static_ => "static"
  | var_ => "var"
  | int_ => "int"
  | char_ => "char"
  | boolean_ => "boolean"
  | void_ => "void"
  | true_ => "true"
  | false_ => "false"
  | null_ => "null"
  | this_ => "this"
  | let_ => "let"
  | do_ => "do"
  | if_ => "if"
  | else_ => "else"
  | while_ => "while"
  | return_ => "return"

/-- The name under which a keyword is listed: its spelling with a capital. -/
def name (keyword : Keyword) : String :=
  keyword.spelling.capitalize

/-- Every keyword, once. -/
def all : List Keyword :=
  [class_, constructor_, function_, method_, field_, static_, var_,
    int_, char_, boolean_, void_, true_, false_, null_, this_,
    let_, do_, if_, else_, while_, return_]

theorem mem_all (keyword : Keyword) : keyword ∈ all := by
  cases keyword <;> decide

def ofSpelling? (word : String) : Option Keyword :=
  all.find? fun keyword => keyword.spelling == word

theorem ofSpelling?_spelling (keyword : Keyword) :
    ofSpelling? keyword.spelling = some keyword := by
  cases keyword <;> decide

theorem spelling_of_ofSpelling? {word : String} {keyword : Keyword}
    (hfound : ofSpelling? word = some keyword) : keyword.spelling = word := by
  simpa using List.find?_some hfound

def startsStatement : Keyword → Bool
  | let_ | do_ | if_ | while_ | return_ => true
  | _ => false

end Keyword

end JackTree
