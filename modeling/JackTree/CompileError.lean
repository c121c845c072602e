import JackTree.Path
import JackTree.SyntaxError

/-!
# Compile errors

What can keep a source from being compiled, and several such errors together.
-/

namespace JackTree

open Text

inductive CompileError where
  | io (error : IoError) (source : Option Path)
  | parse (error : SyntaxError) (source : Option Path)
  | noSources (source : Option Path)
  /-- A document is already written by another source. -/
  | outputConflict (output other : Path) (source : Option Path)
  | multiple (errors : List CompileError) (source : Option Path)

namespace CompileError

def source? : CompileError → Option Path
  | io _ source => source
  | parse _ source => source
  | noSources source => source
  | outputConflict _ _ source => source
  | multiple _ source => source

/-- What a message starts with: the path that the error is about. -/
def heading (source : Option Path) : String :=
  match source with
  | some path => path.toString ++ ": "
  | none => ""

mutual

def message : CompileError → String
  | io error source => heading source ++ error.message
  | parse error source => heading source ++ error.message
  | noSources source => heading source ++ "no jack sources found"
  | outputConflict output other source =>
    heading source ++ quote output.toString ++ " is already written by " ++ quote other.toString
  | multiple errors source => heading source ++ "\n".intercalate (messages errors)

def messages : List CompileError → List String
  | [] => []
  | error :: rest => error.message :: messages rest

end

mutual

def flatten : CompileError → List CompileError
  | multiple errors _ => flattenAll errors
  | error => [error]

def flattenAll : List CompileError → List CompileError
  | [] => []
  | error :: rest => error.flatten ++ flattenAll rest

end

end CompileError

end JackTree
