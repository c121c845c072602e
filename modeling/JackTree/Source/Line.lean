import JackTree.Source.Segment
import JackTree.Text.Lines

/-!
# Source lines

What is left of a source text once its comments are blanked: its non-blank
lines, trimmed, each with its number and with the indentation it had.
-/

namespace JackTree

open Text

/-- Every character but a line feed becomes a space. -/
def blankOut (text : List Char) : List Char :=
  text.map fun c => if c = '\n' then c else ' '

/-- A segment without what it says, if it is a comment. -/
def Segment.stripped : Segment → List Char
  | .code text => text
  | .comment text => blankOut text
  | .literal text => text

/-- A source text with its comments blanked out.  No character moves. -/
def stripComments (text : List Char) : List Char :=
  (segments text).flatMap Segment.stripped

structure SourceLine where
  number : Nat
  indent : Nat
  text : List Char
  deriving DecidableEq, Repr

namespace SourceLine

/-- A line as it stands, with no indentation taken off. -/
def plain (number : Nat) (text : List Char) : SourceLine :=
  ⟨number, 0, text⟩

def trimmed (number : Nat) (text : List Char) : SourceLine :=
  ⟨number, indentation text, trim text⟩

def plainLines (texts : List (List Char)) : List SourceLine :=
  texts.zipIdx.map fun (text, index) => plain (index + 1) text

end SourceLine

/-- The lines of a source text that hold code. -/
def cleanSource (text : List Char) : List SourceLine :=
  ((lines (stripComments text)).zipIdx.map fun (line, index) =>
    SourceLine.trimmed (index + 1) line).filter fun line => !line.text.isEmpty

/-! ## Comments are blanked in place -/

theorem length_blankOut (text : List Char) : (blankOut text).length = text.length := by
  simp [blankOut]

theorem Segment.length_stripped (segment : Segment) :
    segment.stripped.length = segment.text.length := by
  cases segment <;> simp [stripped, text, length_blankOut]

theorem length_stripComments (text : List Char) :
    (stripComments text).length = text.length := by
  have hparts : ∀ parts : List Segment,
      (parts.flatMap Segment.stripped).length = (parts.flatMap Segment.text).length := by
    intro parts
    induction parts with
    | nil => rfl
    | cons part parts ih => simp [Segment.length_stripped, ih]
  rw [stripComments, hparts, flatMap_text_segments]

end JackTree
