import JackTree.Text.Chars

/-!
# Segments of source text

Read from left to right, source text falls into code, comments and literals.
Inside a comment no literal opens and inside a literal no comment opens.
-/

namespace JackTree

open Text

/-- A stretch of source text of one nature, its delimiters included. -/
inductive Segment where
  | code (text : List Char)
  | comment (text : List Char)
  | literal (text : List Char)
  deriving DecidableEq, Repr

namespace Segment

def text : Segment → List Char
  | code text => text
  | comment text => text
  | literal text => text

/-- A line comment reaches to the end of its line, the line feed excluded. -/
def lineComment (rest : List Char) : List Char × List Char :=
  (rest.takeWhile (· != '\n'), rest.dropWhile (· != '\n'))

/-- A block comment reaches through the next `*/`, or to the end of the text. -/
def blockComment : List Char → List Char × List Char
  | '*' :: '/' :: rest => (['*', '/'], rest)
  | c :: rest =>
    let (body, after) := blockComment rest
    (c :: body, after)
  | [] => ([], [])

/-- A literal reaches through the next quotation mark, or to the end of its line. -/
def literalBody : List Char → List Char × List Char
  | [] => ([], [])
  | c :: rest =>
    if c = quoteMark then ([c], rest)
    else if c = '\n' then ([], c :: rest)
    else
      let (body, after) := literalBody rest
      (c :: body, after)

/-- Whether a character can open nothing but code. -/
def isPlain (c : Char) : Bool :=
  c != quoteMark && c != '/'

/-- The first segment of the text `first :: rest`, and what follows it. -/
def read (first : Char) (rest : List Char) : Segment × List Char :=
  if first = quoteMark then
    let (body, after) := literalBody rest
    (literal (first :: body), after)
  else if first = '/' then
    match rest with
    | '/' :: tail =>
      let (body, after) := lineComment tail
      (comment ('/' :: '/' :: body), after)
    | '*' :: tail =>
      let (body, after) := blockComment tail
      (comment ('/' :: '*' :: body), after)
    | _ => (code ['/'], rest)
  else
    (code (first :: rest.takeWhile isPlain), rest.dropWhile isPlain)

/-! ## Nothing is lost -/

theorem blockComment_append (text : List Char) :
    (blockComment text).1 ++ (blockComment text).2 = text := by
  fun_induction blockComment text with
  | case1 => rfl
  | case2 c rest hclose body after hrec ih =>
    rw [hrec] at ih
    simp [ih]
  | case3 => rfl

theorem literalBody_append (text : List Char) :
    (literalBody text).1 ++ (literalBody text).2 = text := by
  fun_induction literalBody text with
  | case1 => rfl
  | case2 => rfl
  | case3 => rfl
  | case4 c rest hquote hnewline body after hrec ih =>
    rw [hrec] at ih
    simp [ih]

theorem read_append (first : Char) (rest : List Char) :
    (read first rest).1.text ++ (read first rest).2 = first :: rest := by
  unfold read
  split
  · simp [text, literalBody_append]
  · split
    · rename_i hslash
      subst hslash
      split
      · simp [text, lineComment, List.takeWhile_append_dropWhile]
      · simp [text, blockComment_append]
      · rfl
    · simp [text, List.takeWhile_append_dropWhile]

theorem text_read_ne_nil (first : Char) (rest : List Char) :
    (read first rest).1.text ≠ [] := by
  unfold read
  split
  · simp [text]
  · split
    · split <;> simp [text]
    · simp [text]

theorem length_read (first : Char) (rest : List Char) :
    (read first rest).2.length ≤ rest.length := by
  have hlength := congrArg List.length (read_append first rest)
  have hpos := List.length_pos_iff.mpr (text_read_ne_nil first rest)
  simp only [List.length_append, List.length_cons] at hlength
  omega

end Segment

def segments : List Char → List Segment
  | [] => []
  | first :: rest => (Segment.read first rest).1 :: segments (Segment.read first rest).2
termination_by text => text.length
decreasing_by
  have := Segment.length_read first rest
  simp only [List.length_cons]
  omega

theorem flatMap_text_segments (text : List Char) :
    (segments text).flatMap Segment.text = text := by
  fun_induction segments text with
  | case1 => rfl
  | case2 first rest ih => simp [ih, Segment.read_append]

end JackTree
