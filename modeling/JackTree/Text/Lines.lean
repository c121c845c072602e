import JackTree.Text.Chars

/-!
# Lines of a text

A text is cut after every line feed.  The line itself is what stands before the
line feed, less one carriage return directly in front of it; a last line that
no line feed ends is kept as it is.
-/

namespace JackTree.Text

/-- Cuts a text after every line feed.  Joined again, the pieces are the text. -/
def pieces : List Char → List (List Char)
  | [] => []
  | c :: rest =>
    if c = '\n' then
      [c] :: pieces rest
    else
      match pieces rest with
      | [] => [[c]]
      | piece :: more => (c :: piece) :: more

theorem flatten_pieces (text : List Char) : (pieces text).flatten = text := by
  induction text with
  | nil => rfl
  | cons c rest ih =>
    unfold pieces
    split
    · simp [ih]
    · split
      · rename_i hnil
        simp [hnil] at ih
        simp [ih]
      · rename_i hcons
        rw [hcons] at ih
        simpa using ih

/-- A piece without its line feed and without one carriage return before that. -/
def withoutLineEnd (piece : List Char) : List Char :=
  if piece.getLast? = some '\n' then
    if piece.dropLast.getLast? = some '\r' then
      piece.dropLast.dropLast
    else
      piece.dropLast
  else
    piece

/-- The lines of a text; a final line feed starts no further line. -/
def lines (text : List Char) : List (List Char) :=
  (pieces text).map withoutLineEnd

def indentation (line : List Char) : Nat :=
  (line.takeWhile isBlank).length

/-- A line without the blanks at either end. -/
def trim (line : List Char) : List Char :=
  ((line.dropWhile isBlank).reverse.dropWhile isBlank).reverse

end JackTree.Text
