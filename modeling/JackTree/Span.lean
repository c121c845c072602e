/-!
# Spans

Where a piece of source text stands: its line and column, both counted from
one, and its length in characters.
-/

namespace JackTree

structure Span where
  line : Nat
  column : Nat
  length : Nat
  deriving DecidableEq, Repr, Inhabited

namespace Span

/-- The empty span directly behind a span. -/
def finish (span : Span) : Span :=
  ⟨span.line, span.column + span.length, 0⟩

def isEmpty (span : Span) : Bool :=
  span.length == 0

/-- A span is shown by its start. -/
def toString (span : Span) : String :=
  Nat.repr span.line ++ ":" ++ Nat.repr span.column

instance : ToString Span := ⟨toString⟩

/-- Spans are ordered by line, then by column, then by length. -/
def compare (a b : Span) : Ordering :=
  (Ord.compare a.line b.line).then
    ((Ord.compare a.column b.column).then (Ord.compare a.length b.length))

instance : Ord Span := ⟨compare⟩

end Span

end JackTree
