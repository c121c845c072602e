import JackTree.Token
import JackTree.Tree

/-!
# Productions

A production says what stands below a node: tokens, further nodes, optional
parts, repetitions and choices.  Which way to go is decided by a guard, which
looks at the tokens that are left and reads none of them.
-/

namespace JackTree

/-! ## Guards -/

inductive Guard where
  /-- The next token is one of these. -/
  | next (lexemes : List String)
  /-- The next token, if there is one, is not this. -/
  | notNext (lexeme : String)
  /-- The next token is a keyword that starts a statement. -/
  | statementNext
  /-- More than one token is left. -/
  | beforeLast
  deriving DecidableEq, Repr

/-- The next token is a keyword that starts a statement. -/
def startsStatement (tokens : List Token) : Bool :=
  match tokens.head?.bind Token.keyword? with
  | some keyword => keyword.startsStatement
  | none => false

def Guard.holds (guard : Guard) (tokens : List Token) : Bool :=
  match guard with
  | next lexemes => tokens.head?.any fun token => lexemes.contains token.lexeme
  | notNext lexeme => tokens.head?.all fun token => token.lexeme != lexeme
  | statementNext => startsStatement tokens
  | beforeLast => 1 < tokens.length

/-! ## Productions -/

inductive Production where
  | done
  /-- A token that reads `lexeme`. -/
  | word (lexeme : String) (after : Production)
  | any (after : Production)
  | rule (rule : Rule) (after : Production)
  /-- A node of the statement rule that the next token selects. -/
  | statement (after : Production)
  /-- A part that stands there if the guard holds. -/
  | optional (guard : Guard) (body after : Production)
  /-- A part that stands there again and again while the guard holds. -/
  | repeated (guard : Guard) (body after : Production)
  /-- The first part if the guard holds, else the second. -/
  | choice (guard : Guard) (yes no : Production)
  deriving DecidableEq, Repr

def Keyword.statementRule? : Keyword → Option Rule
  | let_ => some .letStatement
  | if_ => some .ifStatement
  | while_ => some .whileStatement
  | do_ => some .doStatement
  | return_ => some .returnStatement
  | _ => none

/-- The rule of the statement that the next token selects. -/
def statementRule? (tokens : List Token) : Option Rule :=
  (tokens.head?.bind Token.keyword?).bind Keyword.statementRule?

theorem isSome_statementRule? (tokens : List Token) :
    (statementRule? tokens).isSome = startsStatement tokens := by
  unfold statementRule? startsStatement
  cases tokens.head?.bind Token.keyword? with
  | none => rfl
  | some keyword => cases keyword <;> rfl

end JackTree
