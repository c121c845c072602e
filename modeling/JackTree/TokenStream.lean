import JackTree.Token

/-!
# Token streams

A list of tokens and a position in it.  The tokens never change; reading moves
the position towards the end, and it can be set back.
-/

namespace JackTree

structure TokenStream where
  tokens : List Token
  position : Nat
  position_le : position ≤ tokens.length

namespace TokenStream

def ofTokens (tokens : List Token) : TokenStream :=
  ⟨tokens, 0, Nat.zero_le _⟩

/-- The stream at a position, or at the end if that comes first. -/
def moveTo (stream : TokenStream) (position : Nat) : TokenStream :=
  ⟨stream.tokens, min position stream.tokens.length, Nat.min_le_right ..⟩

def remaining (stream : TokenStream) : List Token :=
  stream.tokens.drop stream.position

/-- The next token, which stays unread. -/
def peek? (stream : TokenStream) : Option Token :=
  stream.tokens[stream.position]?

def advance (stream : TokenStream) : Option Token × TokenStream :=
  match stream.peek? with
  | some token => (some token, stream.moveTo (stream.position + 1))
  | none => (none, stream)

def take (stream : TokenStream) : Nat → List Token × TokenStream
  | 0 => ([], stream)
  | count + 1 =>
    match stream.advance with
    | (none, stream) => ([], stream)
    | (some token, next) =>
      let (tokens, last) := next.take count
      (token :: tokens, last)

def isExhausted (stream : TokenStream) : Bool :=
  stream.tokens.length ≤ stream.position

def isEmpty (stream : TokenStream) : Bool :=
  stream.tokens.isEmpty

/-- Streams agree when their tokens read alike one by one and their positions are the same. -/
def ReadsAs (a b : TokenStream) : Prop :=
  a.tokens.map Token.lexeme = b.tokens.map Token.lexeme ∧ a.position = b.position

instance (a b : TokenStream) : Decidable (ReadsAs a b) :=
  inferInstanceAs (Decidable (_ ∧ _))

def inspect (stream : TokenStream) : String :=
  "TokenStream[" ++ Nat.repr stream.tokens.length ++ "] at " ++ Nat.repr stream.position
    ++ " (" ++ " ".intercalate (stream.remaining.map Token.lexeme) ++ ")"

/-! ## What each operation does to the view -/

@[simp] theorem tokens_moveTo (stream : TokenStream) (position : Nat) :
    (stream.moveTo position).tokens = stream.tokens := rfl

@[simp] theorem position_moveTo (stream : TokenStream) (position : Nat) :
    (stream.moveTo position).position = min position stream.tokens.length := rfl

@[simp] theorem remaining_ofTokens (tokens : List Token) :
    (ofTokens tokens).remaining = tokens := rfl

theorem peek?_eq_head? (stream : TokenStream) : stream.peek? = stream.remaining.head? := by
  simp [peek?, remaining]

theorem isExhausted_iff (stream : TokenStream) :
    stream.isExhausted = true ↔ stream.remaining = [] := by
  simp [isExhausted, remaining, List.drop_eq_nil_iff]

end TokenStream

end JackTree
