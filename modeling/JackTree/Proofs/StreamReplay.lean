import JackTree.TokenStream

/-!
# Replaying a token stream

A token stream keeps its position inside of its tokens by its type.  A cursor makes no such
promise: it is a list and a number, and the list is read and sliced at whatever number there
is.  `Cursor.perform_eq` says what a call does to a cursor that is inside, so that no call
leads out, and `consumption_is_replayable` what this means for any row of calls.
-/

namespace JackTree

/-! ## Cursors -/

structure Cursor where
  tokens : List Token
  position : Nat

namespace Cursor

def ofTokens (tokens : List Token) : Cursor :=
  ⟨tokens, 0⟩

def ofStream (stream : TokenStream) : Cursor :=
  ⟨stream.tokens, stream.position⟩

def peek? (cursor : Cursor) : Option Token :=
  cursor.tokens[cursor.position]?

def advance (cursor : Cursor) : Option Token × Cursor :=
  match cursor.tokens[cursor.position]? with
  | none => (none, cursor)
  | some token => (some token, { cursor with position := cursor.position + 1 })

/-- The tokens from the position on, which can only be asked for inside of the list. -/
def slice? (cursor : Cursor) : Option (List Token) :=
  if cursor.position ≤ cursor.tokens.length then some (cursor.tokens.drop cursor.position)
  else none

def isExhausted (cursor : Cursor) : Bool :=
  cursor.tokens.length ≤ cursor.position

def rewind (cursor : Cursor) (position : Nat) : Cursor :=
  { cursor with position := min position cursor.tokens.length }

/-- Advances so many times, or until there is no token. -/
def take (cursor : Cursor) : Nat → List Token × Cursor
  | 0 => ([], cursor)
  | count + 1 =>
    match cursor.advance with
    | (none, cursor) => ([], cursor)
    | (some token, next) =>
      let (tokens, last) := next.take count
      (token :: tokens, last)

end Cursor

/-! ## Calls -/

inductive StreamCall where
  | advance
  | next
  | take (count : Nat)
  | rewind (position : Nat)

inductive StreamAnswer where
  | token (token? : Option Token)
  | tokens (tokens : List Token)
  | done

/-- What a row of calls answers, and what it leaves. -/
def answersTo {σ : Type} (perform : σ → StreamCall → StreamAnswer × σ) (state : σ) :
    List StreamCall → List StreamAnswer × σ
  | [] => ([], state)
  | call :: rest =>
    let (answer, state) := perform state call
    let (answers, state) := answersTo perform state rest
    (answer :: answers, state)

def Cursor.perform (cursor : Cursor) : StreamCall → StreamAnswer × Cursor
  | .advance => (.token cursor.advance.1, cursor.advance.2)
  | .next => (.token cursor.advance.1, cursor.advance.2)
  | .take count => (.tokens (cursor.take count).1, (cursor.take count).2)
  | .rewind position => (.done, cursor.rewind position)

def TokenStream.perform (stream : TokenStream) : StreamCall → StreamAnswer × TokenStream
  | .advance => (.token stream.advance.1, stream.advance.2)
  | .next => (.token stream.advance.1, stream.advance.2)
  | .take count => (.tokens (stream.take count).1, (stream.take count).2)
  | .rewind position => (.done, stream.moveTo position)

theorem answersTo_append {σ : Type} (perform : σ → StreamCall → StreamAnswer × σ) (state : σ)
    (calls more : List StreamCall) :
    answersTo perform state (calls ++ more) =
      ((answersTo perform state calls).1
          ++ (answersTo perform (answersTo perform state calls).2 more).1,
        (answersTo perform (answersTo perform state calls).2 more).2) := by
  induction calls generalizing state with
  | nil => rfl
  | cons call rest ih => simp only [List.cons_append, answersTo, ih]

namespace Cursor

variable {cursor : Cursor}

/-! ## Inside of the tokens -/

def InRange (cursor : Cursor) : Prop :=
  cursor.position ≤ cursor.tokens.length

/-- The same tokens, so many of them behind. -/
def ahead (cursor : Cursor) (count : Nat) : Cursor :=
  ⟨cursor.tokens, min (cursor.position + count) cursor.tokens.length⟩

theorem InRange.ahead_zero (hrange : cursor.InRange) : cursor.ahead 0 = cursor := by
  rw [ahead, Nat.add_zero, Nat.min_eq_left hrange]

theorem inRange_ahead (cursor : Cursor) (count : Nat) : (cursor.ahead count).InRange :=
  Nat.min_le_right _ _

theorem ahead_ahead (cursor : Cursor) (count more : Nat) :
    (cursor.ahead count).ahead more = cursor.ahead (count + more) := by
  simp only [ahead, mk.injEq, true_and]
  omega

theorem InRange.advance_eq (hrange : cursor.InRange) :
    cursor.advance = (cursor.peek?, cursor.ahead 1) := by
  unfold advance peek? ahead
  unfold InRange at hrange
  cases hread : cursor.tokens[cursor.position]? with
  | none =>
      have hend := List.getElem?_eq_none_iff.mp hread
      rw [Nat.min_eq_right (Nat.le_succ_of_le hend), Nat.le_antisymm hend hrange]
  | some token =>
      obtain ⟨hlt, -⟩ := List.getElem?_eq_some_iff.mp hread
      rw [Nat.min_eq_left hlt]

theorem peek?_ahead (cursor : Cursor) (count : Nat) :
    (cursor.ahead count).peek? = cursor.tokens[cursor.position + count]? := by
  unfold peek? ahead
  by_cases hinside : cursor.position + count ≤ cursor.tokens.length
  · rw [Nat.min_eq_left hinside]
  · rw [List.getElem?_eq_none (by simp only; omega), List.getElem?_eq_none (by omega)]

theorem InRange.take_eq (hrange : cursor.InRange) (count : Nat) :
    cursor.take count =
      ((cursor.tokens.drop cursor.position).take count, cursor.ahead count) := by
  induction count generalizing cursor with
  | zero => rw [take, hrange.ahead_zero, List.take_zero]
  | succ count ih =>
      rw [take, hrange.advance_eq]
      cases hpeek : cursor.peek? with
      | none =>
          have hend := List.getElem?_eq_none_iff.mp hpeek
          have hahead : cursor.ahead 1 = cursor.ahead (count + 1) := by
            simp only [ahead, mk.injEq, true_and]
            omega
          simp only [List.drop_eq_nil_of_le hend, List.take_nil, hahead]
      | some token =>
          obtain ⟨hlt, rfl⟩ := List.getElem?_eq_some_iff.mp hpeek
          have hnext : (cursor.ahead 1).position = cursor.position + 1 := Nat.min_eq_left hlt
          simp only [ih (inRange_ahead cursor 1), ahead_ahead, hnext, Nat.add_comm 1 count]
          rw [List.drop_eq_getElem_cons hlt, List.take_succ_cons]
          rfl

/-- What a call answers and leaves, inside of the tokens. -/
theorem perform_eq (hrange : cursor.InRange) (call : StreamCall) :
    cursor.perform call =
      match call with
      | .advance | .next => (.token cursor.peek?, cursor.ahead 1)
      | .take count =>
          (.tokens ((cursor.tokens.drop cursor.position).take count), cursor.ahead count)
      | .rewind position => (.done, cursor.rewind position) := by
  cases call with
  | advance => rw [perform, hrange.advance_eq]
  | next => rw [perform, hrange.advance_eq]
  | take count => rw [perform, hrange.take_eq]
  | rewind position => rfl

theorem InRange.perform (hrange : cursor.InRange) (call : StreamCall) :
    (cursor.perform call).2.tokens = cursor.tokens ∧ (cursor.perform call).2.InRange := by
  rw [perform_eq hrange]
  cases call with
  | advance => exact ⟨rfl, inRange_ahead cursor 1⟩
  | next => exact ⟨rfl, inRange_ahead cursor 1⟩
  | take count => exact ⟨rfl, inRange_ahead cursor count⟩
  | rewind position => exact ⟨rfl, Nat.min_le_right _ _⟩

/-- No row of calls changes the tokens or leads out of them. -/
theorem InRange.answersTo (hrange : cursor.InRange) (calls : List StreamCall) :
    (answersTo Cursor.perform cursor calls).2.tokens = cursor.tokens ∧
      (answersTo Cursor.perform cursor calls).2.InRange := by
  induction calls generalizing cursor with
  | nil => exact ⟨rfl, hrange⟩
  | cons call rest ih =>
      obtain ⟨htokens, hnext⟩ := hrange.perform call
      obtain ⟨hlast, hinside⟩ := ih hnext
      exact ⟨hlast.trans htokens, hinside⟩

theorem InRange.slice?_eq (hrange : cursor.InRange) :
    cursor.slice? = some (cursor.tokens.drop cursor.position) :=
  if_pos hrange

/-! ## Reading on, and again -/

theorem InRange.answersTo_replicate (hrange : cursor.InRange) (count : Nat) :
    JackTree.answersTo Cursor.perform cursor (List.replicate count .advance) =
      ((List.range count).map fun k => .token cursor.tokens[cursor.position + k]?,
        cursor.ahead count) := by
  induction count generalizing cursor with
  | zero => rw [hrange.ahead_zero]; rfl
  | succ count ih =>
      have hlater : ∀ k, (cursor.ahead 1).tokens[(cursor.ahead 1).position + k]? =
          cursor.tokens[cursor.position + (k + 1)]? := by
        intro k
        rw [← Nat.add_comm 1 k, ← peek?_ahead, ← peek?_ahead, ahead_ahead]
      rw [List.replicate_succ, JackTree.answersTo, perform_eq hrange, List.range_succ_eq_map]
      simp only [ih (inRange_ahead cursor 1), hlater, ahead_ahead, Nat.add_comm 1 count,
        List.map_cons, List.map_map]
      rfl

/-- Whatever is done with the tokens, back at a position inside of them all is as before. -/
theorem InRange.rewind_answersTo (hrange : cursor.InRange) (calls : List StreamCall) :
    (JackTree.answersTo Cursor.perform cursor calls).2.rewind cursor.position = cursor := by
  rw [rewind, (hrange.answersTo calls).1, Nat.min_eq_left hrange]

/-! ## Streams as cursors -/

theorem inRange_ofStream (stream : TokenStream) : (ofStream stream).InRange :=
  stream.position_le

theorem ofStream_advance (stream : TokenStream) :
    (ofStream stream).advance = (stream.advance.1, ofStream stream.advance.2) := by
  rw [(inRange_ofStream stream).advance_eq, TokenStream.advance]
  cases hpeek : stream.peek? with
  | none =>
      have hend := List.getElem?_eq_none_iff.mp hpeek
      simp only [Prod.mk.injEq]
      refine ⟨hpeek, ?_⟩
      simp only [ahead, ofStream, mk.injEq, true_and]
      have hinside := stream.position_le
      omega
  | some token =>
      simp only [Prod.mk.injEq]
      exact ⟨hpeek, rfl⟩

theorem ofStream_take (stream : TokenStream) (count : Nat) :
    (ofStream stream).take count = ((stream.take count).1, ofStream (stream.take count).2) := by
  induction count generalizing stream with
  | zero => rfl
  | succ count ih =>
      rw [take, TokenStream.take, ofStream_advance]
      rcases stream.advance with ⟨_ | token, next⟩
      · rfl
      · simp only [ih]

theorem ofStream_perform (stream : TokenStream) (call : StreamCall) :
    (ofStream stream).perform call =
      ((stream.perform call).1, ofStream (stream.perform call).2) := by
  cases call with
  | advance => simp only [perform, TokenStream.perform, ofStream_advance]
  | next => simp only [perform, TokenStream.perform, ofStream_advance]
  | take count => simp only [perform, TokenStream.perform, ofStream_take]
  | rewind position => rfl

/-- A stream answers every row of calls like the cursor at the same place. -/
theorem ofStream_answersTo (stream : TokenStream) (calls : List StreamCall) :
    answersTo perform (ofStream stream) calls =
      ((answersTo TokenStream.perform stream calls).1,
        ofStream (answersTo TokenStream.perform stream calls).2) := by
  induction calls generalizing stream with
  | nil => rfl
  | cons call rest ih => simp only [JackTree.answersTo, ofStream_perform, ih]

end Cursor

/-- After any calls the tokens are the same and the position is inside of them, so that they
can be sliced there; reading on gives them one by one up to the end; and from a position that
was met before, every row of calls answers what it answered there.  Streams do the same. -/
theorem consumption_is_replayable (tokens : List Token) (calls : List StreamCall) :
    let cursor := (answersTo Cursor.perform (.ofTokens tokens) calls).2
    let stream := (answersTo TokenStream.perform (.ofTokens tokens) calls).2
    cursor.tokens = tokens ∧ cursor.position ≤ tokens.length
    ∧ cursor.slice? = some (tokens.drop cursor.position)
    ∧ cursor.peek? = (tokens.drop cursor.position).head?
    ∧ (cursor.isExhausted = true ↔ tokens.drop cursor.position = [])
    ∧ (∀ count, answersTo Cursor.perform cursor (List.replicate count .advance) =
        ((List.range count).map fun k => .token tokens[cursor.position + k]?,
          ⟨tokens, min (cursor.position + count) tokens.length⟩))
    ∧ (∀ count, cursor.take count = ((tokens.drop cursor.position).take count,
        ⟨tokens, min (cursor.position + count) tokens.length⟩))
    ∧ (∀ more further,
        answersTo Cursor.perform cursor (more ++ .rewind cursor.position :: further) =
          ((answersTo Cursor.perform cursor more).1
              ++ .done :: (answersTo Cursor.perform cursor further).1,
            (answersTo Cursor.perform cursor further).2))
    ∧ (answersTo TokenStream.perform (.ofTokens tokens) calls).1 =
        (answersTo Cursor.perform (.ofTokens tokens) calls).1
    ∧ stream.tokens = tokens ∧ stream.position = cursor.position
    ∧ cursor.slice? = some stream.remaining ∧ cursor.peek? = stream.peek?
    ∧ cursor.isExhausted = stream.isExhausted := by
  intro cursor stream
  have hstart : (Cursor.ofTokens tokens).InRange := Nat.zero_le _
  obtain ⟨htokens, hrange⟩ := hstart.answersTo calls
  change cursor.tokens = tokens at htokens
  change cursor.InRange at hrange
  have hslice : cursor.slice? = some (tokens.drop cursor.position) := htokens ▸ hrange.slice?_eq
  have hreplay : ∀ more further,
      answersTo Cursor.perform cursor (more ++ .rewind cursor.position :: further) =
        ((answersTo Cursor.perform cursor more).1
            ++ .done :: (answersTo Cursor.perform cursor further).1,
          (answersTo Cursor.perform cursor further).2) := by
    intro more further
    rw [answersTo_append, answersTo, Cursor.perform, hrange.rewind_answersTo]
  have hsame := Cursor.ofStream_answersTo (.ofTokens tokens) calls
  have hcursor : Cursor.ofStream stream = cursor := (congrArg Prod.snd hsame).symm
  refine ⟨htokens, ?_, hslice, ?_, ?_, ?_, ?_, hreplay, (congrArg Prod.fst hsame).symm, ?_⟩
  · exact htokens ▸ hrange
  · rw [Cursor.peek?, htokens, List.head?_drop]
  · rw [Cursor.isExhausted, htokens, List.drop_eq_nil_iff, decide_eq_true_iff]
  · intro count
    rw [hrange.answersTo_replicate, Cursor.ahead, htokens]
  · intro count
    rw [hrange.take_eq, Cursor.ahead, htokens]
  · refine ⟨(congrArg Cursor.tokens hcursor).trans htokens, congrArg Cursor.position hcursor, ?_⟩
    rw [← hcursor]
    exact ⟨(Cursor.inRange_ofStream stream).slice?_eq, rfl, rfl⟩

end JackTree
