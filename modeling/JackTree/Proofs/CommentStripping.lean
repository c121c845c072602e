import JackTree.Proofs.SourcePlaces
import JackTree.Proofs.SourceSurvey
import Mathlib.Data.List.Basic

/-!
# Stripping of comments

Source text is read by readers of its pieces, one after the other: a comment of
either kind, a literal, or code.  `comments_are_blanked_in_place` says that the
readers never fail and leave nothing unread, that what they make of a text is what
a survey of its characters makes of it, and that stripping a second time changes
nothing.  The lines of a source text are the trimmed lines of what is left.
-/

namespace JackTree

open Text

/-! ## Readers -/

/-- What reads a piece from the start of a text and leaves the rest, or fails. -/
abbrev TextReader (α : Type) :=
  List Char → Option (α × List Char)

namespace TextReader

variable {α β : Type}

def map (f : α → β) (reader : TextReader α) : TextReader β := fun text =>
  (reader text).map fun (value, rest) => (f value, rest)

def pair (reader : TextReader α) (other : TextReader β) : TextReader (α × β) := fun text =>
  (reader text).bind fun (first, rest) =>
    (other rest).map fun (second, after) => ((first, second), after)

def orElse (reader other : TextReader α) : TextReader α := fun text =>
  (reader text).or (other text)

/-- Reads what a reader reads, if it does not fail. -/
def optional (reader : TextReader α) : TextReader (Option α) := fun text =>
  match reader text with
  | some (value, rest) => some (some value, rest)
  | none => some (none, text)

/-- The characters that a reader reads, whatever it makes of them. -/
def recognize (reader : TextReader α) : TextReader (List Char) := fun text =>
  (reader text).map fun (_, rest) => (text.take (text.length - rest.length), rest)

/-- Reads as often as it can.  A reader that reads nothing would go on for ever,
so that the whole repetition fails then. -/
def many (reader : TextReader α) (text : List Char) : Option (List α × List Char) :=
  match reader text with
  | none => some ([], text)
  | some (value, rest) =>
    if _hshorter : rest.length < text.length then
      (many reader rest).map fun (values, after) => (value :: values, after)
    else none
termination_by text.length

/-! ### Characters -/

def marker (expected : List Char) : TextReader (List Char) := fun text =>
  if expected.isPrefixOf text then some (expected, text.drop expected.length) else none

def takeTill (stop : Char → Bool) : TextReader (List Char) := fun text =>
  some (text.takeWhile (!stop ·), text.dropWhile (!stop ·))

/-- Reads up to a character that stops it, but not if this is the first one. -/
def takeSome (stop : Char → Bool) : TextReader (List Char) := fun text =>
  if (text.takeWhile (!stop ·)).isEmpty then none else takeTill stop text

/-- Reads up to where some characters stand, and fails if they stand nowhere. -/
def takeUntil (expected : List Char) : TextReader (List Char)
  | [] => if expected.isEmpty then some ([], []) else none
  | c :: rest =>
    if expected.isPrefixOf (c :: rest) then some ([], c :: rest)
    else (takeUntil expected rest).map fun (body, after) => (c :: body, after)

def everything : TextReader (List Char) := fun text =>
  some (text, [])

/-! ### Segments -/

/-- Reads a piece of some nature that starts with an opener. -/
def opened (nature : List Char → Segment) (opener : List Char) (body : TextReader β) :
    TextReader Segment :=
  map nature (recognize (pair (marker opener) body))

def lineComment : TextReader Segment :=
  opened .comment ['/', '/'] (takeTill (· == '\n'))

/-- What follows the opener of a block comment. -/
def blockRest : TextReader (List Char) :=
  orElse (map Prod.fst (pair (takeUntil ['*', '/']) (marker ['*', '/']))) everything

def blockComment : TextReader Segment :=
  opened .comment ['/', '*'] blockRest

def endsLiteral (c : Char) : Bool :=
  c == quoteMark || c == '\n'

/-- What follows the first quotation mark of a literal. -/
def literalRest : TextReader (List Char × Option (List Char)) :=
  pair (takeTill endsLiteral) (optional (marker [quoteMark]))

def literal : TextReader Segment :=
  opened .literal [quoteMark] literalRest

def code : TextReader Segment :=
  orElse (map .code (takeSome fun c => c == quoteMark || c == '/'))
    (map .code (recognize (marker ['/'])))

def segment : TextReader Segment :=
  orElse lineComment (orElse blockComment (orElse literal code))

def segments : TextReader (List Segment) :=
  many segment

/-- The text less its comments, as the readers have it.  What they leave unread
stays, and all stays where they fail. -/
def stripped (text : List Char) : List Char :=
  match segments text with
  | some (parts, unread) => parts.flatMap Segment.stripped ++ unread
  | none => text

/-! ## What the readers read -/

theorem orElse_of_some {reader : TextReader α} {text : List Char} {answer : α × List Char}
    (hread : reader text = some answer) (other : TextReader α) :
    orElse reader other text = some answer := by
  rw [orElse, hread, Option.some_or]

theorem orElse_of_none {reader : TextReader α} {text : List Char} (hread : reader text = none)
    (other : TextReader α) : orElse reader other text = other text := by
  rw [orElse, hread, Option.none_or]

theorem rest_pair {reader : TextReader α} {text rest : List Char} {value : α}
    (hread : reader text = some (value, rest)) (other : TextReader β) :
    (pair reader other text).map Prod.snd = (other rest).map Prod.snd := by
  simp [pair, hread, Function.comp_def]

theorem marker_append (expected rest : List Char) :
    marker expected (expected ++ rest) = some (expected, rest) := by
  have hprefix : expected.isPrefixOf (expected ++ rest) = true :=
    List.isPrefixOf_iff_prefix.mpr (List.prefix_append expected rest)
  rw [marker, if_pos hprefix, List.drop_left]

theorem recognize_of_rest {reader : TextReader α} {text body rest : List Char}
    (hread : (reader text).map Prod.snd = some rest) (htext : body ++ rest = text) :
    recognize reader text = some (body, rest) := by
  rcases Option.map_eq_some_iff.mp hread with ⟨⟨value, after⟩, hvalue, rfl⟩
  have htake : text.take (text.length - after.length) = body := by
    rw [← htext, List.length_append, Nat.add_sub_cancel, List.take_left]
  simp only [recognize, hvalue, Option.map_some, htake]

section Opened

variable {nature : List Char → Segment} {opener text : List Char} {body : TextReader β}

theorem opened_eq_none (hopener : opener.isPrefixOf text = false) :
    opened nature opener body text = none := by
  simp [opened, map, recognize, pair, marker, hopener]

theorem opened_of_rest {inner rest : List Char} (hread : (body text).map Prod.snd = some rest)
    (htext : inner ++ rest = text) :
    opened nature opener body (opener ++ text) = some (nature (opener ++ inner), rest) := by
  have hpair := (rest_pair (marker_append opener text) body).trans hread
  have hwhole : (opener ++ inner) ++ rest = opener ++ text := by rw [List.append_assoc, htext]
  rw [opened, map, recognize_of_rest hpair hwhole]
  rfl

end Opened

/-- A character in front of which a block comment does not end is read over. -/
theorem rest_blockRest_cons {c : Char} {rest : List Char}
    (hmarker : List.isPrefixOf ['*', '/'] (c :: rest) = false) :
    (blockRest (c :: rest)).map Prod.snd = (blockRest rest).map Prod.snd := by
  unfold blockRest orElse map pair
  rw [takeUntil, hmarker, if_neg Bool.false_ne_true]
  cases takeUntil ['*', '/'] rest with
  | none => rfl
  | some found =>
      rcases found with ⟨body, after⟩
      dsimp only [Option.map_some, Option.bind_some]
      cases marker ['*', '/'] after <;> rfl

theorem rest_blockRest (text : List Char) :
    (blockRest text).map Prod.snd = some (Segment.blockComment text).2 := by
  fun_induction Segment.blockComment text with
  | case1 rest => rfl
  | case2 c rest hopen body after hbody ih =>
      have hmarker : List.isPrefixOf ['*', '/'] (c :: rest) = false := by
        rw [Bool.eq_false_iff, Ne, List.isPrefixOf_iff_prefix, List.cons_prefix_cons]
        rintro ⟨hstar, tail, hslash⟩
        exact hopen tail hstar.symm hslash.symm
      rw [rest_blockRest_cons hmarker, ih, hbody]
  | case3 => rfl

theorem rest_literalRest_cons {c : Char} {rest : List Char} (hgoes : endsLiteral c = false) :
    (literalRest (c :: rest)).map Prod.snd = (literalRest rest).map Prod.snd := by
  have hnext : ∀ text, (literalRest text).map Prod.snd =
      (optional (marker [quoteMark]) (text.dropWhile (!endsLiteral ·))).map Prod.snd := fun text =>
    rest_pair rfl _
  rw [hnext, hnext, List.dropWhile_cons_of_pos (by rw [hgoes]; rfl)]

theorem rest_literalRest (text : List Char) :
    (literalRest text).map Prod.snd = some (Segment.literalBody text).2 := by
  fun_induction Segment.literalBody text with
  | case1 => rfl
  | case2 rest => rfl
  | case3 rest hquote => rfl
  | case4 c rest hquote hnewline body after hbody ih =>
      have hgoes : endsLiteral c = false := by simp [endsLiteral, hquote, hnewline]
      rw [rest_literalRest_cons hgoes, ih, hbody]

theorem code_of_isPlain {first : Char} (hplain : Segment.isPlain first = true)
    (rest : List Char) :
    code (first :: rest) =
      some (.code (first :: rest.takeWhile Segment.isPlain), rest.dropWhile Segment.isPlain) := by
  have hsame : (fun c => !(c == quoteMark || c == '/')) = Segment.isPlain :=
    funext fun c => Bool.not_or _ _
  have htake : takeSome (fun c => c == quoteMark || c == '/') (first :: rest) =
      some (first :: rest.takeWhile Segment.isPlain, rest.dropWhile Segment.isPlain) := by
    unfold takeSome takeTill
    rw [hsame, List.takeWhile_cons_of_pos hplain, List.dropWhile_cons_of_pos hplain]
    rfl
  exact orElse_of_some (by rw [map, htake]; rfl) _

/-- No piece with an opener starts with a character of plain code. -/
theorem segment_of_isPlain {first : Char} (hplain : Segment.isPlain first = true)
    (rest : List Char) : segment (first :: rest) = code (first :: rest) := by
  simp only [Segment.isPlain, Bool.and_eq_true, bne_iff_ne, ne_eq] at hplain
  have hslash : ('/' == first) = false := beq_false_of_ne (Ne.symm hplain.2)
  have hquote : (quoteMark == first) = false := beq_false_of_ne (Ne.symm hplain.1)
  have hline : lineComment (first :: rest) = none :=
    opened_eq_none (by rw [List.isPrefixOf, hslash, Bool.false_and])
  have hblock : blockComment (first :: rest) = none :=
    opened_eq_none (by rw [List.isPrefixOf, hslash, Bool.false_and])
  have hliteral : literal (first :: rest) = none :=
    opened_eq_none (by rw [List.isPrefixOf, hquote, Bool.false_and])
  rw [segment, orElse_of_none hline, orElse_of_none hblock, orElse_of_none hliteral]

/-- A slash that opens no comment is code of its own. -/
theorem segment_of_slash {rest : List Char} (hslash : ∀ tail, rest ≠ '/' :: tail)
    (hstar : ∀ tail, rest ≠ '*' :: tail) :
    segment ('/' :: rest) = some (.code ['/'], rest) := by
  have hnone : ∀ {c : Char}, (∀ tail, rest ≠ c :: tail) →
      List.isPrefixOf ['/', c] ('/' :: rest) = false := by
    intro c hnext
    rw [Bool.eq_false_iff, Ne, List.isPrefixOf_iff_prefix]
    rintro ⟨tail, htail⟩
    exact hnext tail (List.cons.inj htail).2.symm
  have hline : lineComment ('/' :: rest) = none := opened_eq_none (hnone hslash)
  have hblock : blockComment ('/' :: rest) = none := opened_eq_none (hnone hstar)
  have hliteral : literal ('/' :: rest) = none := opened_eq_none rfl
  rw [segment, orElse_of_none hline, orElse_of_none hblock, orElse_of_none hliteral]
  have hmarker : recognize (marker ['/']) ('/' :: rest) = some (['/'], rest) :=
    recognize_of_rest (congrArg _ (marker_append ['/'] rest)) rfl
  rw [code, orElse_of_none rfl, map, hmarker]
  rfl

/-- The readers read one segment from a text that is not empty. -/
theorem segment_cons (first : Char) (rest : List Char) :
    segment (first :: rest) = some (Segment.read first rest) := by
  unfold Segment.read
  by_cases hquote : first = quoteMark
  · subst hquote
    have hline : lineComment (quoteMark :: rest) = none := opened_eq_none rfl
    have hblock : blockComment (quoteMark :: rest) = none := opened_eq_none rfl
    rw [if_pos rfl, segment, orElse_of_none hline, orElse_of_none hblock]
    exact orElse_of_some
      (opened_of_rest (rest_literalRest rest) (Segment.literalBody_append rest)) _
  · rw [if_neg hquote]
    by_cases hslash : first = '/'
    · subst hslash
      rw [if_pos rfl]
      split
      next tail =>
        exact orElse_of_some (opened_of_rest rfl List.takeWhile_append_dropWhile) _
      next tail =>
        have hline : lineComment ('/' :: '*' :: tail) = none := opened_eq_none rfl
        rw [segment, orElse_of_none hline]
        exact orElse_of_some
          (opened_of_rest (rest_blockRest tail) (Segment.blockComment_append tail)) _
      next hline hblock => exact segment_of_slash hline hblock
    · have hplain : Segment.isPlain first = true := by simp [Segment.isPlain, hquote, hslash]
      rw [if_neg hslash, segment_of_isPlain hplain, code_of_isPlain hplain]

/-- The readers cut a text into its segments and leave nothing unread. -/
theorem segments_eq (text : List Char) : segments text = some (JackTree.segments text, []) := by
  unfold segments
  fun_induction JackTree.segments text with
  | case1 => rw [many]; rfl
  | case2 first rest ih =>
      have hshorter : (Segment.read first rest).2.length < (first :: rest).length :=
        Nat.lt_succ_of_le (Segment.length_read first rest)
      rw [many, segment_cons]
      simp only [hshorter, dif_pos, ih, Option.map_some]

theorem stripped_eq (text : List Char) : stripped text = stripComments text := by
  rw [stripped, segments_eq]
  exact List.append_nil _

end TextReader

/-! ## Stripping twice -/

/-- The mode in which a survey meets what an earlier survey left of a text. -/
def Mode.revisited : Mode → Mode
  | literal => literal
  | _ => code

theorem opensComment_veiled {c : Char} {rest : List Char}
    (hopens : Mode.opensComment c rest = false) :
    Mode.opensComment c (veiled .code rest) = false := by
  cases rest with
  | nil => exact hopens
  | cons d rest =>
      cases hcomment : Mode.isComment .code d rest with
      | true =>
          rw [veiled_cons_of_isComment hcomment]
          by_cases hnewline : d = '\n'
          · simp [Mode.opensComment, hnewline]
          · simp [Mode.opensComment, hnewline]
      | false =>
          rw [veiled_cons_of_not_isComment hcomment]
          exact hopens

theorem Mode.revisited_of_isComment {mode : Mode} {c : Char} {rest : List Char}
    (hcomment : mode.isComment c rest = true) :
    mode.revisited = .code ∧ (mode.step .lineBound c rest).revisited = .code := by
  cases mode with
  | code =>
      have hopens : opensComment c rest = true := hcomment
      have hquote : c ≠ quoteMark := by
        rintro rfl
        contradiction
      rw [step, if_neg hquote, if_pos hopens]
      split <;> exact ⟨rfl, rfl⟩
  | lineComment => rw [step]; split <;> exact ⟨rfl, rfl⟩
  | blockOpener => exact ⟨rfl, rfl⟩
  | blockComment => rw [step]; split <;> exact ⟨rfl, rfl⟩
  | blockCloser => exact ⟨rfl, rfl⟩
  | literal => contradiction

/-- What has become of a character of a comment opens nothing. -/
theorem veiled_code_of_comment (c : Char) (text : List Char) :
    veiled .code ((if c = '\n' then c else ' ') :: text) =
      (if c = '\n' then c else ' ') :: veiled .code text := by
  by_cases hnewline : c = '\n'
  · rw [if_pos hnewline, hnewline]
    exact veiled_code_cons (by decide) rfl
  · rw [if_neg hnewline]
    exact veiled_code_cons (by decide) rfl

/-- A character outside comments leads a second survey where it has led the first. -/
theorem veiled_revisited_cons {mode : Mode} {c : Char} {rest : List Char}
    (hcomment : mode.isComment c rest = false)
    (hrest : veiled (mode.step .lineBound c rest).revisited
        (veiled (mode.step .lineBound c rest) rest) =
      veiled (mode.step .lineBound c rest) rest) :
    veiled mode.revisited (c :: veiled (mode.step .lineBound c rest) rest) =
      c :: veiled (mode.step .lineBound c rest) rest := by
  cases mode with
  | code =>
      change veiled .code _ = _
      have hopens : Mode.opensComment c rest = false := hcomment
      by_cases hquote : c = quoteMark
      · have hliteral : Mode.isComment .code c (veiled .literal rest) = false := by
          rw [hquote]
          rfl
        rw [Mode.step, if_pos hquote] at hrest ⊢
        rw [veiled_cons_of_not_isComment hliteral, Mode.step, if_pos hquote]
        exact congrArg (c :: ·) hrest
      · rw [Mode.step, if_neg hquote, hopens, if_neg Bool.false_ne_true] at hrest ⊢
        rw [veiled_code_cons hquote (opensComment_veiled hopens)]
        exact congrArg (c :: ·) hrest
  | lineComment =>
      have hnewline : c = '\n' := by simpa [Mode.isComment] using hcomment
      rw [Mode.step, if_pos hnewline] at hrest ⊢
      change veiled .code _ = _
      rw [hnewline, veiled_code_cons (by decide) rfl]
      exact congrArg _ hrest
  | literal =>
      have hstep : (Mode.step .lineBound .literal c rest).revisited =
          Mode.step .lineBound .literal c rest := by
        rw [Mode.step]
        repeat' split
        all_goals rfl
      rw [hstep] at hrest
      change veiled .literal _ = _
      rw [veiled_cons_of_not_isComment rfl]
      exact congrArg (c :: ·) hrest
  | blockOpener => contradiction
  | blockComment => contradiction
  | blockCloser => contradiction

/-- What a survey leaves has no comments any more. -/
theorem veiled_veiled (mode : Mode) (text : List Char) :
    veiled mode.revisited (veiled mode text) = veiled mode text := by
  induction text generalizing mode with
  | nil => rfl
  | cons c rest ih =>
      have hrest := ih (mode.step .lineBound c rest)
      cases hcomment : mode.isComment c rest with
      | true =>
          rcases Mode.revisited_of_isComment hcomment with ⟨hmode, hstep⟩
          rw [hstep] at hrest
          rw [veiled_cons_of_isComment hcomment, hmode, veiled_code_of_comment, hrest]
      | false =>
          rw [veiled_cons_of_not_isComment hcomment]
          exact veiled_revisited_cons hcomment hrest

/-! ## Characters of the stripped text -/

theorem getElem?_stripComments (text : List Char) (index : Nat) :
    (stripComments text)[index]? = text[index]?.map fun c =>
      if (survey .lineBound .code text)[index]? = some .comment ∧ c ≠ '\n' then ' ' else c := by
  cases hc : text[index]? with
  | none => rw [getElem?_stripComments_eq_none hc, Option.map_none]
  | some c =>
      have hiff : (survey .lineBound .code text)[index]? = some .comment ↔ _ :=
        getElem?_survey_eq_comment_iff hc
      rw [Option.map_some]
      cases hcomment : (modeAt .lineBound .code text index).isComment c
          (text.drop (index + 1)) with
      | true =>
          rw [getElem?_stripComments_of_isComment hc hcomment]
          by_cases hnewline : c = '\n'
          · rw [if_pos hnewline, if_neg (fun hboth => hboth.2 hnewline)]
          · rw [if_neg hnewline, if_pos ⟨hiff.mpr hcomment, hnewline⟩]
      | false =>
          have hnot : ¬(survey .lineBound .code text)[index]? = some .comment := by
            rw [hiff, hcomment]
            exact Bool.false_ne_true
          rw [getElem?_stripComments_of_not_isComment hc hcomment,
            if_neg (fun hboth => hnot hboth.1)]

/-! ## Lines of the stripped text -/

/-- Whether a line is another one without the blanks at its two ends, of which the
first are counted, and something is left of it. -/
structure SourceLine.IsCore (line : SourceLine) (original : List Char) : Prop where
  text_ne_nil : line.text ≠ []
  surrounded : ∃ front behind, original = front ++ (line.text ++ behind) ∧
    front.length = line.indent ∧ (∀ c ∈ front, isBlank c = true) ∧ ∀ c ∈ behind, isBlank c = true
  head_visible : ∀ c ∈ line.text.head?, isBlank c = false
  last_visible : ∀ c ∈ line.text.getLast?, isBlank c = false

theorem SourceLine.IsCore.eq_trimmed {line : SourceLine} {original : List Char}
    (hcore : line.IsCore original) : line = trimmed line.number original := by
  rcases hcore.surrounded with ⟨front, behind, rfl, hindent, hfront, hbehind⟩
  have hhead : ∀ c ∈ (line.text ++ behind).head?, isBlank c = false := by
    intro c hc
    rw [List.head?_append_of_ne_nil _ hcore.text_ne_nil] at hc
    exact hcore.head_visible c hc
  have hlast : ∀ c ∈ line.text.reverse.head?, isBlank c = false := by
    rw [List.head?_reverse]
    exact hcore.last_visible
  have hreversed : ∀ c ∈ behind.reverse, isBlank c = true := fun c hc =>
    hbehind c (List.mem_reverse.mp hc)
  rcases takeWhile_dropWhile_append hfront hhead with ⟨htake, hdrop⟩
  rw [trimmed, indentation, trim, htake, hdrop, List.reverse_append,
    (takeWhile_dropWhile_append hreversed hlast).2, List.reverse_reverse, hindent]

theorem isBlank_head_dropWhile (text : List Char) :
    ∀ c ∈ (text.dropWhile isBlank).head?, isBlank c = false := by
  intro c hc
  have hhead := List.head?_dropWhile_not isBlank text
  rwa [Option.mem_def.mp hc] at hhead

theorem isCore_trimmed (number : Nat) {original : List Char} (hvisible : trim original ≠ []) :
    (SourceLine.trimmed number original).IsCore original where
  text_ne_nil := hvisible
  surrounded := by
    rcases exists_trim original with ⟨behind, hbehind, hwhole⟩
    exact ⟨original.takeWhile isBlank, behind, hwhole, rfl,
      List.all_eq_true.mp List.all_takeWhile, hbehind⟩
  head_visible := by
    intro c hc
    rcases exists_trim original with ⟨behind, _, hwhole⟩
    have hdrop : original.dropWhile isBlank = trim original ++ behind := by
      have hsame : original.takeWhile isBlank ++ original.dropWhile isBlank = _ :=
        List.takeWhile_append_dropWhile.trans hwhole
      exact List.append_cancel_left hsame
    apply isBlank_head_dropWhile original c
    rwa [hdrop, List.head?_append_of_ne_nil _ hvisible]
  last_visible := by
    intro c hc
    apply isBlank_head_dropWhile (original.dropWhile isBlank).reverse c
    rwa [SourceLine.trimmed, trim, List.getLast?_reverse] at hc

theorem mem_cleanSource_iff {text : List Char} {line : SourceLine} :
    line ∈ cleanSource text ↔ ∃ index original, line.number = index + 1 ∧
      (lines (stripComments text))[index]? = some original ∧ line.IsCore original := by
  constructor
  · intro hline
    rcases exists_line_of_mem_cleanSource hline with ⟨index, original, horiginal, rfl⟩
    have hvisible : trim original ≠ [] := by
      simpa [SourceLine.trimmed] using (List.mem_filter.mp hline).2
    exact ⟨index, original, rfl, horiginal, isCore_trimmed _ hvisible⟩
  · rintro ⟨index, original, hnumber, horiginal, hcore⟩
    rw [cleanSource, List.mem_filter]
    constructor
    · rw [List.mem_map]
      refine ⟨(original, index), List.mem_zipIdx_iff_getElem?.mpr horiginal, ?_⟩
      dsimp only
      rw [← hnumber, ← hcore.eq_trimmed]
    · simpa using hcore.text_ne_nil

/-! ## Comments become blanks -/

/-- The readers cut every text into segments and leave nothing of it unread.  Each
character of a comment but a line feed becomes a space, as a survey of the characters
from left to right finds the comments, and no other character changes.  Nothing more
is stripped a second time.  The lines that a source text is left with are those
lines of the stripped text that are not blank, trimmed and in their order. -/
theorem comments_are_blanked_in_place (text : List Char) :
    TextReader.segments text = some (segments text, []) ∧
      (segments text).flatMap Segment.text = text ∧
      TextReader.stripped text = stripComments text ∧
      (stripComments text).length = text.length ∧
      (∀ index : Nat, (stripComments text)[index]? = text[index]?.map fun c =>
        if (survey .lineBound .code text)[index]? = some Nature.comment ∧ c ≠ '\n' then ' '
        else c) ∧
      stripComments (stripComments text) = stripComments text ∧
      ((cleanSource text).Pairwise fun a b => a.number < b.number) ∧
      ∀ line, line ∈ cleanSource text ↔ ∃ index original, line.number = index + 1 ∧
        (lines (stripComments text))[index]? = some original ∧ line.IsCore original := by
  have htwice : stripComments (stripComments text) = stripComments text := by
    rw [stripComments_eq_veiled, stripComments_eq_veiled]
    exact veiled_veiled .code text
  exact ⟨TextReader.segments_eq text, flatMap_text_segments text, TextReader.stripped_eq text,
    length_stripComments text, getElem?_stripComments text, htwice, ordered_cleanSource text,
    fun _ => mem_cleanSource_iff⟩

example : stripComments "/*/ a */ b / c // \"\n\"//\" /* \n".toList =
    "         b / c     \n\"//\"    \n".toList := by decide +kernel

end JackTree
