import JackTree.Source.Line

/-!
# Surveys of source text

A survey passes over a text once and says of every character whether it is code
or belongs to a comment or a string constant.  What ends an open constant is a
parameter: the next quotation mark alone, or the end of the line as well.  The
surveys with constants bound to their lines are the ones that comments are
stripped by.
-/

namespace JackTree

open Text

/-- What ends a string constant: a quotation mark only, or also a line feed. -/
inductive Reach where
  | unbounded
  | lineBound
  deriving DecidableEq, Repr

/-- What a survey is in the middle of.  The two characters that open or close a
block comment are passed one by one. -/
inductive Mode where
  | code
  | lineComment
  | blockOpener
  | blockComment
  | blockCloser
  | literal
  deriving DecidableEq, Repr

inductive Nature where
  | code
  | comment
  | constant
  | unclosed
  deriving DecidableEq, Repr

def Reach.closes : Reach → List Char → Bool
  | unbounded, text => text.contains quoteMark
  | lineBound, text => (text.takeWhile (· != '\n')).contains quoteMark

namespace Mode

/-- Whether a character of code, together with the next one, opens a comment. -/
def opensComment (c : Char) (rest : List Char) : Bool :=
  c == '/' && (rest.head? == some '/' || rest.head? == some '*')

def step (reach : Reach) : Mode → Char → List Char → Mode
  | code, c, rest =>
    if c = quoteMark then literal
    else if opensComment c rest then
      if rest.head? = some '/' then lineComment else blockOpener
    else code
  | lineComment, c, _ => if c = '\n' then code else lineComment
  | blockOpener, _, _ => blockComment
  | blockComment, c, rest => if c = '*' ∧ rest.head? = some '/' then blockCloser else blockComment
  | blockCloser, _, _ => code
  | literal, c, _ =>
    if c = quoteMark then code
    else if reach = .lineBound ∧ c = '\n' then code
    else literal

def isComment : Mode → Char → List Char → Bool
  | code, c, rest => opensComment c rest
  | lineComment, c, _ => c != '\n'
  | literal, _, _ => false
  | _, _, _ => true

def nature (reach : Reach) (mode : Mode) (c : Char) (rest : List Char) : Nature :=
  if mode.isComment c rest then .comment
  else
    match mode with
    | literal =>
      if reach = .lineBound ∧ c = '\n' then .code
      else if reach.closes (c :: rest) then .constant
      else .unclosed
    | code =>
      if c = quoteMark then
        if reach.closes rest then .constant else .unclosed
      else .code
    | _ => .code

end Mode

/-- The nature of every character of a text that is entered in some mode. -/
def survey (reach : Reach) : Mode → List Char → List Nature
  | _, [] => []
  | mode, c :: rest => mode.nature reach c rest :: survey reach (mode.step reach c rest) rest

example : survey .unbounded .code ['"', '\n', '"', '/', '/'] =
    [.constant, .constant, .constant, .comment, .comment] := by decide

example : survey .lineBound .code ['"', '\n', '"', '/', '/'] =
    [.unclosed, .code, .unclosed, .unclosed, .unclosed] := by decide

theorem Mode.nature_eq_comment_iff {reach : Reach} {mode : Mode} {c : Char} {rest : List Char} :
    mode.nature reach c rest = .comment ↔ mode.isComment c rest = true := by
  unfold nature
  cases hcomment : mode.isComment c rest with
  | true => simp
  | false =>
      simp only [Bool.false_eq_true, if_false, iff_false]
      cases mode <;> simp only <;> repeat' split
      all_goals simp

/-! ## Stripping by survey -/

/-- A character as a survey leaves it: comments become spaces. -/
def Nature.veil : Nature → Char → Char
  | comment, c => if c = '\n' then c else ' '
  | _, c => c

def veiled (mode : Mode) (text : List Char) : List Char :=
  List.zipWith Nature.veil (survey .lineBound mode text) text

theorem veiled_cons_of_isComment {mode : Mode} {c : Char} {rest : List Char}
    (hcomment : mode.isComment c rest = true) :
    veiled mode (c :: rest) =
      (if c = '\n' then c else ' ') :: veiled (mode.step .lineBound c rest) rest := by
  have hnature : mode.nature .lineBound c rest = .comment :=
    Mode.nature_eq_comment_iff.mpr hcomment
  rw [veiled, survey, List.zipWith_cons_cons, hnature]
  rfl

theorem Nature.veil_of_ne_comment {nature : Nature} (hnature : nature ≠ .comment) (c : Char) :
    nature.veil c = c := by
  cases nature with
  | comment => contradiction
  | code => rfl
  | constant => rfl
  | unclosed => rfl

theorem veiled_cons_of_not_isComment {mode : Mode} {c : Char} {rest : List Char}
    (hcomment : mode.isComment c rest = false) :
    veiled mode (c :: rest) = c :: veiled (mode.step .lineBound c rest) rest := by
  have hnature : mode.nature .lineBound c rest ≠ .comment := by
    rw [Ne, Mode.nature_eq_comment_iff, hcomment]
    exact Bool.false_ne_true
  rw [veiled, survey, List.zipWith_cons_cons, Nature.veil_of_ne_comment hnature]
  rfl

theorem veiled_code_cons {c : Char} {rest : List Char} (hquote : c ≠ quoteMark)
    (hcode : Mode.opensComment c rest = false) :
    veiled .code (c :: rest) = c :: veiled .code rest := by
  have hcomment : Mode.isComment .code c rest = false := hcode
  rw [veiled_cons_of_not_isComment hcomment, Mode.step, if_neg hquote, hcode]
  rfl

theorem veiled_literal (text : List Char) :
    veiled .literal text =
      (Segment.literalBody text).1 ++ veiled .code (Segment.literalBody text).2 := by
  induction text with
  | nil => rfl
  | cons c rest ih =>
      unfold Segment.literalBody
      by_cases hquote : c = quoteMark
      · rw [if_pos hquote, veiled_cons_of_not_isComment rfl, Mode.step, if_pos hquote]
        rfl
      · rw [if_neg hquote]
        by_cases hnewline : c = '\n'
        · have hcode : Mode.opensComment c rest = false := by simp [Mode.opensComment, hnewline]
          rw [if_pos hnewline, veiled_cons_of_not_isComment rfl, Mode.step, if_neg hquote,
            if_pos ⟨rfl, hnewline⟩, List.nil_append, veiled_code_cons hquote hcode]
        · rw [if_neg hnewline, veiled_cons_of_not_isComment rfl, Mode.step, if_neg hquote,
            if_neg (fun hboth => hnewline hboth.2), ih]
          rfl

theorem veiled_lineComment (text : List Char) :
    veiled .lineComment text =
      blankOut (Segment.lineComment text).1 ++ veiled .code (Segment.lineComment text).2 := by
  induction text with
  | nil => rfl
  | cons c rest ih =>
      unfold Segment.lineComment
      by_cases hnewline : c = '\n'
      · subst hnewline
        rw [veiled_cons_of_not_isComment rfl]
        rfl
      · have hcomment : Mode.isComment .lineComment c rest = true := by
          simp [Mode.isComment, hnewline]
        rw [veiled_cons_of_isComment hcomment, Mode.step, if_neg hnewline, if_neg hnewline, ih,
          List.takeWhile_cons_of_pos (by simp [hnewline]),
          List.dropWhile_cons_of_pos (by simp [hnewline])]
        simp [blankOut, hnewline, Segment.lineComment]

theorem veiled_blockComment (text : List Char) :
    veiled .blockComment text =
      blankOut (Segment.blockComment text).1 ++ veiled .code (Segment.blockComment text).2 := by
  fun_induction Segment.blockComment text with
  | case1 rest => rfl
  | case2 c rest hopen body after hbody ih =>
      have hstay : ¬(c = '*' ∧ rest.head? = some '/') := by
        rintro ⟨hstar, hslash⟩
        cases rest with
        | nil => contradiction
        | cons d tail => exact hopen tail hstar (by rw [Option.some.inj hslash])
      rw [hbody] at ih
      rw [veiled_cons_of_isComment rfl, Mode.step, if_neg hstay, ih]
      rfl
  | case3 => rfl

theorem veiled_plain {first : Char} (hfirst : Segment.isPlain first = true) (rest : List Char) :
    veiled .code (first :: rest) =
      first :: rest.takeWhile Segment.isPlain ++ veiled .code (rest.dropWhile Segment.isPlain) := by
  have hone : ∀ c text, Segment.isPlain c = true →
      veiled .code (c :: text) = c :: veiled .code text := by
    intro c text hplain
    simp only [Segment.isPlain, Bool.and_eq_true, bne_iff_ne, ne_eq] at hplain
    exact veiled_code_cons hplain.1 (by simp [Mode.opensComment, hplain.2])
  rw [hone first rest hfirst, List.cons_append]
  congr 1
  induction rest with
  | nil => rfl
  | cons c rest ih =>
      by_cases hplain : Segment.isPlain c = true
      · rw [hone c rest hplain, ih, List.takeWhile_cons_of_pos hplain,
          List.dropWhile_cons_of_pos hplain]
        rfl
      · rw [List.takeWhile_cons_of_neg hplain, List.dropWhile_cons_of_neg hplain]
        rfl

theorem veiled_read (first : Char) (rest : List Char) :
    veiled .code (first :: rest) =
      (Segment.read first rest).1.stripped ++ veiled .code (Segment.read first rest).2 := by
  unfold Segment.read
  by_cases hquote : first = quoteMark
  · have hcode : Mode.isComment .code first rest = false := by
      simp [Mode.isComment, Mode.opensComment, hquote, quoteMark]
    rw [if_pos hquote, veiled_cons_of_not_isComment hcode, Mode.step, if_pos hquote,
      veiled_literal]
    rfl
  · rw [if_neg hquote]
    by_cases hslash : first = '/'
    · subst hslash
      rw [if_pos rfl]
      split
      next tail =>
        rw [veiled_cons_of_isComment rfl]
        change ' ' :: veiled .lineComment ('/' :: tail) = _
        rw [veiled_lineComment]
        rfl
      next tail =>
        rw [veiled_cons_of_isComment rfl]
        change ' ' :: veiled .blockOpener ('*' :: tail) = _
        rw [veiled_cons_of_isComment rfl]
        change ' ' :: ' ' :: veiled .blockComment tail = _
        rw [veiled_blockComment]
        rfl
      next hline hblock =>
        have hcode : Mode.opensComment '/' rest = false := by
          cases rest with
          | nil => rfl
          | cons d tail =>
              have hslash : d ≠ '/' := fun heq => hline tail (by rw [heq])
              have hstar : d ≠ '*' := fun heq => hblock tail (by rw [heq])
              simp [Mode.opensComment, hslash, hstar]
        exact veiled_code_cons hquote hcode
    · rw [if_neg hslash]
      exact veiled_plain (by simp [Segment.isPlain, hquote, hslash]) rest

/-- Comments are stripped as the survey with line-bound constants has it. -/
theorem stripComments_eq_veiled (text : List Char) : stripComments text = veiled .code text := by
  unfold stripComments
  fun_induction segments text with
  | case1 => rfl
  | case2 first rest ih => rw [List.flatMap_cons, ih, veiled_read]

/-! ## Modes along a text -/

/-- The mode of a survey when it meets the character with an index. -/
def modeAt (reach : Reach) (mode : Mode) (text : List Char) : Nat → Mode
  | 0 => mode
  | index + 1 =>
    match text[index]? with
    | some c => (modeAt reach mode text index).step reach c (text.drop (index + 1))
    | none => modeAt reach mode text index

theorem modeAt_succ {reach : Reach} {mode : Mode} {text : List Char} {index : Nat} {c : Char}
    (hc : text[index]? = some c) :
    modeAt reach mode text (index + 1) =
      (modeAt reach mode text index).step reach c (text.drop (index + 1)) := by
  rw [modeAt, hc]

theorem modeAt_cons (reach : Reach) (mode : Mode) (c : Char) (rest : List Char) (index : Nat) :
    modeAt reach mode (c :: rest) (index + 1) =
      modeAt reach (mode.step reach c rest) rest index := by
  induction index with
  | zero => rfl
  | succ index ih =>
      have hstep : modeAt reach mode (c :: rest) (index + 2) =
          match rest[index]? with
          | some d =>
            (modeAt reach mode (c :: rest) (index + 1)).step reach d (rest.drop (index + 1))
          | none => modeAt reach mode (c :: rest) (index + 1) := rfl
      rw [hstep, ih]
      rfl

theorem getElem?_survey (reach : Reach) (mode : Mode) (text : List Char) (index : Nat) :
    (survey reach mode text)[index]? =
      text[index]?.map fun c =>
        (modeAt reach mode text index).nature reach c (text.drop (index + 1)) := by
  induction text generalizing mode index with
  | nil => rfl
  | cons c rest ih =>
      cases index with
      | zero => rfl
      | succ index => rw [survey, List.getElem?_cons_succ, ih, List.getElem?_cons_succ, modeAt_cons,
          List.drop_succ_cons]

theorem getElem?_survey_eq_comment_iff {reach : Reach} {mode : Mode} {text : List Char}
    {index : Nat} {c : Char} (hc : text[index]? = some c) :
    (survey reach mode text)[index]? = some .comment ↔
      (modeAt reach mode text index).isComment c (text.drop (index + 1)) = true := by
  rw [getElem?_survey, hc, Option.map_some, Option.some.injEq]
  exact Mode.nature_eq_comment_iff

theorem getElem?_stripComments_of_isComment {text : List Char} {index : Nat} {c : Char}
    (hc : text[index]? = some c)
    (hcomment : (modeAt .lineBound .code text index).isComment c (text.drop (index + 1)) = true) :
    (stripComments text)[index]? = some (if c = '\n' then c else ' ') := by
  have hnature := (getElem?_survey_eq_comment_iff hc).mpr hcomment
  rw [stripComments_eq_veiled, veiled, List.getElem?_zipWith, hnature, hc]
  rfl

theorem getElem?_stripComments_of_not_isComment {text : List Char} {index : Nat} {c : Char}
    (hc : text[index]? = some c)
    (hcomment : (modeAt .lineBound .code text index).isComment c (text.drop (index + 1)) = false) :
    (stripComments text)[index]? = some c := by
  have hnature : (modeAt .lineBound .code text index).nature .lineBound c (text.drop (index + 1)) ≠
      .comment := by
    rw [Ne, Mode.nature_eq_comment_iff, hcomment]
    exact Bool.false_ne_true
  rw [stripComments_eq_veiled, veiled, List.getElem?_zipWith, getElem?_survey, hc]
  exact congrArg some (Nature.veil_of_ne_comment hnature c)

theorem getElem?_stripComments_eq_none {text : List Char} {index : Nat}
    (hc : text[index]? = none) : (stripComments text)[index]? = none := by
  rw [List.getElem?_eq_none_iff] at hc ⊢
  rwa [length_stripComments]

theorem map_isNewline_stripComments (text : List Char) :
    (stripComments text).map (· == '\n') = text.map (· == '\n') := by
  apply List.ext_getElem?
  intro index
  rw [List.getElem?_map, List.getElem?_map]
  cases hc : text[index]? with
  | none =>
      rw [getElem?_stripComments_eq_none hc]
  | some c =>
      cases hcomment : (modeAt .lineBound .code text index).isComment c
          (text.drop (index + 1)) with
      | true =>
          rw [getElem?_stripComments_of_isComment hc hcomment]
          by_cases hnewline : c = '\n'
          · rw [if_pos hnewline]
          · rw [if_neg hnewline]
            simp [hnewline]
      | false => rw [getElem?_stripComments_of_not_isComment hc hcomment]

end JackTree
