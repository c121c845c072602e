import JackTree.Frontend
import JackTree.Proofs.CommentStripping
import Mathlib.Data.List.Forall2
import Mathlib.Data.List.TakeWhile

/-!
# Line endings

A source text means the same whether its lines end with line feeds or with carriage
returns and line feeds.  `line_endings_make_no_difference` says this of the lines that
are left of it, of its tokens and of its tree or error.  The comments of both texts are
the same, so that stripping leaves texts that differ by one blank at the end of every
line, and such blanks are trimmed.
-/

namespace JackTree

open Text

/-- The text with a carriage return in front of every line feed. -/
def Text.withReturns (text : List Char) : List Char :=
  text.flatMap fun c => if c = '\n' then ['\r', '\n'] else [c]

theorem Text.withReturns_newline (rest : List Char) :
    withReturns ('\n' :: rest) = '\r' :: '\n' :: withReturns rest :=
  rfl

theorem Text.withReturns_cons {c : Char} (hnewline : c ≠ '\n') (rest : List Char) :
    withReturns (c :: rest) = c :: withReturns rest := by
  rw [withReturns, List.flatMap_cons, if_neg hnewline]
  rfl

theorem Text.head?_withReturns {c : Char} (hreturn : c ≠ '\r') (hnewline : c ≠ '\n')
    (text : List Char) : (withReturns text).head? = some c ↔ text.head? = some c := by
  cases text with
  | nil => rfl
  | cons d rest =>
      by_cases hd : d = '\n'
      · rw [hd, withReturns_newline]
        simp [Ne.symm hreturn, Ne.symm hnewline]
      · rw [withReturns_cons hd]
        rfl

/-! ## The same comments -/

namespace Mode

theorem opensComment_withReturns (c : Char) (rest : List Char) :
    opensComment c (withReturns rest) = opensComment c rest := by
  have hslash := head?_withReturns (c := '/') (by decide) (by decide) rest
  have hstar := head?_withReturns (c := '*') (by decide) (by decide) rest
  rw [Bool.eq_iff_iff]
  simp only [opensComment, Bool.and_eq_true, Bool.or_eq_true, beq_iff_eq, hslash, hstar]

theorem isComment_withReturns (mode : Mode) (c : Char) (rest : List Char) :
    mode.isComment c (withReturns rest) = mode.isComment c rest := by
  cases mode with
  | code => exact opensComment_withReturns c rest
  | lineComment => rfl
  | blockOpener => rfl
  | blockComment => rfl
  | blockCloser => rfl
  | literal => rfl

theorem step_withReturns (reach : Reach) (mode : Mode) (c : Char) (rest : List Char) :
    mode.step reach c (withReturns rest) = mode.step reach c rest := by
  have hslash := head?_withReturns (c := '/') (by decide) (by decide) rest
  cases mode with
  | code => simp only [step, opensComment_withReturns, hslash]
  | blockComment => simp only [step, hslash]
  | lineComment => rfl
  | blockOpener => rfl
  | blockCloser => rfl
  | literal => rfl

/-- A carriage return leads a survey nowhere that the line feed behind it would not. -/
theorem step_return (mode : Mode) (rest other : List Char) :
    (mode.step .lineBound '\r' ('\n' :: rest)).step .lineBound '\n' rest =
      mode.step .lineBound '\n' other := by
  cases mode <;> rfl

end Mode

/-- Whether a text is another one with one blank put in front of every line feed. -/
inductive Padded : List Char → List Char → Prop where
  | nil : Padded [] []
  | keep {c : Char} {text padded : List Char} :
      c ≠ '\n' → Padded text padded → Padded (c :: text) (c :: padded)
  | lineEnd {blank : Char} {text padded : List Char} :
      isBlank blank = true → blank ≠ '\n' → Padded text padded →
        Padded ('\n' :: text) (blank :: '\n' :: padded)

theorem veiled_newline (mode : Mode) (rest : List Char) :
    veiled mode ('\n' :: rest) = '\n' :: veiled (mode.step .lineBound '\n' rest) rest := by
  cases hcomment : mode.isComment '\n' rest with
  | true => exact veiled_cons_of_isComment hcomment
  | false => exact veiled_cons_of_not_isComment hcomment

theorem exists_veiled_return (mode : Mode) (rest : List Char) :
    ∃ blank, isBlank blank = true ∧ blank ≠ '\n' ∧
      veiled mode ('\r' :: rest) = blank :: veiled (mode.step .lineBound '\r' rest) rest := by
  cases hcomment : mode.isComment '\r' rest with
  | true => exact ⟨' ', by decide, by decide, veiled_cons_of_isComment hcomment⟩
  | false => exact ⟨'\r', by decide, by decide, veiled_cons_of_not_isComment hcomment⟩

/-- Carriage returns that are put into a text come back as blanks from a survey. -/
theorem padded_veiled (mode : Mode) (text : List Char) :
    Padded (veiled mode text) (veiled mode (withReturns text)) := by
  induction text generalizing mode with
  | nil => exact .nil
  | cons c rest ih =>
      by_cases hnewline : c = '\n'
      · rw [hnewline, withReturns_newline, veiled_newline]
        rcases exists_veiled_return mode ('\n' :: withReturns rest) with
          ⟨blank, hblank, hplain, hveiled⟩
        rw [hveiled, veiled_newline, Mode.step_return mode _ rest]
        exact .lineEnd hblank hplain (ih _)
      · rw [withReturns_cons hnewline]
        have hrest := ih (mode.step .lineBound c rest)
        cases hcomment : mode.isComment c rest with
        | true =>
            have hother : mode.isComment c (withReturns rest) = true := by
              rw [Mode.isComment_withReturns, hcomment]
            rw [veiled_cons_of_isComment hcomment, veiled_cons_of_isComment hother,
              Mode.step_withReturns, if_neg hnewline]
            exact .keep (by decide) hrest
        | false =>
            have hother : mode.isComment c (withReturns rest) = false := by
              rw [Mode.isComment_withReturns, hcomment]
            rw [veiled_cons_of_not_isComment hcomment, veiled_cons_of_not_isComment hother,
              Mode.step_withReturns]
            exact .keep hnewline hrest

theorem padded_stripComments (text : List Char) :
    Padded (stripComments text) (stripComments (withReturns text)) := by
  rw [stripComments_eq_veiled, stripComments_eq_veiled]
  exact padded_veiled .code text

/-! ## The same lines -/

/-- Whether two texts differ in the blanks at their ends only. -/
def SameUpToEnd (a b : List Char) : Prop :=
  ∃ body left right, (∀ c ∈ left, isBlank c = true) ∧ (∀ c ∈ right, isBlank c = true) ∧
    a = body ++ left ∧ b = body ++ right

theorem SameUpToEnd.refl (text : List Char) : SameUpToEnd text text :=
  ⟨text, [], [], by simp, by simp, by simp, by simp⟩

theorem SameUpToEnd.cons {a b : List Char} (hsame : SameUpToEnd a b) (c : Char) :
    SameUpToEnd (c :: a) (c :: b) := by
  rcases hsame with ⟨body, left, right, hleft, hright, rfl, rfl⟩
  exact ⟨c :: body, left, right, hleft, hright, rfl, rfl⟩

theorem sameUpToEnd_of_lineEnd {blank : Char} (hblank : isBlank blank = true) :
    SameUpToEnd ['\n'] [blank, '\n'] := by
  have hnewline : isBlank '\n' = true := by decide
  exact ⟨[], ['\n'], [blank, '\n'], by simp [hnewline], by simp [hblank, hnewline], rfl, rfl⟩

theorem Text.pieces_cons {c : Char} (hnewline : c ≠ '\n') (rest : List Char) :
    pieces (c :: rest) =
      match pieces rest with
      | [] => [[c]]
      | piece :: more => (c :: piece) :: more :=
  if_neg hnewline

theorem Padded.forall₂_pieces {text padded : List Char} (hpadded : Padded text padded) :
    List.Forall₂ SameUpToEnd (pieces text) (pieces padded) := by
  induction hpadded with
  | nil => exact .nil
  | @keep c text padded hnewline _ ih =>
      rw [pieces_cons hnewline, pieces_cons hnewline]
      generalize pieces text = left, pieces padded = right at ih
      cases ih with
      | nil => exact .cons (.refl [c]) .nil
      | cons hpiece hmore => exact .cons (hpiece.cons c) hmore
  | @lineEnd blank text padded hblank hplain _ ih =>
      rw [pieces_cons hplain]
      exact .cons (sameUpToEnd_of_lineEnd hblank) ih

/-- What a line holds between its blanks and how many of them come first, if it
holds anything. -/
def Text.content? (line : List Char) : Option (Nat × List Char) :=
  if (trim line).isEmpty then none else some (indentation line, trim line)

theorem Text.content?_append (line : List Char) {behind : List Char}
    (hbehind : ∀ c ∈ behind, isBlank c = true) : content? (line ++ behind) = content? line := by
  have hhead := isBlank_head_dropWhile line
  have hsplit := List.takeWhile_append_dropWhile (p := isBlank) (l := line)
  have hfront : ∀ c ∈ line.takeWhile isBlank, isBlank c = true :=
    List.all_eq_true.mp List.all_takeWhile
  cases hrest : line.dropWhile isBlank with
  | nil =>
      have hnone : ∀ text : List Char, text.dropWhile isBlank = [] → content? text = none := by
        intro text htext
        simp [content?, trim, htext]
      have hline : ∀ c ∈ line ++ behind, isBlank c = true := by
        rw [hrest, List.append_nil] at hsplit
        rw [hsplit] at hfront
        exact List.forall_mem_append.mpr ⟨hfront, hbehind⟩
      rw [hnone line hrest, hnone (line ++ behind) (List.dropWhile_eq_nil_iff.mpr hline)]
  | cons first rest =>
      rw [hrest] at hhead hsplit
      have hwhole : line ++ behind = line.takeWhile isBlank ++ (first :: rest ++ behind) := by
        rw [← List.append_assoc, hsplit]
      have hbody : ∀ c ∈ (first :: rest ++ behind).head?, isBlank c = false := hhead
      rcases takeWhile_dropWhile_append hfront hbody with ⟨htake, hdrop⟩
      rw [← hwhole] at htake hdrop
      have hreversed : ∀ c ∈ behind.reverse, isBlank c = true := fun c hc =>
        hbehind c (List.mem_reverse.mp hc)
      have htrim : trim (line ++ behind) = trim line := by
        rw [trim, hdrop, List.reverse_append, List.dropWhile_append_of_pos hreversed, trim, hrest]
      rw [content?, content?, htrim, indentation, htake, indentation]

theorem SameUpToEnd.content?_eq {a b : List Char} (hsame : SameUpToEnd a b) :
    content? a = content? b := by
  rcases hsame with ⟨body, left, right, hleft, hright, rfl, rfl⟩
  rw [content?_append body hleft, content?_append body hright]

theorem Text.content?_withoutLineEnd (piece : List Char) :
    content? (withoutLineEnd piece) = content? piece := by
  rcases exists_withoutLineEnd piece with ⟨ending, hending, hpiece⟩
  rw [← content?_append (withoutLineEnd piece) hending, ← hpiece]

/-- The lines of a source text depend on what its pieces hold and on nothing else. -/
theorem cleanSource_eq_filterMap (text : List Char) :
    cleanSource text =
      ((pieces (stripComments text)).map content?).zipIdx.filterMap fun (content, index) =>
        content.map fun (indent, visible) => ⟨index + 1, indent, visible⟩ := by
  unfold cleanSource lines
  generalize pieces (stripComments text) = parts
  generalize 0 = first
  induction parts generalizing first with
  | nil => rfl
  | cons piece parts ih =>
      have hcontent : content? piece =
          if (trim (withoutLineEnd piece)).isEmpty then none
          else some (indentation (withoutLineEnd piece), trim (withoutLineEnd piece)) :=
        (content?_withoutLineEnd piece).symm
      simp only [List.map_cons, List.zipIdx_cons]
      by_cases hblank : (trim (withoutLineEnd piece)).isEmpty = true
      · rw [if_pos hblank] at hcontent
        rw [List.filter_cons_of_neg (by simpa [SourceLine.trimmed] using hblank), ih, hcontent]
        rfl
      · rw [if_neg hblank] at hcontent
        rw [List.filter_cons_of_pos (by simpa [SourceLine.trimmed] using hblank), ih, hcontent]
        rfl

theorem cleanSource_withReturns (text : List Char) :
    cleanSource (withReturns text) = cleanSource text := by
  have hpieces := (padded_stripComments text).forall₂_pieces
  have hcontents : List.Forall₂ Eq ((pieces (stripComments text)).map content?)
      ((pieces (stripComments (withReturns text))).map content?) := by
    rw [List.forall₂_map_left_iff, List.forall₂_map_right_iff]
    exact hpieces.imp fun _ _ hpiece => hpiece.content?_eq
  rw [List.forall₂_eq_eq_eq] at hcontents
  rw [cleanSource_eq_filterMap, ← hcontents, cleanSource_eq_filterMap]

/-! ## The same answers -/

/-- A carriage return in front of every line feed of a source text, wherever these
stand, changes neither the lines that are left of it nor what becomes of them. -/
theorem line_endings_make_no_difference (text : String) :
    cleanSource (withReturns text.toList) = cleanSource text.toList ∧
      ∀ options,
        lexSource (String.ofList (withReturns text.toList)) options = lexSource text options ∧
        parseSource (String.ofList (withReturns text.toList)) options =
          parseSource text options := by
  have hlines := cleanSource_withReturns text.toList
  have hlex : ∀ options,
      lexSource (String.ofList (withReturns text.toList)) options = lexSource text options := by
    intro options
    rw [lexSource, String.toList_ofList, hlines]
    rfl
  refine ⟨hlines, fun options => ⟨hlex options, ?_⟩⟩
  rw [parseSource, hlex]
  rfl

end JackTree
