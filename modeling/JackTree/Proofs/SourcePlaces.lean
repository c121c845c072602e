import JackTree.Proofs.LexerDecomposition

/-!
# Places in source text

What the lexer gets is the source text less comments and some blanks, with the
places of the original.
-/

namespace JackTree

open Text

/-! ## Lines -/

theorem Text.newline_notMem_dropLast {text piece : List Char} (hpiece : piece ∈ pieces text) :
    '\n' ∉ piece.dropLast := by
  induction text generalizing piece with
  | nil => simp [pieces] at hpiece
  | cons c rest ih =>
      unfold pieces at hpiece
      split at hpiece
      next =>
        cases hpiece with
        | head => simp
        | tail _ hrest => exact ih hrest
      next hplain =>
        split at hpiece
        next =>
          rw [List.mem_singleton.mp hpiece]
          simp
        next first more hcut =>
          rw [hcut] at ih
          cases hpiece with
          | head =>
              have hfirst := ih List.mem_cons_self
              cases first with
              | nil => simp
              | cons d first => simpa [Ne.symm hplain] using hfirst
          | tail _ hmore => exact ih (List.mem_cons_of_mem _ hmore)

theorem Text.newline_notMem_of_mem_lines {text line : List Char} (hline : line ∈ lines text) :
    '\n' ∉ line := by
  obtain ⟨piece, hpiece, rfl⟩ := List.mem_map.mp hline
  have hbody := newline_notMem_dropLast hpiece
  unfold withoutLineEnd
  split
  next =>
    split
    next => exact fun hmem => hbody (List.mem_of_mem_take (List.dropLast_eq_take ▸ hmem))
    next => exact hbody
  next hlast =>
    intro hmem
    rcases List.eq_nil_or_concat piece with rfl | ⟨body, last, rfl⟩
    · contradiction
    · rw [List.concat_eq_append] at hbody hlast hmem
      rw [List.dropLast_concat] at hbody
      rw [List.getLast?_concat] at hlast
      rcases List.mem_append.mp hmem with hfront | hend
      · exact hbody hfront
      · exact hlast (congrArg some (List.mem_singleton.mp hend).symm)

theorem Text.mem_of_mem_trim {c : Char} {line : List Char} (hmem : c ∈ trim line) : c ∈ line := by
  unfold trim at hmem
  rw [List.mem_reverse] at hmem
  have hfront := (List.dropWhile_sublist isBlank).subset hmem
  rw [List.mem_reverse] at hfront
  exact (List.dropWhile_sublist isBlank).subset hfront

theorem exists_line_of_mem_cleanSource {text : List Char} {line : SourceLine}
    (hline : line ∈ cleanSource text) :
    ∃ index original, (lines (stripComments text))[index]? = some original ∧
      line = SourceLine.trimmed (index + 1) original := by
  have hall := (List.mem_filter.mp hline).1
  obtain ⟨⟨original, index⟩, horiginal, rfl⟩ := List.mem_map.mp hall
  exact ⟨index, original, List.mem_zipIdx_iff_getElem?.mp horiginal, rfl⟩

/-! ## Rows -/

def row (line column : Nat) : List Char → List Located
  | [] => []
  | c :: rest => ⟨c, line, column⟩ :: row line (column + 1) rest

theorem map_char_row (line column : Nat) (text : List Char) :
    (row line column text).map Located.char = text := by
  induction text generalizing column with
  | nil => rfl
  | cons c rest ih => rw [row, List.map_cons, ih]

theorem row_append (line column : Nat) (left right : List Char) :
    row line column (left ++ right) =
      row line column left ++ row line (column + left.length) right := by
  induction left generalizing column with
  | nil => rfl
  | cons c left ih =>
      rw [List.cons_append, row, row, ih, List.cons_append, List.length_cons]
      rw [Nat.add_assoc, Nat.add_comm 1]

theorem SourceLine.located_eq_row (line : SourceLine) :
    line.located = row line.number (line.indent + 1) (line.text ++ [' ']) := by
  have hrow : ∀ (text : List Char) (column offset : Nat),
      ((text.zipIdx offset).map fun c => Located.mk c.1 line.number (column + c.2)) =
        row line.number (column + offset) text := by
    intro text
    induction text with
    | nil => exact fun _ _ => rfl
    | cons c rest ih =>
        intro column offset
        rw [List.zipIdx_cons, List.map_cons, ih, row, Nat.add_assoc]
  exact hrow _ _ 0

/-- What the lexer is given of a source text. -/
def lexerInput (text : List Char) : List Located :=
  (cleanSource text).flatMap SourceLine.located

theorem newline_notMem_lexerInput {text : List Char} {c : Located} (hc : c ∈ lexerInput text) :
    c.char ≠ '\n' := by
  obtain ⟨line, hline, hlocated⟩ := List.mem_flatMap.mp hc
  obtain ⟨index, original, horiginal, rfl⟩ := exists_line_of_mem_cleanSource hline
  rw [SourceLine.located_eq_row] at hlocated
  have hchar := List.mem_map_of_mem (f := Located.char) hlocated
  rw [map_char_row] at hchar
  rcases List.mem_append.mp hchar with htext | hspace
  · have hplain := newline_notMem_of_mem_lines (List.mem_of_getElem? horiginal)
    intro hnewline
    rw [hnewline] at htext
    exact hplain (mem_of_mem_trim htext)
  · rw [List.mem_singleton.mp hspace]
    decide

/-! ## Places -/

namespace Located

def place (c : Located) : Nat × Nat :=
  (c.line, c.column)

def isBefore (a b : Located) : Bool :=
  a.line < b.line || (a.line == b.line && a.column < b.column)

theorem isBefore_iff {a b : Located} :
    a.isBefore b = true ↔ a.line < b.line ∨ (a.line = b.line ∧ a.column < b.column) := by
  simp [isBefore]

theorem not_isBefore_of_isBefore {a b : Located} (hbefore : a.isBefore b = true) :
    b.isBefore a = false := by
  rw [Bool.eq_false_iff]
  intro hafter
  rw [isBefore_iff] at hbefore hafter
  omega

theorem not_isBefore_of_place_eq {a b : Located} (hplace : a.place = b.place) :
    a.isBefore b = false := by
  simp only [place, Prod.mk.injEq] at hplace
  simp [isBefore, hplace.1, hplace.2]

end Located

/-- The characters of a text with their places, when the first one stands at the
given line and column. -/
def locate : Nat → Nat → List Char → List Located
  | _, _, [] => []
  | line, column, c :: rest =>
    ⟨c, line, column⟩ ::
      (if c = '\n' then locate (line + 1) 1 rest else locate line (column + 1) rest)

theorem map_char_locate (line column : Nat) (text : List Char) :
    (locate line column text).map Located.char = text := by
  induction text generalizing line column with
  | nil => rfl
  | cons c rest ih =>
      unfold locate
      split <;> rw [List.map_cons, ih]

/-- Whether some characters stand in order, the first one at a place or behind it. -/
def OrderedFrom (line column : Nat) (characters : List Located) : Prop :=
  (∀ c ∈ characters, line < c.line ∨ (line = c.line ∧ column ≤ c.column)) ∧
    characters.Pairwise fun a b => a.isBefore b = true

theorem OrderedFrom.cons {first : Located} {rest : List Located} {line column : Nat}
    (hplace : first.line < line ∨ (first.line = line ∧ first.column < column))
    (hrest : OrderedFrom line column rest) :
    OrderedFrom first.line first.column (first :: rest) := by
  obtain ⟨hbehind, hordered⟩ := hrest
  have hfirst : ∀ c ∈ rest, first.line < c.line ∨ (first.line = c.line ∧ first.column < c.column) := by
    intro c hc
    have := hbehind c hc
    omega
  constructor
  · intro c hc
    cases hc with
    | head => exact Or.inr ⟨rfl, Nat.le_refl _⟩
    | tail _ hc =>
        have := hfirst c hc
        omega
  · exact List.pairwise_cons.mpr ⟨fun c hc => Located.isBefore_iff.mpr (hfirst c hc), hordered⟩

theorem orderedFrom_locate (line column : Nat) (text : List Char) :
    OrderedFrom line column (locate line column text) := by
  induction text generalizing line column with
  | nil => exact ⟨by simp [locate], List.Pairwise.nil⟩
  | cons c rest ih =>
      unfold locate
      split
      next => exact (ih (line + 1) 1).cons (Or.inl (Nat.lt_succ_self line))
      next => exact (ih line (column + 1)).cons (Or.inr ⟨rfl, Nat.lt_succ_self column⟩)

theorem orderedFrom_row (line column : Nat) (text : List Char) :
    OrderedFrom line column (row line column text) := by
  induction text generalizing column with
  | nil => exact ⟨by simp [row], List.Pairwise.nil⟩
  | cons c rest ih => exact (ih (column + 1)).cons (Or.inr ⟨rfl, Nat.lt_succ_self column⟩)

theorem line_of_mem_row {line column : Nat} {text : List Char} {c : Located}
    (hc : c ∈ row line column text) : c.line = line := by
  induction text generalizing column with
  | nil => contradiction
  | cons d rest ih =>
      cases hc with
      | head => rfl
      | tail _ hrest => exact ih hrest

theorem ordered_cleanSource (text : List Char) :
    (cleanSource text).Pairwise fun a b => a.number < b.number := by
  unfold cleanSource
  apply List.Pairwise.filter
  rw [List.pairwise_map]
  have hnumbers := List.pairwise_lt_range' (s := 0) (n := (lines (stripComments text)).length)
  rw [← List.zipIdx_map_snd 0 (lines (stripComments text)), List.pairwise_map] at hnumbers
  exact hnumbers.imp fun hindex => Nat.add_lt_add_right hindex 1

theorem ordered_lexerInput (text : List Char) :
    (lexerInput text).Pairwise fun a b => a.isBefore b = true := by
  unfold lexerInput
  rw [List.pairwise_flatMap]
  constructor
  · intro line _
    rw [SourceLine.located_eq_row]
    exact (orderedFrom_row _ _ _).2
  · apply (ordered_cleanSource text).imp
    intro a b hnumber c hc d hd
    rw [SourceLine.located_eq_row] at hc hd
    rw [Located.isBefore_iff, line_of_mem_row hc, line_of_mem_row hd]
    exact Or.inl hnumber

/-! ## Visible characters -/

def visible (characters : List Located) : List Located :=
  characters.filter fun c => !c.isBlank

theorem visible_append (left right : List Located) :
    visible (left ++ right) = visible left ++ visible right :=
  List.filter_append ..

theorem visible_row_of_blank {text : List Char} (hblank : ∀ c ∈ text, isBlank c = true)
    (line column : Nat) : visible (row line column text) = [] := by
  unfold visible
  rw [List.filter_eq_nil_iff]
  intro c hc
  have hchar := List.mem_map_of_mem (f := Located.char) hc
  rw [map_char_row] at hchar
  simp [Located.isBlank, hblank c.char hchar]

theorem visible_row_between {front core behind : List Char}
    (hfront : ∀ c ∈ front, isBlank c = true) (hbehind : ∀ c ∈ behind, isBlank c = true)
    (line column : Nat) :
    visible (row line column (front ++ (core ++ behind))) =
      visible (row line (column + front.length) core) := by
  rw [row_append, row_append, visible_append, visible_append, visible_row_of_blank hfront,
    visible_row_of_blank hbehind, List.nil_append, List.append_nil]

theorem Text.exists_trim (line : List Char) :
    ∃ behind, (∀ c ∈ behind, isBlank c = true) ∧
      line = line.takeWhile isBlank ++ (trim line ++ behind) := by
  refine ⟨((line.dropWhile isBlank).reverse.takeWhile isBlank).reverse, ?_, ?_⟩
  · intro c hc
    exact List.all_eq_true.mp List.all_takeWhile c (List.mem_reverse.mp hc)
  · unfold trim
    rw [← List.reverse_append, List.takeWhile_append_dropWhile, List.reverse_reverse,
      List.takeWhile_append_dropWhile]

theorem Text.exists_withoutLineEnd (piece : List Char) :
    ∃ ending, (∀ c ∈ ending, isBlank c = true) ∧ piece = withoutLineEnd piece ++ ending := by
  unfold withoutLineEnd
  split
  next hnewline =>
    obtain ⟨body, rfl⟩ := List.getLast?_eq_some_iff.mp hnewline
    rw [List.dropLast_concat]
    split
    next hreturn =>
      obtain ⟨front, rfl⟩ := List.getLast?_eq_some_iff.mp hreturn
      rw [List.dropLast_concat]
      have hblank : ∀ c ∈ ['\r', '\n'], isBlank c = true := by simp [isBlank]
      exact ⟨['\r', '\n'], hblank, by simp⟩
    next =>
      have hblank : ∀ c ∈ ['\n'], isBlank c = true := by simp [isBlank]
      exact ⟨['\n'], hblank, rfl⟩
  next => exact ⟨[], by simp, by simp⟩

/-- Trimming a line changes neither what is visible of it nor where that stands. -/
theorem visible_located_trimmed (number : Nat) (piece : List Char) :
    visible (SourceLine.trimmed number (withoutLineEnd piece)).located =
      visible (row number 1 piece) := by
  obtain ⟨ending, hending, hpiece⟩ := exists_withoutLineEnd piece
  obtain ⟨behind, hbehind, hline⟩ := exists_trim (withoutLineEnd piece)
  have hfront : ∀ c ∈ (withoutLineEnd piece).takeWhile isBlank, isBlank c = true :=
    List.all_eq_true.mp List.all_takeWhile
  have hblank : ∀ c ∈ behind ++ ending, isBlank c = true :=
    List.forall_mem_append.mpr ⟨hbehind, hending⟩
  have hwhole : piece = (withoutLineEnd piece).takeWhile isBlank ++
      (trim (withoutLineEnd piece) ++ (behind ++ ending)) := by
    rw [← List.append_assoc, ← List.append_assoc, List.append_assoc _ _ behind, ← hline]
    exact hpiece
  have hspace : ∀ c ∈ [' '], isBlank c = true := List.forall_mem_singleton.mpr isBlank_space
  have hrow : visible (row number 1 ((withoutLineEnd piece).takeWhile isBlank ++
        (trim (withoutLineEnd piece) ++ (behind ++ ending)))) =
      visible (row number (1 + indentation (withoutLineEnd piece))
        (trim (withoutLineEnd piece))) :=
    visible_row_between hfront hblank number 1
  rw [← hwhole] at hrow
  rw [hrow, SourceLine.located_eq_row, Nat.add_comm 1]
  exact visible_row_between (List.forall_mem_nil _) hspace number _

/-- The characters of some pieces that are lines, from the line behind `index` on. -/
def rows (index : Nat) : List (List Char) → List Located
  | [] => []
  | piece :: more => row (index + 1) 1 piece ++ rows (index + 1) more

theorem locate_eq_rows (index column : Nat) (text : List Char) :
    locate (index + 1) column text =
      match pieces text with
      | [] => []
      | first :: more => row (index + 1) column first ++ rows (index + 1) more := by
  induction text generalizing index column with
  | nil => rfl
  | cons c rest ih =>
      unfold locate pieces
      by_cases hnewline : c = '\n'
      · rw [if_pos hnewline, if_pos hnewline, ih]
        cases pieces rest <;> rfl
      · rw [if_neg hnewline, if_neg hnewline, ih]
        cases pieces rest <;> rfl

theorem locate_eq_rows_pieces (text : List Char) : locate 1 1 text = rows 0 (pieces text) := by
  rw [locate_eq_rows]
  cases pieces text <;> rfl

/-- What is visible of a source text without comments is what the lexer sees. -/
theorem visible_lexerInput (text : List Char) :
    visible (lexerInput text) = visible (locate 1 1 (stripComments text)) := by
  have hpieces : ∀ (parts : List (List Char)) (index : Nat),
      visible ((((((parts.map withoutLineEnd).zipIdx index).map fun line =>
        SourceLine.trimmed (line.2 + 1) line.1).filter fun line => !line.text.isEmpty)).flatMap
          SourceLine.located) = visible (rows index parts) := by
    intro parts
    induction parts with
    | nil => exact fun _ => rfl
    | cons piece more ih =>
        intro index
        rw [List.map_cons, List.zipIdx_cons, List.map_cons, rows, visible_append, ← ih (index + 1),
          ← visible_located_trimmed]
        by_cases hempty : (trim (withoutLineEnd piece)).isEmpty = true
        · rw [List.filter_cons_of_neg (by simpa [SourceLine.trimmed] using hempty)]
          have hnone : visible (SourceLine.trimmed (index + 1) (withoutLineEnd piece)).located =
              [] := by
            rw [SourceLine.located_eq_row]
            apply visible_row_of_blank
            simp [SourceLine.trimmed, List.isEmpty_iff.mp hempty, isBlank_space]
          rw [hnone, List.nil_append]
        · rw [List.filter_cons_of_pos (by simpa [SourceLine.trimmed] using hempty),
            List.flatMap_cons, visible_append]
  rw [locate_eq_rows_pieces, ← hpieces]
  rfl

theorem mem_lexerInput_iff {text : List Char} {c : Located} (hblank : c.isBlank = false) :
    c ∈ lexerInput text ↔ c ∈ locate 1 1 (stripComments text) := by
  have hvisible : ∀ characters : List Located, c ∈ characters ↔ c ∈ visible characters := by
    intro characters
    simp [visible, hblank]
  rw [hvisible, visible_lexerInput, ← hvisible]

/-! ## Characters found by their places -/

theorem map_place_locate {text other : List Char}
    (hlines : text.map (· == '\n') = other.map (· == '\n')) (line column : Nat) :
    (locate line column text).map Located.place =
      (locate line column other).map Located.place := by
  induction text generalizing other line column with
  | nil => rw [List.map_eq_nil_iff.mp hlines.symm]
  | cons c rest ih =>
      cases other with
      | nil => contradiction
      | cons d more =>
          obtain ⟨hchar, hrest⟩ := List.cons.inj hlines
          unfold locate
          rw [List.map_cons, List.map_cons]
          by_cases hnewline : c = '\n'
          · have hother : d = '\n' := by simpa [hnewline] using hchar.symm
            rw [if_pos hnewline, if_pos hother, ih hrest]
            rfl
          · have hother : ¬d = '\n' := by
              intro hd
              exact hnewline (by simpa [hd] using hchar)
            rw [if_neg hnewline, if_neg hother, ih hrest]
            rfl

theorem exists_located {text : List Char} {index : Nat} {c : Char} (hc : text[index]? = some c) :
    ∃ d, (locate 1 1 text)[index]? = some d ∧ d.char = c := by
  have hchars := congrArg (·[index]?) (map_char_locate 1 1 text)
  simp only [List.getElem?_map, hc] at hchars
  exact Option.map_eq_some_iff.mp hchars

theorem getElem?_of_located {text : List Char} {index : Nat} {c : Located}
    (hc : (locate 1 1 text)[index]? = some c) : text[index]? = some c.char := by
  have hchars := congrArg (·[index]?) (map_char_locate 1 1 text)
  simp only [List.getElem?_map, hc] at hchars
  exact hchars.symm

/-- In order, no two characters stand in one place. -/
theorem eq_of_place_eq {characters : List Located}
    (hordered : characters.Pairwise fun a b => a.isBefore b = true) {c d : Located}
    (hc : c ∈ characters) (hd : d ∈ characters) (hplace : c.place = d.place) : c = d := by
  induction hordered with
  | nil => contradiction
  | @cons first rest hfirst _ ih =>
      cases hc with
      | head =>
          cases hd with
          | head => rfl
          | tail _ hd =>
              have hbefore := hfirst d hd
              rw [Located.not_isBefore_of_place_eq hplace] at hbefore
              contradiction
      | tail _ hc =>
          cases hd with
          | head =>
              have hbefore := hfirst c hc
              rw [Located.not_isBefore_of_place_eq hplace.symm] at hbefore
              contradiction
          | tail _ hd => exact ih hc hd

def quotesBefore (characters : List Located) (c : Located) : Nat :=
  quotes (characters.filter fun d => d.isBefore c)

theorem quotesBefore_eq_of_place_eq (characters : List Located) {c d : Located}
    (hplace : c.place = d.place) : quotesBefore characters c = quotesBefore characters d := by
  simp only [Located.place, Prod.mk.injEq] at hplace
  simp only [quotesBefore, Located.isBefore, hplace.1, hplace.2]

theorem quotesBefore_visible (characters : List Located) (c : Located) :
    quotesBefore (visible characters) c = quotesBefore characters c := by
  unfold quotesBefore quotes visible
  rw [List.countP_filter, List.countP_filter, List.countP_filter]
  congr 1
  funext d
  cases hquote : d.isQuote with
  | false => rfl
  | true => simp [Located.isBlank_eq_false_of_isQuote hquote]

theorem quotesBefore_of_ordered {before after : List Located} {c : Located}
    (hordered : (before ++ c :: after).Pairwise fun a b => a.isBefore b = true) :
    quotesBefore (before ++ c :: after) c = quotes before := by
  obtain ⟨_, hrest, hbetween⟩ := List.pairwise_append.mp hordered
  have hbefore : before.filter (fun d => d.isBefore c) = before :=
    List.filter_eq_self.mpr fun d hd => hbetween d hd c List.mem_cons_self
  have hafter : after.filter (fun d => d.isBefore c) = [] := by
    rw [List.filter_eq_nil_iff]
    intro d hd
    rw [Located.not_isBefore_of_isBefore ((List.pairwise_cons.mp hrest).1 d hd)]
    exact Bool.false_ne_true
  rw [quotesBefore, List.filter_append, hbefore,
    List.filter_cons_of_neg (by simp [Located.not_isBefore_of_place_eq]), hafter, List.append_nil]

theorem quotesBefore_locate {text : List Char} {index : Nat} {c : Located}
    (hc : (locate 1 1 text)[index]? = some c) :
    quotesBefore (locate 1 1 text) c = (text.take index).count quoteMark := by
  obtain ⟨hindex, hget⟩ := List.getElem?_eq_some_iff.mp hc
  have hsplit : locate 1 1 text =
      (locate 1 1 text).take index ++ c :: (locate 1 1 text).drop (index + 1) := by
    rw [← hget, List.getElem_cons_drop, List.take_append_drop]
  have hordered := (orderedFrom_locate 1 1 text).2
  rw [hsplit] at hordered
  have hcount := quotesBefore_of_ordered hordered
  rw [← hsplit] at hcount
  rw [hcount, ← map_char_locate 1 1 text, ← List.map_take, List.count, List.countP_map]
  rw [map_char_locate]
  rfl

theorem quotesBefore_lexerInput {text : List Char} {index : Nat} {c : Located}
    (hc : (locate 1 1 (stripComments text))[index]? = some c) :
    quotesBefore (lexerInput text) c = ((stripComments text).take index).count quoteMark := by
  rw [← quotesBefore_visible, visible_lexerInput, quotesBefore_visible, quotesBefore_locate hc]

theorem quotesBefore_of_lexerInput_eq {text : List Char} {before after : List Located}
    {c : Located} (hinput : lexerInput text = before ++ c :: after) :
    quotesBefore (lexerInput text) c = quotes before := by
  have hordered := ordered_lexerInput text
  rw [hinput] at hordered ⊢
  exact quotesBefore_of_ordered hordered

end JackTree
