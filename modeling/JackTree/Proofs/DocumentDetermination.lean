import JackTree.Frontend
import JackTree.Proofs.Escaping
import JackTree.Proofs.SourcePlaces
import JackTree.Proofs.LexerDecomposition
import JackTree.Proofs.TokenConservation

/-!
# Documents determine trees

A tree can be read back from its markers, and the markers from the lines of a
document, whatever line ends and indentation the document has.  String constants
are shown as they are, so this holds of documents only as long as no lexeme
contains a line feed; none that comes from a source text does.
-/

namespace JackTree

open Text

/-! ## Lexemes of leaf markers -/

theorem Text.eq_quoted_of_isStringText {text : List Char} (hstring : isStringText text = true) :
    text = quoteMark :: (text.tail.dropLast ++ [quoteMark]) := by
  cases text with
  | nil => contradiction
  | cons first rest =>
      simp only [isStringText, Bool.and_eq_true, beq_iff_eq] at hstring
      obtain ⟨⟨hfirst, hlast⟩, _⟩ := hstring
      obtain ⟨inner, rfl⟩ := List.getLast?_eq_some_iff.mp hlast
      rw [hfirst, List.tail_cons, List.dropLast_concat]

namespace Token

theorem isStringText_of_kind {token : Token} (hkind : token.kind = .stringConstant) :
    isStringText token.lexeme.toList = true := by
  unfold kind TokenKind.ofText at hkind
  split at hkind
  next => contradiction
  next =>
    by_cases hinteger : isIntegerText token.lexeme.toList = true
    · rw [if_pos hinteger] at hkind
      contradiction
    · rw [if_neg hinteger] at hkind
      by_cases hstring : isStringText token.lexeme.toList = true
      · exact hstring
      · rw [if_neg hstring] at hkind
        split at hkind <;> contradiction

theorem newline_notMem_rendered {token : Token} (hlexeme : '\n' ∉ token.lexeme.toList) :
    '\n' ∉ token.rendered.toList := by
  intro hmem
  apply hlexeme
  unfold rendered at hmem
  split at hmem
  next =>
    apply mem_of_mem_escape ?_ hmem
    intro d hd
    unfold entity at hd
    split at hd
    next => simp at hd
    split at hd
    next => simp at hd
    split at hd
    next => simp at hd
    split at hd
    next => simp at hd
    next => simpa using hd
  next =>
    unfold value at hmem
    split at hmem
    next =>
      rw [String.toList_ofList] at hmem
      rw [List.dropLast_eq_take] at hmem
      exact List.mem_of_mem_tail (List.mem_of_mem_take hmem)
    next => exact hmem

end Token

namespace Marker

def lexeme (tag value : String) : String :=
  if tag = TokenKind.symbol.tag then String.ofList (unescape value.toList)
  else if tag = TokenKind.stringConstant.tag then
    String.ofList (quoteMark :: (value.toList ++ [quoteMark]))
  else value

theorem lexeme_ofToken (token : Token) :
    lexeme token.kind.tag token.rendered = token.lexeme := by
  unfold Token.rendered Token.value
  cases hkind : token.kind with
  | keyword word => rfl
  | identifier => rfl
  | integerConstant => rfl
  | symbol =>
      change String.ofList (unescape (escape token.lexeme).toList) = token.lexeme
      rw [unescape_escape, String.ofList_toList]
  | stringConstant =>
      have hquoted := eq_quoted_of_isStringText (Token.isStringText_of_kind hkind)
      change String.ofList (quoteMark ::
        ((String.ofList token.lexeme.toList.tail.dropLast).toList ++ [quoteMark])) = token.lexeme
      rw [String.toList_ofList, ← hquoted, String.ofList_toList]

theorem ofToken_eq_of_lexeme {a b : Token} (hlexeme : a.lexeme = b.lexeme) :
    ofToken a = ofToken b := by
  unfold ofToken Token.rendered Token.value Token.kind
  rw [hlexeme]

end Marker

/-! ## Trees of markers -/

/-- One step of reading markers back, from the last one to the first.  The stack
holds, innermost first, what stands to the right in every node that is open. -/
def Marker.readBack : Marker → List (Forest String) → List (Forest String)
  | .leaf tag value, right :: outer => .leaf (lexeme tag value) right :: outer
  | .closing _, outer => .nil :: outer
  | .opening tag, children :: right :: outer =>
    match Rule.ofTag? tag with
    | some rule => .node rule children right :: outer
    | none => right :: outer
  | _, outer => outer

/-- The tree that a markup shows, with lexemes at its leaves. -/
def Markup.tree? (markup : Markup) : Option (Node String) :=
  match markup.markers.foldr Marker.readBack [.nil] with
  | [.node rule children .nil] => some ⟨rule, children⟩
  | _ => none

theorem Forest.readBack_markers (forest : Forest Token) (right : Forest String)
    (outer : List (Forest String)) :
    forest.markers.foldr Marker.readBack (right :: outer) =
      (forest.map Token.lexeme ++ right) :: outer := by
  induction forest generalizing right outer with
  | nil => rfl
  | leaf token rest ih =>
      rw [Forest.markers, List.foldr_cons, ih]
      simp only [Marker.ofToken, Marker.readBack, Marker.lexeme_ofToken]
      rfl
  | node rule children rest ihchildren ihrest =>
      rw [Forest.markers, List.foldr_cons, List.foldr_append, List.foldr_cons, ihrest]
      rw [Marker.readBack, ihchildren]
      simp only [Marker.readBack, Rule.ofTag?_tag, Forest.append_nil]
      rfl

theorem Markup.tree?_ofNode (node : Node Token) :
    (ofNode node).tree? = some (node.map Token.lexeme) := by
  unfold tree? ofNode
  rw [List.foldr_cons, List.foldr_append, List.foldr_cons, List.foldr_nil, Marker.readBack,
    Forest.readBack_markers]
  simp only [Marker.readBack, Rule.ofTag?_tag, Forest.append_nil]
  rfl

theorem Forest.markers_eq_of_map_lexeme {a b : Forest Token}
    (hmap : a.map Token.lexeme = b.map Token.lexeme) : a.markers = b.markers := by
  induction a generalizing b with
  | nil =>
      cases b with
      | nil => rfl
      | leaf => contradiction
      | node => contradiction
  | leaf token rest ih =>
      cases b with
      | nil => contradiction
      | leaf other behind =>
          simp only [Forest.map, Forest.leaf.injEq] at hmap
          rw [Forest.markers, Forest.markers, Marker.ofToken_eq_of_lexeme hmap.1, ih hmap.2]
      | node => contradiction
  | node rule children rest ihchildren ihrest =>
      cases b with
      | nil => contradiction
      | leaf => contradiction
      | node other below behind =>
          simp only [Forest.map, Forest.node.injEq] at hmap
          obtain ⟨rfl, hchildren, hrest⟩ := hmap
          rw [Forest.markers, Forest.markers, ihchildren hchildren, ihrest hrest]

theorem Markup.ofNode_eq_iff {a b : Node Token} :
    ofNode a = ofNode b ↔ a.map Token.lexeme = b.map Token.lexeme := by
  constructor
  · intro hmarkup
    have htree := congrArg tree? hmarkup
    rw [tree?_ofNode, tree?_ofNode] at htree
    exact Option.some.inj htree
  · intro hmap
    simp only [Node.map, Node.mk.injEq] at hmap
    unfold ofNode
    rw [hmap.1, Forest.markers_eq_of_map_lexeme hmap.2]

/-! ## Lines of markers -/

theorem Text.eq_of_append_cons_eq {c : Char} {a b behindA behindB : List Char} (ha : c ∉ a)
    (hb : c ∉ b) (hequal : a ++ c :: behindA = b ++ c :: behindB) :
    a = b ∧ behindA = behindB := by
  induction a generalizing b with
  | nil =>
      cases b with
      | nil => exact ⟨rfl, (List.cons.inj hequal).2⟩
      | cons d b =>
          have hd := (List.cons.inj hequal).1
          exact absurd (hd ▸ List.mem_cons_self) hb
  | cons d a ih =>
      cases b with
      | nil =>
          have hd := (List.cons.inj hequal).1
          exact absurd (hd ▸ List.mem_cons_self) ha
      | cons e b =>
          obtain ⟨rfl, hrest⟩ := List.cons.inj hequal
          have htails := ih (List.not_mem_of_not_mem_cons ha) (List.not_mem_of_not_mem_cons hb) hrest
          exact ⟨congrArg (d :: ·) htails.1, htails.2⟩

namespace Marker

def tag : Marker → String
  | opening tag => tag
  | closing tag => tag
  | leaf tag _ => tag

/-- What a marker has between its first two angle brackets. -/
def label : Marker → List Char
  | opening tag => tag.toList
  | closing tag => '/' :: tag.toList
  | leaf tag _ => tag.toList

/-- What a marker has behind its first two angle brackets. -/
def content : Marker → List Char
  | opening _ => []
  | closing _ => []
  | leaf tag value => ' ' :: (value.toList ++ (' ' :: '<' :: '/' :: tag.toList ++ ['>']))

theorem toList_toString (marker : Marker) :
    marker.toString.toList = '<' :: (marker.label ++ '>' :: marker.content) := by
  cases marker <;> simp [toString, label, content]

/-- Whether a marker fills a line and can be told from all other markers that do. -/
structure IsLine (marker : Marker) : Prop where
  letters : ∀ c ∈ marker.tag.toList, c.isAlpha = true
  newline_notMem : '\n' ∉ marker.content

theorem IsLine.notMem_tag {marker : Marker} (hline : marker.IsLine) {c : Char}
    (hc : c.isAlpha = false) : c ∉ marker.tag.toList := by
  intro hmem
  rw [hline.letters c hmem] at hc
  contradiction

theorem IsLine.notMem_label {marker : Marker} (hline : marker.IsLine) {c : Char}
    (hc : c.isAlpha = false) (hslash : c ≠ '/') : c ∉ marker.label := by
  have htag := hline.notMem_tag hc
  cases marker with
  | opening tag => exact htag
  | closing tag =>
      intro hmem
      cases hmem with
      | head => exact hslash rfl
      | tail _ hrest => exact htag hrest
  | leaf tag value => exact htag

theorem IsLine.newline_notMem_toString {marker : Marker} (hline : marker.IsLine) :
    '\n' ∉ marker.toString.toList := by
  have hlabel := hline.notMem_label (c := '\n') (by decide) (by decide)
  have hcontent := hline.newline_notMem
  rw [toList_toString]
  simp [hlabel, hcontent]

theorem eq_of_toString_eq {a b : Marker} (ha : a.IsLine) (hb : b.IsLine)
    (hequal : a.toString = b.toString) : a = b := by
  have hlists := congrArg String.toList hequal
  rw [toList_toString, toList_toString] at hlists
  obtain ⟨hlabel, hcontent⟩ := Text.eq_of_append_cons_eq
    (ha.notMem_label (by decide) (by decide)) (hb.notMem_label (by decide) (by decide))
    (List.cons.inj hlists).2
  have hslashA := ha.notMem_tag (c := '/') (by decide)
  have hslashB := hb.notMem_tag (c := '/') (by decide)
  cases a with
  | opening tag =>
      cases b with
      | opening other => rw [String.toList_inj.mp hlabel]
      | closing other =>
          change tag.toList = '/' :: other.toList at hlabel
          exact absurd (hlabel ▸ List.mem_cons_self) hslashA
      | leaf other value => contradiction
  | closing tag =>
      cases b with
      | opening other =>
          change '/' :: tag.toList = other.toList at hlabel
          exact absurd (hlabel ▸ List.mem_cons_self) hslashB
      | closing other => rw [String.toList_inj.mp (List.cons.inj hlabel).2]
      | leaf other value => contradiction
  | leaf tag value =>
      cases b with
      | opening other => contradiction
      | closing other => contradiction
      | leaf other shown =>
          have htag : tag = other := String.toList_inj.mp hlabel
          subst htag
          have hvalue := List.append_cancel_right (List.cons.inj hcontent).2
          rw [String.toList_inj.mp hvalue]

theorem eq_of_map_toString_eq {a b : List Marker} (ha : ∀ marker ∈ a, marker.IsLine)
    (hb : ∀ marker ∈ b, marker.IsLine) (hequal : a.map toString = b.map toString) : a = b := by
  induction a generalizing b with
  | nil => exact (List.map_eq_nil_iff.mp hequal.symm).symm
  | cons marker rest ih =>
      cases b with
      | nil => contradiction
      | cons other more =>
          obtain ⟨hmarker, hrest⟩ := List.forall_mem_cons.mp ha
          obtain ⟨hother, hmore⟩ := List.forall_mem_cons.mp hb
          have hheads := eq_of_toString_eq hmarker hother (List.cons.inj hequal).1
          rw [hheads, ih hrest hmore (List.cons.inj hequal).2]

end Marker

def Text.unindented (line : String) : String :=
  String.ofList (line.toList.dropWhile (· == ' '))

theorem Markup.unindented_indentation_append (depth indent : Nat) (marker : Marker) :
    unindented (indentation depth indent ++ marker.toString) = marker.toString := by
  unfold unindented indentation
  apply String.toList_inj.mp
  rw [String.toList_ofList, String.toList_append, String.toList_ofList, Marker.toList_toString,
    List.dropWhile_append_of_pos ?_, List.dropWhile_cons_of_neg (by decide)]
  intro c hc
  rw [List.eq_of_mem_replicate hc]
  decide

theorem Markup.map_unindented_indentedLines (indent depth : Nat) (markers : List Marker) :
    (indentedLines indent depth markers).map unindented = markers.map Marker.toString := by
  induction markers generalizing depth with
  | nil => rfl
  | cons marker rest ih =>
      unfold indentedLines
      split <;> rw [List.map_cons, List.map_cons, unindented_indentation_append, ih]

/-! ## Documents -/

/-- Lines that a line feed ends can be told apart when they are joined. -/
theorem Text.eq_of_intercalate_eq {before : List Char} (hbefore : '\n' ∉ before)
    {a b : List (List Char)} (ha : ∀ line ∈ a, '\n' ∉ line) (hb : ∀ line ∈ b, '\n' ∉ line)
    (hnonemptyA : a ≠ []) (hnonemptyB : b ≠ [])
    (hequal : (before ++ ['\n']).intercalate a = (before ++ ['\n']).intercalate b) : a = b := by
  induction a generalizing b with
  | nil => contradiction
  | cons line more ih =>
      cases b with
      | nil => contradiction
      | cons other rest =>
          obtain ⟨hline, hmore⟩ := List.forall_mem_cons.mp ha
          obtain ⟨hother, hrest⟩ := List.forall_mem_cons.mp hb
          by_cases hnilA : more = []
          · by_cases hnilB : rest = []
            · subst hnilA hnilB
              simpa using hequal
            · subst hnilA
              rw [List.intercalate_singleton, List.intercalate_cons_of_ne_nil hnilB] at hequal
              rw [hequal] at hline
              simp at hline
          · by_cases hnilB : rest = []
            · subst hnilB
              rw [List.intercalate_singleton, List.intercalate_cons_of_ne_nil hnilA] at hequal
              rw [← hequal] at hother
              simp at hother
            · rw [List.intercalate_cons_of_ne_nil hnilA, List.intercalate_cons_of_ne_nil hnilB,
                ← List.append_assoc, ← List.append_assoc, List.append_assoc _ ['\n'],
                List.append_assoc _ ['\n'], List.singleton_append, List.singleton_append] at hequal
              have hparts := eq_of_append_cons_eq (by simp [hline, hbefore])
                (by simp [hother, hbefore]) hequal
              rw [List.append_cancel_right hparts.1, ih hmore hrest hnilA hnilB hparts.2]

theorem LineEnding.exists_text (ending : LineEnding) :
    ∃ before, ending.text.toList = before ++ ['\n'] ∧ '\n' ∉ before := by
  cases ending with
  | crlf => exact ⟨['\r'], by decide, by decide⟩
  | lf => exact ⟨[], by decide, by decide⟩

namespace Markup

theorem newline_notMem_indentedLines {markers : List Marker}
    (hmarkers : ∀ marker ∈ markers, marker.IsLine) (indent depth : Nat) :
    ∀ line ∈ indentedLines indent depth markers, '\n' ∉ line.toList := by
  have hline : ∀ (marker : Marker) (depth : Nat), marker.IsLine →
      '\n' ∉ (indentation depth indent ++ marker.toString).toList := by
    intro marker depth hmarker
    have hplain := hmarker.newline_notMem_toString
    rw [String.toList_append, indentation, String.toList_ofList]
    simp [hplain]
  induction markers generalizing depth with
  | nil => simp [indentedLines]
  | cons marker rest ih =>
      obtain ⟨hmarker, hrest⟩ := List.forall_mem_cons.mp hmarkers
      unfold indentedLines
      split <;> exact List.forall_mem_cons.mpr ⟨hline _ _ hmarker, ih hrest _⟩

theorem eq_of_render_eq {a b : Markup} (ha : ∀ marker ∈ a.markers, marker.IsLine)
    (hb : ∀ marker ∈ b.markers, marker.IsLine) (hnonemptyA : a.markers ≠ [])
    (hnonemptyB : b.markers ≠ []) {options : RenderOptions}
    (hrender : a.render options = b.render options) : a = b := by
  have hlength : ∀ markers : List Marker,
      markers ≠ [] → indentedLines options.indent 0 markers ≠ [] := by
    intro markers hmarkers hnil
    have hmap := map_unindented_indentedLines options.indent 0 markers
    rw [hnil] at hmap
    exact hmarkers (List.map_eq_nil_iff.mp hmap.symm)
  obtain ⟨before, hending, hbefore⟩ := options.lineEnding.exists_text
  have htexts := congrArg String.toList hrender
  rw [render, render, String.toList_intercalate, String.toList_intercalate, hending] at htexts
  have hlines := eq_of_intercalate_eq hbefore
    (List.forall_mem_map.mpr (newline_notMem_indentedLines ha options.indent 0))
    (List.forall_mem_map.mpr (newline_notMem_indentedLines hb options.indent 0))
    (by simpa using hlength _ hnonemptyA) (by simpa using hlength _ hnonemptyB) htexts
  have hstrings := (List.map_inj_right fun _ _ => String.toList_inj.mp).mp hlines
  have hmarkers := congrArg (List.map unindented) hstrings
  rw [map_unindented_indentedLines, map_unindented_indentedLines] at hmarkers
  exact congrArg Markup.mk (Marker.eq_of_map_toString_eq ha hb hmarkers)

end Markup

/-! ## Documents of trees -/

theorem Rule.letters_tag (rule : Rule) : ∀ c ∈ rule.tag.toList, c.isAlpha = true := by
  have hall : rule.tag.toList.all Char.isAlpha = true := by
    cases rule <;> decide
  exact List.all_eq_true.mp hall

theorem TokenKind.letters_tag (kind : TokenKind) : ∀ c ∈ kind.tag.toList, c.isAlpha = true := by
  have hall : kind.tag.toList.all Char.isAlpha = true := by
    cases kind <;> simp only [TokenKind.tag] <;> decide
  exact List.all_eq_true.mp hall

theorem Marker.isLine_ofToken {token : Token} (hlexeme : '\n' ∉ token.lexeme.toList) :
    (Marker.ofToken token).IsLine := by
  have hletters := token.kind.letters_tag
  refine ⟨hletters, ?_⟩
  have htag : '\n' ∉ token.kind.tag.toList := by
    intro hmem
    have halpha := hletters _ hmem
    contradiction
  have hvalue := Token.newline_notMem_rendered hlexeme
  simp [Marker.content, Marker.ofToken, htag, hvalue]

theorem Forest.isLine_markers {forest : Forest Token}
    (hleaves : ∀ token ∈ forest.leaves, '\n' ∉ token.lexeme.toList) :
    ∀ marker ∈ forest.markers, marker.IsLine := by
  induction forest with
  | nil => simp [Forest.markers]
  | leaf token rest ih =>
      obtain ⟨htoken, hrest⟩ := List.forall_mem_cons.mp hleaves
      exact List.forall_mem_cons.mpr ⟨Marker.isLine_ofToken htoken, ih hrest⟩
  | node rule children rest ihchildren ihrest =>
      obtain ⟨hchildren, hrest⟩ := List.forall_mem_append.mp hleaves
      rw [Forest.markers, List.forall_mem_cons, List.forall_mem_append, List.forall_mem_cons]
      have hopening : (Marker.opening rule.tag).IsLine := ⟨rule.letters_tag, List.not_mem_nil⟩
      have hclosing : (Marker.closing rule.tag).IsLine := ⟨rule.letters_tag, List.not_mem_nil⟩
      exact ⟨hopening, ihchildren hchildren, hclosing, ihrest hrest⟩

namespace Markup

theorem isLine_ofNode {node : Node Token}
    (hleaves : ∀ token ∈ node.leaves, '\n' ∉ token.lexeme.toList) :
    ∀ marker ∈ (ofNode node).markers, marker.IsLine := by
  rw [ofNode, List.forall_mem_cons, List.forall_mem_append, List.forall_mem_singleton]
  have hopening : (Marker.opening node.rule.tag).IsLine :=
    ⟨node.rule.letters_tag, List.not_mem_nil⟩
  have hclosing : (Marker.closing node.rule.tag).IsLine :=
    ⟨node.rule.letters_tag, List.not_mem_nil⟩
  exact ⟨hopening, Forest.isLine_markers hleaves, hclosing⟩

theorem render_ofNode_eq_iff {a b : Node Token}
    (ha : ∀ token ∈ a.leaves, '\n' ∉ token.lexeme.toList)
    (hb : ∀ token ∈ b.leaves, '\n' ∉ token.lexeme.toList) (options : RenderOptions) :
    (ofNode a).render options = (ofNode b).render options ↔
      a.map Token.lexeme = b.map Token.lexeme := by
  rw [← ofNode_eq_iff]
  constructor
  · exact eq_of_render_eq (isLine_ofNode ha) (isLine_ofNode hb) (List.cons_ne_nil _ _)
      (List.cons_ne_nil _ _)
  · intro hmarkup
    rw [hmarkup]

end Markup

/-! ## Lexemes of source texts -/

theorem newline_notMem_of_lexSource {text : String} {options : LexerOptions}
    {stream : TokenStream} (hlex : lexSource text options = .ok stream) :
    ∀ token ∈ stream.tokens, '\n' ∉ token.lexeme.toList := by
  unfold lexSource at hlex
  split at hlex
  next tokens htokens =>
    rw [← Except.ok.inj hlex]
    obtain ⟨cuts, left, hlexes, rfl⟩ := Lexer.exists_lexes_of_tokenize htokens
    intro token htoken
    obtain ⟨cut, hcut, rfl⟩ := List.mem_map.mp htoken
    intro hnewline
    change '\n' ∈ (String.ofList (cut.characters.map Located.char)).toList at hnewline
    rw [String.toList_ofList] at hnewline
    obtain ⟨c, hc, hchar⟩ := List.mem_map.mp hnewline
    have hinput := hlexes.mem_input (List.mem_flatMap_of_mem hcut hc)
    exact newline_notMem_lexerInput hinput hchar
  next => contradiction

theorem newline_notMem_of_parseSource {text : String} {options : LexerOptions}
    {node : Node Token} (hparse : parseSource text options = .ok node) :
    ∀ token ∈ node.leaves, '\n' ∉ token.lexeme.toList := by
  cases hlex : lexSource text options with
  | error error =>
      rw [parseSource, hlex] at hparse
      contradiction
  | ok stream =>
      rw [parseSource, hlex] at hparse
      obtain ⟨_, hclass⟩ := TokenStream.parseClass_eq_ok_iff.mp hparse
      have hleaves : stream.remaining = node.leaves ++ [] := hclass.eq_leaves_append
      rw [remaining_of_lexSource hlex, List.append_nil] at hleaves
      rw [← hleaves]
      exact newline_notMem_of_lexSource hlex

/-- The markup of a tree determines the tree, and so does each of its documents
while no lexeme contains a line feed, as is the case for all source texts. -/
theorem document_determines_tree :
    (∀ a b : Node Token,
      Markup.ofNode a = Markup.ofNode b ↔ a.map Token.lexeme = b.map Token.lexeme) ∧
    (∀ (options : RenderOptions) (a b : Node Token),
      (∀ token ∈ a.leaves, '\n' ∉ token.lexeme.toList) →
      (∀ token ∈ b.leaves, '\n' ∉ token.lexeme.toList) →
        ((Markup.ofNode a).render options = (Markup.ofNode b).render options ↔
          a.map Token.lexeme = b.map Token.lexeme)) ∧
    (∀ (text : String) (options : LexerOptions) (stream : TokenStream),
      lexSource text options = .ok stream →
        ∀ token ∈ stream.tokens, '\n' ∉ token.lexeme.toList) ∧
    (∀ (first second : String) (lexing lexing' : LexerOptions) (options : RenderOptions)
      (a b : Node Token),
      parseSource first lexing = .ok a → parseSource second lexing' = .ok b →
        ((Markup.ofNode a).render options = (Markup.ofNode b).render options ↔
          a.map Token.lexeme = b.map Token.lexeme)) := by
  refine ⟨fun _ _ => Markup.ofNode_eq_iff, ?_, ?_, ?_⟩
  · intro options a b ha hb
    exact Markup.render_ofNode_eq_iff ha hb options
  · intro text options stream hlex
    exact newline_notMem_of_lexSource hlex
  · intro first second lexing lexing' options a b ha hb
    exact Markup.render_ofNode_eq_iff (newline_notMem_of_parseSource ha)
      (newline_notMem_of_parseSource hb) options

/-- Comments and blanks leave no trace in a document, and a string constant that
reads like a symbol in a document is shown otherwise than the symbol. -/
theorem document_determines_tree_of_small_texts :
    (∃ a b, parseSource "class A \x7b \x7d" = .ok a ∧
      parseSource "// A\nclass A/**/\x7b\n\x7d" = .ok b ∧
        (Markup.ofNode a).render {} = (Markup.ofNode b).render {}) ∧
    (let a : Node Token := ⟨.term, .leaf ⟨"\"&lt;\"", default⟩ .nil⟩
     let b : Node Token := ⟨.term, .leaf ⟨"<", default⟩ .nil⟩
     (∀ token ∈ a.leaves, '\n' ∉ token.lexeme.toList) ∧
      (∀ token ∈ b.leaves, '\n' ∉ token.lexeme.toList) ∧
        (Markup.ofNode a).render ⟨.lf, 2⟩ ≠ (Markup.ofNode b).render ⟨.lf, 2⟩) := by
  constructor
  · have hsame : (parseSource "class A \x7b \x7d").toOption.map (Node.map Token.lexeme) =
          (parseSource "// A\nclass A/**/\x7b\n\x7d").toOption.map (Node.map Token.lexeme) ∧
        (parseSource "class A \x7b \x7d").isOk = true := by
      decide +kernel
    cases ha : parseSource "class A \x7b \x7d" with
    | error error =>
        rw [ha] at hsame
        exact absurd hsame.2 Bool.false_ne_true
    | ok a =>
        cases hb : parseSource "// A\nclass A/**/\x7b\n\x7d" with
        | error error =>
            rw [ha, hb] at hsame
            exact absurd hsame.1 (Option.some_ne_none _)
        | ok b =>
            rw [ha, hb] at hsame
            have htrees := Option.some.inj hsame.1
            exact ⟨a, b, rfl, rfl, (document_determines_tree.2.2.2 _ _ _ _ _ a b ha hb).mpr htrees⟩
  · intro a b
    have ha : ∀ token ∈ a.leaves, '\n' ∉ token.lexeme.toList := by decide
    have hb : ∀ token ∈ b.leaves, '\n' ∉ token.lexeme.toList := by decide
    refine ⟨ha, hb, ?_⟩
    intro hrender
    have htrees := (document_determines_tree.2.1 _ a b ha hb).mp hrender
    revert htrees
    decide

end JackTree
