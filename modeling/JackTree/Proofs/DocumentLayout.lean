import JackTree.Proofs.DocumentDetermination

/-!
# Layout of documents

A document is written in one pass over the markers of a tree, with a count of the nodes
that are open.  `documents_follow_their_trees` says that this gives what printing the
tree from the top down gives, every node one step deeper than the node it belongs to.
The lines of a document can be had back from it, and its line ends exchanged.
-/

namespace JackTree

open Text

/-! ## Printing from the top down -/

def Text.spaces (count : Nat) : String :=
  String.ofList (List.replicate count ' ')

/-- The lines of a forest that stands at some depth. -/
def Forest.printed (indent : Nat) : Nat → Forest Token → List String
  | _, .nil => []
  | depth, .leaf token rest =>
    (spaces (depth * indent) ++ "<" ++ token.kind.tag ++ "> " ++ token.rendered ++ " </"
      ++ token.kind.tag ++ ">") :: printed indent depth rest
  | depth, .node rule children rest =>
    (spaces (depth * indent) ++ "<" ++ rule.tag ++ ">") ::
      (printed indent (depth + 1) children
        ++ (spaces (depth * indent) ++ "</" ++ rule.tag ++ ">") :: printed indent depth rest)

def Node.printed (indent : Nat) (node : Node Token) : List String :=
  Forest.printed indent 0 (.node node.rule node.children .nil)

theorem Forest.indentedLines_markers_append (forest : Forest Token) (indent depth : Nat)
    (behind : List Marker) :
    Markup.indentedLines indent depth (forest.markers ++ behind) =
      forest.printed indent depth ++ Markup.indentedLines indent depth behind := by
  induction forest generalizing depth behind with
  | nil => rfl
  | leaf token rest ih =>
      rw [markers, List.cons_append, Marker.ofToken, Markup.indentedLines, ih, printed,
        List.cons_append]
      simp only [Marker.toString, Markup.indentation, spaces, String.append_assoc]
  | node rule children rest ihchildren ihrest =>
      rw [markers, List.cons_append, List.append_assoc, List.cons_append, Markup.indentedLines,
        ihchildren, Markup.indentedLines, Nat.add_sub_cancel, ihrest, printed]
      simp only [Marker.toString, Markup.indentation, spaces, String.append_assoc,
        List.cons_append, List.append_assoc]

theorem Node.indentedLines_ofNode (node : Node Token) (indent : Nat) :
    Markup.indentedLines indent 0 (Markup.ofNode node).markers = node.printed indent := by
  have hlines := Forest.indentedLines_markers_append (.node node.rule node.children .nil) indent 0 []
  rwa [List.append_nil, Markup.indentedLines, List.append_nil] at hlines

example :
    Node.printed 2
        ⟨.expression, .node .term (.leaf ⟨"a", default⟩ .nil) (.leaf ⟨"<", default⟩ .nil)⟩ =
      ["<expression>", "  <term>", "    <identifier> a </identifier>", "  </term>",
        "  <symbol> &lt; </symbol>", "</expression>"] := by decide

/-! ## Writing in one pass -/

/-- A document in the making: its text, how many lines that has, and how many nodes are
open. -/
structure Draft where
  text : String := ""
  lines : Nat := 0
  depth : Nat := 0

namespace Draft

/-- How deep a marker is written.  A closing marker stands where its node does. -/
def depthOf (draft : Draft) : Marker → Nat
  | .closing _ => draft.depth - 1
  | _ => draft.depth

def write (options : RenderOptions) (draft : Draft) (marker : Marker) : Draft where
  text :=
    (if draft.lines = 0 then draft.text else draft.text ++ options.lineEnding.text)
      ++ spaces (draft.depthOf marker * options.indent) ++ marker.toString
  lines := draft.lines + 1
  depth :=
    match marker with
    | .opening _ => draft.depthOf marker + 1
    | _ => draft.depthOf marker

def writeAll (options : RenderOptions) (draft : Draft) (markers : List Marker) : Draft :=
  markers.foldl (write options) draft

def ofMarkers (options : RenderOptions) (markers : List Marker) : Draft :=
  writeAll options {} markers

variable {options : RenderOptions} {draft : Draft}

@[simp] theorem writeAll_nil : draft.writeAll options [] = draft :=
  rfl

@[simp] theorem writeAll_cons (marker : Marker) (rest : List Marker) :
    draft.writeAll options (marker :: rest) = (draft.write options marker).writeAll options rest :=
  rfl

theorem writeAll_append (left right : List Marker) :
    draft.writeAll options (left ++ right) =
      (draft.writeAll options left).writeAll options right :=
  List.foldl_append

theorem text_write (marker : Marker) :
    (draft.write options marker).text =
      (if draft.lines = 0 then draft.text else draft.text ++ options.lineEnding.text)
        ++ spaces (draft.depthOf marker * options.indent) ++ marker.toString :=
  rfl

@[simp] theorem lines_write (marker : Marker) :
    (draft.write options marker).lines = draft.lines + 1 :=
  rfl

@[simp] theorem depth_write_opening (tag : String) :
    (draft.write options (.opening tag)).depth = draft.depth + 1 :=
  rfl

@[simp] theorem depth_write_closing (tag : String) :
    (draft.write options (.closing tag)).depth = draft.depth - 1 :=
  rfl

@[simp] theorem depth_write_leaf (tag value : String) :
    (draft.write options (.leaf tag value)).depth = draft.depth :=
  rfl

/-! ### The text -/

/-- Whether a draft consists of some lines. -/
structure Shows (options : RenderOptions) (draft : Draft) (lines : List String) : Prop where
  text_eq : draft.text = options.lineEnding.text.intercalate lines
  lines_eq : draft.lines = lines.length

theorem Shows.write {lines : List String} (hshows : draft.Shows options lines) (marker : Marker) :
    (draft.write options marker).Shows options
      (lines ++ [spaces (draft.depthOf marker * options.indent) ++ marker.toString]) := by
  refine ⟨?_, by simp [hshows.lines_eq]⟩
  rw [text_write, hshows.text_eq, hshows.lines_eq]
  cases lines with
  | nil => simp
  | cons first lines =>
      rw [String.intercalate_append_of_ne_nil (List.cons_ne_nil _ _) (List.cons_ne_nil _ _),
        String.intercalate_singleton, String.append_assoc]
      rfl

theorem indentedLines_cons (marker : Marker) (rest : List Marker) :
    Markup.indentedLines options.indent draft.depth (marker :: rest) =
      (spaces (draft.depthOf marker * options.indent) ++ marker.toString) ::
        Markup.indentedLines options.indent (draft.write options marker).depth rest := by
  cases marker <;> rfl

theorem Shows.writeAll {lines : List String} (hshows : draft.Shows options lines)
    (markers : List Marker) :
    (draft.writeAll options markers).Shows options
      (lines ++ Markup.indentedLines options.indent draft.depth markers) := by
  induction markers generalizing draft lines with
  | nil =>
      rw [Markup.indentedLines, List.append_nil]
      exact hshows
  | cons marker rest ih =>
      have hrest := ih (hshows.write marker)
      rwa [List.append_assoc, List.singleton_append, ← indentedLines_cons] at hrest

theorem text_ofMarkers (options : RenderOptions) (markup : Markup) :
    (ofMarkers options markup.markers).text = markup.render options := by
  have hempty : ({} : Draft).Shows options [] := ⟨String.intercalate_nil.symm, rfl⟩
  exact (hempty.writeAll markup.markers).text_eq

/-! ### The depth -/

theorem depth_writeAll_markers (forest : Forest Token) :
    (draft.writeAll options forest.markers).depth = draft.depth := by
  induction forest generalizing draft with
  | nil => rfl
  | leaf token rest ih =>
      rw [Forest.markers, writeAll_cons, ih, Marker.ofToken, depth_write_leaf]
  | node rule children rest ihchildren ihrest =>
      rw [Forest.markers, writeAll_cons, writeAll_append, writeAll_cons, ihrest,
        depth_write_closing, ihchildren, depth_write_opening, Nat.add_sub_cancel]

/-- Inside a forest a node is open where one is closed. -/
theorem depth_lt_of_closing (draft : Draft) {forest : Forest Token} {before after : List Marker}
    {tag : String}
    (hsplit : forest.markers = before ++ .closing tag :: after) :
    draft.depth < (draft.writeAll options before).depth := by
  induction forest generalizing draft before after with
  | nil => simp [Forest.markers] at hsplit
  | leaf token rest ih =>
      cases before with
      | nil => simp [Forest.markers, Marker.ofToken] at hsplit
      | cons marker before =>
          rcases List.cons.inj hsplit with ⟨rfl, hrest⟩
          exact ih (draft.write options (.ofToken token)) hrest
  | node rule children rest ihchildren ihrest =>
      cases before with
      | nil => simp [Forest.markers] at hsplit
      | cons marker before =>
          rcases List.cons.inj hsplit with ⟨rfl, hbehind⟩
          rw [writeAll_cons]
          rcases List.append_eq_append_iff.mp hbehind with
            ⟨middle, rfl, hmiddle⟩ | ⟨middle, hchildren, hmiddle⟩
          · rw [writeAll_append]
            cases middle with
            | nil =>
                rw [writeAll_nil, depth_writeAll_markers, depth_write_opening]
                exact Nat.lt_succ_self _
            | cons closing middle =>
                rcases List.cons.inj hmiddle with ⟨rfl, hrest⟩
                have hdepth := ihrest (((draft.write options (.opening rule.tag)).writeAll
                  options children.markers).write options (.closing rule.tag)) hrest
                rwa [depth_write_closing, depth_writeAll_markers, depth_write_opening,
                  Nat.add_sub_cancel] at hdepth
          · cases middle with
            | nil =>
                rw [List.append_nil] at hchildren
                rw [← hchildren, depth_writeAll_markers, depth_write_opening]
                exact Nat.lt_succ_self _
            | cons closing middle =>
                rw [← (List.cons.inj hmiddle).1] at hchildren
                have hdepth := ihchildren (draft.write options (.opening rule.tag)) hchildren
                exact Nat.lt_of_succ_lt hdepth

end Draft

/-! ## Parts of a text -/

/-- The parts of a text between the occurrences of a separator, which are found from
left to right. -/
def Text.splitAround (separator : List Char) : List Char → List (List Char)
  | [] => [[]]
  | c :: rest =>
    if separator ≠ [] ∧ separator.isPrefixOf (c :: rest) = true then
      [] :: splitAround separator (rest.drop (separator.length - 1))
    else
      match splitAround separator rest with
      | [] => [[c]]
      | part :: more => (c :: part) :: more
termination_by text => text.length
decreasing_by all_goals simp only [List.length_drop, List.length_cons]; omega

/-- The text with each occurrence of some characters, found from left to right,
replaced by others. -/
def Text.replaced (old new : List Char) : List Char → List Char
  | [] => []
  | c :: rest =>
    if old ≠ [] ∧ old.isPrefixOf (c :: rest) = true then
      new ++ replaced old new (rest.drop (old.length - 1))
    else c :: replaced old new rest
termination_by text => text.length
decreasing_by all_goals simp only [List.length_drop, List.length_cons]; omega

theorem Text.splitAround_ne_nil (separator text : List Char) : splitAround separator text ≠ [] := by
  unfold splitAround
  split
  next => simp
  next =>
    split
    next => simp
    next => split <;> simp

theorem Text.replaced_eq_intercalate (old new text : List Char) :
    replaced old new text = new.intercalate (splitAround old text) := by
  fun_induction replaced old new text with
  | case1 => simp [splitAround]
  | case2 c rest hfound ih =>
      rw [splitAround, if_pos hfound, List.intercalate_cons_of_ne_nil (splitAround_ne_nil _ _), ih,
        List.nil_append]
  | case3 c rest hfound ih =>
      rw [splitAround, if_neg hfound, ih]
      cases hparts : splitAround old rest with
      | nil => exact absurd hparts (splitAround_ne_nil _ _)
      | cons part more => rw [List.intercalate_cons_cons_left]

section Separator

variable {before : List Char}

/-- A separator that a line feed ends is not found where a line goes on. -/
theorem Text.isPrefixOf_separator_eq_false (hbefore : '\n' ∉ before) {c : Char}
    {part : List Char} (hpart : '\n' ∉ c :: part) (rest : List Char) :
    (before ++ ['\n']).isPrefixOf (c :: (part ++ (before ++ '\n' :: rest))) = false := by
  rw [Bool.eq_false_iff, Ne, List.isPrefixOf_iff_prefix]
  rintro ⟨behind, hbehind⟩
  have hsplit : before ++ '\n' :: behind = (c :: part ++ before) ++ '\n' :: rest := by
    simpa using hbehind
  have hboth : '\n' ∉ c :: part ++ before := List.not_mem_append hpart hbefore
  have hlength := congrArg List.length (eq_of_append_cons_eq hbefore hboth hsplit).1
  simp only [List.length_append, List.length_cons] at hlength
  omega

theorem Text.splitAround_append (hbefore : '\n' ∉ before) {part : List Char} (hpart : '\n' ∉ part)
    (rest : List Char) :
    splitAround (before ++ ['\n']) (part ++ (before ++ '\n' :: rest)) =
      part :: splitAround (before ++ ['\n']) rest := by
  induction part with
  | nil =>
      have hprefix : (before ++ ['\n']).isPrefixOf (before ++ '\n' :: rest) = true := by
        rw [List.isPrefixOf_iff_prefix]
        exact ⟨rest, by simp⟩
      have hwhole : before ++ '\n' :: rest = (before ++ ['\n']) ++ rest := List.append_cons ..
      have hdrop : (before ++ '\n' :: rest).drop (before ++ ['\n']).length = rest := by
        rw [hwhole, List.drop_left]
      rw [List.nil_append]
      generalize before ++ '\n' :: rest = text at hprefix hdrop
      cases text with
      | nil => simp at hprefix
      | cons c text =>
          rw [splitAround, if_pos ⟨by simp, hprefix⟩, ← hdrop]
          simp
  | cons c part ih =>
      have hnone := isPrefixOf_separator_eq_false hbefore hpart rest
      rw [List.cons_append, splitAround, if_neg (by simp [hnone]),
        ih (List.not_mem_of_not_mem_cons hpart)]

theorem Text.splitAround_of_newline_notMem {text : List Char} (htext : '\n' ∉ text) :
    splitAround (before ++ ['\n']) text = [text] := by
  induction text with
  | nil => rw [splitAround]
  | cons c rest ih =>
      have hnone : (before ++ ['\n']).isPrefixOf (c :: rest) = false := by
        rw [Bool.eq_false_iff, Ne, List.isPrefixOf_iff_prefix]
        exact fun hfront => htext (hfront.subset (by simp))
      rw [splitAround, if_neg (by simp [hnone]), ih (List.not_mem_of_not_mem_cons htext)]

theorem Text.splitAround_intercalate (hbefore : '\n' ∉ before) {parts : List (List Char)}
    (hparts : ∀ part ∈ parts, '\n' ∉ part) (hnonempty : parts ≠ []) :
    splitAround (before ++ ['\n']) ((before ++ ['\n']).intercalate parts) = parts := by
  induction parts with
  | nil => contradiction
  | cons part more ih =>
      rcases List.forall_mem_cons.mp hparts with ⟨hpart, hmore⟩
      by_cases hnil : more = []
      · rw [hnil, List.intercalate_singleton, splitAround_of_newline_notMem hpart]
      · rw [List.intercalate_cons_of_ne_nil hnil, List.append_assoc, List.append_assoc,
          List.singleton_append, splitAround_append hbefore hpart, ih hmore hnil]

end Separator

/-! ## Lines of a document -/

/-- A document falls apart into the lines it was put together from. -/
theorem Node.splitAround_render {node : Node Token}
    (hleaves : ∀ token ∈ node.leaves, '\n' ∉ token.lexeme.toList) (options : RenderOptions) :
    splitAround options.lineEnding.text.toList
        ((Markup.ofNode node).render options).toList =
      (Markup.indentedLines options.indent 0 (Markup.ofNode node).markers).map String.toList := by
  rcases options.lineEnding.exists_text with ⟨before, hending, hbefore⟩
  have hlines := Markup.newline_notMem_indentedLines (Markup.isLine_ofNode hleaves)
    options.indent 0
  rw [Markup.render, String.toList_intercalate, hending]
  apply splitAround_intercalate hbefore (List.forall_mem_map.mpr hlines)
  simp [Markup.ofNode, Markup.indentedLines]

theorem Node.map_unindented_splitAround_render {node : Node Token}
    (hleaves : ∀ token ∈ node.leaves, '\n' ∉ token.lexeme.toList) (options : RenderOptions) :
    (splitAround options.lineEnding.text.toList
        ((Markup.ofNode node).render options).toList).map
          (fun line => unindented (String.ofList line)) =
      (Markup.ofNode node).lines := by
  rw [splitAround_render hleaves, List.map_map]
  have hsame : (fun line => unindented (String.ofList line)) ∘ String.toList = unindented :=
    funext fun line => congrArg unindented String.ofList_toList
  rw [hsame, Markup.map_unindented_indentedLines]
  rfl

theorem Node.replaced_render {node : Node Token}
    (hleaves : ∀ token ∈ node.leaves, '\n' ∉ token.lexeme.toList) (indent : Nat) :
    replaced LineEnding.crlf.text.toList LineEnding.lf.text.toList
        ((Markup.ofNode node).render ⟨.crlf, indent⟩).toList =
      ((Markup.ofNode node).render ⟨.lf, indent⟩).toList := by
  have hparts := splitAround_render hleaves ⟨.crlf, indent⟩
  rw [replaced_eq_intercalate, hparts, Markup.render, String.toList_intercalate]

/-! ## Documents and trees -/

/-- A document shows what printing its tree gives.  When it is written in one pass, no
node is closed where none is open, and none is open at the end.  As long as no lexeme
contains a line feed, the lines of the markers are the parts of the document less their
indentation, and only the line ends tell the two kinds of documents apart. -/
theorem documents_follow_their_trees (node : Node Token) (options : RenderOptions) :
    (Markup.ofNode node).render options =
      options.lineEnding.text.intercalate (node.printed options.indent) ∧
    (Draft.ofMarkers options (Markup.ofNode node).markers).text =
      (Markup.ofNode node).render options ∧
    (∀ before tag after, (Markup.ofNode node).markers = before ++ .closing tag :: after →
      0 < (Draft.ofMarkers options before).depth) ∧
    (Draft.ofMarkers options (Markup.ofNode node).markers).depth = 0 ∧
    ((∀ token ∈ node.leaves, '\n' ∉ token.lexeme.toList) →
      (splitAround options.lineEnding.text.toList
          ((Markup.ofNode node).render options).toList).map
            (fun line => unindented (String.ofList line)) =
          (Markup.ofNode node).lines ∧
        replaced LineEnding.crlf.text.toList LineEnding.lf.text.toList
            ((Markup.ofNode node).render ⟨.crlf, options.indent⟩).toList =
          ((Markup.ofNode node).render ⟨.lf, options.indent⟩).toList) := by
  have hmarkers : (Markup.ofNode node).markers =
      (Forest.node node.rule node.children .nil).markers := rfl
  refine ⟨?_, Draft.text_ofMarkers options _, ?_, ?_, ?_⟩
  · rw [Markup.render, Node.indentedLines_ofNode]
  · intro before tag after hsplit
    exact Draft.depth_lt_of_closing {} (hmarkers.symm.trans hsplit)
  · rw [hmarkers]
    exact Draft.depth_writeAll_markers _
  · intro hleaves
    exact ⟨Node.map_unindented_splitAround_render hleaves options,
      Node.replaced_render hleaves options.indent⟩

/-- A carriage return inside a string constant ends no line of a document. -/
theorem document_follows_tree_of_comparison :
    let node : Node Token :=
      ⟨.expression, .node .term (.leaf ⟨"\"a\r\"", default⟩ .nil) (.leaf ⟨"<", default⟩ .nil)⟩
    let opened := [Marker.opening "expression", .opening "term", .leaf "stringConstant" "a\r"]
    (Markup.ofNode node).markers =
        opened ++ [.closing "term", .leaf "symbol" "&lt;", .closing "expression"] ∧
      0 < (Draft.ofMarkers ⟨.crlf, 2⟩ opened).depth ∧
      (∀ token ∈ node.leaves, '\n' ∉ token.lexeme.toList) ∧
      (splitAround ['\r', '\n'] ((Markup.ofNode node).render ⟨.crlf, 2⟩).toList).map
          (fun line => unindented (String.ofList line)) =
        ["<expression>", "<term>", "<stringConstant> a\r </stringConstant>", "</term>",
          "<symbol> &lt; </symbol>", "</expression>"] := by
  intro node opened
  have hmarkers : (Markup.ofNode node).markers =
      opened ++ [.closing "term", .leaf "symbol" "&lt;", .closing "expression"] := by decide
  have hleaves : ∀ token ∈ node.leaves, '\n' ∉ token.lexeme.toList := by decide
  have hlines : (Markup.ofNode node).lines =
      ["<expression>", "<term>", "<stringConstant> a\r </stringConstant>", "</term>",
        "<symbol> &lt; </symbol>", "</expression>"] := by decide
  rcases documents_follow_their_trees node ⟨.crlf, 2⟩ with ⟨_, _, hdepth, _, hdocument⟩
  exact ⟨hmarkers, hdepth _ _ _ hmarkers, hleaves, (hdocument hleaves).1.trans hlines⟩

end JackTree
