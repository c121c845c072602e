import JackTree.TokenStream
import JackTree.Tree

/-!
# Markup

A tree is written down as a row of markers: an opening and a closing marker
around everything below a node, and a leaf marker for every token.  A document
shows one marker a line, indented by how many markers are open.
-/

namespace JackTree

inductive Marker where
  | opening (tag : String)
  | closing (tag : String)
  | leaf (tag value : String)
  deriving DecidableEq, Repr

namespace Marker

def ofToken (token : Token) : Marker :=
  leaf token.kind.tag token.rendered

def toString : Marker → String
  | opening tag => "<" ++ tag ++ ">"
  | closing tag => "</" ++ tag ++ ">"
  | leaf tag value => "<" ++ tag ++ "> " ++ value ++ " </" ++ tag ++ ">"

instance : ToString Marker := ⟨toString⟩

def isLeaf : Marker → Bool
  | leaf _ _ => true
  | _ => false

end Marker

def Forest.markers : Forest Token → List Marker
  | nil => []
  | leaf token rest => .ofToken token :: rest.markers
  | node rule children rest =>
    .opening rule.tag :: (children.markers ++ .closing rule.tag :: rest.markers)

inductive LineEnding where
  | crlf
  | lf
  deriving DecidableEq, Repr

def LineEnding.text : LineEnding → String
  | crlf => "\r\n"
  | lf => "\n"

structure RenderOptions where
  lineEnding : LineEnding := .crlf
  /-- How many spaces a marker is indented for every open marker around it. -/
  indent : Nat := 0
  deriving DecidableEq, Repr

structure Markup where
  markers : List Marker
  deriving DecidableEq, Repr

namespace Markup

def ofNode (node : Node Token) : Markup :=
  ⟨.opening node.rule.tag :: (node.children.markers ++ [.closing node.rule.tag])⟩

/-- The markers of some tokens, one after another, inside a marker of their own. -/
def tokenListing (tokens : List Token) : Markup :=
  ⟨.opening "tokens" :: (tokens.map .ofToken ++ [.closing "tokens"])⟩

def lines (markup : Markup) : List String :=
  markup.markers.map Marker.toString

def leafCount (markup : Markup) : Nat :=
  markup.markers.countP Marker.isLeaf

/-! ## Nesting -/

/-- Whether closing markers match `opened`, the tags that are open, innermost first. -/
def closes (opened : List String) : List Marker → Bool
  | [] => opened.isEmpty
  | .opening tag :: rest => closes (tag :: opened) rest
  | .closing tag :: rest =>
    match opened with
    | [] => false
    | innermost :: outer => innermost == tag && closes outer rest
  | .leaf _ _ :: rest => closes opened rest

/-- Whether every closing marker matches the innermost open one and none stays open. -/
def isWellNested (markup : Markup) : Bool :=
  closes [] markup.markers

/-! ## Documents -/

def indentation (depth indent : Nat) : String :=
  String.ofList (List.replicate (depth * indent) ' ')

/-- The lines of some markers when `depth` markers are open before them. -/
def indentedLines (indent : Nat) : Nat → List Marker → List String
  | _, [] => []
  | depth, marker :: rest =>
    match marker with
    | .opening _ =>
      (indentation depth indent ++ marker.toString) :: indentedLines indent (depth + 1) rest
    | .closing _ =>
      (indentation (depth - 1) indent ++ marker.toString)
        :: indentedLines indent (depth - 1) rest
    | .leaf _ _ =>
      (indentation depth indent ++ marker.toString) :: indentedLines indent depth rest

/-- The document of some markers.  Line ends separate the lines; none follows the last. -/
def render (markup : Markup) (options : RenderOptions := {}) : String :=
  options.lineEnding.text.intercalate (indentedLines options.indent 0 markup.markers)

/-- The plainest document: line feeds and no indentation. -/
def toString (markup : Markup) : String :=
  markup.render { lineEnding := .lf, indent := 0 }

instance : ToString Markup := ⟨toString⟩

end Markup

end JackTree
