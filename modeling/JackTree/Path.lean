/-!
# Paths

A path is kept as it was written, cut at its slashes, and read as a row of
components: repeated slashes, a slash at the end, and dots other than a leading
one say nothing.  Two paths are the same when their components are.
-/

namespace JackTree

/-- What one step of a path says. -/
inductive Component where
  | root
  | current
  | up
  | name (text : String)
  deriving DecidableEq, Repr, Ord

structure Path where
  /-- What stands between the slashes, the empty stretches included. -/
  segments : List String
  deriving DecidableEq, Repr, Inhabited

namespace Path

/-! ## Text -/

def cutAtSlashes : List Char → List (List Char)
  | [] => [[]]
  | c :: rest =>
    if c = '/' then
      [] :: cutAtSlashes rest
    else
      match cutAtSlashes rest with
      | [] => [[c]]
      | segment :: more => (c :: segment) :: more

def ofString (text : String) : Path :=
  ⟨(cutAtSlashes text.toList).map String.ofList⟩

def toString (path : Path) : String :=
  "/".intercalate path.segments

instance : ToString Path := ⟨toString⟩

/-! ## Components -/

def isAbsolute : Path → Bool
  | ⟨"" :: _ :: _⟩ => true
  | _ => false

/-- What a stretch after the first slash says. -/
def innerComponent? (segment : String) : Option Component :=
  if segment = "" ∨ segment = "." then none
  else if segment = ".." then some .up
  else some (.name segment)

/-- What the stretch before the first slash says. -/
def headComponent? (segment : String) (isWhole : Bool) : Option Component :=
  if segment = "" then (if isWhole then none else some .root)
  else if segment = "." then some .current
  else if segment = ".." then some .up
  else some (.name segment)

def components : Path → List Component
  | ⟨[]⟩ => []
  | ⟨head :: tail⟩ =>
    (headComponent? head tail.isEmpty).toList ++ tail.filterMap innerComponent?

def Same (a b : Path) : Prop :=
  a.components = b.components

instance (a b : Path) : Decidable (Same a b) :=
  inferInstanceAs (Decidable (a.components = b.components))

def le (a b : Path) : Bool :=
  (compare a.components b.components).isLE

def ofComponents : List Component → Path
  | [] => ⟨[""]⟩
  | [.root] => ⟨["", ""]⟩
  | parts => ⟨parts.map fun
    | .root => ""
    | .current => "."
    | .up => ".."
    | .name text => text⟩

/-! ## Walking along a path -/

/-- `other` as seen from `path`: an absolute path stays, a relative one is appended. -/
def join (path other : Path) : Path :=
  if other.isAbsolute then other
  else if path.segments.getLast? = some "" then ⟨path.segments.dropLast ++ other.segments⟩
  else ⟨path.segments ++ other.segments⟩

def child (path : Path) (name : String) : Path :=
  path.join ⟨[name]⟩

/-- The stretches up to the last one that says something. -/
def trimTail (segments : List String) : List String :=
  (segments.reverse.dropWhile fun segment => (innerComponent? segment).isNone).reverse

/-- The path without its last component, written as before up to there. -/
def parent? (path : Path) : Option Path :=
  match path.segments with
  | [] => none
  | head :: tail =>
    match trimTail tail with
    | [] =>
      match headComponent? head tail.isEmpty with
      | none => none
      | some .root => none
      | some _ => some ⟨[""]⟩
    | last :: more =>
      match trimTail (last :: more).dropLast with
      | [] => some ⟨if head = "" then ["", ""] else [head]⟩
      | kept => some ⟨head :: kept⟩

def stripPrefix? (path base : Path) : Option Path :=
  if base.components.isPrefixOf path.components then
    some (ofComponents (path.components.drop base.components.length))
  else none

/-- The path, the path without its last component, and so on. -/
def ancestorsWithin : Nat → Path → List Path
  | 0, path => [path]
  | depth + 1, path =>
    match path.parent? with
    | none => [path]
    | some parent => path :: ancestorsWithin depth parent

def ancestors (path : Path) : List Path :=
  ancestorsWithin path.components.length path

/-! ## Names -/

def fileName? (path : Path) : Option String :=
  match path.components.getLast? with
  | some (.name text) => some text
  | _ => none

/-- A name cut at its last dot, unless that is its first character. -/
def cutAtDot (name : List Char) : List Char × Option (List Char) :=
  let after := name.reverse.takeWhile (· != '.')
  match name.reverse.drop after.length with
  | [] => (name, none)
  | [_] => (name, none)
  | _ :: before => (before.reverse, some after.reverse)

def stem? (path : Path) : Option String :=
  path.fileName?.map fun name => String.ofList (cutAtDot name.toList).1

/-- What stands behind the last dot of the name of a file. -/
def extension? (path : Path) : Option String :=
  path.fileName?.bind fun name => (cutAtDot name.toList).2.map String.ofList

end Path

end JackTree
