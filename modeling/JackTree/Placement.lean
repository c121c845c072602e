import JackTree.Path

/-!
# Placement of documents

Where the documents of a source go: into the output directory of the input, at
the place that the source has below the input.
-/

namespace JackTree

def outputDirectoryName : String := "out"

def documentExtension : String := "xml"

/-- What the name of a token listing has behind the name of its source. -/
def listingSuffix : String := "T"

/-- The output directory of an input when none is given: inside a directory, beside a file. -/
def defaultOutputDirectory (isDirectory : Path → Bool) (input : Path) : Path :=
  if isDirectory input then input.child outputDirectoryName
  else
    match input.parent? with
    | some parent => parent.child outputDirectoryName
    | none => .ofString outputDirectoryName

/-- The directory for the documents of a source of an input: as far below `root` as the
source is below the input. -/
def placedDirectory (input source root : Path) : Path :=
  match source.parent?.bind fun parent => parent.stripPrefix? input with
  | some relative => if relative.toString.isEmpty then root else root.join relative
  | none => root

/-- The path of a document: the stem of its source with a suffix and an extension. -/
def documentPath (source directory : Path) (suffix extension : String) : Path :=
  directory.join (.ofString (source.stem?.getD "" ++ suffix ++ "." ++ extension))

end JackTree
