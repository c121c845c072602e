import JackTree.FileStore.Basic

/-!
# Discovery of sources

The sources of an input are found by looking at files and directories only: a
file stands for itself, and a directory for the Jack files in it, or anywhere
below it.  They are listed in the order of paths, each once, whatever the order
in which directories list their entries.
-/

namespace JackTree

structure DirectoryView where
  isFile : Path → Bool
  isDirectory : Path → Bool
  names : Path → List String

def FileStore.view (store : FileStore) : DirectoryView :=
  ⟨store.isFile, store.isDirectory, store.names⟩

def sourceExtension : String := "jack"

def Path.isJackSource (path : Path) : Bool :=
  path.extension? == some sourceExtension

/-- Puts a path into an ordered list, unless it is there. -/
def Path.insertOrdered (path : Path) : List Path → List Path
  | [] => [path]
  | first :: rest =>
    match compare path.components first.components with
    | .lt => path :: first :: rest
    | .eq => first :: rest
    | .gt => first :: path.insertOrdered rest

def Path.ordered (paths : List Path) : List Path :=
  paths.foldr Path.insertOrdered []

namespace DirectoryView

/-- The files at most so many steps below a path, the path itself included. -/
def filesWithin (view : DirectoryView) : Nat → Path → List Path
  | 0, path => if view.isFile path then [path] else []
  | depth + 1, path =>
    if view.isFile path then [path]
    else if view.isDirectory path then
      (view.names path).flatMap fun name => view.filesWithin depth (path.child name)
    else []

/-- The files of an input in order, at most so many steps below it. -/
def files (view : DirectoryView) (depth : Nat) (input : Path) : List Path :=
  Path.ordered (view.filesWithin depth input)

/-- The sources of an input in order.  A file is taken as it is. -/
def sources (view : DirectoryView) (depth : Nat) (input : Path) : List Path :=
  if view.isFile input then [input]
  else (view.files depth input).filter Path.isJackSource

end DirectoryView

namespace FileStore

/-- How deep a search goes: everywhere if it is recursive, else one step down. -/
def searchDepth (store : FileStore) (recursive : Bool) : Nat :=
  if recursive then store.depthBound else 1

def files (store : FileStore) (recursive : Bool) (input : Path) : List Path :=
  store.view.files (store.searchDepth recursive) input

def sources (store : FileStore) (recursive : Bool) (input : Path) : List Path :=
  store.view.sources (store.searchDepth recursive) input

end FileStore

end JackTree
