import JackTree.FileStore.Basic

/-!
# Changing a file store

Making directories and links, writing files and removing what is there.  Each
change either gives the changed store or says why it was refused.
-/

namespace JackTree

namespace FileStore

def write (store : FileStore) (path : Path) (contents : FileContents) :
    Except IoError FileStore := do
  let location ← store.locate path
  match store.entryAt? location with
  | some .directory => .error (.os .isADirectory)
  | _ => .ok (store.put location (.file contents))

def create (store : FileStore) (path : Path) (entry : Entry) : Except IoError FileStore := do
  let location ← store.locateName path
  match store.entryAt? location with
  | some _ => .error (.os .alreadyExists)
  | none => .ok (store.put location entry)

def createDirectory (store : FileStore) (path : Path) : Except IoError FileStore :=
  store.create path .directory

def createLink (store : FileStore) (target path : Path) : Except IoError FileStore :=
  if target.toString.isEmpty then .error (.os .notFound)
  else store.create path (.link target)

/-- The store after an attempt, and the refusal unless the path is a directory anyway. -/
def orIsDirectory (store : FileStore) (path : Path) (attempt : Except IoError FileStore) :
    FileStore × Except IoError Unit :=
  match attempt with
  | .ok changed => (changed, .ok ())
  | .error error => (store, if store.isDirectory path then .ok () else .error error)

/-- Makes the first of some paths, each in a directory that the next one names.  The
directories that were made stay, also if a later one is refused. -/
def createAlong (store : FileStore) : List Path → FileStore × Except IoError Unit
  | [] => (store, .error (.other "failed to create whole tree"))
  | path :: outer =>
    if path.toString.isEmpty then (store, .ok ())
    else
      match store.createDirectory path with
      | .error (.os .notFound) =>
        match store.createAlong outer with
        | (changed, .ok ()) => changed.orIsDirectory path (changed.createDirectory path)
        | refused => refused
      | attempt => store.orIsDirectory path attempt

/-- Makes a directory and all that are missing on the way to it. -/
def createDirectories (store : FileStore) (path : Path) : FileStore × Except IoError Unit :=
  store.createAlong path.ancestors

/-- Removes an entry with everything below it.  A link is removed, not what it leads to. -/
def remove (store : FileStore) (path : Path) : Except IoError FileStore := do
  let location ← store.locateName path
  match store.entryAt? location with
  | some _ => .ok (store.erase location)
  | none => .error (.os .notFound)

/-- Writes a file and makes the directories on the way to it. -/
def provide (store : FileStore) (path : Path) (contents : FileContents) :
    Except IoError FileStore := do
  let (store, made) := match path.parent? with
    | some parent => store.createDirectories parent
    | none => (store, .ok ())
  made
  store.write path contents

/-! ## The whole of a store -/

inductive Sighting where
  | directory
  | file (contents : FileContents)
  | unreadable

/-- Everything below a directory, links followed, under the names that lead there. -/
def sightings (store : FileStore) : Nat → Path → List (List String × Sighting)
  | 0, _ => []
  | depth + 1, path =>
    (store.names path).flatMap fun name =>
      let inner := path.child name
      if store.isDirectory inner then
        ([name], .directory) ::
          (store.sightings depth inner).map fun (names, sighting) => (name :: names, sighting)
      else
        match store.read inner with
        | .ok contents => [([name], .file contents)]
        | .error _ => [([name], .unreadable)]

def snapshot (store : FileStore) : List (List String × Sighting) :=
  store.sightings store.depthBound (.ofString ".")

end FileStore

end JackTree
