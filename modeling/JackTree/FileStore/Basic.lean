import JackTree.IoError
import JackTree.Path

/-!
# File stores

A file store is a finite file system: directories, files and symbolic links at
absolute locations, and a working directory.  A path is looked up by walking
along it from the root or the working directory.  Links are followed, up to a
fixed number of them in one walk.
-/

namespace JackTree

inductive FileContents where
  | text (text : String)
  /-- Bytes that are not the encoding of any text. -/
  | bytes (data : ByteArray)

instance : DecidableEq FileContents
  | .text a, .text b =>
    match String.decEq a b with
    | isTrue hequal => isTrue (congrArg _ hequal)
    | isFalse hdiffer => isFalse fun hsame => hdiffer (FileContents.text.inj hsame)
  | .bytes a, .bytes b =>
    match ByteArray.instDecidableEq a b with
    | isTrue hequal => isTrue (congrArg _ hequal)
    | isFalse hdiffer => isFalse fun hsame => hdiffer (FileContents.bytes.inj hsame)
  | .text _, .bytes _ => isFalse nofun
  | .bytes _, .text _ => isFalse nofun

def FileContents.ofBytes (data : ByteArray) : FileContents :=
  match String.fromUTF8? data with
  | some valid => .text valid
  | none => .bytes data

inductive Entry where
  | directory
  | file (contents : FileContents)
  | link (target : Path)
  deriving DecidableEq

/-- The names that lead from the root to an entry. -/
abbrev Location := List String

structure FileStore where
  entries : List (Location × Entry)
  workingDirectory : Location
  deriving DecidableEq

namespace FileStore

/-! ## Entries -/

/-- What stands at a location.  The root is always a directory. -/
def entryAt? (store : FileStore) (location : Location) : Option Entry :=
  if location.isEmpty then some .directory else store.entries.lookup location

def putEntry (location : Location) (entry : Entry) :
    List (Location × Entry) → List (Location × Entry)
  | [] => [(location, entry)]
  | (other, kept) :: rest =>
    if other = location then (location, entry) :: rest
    else (other, kept) :: putEntry location entry rest

def put (store : FileStore) (location : Location) (entry : Entry) : FileStore :=
  { store with entries := putEntry location entry store.entries }

def erase (store : FileStore) (location : Location) : FileStore :=
  { store with entries := store.entries.filter fun e => !location.isPrefixOf e.1 }

def namesBelow (store : FileStore) (location : Location) : List String :=
  store.entries.filterMap fun e =>
    if e.1.dropLast = location then e.1.getLast? else none

def atWorkingDirectory (location : Location) : FileStore :=
  ⟨(List.range location.length).map fun depth => (location.take (depth + 1), .directory), location⟩

theorem lookup_putEntry (location other : Location) (entry : Entry)
    (entries : List (Location × Entry)) :
    (putEntry location entry entries).lookup other =
      if other = location then some entry else entries.lookup other := by
  induction entries with
  | nil =>
    by_cases hsame : other = location
    · simp [putEntry, hsame]
    · simp [putEntry, List.lookup_cons, hsame, beq_false_of_ne hsame]
  | cons e rest ih =>
    obtain ⟨place, kept⟩ := e
    by_cases hplace : place = location
    · subst hplace
      by_cases hsame : other = place
      · simp [putEntry, hsame]
      · simp [putEntry, List.lookup_cons, hsame, beq_false_of_ne hsame]
    · by_cases hsame : other = location
      · subst hsame
        have hne : (other == place) = false := beq_false_of_ne fun heq => hplace heq.symm
        simp [putEntry, List.lookup_cons, hplace, hne, ih]
      · simp [putEntry, List.lookup_cons, hplace, ih, hsame]

/-- Putting an entry changes what stands at its location and nothing else. -/
theorem entryAt?_put (store : FileStore) {location : Location} (other : Location) (entry : Entry)
    (hlocation : location ≠ []) :
    (store.put location entry).entryAt? other =
      if other = location then some entry else store.entryAt? other := by
  unfold entryAt? put
  by_cases hroot : other = []
  · subst hroot
    simp [Ne.symm hlocation]
  · simp [hroot, lookup_putEntry]

/-! ## Walking -/

def nameLimit : Nat := 255

/-- The number of bytes from which on a path is too long. -/
def pathLimit : Nat := 4096

def linkLimit : Nat := 40

/-- Walks from a location along some stretches of a path.  Only the last name may be
missing.  At a link, `follow` walks on from the directory of the link. -/
def walkWith (store : FileStore) (follow : Location → List String → Except OsError Location) :
    Location → List String → Except OsError Location
  | location, [] => .ok location
  | location, segment :: rest =>
    if store.entryAt? location ≠ some .directory then .error .notADirectory
    else if segment = "" ∨ segment = "." then store.walkWith follow location rest
    else if segment = ".." then store.walkWith follow location.dropLast rest
    else if nameLimit < segment.utf8ByteSize then .error .nameTooLong
    else
      match store.entryAt? (location ++ [segment]) with
      | none => if rest.isEmpty then .ok (location ++ [segment]) else .error .notFound
      | some (.link target) =>
        follow (if target.isAbsolute then [] else location) (target.segments ++ rest)
      | some _ => store.walkWith follow (location ++ [segment]) rest

/-- Walks along some stretches and follows at most so many links. -/
def walk (store : FileStore) : Nat → Location → List String → Except OsError Location
  | 0 => store.walkWith fun _ _ => .error .tooManyLinks
  | links + 1 => store.walkWith (store.walk links)

def startOf (store : FileStore) (path : Path) : Location :=
  if path.isAbsolute then [] else store.workingDirectory

/-- Whether a path can be handed to the file system. -/
def checkPath (path : Path) : Except IoError Unit :=
  if path.toString.toList.contains '\x00' then .error .nulInPath
  else if path.toString.isEmpty then .error (.os .notFound)
  else if pathLimit ≤ path.toString.utf8ByteSize then .error (.os .nameTooLong)
  else .ok ()

/-- The location that a path leads to, all links followed.  Its last name may be missing. -/
def locate (store : FileStore) (path : Path) : Except IoError Location := do
  checkPath path
  (store.walk linkLimit (store.startOf path) path.segments).mapError .os

/-- The location that a path names: only links before the last name are followed. -/
def locateName (store : FileStore) (path : Path) : Except IoError Location := do
  checkPath path
  let segments := (path.segments.reverse.dropWhile (· = "")).reverse
  match segments.getLast? with
  | none => .error (.os .alreadyExists)
  | some name =>
    let directory ←
      (store.walk linkLimit (store.startOf path) segments.dropLast).mapError .os
    match store.entryAt? directory with
    | none => .error (.os .notFound)
    | some .directory =>
      if name = "." ∨ name = ".." then .error (.os .alreadyExists)
      else if nameLimit < name.utf8ByteSize then .error (.os .nameTooLong)
      else .ok (directory ++ [name])
    | some _ => .error (.os .notADirectory)

/-! ## Looking -/

def status (store : FileStore) (path : Path) : Except IoError Entry := do
  let location ← store.locate path
  match store.entryAt? location with
  | some entry => .ok entry
  | none => .error (.os .notFound)

def isFile (store : FileStore) (path : Path) : Bool :=
  match store.status path with
  | .ok (.file _) => true
  | _ => false

/-- Whether what a path leads to is a directory, if it leads anywhere. -/
def leadsToDirectory (store : FileStore) (path : Path) : Except IoError Bool := do
  match ← store.status path with
  | .directory => .ok true
  | _ => .ok false

def isDirectory (store : FileStore) (path : Path) : Bool :=
  match store.leadsToDirectory path with
  | .ok answer => answer
  | .error _ => false

def read (store : FileStore) (path : Path) : Except IoError FileContents := do
  match ← store.status path with
  | .file contents => .ok contents
  | _ => .error (.os .isADirectory)

def readText (store : FileStore) (path : Path) : Except IoError String := do
  match ← store.read path with
  | .text text => .ok text
  | .bytes _ => .error .notText

def names (store : FileStore) (path : Path) : List String :=
  match store.locate path with
  | .ok location => store.namesBelow location
  | .error _ => []

/-- The path that leads to the same place from the root without links, if there is one. -/
def canonical? (store : FileStore) (path : Path) : Option Path :=
  match store.locate path with
  | .ok location => (store.entryAt? location).map fun _ => .ofComponents (.root :: location.map .name)
  | .error _ => none

/-- More steps down than any walk that follows no more links than allowed can take. -/
def depthBound (store : FileStore) : Nat :=
  (linkLimit + 1) * (store.entries.length + 1)

end FileStore

end JackTree
