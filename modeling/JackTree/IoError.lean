/-!
# Input and output errors

Why the file system refused something.
-/

namespace JackTree

/-- The refusals of the file system itself, which have numbers. -/
inductive OsError where
  | notFound
  | alreadyExists
  | notADirectory
  | isADirectory
  | nameTooLong
  | tooManyLinks
  deriving DecidableEq, Repr

namespace OsError

def number : OsError → Nat
  | notFound => 2
  | alreadyExists => 17
  | notADirectory => 20
  | isADirectory => 21
  | nameTooLong => 36
  | tooManyLinks => 40

def text : OsError → String
  | notFound => "No such file or directory"
  | alreadyExists => "File exists"
  | notADirectory => "Not a directory"
  | isADirectory => "Is a directory"
  | nameTooLong => "File name too long"
  | tooManyLinks => "Too many levels of symbolic links"

end OsError

inductive IoError where
  | os (error : OsError)
  /-- The bytes that were read are no text. -/
  | notText
  /-- A path that can not be handed to the file system at all. -/
  | nulInPath
  | other (text : String)
  deriving DecidableEq, Repr

namespace IoError

def message : IoError → String
  | os error => error.text ++ " (os error " ++ Nat.repr error.number ++ ")"
  | notText => "stream did not contain valid UTF-8"
  | nulInPath => "file name contained an unexpected NUL byte"
  | other text => text

end IoError

@[simp] theorem mapError_ok {ε ε' α : Type} (f : ε → ε') (value : α) :
    (Except.ok value).mapError f = .ok value :=
  rfl

@[simp] theorem mapError_error {ε ε' α : Type} (f : ε → ε') (error : ε) :
    (Except.error error : Except ε α).mapError f = .error (f error) :=
  rfl

end JackTree
