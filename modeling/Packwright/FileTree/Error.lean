import Packwright.Text.Basic

/-! # File errors

What can go wrong with a file, and the words for it.
-/

namespace Packwright

open Text (ascii)

/-- What was being done with a file: looking at an entry without following it, opening it, reading
it, or making a directory. -/
inductive FileAction where
  | inspect
  | access
  | read
  | create
  deriving DecidableEq, Repr

/-- The system's word for an action. -/
def FileAction.word : FileAction → Text
  | .inspect => ascii "lstat"
  | .access => ascii "open"
  | .read => ascii "read"
  | .create => ascii "mkdir"

/-- Why an action failed. -/
inductive FileCause where
  | missing
  | notDirectory
  | isDirectory
  | tooManyLinks
  | alreadyExists
  | nameTooLong
  | invalidArgument
  deriving DecidableEq, Repr

/-- The system's words for a cause. -/
def FileCause.message : FileCause → Text
  | .missing => ascii "no such file or directory"
  | .notDirectory => ascii "not a directory"
  | .isDirectory => ascii "is a directory"
  | .tooManyLinks => ascii "too many levels of symbolic links"
  | .alreadyExists => ascii "file exists"
  | .nameTooLong => ascii "file name too long"
  | .invalidArgument => ascii "invalid argument"

/-- A failed action on a path. -/
structure FileError where
  action : FileAction
  path : Text
  cause : FileCause
  deriving DecidableEq, Repr

/-- The wording of a failed action. -/
def FileError.message (e : FileError) : Text :=
  e.action.word ++ ascii " " ++ e.path ++ ascii ": " ++ e.cause.message

end Packwright
