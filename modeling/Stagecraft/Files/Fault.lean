/-!
# Refusals of the file system

* `FileFault`: why an operation on files was refused.
* `FileFault.text`: the words for it.
-/

namespace Stagecraft

/-- Why an operation on files was refused. -/
inductive FileFault where
  | missing
  | exists
  | notDirectory
  | isDirectory
  | nameTooLong
  | notText
  | nulByte
deriving DecidableEq, Repr

/-- The words for a refusal, with the number that the system gives it. -/
def FileFault.text : FileFault → String
  | .missing => "No such file or directory (os error 2)"
  | .exists => "File exists (os error 17)"
  | .notDirectory => "Not a directory (os error 20)"
  | .isDirectory => "Is a directory (os error 21)"
  | .nameTooLong => "File name too long (os error 36)"
  | .notText => "stream did not contain valid UTF-8"
  | .nulByte => "file name contained an unexpected NUL byte"

end Stagecraft
