import EnumCodegen.Text.Basic

/-! Why a file operation fails, and the words for it. -/

namespace EnumCodegen

/-- Why a file operation fails. `other` carries the words of the host for a cause
that has no constructor of its own. -/
inductive FileError where
  | notFound
  | alreadyExists
  | notDirectory
  | isDirectory
  | nameTooLong
  | nulInPath
  | notUtf8
  | other (message : Text)
  deriving DecidableEq, Repr

namespace FileError

def message : FileError → Text
  | .notFound => "No such file or directory (os error 2)"
  | .alreadyExists => "File exists (os error 17)"
  | .notDirectory => "Not a directory (os error 20)"
  | .isDirectory => "Is a directory (os error 21)"
  | .nameTooLong => "File name too long (os error 36)"
  | .nulInPath => "file name contained an unexpected NUL byte"
  | .notUtf8 => "stream did not contain valid UTF-8"
  | .other message => message

end FileError

end EnumCodegen
