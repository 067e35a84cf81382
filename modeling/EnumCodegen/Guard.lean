import EnumCodegen.Description.Builder
import EnumCodegen.Emission.Names
import EnumCodegen.Storage.Path

/-! The guard token of a declaration file.
It is set by the description, or recovered from the marker of the file that is
already there, or else made from the title of the description and random letters. -/

namespace EnumCodegen

inductive TokenSource where
  | explicit
  | recovered
  | generated
  deriving DecidableEq, Repr

def TokenSource.name : TokenSource → Text
  | .explicit => "Explicit"
  | .recovered => "Recovered"
  | .generated => "Generated"

structure GuardToken where
  token : Text
  source : TokenSource
  deriving DecidableEq, Repr

namespace Guard

/-- A name without its extension: the text before its last dot, unless that is empty. -/
def withoutExtension (name : Text) : Text :=
  match name.reverse.dropWhile (· ≠ '.') with
  | _ :: c :: front => (c :: front).reverse
  | _ => name

/-- The title of a description file, which its output files share. -/
def title (input : Path) : Text :=
  withoutExtension ((input.fileName?.map Utf8.decodeLossy).getD [])

def isWordChar (c : Char) : Bool := c.isAlphanum || c = '_'

/-- The title without the characters that no identifier may have. -/
def sanitized (title : Text) : Text := title.filter isWordChar

/-- How many random letters a generated token ends in. -/
def suffixLength : Nat := 16

def generated (title letters : Text) : Text := sanitized title ++ '_' :: letters

/-- The text after the marker on a line that holds one. -/
def markedText? (line : Bytes) : Option Text :=
  (markerLead.isPrefixOf? (Utf8.decodeLossy line)).map Text.trim

/-- The token that the first marker of a file keeps. A marker without a token hides
those after it. -/
def recovered? (content : Bytes) : Option Text :=
  ((pieces '\n'.toUInt8 content).findSome? markedText?).bind nonEmpty?

end Guard

end EnumCodegen
