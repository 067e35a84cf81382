import EnumCodegen.Text.Blank

/-! One enumerator as a description writes it.
Its text splits into a declarator, whose front is the name, and a traits payload. -/

namespace EnumCodegen

/-- An enumerator: the name it is looked up by, the text that declares it, and the
text from its first parenthesis on. -/
structure Entry where
  name : Text
  declarator : Text
  payload? : Option Text
  deriving DecidableEq, Repr

namespace Entry

/-- Splits a text before the first occurrence of a character. An occurrence at the
very front splits nothing. -/
def splitBefore (c : Char) (text : Text) : Text × Option Text :=
  match text.takeWhile (· ≠ c), text.dropWhile (· ≠ c) with
  | [], _ => (text, none)
  | _, [] => (text, none)
  | front, back => (front, some back)

/-- Reads an enumerator. The payload starts at the first `(` and the name ends before
the first `=`; a text that starts with one of them keeps it as a part of the name. -/
def ofText (text : Text) : Entry :=
  let (declarator, payload?) := splitBefore '(' text.trim
  { name := (splitBefore '=' declarator).1.trim
    declarator := declarator.trim
    payload? := payload?.map Text.trim }

end Entry

end EnumCodegen
