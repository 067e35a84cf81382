import EnumCodegen.Text.Basic

/-! Numbers as they are written in settings. -/

namespace EnumCodegen.Text

def digitsValue (digits : Text) : Nat := digits.foldl (fun n c => 10 * n + (c.toNat - 48)) 0

/-- The whole number that a text spells, with a plus sign or without. -/
def natural? (text : Text) : Option Nat :=
  let digits := if text.head? = some '+' then text.tail else text
  if digits ≠ [] ∧ digits.all Char.isDigit then some (digitsValue digits) else none

def afterSign (text : Text) : Text :=
  if text.head? = some '+' ∨ text.head? = some '-' then text.tail else text

def isScale : Text → Bool
  | [] => true
  | c :: rest => (c = 'e' || c = 'E') && afterSign rest ≠ [] && (afterSign rest).all Char.isDigit

/-- Whether a text spells a number, which may have a sign, a fraction and an exponent, or
be infinite or undefined. -/
def isNumeral (text : Text) : Bool :=
  let bare := afterSign text
  let whole := bare.takeWhile Char.isDigit
  let afterWhole := bare.dropWhile Char.isDigit
  let afterPoint := if afterWhole.head? = some '.' then afterWhole.tail else []
  let fraction := afterPoint.takeWhile Char.isDigit
  let scale :=
    if afterWhole.head? = some '.' then afterPoint.dropWhile Char.isDigit else afterWhole
  [("inf" : Text), "infinity", "nan"].contains (bare.map Char.toLower) ||
    (whole ++ fraction ≠ [] && isScale scale)

end EnumCodegen.Text
