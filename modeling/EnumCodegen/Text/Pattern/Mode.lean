import EnumCodegen.Text.Blank
import EnumCodegen.Text.Pattern.Basic

/-! The modes in which the signs of a pattern are read.
A mode says what single signs stand for; it is changed by letters in a group. -/

namespace EnumCodegen.Pattern

/-- How signs are read. -/
structure Mode where
  /-- A letter stands for both of its cases. -/
  anyCase : Bool := false
  /-- The signs for the ends of the text stand for those of every line. -/
  byLine : Bool := false
  /-- The dot stands for line ends, too. -/
  dotAll : Bool := false
  /-- A repetition is lazy unless a question mark follows it. -/
  lazy : Bool := false
  /-- Characters of all scripts are meant, not of ASCII only. -/
  allScripts : Bool := true
  /-- A carriage return ends a line, too. -/
  carriage : Bool := false
  /-- Blanks and comments may stand between signs. -/
  spaced : Bool := false
  deriving DecidableEq, Repr

/-- The text after blanks and comments, which go on to the end of their line. -/
def afterBlanks (inComment : Bool) : Text → Text
  | [] => []
  | c :: text =>
    if inComment then afterBlanks (c ≠ '\n') text
    else if isBlank c then afterBlanks false text
    else if c = '#' then afterBlanks true text
    else c :: text

namespace Mode

def set? (m : Mode) (letter : Char) (on : Bool) : Option Mode :=
  match letter with
  | 'i' => some { m with anyCase := on }
  | 'm' => some { m with byLine := on }
  | 's' => some { m with dotAll := on }
  | 'U' => some { m with lazy := on }
  | 'u' => some { m with allScripts := on }
  | 'R' => some { m with carriage := on }
  | 'x' => some { m with spaced := on }
  | _ => none

/-- The mode after a change: letters to set and, after a dash, letters to clear, each
at most once. -/
def change? (m : Mode) (letters : Text) : Option Mode :=
  if letters.Nodup ∧ letters.getLast? ≠ some '-' then do
    let set ← (letters.takeWhile (· ≠ '-')).foldlM (·.set? · true) m
    ((letters.dropWhile (· ≠ '-')).drop 1).foldlM (·.set? · false) set
  else none

def skip (m : Mode) (text : Text) : Text := if m.spaced then afterBlanks false text else text

/-- The next sign inside of brackets, for which one mark of a comment counts as a blank.
If there are only blanks the first of them is it. -/
def peek (m : Mode) (text : Text) : Option Char :=
  if m.spaced then
    let rest := match text.dropWhile isBlank with
      | '#' :: rest => rest.dropWhile isBlank
      | rest => rest
    rest.head?.or text.head?
  else text.head?

def fold (m : Mode) (s : CharSet) : CharSet := if m.anyCase then s.anyCase.normal else s

/-- The case of letters is known for ASCII only, so it cannot be left open where
characters of all scripts are meant. -/
def admitsSet (m : Mode) : Bool := !(m.allScripts && m.anyCase)

def admits (m : Mode) (c : Char) : Bool := m.admitsSet && (m.allScripts || c.toNat < 0x80)

def literal? (m : Mode) (c : Char) : Option CharSet :=
  if m.admitsSet then some (m.fold (.only c)) else none

/-- All characters but those of a set, which are more than ASCII. -/
def outside? (m : Mode) (s : CharSet) : Option CharSet :=
  if m.allScripts then some (.outside s) else none

def dot? (m : Mode) : Option CharSet :=
  m.outside? <|
    if m.dotAll then .nothing
    else if m.carriage then .union (.only '\n') (.only '\x0d')
    else .only '\n'

def start (m : Mode) : Place :=
  if !m.byLine then .start else if m.carriage then .brokenStart else .lineStart

def finish (m : Mode) : Place :=
  if !m.byLine then .finish else if m.carriage then .brokenFinish else .lineFinish

end Mode

end EnumCodegen.Pattern
