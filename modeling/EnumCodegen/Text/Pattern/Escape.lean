import EnumCodegen.Text.Pattern.Mode

/-! What stands after a backslash in a pattern: a character, a place or a set. -/

namespace EnumCodegen.Pattern

/-- What a backslash and the text after it stand for. -/
inductive Escape where
  | character (c : Char)
  | place (place : Place)
  | set (set : CharSet)
  deriving DecidableEq, Repr

namespace Escape

def hexValue? (c : Char) : Option Nat := ("0123456789abcdef".toList).idxOf? c.toLower

def hexNumber? (m : Mode) : Nat → Nat → Text → Option (Nat × Text)
  | 0, value, text => some (value, text)
  | digits + 1, value, text =>
    match m.skip text with
    | [] => none
    | c :: rest => do hexNumber? m digits (16 * value + (← hexValue? c)) rest

def numbered? (m : Mode) (digits : Nat) (text : Text) : Option (Char × Text) := do
  let (value, rest) ← hexNumber? m digits 0 text
  if value.isValidChar then some (Char.ofNat value, rest) else none

/-- A place, of which those at the ends of words are known for ASCII only. -/
def place? (m : Mode) : Char → Option Place
  | 'A' => some .start
  | 'z' => some .finish
  | 'b' => if m.allScripts then none else some .wordEdge
  | 'B' => if m.allScripts then none else some .noWordEdge
  | '<' => if m.allScripts then none else some .wordStart
  | '>' => if m.allScripts then none else some .wordFinish
  | _ => none

/-- A set, which is known for ASCII only. -/
def set? (m : Mode) (c : Char) : Option CharSet :=
  if m.allScripts then none
  else
    match c with
    | 'd' => some .digit
    | 's' => some .space
    | 'w' => some .word
    | _ => none

/-- A character: a control character for some letters, and a mark of ASCII for itself. -/
def character? : Char → Option Char
  | 'a' => some '\x07'
  | 'f' => some '\x0c'
  | 'n' => some '\n'
  | 'r' => some '\x0d'
  | 't' => some '\t'
  | 'v' => some '\x0b'
  | c => if c.toNat < 0x80 ∧ !c.isAlphanum ∧ c ≠ '<' ∧ c ≠ '>' then some c else none

/-- Reads what stands after a backslash. Two digits give a byte, which must be a
character of ASCII unless those of all scripts are meant. -/
def read? (m : Mode) : Text → Option (Escape × Text)
  | 'x' :: text => do
    let (c, rest) ← numbered? m 2 text
    if m.allScripts ∨ c.toNat < 0x80 then some (.character c, rest) else none
  | 'u' :: text => (numbered? m 4 text).map fun (c, rest) => (.character c, rest)
  | 'U' :: text => (numbered? m 8 text).map fun (c, rest) => (.character c, rest)
  | c :: text =>
    ((place? m c).map place <|> (set? m c).map set <|> (character? c).map character).map (·, text)
  | [] => none

end Escape

end EnumCodegen.Pattern
