import EnumCodegen.Text.Pattern.CharSet

/-! Places between characters that a pattern may ask for.
What stands before and after a place decides whether it is open. -/

namespace EnumCodegen

/-- A place between two characters. At `lineStart` and `lineFinish` only a line feed parts
lines, at `brokenStart` and `brokenFinish` also a carriage return or both of them. Words
are of ASCII letters, digits and underscores. -/
inductive Place where
  | start
  | finish
  | lineStart
  | lineFinish
  | brokenStart
  | brokenFinish
  | wordEdge
  | noWordEdge
  | wordStart
  | wordFinish
  deriving DecidableEq, Repr

namespace Place

def isWord (c? : Option Char) : Bool := c?.any CharSet.word.contains

def isOpen (before after : Option Char) : Place → Bool
  | start => before.isNone
  | finish => after.isNone
  | lineStart => before.all (· = '\n')
  | lineFinish => after.all (· = '\n')
  | brokenStart => before.all (· = '\n') || (before = some '\x0d' && after ≠ some '\n')
  | brokenFinish => after.all (· = '\x0d') || (after = some '\n' && before ≠ some '\x0d')
  | wordEdge => isWord before != isWord after
  | noWordEdge => isWord before = isWord after
  | wordStart => !isWord before && isWord after
  | wordFinish => isWord before && !isWord after

end Place

end EnumCodegen
