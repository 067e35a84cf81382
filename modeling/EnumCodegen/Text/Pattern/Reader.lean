import EnumCodegen.Text.Alphanumeric
import EnumCodegen.Text.Pattern.Brackets

/-! Reading patterns.
Patterns are written with the usual signs: sets in brackets, groups, alternatives,
repetitions, places, and settings of the mode for the rest of a group. -/

namespace EnumCodegen.Pattern

/-- A pattern that is a part of a group and how deeply its spelling is nested. A setting
of the mode is a part that cannot be repeated. -/
structure Part where
  pattern : Pattern := empty
  depth : Nat := 0
  repeatable : Bool := true
  deriving DecidableEq, Repr

/-- How deeply parts are nested of which there are several. -/
def Part.depthOf (parts : List Part) : Nat := 1 + (parts.map Part.depth).foldl max 0

/-- An unfinished group: its finished alternatives and the parts of the last one, both in
reverse, the mode around it, and its number unless it only holds its parts together. -/
structure Group where
  alternatives : List Part := []
  parts : List Part := []
  around : Mode := {}
  number? : Option Nat := none
  deriving DecidableEq, Repr

namespace Group

def add (g : Group) (p : Part) : Group := { g with parts := p :: g.parts }

def sequence (g : Group) : Part :=
  match g.parts with
  | [] => {}
  | [p] => p
  | parts => { pattern := all (parts.reverse.map Part.pattern), depth := Part.depthOf parts }

def bar (g : Group) : Group := { g with alternatives := g.sequence :: g.alternatives, parts := [] }

def part (g : Group) : Part :=
  match g.alternatives with
  | [] => g.sequence
  | alternatives =>
    let parts := g.sequence :: alternatives
    { pattern := any (parts.reverse.map Part.pattern), depth := Part.depthOf parts }

def closed (g : Group) : Part :=
  let pattern := match g.number? with
    | some number => group number g.part.pattern
    | none => g.part.pattern
  { pattern, depth := 1 + g.part.depth }

/-- Repeats the last part, which must be there. -/
def repeat? (g : Group) (f : Pattern → Pattern) : Option Group :=
  match g.parts with
  | [] => none
  | p :: earlier =>
    if p.repeatable then
      some { g with parts := { pattern := f p.pattern, depth := 1 + p.depth } :: earlier }
    else none

end Group

/-- The state between two signs: the open group, the groups around it, the mode, and the
names of groups so far. -/
structure Reader where
  group : Group := {}
  outer : List Group := []
  mode : Mode := {}
  names : List Text := []
  deriving DecidableEq, Repr

namespace Reader

def add (r : Reader) (pattern : Pattern) : Reader := { r with group := r.group.add { pattern } }

def openGroup (r : Reader) (mode : Mode) (number? : Option Nat) : Reader :=
  { r with group := { around := r.mode, number? }, outer := r.group :: r.outer, mode }

def closeGroup? (r : Reader) : Option Reader :=
  match r.outer with
  | [] => none
  | g :: outer => some { r with group := g.add r.group.closed, outer, mode := r.group.around }

/-- Whether a group may have a name: a letter or an underscore, and then also digits,
dots and brackets. -/
def isGroupName : Text → Bool
  | [] => false
  | c :: text =>
    (c = '_' || isAlphabetic c) && text.all fun c => "_.[]".toList.contains c || isAlphanumeric c

/-- Opens a group with a name before `>`, which no other group may have. What is left of
the text tells groups apart, so its length is their number. -/
def openNamed? (r : Reader) (text : Text) : Option (Reader × Text) :=
  let name := text.takeWhile (· ≠ '>')
  match text.dropWhile (· ≠ '>') with
  | [] => none
  | _ :: rest =>
    if isGroupName name && !r.names.contains name then
      some ({ r.openGroup r.mode rest.length with names := name :: r.names }, rest)
    else none

/-- Opens a group with a mode of its own, or changes that of the open group. -/
def openMode? (r : Reader) (text : Text) : Option (Reader × Text) :=
  let isLetter (c : Char) : Bool := c ≠ ':' && c ≠ ')'
  let letters := text.takeWhile isLetter
  match text.dropWhile isLetter with
  | ':' :: rest => (r.mode.change? letters).map fun mode => (r.openGroup mode none, rest)
  | ')' :: rest =>
    if letters = [] then none
    else (r.mode.change? letters).map fun mode =>
      ({ r with mode, group := r.group.add { repeatable := false } }, rest)
  | _ => none

def open? (r : Reader) : Text → Option (Reader × Text)
  | '?' :: 'P' :: '<' :: text => r.openNamed? text
  | '?' :: '<' :: text => r.openNamed? text
  | '?' :: text => r.openMode? text
  | text => some (r.openGroup r.mode text.length, text)

/-- Repeats the last part. A question mark right after the sign asks for the other order
of preference. -/
def repeat? (r : Reader) (f : Pattern → Bool → Pattern) (text : Text) : Option (Reader × Text) :=
  let (eager, rest) := match text with
    | '?' :: rest => (r.mode.lazy, rest)
    | rest => (!r.mode.lazy, rest)
  (r.group.repeat? (f · eager)).map fun group => ({ r with group }, rest)

def step? (r : Reader) : Text → Option (Reader × Text)
  | [] => none
  | '(' :: text => r.open? (r.mode.skip text)
  | ')' :: text => r.closeGroup?.map (·, text)
  | '|' :: text => some ({ r with group := r.group.bar }, text)
  | '[' :: text => do
    let (s, rest) ← Brackets.read? r.mode text
    return ({ r with group := r.group.add ⟨ofSet s.set, s.depth, true⟩ }, rest)
  | '*' :: text => r.repeat? anyNumber text
  | '+' :: text => r.repeat? atLeastOnce text
  | '?' :: text => r.repeat? optional text
  | '\x7b' :: _ => none
  | '^' :: text => some (r.add (atPlace r.mode.start), text)
  | '$' :: text => some (r.add (atPlace r.mode.finish), text)
  | '.' :: text => r.mode.dot?.map fun set => (r.add (ofSet set), text)
  | '\\' :: text => do
    match ← Escape.read? r.mode text with
    | (.character c, rest) => return (r.add (ofSet (← r.mode.literal? c)), rest)
    | (.set set, rest) => return (r.add (ofSet (r.mode.fold set)), rest)
    | (.place place, rest) => return (r.add (atPlace place), rest)
  | c :: text => (r.mode.literal? c).map fun set => (r.add (ofSet set), text)

/-- Reads all signs. Every step leaves less of the text. -/
def readFrom? (r : Reader) (text : Text) : Option Reader :=
  match r.mode.skip text with
  | [] => some r
  | c :: rest =>
    match r.step? (c :: rest) with
    | none => none
    | some (r, rest) => if rest.length < text.length then readFrom? r rest else none
  termination_by text.length

end Reader

def depthLimit : Nat := 250

/-- The pattern that a text spells. Its groups must be closed. -/
def ofText? (text : Text) : Option Pattern := do
  let r ← Reader.readFrom? {} text
  if r.outer = [] ∧ r.group.part.depth ≤ depthLimit then some r.group.part.pattern else none

end EnumCodegen.Pattern
