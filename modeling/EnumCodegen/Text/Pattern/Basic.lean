import EnumCodegen.Text.Pattern.Place

/-! Patterns of text, composed of their parts in one normal form.
Where several forms of a pattern fit at one place the preferred one is taken. What
alternatives have in common at their front is put before them, and is then gone through
once for all of them. -/

namespace EnumCodegen

/-- A form of text. A repetition that is eager tries to go on before it ends. Groups are
told apart by their numbers. -/
inductive Pattern where
  | empty
  | word (text : Text)
  | one (ranges : List (Nat × Nat))
  | atPlace (place : Place)
  | sequence (first second : Pattern)
  | either (first second : Pattern)
  | optional (inner : Pattern) (eager : Bool)
  | several (inner : Pattern) (eager : Bool)
  | many (inner : Pattern) (eager : Bool)
  | group (number : Nat) (inner : Pattern)
  deriving DecidableEq, Repr

namespace Pattern

/-- The least number of characters of a text that fits, if any does. Alternatives one of
which cannot fit have none. -/
def minimum? : Pattern → Option Nat
  | empty | atPlace _ => some 0
  | word text => some text.length
  | one ranges => if ranges = [] then none else some 1
  | sequence first second => do return (← first.minimum?) + (← second.minimum?)
  | either first second => do return min (← first.minimum?) (← second.minimum?)
  | optional inner _ | many inner _ => inner.minimum?.map fun _ => 0
  | several inner _ | group _ inner => inner.minimum?

/-- Whether a pattern has no part for a character. -/
def isPlaces : Pattern → Bool
  | empty | atPlace _ => true
  | word _ | one _ => false
  | sequence first second | either first second => first.isPlaces && second.isPlaces
  | optional inner _ | several inner _ | many inner _ | group _ inner => inner.isPlaces

def parts : Pattern → List Pattern
  | sequence first second => first :: second.parts
  | empty => []
  | p => [p]

def alternatives : Pattern → List Pattern
  | either first second => first :: second.alternatives
  | p => [p]

def ofSet (s : CharSet) : Pattern :=
  match s.ranges with
  | [(low, high)] => if low = high then word [Char.ofNat low] else one [(low, high)]
  | ranges => one ranges

/-- Puts a part in front of others. Words that touch are one word. -/
def cons : Pattern → List Pattern → List Pattern
  | word front, word text :: rest => word (front ++ text) :: rest
  | p, rest => p :: rest

def ofParts : List Pattern → Pattern
  | [] => empty
  | [p] => p
  | p :: rest => sequence p (ofParts rest)

def all (ps : List Pattern) : Pattern := ofParts ((ps.flatMap parts).foldr cons [])

/-- The set that some alternatives of one character stand for together: all of them are
single characters, or all of them are sets. -/
def commonSet? (ps : List Pattern) : Option CharSet :=
  let single? : Pattern → Option CharSet
    | word [c] => some (.only c)
    | _ => none
  let set? : Pattern → Option CharSet
    | one ranges => some (.ofRanges ranges)
    | _ => none
  (ps.mapM single? <|> ps.mapM set?).map CharSet.unions

/-- The first of some alternatives that fits. -/
def ofAlternatives : List Pattern → Pattern
  | [] => one []
  | [p] => p
  | p :: rest => either p (ofAlternatives rest)

/-- Alternatives without those inside of them, or a set that they stand for. -/
def choice (ps : List Pattern) : Pattern :=
  match commonSet? ps with
  | some s => ofSet s
  | none => ofAlternatives ps

/-- The front that two lists have in common. -/
def sharedFront {α : Type} [DecidableEq α] (xs ys : List α) : List α :=
  ((xs.zip ys).takeWhile fun (x, y) => x = y).map Prod.fst

def sharedParts : List Pattern → List Pattern
  | [] => []
  | p :: rest => rest.foldl (fun front q => sharedFront front q.parts) p.parts

/-- The first of some patterns that fits. If all of them are sequences with a common
front, this goes before the choice. -/
def any (ps : List Pattern) : Pattern :=
  let ps := ps.flatMap alternatives
  let front := sharedParts ps
  if front ≠ [] ∧ ps.all (2 ≤ ·.parts.length) then
    let rests := ps.map fun p => ofParts (p.parts.drop front.length)
    all (front ++ [choice (rests.flatMap alternatives)])
  else choice ps

/-- A pattern at least once. Of places once is enough. -/
def atLeastOnce (inner : Pattern) (eager : Bool) : Pattern :=
  if inner.isPlaces then inner else several inner eager

/-- A pattern any number of times. Of places once is enough. -/
def anyNumber (inner : Pattern) (eager : Bool) : Pattern :=
  if inner.isPlaces then optional inner eager else many inner eager

end Pattern

end EnumCodegen
