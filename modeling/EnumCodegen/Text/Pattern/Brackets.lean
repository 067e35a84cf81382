import EnumCodegen.Text.Pattern.Escape

/-! Sets of characters in brackets.
Inside of brackets stand characters, ranges, named sets, further brackets, and the
operations on sets, which are done from left to right. -/

namespace EnumCodegen.Pattern

/-- A set and how deeply the parts of its spelling are nested. -/
structure SizedSet where
  set : CharSet
  depth : Nat := 0
  deriving DecidableEq, Repr

inductive SetOperation where
  | both
  | without
  | differing
  deriving DecidableEq, Repr

def SetOperation.apply : SetOperation → CharSet → CharSet → CharSet
  | both => .both
  | without => .without
  | differing => .differing

/-- Unfinished brackets: the operation that waits for its second set, and the members of
that set so far, in reverse. At the very `front` dashes and a closing bracket are members. -/
structure Brackets where
  negated : Bool := false
  pending? : Option (SizedSet × SetOperation) := none
  members : List SizedSet := []
  front : Bool := true
  deriving DecidableEq, Repr

namespace Brackets

def add (b : Brackets) (member : SizedSet) : Brackets :=
  { b with members := member :: b.members, front := false }

/-- The members since the last operation. -/
def union (b : Brackets) : SizedSet :=
  match b.members with
  | [member] => member
  | [] => ⟨.nothing, 0⟩
  | members =>
    ⟨.unions (members.map SizedSet.set), 1 + (members.map SizedSet.depth).foldl max 0⟩

def set (m : Mode) (b : Brackets) : SizedSet :=
  match b.pending? with
  | none => b.union
  | some (first, operation) =>
    ⟨operation.apply (m.fold first.set) (m.fold b.union.set), 1 + max first.depth b.union.depth⟩

def operate (m : Mode) (operation : SetOperation) (b : Brackets) : Brackets :=
  { b with pending? := some (b.set m, operation), members := [], front := false }

def close? (m : Mode) (b : Brackets) : Option SizedSet := do
  let inner := b.set m
  let folded := m.fold inner.set
  let set ← if b.negated then m.outside? folded else some folded
  return ⟨set, 1 + inner.depth⟩

/-- The set with a name between colons, negated after a circumflex. Any other name is
none, and its brackets are ordinary ones. -/
def named? : Text → Option (CharSet × Bool × Text)
  | ':' :: text =>
    let (negated, text) := match text with
      | '^' :: text => (true, text)
      | text => (false, text)
    match text.dropWhile (· ≠ ':') with
    | ':' :: ']' :: rest =>
      (CharSet.named.lookup (text.takeWhile (· ≠ ':'))).map (·, negated, rest)
    | _ => none
  | _ => none

def nest (m : Mode) (outer : List Brackets) (text : Text) : Brackets × List Brackets × Text :=
  match m.skip text with
  | '^' :: rest => ({ negated := true }, outer, rest)
  | rest => ({}, outer, rest)

/-- Adds a named set, or opens brackets inside of others. -/
def open? (m : Mode) (b : Brackets) (outer : List Brackets) (text : Text) :
    Option (Brackets × List Brackets × Text) :=
  match named? text with
  | none => some (nest m (b :: outer) text)
  | some (set, negated, rest) => do
    let set ← if negated then m.outside? set else some set
    if m.admitsSet then some (b.add ⟨set, 0⟩, outer, rest) else none

def character? (m : Mode) (c : Char) : Option CharSet :=
  if m.admits c then some (.only c) else none

/-- Reads a character as it is or what a backslash stands for. -/
def item? (m : Mode) : Text → Option (Escape × Text)
  | [] => none
  | '\\' :: text => Escape.read? m text
  | c :: text => some (.character c, text)

def single? (m : Mode) : Escape → Option CharSet
  | .character c => character? m c
  | .set set => some set
  | .place _ => none

def range? (m : Mode) : Escape → Escape → Option CharSet
  | .character low, .character high =>
    if low ≤ high ∧ m.admits low ∧ m.admits high then some (.chars low high) else none
  | _, _ => none

/-- Reads an item, or a range of two with a dash between them. A dash before another one or
before a closing bracket makes no range. -/
def member? (m : Mode) (text : Text) : Option (CharSet × Text) := do
  let (first, rest) ← item? m text
  match m.skip rest with
  | '-' :: after =>
    if m.peek after = some ']' ∨ m.peek after = some '-' then
      return (← single? m first, '-' :: after)
    else
      let (second, rest) ← item? m (m.skip after)
      return (← range? m first second, rest)
  | rest => return (← single? m first, rest)

/-- Reads the next sign. The innermost brackets come first. -/
def step? (m : Mode) (b : Brackets) (outer : List Brackets) (text : Text) :
    Option (Brackets × List Brackets × Text) :=
  if b.front ∧ text.head? = some '-' then do
    let dash ← character? m '-'
    return ({ b.add ⟨dash, 0⟩ with front := true }, outer, text.tail)
  else if b.front ∧ b.members = [] ∧ text.head? = some ']' then do
    return (b.add ⟨← character? m ']', 0⟩, outer, text.tail)
  else
    match text with
    | '[' :: text => open? m b outer text
    | ']' :: text =>
      match outer with
      | [] => none
      | around :: outer => (b.close? m).map fun set => (around.add set, outer, text)
    | '&' :: '&' :: text => some (b.operate m .both, outer, text)
    | '-' :: '-' :: text => some (b.operate m .without, outer, text)
    | '~' :: '~' :: text => some (b.operate m .differing, outer, text)
    | text => (member? m text).map fun (set, rest) => (b.add ⟨set, 0⟩, outer, rest)

/-- Reads on until all brackets but the last are closed. Every step leaves less of the
text. -/
def readFrom? (m : Mode) (b : Brackets) (outer : List Brackets) (text : Text) :
    Option (SizedSet × Text) :=
  if outer = [] then some (b.union, text)
  else
    match step? m b outer (m.skip text) with
    | none => none
    | some (b, outer, rest) =>
      if rest.length < text.length then readFrom? m b outer rest else none
  termination_by text.length

def read? (m : Mode) (text : Text) : Option (SizedSet × Text) :=
  let (b, outer, rest) := nest m [{}] text
  readFrom? m b outer rest

end Brackets

end EnumCodegen.Pattern
