import EnumCodegen.Text.Basic

/-! Source text as a tree of nested pieces.
A tree is laid out as lines, each with its depth; only then is an indentation unit
chosen, so the unit decides nothing but the blanks before a line. -/

namespace EnumCodegen

/-- A tree of source text. `line` stands at the current depth and `verbatim` at none;
`indent` and `dedent` change the depth for what follows. -/
inductive Code where
  | empty
  | line (text : Text)
  | verbatim (text : Text)
  | indent
  | dedent
  | block (header close : Text) (body : Code)
  | conditional (condition? : Option Text) (body : Code)
  | seq (first second : Code)
  deriving DecidableEq, Inhabited, Repr

structure Line where
  depth : Nat
  text : Text
  deriving DecidableEq, Repr

def Line.render (unit : Text) (l : Line) : Text :=
  (List.replicate l.depth unit).flatten ++ l.text ++ ['\n']

namespace Code

instance : Append Code := ⟨seq⟩

def blank : Code := .verbatim []

def all (parts : List Code) : Code := parts.foldr seq empty

/-- A block that ends in a bare brace. -/
def braces (header : Text) (body : Code) : Code := .block header "\x7d" body

/-- The macro that a condition tests. An empty name is no condition. -/
def tested? (condition? : Option Text) : Option Text := condition?.filter (· ≠ [])

def ifLine (condition : Text) : Text := "#if defined(" ++ condition ++ ")"

def endLine (condition : Text) : Text := "#endif // " ++ condition

/-- The lines of a tree that starts at a depth, and the depth after it. A `dedent`
at depth zero stays there. -/
def layOut : Code → Nat → List Line × Nat
  | .empty, n => ([], n)
  | .line text, n => ([⟨n, text⟩], n)
  | .verbatim text, n => ([⟨0, text⟩], n)
  | .indent, n => ([], n + 1)
  | .dedent, n => ([], n - 1)
  | .block header close body, n =>
    let (inner, m) := body.layOut (n + 1)
    (⟨n, header⟩ :: ⟨n, "\x7b"⟩ :: inner ++ [⟨m - 1, close⟩], m - 1)
  | .conditional condition? body, n =>
    match tested? condition? with
    | none => body.layOut n
    | some c =>
      let (inner, m) := body.layOut n
      (⟨0, ifLine c⟩ :: inner ++ [⟨0, endLine c⟩], m)
  | .seq first second, n =>
    let (front, m) := first.layOut n
    let (back, k) := second.layOut m
    (front ++ back, k)

def lines (code : Code) : List Line := (code.layOut 0).1

def render (unit : Text) (code : Code) : Text := code.lines.flatMap (Line.render unit)

end Code

end EnumCodegen
