import EnumCodegen.Text.Utf8.Basic

/-! Paths as bytes.
A path is kept as it was spelled: joining and splitting look at its components, and
nothing is normalised. -/

namespace EnumCodegen

structure Path where
  bytes : Bytes
  deriving DecidableEq, Repr

namespace Path

def slash : UInt8 := '/'.toUInt8

def dot : Bytes := ['.'.toUInt8]

def dotDot : Bytes := dot ++ dot

def ofText (text : Text) : Path := ⟨Utf8.encode text⟩

def display (p : Path) : Text := Utf8.decodeLossy p.bytes

def isAbsolute (p : Path) : Bool := p.bytes.head? = some slash

def endsInSlash (p : Path) : Bool := p.bytes.getLast? = some slash

/-- A path below a directory. An absolute path stays as it is. -/
def join (directory path : Path) : Path :=
  if path.isAbsolute then path
  else if directory.bytes = [] ∨ directory.endsInSlash then ⟨directory.bytes ++ path.bytes⟩
  else ⟨directory.bytes ++ slash :: path.bytes⟩

/-- The names between slashes, in order, the two dot names among them. -/
def names (p : Path) : List Bytes := (pieces slash p.bytes).filter (· ≠ [])

/-- The names that matter to the shape of a path: a single dot is one of them only at
the front of a relative path. -/
def components (p : Path) : List Bytes :=
  match p.names with
  | [] => []
  | first :: rest =>
    if p.isAbsolute then (first :: rest).filter (· ≠ dot) else first :: rest.filter (· ≠ dot)

def ofComponents (absolute : Bool) (components : List Bytes) : Path :=
  ⟨(if absolute then [slash] else []) ++ [slash].intercalate components⟩

/-- The last component, if it names something in its directory. -/
def fileName? (p : Path) : Option Bytes :=
  p.components.getLast?.filter fun name => name ≠ dot ∧ name ≠ dotDot

def parent? (p : Path) : Option Path :=
  if p.components = [] then none else some (ofComponents p.isAbsolute p.components.dropLast)

/-- The non-empty paths that lead to a path, longest first and itself included. -/
def ancestors (p : Path) : List Path :=
  if p.bytes = [] then []
  else p :: (List.range (p.components.length - 1)).reverse.map fun n =>
    ofComponents p.isAbsolute (p.components.take (n + 1))

end Path

end EnumCodegen
