import EnumCodegen.Text.Utf8.Basic

/-! Looking a name up in a list of names.
Names are compared byte by byte, and the first match wins: this is the rule that
generated code follows at run time. -/

namespace EnumCodegen

/-- An ASCII capital letter as a small one; any other byte stays. -/
def lowerByte (b : UInt8) : UInt8 := if 65 ≤ b ∧ b ≤ 90 then b + 32 else b

/-- The bytes of a name as a comparison sees them. -/
def comparedBytes (ignoreCase : Bool) (bytes : Bytes) : Bytes :=
  if ignoreCase then bytes.map lowerByte else bytes

/-- A name matches a stored name of which `skip` leading bytes are passed over, or
all of them if there are fewer. -/
def nameMatches (ignoreCase : Bool) (skip : Nat) (name stored : Text) : Bool :=
  comparedBytes ignoreCase (Utf8.encode name) =
    comparedBytes ignoreCase ((Utf8.encode stored).drop skip)

def findName? (ignoreCase : Bool) (skip : Nat) (stored : List Text) (name : Text) : Option Nat :=
  stored.findIdx? (nameMatches ignoreCase skip name)

/-- A name that an earlier one hides when letter case is ignored, by their positions. -/
structure Collision where
  index : Nat
  shadowedBy : Nat
  deriving DecidableEq, Repr

/-- The names that cannot be found when letter case is ignored, in order. -/
def collisions (names : List Text) : List Collision :=
  names.zipIdx.filterMap fun (name, i) =>
    match findName? true 0 names name with
    | some j => if j = i then none else some ⟨i, j⟩
    | none => none

end EnumCodegen
