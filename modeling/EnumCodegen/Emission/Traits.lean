import EnumCodegen.Description.Basic

/-! The traits table of an enumeration.
Only entries with a payload have a row, and the first row of a value is the one found. -/

namespace EnumCodegen

structure TraitsRow where
  value : Text
  payload : Text
  deriving DecidableEq, Repr

/-- The rows of a traits table, the type of their traits and the macro that enables them. -/
structure TraitsTable where
  typeName : Text
  condition? : Option Text
  rows : List TraitsRow
  deriving DecidableEq, Repr

def Entry.traitsRow? (e : Entry) : Option TraitsRow :=
  e.payload?.map fun payload => ⟨e.name, payload⟩

def Enumeration.traitsTable? (e : Enumeration) : Option TraitsTable :=
  e.traitsType?.map fun typeName =>
    ⟨typeName, e.traitsCondition?, e.entries.filterMap Entry.traitsRow?⟩

namespace TraitsTable

def find? (t : TraitsTable) (value : Text) : Option Nat := t.rows.findIdx? (·.value = value)

/-- The rows that are never found, with their positions. -/
def shadowed (t : TraitsTable) : List (Nat × TraitsRow) :=
  t.rows.zipIdx.filterMap fun (row, i) =>
    if t.find? row.value = some i then none else some (i, row)

end TraitsTable

end EnumCodegen
