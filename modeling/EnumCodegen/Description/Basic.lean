import EnumCodegen.Description.Entry

/-! What a description says: settings of the output files and the enumerations in
them, in order. An absent setting has a default. -/

namespace EnumCodegen

structure Enumeration where
  name : Text
  storageType? : Option Text := none
  traitsType? : Option Text := none
  traitsCondition? : Option Text := none
  entries : List Entry := []
  deriving DecidableEq, Repr

/-- The text before the name in the declaration of the enumeration. -/
def Enumeration.storageType (e : Enumeration) : Text := e.storageType?.getD "enum"

def Enumeration.names (e : Enumeration) : List Text := e.entries.map Entry.name

/-- A whole description. Two enumerations may have one name. -/
structure Description where
  declarationSuffix? : Option Text := none
  definitionSuffix? : Option Text := none
  guardToken? : Option Text := none
  condition? : Option Text := none
  sourceDir? : Option Text := none
  includeDir? : Option Text := none
  top : List Text := []
  bottom : List Text := []
  includes : List Text := []
  enumerations : List Enumeration := []
  deriving DecidableEq, Repr

namespace Description

def empty : Description := {}

def declarationSuffix (d : Description) : Text := d.declarationSuffix?.getD "h"

def definitionSuffix (d : Description) : Text := d.definitionSuffix?.getD "c"

def updateLast? (d : Description) (f : Enumeration → Enumeration) : Option Description :=
  match d.enumerations.getLast? with
  | none => none
  | some e => some { d with enumerations := d.enumerations.dropLast ++ [f e] }

@[simp] theorem updateLast?_eq_none_iff {d : Description} {f : Enumeration → Enumeration} :
    d.updateLast? f = none ↔ d.enumerations = [] := by
  unfold updateLast?
  cases h : d.enumerations.getLast? with
  | none => simpa using h
  | some e => simpa using fun he : d.enumerations = [] => by simp [he] at h

end Description

end EnumCodegen
