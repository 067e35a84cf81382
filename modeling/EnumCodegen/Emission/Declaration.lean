import EnumCodegen.Code.Basic
import EnumCodegen.Emission.Names
import EnumCodegen.Emission.Traits

/-! The declaration file: a head, one chunk for each enumeration, and a tail.
A chunk depends on its enumeration and the condition alone. -/

namespace EnumCodegen

/-- The lines that name the tool and the command that ran it. -/
def banner (command? : Option Text) : Code :=
  .verbatim ("// file auto-generated by [" ++ toolName ++ "]") ++
  .all (command?.toList.map fun command => .verbatim ("// command: " ++ command)) ++
  .verbatim "// do not edit: regenerate from the description instead"

namespace Declaration

def body (e : Enumeration) : Code :=
  .block (e.storageType ++ " " ++ e.name) "\x7d;"
    (.all (e.entries.map fun entry => .line (entry.declarator ++ ",")))

/-- The declarations of the helpers that every enumeration has. -/
def prototypes (e : Enumeration) : Code :=
  .all ([.toString, .fromString, .valueCount, .fromIndex, .toIndex].map
    fun h => .line (e.signature h ++ ";"))

/-- The declaration of the traits lookup, whose last argument has a default. -/
def traitsPrototype (e : Enumeration) : Text :=
  let traits : Text := e.traitsType?.getD "void"
  "const " ++ traits ++ " *" ++ Helper.name .getTraits e.name ++ "(" ++ e.name ++
    " value, const " ++ traits ++ " *defaultTraits = 0)"

def traits (e : Enumeration) (table : TraitsTable) : Code :=
  .blank ++ .conditional table.condition? (.line (traitsPrototype e ++ ";"))

def chunk (condition? : Option Text) (e : Enumeration) : Code :=
  .blank ++ body e ++ .blank ++ .conditional condition? (prototypes e) ++
  .all (e.traitsTable?.toList.map (traits e))

/-- The marker, the banner, the include guard and the lines that go on top. -/
def head (d : Description) (token : Text) (command? : Option Text) : Code :=
  .verbatim (markerLead ++ token) ++ banner command? ++
  .verbatim ("#ifndef " ++ includeGuard token) ++
  .verbatim ("#define " ++ includeGuard token) ++
  .all (d.top.map .verbatim) ++ .all (d.includes.map .verbatim)

/-- The lines that go at the bottom and the end of the include guard. -/
def tail (d : Description) (token : Text) : Code :=
  .blank ++ .all (d.bottom.map .verbatim) ++ .verbatim ("#endif // " ++ includeGuard token)

def code (d : Description) (token : Text) (command? : Option Text) : Code :=
  head d token command? ++ .all (d.enumerations.map (chunk d.condition?)) ++ tail d token

end Declaration

end EnumCodegen
