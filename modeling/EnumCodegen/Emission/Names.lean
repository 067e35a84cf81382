import EnumCodegen.Description.Basic

/-! The names that generated code declares and the fixed words in it. -/

namespace EnumCodegen

def toolName : Text := "enumg"

/-- The front of the line that keeps the guard token of a declaration file. -/
def markerLead : Text := "// enumg-guard: "

/-- What generated lookups return when nothing is found. -/
def notFound : Int := -1

inductive Helper where
  | toString
  | fromString
  | valueCount
  | fromIndex
  | toIndex
  | getTraits
  deriving DecidableEq, Repr

namespace Helper

/-- All helpers, in the order in which a declaration file lists them. -/
def all : List Helper := [.toString, .fromString, .valueCount, .fromIndex, .toIndex, .getTraits]

def suffix : Helper → Text
  | .toString => "ToString"
  | .fromString => "FromString"
  | .valueCount => "ValueCount"
  | .fromIndex => "FromIndex"
  | .toIndex => "ToIndex"
  | .getTraits => "GetTraits"

def name (h : Helper) (owner : Text) : Text := owner ++ h.suffix

end Helper

def stringTableName (owner : Text) : Text := "g_" ++ owner ++ "StringArray"

def valueTableName (owner : Text) : Text := "g_" ++ owner ++ "ValueArray"

def traitsEntryTypeName (owner : Text) : Text := owner ++ "TraitsEntry"

def traitsTableName (owner : Text) : Text := "g_" ++ owner ++ "TraitsTable"

/-- The macro that keeps a declaration file from being included twice. -/
def includeGuard (token : Text) : Text := "__enumg_HeaderGuard_" ++ token ++ "_INCLUDED__"

/-- The signature that a helper is declared and defined with. Only the traits lookup
of a declaration adds to it. -/
def Enumeration.signature (e : Enumeration) (h : Helper) : Text :=
  let function := h.name e.name
  let traits : Text := e.traitsType?.getD "void"
  match h with
  | .toString => "const char *" ++ function ++ "(" ++ e.name ++ " value)"
  | .fromString =>
    "int " ++ function ++ "(const char *str, " ++ e.name ++
      " *presult, int ignoreCase, unsigned ignorePrefixLen)"
  | .valueCount => "unsigned " ++ function ++ "(void)"
  | .fromIndex => e.name ++ " " ++ function ++ "(unsigned index)"
  | .toIndex => "int " ++ function ++ "(" ++ e.name ++ " value)"
  | .getTraits =>
    "const " ++ traits ++ " *" ++ function ++ "(" ++ e.name ++ " value, const " ++ traits ++
      " *defaultTraits)"

end EnumCodegen
