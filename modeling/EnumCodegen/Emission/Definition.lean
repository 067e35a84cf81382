import EnumCodegen.Code.StringLiteral
import EnumCodegen.Emission.Declaration

/-! The definition file: a head and one chunk for each enumeration, with its tables
and the bodies of its helpers. -/

namespace EnumCodegen.Definition

def stringTable (e : Enumeration) : Code :=
  .block ("const char *" ++ stringTableName e.name ++ "[] =") "\x7d;"
    (.all (e.entries.map fun entry => .line (StringLiteral.encode entry.name ++ ",")))

def valueTable (e : Enumeration) : Code :=
  .block (e.name ++ " " ++ valueTableName e.name ++ "[] =") "\x7d;"
    (.all (e.entries.map fun entry => .line (entry.name ++ ",")))

def returnNotFound : Code := .line ("return " ++ .ofInt notFound ++ ";")

def forEachIndex (body : Code) : Code := .braces "for (unsigned i = 0; i < count; ++i)" body

def countLine (e : Enumeration) : Code :=
  .line ("unsigned count = " ++ Helper.name .valueCount e.name ++ "();")

def toStringBody (e : Enumeration) : Code :=
  .braces (e.signature .toString) <|
    .line ("int ix = " ++ Helper.name .toIndex e.name ++ "(value);") ++
    .braces "if (ix < 0)" (.line "return NULL;") ++
    .line ("return " ++ stringTableName e.name ++ "[ix];")

def toIndexBody (e : Enumeration) : Code :=
  .braces (e.signature .toIndex) <|
    countLine e ++
    forEachIndex
      (.braces ("if (" ++ valueTableName e.name ++ "[i] == value)") (.line "return (int)i;")) ++
    returnNotFound

def fromIndexBody (e : Enumeration) : Code :=
  .braces (e.signature .fromIndex) (.line ("return " ++ valueTableName e.name ++ "[index];"))

def valueCountBody (e : Enumeration) : Code :=
  .braces (e.signature .valueCount) (.line ("return " ++ .ofNat e.entries.length ++ ";"))

/-- The comparison of the text at `cursor` with the text at `stored`, character by
character. A match stores the value and returns. -/
def comparison : Code :=
  .braces "for (;;)" <|
    .line "int a = (unsigned char)*cursor;" ++
    .line "int b = (unsigned char)*stored;" ++
    .braces "if (ignoreCase)" (.line "a = tolower(a);" ++ .line "b = tolower(b);") ++
    .braces "if (a != b)" (.line "break;") ++
    .braces "if (a == '\\0')" (.line "*presult = value;" ++ .line "return 0;") ++
    .line "++cursor;" ++
    .line "++stored;"

def fromStringBody (e : Enumeration) : Code :=
  .braces (e.signature .fromString) <|
    countLine e ++
    forEachIndex
      (.line (e.name ++ " value = " ++ Helper.name .fromIndex e.name ++ "(i);") ++
        .line ("const char *stored = " ++ Helper.name .toString e.name ++ "(value);") ++
        .line "const char *cursor = str;" ++
        .line "unsigned skip = 0;" ++
        .braces "while (skip < ignorePrefixLen && stored[skip] != '\\0')" (.line "++skip;") ++
        .line "stored += skip;" ++
        comparison) ++
    returnNotFound

def fullHelpers (e : Enumeration) : Code :=
  stringTable e ++ .blank ++ valueTable e ++ .blank ++ toStringBody e ++ .blank ++
  toIndexBody e ++ .blank ++ fromIndexBody e ++ .blank ++ valueCountBody e ++ .blank ++
  fromStringBody e

/-- The helpers of an enumeration without entries, where every lookup fails. -/
def emptyHelpers (e : Enumeration) : Code :=
  .braces (e.signature .toString) (.line "(void)value;" ++ .line "return NULL;") ++ .blank ++
  .braces (e.signature .toIndex) (.line "(void)value;" ++ returnNotFound) ++ .blank ++
  .braces (e.signature .fromIndex)
    (.line "(void)index;" ++ .line ("return (" ++ e.name ++ ")0;")) ++ .blank ++
  .braces (e.signature .valueCount) (.line "return 0;") ++ .blank ++
  .braces (e.signature .fromString)
    (.line "(void)str;" ++ .line "(void)presult;" ++ .line "(void)ignoreCase;" ++
      .line "(void)ignorePrefixLen;" ++ returnNotFound)

def helpers (e : Enumeration) : Code :=
  if e.entries = [] then emptyHelpers e else fullHelpers e

def traitsRow (table : TraitsTable) (row : TraitsRow) : Text :=
  "\x7b " ++ row.value ++ ", " ++ table.typeName ++ row.payload ++ " \x7d,"

/-- The record type, the table and the lookup of traits. Without rows only the lookup
is left, and it answers with its default. -/
def traitsBody (e : Enumeration) (table : TraitsTable) : Code :=
  if table.rows = [] then
    .braces (e.signature .getTraits) (.line "(void)value;" ++ .line "return defaultTraits;")
  else
    .block "typedef struct" ("\x7d " ++ traitsEntryTypeName e.name ++ ";")
      (.line (e.name ++ " value;") ++ .line (table.typeName ++ " traits;")) ++
    .blank ++
    .block
      ("static const " ++ traitsEntryTypeName e.name ++ " " ++ traitsTableName e.name ++ "[] =")
      "\x7d;" (.all (table.rows.map fun row => .line (traitsRow table row))) ++
    .blank ++
    .braces (e.signature .getTraits)
      (.line ("unsigned count = " ++ .ofNat table.rows.length ++ ";") ++
        forEachIndex
          (.braces ("if (" ++ traitsTableName e.name ++ "[i].value == value)")
            (.line ("return &" ++ traitsTableName e.name ++ "[i].traits;"))) ++
        .line "return defaultTraits;")

def traits (e : Enumeration) (table : TraitsTable) : Code :=
  .blank ++ .conditional table.condition? (traitsBody e table)

def chunk (condition? : Option Text) (e : Enumeration) : Code :=
  .blank ++ .conditional condition? (helpers e) ++ .all (e.traitsTable?.toList.map (traits e))

def standardIncludes : Code :=
  .verbatim "#if defined(__cplusplus)" ++
  .indent ++ .line "#include <cstring>" ++ .line "#include <cctype>" ++ .dedent ++
  .verbatim "#else" ++
  .indent ++ .line "#include <string.h>" ++ .line "#include <ctype.h>" ++ .dedent ++
  .verbatim "#endif"

def head (condition? : Option Text) (declarationFile : Text) (command? : Option Text) : Code :=
  banner command? ++ .verbatim ("#include \"" ++ declarationFile ++ "\"") ++
  .conditional condition? standardIncludes

def code (d : Description) (declarationFile : Text) (command? : Option Text) : Code :=
  head d.condition? declarationFile command? ++ .all (d.enumerations.map (chunk d.condition?))

end EnumCodegen.Definition
