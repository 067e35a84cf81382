import EnumCodegen.Text.Basic

/-! The keys of a description.
Each key has one spelling that is written and perhaps others that are also read. -/

namespace EnumCodegen

inductive Key where
  | declarationSuffix
  | definitionSuffix
  | headerGuard
  | storageType
  | traits
  | traitsCondition
  | condition
  | top
  | bottom
  | includeFile
  | sourceDir
  | includeDir
  | field
  deriving DecidableEq, Repr

/-- What a key describes: the whole description, the open section, or one entry of it. -/
inductive KeyScope where
  | global
  | perSection
  | perEntry
  deriving DecidableEq, Repr

namespace Key

/-- All keys, in the order in which they are listed to a reader. -/
def all : List Key :=
  [.declarationSuffix, .definitionSuffix, .headerGuard, .storageType, .traits, .traitsCondition,
   .condition, .top, .bottom, .includeFile, .sourceDir, .includeDir, .field]

/-- The spelling of a key that the documentation uses. -/
def spelling : Key → Text
  | .declarationSuffix => "c-header"
  | .definitionSuffix => "c-source"
  | .headerGuard => "header-guard"
  | .storageType => "type"
  | .traits => "thraits"
  | .traitsCondition => "thraits-enable-macro"
  | .condition => "stringify-define"
  | .top => "top"
  | .bottom => "bottom"
  | .includeFile => "include-file"
  | .sourceDir => "src-dir"
  | .includeDir => "include-dir"
  | .field => "field"

def aliases : Key → List Text
  | .traits => ["traits"]
  | .traitsCondition => ["traits-enable-macro"]
  | _ => []

def scope : Key → KeyScope
  | .storageType | .traits | .traitsCondition => .perSection
  | .field => .perEntry
  | _ => .global

def explanation : Key → Text
  | .declarationSuffix => "File extension of the generated declaration (header) file."
  | .definitionSuffix => "File extension of the generated definition (source) file."
  | .headerGuard => "Explicit guard token; disables guard recovery and generation."
  | .storageType => "Storage type text emitted before the enum name."
  | .traits => "Name of the per-value traits record type."
  | .traitsCondition => "Macro guarding the generated traits lookup."
  | .condition => "Macro guarding all generated stringify and lookup code."
  | .top => "Verbatim line placed near the top of the declaration file."
  | .bottom => "Verbatim line placed at the bottom of the declaration file."
  | .includeFile => "Verbatim include directive placed near the top of the declaration file."
  | .sourceDir => "Output directory of the definition file."
  | .includeDir => "Output directory of the declaration file."
  | .field => "One enum entry: `NAME`, `NAME = value` and/or a `(traits payload)`."

/-- The key that a text spells, letter case included. -/
def ofSpelling? (text : Text) : Option Key :=
  all.find? fun key => key.spelling = text ∨ text ∈ key.aliases

end Key

end EnumCodegen
