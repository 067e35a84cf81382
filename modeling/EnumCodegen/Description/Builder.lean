import EnumCodegen.Description.Basic
import EnumCodegen.Description.Key
import EnumCodegen.Description.Reading

/-! Building a description from the settings read.
A setting is applied as a whole or refused; only a setting that needs a section
while none is open is refused. -/

namespace EnumCodegen

/-- Why a setting is refused: it needs a section and none is open. -/
inductive ModelError where
  | entryOutsideSection (value : Text) (line : Nat)
  | keyOutsideSection (key : Text) (line : Nat)
  deriving DecidableEq, Repr

namespace ModelError

def message : ModelError → Text
  | .entryOutsideSection value n =>
    "line " ++ .ofNat n ++ ": FIELD without SECTION (`field=" ++ value ++
      "` appears before any [section])"
  | .keyOutsideSection key n =>
    "line " ++ .ofNat n ++ ": `" ++ key ++
      "` sets a section property but no [section] is open"

def code : ModelError → Text
  | .entryOutsideSection .. => "enumg::config::field_without_section"
  | .keyOutsideSection .. => "enumg::config::section_key_without_section"

def help? : ModelError → Option Text
  | .entryOutsideSection .. => some "add a `[Name]` section header before the first `field` line"
  | .keyOutsideSection .. => none

end ModelError

/-- The value of a setting: an empty one unsets it. -/
def nonEmpty? (value : Text) : Option Text := if value = [] then none else some value

/-- Sets a key, unless it needs an open section and there is none. -/
def Description.set? (d : Description) (key : Key) (value : Text) : Option Description :=
  match key with
  | .declarationSuffix => some { d with declarationSuffix? := nonEmpty? value }
  | .definitionSuffix => some { d with definitionSuffix? := nonEmpty? value }
  | .headerGuard => some { d with guardToken? := nonEmpty? value }
  | .condition => some { d with condition? := nonEmpty? value }
  | .sourceDir => some { d with sourceDir? := nonEmpty? value }
  | .includeDir => some { d with includeDir? := nonEmpty? value }
  | .top => some { d with top := d.top ++ [value] }
  | .bottom => some { d with bottom := d.bottom ++ [value] }
  | .includeFile => some { d with includes := d.includes ++ [value] }
  | .storageType => d.updateLast? fun e => { e with storageType? := nonEmpty? value }
  | .traits => d.updateLast? fun e => { e with traitsType? := nonEmpty? value }
  | .traitsCondition => d.updateLast? fun e => { e with traitsCondition? := nonEmpty? value }
  | .field => d.updateLast? fun e => { e with entries := e.entries ++ [Entry.ofText value] }

theorem Description.set?_eq_none_iff {d : Description} {key : Key} {value : Text} :
    d.set? key value = none ↔ key.scope ≠ .global ∧ d.enumerations = [] := by
  cases key <;> simp [Description.set?, Key.scope]

/-- A description under construction and the name of the section open in it, empty
while there is none. -/
structure Builder where
  description : Description := {}
  openName : Text := []
  deriving DecidableEq, Repr

namespace Builder

def start : Builder := {}

/-- Opens the section that a setting was read in, unless it is the open one. -/
def enter (b : Builder) (sectionName : Text) : Builder :=
  if sectionName ≠ [] ∧ sectionName ≠ b.openName then
    { description :=
        { b.description with
          enumerations := b.description.enumerations ++ [{ name := sectionName }] }
      openName := sectionName }
  else b

def refusal (key : Key) (t : Triple) : ModelError :=
  match key.scope with
  | .perEntry => .entryOutsideSection t.value t.line
  | _ => .keyOutsideSection t.key t.line

/-- Applies one setting: the answer, and the builder afterwards. A key that is not
known sets nothing, but its section is opened all the same. -/
def apply (b : Builder) (t : Triple) : Except ModelError Unit × Builder :=
  let b := b.enter t.sectionName
  match Key.ofSpelling? t.key with
  | none => (.ok (), b)
  | some key =>
    match b.description.set? key t.value with
    | none => (.error (refusal key t), b)
    | some d => (.ok (), { b with description := d })

/-- Applies settings in order, up to the first that is refused. -/
def run (b : Builder) : List Triple → Except ModelError Builder
  | [] => .ok b
  | t :: rest =>
    match b.apply t with
    | (.ok (), b) => b.run rest
    | (.error e, _) => .error e

/-- The settings that `run` looks at: all up to the first refused, and that one. -/
def seen (b : Builder) : List Triple → List Triple
  | [] => []
  | t :: rest =>
    match b.apply t with
    | (.ok (), b) => t :: b.seen rest
    | (.error _, _) => [t]

end Builder

def Description.ofTriples (triples : List Triple) : Except ModelError Description :=
  (Builder.start.run triples).map Builder.description

end EnumCodegen
