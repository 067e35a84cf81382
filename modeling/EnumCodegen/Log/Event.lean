import EnumCodegen.Guard
import EnumCodegen.Lookup
import EnumCodegen.Emission.Traits

/-! What a run reports on its way: events with a level, inside nested spans.
Events and spans come from named parts of the program and have named fields. -/

namespace EnumCodegen

inductive Level where
  | error
  | warn
  | info
  | debug
  deriving DecidableEq, Repr

def Level.name : Level → Text
  | .error => "ERROR"
  | .warn => "WARN"
  | .info => "INFO"
  | .debug => "DEBUG"

/-- Smaller for what is more important. -/
def Level.rank : Level → Nat
  | .error => 1
  | .warn => 2
  | .info => 3
  | .debug => 4

inductive FieldValue where
  | text (value : Text)
  | number (value : Nat)
  deriving DecidableEq, Repr

def FieldValue.shown : FieldValue → Text
  | .text value => value
  | .number value => .ofNat value

/-- A named detail of an event or a span. -/
structure Field where
  name : Text
  value : FieldValue
  deriving DecidableEq, Repr

def Field.shown (f : Field) : Text := f.name ++ "=" ++ f.value.shown

/-- What can happen during a run that a reader may want to know. -/
inductive Event where
  | applied (t : Triple)
  | unknownKey (key : Text) (line : Nat)
  | malformed (input : Path) (diagnostic : Diagnostic)
  | tokenRecovered (token : Text) (declaration : Path)
  | tokenGenerated (token : Text)
  | enumeration (name : Text)
  | noEntries (owner : Text)
  | unreachable (owner name first : Text)
  | traitsHidden (owner : Text) (row : TraitsRow)
  | written (path : Path)
  | unchanged (path : Path)
  | input (path : Path)
  | guardToken (guard : GuardToken)
  | malformedCount (count : Nat)
  | upToDate
  deriving DecidableEq, Repr

namespace Event

def level : Event → Level
  | .applied _ | .unknownKey .. | .tokenRecovered .. | .tokenGenerated _ | .unchanged _ => .debug
  | .enumeration _ | .written _ | .input _ | .guardToken _ | .upToDate => .info
  | .malformed .. | .noEntries _ | .unreachable .. | .traitsHidden .. | .malformedCount _ => .warn

/-- The part of the program that an event comes from, as filters name it. -/
def origin : Event → Text
  | .applied _ | .unknownKey .. => "enumg::frontend::model"
  | .malformed .. => "enumg::backend::project"
  | .tokenRecovered .. | .tokenGenerated _ => "enumg::backend::guard"
  | .enumeration _ | .noEntries _ | .unreachable .. | .traitsHidden .. => "enumg::backend::emitter"
  | .written _ | .unchanged _ => "enumg::backend::reconcile"
  | .input _ | .guardToken _ | .malformedCount _ | .upToDate => "enumg::cli::commands"

def message : Event → Text
  | .applied t => "[" ++ t.sectionName ++ "]" ++ t.key ++ "=" ++ t.value
  | .unknownKey .. => "ignoring unrecognized key"
  | .malformed path diagnostic => path.display ++ ": " ++ diagnostic.message
  | .tokenRecovered .. => "recovered guard token"
  | .tokenGenerated _ => "generated guard token"
  | .enumeration name => "write enum " ++ name
  | .noEntries owner => owner ++ ": section has no `field` entries, lookups always fail"
  | .unreachable owner name first =>
    owner ++ ": `" ++ name ++ "` is unreachable through case-insensitive " ++ owner ++
      "FromString, `" ++ first ++ "` matches first"
  | .traitsHidden owner row =>
    owner ++ ": traits " ++ row.payload ++ " for `" ++ row.value ++ "` are never returned"
  | .written path => "write " ++ path.display
  | .unchanged path => "unchanged " ++ path.display
  | .input path => "input: " ++ path.display
  | .guardToken _ => "guard token"
  | .malformedCount n => Text.ofNat n ++ " malformed line(s) skipped"
  | .upToDate => "outputs up to date"

def fields : Event → List Field
  | .unknownKey key n => [⟨"key", .text key⟩, ⟨"line", .number n⟩]
  | .tokenRecovered token path => [⟨"token", .text token⟩, ⟨"path", .text path.display⟩]
  | .tokenGenerated token => [⟨"token", .text token⟩]
  | .guardToken g => [⟨"token", .text g.token⟩, ⟨"source", .text g.source.name⟩]
  | _ => []

/-- The details of an event, each after a space. -/
def details (e : Event) : Text := e.fields.flatMap fun f => ' ' :: f.shown

def text (e : Event) : Text := e.message ++ e.details

end Event

def Triple.events (t : Triple) : List Event :=
  match Key.ofSpelling? t.key with
  | some _ => [.applied t]
  | none => [.applied t, .unknownKey t.key t.line]

def Description.buildEvents (triples : List Triple) : List Event :=
  (Builder.start.seen triples).flatMap Triple.events

/-- What emitting an enumeration warns about: no entry to look up, names that another
hides, and traits that another row hides. -/
def Enumeration.warnings (e : Enumeration) : List Event :=
  if e.entries = [] then [.noEntries e.name]
  else
    (collisions e.names).map (fun c =>
      .unreachable e.name (e.names.getD c.index []) (e.names.getD c.shadowedBy [])) ++
    e.traitsTable?.toList.flatMap fun table =>
      table.shadowed.map fun (_, row) => .traitsHidden e.name row

def Description.emitEvents (d : Description) : List Event :=
  d.enumerations.flatMap fun e => .enumeration e.name :: e.warnings

/-- A part of a run that events are reported inside of. -/
inductive Span where
  | generate (input : Path)
  | emit (enumerations : Nat)
  | reconcile (artifacts : Nat)
  deriving DecidableEq, Repr

namespace Span

def name : Span → Text
  | .generate _ => "generate"
  | .emit _ => "emit"
  | .reconcile _ => "reconcile"

def origin : Span → Text
  | .generate _ => "enumg::backend::project"
  | .emit _ => "enumg::backend::emitter"
  | .reconcile _ => "enumg::backend::reconcile"

def field : Span → Field
  | .generate input => ⟨"input", .text input.display⟩
  | .emit n => ⟨"sections", .number n⟩
  | .reconcile n => ⟨"artifacts", .number n⟩

def text (s : Span) : Text := s.name ++ "\x7b" ++ s.field.shown ++ "\x7d"

/-- Every span is as important as what a run tells by the way. -/
def level : Level := .info

end Span

end EnumCodegen
