import EnumCodegen.Log.Event
import EnumCodegen.Text.Numeral
import EnumCodegen.Text.Pattern.Reader
import EnumCodegen.Text.Pattern.Search

/-! Which events a run shows, and inside which spans.
A filter is a list of directives. A directive raises the events of some parts of the
program, or those inside some spans, up to a threshold; the most precise directive for an
event decides, and a span that the event is in can only show more. -/

namespace EnumCodegen

/-- The least important level that is shown, if any is. -/
inductive Threshold where
  | off
  | upTo (level : Level)
  | all
  deriving DecidableEq, Repr

namespace Threshold

def rank : Threshold → Nat
  | .off => 0
  | .upTo level => level.rank
  | .all => 5

def shows (t : Threshold) (level : Level) : Bool := level.rank ≤ t.rank

def greatest (ts : List Threshold) : Threshold :=
  ts.foldl (fun best t => if best.rank ≤ t.rank then t else best) .off

/-- The words for thresholds. The empty word names errors. -/
def words : List (Text × Threshold) :=
  [([], .upTo .error), ("error", .upTo .error), ("warn", .upTo .warn), ("info", .upTo .info),
   ("debug", .upTo .debug), ("trace", .all), ("off", .off)]

def ofRank? : Nat → Option Threshold
  | 0 => some .off
  | 1 => some (.upTo .error)
  | 2 => some (.upTo .warn)
  | 3 => some (.upTo .info)
  | 4 => some (.upTo .debug)
  | 5 => some .all
  | _ => none

def ofText? (text : Text) : Option Threshold :=
  (text.natural?.bind ofRank?).orElse fun _ => words.lookup (text.map Char.toLower)

end Threshold

/-- What a directive asks of the value of a field. Patterns are told apart by how they are
written. No field of this program holds a truth value, a negative number or a fraction, so
a test for one is never met. -/
inductive ValueTest where
  | number (value : Nat)
  | fits (written : Text) (pattern : Pattern)
  | never
  deriving DecidableEq, Repr

namespace ValueTest

def accepts : ValueTest → FieldValue → Bool
  | .number n, .number m => n = m
  | .fits _ p, .text t => p.fitsEnd t
  | _, _ => false

/-- A number is compared as a number, and every other text is a pattern. -/
def ofText? (text : Text) : Option ValueTest :=
  if text = ("true" : Text) ∨ text = ("false" : Text) then some .never
  else
    match text.natural? with
    | some n => some (.number n)
    | none => if text.isNumeral then some .never else (Pattern.ofText? text).map (.fits text)

end ValueTest

structure FieldTest where
  name : Text
  value? : Option ValueTest := none
  deriving DecidableEq, Repr

namespace FieldTest

def ofText? (text : Text) : Option FieldTest :=
  match pieces '=' text with
  | name :: value :: _ => (ValueTest.ofText? value).map fun v => { name, value? := some v }
  | _ => some { name := text }

end FieldTest

/-- What a directive is about: all that is asked for must hold. -/
structure Selector where
  origin? : Option Text := none
  span? : Option Text := none
  field? : Option FieldTest := none
  deriving DecidableEq, Repr

namespace Selector

/-- Whether a directive is about single events and spans, whatever they are in. -/
def isPlain (s : Selector) : Bool := s.span?.isNone && (s.field?.bind FieldTest.value?).isNone

/-- Whether a directive is about what happens inside of spans. -/
def isAboutSpans (s : Selector) : Bool := s.span?.isSome || s.field?.isSome

def asksForValue (s : Selector) : Bool := (s.field?.bind FieldTest.value?).isSome

def coversOrigin (s : Selector) (origin : Text) : Bool := s.origin?.all (·.isPrefixOf origin)

/-- Besides its details an event has its wording as a field. -/
def coversEvent (s : Selector) (e : Event) : Bool :=
  s.isPlain && s.coversOrigin e.origin &&
    s.field?.all fun f => (("message" : Text) :: e.fields.map Field.name).contains f.name

/-- A plain directive covers the spans of a part of the program whatever their fields. -/
def coversSpan (s : Selector) (span : Span) : Bool := s.isPlain && s.coversOrigin span.origin

def followsSpan (s : Selector) (span : Span) : Bool :=
  s.isAboutSpans && s.coversOrigin span.origin && s.span?.all (· = span.name) &&
    s.field?.all (·.name = span.field.name)

def acceptsValue (s : Selector) (span : Span) : Bool :=
  (s.field?.bind FieldTest.value?).all (·.accepts span.field.value)

/-- The name of the field that must be there, before which there is no name. -/
def fieldName (s : Selector) : List Text := (s.field?.map FieldTest.name).toList

/-- Whether one selector is at least as precise as another: a longer origin counts first,
then a field, then the order of the names of fields. -/
def refines (s t : Selector) : Bool :=
  let length := (s.origin?.getD []).length
  let other := (t.origin?.getD []).length
  other < length || (other = length && !decide (s.fieldName < t.fieldName))

end Selector

structure Directive where
  selector : Selector
  threshold : Threshold
  deriving DecidableEq, Repr

namespace Directive

/-- The threshold after a selector, of which nothing is left to show all. -/
def threshold? (text : Text) : Option Threshold :=
  if text = [] then some .all else Threshold.ofText? text

def finish? (selector : Selector) (shape written : Text) : Option Directive :=
  match shape with
  | [] => some ⟨selector, .all⟩
  | '=' :: _ => (threshold? (written.drop 1)).map (⟨selector, ·⟩)
  | _ :: _ => none

/-- Reads the name of a span and a field in braces, up to the closing bracket. A field
may stand without a name of a span. -/
def bracketed? (origin? : Option Text) (shape written : Text) : Option Directive :=
  let name := (shape.takeWhile fun c => c ≠ ']' && c ≠ '\x7b').length
  match shape.drop name with
  | [] => none
  | ']' :: shape =>
    finish? { origin?, span? := some (written.take name) } shape (written.drop (name + 1))
  | _ :: shape =>
    let inside := written.drop (name + 1)
    let field := (shape.takeWhile (· ≠ '\x7d')).length
    match shape.drop field with
    | '\x7d' :: ']' :: shape =>
      if field = 0 then none
      else do
        let field? := some (← FieldTest.ofText? (inside.take field))
        let span? := if name = 0 then none else some (written.take name)
        finish? { origin?, span?, field? } shape (inside.drop (field + 2))
    | _ => none

/-- The characters that the name of an origin starts with. -/
def startsOrigin (c : Char) : Bool := ['-', ':', '_'].contains c || isAlphanumeric c

/-- Reads a directive: a threshold alone, or an origin, a span in brackets or both, which
a threshold may follow. Blanks at the ends do not count for the shape of a directive, but
its parts are cut out at the same distance from its very start. -/
def ofText? (written : Text) : Option Directive :=
  let shape := written.trim
  match shape with
  | [] => none
  | '[' :: shape => bracketed? none shape (written.drop 1)
  | c :: _ =>
    if !startsOrigin c then none
    else
      let length := (shape.takeWhile fun c => c ≠ '=' && c ≠ '[').length
      let origin := written.take length
      match shape.drop length with
      | [] =>
        match Threshold.ofText? written with
        | some threshold => some ⟨{}, threshold⟩
        | none => some ⟨{ origin? := some written }, .all⟩
      | '[' :: shape => bracketed? (some origin) shape (written.drop (length + 1))
      | shape => finish? { origin? := some origin } shape (written.drop length)

end Directive

/-- A list of directives. Of several with one selector the last one counts. -/
structure LogFilter where
  directives : List Directive
  deriving DecidableEq, Repr

namespace LogFilter

/-- Shows the events up to a threshold and those spans that are as important. -/
def upTo (threshold : Threshold) : LogFilter := ⟨[⟨{}, threshold⟩]⟩

/-- Reads directives between commas. None at all show errors. -/
def ofText? (text : Text) : Option LogFilter :=
  match (pieces ',' text).filter (· ≠ []) with
  | [] => some (upTo (.upTo .error))
  | written => (written.mapM Directive.ofText?).map LogFilter.mk

/-- The directives that a later one does not replace. -/
def effective : List Directive → List Directive
  | [] => []
  | d :: rest =>
    if rest.any (·.selector = d.selector) then effective rest else d :: effective rest

/-- The threshold of the most precise of some directives. -/
def decisive (directives : List Directive) : Threshold :=
  ((directives.foldl (fun best? d =>
    match best? with
    | none => some d
    | some best => if d.selector.refines best.selector then some d else some best)
    none).map Directive.threshold).getD .off

/-- Nothing less important than the ceiling is looked at. It is the greatest threshold,
and lifted altogether where the value of a field is asked for, which is not known before
a span is entered. -/
def ceiling (f : LogFilter) : Threshold :=
  if f.directives.any (·.selector.asksForValue) then .all
  else .greatest (f.directives.map Directive.threshold)

/-- The spans that an event is in as far as they are shown, outermost first, and the
thresholds that they set for what is inside. -/
structure Scope where
  spans : List Span := []
  thresholds : List Threshold := []
  deriving DecidableEq, Repr

def Scope.shows (scope : Scope) (level : Level) : Bool := scope.thresholds.any (·.shows level)

/-- Enters a span. One that directives follow is shown for their sake, and they set the
threshold inside; any other is shown as an event of its level would be. -/
def enter (f : LogFilter) (scope : Scope) (span : Span) : Scope :=
  let current := effective f.directives
  let followers := current.filter (·.selector.followsSpan span)
  let plain := decisive (current.filter (·.selector.coversSpan span))
  if !f.ceiling.shows Span.level then scope
  else if followers ≠ [] then
    let met := followers.filter (·.selector.acceptsValue span)
    { spans := scope.spans ++ [span]
      thresholds := scope.thresholds ++ [.greatest (met.map Directive.threshold)] }
  else if plain.shows Span.level || scope.shows Span.level then
    { scope with spans := scope.spans ++ [span] }
  else scope

def scope (f : LogFilter) (spans : List Span) : Scope := spans.foldl f.enter {}

def shows (f : LogFilter) (spans : List Span) (e : Event) : Bool :=
  let plain := decisive ((effective f.directives).filter (·.selector.coversEvent e))
  f.ceiling.shows e.level && (plain.shows e.level || (f.scope spans).shows e.level)

end LogFilter

end EnumCodegen
