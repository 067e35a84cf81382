import EnumCodegen.Log.Filter
import EnumCodegen.Text.Terminal

/-! The log of a run: records of events, shown as lines.
The wording of an event cannot act on a terminal, whatever texts it quotes. -/

namespace EnumCodegen

/-- An event and the spans around it, outermost first. -/
structure LogRecord where
  spans : List Span
  event : Event
  deriving DecidableEq, Repr

/-- The line of an event inside the spans that are shown with it. -/
def Event.line (e : Event) (spans : List Span) : Text :=
  let name := e.level.name
  let around : Text := if spans = [] then [] else Text.join ":" (spans.map Span.text) ++ ": "
  List.replicate (5 - name.length) ' ' ++ name ++ " " ++ around ++ e.message.spelledOut ++
    e.details ++ "\n"

def LogFilter.lines (f : LogFilter) (records : List LogRecord) : Text :=
  (records.filter fun r => f.shows r.spans r.event).flatMap fun r =>
    r.event.line (f.scope r.spans).spans

end EnumCodegen
