import EnumCodegen.Log
import EnumCodegen.Storage.FileError

/-! What a run asks of its surroundings: files, random letters and a log. -/

namespace EnumCodegen

/-- A temporary file that was made for a content, by the name that its host has for it. -/
structure Temporary (content : Bytes) where
  name : Text

/-- The effects of a run. A failed effect leaves the contents of files as they were. -/
class Host (m : Type → Type) where
  readFile : Path → ExceptT FileError m Bytes
  writeFile : Path → Bytes → ExceptT FileError m Unit
  makeDirectories : Path → ExceptT FileError m Unit
  stage : (content : Bytes) → ExceptT FileError m (Temporary content)
  readStaged : {content : Bytes} → Temporary content → ExceptT FileError m Bytes
  discard : {content : Bytes} → Temporary content → m Unit
  letters : Nat → m Text
  record : LogRecord → m Unit

variable {m : Type → Type} [Monad m] [Host m]

/-- Records an event inside spans. Recording cannot fail. -/
def note {ε : Type} (spans : List Span) (event : Event) : ExceptT ε m Unit :=
  ExceptT.lift (Host.record ⟨spans, event⟩)

/-- Records events in order, all inside the same spans. -/
def noteAll {ε : Type} (spans : List Span) (events : List Event) : ExceptT ε m Unit :=
  forM events (note spans)

/-- The content of a file, or nothing if there is no such file. -/
def readIfPresent (path : Path) : ExceptT FileError m (Option Bytes) :=
  tryCatch (some <$> Host.readFile path) fun
    | .notFound => pure none
    | e => throw e

def readText (path : Path) : ExceptT FileError m Text := do
  match Utf8.decode? (← Host.readFile path) with
  | some text => pure text
  | none => throw .notUtf8

end EnumCodegen
