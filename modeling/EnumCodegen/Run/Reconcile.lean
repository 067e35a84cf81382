import EnumCodegen.Run.Host

/-! Bringing output files up to date.
A file that already holds its text is not written. -/

namespace EnumCodegen

/-- A file and the text it should hold. -/
structure Artifact where
  path : Path
  text : Text
  deriving DecidableEq, Repr

inductive Outcome where
  | written
  | unchanged
  deriving DecidableEq, Repr

def Outcome.name : Outcome → Text
  | .written => "Written"
  | .unchanged => "Unchanged"

def Outcome.event (path : Path) : Outcome → Event
  | .written => .written path
  | .unchanged => .unchanged path

structure PathError where
  path : Path
  cause : FileError
  deriving DecidableEq, Repr

def PathError.message (e : PathError) : Text := e.path.display ++ ": " ++ e.cause.message

variable {m : Type → Type} [Monad m] [Host m]

def makeParent (path : Path) : ExceptT FileError m Unit :=
  match path.parent? with
  | none => pure ()
  | some parent => if parent.bytes = [] then pure () else Host.makeDirectories parent

/-! ## Staging -/

/-- An artifact, and the temporary file that its text was put into. -/
structure Staged where
  artifact : Artifact
  file : Temporary (Utf8.encode artifact.text)

def Artifact.stage (a : Artifact) : ExceptT PathError m Staged :=
  (Staged.mk a <$> Host.stage (Utf8.encode a.text)).adapt (PathError.mk a.path)

/-- Runs an action and removes the temporary file, whatever came of the action. -/
def Staged.during {ε α : Type} (s : Staged) (action : ExceptT ε m α) : ExceptT ε m α :=
  ExceptT.mk do
    let answer ← action.run
    Host.discard s.file
    return answer

/-- Stages artifacts in order, and goes on once all of them are. -/
def withStaged {α : Type} :
    List Artifact → (List Staged → ExceptT PathError m α) → ExceptT PathError m α
  | [], go => go []
  | a :: rest, go => do
    let staged ← a.stage
    staged.during (withStaged rest fun others => go (staged :: others))

/-! ## Writing what differs -/

def Staged.holds (s : Staged) : ExceptT FileError m Bool := do
  match ← readIfPresent s.artifact.path with
  | none => return false
  | some content => return (← Host.readStaged s.file) = content

/-- Writes one artifact unless its file holds the text already. -/
def Staged.settle (s : Staged) : ExceptT FileError m Outcome := do
  if ← s.holds then return .unchanged
  makeParent s.artifact.path
  Host.writeFile s.artifact.path (Utf8.encode s.artifact.text)
  return .written

/-- Settles one artifact and reports what became of it. -/
def Staged.update (spans : List Span) (s : Staged) : ExceptT PathError m Outcome := do
  let outcome ← s.settle.adapt (PathError.mk s.artifact.path)
  note spans (outcome.event s.artifact.path)
  return outcome

/-- Updates staged artifacts in order, up to the first that fails. -/
def updateAll (spans : List Span) : List Staged → ExceptT PathError m (List Outcome)
  | [] => return []
  | s :: rest => do
    let outcome ← s.update spans
    return outcome :: (← updateAll spans rest)

/-- Stages all artifacts, and then updates them. No file is looked at before all are staged. -/
def reconcile (spans : List Span) (as : List Artifact) : ExceptT PathError m (List Outcome) :=
  withStaged as (updateAll spans)

end EnumCodegen
