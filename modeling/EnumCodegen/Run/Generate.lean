import EnumCodegen.Emission
import EnumCodegen.Run.Config
import EnumCodegen.Run.Reconcile
import EnumCodegen.Run.Resolve

/-! Generating the two files of one description: read it, build the model, find the
guard token, emit, and bring the files up to date. -/

namespace EnumCodegen

inductive GenerateError where
  | model (cause : ModelError)
  | file (cause : PathError)
  deriving DecidableEq, Repr

structure Report where
  guard : GuardToken
  declarationPath : Path
  definitionPath : Path
  declaration : Outcome
  definition : Outcome
  warnings : Nat
  deriving DecidableEq, Repr

def Report.filesWritten (r : Report) : Nat := [r.declaration, r.definition].count .written

namespace Config

def declarationPath (c : Config) (d : Description) (title : Text) : Path :=
  (c.outputDir d.includeDir?).join (.ofText (title ++ "." ++ d.declarationSuffix))

def definitionPath (c : Config) (d : Description) (title : Text) : Path :=
  (c.outputDir d.sourceDir?).join (.ofText (title ++ "." ++ d.definitionSuffix))

/-- What is emitted for a description under a guard token. -/
def emission (c : Config) (d : Description) (title token : Text) : Emission :=
  { description := d, token, title, command? := c.command?, unit := c.indent.unit }

def declarationArtifact (c : Config) (d : Description) (title token : Text) : Artifact :=
  ⟨c.declarationPath d title, (c.emission d title token).declaration⟩

def definitionArtifact (c : Config) (d : Description) (title token : Text) : Artifact :=
  ⟨c.definitionPath d title, (c.emission d title token).definition⟩

/-- Both files, in the order in which they are written. -/
def artifacts (c : Config) (d : Description) (title token : Text) : List Artifact :=
  [c.declarationArtifact d title token, c.definitionArtifact d title token]

end Config

variable {m : Type → Type} [Monad m] [Host m]

/-- A file operation of `generate`, with the path that its failure names. -/
def onPath {α : Type} (path : Path) (action : ExceptT FileError m α) :
    ExceptT GenerateError m α :=
  action.adapt fun cause => .file ⟨path, cause⟩

/-- Finds the token of a description, emits, and brings both files up to date. -/
def produce (c : Config) (input : Path) (d : Description) (warnings : Nat) :
    ExceptT GenerateError m Report := do
  let spans := [.generate input]
  let title := Guard.title input
  let declarationPath := c.declarationPath d title
  let guard ← onPath declarationPath (Guard.resolve spans d.guardToken? input declarationPath)
  noteAll (spans ++ [.emit d.enumerations.length]) d.emitEvents
  let artifacts := c.artifacts d title guard.token
  let outcomes ← (reconcile (spans ++ [.reconcile artifacts.length]) artifacts).adapt .file
  return {
    guard, declarationPath
    definitionPath := c.definitionPath d title
    declaration := outcomes[0]?.getD .unchanged
    definition := outcomes[1]?.getD .unchanged
    warnings }

def generate (c : Config) (input : Path) : ExceptT GenerateError m Report := do
  let spans := [.generate input]
  let source ← onPath input (readText input)
  let reading := Reading.ofText source
  noteAll spans (reading.diagnostics.map (.malformed input))
  noteAll spans (Description.buildEvents reading.triples)
  match Description.ofTriples reading.triples with
  | .error e => throw (.model e)
  | .ok d => produce c input d reading.diagnostics.length

end EnumCodegen
